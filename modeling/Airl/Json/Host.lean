import Airl.Library.Returns
import Airl.Library.Utf8
import Airl.Runtime.Value

/-! # What the JSON library runs on

`json.airl` is one of the standard library's files. A build compiles it with its
contract clauses or without them, and every call of one of its functions takes a
frame of the machine's call stack. Its functions answer `(Ok ..)` or `(Err text)`.
-/

namespace Airl.Json

abbrev Bytes := List UInt8

/-- A computation that can stop: a violated contract, a full call stack, an
`rt_error` of a builtin. -/
abbrev Run := Except Fault

/-- The variants `(Ok x)` and `(Err text)`. -/
abbrev Reply := Except String

/-- How the library was built and what the builtins on floats answer. -/
structure Host where
  /-- Whether the contract clauses were compiled into asserts. -/
  contracts : Bool
  maxCallDepth : Nat
  /-- `string-to-float`: the bits, or an `Err`. -/
  stringToFloat : String → Option UInt64
  /-- The text of a float. -/
  floatToString : UInt64 → String

namespace Host

variable (H : Host) {α : Type}

def overflow : Run α := .error (.error (.stackOverflow H.maxCallDepth))

/-- A call with `frames` frames left; the body runs with one frame fewer. -/
def enter : Nat → (Nat → Run α) → Run α
  | 0, _ => H.overflow
  | frames + 1, body => body frames

/-- The assert of a contract clause. -/
def assert (kind : ContractKind) (function clause : String) (holds : Bool) : Run Unit :=
  if H.contracts && !holds then .error (.error (.contractViolation function kind clause))
  else .ok ()

def requires (function clause : String) (holds : Bool) : Run Unit :=
  H.assert .requires function clause holds

def ensures (function clause : String) (holds : Bool) : Run Unit :=
  H.assert .ensures function clause holds

end Host

/-- The library as every build compiles it, without its contracts, on a machine of the default
depth. -/
def vmHost : Host where
  contracts := false
  maxCallDepth := 10000
  stringToFloat := fun _ => none
  floatToString := fun _ => ""

/-- `airl_at` on bytes. -/
def byteAt (src : Bytes) (i : Int) : Run UInt8 :=
  if i < 0 then .error .exit
  else match src[i.toNat]? with
    | some b => .ok b
    | none => .error .exit

def bytesFromString (s : String) : Bytes := Utf8.encode s.toList

/-- `airl_bytes_to_string`: the empty text when the range leaves the buffer. -/
def bytesToString (buf : Bytes) (offset len : Int) : String :=
  if offset.toNat + len.toNat > buf.length then ""
  else String.ofList (Utf8.decodeLossy ((buf.drop offset.toNat).take len.toNat))

/-- `airl_bytes_from_int8`: the lowest byte. -/
def bytesFromInt8 (n : Int64) : Bytes := [n.toUInt64.toUInt8]

theorem forall_byte {p : UInt8 → Prop} (h : ∀ n : Fin 256, p (UInt8.ofNat n.val)) (b : UInt8) :
    p b := by
  have hb := h ⟨b.toNat, b.toNat_lt⟩
  rwa [UInt8.ofNat_toNat] at hb

/-- A byte as the `i64` that `at` returns. -/
def byteToInt (b : UInt8) : Int64 := b.toUInt64.toInt64

def bitwiseShl (a n : Int64) : Int64 := (a.toUInt64 <<< (n.toUInt64 &&& 63)).toInt64

/-- Logical, not arithmetic. -/
def bitwiseShr (a n : Int64) : Int64 := (a.toUInt64 >>> (n.toUInt64 &&& 63)).toInt64

/-- `airl_map_set` on entries in key order. -/
def mapSet {V : Type} : List (String × V) → String → V → List (String × V)
  | [], key, v => [(key, v)]
  | (k, w) :: rest, key, v =>
    if key < k then (key, v) :: (k, w) :: rest
    else if key = k then (key, v) :: rest
    else (k, w) :: mapSet rest key v

theorem lookup_cons_if {V : Type} (key k : String) (v : V) (m : List (String × V)) :
    ((key, v) :: m).lookup k = if k = key then some v else m.lookup k := by
  rw [List.lookup_cons]
  by_cases hk : k = key
  · simp [hk]
  · simp [hk, beq_eq_false_iff_ne.mpr hk]

theorem lookup_mapSet {V : Type} (m : List (String × V)) (key k : String) (v : V) :
    (mapSet m key v).lookup k = if k = key then some v else m.lookup k := by
  induction m with
  | nil => exact lookup_cons_if key k v []
  | cons e m ih =>
    obtain ⟨k', w⟩ := e
    rw [mapSet]
    split
    · rw [lookup_cons_if]
    · split
      · next hkey =>
        subst hkey
        rw [lookup_cons_if, lookup_cons_if]
        split <;> rfl
      · next hkey =>
        rw [lookup_cons_if, lookup_cons_if, ih]
        by_cases hk : k = k'
        · subst hk
          rw [if_pos rfl, if_pos rfl, if_neg (Ne.symm hkey)]
        · rw [if_neg hk, if_neg hk]

/-- `airl_type_of`; a register holds no integer list, tuple or function reference. -/
def typeOf : VmValue → String
  | .nil | .builtinFn _ | .irFuncRef _ => "nil"
  | .unit => "unit"
  | .int _ => "int"
  | .float _ => "float"
  | .bool _ => "bool"
  | .str _ => "string"
  | .list _ | .intList _ | .tuple _ => "list"
  | .map _ => "map"
  | .variant _ _ => "variant"
  | .bytecodeClosure _ _ => "closure"
  | .bytes _ => "bytes"
  | .partialApp _ _ _ => "partial-app"
  | .bcFuncNative _ _ _ _ _ _ _ => "bcfunc"

variable (H : Host) {α : Type}

/-- `concat` of `prelude.airl`: one frame for every element of `xs` and one more. -/
def concat : Nat → List α → List α → Run (List α)
  | 0, _, _ => H.overflow
  | frames + 1, xs, ys => do
    let result ← match xs with
      | [] => pure ys
      | x :: xs => do pure (x :: (← concat frames xs ys))
    H.ensures "concat" "(= (length result) (+ (length xs) (length ys)))"
      (result.length = xs.length + ys.length)
    return result

/-- `airl_map_get`: nil for an absent key. -/
def mapGet (entries : List (String × VmValue)) (key : String) : VmValue :=
  (entries.lookup key).getD .nil

/-- `map-entries-loop`, where `ks` are the keys from index `i` on. -/
def mapEntriesLoop (frames : Nat) (m : List (String × VmValue)) :
    List String → List (String × VmValue) → Run (List (String × VmValue))
  | [], acc => return acc
  | k :: ks, acc => do
    mapEntriesLoop frames m ks (← concat H frames acc [(k, mapGet m k)])

/-- `map-entries`. The `ensures` clause itself calls `map-size`. -/
def mapEntries (frames : Nat) (m : List (String × VmValue)) : Run (List (String × VmValue)) :=
  H.enter frames fun frames => do
    let result ← H.enter frames fun frames => mapEntriesLoop H frames m (m.map Prod.fst) []
    if H.contracts then
      let size ← H.enter frames fun _ => do
        H.ensures "map-size" "(>= result 0)" (decide (0 ≤ m.length))
        return m.length
      H.ensures "map-entries" "(= (length result) (map-size m))" (result.length = size)
    return result

variable {H} {frames : Nat}

theorem overflow_returns (need : Nat) (x : α) : Returns (H.overflow : Run α) (need + 1 ≤ 0) x :=
  (Returns.error _ x).congr ⟨False.elim, fun h => absurd h (Nat.not_succ_le_zero need)⟩

theorem enter_returns {body : Nat → Run α} {need : Nat} {x : α}
    (h : ∀ n, Returns (body n) (need ≤ n) x) :
    Returns (H.enter frames body) (need + 1 ≤ frames) x := by
  cases frames with
  | zero => exact overflow_returns need x
  | succ n => exact (h n).congr (by omega)

theorem assert_returns (kind : ContractKind) (function clause : String) (holds : Bool) :
    Returns (H.assert kind function clause holds) (H.contracts = true → holds = true) () := by
  intro u
  unfold Host.assert
  cases H.contracts <;> cases holds <;> simp

theorem concat_returns (xs ys : List α) :
    Returns (concat H frames xs ys) (xs.length + 1 ≤ frames) (xs ++ ys) := by
  induction xs generalizing frames with
  | nil =>
    cases frames with
    | zero => exact overflow_returns 0 ys
    | succ frames =>
      rw [concat]
      apply (Returns.pure ys).seq
      · exact (assert_returns _ _ _ _).bind (Returns.pure _)
      · simp
  | cons x xs ih =>
    cases frames with
    | zero => exact overflow_returns _ _
    | succ frames =>
      rw [concat]
      apply ih.seq
      · exact (Returns.pure _).bind ((assert_returns _ _ _ _).bind (Returns.pure _))
      · have hlength : xs.length + ys.length + 1 = xs.length + 1 + ys.length := by omega
        simp [hlength]

theorem mapEntriesLoop_returns (m : List (String × VmValue)) (ks : List String)
    (acc : List (String × VmValue)) :
    Returns (mapEntriesLoop H frames m ks acc) (ks = [] ∨ acc.length + ks.length ≤ frames)
      (acc ++ ks.map fun k => (k, mapGet m k)) := by
  induction ks generalizing acc with
  | nil => simpa [mapEntriesLoop] using Returns.pure acc
  | cons k ks ih =>
    rw [mapEntriesLoop]
    have hrest := ih (acc ++ [(k, mapGet m k)])
    rw [List.append_assoc] at hrest
    apply (concat_returns acc [(k, mapGet m k)]).seq hrest
    simp only [List.length_append, List.length_cons, List.length_nil, reduceCtorEq, false_or]
    rcases ks with _ | ⟨k', ks⟩
    · simp
    · simp only [List.length_cons, reduceCtorEq, false_or]
      omega

theorem map_mapGet (m : List (String × VmValue)) (hkeys : (m.map Prod.fst).Nodup) :
    (m.map Prod.fst).map (fun k => (k, mapGet m k)) = m := by
  have hlookup : ∀ e ∈ m, m.lookup e.1 = some e.2 := by
    induction m with
    | nil => simp
    | cons e m ih =>
      rw [List.map_cons, List.nodup_cons] at hkeys
      intro d hd
      rcases List.mem_cons.mp hd with rfl | hd
      · exact List.lookup_cons_self
      · have hne : (d.1 == e.1) = false := by
          rw [beq_eq_false_iff_ne]
          rintro heq
          exact hkeys.1 (heq ▸ List.mem_map_of_mem hd)
        rw [List.lookup_cons, hne]
        exact ih hkeys.2 d hd
  rw [List.map_map]
  conv_rhs => rw [← List.map_id m]
  apply List.map_congr_left
  intro e he
  simp [mapGet, hlookup e he]

theorem mapEntries_returns (m : List (String × VmValue)) (hkeys : (m.map Prod.fst).Nodup) :
    Returns (mapEntries H frames m) (m.length + 2 ≤ frames) m := by
  refine enter_returns fun frames => ?_
  have hloop : Returns (H.enter frames fun frames =>
      mapEntriesLoop H frames m (m.map Prod.fst) []) (m.length + 1 ≤ frames) m := by
    refine enter_returns fun frames => ?_
    have hloop := @mapEntriesLoop_returns H frames m (m.map Prod.fst) []
    rw [map_mapGet m hkeys, List.nil_append] at hloop
    refine hloop.congr ?_
    cases m with
    | nil => simp
    | cons e m => simp
  apply hloop.seq (q := H.contracts = true → 0 + 1 ≤ frames)
  · cases hc : H.contracts with
    | false => exact (Returns.pure m).congr (by simp)
    | true =>
      have hsize : Returns (H.enter frames fun _ => do
          H.ensures "map-size" "(>= result 0)" (decide (0 ≤ m.length))
          return m.length) (0 + 1 ≤ frames) m.length := by
        refine enter_returns fun n => ?_
        apply (assert_returns _ _ _ _).seq
        · exact Returns.pure _
        · simp
      rw [if_pos rfl]
      apply hsize.seq
      · exact (assert_returns _ _ _ _).bind (Returns.pure _)
      · simp
  · constructor
    · exact fun h => h.1
    · exact fun h => ⟨h, fun _ => by omega⟩

end Airl.Json
