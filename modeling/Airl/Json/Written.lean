import Airl.Json.Numerals

/-! # What the serializer writes

`render` is the text of a value and `stringifyDepth` the number of frames it takes to
write it. `json-stringify` returns that text exactly when it has the frames and, with
contracts, when there is no nil in the value.
-/

namespace Airl.Json

mutual

/-- Nil, booleans, integers, texts, lists and maps of such values, with the entries
of a map in key order. -/
def Plain : VmValue → Prop
  | .nil | .bool _ | .int _ | .str _ => True
  | .list items => PlainItems items
  | .map m => (m.map Prod.fst).Pairwise (· < ·) ∧ PlainEntries m
  | _ => False

def PlainItems : List VmValue → Prop
  | [] => True
  | v :: vs => Plain v ∧ PlainItems vs

def PlainEntries : List (String × VmValue) → Prop
  | [] => True
  | (_, v) :: es => Plain v ∧ PlainEntries es

end

mutual

/-- No nil, at no depth. -/
def NoNil : VmValue → Prop
  | .nil => False
  | .list items => NoNilItems items
  | .map m => NoNilEntries m
  | _ => True

def NoNilItems : List VmValue → Prop
  | [] => True
  | v :: vs => NoNil v ∧ NoNilItems vs

def NoNilEntries : List (String × VmValue) → Prop
  | [] => True
  | (_, v) :: es => NoNil v ∧ NoNilEntries es

end

def quote (s : String) : String := "\"" ++ escapeString s ++ "\""

mutual

def render : VmValue → String
  | .nil => "null"
  | .bool b => if b then "true" else "false"
  | .int n => toString n.toInt
  | .str s => quote s
  | .list items => "[" ++ renderItems items true ++ "]"
  | .map m => "\x7b" ++ renderEntries m true ++ "\x7d"
  | _ => ""

def renderItems : List VmValue → Bool → String
  | [], _ => ""
  | v :: vs, first => (if first then "" else ",") ++ render v ++ renderItems vs false

def renderEntries : List (String × VmValue) → Bool → String
  | [], _ => ""
  | (k, v) :: es, first =>
    (if first then "" else ",") ++ (quote k ++ ":" ++ render v) ++ renderEntries es false

end

/-- The frames of a loop over the bytes of a string: one for each, and the two of the
`concat` that the innermost iteration with a byte calls. -/
def loopDepth : Nat → Nat
  | 0 => 1
  | n + 1 => max (loopDepth n) 2 + 1

/-- The frames of `json-escape` or of `json-parse-string`. -/
def stringDepth (s : String) : Nat := loopDepth (bytesFromString s).length + 1

mutual

def stringifyDepth : VmValue → Nat
  | .str s => stringDepth s + 1
  | .list items => itemsDepth items + 1
  | .map m => max (m.length + 2) (entriesDepth m) + 1
  | _ => 1

def itemsDepth : List VmValue → Nat
  | [] => 1
  | v :: vs => max (stringifyDepth v) (itemsDepth vs) + 1

def entriesDepth : List (String × VmValue) → Nat
  | [] => 1
  | (k, v) :: es => max (stringDepth k) (max (stringifyDepth v) (entriesDepth es)) + 1

end

variable {H : Host} {frames : Nat}

theorem loopDepth_pos (n : Nat) : 1 ≤ loopDepth n := by
  cases n with
  | zero => exact Nat.le_refl 1
  | succ n => exact Nat.succ_le_succ (Nat.zero_le _)

theorem jsonEscapeLoop_returns {src r : Bytes} (h : r <:+ src) :
    Returns (jsonEscapeLoop H src src.length frames (posOf src r)) (loopDepth r.length ≤ frames)
      (r.map escapeChunk) := by
  induction r generalizing frames with
  | nil =>
    cases frames with
    | zero => exact overflow_returns 0 _
    | succ frames =>
      rw [jsonEscapeLoop, Host.requires]
      apply (assert_returns _ _ _ _).seq
      · rw [if_pos posOf_nil]
        exact Returns.pure _
      · simp [loopDepth, posOf_nonneg h]
  | cons b r ih =>
    cases frames with
    | zero => exact overflow_returns _ _
    | succ frames =>
      have hne : posOf src (b :: r) ≠ src.length := by
        simp only [posOf, List.length_cons]
        omega
      rw [jsonEscapeLoop, Host.requires]
      apply (assert_returns _ _ _ _).seq
      · rw [if_neg hne, byteAt_cons h, posOf_cons, ok_bind]
        apply (ih (suffix_tail h)).seq
        · exact concat_returns _ _
        · exact Iff.rfl
      · simp only [posOf_nonneg h, decide_true, implies_true, true_and, List.length_cons,
          List.length_nil, loopDepth]
        omega

theorem jsonEscape_returns (s : String) :
    Returns (jsonEscape H frames s) (stringDepth s ≤ frames) (escapeString s) := by
  refine enter_returns fun frames => ?_
  have hloop := @jsonEscapeLoop_returns H frames _ _ (List.suffix_refl (bytesFromString s))
  rw [posOf_self] at hloop
  have htext : bytesToString ((bytesFromString s).map escapeChunk).flatten 0
      ((bytesFromString s).map escapeChunk).flatten.length = escapeString s := by
    rw [bytesToString_all, ← List.flatMap_def, escapeChunk_bytes, decode_bytesFromString]
  rw [← htext]
  exact hloop.map fun parts => bytesToString parts.flatten 0 parts.flatten.length

theorem valid_returns {v : VmValue} (hv : typeOf v ≠ "nil") :
    Returns (H.requires "json-stringify" "(valid val)" (decide (typeOf v ≠ "nil"))) True () :=
  (assert_returns _ _ _ _).congr (by simp [hv])

theorem nodup_of_sorted {m : List (String × VmValue)} (h : (m.map Prod.fst).Pairwise (· < ·)) :
    (m.map Prod.fst).Nodup :=
  h.imp fun {a b} (hlt : a < b) (heq : a = b) => String.lt_irrefl b (heq ▸ hlt)

mutual

theorem jsonStringify_returns (v : VmValue) (frames : Nat) (hv : Plain v) :
    Returns (jsonStringify H frames v)
      (stringifyDepth v ≤ frames ∧ (H.contracts = true → NoNil v)) (render v) := by
  cases frames with
  | zero =>
    refine (Returns.error _ _).congr ⟨False.elim, fun h => ?_⟩
    have hpos : 1 ≤ stringifyDepth v := by
      cases v with
      | _ => simp only [stringifyDepth]; omega
    omega
  | succ frames =>
    cases v with
    | nil =>
      rw [jsonStringify, Host.requires]
      apply (assert_returns _ _ _ _).seq
      · exact Returns.pure _
      · simp [typeOf, stringifyDepth, NoNil]
    | bool b =>
      rw [jsonStringify]
      apply (valid_returns (by simp [typeOf])).seq
      · exact Returns.pure _
      · simp [stringifyDepth, NoNil]
    | int n =>
      rw [jsonStringify]
      apply (valid_returns (by simp [typeOf])).seq
      · exact Returns.pure _
      · simp [stringifyDepth, NoNil]
    | str s =>
      rw [jsonStringify]
      apply (valid_returns (by simp [typeOf])).seq
      · exact (jsonEscape_returns s).map fun t => "\"" ++ t ++ "\""
      · simp [stringifyDepth, NoNil]
    | list items =>
      rw [jsonStringify]
      apply (valid_returns (by simp [typeOf])).seq
      · exact (jsonStringifyListLoop_returns items frames true hv).map fun t => "[" ++ t ++ "]"
      · simp [stringifyDepth, NoNil]
    | map m =>
      rw [jsonStringify]
      apply (valid_returns (by simp [typeOf])).seq
      · apply (mapEntries_returns m (nodup_of_sorted hv.1)).seq
        · exact (jsonStringifyMapLoop_returns m frames true hv.2).map fun t => "\x7b" ++ t ++ "\x7d"
        · exact Iff.rfl
      · simp only [stringifyDepth, NoNil, true_and, ← and_assoc]
        refine and_congr_left fun _ => ?_
        omega
    | _ => exact False.elim hv

theorem jsonStringifyListLoop_returns (items : List VmValue) (frames : Nat) (first : Bool)
    (hv : PlainItems items) :
    Returns (jsonStringifyListLoop H frames items first)
      (itemsDepth items ≤ frames ∧ (H.contracts = true → NoNilItems items))
      (renderItems items first) := by
  cases frames with
  | zero =>
    refine (Returns.error _ _).congr ⟨False.elim, fun h => ?_⟩
    have hpos : 1 ≤ itemsDepth items := by
      cases items with
      | nil => simp [itemsDepth]
      | cons v vs => simp [itemsDepth]
    omega
  | succ frames =>
    cases items with
    | nil =>
      rw [jsonStringifyListLoop]
      exact (Returns.pure _).congr (by simp [itemsDepth, NoNilItems])
    | cons v vs =>
      rw [jsonStringifyListLoop]
      apply (jsonStringify_returns v frames hv.1).seq
      · exact (jsonStringifyListLoop_returns vs frames false hv.2).map fun t =>
          (if first then "" else ",") ++ render v ++ t
      · simp only [itemsDepth, NoNilItems]
        constructor
        · rintro ⟨⟨h1, h2⟩, h3, h4⟩
          exact ⟨by omega, fun hc => ⟨h2 hc, h4 hc⟩⟩
        · rintro ⟨h1, h2⟩
          exact ⟨⟨by omega, fun hc => (h2 hc).1⟩, by omega, fun hc => (h2 hc).2⟩

theorem jsonStringifyMapLoop_returns (m : List (String × VmValue)) (frames : Nat) (first : Bool)
    (hv : PlainEntries m) :
    Returns (jsonStringifyMapLoop H frames m first)
      (entriesDepth m ≤ frames ∧ (H.contracts = true → NoNilEntries m))
      (renderEntries m first) := by
  cases frames with
  | zero =>
    refine (Returns.error _ _).congr ⟨False.elim, fun h => ?_⟩
    have hpos : 1 ≤ entriesDepth m := by
      rcases m with _ | ⟨⟨k, v⟩, es⟩
      · simp [entriesDepth]
      · simp [entriesDepth]
    omega
  | succ frames =>
    rcases m with _ | ⟨⟨k, v⟩, es⟩
    · rw [jsonStringifyMapLoop]
      exact (Returns.pure _).congr (by simp [entriesDepth, NoNilEntries])
    · rw [jsonStringifyMapLoop]
      apply (jsonEscape_returns k).seq
      · apply (jsonStringify_returns v frames hv.1).seq
        · exact (jsonStringifyMapLoop_returns es frames false hv.2).map fun t =>
            (if first then "" else ",") ++ (quote k ++ ":" ++ render v) ++ t
        · exact Iff.rfl
      · simp only [entriesDepth, NoNilEntries]
        constructor
        · rintro ⟨h0, ⟨h1, h2⟩, h3, h4⟩
          exact ⟨by omega, fun hc => ⟨h2 hc, h4 hc⟩⟩
        · rintro ⟨h1, h2⟩
          exact ⟨by omega, ⟨by omega, fun hc => (h2 hc).1⟩, by omega, fun hc => (h2 hc).2⟩

end

end Airl.Json
