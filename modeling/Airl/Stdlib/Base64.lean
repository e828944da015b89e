import Airl.Stdlib.StringLaw

/-! # Base64

The functions of `base64.airl`. Of the clauses those of `b64-decode-quad` alone can fail; a build
compiles them or leaves them out.
-/

namespace Airl.Stdlib

open Airl.Json (Bytes byteAt byteToInt bytesFromString bytesToString bytesFromInt8)

def b64Table : Bytes :=
  bytesFromString "ABCDEFGHIJKLMNOPQRSTUVWXYZabcdefghijklmnopqrstuvwxyz0123456789+/"

def b64Char (idx : Int) : Run Bytes :=
  return bytesFromInt8 (byteToInt (← byteAt b64Table idx))

def b64Val (b : UInt8) : Int :=
  if b ≥ 65 ∧ b ≤ 90 then b.toNat - 65
  else if b ≥ 97 ∧ b ≤ 122 then b.toNat - 97 + 26
  else if b ≥ 48 ∧ b ≤ 57 then b.toNat - 48 + 52
  else if b = 43 then 62
  else if b = 47 then 63
  else -1

def b64EncodeTriple (a b c : UInt8) : Run (List Bytes) := do
  let n : Int := a.toNat * 65536 + (b.toNat * 256 + c.toNat)
  return [← b64Char (n.tdiv 262144), ← b64Char ((n.tdiv 4096).tmod 64),
    ← b64Char ((n.tdiv 64).tmod 64), ← b64Char (n.tmod 64)]

def b64EncodeLoop (src : Bytes) (i len : Nat) : Run (List Bytes) :=
  if i ≥ len then return []
  else if len - i ≥ 3 then do
    let a ← byteAt src i
    let b ← byteAt src (i + 1)
    let c ← byteAt src (i + 2)
    let quad ← b64EncodeTriple a b c
    return concat quad (← b64EncodeLoop src (i + 3) len)
  else if len - i = 2 then do
    let a ← byteAt src i
    let b ← byteAt src (i + 1)
    let n : Int := a.toNat * 65536 + b.toNat * 256
    return [← b64Char (n.tdiv 262144), ← b64Char ((n.tdiv 4096).tmod 64),
      ← b64Char ((n.tdiv 64).tmod 64), bytesFromInt8 61]
  else do
    let a ← byteAt src i
    let n : Int := a.toNat * 65536
    return [← b64Char (n.tdiv 262144), ← b64Char ((n.tdiv 4096).tmod 64), bytesFromInt8 61,
      bytesFromInt8 61]
termination_by len - i

def base64Encode (s : String) : Run String := do
  let src := bytesFromString s
  if src.length = 0 then return ""
  let result := bytesConcatAll (← b64EncodeLoop src 0 src.length)
  return bytesToString result 0 result.length

/-- `and` has both its arguments evaluated. -/
def b64CountPadding (src : Bytes) (len : Nat) : Run Nat :=
  if len = 0 then return 0
  else do
    if (← byteAt src (len - 1)) = 61 then
      let second ← byteAt src (len - 2)
      return if len ≥ 2 ∧ second = 61 then 2 else 1
    else return 0

/-- A `:requires` clause. -/
def requires (contracts : Bool) (function clause : String) (holds : Bool) : Run Unit :=
  if contracts && !holds then .error (.error (.contractViolation function .requires clause))
  else .ok ()

def b64DecodeQuad (contracts : Bool) (v0 v1 v2 v3 : Int) (pad : Nat) : Run (List Bytes) := do
  requires contracts "b64-decode-quad" "(>= v0 0)" (v0 ≥ 0)
  requires contracts "b64-decode-quad" "(>= v1 0)" (v1 ≥ 0)
  let n := v0 * 262144 + (v1 * 4096 + (v2 * 64 + v3))
  let first := bytesFromInt8 (Int64.ofInt ((n.tdiv 65536).tmod 256))
  let second := bytesFromInt8 (Int64.ofInt ((n.tdiv 256).tmod 256))
  if pad = 2 then return [first]
  else if pad = 1 then return [first, second]
  else return [first, second, bytesFromInt8 (Int64.ofInt (n.tmod 256))]

def b64DecodeLoop (contracts : Bool) (src : Bytes) (i len pad : Nat) : Run (List Bytes) :=
  if i ≥ len then return []
  else do
    let v0 := b64Val (← byteAt src i)
    let v1 := b64Val (← byteAt src (i + 1))
    let raw2 ← byteAt src (i + 2)
    let raw3 ← byteAt src (i + 3)
    let v2 := if raw2 = 61 then 0 else b64Val raw2
    let v3 := if raw3 = 61 then 0 else b64Val raw3
    let thisPad := if i + 4 ≥ len then pad else 0
    let decoded ← b64DecodeQuad contracts v0 v1 v2 v3 thisPad
    return concat decoded (← b64DecodeLoop contracts src (i + 4) len pad)
termination_by len - i

def base64Decode (contracts : Bool) (s : String) : Run String := do
  let src := bytesFromString s
  if src.length = 0 then return ""
  let pad ← b64CountPadding src src.length
  let result := bytesConcatAll (← b64DecodeLoop contracts src 0 src.length pad)
  return bytesToString result 0 result.length

/-! ## Groups of bytes -/

/-- The character of a value, as a byte. -/
def charByte (k : Nat) : UInt8 := b64Table.getD k 0

theorem b64Table_eq : b64Table = (List.range' 65 26 ++ List.range' 97 26 ++ List.range' 48 10 ++
    [43, 47]).map UInt8.ofNat := by decide +kernel

theorem b64Table_length : b64Table.length = 64 := by
  rw [b64Table_eq]
  rfl

theorem charByte_eq {k : Nat} (h : k < b64Table.length) : charByte k = b64Table[k] := by
  rw [charByte, List.getD_eq_getElem?_getD, List.getElem?_eq_getElem h]
  rfl

theorem b64Char_natCast {k : Nat} (h : k < 64) : b64Char k = .ok [charByte k] := by
  have hbyte : byteAt b64Table k = .ok (charByte k) := by
    have hlt : k < b64Table.length := by rwa [b64Table_length]
    rw [byteAt_natCast hlt, charByte_eq hlt]
  have hint : ∀ b : UInt8, bytesFromInt8 (byteToInt b) = [b] := by
    intro b
    simp [bytesFromInt8, byteToInt]
  rw [b64Char, hbyte]
  exact congrArg Except.ok (hint _)

theorem b64Char_tmod (n d : Nat) :
    b64Char (((n : Int).tdiv d).tmod 64) = .ok [charByte (n / d % 64)] := by
  have hcast : ((n : Int).tdiv d).tmod 64 = ((n / d % 64 : Nat) : Int) := by
    rw [← Int.ofNat_tdiv]
    exact (Int.ofNat_tmod (n / d) 64).symm
  rw [hcast]
  exact b64Char_natCast (Nat.mod_lt _ (by decide))

theorem b64Char_second (n : Nat) :
    b64Char (((n : Int).tdiv 4096).tmod 64) = .ok [charByte (n / 4096 % 64)] := b64Char_tmod n 4096

theorem b64Char_third (n : Nat) :
    b64Char (((n : Int).tdiv 64).tmod 64) = .ok [charByte (n / 64 % 64)] := b64Char_tmod n 64

theorem b64Char_last (n : Nat) : b64Char ((n : Int).tmod 64) = .ok [charByte (n % 64)] := by
  have hcast : (n : Int).tmod 64 = ((n % 64 : Nat) : Int) := (Int.ofNat_tmod n 64).symm
  rw [hcast]
  exact b64Char_natCast (Nat.mod_lt _ (by decide))

theorem b64Char_tdiv {n : Nat} (h : n < 16777216) :
    b64Char ((n : Int).tdiv 262144) = .ok [charByte (n / 262144)] := by
  have hcast : (n : Int).tdiv 262144 = ((n / 262144 : Nat) : Int) :=
    (Int.ofNat_tdiv n 262144).symm
  rw [hcast]
  exact b64Char_natCast (by omega)

theorem byteAt_drop {src : Bytes} {i k : Nat} {b : UInt8} (h : (src.drop i)[k]? = some b) :
    byteAt src ((i : Int) + (k : Int)) = .ok b := by
  rw [List.getElem?_drop] at h
  rw [byteAt, if_neg (by omega), ← Int.natCast_add, Int.toNat_natCast, h]

theorem byteAt_drop_none {src : Bytes} {i k : Nat} (h : (src.drop i)[k]? = none) :
    byteAt src ((i : Int) + (k : Int)) = .error .exit := by
  rw [List.getElem?_drop] at h
  rw [byteAt, if_neg (by omega), ← Int.natCast_add, Int.toNat_natCast, h]

/-- The number that three bytes write. -/
def triple (a b c : UInt8) : Nat := a.toNat * 65536 + (b.toNat * 256 + c.toNat)

theorem triple_lt (a b c : UInt8) : triple a b c < 16777216 := by
  have ha := a.toNat_lt
  have hb := b.toNat_lt
  have hc := c.toNat_lt
  unfold triple
  omega

/-- The characters for the bytes, without the padding. -/
def encodeBody : Bytes → Bytes
  | a :: b :: c :: rest =>
    charByte (triple a b c / 262144) :: charByte (triple a b c / 4096 % 64) ::
      charByte (triple a b c / 64 % 64) :: charByte (triple a b c % 64) :: encodeBody rest
  | [a, b] => [charByte (triple a b 0 / 262144), charByte (triple a b 0 / 4096 % 64),
      charByte (triple a b 0 / 64 % 64)]
  | [a] => [charByte (triple a 0 0 / 262144), charByte (triple a 0 0 / 4096 % 64)]
  | [] => []

def padding (len : Nat) : Nat := (3 - len % 3) % 3

def encodeBytes (src : Bytes) : Bytes :=
  encodeBody src ++ List.replicate (padding src.length) 61

theorem b64EncodeTriple_eq (a b c : UInt8) : b64EncodeTriple a b c =
    .ok [[charByte (triple a b c / 262144)], [charByte (triple a b c / 4096 % 64)],
      [charByte (triple a b c / 64 % 64)], [charByte (triple a b c % 64)]] := by
  have hcast : (a.toNat : Int) * 65536 + (b.toNat * 256 + c.toNat) = (triple a b c : Nat) := by
    unfold triple
    omega
  rw [b64EncodeTriple]
  simp only [hcast, b64Char_tdiv (triple_lt a b c), b64Char_second, b64Char_third, b64Char_last]
  rfl

theorem b64EncodeLoop_eq (src : Bytes) (i : Nat) :
    ∃ parts, b64EncodeLoop src i src.length = .ok parts ∧
      bytesConcatAll parts = encodeBytes (src.drop i) := by
  have hlength := @List.length_drop _ i src
  have hget : ∀ {k : Nat} {b : UInt8}, (src.drop i)[k]? = some b →
      byteAt src ((i : Int) + (k : Int)) = .ok b := byteAt_drop
  rw [b64EncodeLoop]
  by_cases hi : i ≥ src.length
  · rw [if_pos hi, List.drop_of_length_le hi]
    exact ⟨[], rfl, rfl⟩
  rw [if_neg hi]
  -- what is left decides the branch
  cases hrest : src.drop i with
  | nil => rw [hrest, List.length_nil] at hlength; omega
  | cons a rest =>
    rw [hrest] at hget hlength
    have ha : byteAt src i = .ok a := hget (k := 0) rfl
    cases rest with
    | nil =>
      have hcast : (a.toNat : Int) * 65536 = (triple a 0 0 : Nat) := by
        unfold triple
        simp
      rw [List.length_singleton] at hlength
      rw [if_neg (by omega), if_neg (by omega), ha]
      simp only [bind, Except.bind, hcast, b64Char_tdiv (triple_lt a 0 0), b64Char_second]
      exact ⟨_, rfl, rfl⟩
    | cons b rest =>
      have hb : byteAt src (i + 1) = .ok b := hget (k := 1) rfl
      cases rest with
      | nil =>
        have hcast : (a.toNat : Int) * 65536 + b.toNat * 256 = (triple a b 0 : Nat) := by
          unfold triple
          simp
        rw [List.length_cons, List.length_singleton] at hlength
        rw [if_neg (by omega), if_pos (by omega), ha]
        simp only [bind, Except.bind, hb, hcast, b64Char_tdiv (triple_lt a b 0), b64Char_second,
          b64Char_third]
        exact ⟨_, rfl, rfl⟩
      | cons c rest =>
        have hc : byteAt src (i + 2) = .ok c := hget (k := 2) rfl
        have hnext : src.drop (i + 3) = rest := by
          rw [← List.drop_drop, hrest]
          rfl
        obtain ⟨parts, hloop, hparts⟩ := b64EncodeLoop_eq src (i + 3)
        rw [List.length_cons, List.length_cons, List.length_cons] at hlength
        rw [if_pos (by omega), ha]
        simp only [bind, Except.bind, hb, hc, b64EncodeTriple_eq, hloop]
        refine ⟨_, rfl, ?_⟩
        rw [concat_eq, bytesConcatAll, List.flatten_append, ← bytesConcatAll, ← bytesConcatAll,
          hparts, hnext]
        have hpad : padding (a :: b :: c :: rest).length = padding rest.length := by
          simp only [padding, List.length_cons]
          omega
        rw [encodeBytes, encodeBytes, hpad]
        rfl
termination_by src.length - i

/-! ## Decoding group by group -/

/-- The decoder over the rest of the buffer; a byte that is missing ends the process. -/
def decodeGroups (contracts : Bool) (pad : Nat) : Bytes → Run (List Bytes)
  | a :: b :: c :: d :: rest => do
    let decoded ← b64DecodeQuad contracts (b64Val a) (b64Val b) (if c = 61 then 0 else b64Val c)
      (if d = 61 then 0 else b64Val d) (if rest = [] then pad else 0)
    return decoded ++ (← decodeGroups contracts pad rest)
  | [] => return []
  | _ => .error .exit

theorem b64DecodeLoop_eq (contracts : Bool) (pad : Nat) (src : Bytes) (i : Nat) :
    b64DecodeLoop contracts src i src.length pad = decodeGroups contracts pad (src.drop i) := by
  have hlength := @List.length_drop _ i src
  have hget : ∀ {k : Nat} {b : UInt8}, (src.drop i)[k]? = some b →
      byteAt src ((i : Int) + (k : Int)) = .ok b := byteAt_drop
  have hnone : ∀ {k : Nat}, (src.drop i)[k]? = none →
      byteAt src ((i : Int) + (k : Int)) = .error .exit := byteAt_drop_none
  rw [b64DecodeLoop]
  by_cases hi : i ≥ src.length
  · rw [if_pos hi, List.drop_of_length_le hi]
    rfl
  rw [if_neg hi]
  cases hrest : src.drop i with
  | nil => rw [hrest, List.length_nil] at hlength; omega
  | cons a rest =>
    rw [hrest] at hget hnone hlength
    have ha : byteAt src i = .ok a := hget (k := 0) rfl
    rw [ha]
    cases rest with
    | nil =>
      have hb : byteAt src (i + 1) = .error .exit := hnone (k := 1) rfl
      simp only [bind, Except.bind, hb, decodeGroups]
    | cons b rest =>
      have hb : byteAt src (i + 1) = .ok b := hget (k := 1) rfl
      cases rest with
      | nil =>
        have hc : byteAt src (i + 2) = .error .exit := hnone (k := 2) rfl
        simp only [bind, Except.bind, hb, hc, decodeGroups]
      | cons c rest =>
        have hc : byteAt src (i + 2) = .ok c := hget (k := 2) rfl
        cases rest with
        | nil =>
          have hd : byteAt src (i + 3) = .error .exit := hnone (k := 3) rfl
          simp only [bind, Except.bind, hb, hc, hd, decodeGroups]
        | cons d rest =>
          have hd : byteAt src (i + 3) = .ok d := hget (k := 3) rfl
          have hnext : src.drop (i + 4) = rest := by
            rw [← List.drop_drop, hrest]
            rfl
          have ih := b64DecodeLoop_eq contracts pad src (i + 4)
          have hlast : (i + 4 ≥ src.length) = (rest = []) := by
            rw [← List.length_eq_zero_iff]
            simp only [List.length_cons] at hlength
            apply propext
            omega
          simp only [bind, Except.bind, hb, hc, hd, ih, hnext, hlast, decodeGroups, concat_eq]
termination_by src.length - i

/-- Every group begins with two characters of the alphabet. -/
def Leads : Bytes → Prop
  | a :: b :: _ :: _ :: rest => (b64Val a ≥ 0 ∧ b64Val b ≥ 0) ∧ Leads rest
  | _ => True

/-- The bytes of a group; the clauses stop it where it does not begin with two values. -/
theorem b64DecodeQuad_cases (contracts : Bool) (v0 v1 v2 v3 : Int) (pad : Nat) :
    ((∃ fault, b64DecodeQuad contracts v0 v1 v2 v3 pad = .error fault) ∧
        contracts = true ∧ ¬ (v0 ≥ 0 ∧ v1 ≥ 0)) ∨
      (∃ decoded, b64DecodeQuad contracts v0 v1 v2 v3 pad = .ok decoded) ∧
        ¬ (contracts = true ∧ ¬ (v0 ≥ 0 ∧ v1 ≥ 0)) := by
  have hbody : ∀ x y : Run (List Bytes), (∃ decoded, x = .ok decoded) →
      (∃ decoded, y = .ok decoded) → ∀ (q : Prop) [Decidable q],
      ∃ decoded, (if q then x else y) = .ok decoded := by
    intro x y hx hy q _
    split
    · exact hx
    · exact hy
  have hok : ∀ xs : List Bytes, ∃ decoded, (return xs : Run _) = .ok decoded := fun xs => ⟨xs, rfl⟩
  rw [b64DecodeQuad]
  cases contracts with
  | false =>
    refine Or.inr ⟨?_, fun h => absurd h.1 Bool.false_ne_true⟩
    exact hbody _ _ (hok _) (hbody _ _ (hok _) (hok _) _) _
  | true =>
    by_cases h0 : v0 ≥ 0
    · by_cases h1 : v1 ≥ 0
      · refine Or.inr ⟨?_, fun h => h.2 ⟨h0, h1⟩⟩
        simp only [requires, h0, h1, decide_true, Bool.not_true, Bool.and_false]
        exact hbody _ _ (hok _) (hbody _ _ (hok _) (hok _) _) _
      · refine Or.inl ⟨?_, rfl, fun h => h1 h.2⟩
        simp only [requires, h0, h1, decide_true, decide_false, Bool.not_true, Bool.not_false,
          Bool.and_false, Bool.and_true]
        exact ⟨_, rfl⟩
    · refine Or.inl ⟨?_, rfl, fun h => h0 h.1⟩
      simp only [requires, h0, decide_false, Bool.not_false, Bool.and_true]
      exact ⟨_, rfl⟩

theorem decodeGroups_error_iff (contracts : Bool) (pad : Nat) (src : Bytes) :
    (∃ fault, decodeGroups contracts pad src = .error fault) ↔
      src.length % 4 ≠ 0 ∨ contracts = true ∧ ¬ Leads src := by
  cases src with
  | nil =>
    refine iff_of_false (fun h => ?_) (fun h => ?_)
    · obtain ⟨fault, hfault⟩ := h
      cases hfault
    · rcases h with h | h
      · exact h rfl
      · exact h.2 trivial
  | cons a src =>
    cases src with
    | nil => exact iff_of_true ⟨_, rfl⟩ (Or.inl (by decide : 1 ≠ 0))
    | cons b src =>
      cases src with
      | nil => exact iff_of_true ⟨_, rfl⟩ (Or.inl (by decide : 2 ≠ 0))
      | cons c src =>
        cases src with
        | nil => exact iff_of_true ⟨_, rfl⟩ (Or.inl (by decide : 3 ≠ 0))
        | cons d rest =>
          have ih := decodeGroups_error_iff contracts pad rest
          have hlength : (a :: b :: c :: d :: rest).length % 4 = rest.length % 4 := by
            simp only [List.length_cons]
            omega
          rw [hlength, decodeGroups, Leads]
          rcases b64DecodeQuad_cases contracts (b64Val a) (b64Val b)
            (if c = 61 then 0 else b64Val c) (if d = 61 then 0 else b64Val d)
            (if rest = [] then pad else 0) with
            ⟨⟨fault, hquad⟩, hcontracts, hvalues⟩ | ⟨⟨decoded, hquad⟩, hvalues⟩
          · rw [hquad]
            exact iff_of_true ⟨fault, rfl⟩ (Or.inr ⟨hcontracts, fun h => hvalues h.1⟩)
          · rw [hquad]
            -- the group is read: what follows decides
            have hrest : (∃ fault, ((Except.ok decoded : Run _) >>= fun decoded => do
                return decoded ++ (← decodeGroups contracts pad rest)) = .error fault) ↔
                  ∃ fault, decodeGroups contracts pad rest = .error fault := by
              cases decodeGroups contracts pad rest with
              | error fault => exact iff_of_true ⟨fault, rfl⟩ ⟨fault, rfl⟩
              | ok parts =>
                refine iff_of_false (fun h => ?_) (fun h => ?_)
                · obtain ⟨fault, hfault⟩ := h
                  cases hfault
                · obtain ⟨fault, hfault⟩ := h
                  cases hfault
            rw [hrest, ih]
            apply or_congr_right
            constructor
            · exact fun h => ⟨h.1, fun hleads => h.2 hleads.2⟩
            · intro h
              refine ⟨h.1, fun hleads => h.2 ⟨?_, hleads⟩⟩
              by_contra hnot
              exact hvalues ⟨h.1, hnot⟩

/-! ## Reading back -/

theorem charByte_spec : ∀ k : Fin 64, b64Val (charByte k.val) = k.val ∧ charByte k.val ≠ 61 ∧
    (charByte k.val).toNat < 128 := by
  unfold charByte
  rw [b64Table_eq]
  decide +kernel

theorem b64Val_charByte {k : Nat} (h : k < 64) : b64Val (charByte k) = k :=
  (charByte_spec ⟨k, h⟩).1

theorem charByte_ascii {k : Nat} (h : k < 64) : charByte k ≠ 61 ∧ (charByte k).toNat < 128 :=
  (charByte_spec ⟨k, h⟩).2

theorem value_charByte {k : Nat} (h : k < 64) :
    (if charByte k = 61 then 0 else b64Val (charByte k)) = k := by
  rw [if_neg (charByte_ascii h).1, b64Val_charByte h]

theorem bytesFromInt8_natCast (m : Nat) : bytesFromInt8 (Int64.ofInt m) = [UInt8.ofNat m] := by
  have hcast : Int64.ofInt (m : Int) = Int64.ofNat m := rfl
  rw [bytesFromInt8, hcast]
  simp

theorem b64DecodeQuad_triple (contracts : Bool) (a b c : UInt8) (pad : Nat) :
    b64DecodeQuad contracts (triple a b c / 262144 : Nat) (triple a b c / 4096 % 64 : Nat)
      (triple a b c / 64 % 64 : Nat) (triple a b c % 64 : Nat) pad =
      .ok (if pad = 2 then [[a]] else if pad = 1 then [[a], [b]] else [[a], [b], [c]]) := by
  have ha := a.toNat_lt
  have hb := b.toNat_lt
  have hc := c.toNat_lt
  have hsum : ((triple a b c / 262144 : Nat) : Int) * 262144 +
      (((triple a b c / 4096 % 64 : Nat) : Int) * 4096 +
        (((triple a b c / 64 % 64 : Nat) : Int) * 64 + (triple a b c % 64 : Nat))) =
          (triple a b c : Nat) := by
    have := triple_lt a b c
    omega
  have hfirst : (((triple a b c : Nat) : Int).tdiv 65536).tmod 256 = (a.toNat : Int) := by
    show ((triple a b c / 65536 % 256 : Nat) : Int) = a.toNat
    unfold triple
    omega
  have hsecond : (((triple a b c : Nat) : Int).tdiv 256).tmod 256 = (b.toNat : Int) := by
    show ((triple a b c / 256 % 256 : Nat) : Int) = b.toNat
    unfold triple
    omega
  have hthird : ((triple a b c : Nat) : Int).tmod 256 = (c.toNat : Int) := by
    show ((triple a b c % 256 : Nat) : Int) = c.toNat
    unfold triple
    omega
  have hclause : ∀ k : Nat, decide ((k : Int) ≥ 0) = true := by
    intro k
    exact decide_eq_true (by omega)
  rw [b64DecodeQuad]
  simp only [requires, hclause, Bool.not_true, Bool.and_false, hsum, hfirst, hsecond, hthird,
    bytesFromInt8_natCast, UInt8.ofNat_toNat, Bool.false_eq_true, if_false]
  by_cases h2 : pad = 2
  · rw [if_pos h2, if_pos h2]
    rfl
  by_cases h1 : pad = 1
  · rw [if_neg h2, if_neg h2, if_pos h1, if_pos h1]
    rfl
  · rw [if_neg h2, if_neg h2, if_neg h1, if_neg h1]
    rfl

theorem triple_zero (a b : UInt8) : triple a b 0 % 64 = 0 ∧ triple a 0 0 / 64 % 64 = 0 ∧
    triple a 0 0 % 64 = 0 := by
  unfold triple
  simp only [UInt8.toNat_zero]
  omega

theorem encodeBody_ne_nil {src : Bytes} (h : src ≠ []) : encodeBody src ≠ [] := by
  cases src with
  | nil => exact absurd rfl h
  | cons a src =>
    cases src with
    | nil => exact List.cons_ne_nil _ _
    | cons b src =>
      cases src with
      | nil => exact List.cons_ne_nil _ _
      | cons c src => exact List.cons_ne_nil _ _

theorem eq_nil_of_encodeBytes {src : Bytes} (h : encodeBytes src = []) : src = [] := by
  by_contra hne
  exact encodeBody_ne_nil hne (List.append_eq_nil_iff.mp h).1

theorem padding_add_three (n : Nat) : padding (n + 3) = padding n := by
  unfold padding
  omega

theorem decodeGroups_encodeBytes (contracts : Bool) (src : Bytes) :
    ∃ parts, decodeGroups contracts (padding src.length) (encodeBytes src) = .ok parts ∧
      bytesConcatAll parts = src := by
  cases src with
  | nil => exact ⟨[], rfl, rfl⟩
  | cons a src =>
    cases src with
    | nil =>
      have h := triple_lt a 0 0
      have hquad := b64DecodeQuad_triple contracts a 0 0 2
      rw [(triple_zero a 0).2.1, (triple_zero a 0).2.2] at hquad
      refine ⟨[[a]], ?_, rfl⟩
      show decodeGroups contracts 2 [charByte _, charByte _, 61, 61] = _
      rw [decodeGroups, b64Val_charByte (by omega), b64Val_charByte (Nat.mod_lt _ (by decide))]
      simp only [if_pos]
      rw [show (0 : Int) = (0 : Nat) from rfl, hquad]
      rfl
    | cons b src =>
      cases src with
      | nil =>
        have h := triple_lt a b 0
        have hquad := b64DecodeQuad_triple contracts a b 0 1
        rw [(triple_zero a b).1] at hquad
        refine ⟨[[a], [b]], ?_, rfl⟩
        show decodeGroups contracts 1 [charByte _, charByte _, charByte _, 61] = _
        rw [decodeGroups, b64Val_charByte (by omega), b64Val_charByte (Nat.mod_lt _ (by decide)),
          value_charByte (Nat.mod_lt _ (by decide))]
        simp only [if_pos]
        rw [show (0 : Int) = (0 : Nat) from rfl, hquad]
        rfl
      | cons c rest =>
        obtain ⟨parts, hrest, hparts⟩ := decodeGroups_encodeBytes contracts rest
        have h := triple_lt a b c
        have hpad : padding (a :: b :: c :: rest).length = padding rest.length :=
          padding_add_three rest.length
        have hthis : (if encodeBytes rest = [] then padding rest.length else 0) = 0 := by
          split
          · next hnil => rw [eq_nil_of_encodeBytes hnil]; rfl
          · rfl
        refine ⟨[a] :: [b] :: [c] :: parts, ?_, ?_⟩
        · rw [hpad]
          show decodeGroups contracts _ (charByte _ :: charByte _ :: charByte _ :: charByte _ ::
            (encodeBody rest ++ List.replicate (padding (a :: b :: c :: rest).length) 61)) = _
          rw [hpad, ← encodeBytes, decodeGroups, b64Val_charByte (by omega),
            b64Val_charByte (Nat.mod_lt _ (by decide)), value_charByte (Nat.mod_lt _ (by decide)),
            value_charByte (Nat.mod_lt _ (by decide)), hthis, b64DecodeQuad_triple, hrest]
          rfl
        · show [a] ++ ([b] ++ ([c] ++ bytesConcatAll parts)) = _
          rw [hparts]
          rfl

/-! ## The text of an encoding -/

/-- The characters of base64, as bytes. -/
def IsCharByte (b : UInt8) : Prop := ∃ k < 64, b = charByte k

theorem isCharByte_mod (n : Nat) : IsCharByte (charByte (n % 64)) :=
  ⟨_, Nat.mod_lt _ (by decide), rfl⟩

theorem isCharByte_triple (a b c : UInt8) : IsCharByte (charByte (triple a b c / 262144)) :=
  ⟨_, by have := triple_lt a b c; omega, rfl⟩

theorem encodeBody_charBytes (src : Bytes) : ∀ b ∈ encodeBody src, IsCharByte b := by
  cases src with
  | nil => exact List.forall_mem_nil _
  | cons a src =>
    cases src with
    | nil =>
      exact List.forall_mem_cons.mpr ⟨isCharByte_triple _ _ _,
        List.forall_mem_singleton.mpr (isCharByte_mod _)⟩
    | cons b src =>
      cases src with
      | nil =>
        exact List.forall_mem_cons.mpr ⟨isCharByte_triple _ _ _, List.forall_mem_cons.mpr
          ⟨isCharByte_mod _, List.forall_mem_singleton.mpr (isCharByte_mod _)⟩⟩
      | cons c rest =>
        have ih := encodeBody_charBytes rest
        exact List.forall_mem_cons.mpr ⟨isCharByte_triple _ _ _, List.forall_mem_cons.mpr
          ⟨isCharByte_mod _, List.forall_mem_cons.mpr
            ⟨isCharByte_mod _, List.forall_mem_cons.mpr ⟨isCharByte_mod _, ih⟩⟩⟩⟩

theorem length_encodeBytes (src : Bytes) :
    (encodeBytes src).length = 4 * ((src.length + 2) / 3) := by
  rw [encodeBytes, List.length_append, List.length_replicate]
  cases src with
  | nil => rfl
  | cons a src =>
    cases src with
    | nil => simp [encodeBody, padding]
    | cons b src =>
      cases src with
      | nil => simp [encodeBody, padding]
      | cons c rest =>
        have ih := length_encodeBytes rest
        rw [encodeBytes, List.length_append, List.length_replicate] at ih
        have hpad := padding_add_three rest.length
        simp only [encodeBody, List.length_cons, padding] at hpad ih ⊢
        omega

theorem b64CountPadding_eq {init : Bytes} {b : UInt8} {p : Nat} (hb : b ≠ 61) (hp : p ≤ 2) :
    b64CountPadding (init ++ b :: List.replicate p 61) (init.length + 1 + p) = .ok p := by
  have hget : ∀ {k : Nat} {x : UInt8} {at' : Int}, at' = (init.length : Int) + (k : Int) →
      (b :: List.replicate p 61)[k]? = some x →
        byteAt (init ++ b :: List.replicate p 61) at' = .ok x := by
    intro k x at' hat hx
    rw [hat]
    apply byteAt_drop
    rw [List.drop_left, hx]
  rw [b64CountPadding, if_neg (by omega)]
  rcases Nat.lt_or_ge p 1 with h0 | h1
  · obtain rfl : p = 0 := by omega
    rw [hget (k := 0) (by omega) rfl]
    exact if_neg hb
  rcases Nat.lt_or_ge p 2 with h1' | h2
  · obtain rfl : p = 1 := by omega
    rw [hget (k := 1) (by omega) rfl]
    show (byteAt _ _).bind _ = _
    rw [hget (k := 0) (by omega) rfl]
    show Except.ok (if _ ∧ b = 61 then 2 else 1) = _
    rw [if_neg (fun h => hb h.2)]
  · obtain rfl : p = 2 := by omega
    rw [hget (k := 2) (by omega) rfl]
    show (byteAt _ _).bind _ = _
    rw [hget (k := 1) (by omega) rfl]
    show Except.ok (if _ ∧ _ then 2 else 1) = _
    rw [if_pos ⟨by omega, rfl⟩]

theorem encodeBody_snoc {src : Bytes} (h : src ≠ []) :
    ∃ init b, encodeBody src = init ++ [b] ∧ b ≠ 61 := by
  have hne := encodeBody_ne_nil h
  refine ⟨_, _, (List.dropLast_append_getLast hne).symm, ?_⟩
  obtain ⟨k, hk, heq⟩ := encodeBody_charBytes src _ (List.getLast_mem hne)
  rw [heq]
  exact (charByte_ascii hk).1

theorem encodeBytes_ascii (src : Bytes) : ∀ b ∈ encodeBytes src, b.toNat < 128 := by
  intro b hb
  rcases List.mem_append.mp hb with hbody | hpad
  · obtain ⟨k, hk, rfl⟩ := encodeBody_charBytes src b hbody
    exact (charByte_ascii hk).2
  · rw [List.eq_of_mem_replicate hpad]
    decide

/-- Bytes below 128 as characters. -/
def asciiText (bytes : Bytes) : List Char := bytes.map fun b => Char.ofNat b.toNat

theorem encode_asciiText {bytes : Bytes} (h : ∀ b ∈ bytes, b.toNat < 128) :
    Utf8.encode (asciiText bytes) = bytes := by
  induction bytes with
  | nil => rfl
  | cons b bytes ih =>
    have hb := h b List.mem_cons_self
    have hval : (Char.ofNat b.toNat).val.toNat = b.toNat := by
      rw [Char.ofNat, dif_pos (Or.inl (by omega))]
      rfl
    have hone : String.utf8EncodeChar (Char.ofNat b.toNat) = [b] := by
      rw [Utf8.utf8EncodeChar_low (by omega), hval, UInt8.ofNat_toNat]
    rw [asciiText, List.map_cons, Utf8.encode_cons, hone]
    exact congrArg _ (ih fun x hx => h x (List.mem_cons_of_mem _ hx))

theorem base64Encode_eq (s : String) :
    base64Encode s = .ok (String.ofList (asciiText (encodeBytes (bytesFromString s)))) := by
  rw [base64Encode]
  by_cases hempty : (bytesFromString s).length = 0
  · rw [List.length_eq_zero_iff] at hempty
    simp only [hempty]
    rfl
  · obtain ⟨parts, hloop, hparts⟩ := b64EncodeLoop_eq (bytesFromString s) 0
    rw [List.drop_zero] at hparts
    have htext := bytesToString_all
      (hparts.trans (encode_asciiText (encodeBytes_ascii (bytesFromString s))).symm) rfl
    simp only [if_neg hempty, hloop, bind, Except.bind, htext]
    rfl

theorem bytesFromString_encoding (src : Bytes) :
    bytesFromString (String.ofList (asciiText (encodeBytes src))) = encodeBytes src := by
  rw [bytesFromString, String.toList_ofList, encode_asciiText (encodeBytes_ascii src)]

theorem base64Decode_encoding (contracts : Bool) (s : String) :
    base64Decode contracts (String.ofList (asciiText (encodeBytes (bytesFromString s)))) =
      .ok s := by
  rw [base64Decode, bytesFromString_encoding]
  by_cases hempty : bytesFromString s = []
  · rw [hempty]
    have hs : s = "" := by
      apply String.toList_inj.mp
      exact Utf8.encode_injective hempty
    rw [hs]
    rfl
  · obtain ⟨init, b, hbody, hb⟩ := encodeBody_snoc hempty
    have hsplit : encodeBytes (bytesFromString s) =
        init ++ b :: List.replicate (padding (bytesFromString s).length) 61 := by
      rw [encodeBytes, hbody, List.append_assoc]
      rfl
    have hcount : b64CountPadding (encodeBytes (bytesFromString s))
        (encodeBytes (bytesFromString s)).length = .ok (padding (bytesFromString s).length) := by
      have h := @b64CountPadding_eq init b (padding (bytesFromString s).length) hb
        (by unfold padding; omega)
      rw [hsplit]
      rw [List.length_append, List.length_cons, List.length_replicate, ← Nat.add_assoc,
        Nat.add_right_comm]
      exact h
    obtain ⟨parts, hloop, hparts⟩ := decodeGroups_encodeBytes contracts (bytesFromString s)
    have htext := bytesToString_all (u := s.toList) hparts rfl
    have hne : (encodeBytes (bytesFromString s)).length ≠ 0 := by
      rw [hsplit]
      simp
    rw [if_neg hne]
    simp only [hcount, b64DecodeLoop_eq, List.drop_zero, hloop, bind, Except.bind, htext,
      String.ofList_toList]
    rfl

/-! ## What is taken for base64 -/

def b64Alphabet : List Char :=
  "ABCDEFGHIJKLMNOPQRSTUVWXYZabcdefghijklmnopqrstuvwxyz0123456789+/".toList

/-- Characters of the alphabet, at most two padding characters behind them, whole groups. -/
def IsBase64 (s : String) : Prop :=
  ∃ body pad, s.toList = body ++ pad ∧ (∀ c ∈ body, c ∈ b64Alphabet) ∧
    (pad = [] ∨ pad = ['='] ∨ pad = ['=', '=']) ∧ s.toList.length % 4 = 0

theorem charByte_mem {k : Nat} (h : k < 64) : Char.ofNat (charByte k).toNat ∈ b64Alphabet := by
  have hlt : k < b64Table.length := by rwa [b64Table_length]
  apply (Utf8.mem_encode_low (charByte_ascii h).2 b64Alphabet).mp
  show charByte k ∈ b64Table
  rw [charByte_eq hlt]
  exact List.getElem_mem hlt

theorem asciiText_encodeBytes (src : Bytes) :
    ∃ body, asciiText (encodeBytes src) = body ++ List.replicate (padding src.length) '=' ∧
      ∀ c ∈ body, c ∈ b64Alphabet := by
  refine ⟨asciiText (encodeBody src), ?_, ?_⟩
  · rw [encodeBytes, asciiText, List.map_append, List.map_replicate]
    rfl
  · intro c hc
    obtain ⟨b, hb, rfl⟩ := List.mem_map.mp hc
    obtain ⟨k, hk, rfl⟩ := encodeBody_charBytes src b hb
    exact charByte_mem hk

theorem base64Decode_eq {contracts : Bool} {s : String} {pad : Nat}
    (hne : (bytesFromString s).length ≠ 0)
    (hpad : b64CountPadding (bytesFromString s) (bytesFromString s).length = .ok pad) :
    base64Decode contracts s = (decodeGroups contracts pad (bytesFromString s)).bind fun parts =>
      .ok (bytesToString (bytesConcatAll parts) 0 (bytesConcatAll parts).length) := by
  rw [base64Decode, if_neg hne, hpad]
  show (b64DecodeLoop contracts (bytesFromString s) 0 (bytesFromString s).length pad).bind _ = _
  rw [b64DecodeLoop_eq, List.drop_zero]
  rfl

theorem b64CountPadding_ok {src : Bytes} (h : 2 ≤ src.length) :
    ∃ pad, b64CountPadding src src.length = .ok pad := by
  have hlast : byteAt src ((src.length : Int) - 1) = .ok src[src.length - 1] := by
    rw [show (src.length : Int) - 1 = ((src.length - 1 : Nat) : Int) by omega]
    exact byteAt_natCast (by omega)
  have hsecond : byteAt src ((src.length : Int) - 2) = .ok src[src.length - 2] := by
    rw [show (src.length : Int) - 2 = ((src.length - 2 : Nat) : Int) by omega]
    exact byteAt_natCast (by omega)
  rw [b64CountPadding, if_neg (by omega), hlast]
  show ∃ pad, (if src[src.length - 1] = 61 then _ else _) = _
  split
  · rw [hsecond]
    exact ⟨_, rfl⟩
  · exact ⟨0, rfl⟩

theorem base64Decode_error_iff (contracts : Bool) (s : String) :
    (∃ fault, base64Decode contracts s = .error fault) ↔
      (bytesFromString s).length % 4 ≠ 0 ∨ contracts = true ∧ ¬ Leads (bytesFromString s) := by
  by_cases hempty : (bytesFromString s).length = 0
  · have hok : base64Decode contracts s = .ok "" := by
      rw [base64Decode, if_pos hempty]
      rfl
    rw [hok, List.length_eq_zero_iff.mp hempty]
    refine iff_of_false (fun h => ?_) (fun h => ?_)
    · obtain ⟨fault, hfault⟩ := h
      cases hfault
    · rcases h with h | h
      · exact h rfl
      · exact h.2 trivial
  have hcounted : ∀ pad, b64CountPadding (bytesFromString s) (bytesFromString s).length = .ok pad →
      ((∃ fault, base64Decode contracts s = .error fault) ↔
        (bytesFromString s).length % 4 ≠ 0 ∨ contracts = true ∧ ¬ Leads (bytesFromString s)) := by
    intro pad hpad
    rw [← decodeGroups_error_iff contracts pad, base64Decode_eq hempty hpad]
    cases decodeGroups contracts pad (bytesFromString s) with
    | error fault => exact iff_of_true ⟨fault, rfl⟩ ⟨fault, rfl⟩
    | ok parts =>
      refine iff_of_false (fun h => ?_) (fun h => ?_)
      · obtain ⟨fault, hfault⟩ := h
        cases hfault
      · obtain ⟨fault, hfault⟩ := h
        cases hfault
  by_cases hlong : 2 ≤ (bytesFromString s).length
  · obtain ⟨pad, hpad⟩ := b64CountPadding_ok hlong
    exact hcounted pad hpad
  · -- one byte is too few, whether or not the padding is counted
    cases hpad : b64CountPadding (bytesFromString s) (bytesFromString s).length with
    | ok pad => exact hcounted pad hpad
    | error fault =>
      refine iff_of_true ⟨fault, ?_⟩ (Or.inl (by omega))
      rw [base64Decode, if_neg hempty, hpad]
      rfl

/-- What is encoded is read back; text that is not base64 is refused where its length is no
multiple of four and, with the clauses compiled, where a group does not begin with two values, and
only there. -/
theorem base64_exact_iff (contracts : Bool) (s : String) :
    (∃ e, base64Encode s = .ok e ∧ base64Decode contracts e = .ok s ∧
      e.toList.length = 4 * (((bytesFromString s).length + 2) / 3) ∧
      ∃ body, e.toList = body ++ List.replicate (padding (bytesFromString s).length) '=' ∧
        ∀ c ∈ body, c ∈ b64Alphabet) ∧
    ((¬ IsBase64 s → ∃ fault, base64Decode contracts s = .error fault) ↔
      IsBase64 s ∨ (bytesFromString s).length % 4 ≠ 0 ∨
        contracts = true ∧ ¬ Leads (bytesFromString s)) := by
  constructor
  · refine ⟨_, base64Encode_eq s, base64Decode_encoding contracts s, ?_, ?_⟩
    · rw [String.toList_ofList, asciiText, List.length_map, length_encodeBytes]
    · rw [String.toList_ofList]
      exact asciiText_encodeBytes _
  · rw [base64Decode_error_iff, ← or_iff_not_imp_left]

/-- A character outside the alphabet, and a padding character within a group. -/
theorem base64Decode_lenient :
    '!' ∉ b64Alphabet ∧ base64Decode true "Zm9!" = .ok "fo?" ∧
      base64Decode false "Zm9!" = .ok "fo?" ∧ base64Decode true "Zn=v" = .ok "fp/" := by
  have hexcl : ∀ contracts, base64Decode contracts "Zm9!" =
      (decodeGroups contracts 0 (bytesFromString "Zm9!")).bind fun parts =>
        .ok (bytesToString (bytesConcatAll parts) 0 (bytesConcatAll parts).length) :=
    fun contracts => base64Decode_eq (by decide) rfl
  have hinner : base64Decode true "Zn=v" =
      (decodeGroups true 0 (bytesFromString "Zn=v")).bind fun parts =>
        .ok (bytesToString (bytesConcatAll parts) 0 (bytesConcatAll parts).length) :=
    base64Decode_eq (by decide) rfl
  refine ⟨by decide, ?_, ?_, ?_⟩
  · rw [hexcl]
    decide +kernel
  · rw [hexcl]
    decide +kernel
  · rw [hinner]
    decide +kernel

end Airl.Stdlib
