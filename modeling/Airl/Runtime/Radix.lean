import Airl.Library.Numeral
import Airl.Library.Returns
import Airl.Runtime.RtValue

/-! # Integers in a radix

The builtins `int-to-string-radix` and `parse-int-radix` of `misc.rs`. Reading is reading without
bounds, and within the bounds of `i64` nothing is refused.
-/

namespace Airl.Radix

open Numeral

/-- `ok_variant`. -/
def okVariant (inner : RtValue) : RtValue := .variant "Ok" inner

/-- `err_variant`. -/
def errVariant (message : String) : RtValue := .variant "Err" (.str message)

/-- `IntErrorKind`. -/
inductive IntErrorKind where
  | empty
  | invalidDigit
  | posOverflow
  | negOverflow
  deriving DecidableEq

/-- `ParseIntError` as a text. -/
def IntErrorKind.display : IntErrorKind → String
  | .empty => "cannot parse integer from empty string"
  | .invalidDigit => "invalid digit found in string"
  | .posOverflow => "number too large to fit in target type"
  | .negOverflow => "number too small to fit in target type"

/-- The result of an operation that overflows with an error. -/
def checked (overflow : IntErrorKind) (n : Int) : Except IntErrorKind Int :=
  if Int64.minValue.toInt ≤ n ∧ n ≤ Int64.maxValue.toInt then .ok n else .error overflow

/-- A number under a sign. -/
def signed (negative : Bool) (n : Int) : Int := if negative then -n else n

/-- The loop over the digits, which are subtracted behind a minus sign. -/
def readDigits (negative : Bool) (radix : Nat) (result : Int) :
    List Char → Except IntErrorKind Int
  | [] => .ok result
  | c :: cs =>
    match toDigit radix c with
    | none => .error .invalidDigit
    | some d => do
        let overflow := if negative then .negOverflow else .posOverflow
        let shifted ← checked overflow (result * radix)
        let result ← checked overflow (shifted + signed negative d)
        readDigits negative radix result cs

def fromStrRadix (radix : Nat) (s : List Char) : Except IntErrorKind Int64 :=
  Int64.ofInt <$>
    match s with
    | [] => .error .empty
    | ['+'] | ['-'] => .error .invalidDigit
    | '+' :: digits => readDigits false radix 0 digits
    | '-' :: digits => readDigits true radix 0 digits
    | digits => readDigits false radix 0 digits

/-- `*n as u32`. -/
def asU32 (n : Int64) : Nat := (n.toInt % 4294967296).toNat

def airlParseIntRadix (s base : RtValue) : RtValue :=
  match s with
  | .str input =>
    match base with
    | .int n =>
      let radix := asU32 n
      if 2 ≤ radix ∧ radix ≤ 36 then
        match fromStrRadix radix input.toList with
        | .ok v => okVariant (.int v)
        | .error e => errVariant ("parse-int-radix: " ++ e.display)
      else errVariant "parse-int-radix: base must be 2-36"
    | _ => errVariant "parse-int-radix: base not an int"
  | _ => errVariant "parse-int-radix: not a string"

/-- The buffer before it is reversed. -/
def radixBuffer (val : Int64) (radix : Nat) : List Char :=
  digits radix val.toInt.natAbs ++ if val < 0 then ['-'] else []

def airlIntToStringRadix (n base : RtValue) : RtValue :=
  match n with
  | .int val =>
    match base with
    | .int b =>
      let radix := asU32 b
      if 2 ≤ radix ∧ radix ≤ 36 then
        if val = 0 then .str "0"
        else .str (String.ofList (radixBuffer val radix).reverse)
      else .str "?base"
    | _ => .str "?"
  | _ => .str "NaN"

variable {radix : Nat}

/-- What an `i64` holds. -/
def Fits (n : Int) : Prop := -9223372036854775808 ≤ n ∧ n ≤ 9223372036854775807

theorem checked_eq_ok {overflow : IntErrorKind} {n m : Int} :
    checked overflow n = .ok m ↔ m = n ∧ Fits n := by
  unfold checked
  split
  next h =>
    constructor
    · intro heq
      cases heq
      exact ⟨rfl, h⟩
    · intro heq
      rw [heq.1]
  next h =>
    constructor
    · intro heq
      cases heq
    · intro heq
      exact absurd heq.2 h

theorem signed_step (negative : Bool) (n d : Nat) :
    signed negative n * radix + signed negative d = signed negative (n * radix + d : Nat) := by
  cases negative with
  | false => simp only [signed, Bool.false_eq_true, if_false, Int.natCast_add, Int.natCast_mul]
  | true =>
    simp only [signed, if_true, Int.natCast_add, Int.natCast_mul, Int.neg_add, Int.neg_mul]

theorem Fits.of_le {negative : Bool} {n m : Nat} (h : Fits (signed negative m)) (hle : n ≤ m) :
    Fits (signed negative n) := by
  cases negative with
  | false =>
    simp only [Fits, signed, Bool.false_eq_true, if_false] at h ⊢
    omega
  | true =>
    simp only [Fits, signed, if_true] at h ⊢
    omega

theorem readDigits_eq_ok (hradix : 0 < radix) (negative : Bool) {s : List Char} {n : Nat}
    (hn : Fits (signed negative n)) {v : Int} :
    readDigits negative radix (signed negative n) s = .ok v ↔
      ∃ m : Nat, accumulate radix n s = some m ∧ v = signed negative m ∧ Fits v := by
  induction s generalizing n with
  | nil =>
    constructor
    · intro h
      cases h
      exact ⟨n, rfl, rfl, hn⟩
    · intro h
      obtain ⟨m, hm, rfl, -⟩ := h
      cases hm
      rfl
  | cons c cs ih =>
    rw [readDigits, accumulate]
    cases toDigit radix c with
    | none => simp
    | some d =>
      simp only [Option.bind_some]
      constructor
      · intro h
        obtain ⟨shifted, hshift, h⟩ := except_bind_eq_ok.mp h
        obtain ⟨result, hadd, h⟩ := except_bind_eq_ok.mp h
        obtain ⟨rfl, -⟩ := checked_eq_ok.mp hshift
        obtain ⟨rfl, hfits⟩ := checked_eq_ok.mp hadd
        rw [signed_step] at h hfits
        exact (ih hfits).mp h
      · intro h
        obtain ⟨m, hm, rfl, hfits⟩ := h
        -- what is read so far is nearer to zero than what will have been read
        have hle : n * radix + d ≤ m := le_accumulate hradix hm
        have hnext : Fits (signed negative (n * radix + d : Nat)) := hfits.of_le hle
        have hshift : Fits (signed negative n * radix) := by
          have hzero : signed negative n * radix + signed negative (0 : Nat) =
              signed negative (n * radix + 0 : Nat) := signed_step negative n 0
          have hnone : signed negative (0 : Nat) = 0 := by cases negative <;> rfl
          rw [hnone, Int.add_zero] at hzero
          rw [hzero]
          exact hfits.of_le (Nat.le_trans (Nat.le_add_right _ _) hle)
        apply except_bind_eq_ok.mpr
        refine ⟨_, checked_eq_ok.mpr ⟨rfl, hshift⟩, ?_⟩
        apply except_bind_eq_ok.mpr
        rw [signed_step]
        exact ⟨_, checked_eq_ok.mpr ⟨rfl, hnext⟩, (ih hnext).mpr ⟨m, hm, rfl, hfits⟩⟩

theorem fits_toInt (n : Int64) : Fits n.toInt := ⟨n.le_toInt, Int.lt_add_one_iff.mp n.toInt_lt⟩

theorem readSigned_eq_ok (hradix : 0 < radix) (negative : Bool) {s : List Char} (hs : s ≠ [])
    {n : Int64} :
    Int64.ofInt <$> readDigits negative radix 0 s = .ok n ↔
      (natural radix s).map (fun m : Nat => signed negative m) = some n.toInt := by
  have hzero : signed negative (0 : Nat) = 0 := by cases negative <;> rfl
  have hfits : Fits (signed negative (0 : Nat)) := by
    rw [hzero]
    exact ⟨by decide, by decide⟩
  have hread (v : Int) : readDigits negative radix 0 s = .ok v ↔
      ∃ m : Nat, accumulate radix 0 s = some m ∧ v = signed negative m ∧ Fits v := by
    have h := @readDigits_eq_ok radix hradix negative s 0 hfits v
    rwa [hzero] at h
  rw [natural, if_neg hs, Option.map_eq_some_iff]
  constructor
  · intro h
    cases hdigits : readDigits negative radix 0 s with
    | error e =>
      rw [hdigits] at h
      cases h
    | ok v =>
      rw [hdigits] at h
      cases h
      obtain ⟨m, hm, rfl, hfits⟩ := (hread v).mp hdigits
      exact ⟨m, hm, (Int64.toInt_ofInt_of_le hfits.1 (Int.lt_add_one_iff.mpr hfits.2)).symm⟩
  · intro h
    obtain ⟨m, hm, hvalue⟩ := h
    rw [(hread n.toInt).mpr ⟨m, hm, hvalue.symm, fits_toInt n⟩]
    exact congrArg Except.ok (Int64.ofInt_toInt n)

/-- Reading is reading without bounds, within the bounds. -/
theorem fromStrRadix_eq_ok (hradix : 0 < radix) {s : List Char} {n : Int64} :
    fromStrRadix radix s = .ok n ↔ meaning radix s = some n.toInt := by
  unfold fromStrRadix
  split
  next => exact iff_of_false nofun nofun
  next => exact iff_of_false nofun nofun
  next => exact iff_of_false nofun nofun
  next digits hdigits =>
    exact readSigned_eq_ok hradix false (by rintro rfl; exact hdigits rfl)
  next digits hdigits =>
    exact readSigned_eq_ok hradix true (by rintro rfl; exact hdigits rfl)
  next hempty hplus hminus hplusDigits hminusDigits =>
    cases s with
    | nil => exact absurd rfl hempty
    | cons c cs =>
      rw [meaning_unsigned (by rintro rfl; exact hplusDigits cs rfl)
        (by rintro rfl; exact hminusDigits cs rfl)]
      exact readSigned_eq_ok hradix false (List.cons_ne_nil c cs)

theorem asU32_radix {base : Int64} (hlow : 2 ≤ base) (hhigh : base ≤ 36) :
    (asU32 base : Int) = base.toInt ∧ 2 ≤ asU32 base ∧ asU32 base ≤ 36 := by
  rw [Int64.le_iff_toInt_le] at hlow hhigh
  have htwo : (2 : Int64).toInt = 2 := rfl
  have hmost : (36 : Int64).toInt = 36 := rfl
  unfold asU32
  omega

/-- What is written is in canonical form and denotes what was written. -/
theorem radixBuffer_reverse (hradix : 1 < radix) (hlarge : radix ≤ 36) {val : Int64}
    (hval : val ≠ 0) :
    Canonical radix (radixBuffer val radix).reverse ∧
      meaning radix (radixBuffer val radix).reverse = some val.toInt := by
  have hne : val.toInt.natAbs ≠ 0 := by
    intro h
    apply hval
    rw [← Int64.ofInt_toInt val, Int.natAbs_eq_zero.mp h]
    rfl
  obtain ⟨c, cs, hdigits, hc⟩ := digits_leading hradix hlarge hne
  have hmem : ∀ d ∈ c :: cs, ∃ n < radix, d = digitChar n := by
    intro d hd
    rw [← hdigits, List.mem_reverse] at hd
    exact mem_digits hradix hd
  have hnatural : natural radix (c :: cs) = some val.toInt.natAbs := by
    rw [natural, if_neg (List.cons_ne_nil c cs), ← hdigits]
    exact accumulate_digits hradix hlarge _
  have hzero : (0 : Int64).toInt = 0 := rfl
  unfold radixBuffer
  rw [List.reverse_append, hdigits]
  by_cases hnegative : val < 0
  · rw [if_pos hnegative]
    refine ⟨.negative hc hmem, ?_⟩
    rw [Int64.lt_iff_toInt_lt, hzero] at hnegative
    have habs : -(val.toInt.natAbs : Int) = val.toInt := by omega
    rw [List.reverse_singleton, List.singleton_append, meaning, hnatural, Option.map_some, habs]
  · rw [if_neg hnegative]
    refine ⟨.positive hc hmem, ?_⟩
    rw [Int64.lt_iff_toInt_lt, hzero] at hnegative
    have habs : (val.toInt.natAbs : Int) = val.toInt := by omega
    obtain ⟨n, hn, rfl⟩ := hmem c List.mem_cons_self
    obtain ⟨hplus, hminus, -⟩ := digitChar_ne (Nat.lt_of_lt_of_le hn hlarge)
    rw [List.reverse_nil, List.nil_append, meaning_unsigned hplus hminus, hnatural,
      Option.map_some, habs]

theorem airlIntToStringRadix_spec {base : Int64} (hlow : 2 ≤ base) (hhigh : base ≤ 36)
    (n : Int64) : ∃ t : String, airlIntToStringRadix (.int n) (.int base) = .str t ∧
      Canonical (asU32 base) t.toList ∧ meaning (asU32 base) t.toList = some n.toInt := by
  obtain ⟨-, htwo, hmost⟩ := asU32_radix hlow hhigh
  rw [airlIntToStringRadix]
  simp only [htwo, hmost, and_self, if_true]
  by_cases hn : n = 0
  · rw [if_pos hn, hn]
    refine ⟨"0", rfl, .zero, ?_⟩
    have hdigit : toDigit (asU32 base) (digitChar 0) = some 0 :=
      toDigit_digitChar hmost (by omega)
    have hchar : digitChar 0 = '0' := rfl
    rw [hchar] at hdigit
    have htext : "0".toList = ['0'] := rfl
    rw [htext, meaning_unsigned (by decide) (by decide), natural,
      if_neg (List.cons_ne_nil _ _), accumulate, hdigit, Option.bind_some, Nat.zero_mul]
    rfl
  · rw [if_neg hn]
    refine ⟨_, rfl, ?_⟩
    rw [String.toList_ofList]
    exact radixBuffer_reverse htwo hmost hn

theorem airlParseIntRadix_eq_ok {base : Int64} (hlow : 2 ≤ base) (hhigh : base ≤ 36)
    {s : String} {v : RtValue} :
    airlParseIntRadix (.str s) (.int base) = okVariant v ↔
      ∃ n : Int64, v = .int n ∧ meaning (asU32 base) s.toList = some n.toInt := by
  obtain ⟨-, htwo, hmost⟩ := asU32_radix hlow hhigh
  have hread (n : Int64) : fromStrRadix (asU32 base) s.toList = .ok n ↔
      meaning (asU32 base) s.toList = some n.toInt := fromStrRadix_eq_ok (by omega)
  rw [airlParseIntRadix]
  simp only [htwo, hmost, and_self, if_true]
  cases h : fromStrRadix (asU32 base) s.toList with
  | error e =>
    constructor
    · intro heq
      have htag := (RtValue.variant.inj heq).1
      exact absurd htag (by decide)
    · intro heq
      obtain ⟨n, -, hn⟩ := heq
      rw [← hread n, h] at hn
      cases hn
  | ok m =>
    have hm := (hread m).mp h
    constructor
    · intro heq
      cases heq
      exact ⟨m, rfl, hm⟩
    · intro heq
      obtain ⟨n, rfl, hn⟩ := heq
      rw [← hread n, h] at hn
      cases hn
      rfl

/-- Every integer is read back from its digits. What is read has been written with digits of the
radix, and is written again in canonical form. -/
theorem radix_roundTrip (base : Int64) (hlow : 2 ≤ base) (hhigh : base ≤ 36) :
    (∀ n : Int64, airlParseIntRadix (airlIntToStringRadix (.int n) (.int base)) (.int base) =
      okVariant (.int n)) ∧
    ∀ (s : String) (v : RtValue), airlParseIntRadix (.str s) (.int base) = okVariant v →
      ∃ (n : Int64) (t : String), v = .int n ∧
        meaning base.toInt.toNat s.toList = some n.toInt ∧
        airlIntToStringRadix v (.int base) = .str t ∧ Canonical base.toInt.toNat t.toList ∧
        meaning base.toInt.toNat t.toList = some n.toInt := by
  have hbase : base.toInt.toNat = asU32 base := by
    have h := (asU32_radix hlow hhigh).1
    omega
  rw [hbase]
  constructor
  · intro n
    obtain ⟨t, ht, -, hdenotes⟩ := airlIntToStringRadix_spec hlow hhigh n
    rw [ht]
    exact (airlParseIntRadix_eq_ok hlow hhigh).mpr ⟨n, rfl, hdenotes⟩
  · intro s v h
    obtain ⟨n, rfl, hdenotes⟩ := (airlParseIntRadix_eq_ok hlow hhigh).mp h
    obtain ⟨t, ht, hcanonical, hsame⟩ := airlIntToStringRadix_spec hlow hhigh n
    exact ⟨n, t, rfl, hdenotes, ht, hcanonical, hsame⟩

/-- The least integer in hexadecimal. -/
theorem radix_roundTrip_least :
    airlParseIntRadix (airlIntToStringRadix (.int Int64.minValue) (.int 16)) (.int 16) =
      okVariant (.int Int64.minValue) :=
  (radix_roundTrip 16 (by decide) (by decide)).1 Int64.minValue

end Airl.Radix
