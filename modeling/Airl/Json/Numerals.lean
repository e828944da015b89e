import Airl.Json.Stringify

/-! # Integers and their digits

The text of an integer is read back as that integer: the accumulator wraps only
where the digits of the least integer end, and the guard before the last
multiplication does not fire.
-/

namespace Airl.Json

open Scan

variable {H : Host}

theorem le_ofDigitChars (cs : List Char) (a : Nat) : a ≤ Nat.ofDigitChars 10 cs a := by
  induction cs generalizing a with
  | nil => simp
  | cons c cs ih =>
    rw [Nat.ofDigitChars_cons]
    exact Nat.le_trans (by omega) (ih _)

theorem digit_range {c : Char} (h : c.isDigit = true) : 48 ≤ c.val.toNat ∧ c.val.toNat ≤ 57 := by
  simp only [Char.isDigit, Bool.and_eq_true, decide_eq_true_eq, ge_iff_le,
    UInt32.le_iff_toNat_le] at h
  exact h

theorem encode_digit {c : Char} (h : c.isDigit = true) (cs : List Char) :
    Utf8.encode (c :: cs) = UInt8.ofNat c.val.toNat :: Utf8.encode cs := by
  rw [Utf8.encode_cons, Utf8.utf8EncodeChar_low (by have := digit_range h; omega)]
  rfl

theorem byteToInt_digit {c : Char} (h : c.isDigit = true) :
    byteToInt (UInt8.ofNat c.val.toNat) - 48 = Int64.ofNat (c.toNat - 48) := by
  obtain ⟨hlow, hhigh⟩ := digit_range h
  have hdigit : ∀ n : Fin 10, byteToInt (UInt8.ofNat (n.val + 48)) - 48 = Int64.ofNat n.val := by
    decide
  have := hdigit ⟨c.val.toNat - 48, by omega⟩
  rw [show c.val.toNat - 48 + 48 = c.val.toNat by omega] at this
  exact this

/-- Digits are read as the number that they write. -/
theorem readInt_digits (neg : Bool) (cs : List Char) (hcs : ∀ c ∈ cs, c.isDigit = true) (a : Nat)
    (h : Nat.ofDigitChars 10 cs a ≤ 9223372036854775808) :
    readInt neg (Utf8.encode cs) (Int64.ofNat a) =
      .ok (if neg then 0 - Int64.ofNat (Nat.ofDigitChars 10 cs a)
        else Int64.ofNat (Nat.ofDigitChars 10 cs a)) := by
  induction cs generalizing a with
  | nil => simp [readInt]
  | cons c cs ih =>
    have hc : c.isDigit = true := hcs c (by simp)
    rw [Nat.ofDigitChars_cons] at h ⊢
    have hle := le_ofDigitChars cs (10 * a + (c.toNat - '0'.toNat))
    have hguard : ¬ Int64.ofNat a > 922337203685477580 := by
      rw [gt_iff_lt, Int64.lt_iff_toInt_lt, Int64.toInt_ofNat_of_lt (by omega),
        show (922337203685477580 : Int64).toInt = 922337203685477580 from rfl]
      omega
    rw [encode_digit hc, readInt, if_neg hguard, byteToInt_digit hc]
    have hacc : Int64.ofNat a * 10 + Int64.ofNat (c.toNat - 48) =
        Int64.ofNat (10 * a + (c.toNat - '0'.toNat)) := by
      rw [Int64.ofNat_add, Int64.ofNat_mul, Int64.mul_comm]
      rfl
    rw [hacc]
    exact ih (fun d hd => hcs d (by simp [hd])) _ h

theorem isDigit_toDigits (n : Nat) : ∀ c ∈ Nat.toDigits 10 n, c.isDigit = true :=
  fun _ hc => Nat.isDigit_of_mem_toDigits (by decide) (by decide) hc

theorem digit_bytes {cs : List Char} (hcs : ∀ c ∈ cs, c.isDigit = true) :
    ∀ b ∈ Utf8.encode cs, 48 ≤ b ∧ b ≤ 57 := by
  induction cs with
  | nil => simp
  | cons c cs ih =>
    have hc : c.isDigit = true := hcs c (by simp)
    obtain ⟨hlow, hhigh⟩ := digit_range hc
    rw [encode_digit hc]
    intro b hb
    rcases List.mem_cons.mp hb with rfl | hb
    · rw [UInt8.le_iff_toNat_le, UInt8.le_iff_toNat_le, Utf8.toNat_ofNat_lt (by omega)]
      exact ⟨hlow, hhigh⟩
    · exact ih (fun d hd => hcs d (by simp [hd])) b hb

/-- The bytes of an integer's text. -/
def numeral (n : Int64) : Bytes := bytesFromString (toString n.toInt)

theorem toInt_bounds (n : Int64) :
    -9223372036854775808 ≤ n.toInt ∧ n.toInt < 9223372036854775808 :=
  ⟨n.le_toInt, n.toInt_lt⟩

/-- A numeral is the digits of a natural number, with a sign or not. -/
theorem numeral_eq (n : Int64) : ∃ k : Nat, k ≤ 9223372036854775808 ∧
    (numeral n = Utf8.encode (Nat.toDigits 10 k) ∧ Int64.ofNat k = n ∨
      numeral n = 45 :: Utf8.encode (Nat.toDigits 10 k) ∧ 0 - Int64.ofNat k = n) := by
  obtain ⟨hlow, hhigh⟩ := toInt_bounds n
  have hn := Int64.ofInt_toInt n
  unfold numeral
  cases h : n.toInt with
  | ofNat k =>
    rw [h] at hhigh hn
    refine ⟨k, ?_, Or.inl ⟨?_, ?_⟩⟩
    · have hk : Int.ofNat k = (k : Int) := rfl
      omega
    · rw [show toString (Int.ofNat k) = k.repr from rfl, Nat.repr_eq_ofList_toDigits,
        bytesFromString_ofList]
    · rw [← hn]
      exact Int64.ofInt_eq_ofNat.symm
  | negSucc k =>
    rw [h] at hlow hn
    refine ⟨k + 1, by omega, Or.inr ⟨?_, ?_⟩⟩
    · rw [show toString (Int.negSucc k) = "-" ++ (k + 1).repr from rfl, bytesFromString_append,
        Nat.repr_eq_ofList_toDigits, bytesFromString_ofList (Nat.toDigits 10 (k + 1))]
      rfl
    · rw [← hn, Int64.zero_sub, ← Int64.ofInt_eq_ofNat, ← Int64.ofInt_neg]
      rfl

theorem encode_toDigits_ne_nil (k : Nat) : Utf8.encode (Nat.toDigits 10 k) ≠ [] := by
  have hdigits := isDigit_toDigits k
  cases h : Nat.toDigits 10 k with
  | nil => exact absurd h Nat.toDigits_ne_nil
  | cons c cs =>
    rw [encode_digit (hdigits c (by simp [h]))]
    simp

theorem isNumberByte_digit {b : UInt8} (h : 48 ≤ b ∧ b ≤ 57) : isNumberByte b = true := by
  simp [isNumberByte, h.1, h.2]

theorem digit_ne {b c : UInt8} (h : 48 ≤ b ∧ b ≤ 57) (hc : c.toNat < 48) : b ≠ c := by
  rintro rfl
  have := UInt8.le_iff_toNat_le.mp h.1
  exact absurd hc (Nat.not_lt.mpr this)

theorem numeral_bytes (n : Int64) : ∀ b ∈ numeral n, isNumberByte b = true ∧ b ≠ 46 := by
  obtain ⟨k, -, ⟨h, -⟩ | ⟨h, -⟩⟩ := numeral_eq n
  · intro b hb
    rw [h] at hb
    have hdigit := digit_bytes (isDigit_toDigits k) b hb
    exact ⟨isNumberByte_digit hdigit, digit_ne hdigit (by decide)⟩
  · intro b hb
    rw [h] at hb
    rcases List.mem_cons.mp hb with rfl | hb
    · decide
    · have hdigit := digit_bytes (isDigit_toDigits k) b hb
      exact ⟨isNumberByte_digit hdigit, digit_ne hdigit (by decide)⟩

theorem numeral_ne_nil (n : Int64) : numeral n ≠ [] := by
  obtain ⟨k, -, ⟨h, -⟩ | ⟨h, -⟩⟩ := numeral_eq n
  · rw [h]
    exact encode_toDigits_ne_nil k
  · simp [h]

/-- A numeral is read as its integer. -/
theorem readNumber_numeral (n : Int64) : readNumber H (numeral n) = .ok (.int n) := by
  have hdot : 46 ∉ numeral n := fun h => (numeral_bytes n 46 h).2 rfl
  rw [readNumber, if_neg (numeral_ne_nil n), if_neg hdot, readInteger]
  obtain ⟨k, hk, ⟨h, hn⟩ | ⟨h, hn⟩⟩ := numeral_eq n
  · rw [h]
    have hhead : ∀ b, (Utf8.encode (Nat.toDigits 10 k)).head? = some b → b ≠ 45 := by
      intro b hb
      exact digit_ne (digit_bytes (isDigit_toDigits k) b (List.mem_of_mem_head? hb)) (by decide)
    rw [if_neg fun h => hhead 45 (by rw [h]; rfl) rfl, if_neg fun h => hhead 45 h rfl]
    have hread := readInt_digits false _ (isDigit_toDigits k) 0
      (by rw [Nat.ofDigitChars_ten_toDigits]; exact hk)
    rw [Nat.ofDigitChars_ten_toDigits] at hread
    rw [show (0 : Int64) = Int64.ofNat 0 from rfl, hread, ← hn]
    rfl
  · rw [h]
    rw [if_neg fun h => encode_toDigits_ne_nil k (List.cons.inj h).2, List.head?_cons, if_pos rfl,
      List.tail_cons]
    have hread := readInt_digits true _ (isDigit_toDigits k) 0
      (by rw [Nat.ofDigitChars_ten_toDigits]; exact hk)
    rw [Nat.ofDigitChars_ten_toDigits] at hread
    rw [show (0 : Int64) = Int64.ofNat 0 from rfl, hread, ← hn]
    rfl

end Airl.Json
