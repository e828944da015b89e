import Mathlib.Data.List.Basic

/-! # Numerals

Integers written in a radix of at most thirty-six. The digits are `0` to `9` and the letters, of
either case; in front of them may stand a sign. What a text denotes has no bound.
-/

namespace Airl.Numeral

/-- The number a character stands for as a digit of some radix. -/
def digitValue (c : Char) : Option Nat :=
  if '0' ≤ c ∧ c ≤ '9' then some (c.toNat - 48)
  else if 'a' ≤ c ∧ c ≤ 'z' then some (c.toNat - 87)
  else if 'A' ≤ c ∧ c ≤ 'Z' then some (c.toNat - 55)
  else none

def toDigit (radix : Nat) (c : Char) : Option Nat := (digitValue c).filter (· < radix)

/-- The digits in ascending order. -/
def digitTable : List Char := "0123456789abcdefghijklmnopqrstuvwxyz".toList

def digitChar (d : Nat) : Char := digitTable.getD d '0'

/-- The number whose digits are `n`, then the given ones. -/
def accumulate (radix : Nat) (n : Nat) : List Char → Option Nat
  | [] => some n
  | c :: cs => (toDigit radix c).bind fun d => accumulate radix (n * radix + d) cs

/-- The number of a text without a sign. -/
def natural (radix : Nat) (s : List Char) : Option Nat :=
  if s = [] then none else accumulate radix 0 s

/-- The integer a text denotes. -/
def meaning (radix : Nat) : List Char → Option Int
  | '+' :: digits => (natural radix digits).map fun n : Nat => (n : Int)
  | '-' :: digits => (natural radix digits).map fun n : Nat => -(n : Int)
  | digits => (natural radix digits).map fun n : Nat => (n : Int)

/-- A text without a plus sign, a capital, or a zero in front of another digit. -/
inductive Canonical (radix : Nat) : List Char → Prop
  | zero : Canonical radix ['0']
  | positive {c : Char} {cs : List Char} : c ≠ '0' →
      (∀ d ∈ c :: cs, ∃ n < radix, d = digitChar n) → Canonical radix (c :: cs)
  | negative {c : Char} {cs : List Char} : c ≠ '0' →
      (∀ d ∈ c :: cs, ∃ n < radix, d = digitChar n) → Canonical radix ('-' :: c :: cs)

variable {radix : Nat}

theorem digitValue_digitChar {d : Nat} (h : d < 36) : digitValue (digitChar d) = some d := by
  have hall : ∀ d : Fin 36, digitValue (digitChar d) = some d.val := by decide
  exact hall ⟨d, h⟩

theorem toDigit_digitChar (hradix : radix ≤ 36) {d : Nat} (h : d < radix) :
    toDigit radix (digitChar d) = some d := by
  rw [toDigit, digitValue_digitChar (Nat.lt_of_lt_of_le h hradix)]
  exact Option.filter_eq_some_iff.mpr ⟨rfl, decide_eq_true h⟩

theorem digitChar_ne {d : Nat} (h : d < 36) :
    digitChar d ≠ '+' ∧ digitChar d ≠ '-' ∧ (0 < d → digitChar d ≠ '0') := by
  have hall : ∀ d : Fin 36, digitChar d ≠ '+' ∧ digitChar d ≠ '-' ∧
      (0 < d.val → digitChar d ≠ '0') := by decide
  exact hall ⟨d, h⟩

theorem accumulate_append (n : Nat) (xs ys : List Char) :
    accumulate radix n (xs ++ ys) =
      (accumulate radix n xs).bind fun m => accumulate radix m ys := by
  induction xs generalizing n with
  | nil => rfl
  | cons c cs ih =>
    simp only [List.cons_append, accumulate, Option.bind_assoc]
    congr 1
    funext d
    exact ih _

theorem le_accumulate (hradix : 0 < radix) {n m : Nat} {s : List Char}
    (h : accumulate radix n s = some m) : n ≤ m := by
  induction s generalizing n with
  | nil =>
    cases h
    exact Nat.le_refl _
  | cons c cs ih =>
    obtain ⟨d, -, h⟩ := Option.bind_eq_some_iff.mp h
    calc
      n ≤ n * radix := Nat.le_mul_of_pos_right n hradix
      _ ≤ n * radix + d := Nat.le_add_right _ _
      _ ≤ m := ih h

theorem meaning_unsigned {c : Char} {cs : List Char} (hplus : c ≠ '+') (hminus : c ≠ '-') :
    meaning radix (c :: cs) = (natural radix (c :: cs)).map fun n : Nat => (n : Int) := by
  rw [meaning]
  · intro digits h
    cases h
    exact hplus rfl
  · intro digits h
    cases h
    exact hminus rfl

/-- The digits of a number, the last one first. -/
def digits (radix : Nat) (n : Nat) : List Char :=
  if _h : n ≠ 0 ∧ 1 < radix then digitChar (n % radix) :: digits radix (n / radix) else []
termination_by n
decreasing_by exact Nat.div_lt_self (Nat.pos_of_ne_zero _h.1) _h.2

theorem digits_zero : digits radix 0 = [] := by
  rw [digits]
  exact dif_neg fun h => h.1 rfl

theorem digits_pos (hradix : 1 < radix) {n : Nat} (hn : n ≠ 0) :
    digits radix n = digitChar (n % radix) :: digits radix (n / radix) := by
  rw [digits]
  exact dif_pos ⟨hn, hradix⟩

theorem accumulate_digits (hradix : 1 < radix) (hlarge : radix ≤ 36) (n : Nat) :
    accumulate radix 0 (digits radix n).reverse = some n := by
  induction n using Nat.strongRecOn with
  | _ n ih =>
    by_cases hn : n = 0
    · rw [hn, digits_zero]
      rfl
    · have hless : n / radix < n := Nat.div_lt_self (Nat.pos_of_ne_zero hn) hradix
      have hdigit : toDigit radix (digitChar (n % radix)) = some (n % radix) :=
        toDigit_digitChar hlarge (Nat.mod_lt n (by omega))
      rw [digits_pos hradix hn, List.reverse_cons, accumulate_append, ih _ hless]
      simp only [Option.bind_some, accumulate, hdigit]
      rw [Nat.mul_comm, Nat.div_add_mod]

theorem mem_digits (hradix : 1 < radix) {n : Nat} {c : Char} (h : c ∈ digits radix n) :
    ∃ d < radix, c = digitChar d := by
  induction n using Nat.strongRecOn with
  | _ n ih =>
    by_cases hn : n = 0
    · rw [hn, digits_zero] at h
      cases h
    · rw [digits_pos hradix hn] at h
      rcases List.mem_cons.mp h with rfl | h
      · exact ⟨n % radix, Nat.mod_lt n (by omega), rfl⟩
      · exact ih _ (Nat.div_lt_self (Nat.pos_of_ne_zero hn) hradix) h

theorem digits_leading (hradix : 1 < radix) (hlarge : radix ≤ 36) {n : Nat} (hn : n ≠ 0) :
    ∃ c cs, (digits radix n).reverse = c :: cs ∧ c ≠ '0' := by
  induction n using Nat.strongRecOn with
  | _ n ih =>
    rw [digits_pos hradix hn, List.reverse_cons]
    by_cases hrest : n / radix = 0
    · have hsmall : n < radix := (Nat.div_eq_zero_iff_lt (by omega)).mp hrest
      rw [hrest, digits_zero, Nat.mod_eq_of_lt hsmall]
      exact ⟨digitChar n, [], rfl,
        (digitChar_ne (by omega)).2.2 (Nat.pos_of_ne_zero hn)⟩
    · obtain ⟨c, cs, hcs, hc⟩ :=
        ih _ (Nat.div_lt_self (Nat.pos_of_ne_zero hn) hradix) hrest
      exact ⟨c, cs ++ [digitChar (n % radix)], by rw [hcs, List.cons_append], hc⟩

end Airl.Numeral
