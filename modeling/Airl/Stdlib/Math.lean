import Mathlib.Algebra.Ring.Int.Parity
import Mathlib.Algebra.GCDMonoid.Nat
import Airl.Json.Returns
import Airl.Stdlib.Prelude

/-! # Integer arithmetic in the standard library

`gcd`, `lcm` and `pow` of `math.airl`. A `(valid result)` of an integer cannot fail and is left
out.
-/

namespace Airl.Stdlib

open Airl.Json (Host vmHost)

/-- What `/` and `%` do with a divisor of zero: the machine has an error of its own for it, and
`airl-rt` ends the process. -/
def Engine.zeroDivisor : Engine → Fault
  | .machine => .error .divisionByZero
  | .compiled => .exit

/-- The quotient that does not fit. -/
def Engine.quotientOverflow : Engine → Fault
  | .machine => .panic
  | .compiled => .exit

/-- `f` is `/` or `%`. -/
def Engine.divide (engine : Engine) (f : Int64 → Int64 → Int64) (x y : Int64) :
    Except Fault Int64 :=
  if y = 0 then .error engine.zeroDivisor
  else if x = Int64.minValue ∧ y = -1 then .error engine.quotientOverflow
  else .ok (f x y)

section Functions

variable (H : Host) (engine : Engine)

def even : Nat → Int64 → Except Fault Bool
  | 0, _ => H.overflow
  | _ + 1, x => return (← engine.divide (· % ·) x 2) = 0

def pow : Nat → Int64 → Int64 → Except Fault Int64
  | 0, _, _ => H.overflow
  | frames + 1, base, exp => do
    H.requires "pow" "(>= exp 0)" (exp ≥ 0)
    if exp = 0 then return 1
    else if ← even H engine frames exp then
      let half ← pow frames base (← engine.divide (· / ·) exp 2)
      return half * half
    else return base * (← pow frames base (exp - 1))

/-- What `body` returns, which the clause `(>= result 0)` has to allow. -/
def notNegative (function : String) (body : Except Fault Int64) : Except Fault Int64 := do
  let result ← body
  H.ensures function "(>= result 0)" (result ≥ 0)
  return result

/-- A remainder is smaller than its divisor. -/
theorem natAbs_mod_lt (a : Int64) {b : Int64} (hb : b ≠ 0) :
    (a % b).toInt.natAbs < b.toInt.natAbs := by
  rw [Int64.toInt_mod, Int.natAbs_tmod]
  apply Nat.mod_lt
  rw [Nat.pos_iff_ne_zero, Int.natAbs_ne_zero]
  exact fun hzero => hb (Int64.toInt_inj.mp hzero)

/-- The self call of `gcd` is a tail call: it goes back to the `requires` clauses in the frame of
the first call, and only its last answer comes to the `ensures` clause. -/
def gcdLoop (a b : Int64) : Except Fault Int64 :=
  H.requires "gcd" "(>= a 0)" (a ≥ 0) >>= fun _ =>
  H.requires "gcd" "(>= b 0)" (b ≥ 0) >>= fun _ =>
  if b = 0 then return a
  else engine.divide (· % ·) a b >>= fun _ => gcdLoop b (a % b)
termination_by b.toInt.natAbs
decreasing_by exact natAbs_mod_lt a ‹_›

def gcd : Nat → Int64 → Int64 → Except Fault Int64
  | 0, _, _ => H.overflow
  | _ + 1, a, b => notNegative H "gcd" (gcdLoop H engine a b)

def lcm : Nat → Int64 → Int64 → Except Fault Int64
  | 0, _, _ => H.overflow
  | frames + 1, a, b => do
    H.requires "lcm" "(>= a 0)" (a ≥ 0)
    H.requires "lcm" "(>= b 0)" (b ≥ 0)
    notNegative H "lcm" (if a = 0 then return 0
      else if b = 0 then return 0
      else do engine.divide (· / ·) (a * b) (← gcd H engine frames a b))

end Functions

section Laws

variable {H : Host} {engine : Engine}

theorem requires_bind {α : Type} {function clause : String} {holds : Bool} (h : holds = true)
    (rest : Unit → Except Fault α) : (H.requires function clause holds >>= rest) = rest () := by
  rw [Host.requires, Host.assert, h, Bool.not_true, Bool.and_false, if_neg Bool.false_ne_true]
  rfl

theorem notNegative_ok {function : String} {result : Int64} (h : result ≥ 0) :
    notNegative H function (.ok result) = .ok result := by
  show (H.ensures function _ (decide (result ≥ 0)) >>= fun _ => Except.ok result) = _
  rw [Host.ensures, Host.assert, decide_eq_true h, Bool.not_true, Bool.and_false,
    if_neg Bool.false_ne_true]
  rfl

/-- A positive divisor causes no fault. -/
theorem divide_of_pos (f : Int64 → Int64 → Int64) (x : Int64) {y : Int64} (hy : 0 < y) :
    engine.divide f x y = .ok (f x y) := by
  have hzero : y ≠ 0 := by rintro rfl; exact absurd hy (by decide)
  have hneg : ¬ (x = Int64.minValue ∧ y = -1) := by
    rintro ⟨-, rfl⟩
    exact absurd hy (by decide)
  rw [Engine.divide, if_neg hzero, if_neg hneg]

theorem ge_zero_iff {x : Int64} : x ≥ 0 ↔ 0 ≤ x.toInt := by
  rw [ge_iff_le, Int64.le_iff_toInt_le]
  rfl

theorem pos_iff {x : Int64} : 0 < x ↔ 0 < x.toInt := by
  rw [Int64.lt_iff_toInt_lt]
  rfl

theorem eq_zero_iff {x : Int64} : x = 0 ↔ x.toInt = 0 := by
  rw [← Int64.toInt_inj]
  rfl

theorem pos_of_nonneg_of_ne {a : Int64} (ha : a ≥ 0) (hne : a ≠ 0) : 0 < a := by
  have hnonneg := ge_zero_iff.mp ha
  have hint := mt eq_zero_iff.mpr hne
  exact pos_iff.mpr (by omega)

/-- A round of the loop, on numbers that are not negative. -/
theorem gcdLoop_unfold {a b : Int64} (ha : a ≥ 0) (hb : b ≥ 0) :
    gcdLoop H engine a b = if b = 0 then .ok a else gcdLoop H engine b (a % b) := by
  rw [gcdLoop, requires_bind (decide_eq_true ha), requires_bind (decide_eq_true hb)]
  split
  · rfl
  · next hne =>
    have hpos : 0 < b := pos_of_nonneg_of_ne hb hne
    rw [divide_of_pos _ _ hpos]
    rfl

/-- With so many frames `gcd` returns the greatest common divisor. -/
def Euclid (H : Host) (engine : Engine) (frames : Nat) (a b : Int64) : Prop :=
  ∃ result, gcd H engine frames a b = .ok result ∧ result.toInt = Int.gcd a.toInt b.toInt

theorem toInt_mod_of_nonneg {a : Int64} (ha : a ≥ 0) (b : Int64) :
    (a % b).toInt = a.toInt % b.toInt := by
  rw [Int64.toInt_mod, Int.tmod_eq_emod_of_nonneg (ge_zero_iff.mp ha)]

theorem mod_nonneg {a b : Int64} (ha : a ≥ 0) (hb : 0 < b) : a % b ≥ 0 := by
  rw [ge_zero_iff, toInt_mod_of_nonneg ha]
  exact Int.emod_nonneg _ (Int.ne_of_gt (pos_iff.mp hb))

/-- The loop keeps the greatest common divisor. -/
theorem gcdLoop_returns {a b : Int64} (ha : a ≥ 0) (hb : b ≥ 0) :
    ∃ result, gcdLoop H engine a b = .ok result ∧ result.toInt = Int.gcd a.toInt b.toInt := by
  rw [gcdLoop_unfold ha hb]
  by_cases hzero : b = 0
  · refine ⟨a, if_pos hzero, ?_⟩
    rw [eq_zero_iff.mp hzero, Int.gcd_zero_right, Int.natAbs_of_nonneg (ge_zero_iff.mp ha)]
  · have hpos := pos_of_nonneg_of_ne hb hzero
    obtain ⟨result, hloop, hresult⟩ := gcdLoop_returns hb (mod_nonneg ha hpos)
    refine ⟨result, (if_neg hzero).trans hloop, ?_⟩
    rw [hresult, toInt_mod_of_nonneg ha, Int.gcd_comm, Int.gcd_emod]
termination_by b.toInt.natAbs
decreasing_by exact natAbs_mod_lt a hzero

/-- `gcd` returns the greatest common divisor in a single frame. -/
theorem euclid {a b : Int64} (ha : a ≥ 0) (hb : b ≥ 0) {frames : Nat} (hframes : 0 < frames) :
    Euclid H engine frames a b := by
  obtain ⟨frames, rfl⟩ : ∃ k, frames = k + 1 := ⟨frames - 1, by omega⟩
  obtain ⟨result, hloop, hresult⟩ := @gcdLoop_returns H engine a b ha hb
  have hnonneg : result ≥ 0 := by
    rw [ge_zero_iff, hresult]
    exact Int.natCast_nonneg _
  refine ⟨result, ?_, hresult⟩
  rw [gcd, hloop, notNegative_ok hnonneg]

/-- With so many frames `pow` returns the power, reduced to an `i64`. -/
def Power (H : Host) (engine : Engine) (frames : Nat) (base exp : Int64) : Prop :=
  pow H engine frames base exp = .ok (Int64.ofInt (base.toInt ^ exp.toInt.toNat))

theorem even_eq (frames : Nat) (x : Int64) :
    even H engine (frames + 1) x = .ok (decide (x % 2 = 0)) := by
  rw [even, divide_of_pos _ _ (by decide)]
  rfl

/-- `pow` halves an even exponent and takes one off an odd one. -/
theorem pow_unfold {exp : Int64} (hexp : exp ≥ 0) (base : Int64) (frames : Nat) :
    pow H engine (frames + 1 + 1) base exp = if exp = 0 then .ok 1
      else if exp % 2 = 0 then
        pow H engine (frames + 1) base (exp / 2) >>= fun half => .ok (half * half)
      else pow H engine (frames + 1) base (exp - 1) >>= fun rest => .ok (base * rest) := by
  rw [pow, requires_bind (decide_eq_true hexp), even_eq, divide_of_pos _ _ (by decide)]
  split
  · rfl
  · by_cases heven : exp % 2 = 0
    · rw [if_pos heven, decide_eq_true heven]
      rfl
    · rw [if_neg heven, decide_eq_false heven]
      rfl

theorem power_zero (frames : Nat) (base : Int64) : Power H engine (frames + 1) base 0 := by
  show pow H engine (frames + 1) base 0 = .ok (Int64.ofInt (base.toInt ^ 0))
  rw [pow, requires_bind (decide_eq_true (Int64.le_refl 0)), if_pos rfl, pow_zero]
  rfl

theorem toInt_half {exp : Int64} (hexp : exp ≥ 0) : (exp / 2).toInt = exp.toInt / 2 := by
  rw [Int64.toInt_div_of_ne_right _ _ (by decide)]
  exact Int.tdiv_eq_ediv_of_nonneg (ge_zero_iff.mp hexp)

theorem mod_two_eq_zero_iff {exp : Int64} (hexp : exp ≥ 0) : exp % 2 = 0 ↔ exp.toInt % 2 = 0 := by
  rw [eq_zero_iff, toInt_mod_of_nonneg hexp]
  rfl

/-- An even power is the square of a power of half the exponent. -/
theorem power_even {frames : Nat} {base exp : Int64} (hpos : 0 < exp) (heven : exp % 2 = 0)
    (hhalf : Power H engine (frames + 1) base (exp / 2)) :
    Power H engine (frames + 1 + 1) base exp := by
  have hne : exp ≠ 0 := by rintro rfl; exact absurd hpos (by decide)
  have hint := pos_iff.mp hpos
  have hmod := (mod_two_eq_zero_iff (Int64.le_of_lt hpos)).mp heven
  have hdiv := toInt_half (Int64.le_of_lt hpos)
  have hexp : exp.toInt.toNat = (exp.toInt / 2).toNat + (exp.toInt / 2).toNat := by omega
  rw [Power, hdiv] at hhalf
  rw [Power, pow_unfold (Int64.le_of_lt hpos), if_neg hne, if_pos heven, hhalf, hexp, pow_add,
    Int64.ofInt_mul]
  rfl

theorem toInt_pred {exp : Int64} (hpos : 0 < exp) : (exp - 1).toInt = exp.toInt - 1 := by
  have hint := pos_iff.mp hpos
  have hlt := exp.toInt_lt
  rw [Int64.toInt_sub]
  exact Int.bmod_eq_of_le (by show _ ≤ exp.toInt - 1; omega) (by show exp.toInt - 1 < _; omega)

/-- An odd power is the base times the power before it. -/
theorem power_odd {frames : Nat} {base exp : Int64} (hpos : 0 < exp) (hodd : exp % 2 ≠ 0)
    (hrest : Power H engine (frames + 1) base (exp - 1)) :
    Power H engine (frames + 1 + 1) base exp := by
  have hne : exp ≠ 0 := by rintro rfl; exact absurd hpos (by decide)
  have hint := pos_iff.mp hpos
  have hpred := toInt_pred hpos
  have hexp : exp.toInt.toNat = (exp.toInt - 1).toNat + 1 := by omega
  rw [Power, hpred] at hrest
  rw [Power, pow_unfold (Int64.le_of_lt hpos), if_neg hne, if_neg hodd, hrest, hexp, pow_succ',
    Int64.ofInt_mul, Int64.ofInt_toInt]
  rfl

/-- A bit of the exponent takes a step that makes it even and one that halves it. -/
theorem power {exp : Int64} (hexp : exp ≥ 0) (base : Int64) {bits frames : Nat}
    (hbits : exp.toInt < 2 ^ bits) (hframes : 2 * bits + 1 ≤ frames) :
    Power H engine frames base exp := by
  induction bits generalizing exp frames with
  | zero =>
    have hzero : exp = 0 := by
      have := ge_zero_iff.mp hexp
      rw [pow_zero] at hbits
      exact eq_zero_iff.mpr (by omega)
    obtain ⟨frames, rfl⟩ : ∃ k, frames = k + 1 := ⟨frames - 1, by omega⟩
    rw [hzero]
    exact power_zero frames base
  | succ bits ih =>
    obtain ⟨frames, rfl⟩ : ∃ k, frames = k + 1 + 1 + 1 := ⟨frames - 3, by omega⟩
    rw [pow_succ] at hbits
    by_cases hzero : exp = 0
    · rw [hzero]
      exact power_zero _ base
    have hpos := pos_of_nonneg_of_ne hexp hzero
    have hint := pos_iff.mp hpos
    -- halving an even exponent leaves one with a bit fewer
    have hhalf : ∀ {e : Int64}, e ≥ 0 → e.toInt ≤ exp.toInt → ∀ f, 2 * bits + 1 ≤ f →
        Power H engine f base (e / 2) := by
      intro e he hle f hf
      have hnonneg := ge_zero_iff.mp he
      refine ih ?_ ?_ hf
      · rw [ge_zero_iff, toInt_half he]
        omega
      · rw [toInt_half he]
        omega
    by_cases heven : exp % 2 = 0
    · exact power_even hpos heven (hhalf hexp (Int.le_refl _) _ (by omega))
    apply power_odd hpos heven
    have hpred := toInt_pred hpos
    have hpredNonneg : exp - 1 ≥ 0 := ge_zero_iff.mpr (by omega)
    by_cases hone : exp - 1 = 0
    · rw [hone]
      exact power_zero _ base
    have hodd := mt (mod_two_eq_zero_iff hexp).mpr heven
    refine power_even (pos_of_nonneg_of_ne hpredNonneg hone) ?_
      (hhalf hpredNonneg (by omega) _ (by omega))
    rw [mod_two_eq_zero_iff hpredNonneg, hpred]
    omega

theorem toInt_nonneg_of_natCast {x : Int64} {n : Nat} (h : x.toInt = n) : x ≥ 0 :=
  ge_zero_iff.mpr (h ▸ Int.natCast_nonneg n)

/-- The least common multiple where it fits. -/
def LcmExact (H : Host) (engine : Engine) (frames : Nat) (a b : Int64) : Prop :=
  Int.lcm a.toInt b.toInt < 2 ^ 63 →
    ∃ result, lcm H engine frames a b = .ok result ∧ result.toInt = Int.lcm a.toInt b.toInt

/-- A multiple of zero is zero. -/
theorem lcm_of_zero {a b : Int64} (ha : a ≥ 0) (hb : b ≥ 0) (h : a = 0 ∨ b = 0) (frames : Nat) :
    lcm H engine (frames + 1) a b = .ok 0 ∧ Int.lcm a.toInt b.toInt = 0 := by
  rw [lcm, requires_bind (decide_eq_true ha), requires_bind (decide_eq_true hb)]
  rcases h with rfl | rfl
  · rw [if_pos rfl]
    exact ⟨notNegative_ok (Int64.le_refl 0), Int.lcm_zero_left b.toInt⟩
  · rw [if_pos rfl, ite_self]
    exact ⟨notNegative_ok (Int64.le_refl 0), Int.lcm_zero_right a.toInt⟩

/-- `lcm` divides the product, as it wraps. -/
theorem lcm_unfold {frames : Nat} {a b g : Int64} (ha : 0 < a) (hb : 0 < b)
    (hgcd : gcd H engine frames a b = .ok g) (hg : 0 < g) :
    lcm H engine (frames + 1) a b = notNegative H "lcm" (.ok (a * b / g)) := by
  have hane : a ≠ 0 := by rintro rfl; exact absurd ha (by decide)
  have hbne : b ≠ 0 := by rintro rfl; exact absurd hb (by decide)
  rw [lcm, requires_bind (decide_eq_true (Int64.le_of_lt ha)),
    requires_bind (decide_eq_true (Int64.le_of_lt hb)), if_neg hane, if_neg hbne, hgcd]
  show notNegative H "lcm" (engine.divide (· / ·) (a * b) g) = _
  rw [divide_of_pos _ _ hg]

theorem notNegative_eq_ok {function : String} {x result : Int64}
    (h : notNegative H function (.ok x) = .ok result) : result = x := by
  obtain ⟨y, hy, h⟩ := except_bind_eq_ok.mp h
  obtain ⟨-, -, h⟩ := except_bind_eq_ok.mp h
  exact (Except.ok.inj h).symm.trans (Except.ok.inj hy).symm

/-- The quotient is the least common multiple just if the product fits. -/
theorem toInt_quotient_iff {a b g : Int64} (ha : 0 < a) (hb : 0 < b) (hg : 0 < g)
    (hgcd : g.toInt = Int.gcd a.toInt b.toInt) :
    (a * b / g).toInt = Int.lcm a.toInt b.toInt ↔ a.toInt * b.toInt < 2 ^ 63 := by
  have hgpos := pos_iff.mp hg
  have hprod : 0 < a.toInt * b.toInt := Int.mul_pos (pos_iff.mp ha) (pos_iff.mp hb)
  have hmul : g.toInt * Int.lcm a.toInt b.toInt = a.toInt * b.toInt := by
    rw [hgcd, ← Int.natCast_mul, Int.gcd_mul_lcm, ← Int.natAbs_mul,
      Int.natAbs_of_nonneg (Int.le_of_lt hprod)]
  have hone : g ≠ -1 := by rintro rfl; exact absurd hg (by decide)
  rw [Int64.toInt_div_of_ne_right _ _ hone, Int64.toInt_mul]
  constructor
  · intro hquot
    by_contra hwrap
    have hbound : (a.toInt * b.toInt).bmod (2 ^ 64) < a.toInt * b.toInt := by
      have := @Int.bmod_lt (a.toInt * b.toInt) (2 ^ 64) (by decide)
      omega
    have hlcm : 0 < (Int.lcm a.toInt b.toInt : Int) := by
      rw [← hmul, Int.mul_comm] at hprod
      exact Int.pos_of_mul_pos_left hprod hgpos
    have hnonneg : 0 ≤ (a.toInt * b.toInt).bmod (2 ^ 64) := by
      by_contra hneg
      have hopp := Int.tdiv_nonneg (a := -(a.toInt * b.toInt).bmod (2 ^ 64)) (by omega)
        (Int.le_of_lt hgpos)
      rw [Int.neg_tdiv] at hopp
      omega
    rw [Int.tdiv_eq_ediv_of_nonneg hnonneg] at hquot
    have hle := Int.mul_ediv_self_le (Int.ne_of_gt hgpos) (x := (a.toInt * b.toInt).bmod (2 ^ 64))
    rw [hquot, hmul] at hle
    omega
  · intro hfits
    rw [Int.bmod_eq_of_le (by omega) (by omega), ← hmul]
    exact Int.mul_tdiv_cancel_left _ (Int.ne_of_gt hgpos)

/-- `lcm` is exact just if the product fits or the result does not. -/
theorem lcm_exact_iff {frames : Nat} (hframes : 128 ≤ frames) {a b : Int64} (ha : a ≥ 0)
    (hb : b ≥ 0) : LcmExact H engine frames a b ↔
      (Int.lcm a.toInt b.toInt < 2 ^ 63 → a.toInt * b.toInt < 2 ^ 63) := by
  obtain ⟨frames, rfl⟩ : ∃ k, frames = k + 1 := ⟨frames - 1, by omega⟩
  by_cases hzero : a = 0 ∨ b = 0
  · obtain ⟨hlcm, hint⟩ := @lcm_of_zero H engine a b ha hb hzero frames
    have hprod : a.toInt * b.toInt = 0 := by
      rcases hzero with rfl | rfl
      · exact Int.zero_mul _
      · exact Int.mul_zero _
    rw [LcmExact, hlcm, hint, hprod]
    exact ⟨fun _ _ => by decide, fun _ _ => ⟨0, rfl, rfl⟩⟩
  rw [not_or] at hzero
  have hapos := pos_of_nonneg_of_ne ha hzero.1
  have hbpos := pos_of_nonneg_of_ne hb hzero.2
  obtain ⟨g, hgcd, hg⟩ := @euclid H engine a b ha hb frames (by omega)
  have hgpos : 0 < g := by
    rw [pos_iff, hg]
    exact_mod_cast Int.gcd_pos_of_ne_zero_left _ (mt eq_zero_iff.mpr hzero.1)
  rw [LcmExact, lcm_unfold hapos hbpos hgcd hgpos, ← toInt_quotient_iff hapos hbpos hgpos hg]
  apply imp_congr_right
  intro _
  constructor
  · rintro ⟨result, hresult, hlcm⟩
    rw [← notNegative_eq_ok hresult, hlcm]
  · intro hquot
    exact ⟨_, notNegative_ok (toInt_nonneg_of_natCast hquot), hquot⟩

/-- What the arithmetic library promises of two operands and an exponent that are not negative. -/
structure ArithmeticExact (H : Host) (engine : Engine) (frames : Nat) (a b base exp : Int64) :
    Prop where
  gcd : ∃ result, gcd H engine frames a b = .ok result ∧ result.toInt = Int.gcd a.toInt b.toInt
  gcd_zero : Stdlib.gcd H engine frames a b = .ok 0 ↔ a = 0 ∧ b = 0
  lcm : LcmExact H engine frames a b
  pow : pow H engine frames base exp = .ok (Int64.ofInt (base.toInt ^ exp.toInt.toNat))

theorem gcd_eq_ok_zero_iff {frames : Nat} {a b : Int64} (h : Euclid H engine frames a b) :
    gcd H engine frames a b = .ok 0 ↔ a = 0 ∧ b = 0 := by
  obtain ⟨result, hgcd, hresult⟩ := h
  rw [hgcd, eq_zero_iff, eq_zero_iff, ← Int.gcd_eq_zero_iff, ← Int.natCast_eq_zero, ← hresult,
    ← eq_zero_iff]
  exact ⟨Except.ok.inj, congrArg _⟩

/-- The library is exact where the product of the operands fits or their least common multiple
does not. -/
theorem arithmetic_exact_iff (H : Host) (engine : Engine) {a b exp : Int64} (ha : a ≥ 0)
    (hb : b ≥ 0) (hexp : exp ≥ 0) (base : Int64) :
    (∀ frames, 128 ≤ frames → ArithmeticExact H engine frames a b base exp) ↔
      (Int.lcm a.toInt b.toInt < 2 ^ 63 → a.toInt * b.toInt < 2 ^ 63) := by
  constructor
  · intro h
    exact (lcm_exact_iff (Nat.le_refl 128) ha hb).mp (h 128 (Nat.le_refl 128)).lcm
  · intro h frames hframes
    have heuclid : Euclid H engine frames a b := euclid ha hb (by omega)
    exact {
      gcd := heuclid
      gcd_zero := gcd_eq_ok_zero_iff heuclid
      lcm := (lcm_exact_iff hframes ha hb).mpr h
      pow := power hexp base exp.toInt_lt (by omega) }

theorem arithmetic_exact_iff_twelve : ArithmeticExact vmHost .machine 128 12 18 (-3) 5 :=
  (arithmetic_exact_iff vmHost .machine (by decide) (by decide) (by decide) (-3)).mpr
    (fun _ => by decide) 128 (Nat.le_refl 128)

/-- Of two numbers of which one divides the other the least common multiple is their product, as
it wraps, over the smaller one. -/
theorem lcm_of_mod_eq_zero {a b : Int64} (ha : 0 < a) (hb : 0 < b) (hmod : a % b = 0)
    (frames : Nat) :
    lcm H engine (frames + 1 + 1) a b = notNegative H "lcm" (.ok (a * b / b)) := by
  have hbnonneg := Int64.le_of_lt hb
  have hne : b ≠ 0 := by rintro rfl; exact absurd hb (by decide)
  refine lcm_unfold ha hb ?_ hb
  rw [gcd, gcdLoop_unfold (Int64.le_of_lt ha) hbnonneg, if_neg hne, hmod,
    gcdLoop_unfold hbnonneg (Int64.le_refl 0), if_pos rfl, notNegative_ok hbnonneg]

/-- Two operands whose product wraps to nothing, and two whose product turns negative, which only
the clauses would notice. -/
theorem lcm_wraps :
    lcm vmHost .machine 128 1099511627776 1099511627776 = .ok 0 ∧
      Int.lcm 1099511627776 1099511627776 = 1099511627776 ∧
      lcm vmHost .machine 128 4294967296 2147483648 = .ok (-4294967296) ∧
      lcm { vmHost with contracts := true } .machine 128 4294967296 2147483648 =
        .error (.error (.contractViolation "lcm" .ensures "(>= result 0)")) ∧
      ¬ ArithmeticExact vmHost .machine 128 1099511627776 1099511627776 2 0 := by
  have hzero : lcm vmHost .machine 128 1099511627776 1099511627776 = .ok 0 := by
    rw [lcm_of_mod_eq_zero (by decide) (by decide) (by decide)]
    rfl
  refine ⟨hzero, by decide, ?_, ?_, ?_⟩
  · rw [lcm_of_mod_eq_zero (by decide) (by decide) (by decide)]
    rfl
  · rw [lcm_of_mod_eq_zero (by decide) (by decide) (by decide)]
    rfl
  intro hexact
  obtain ⟨result, hlcm, hint⟩ := hexact.lcm (by decide)
  rw [hzero] at hlcm
  rw [← Except.ok.inj hlcm] at hint
  exact absurd hint (by decide)

end Laws
end Airl.Stdlib
