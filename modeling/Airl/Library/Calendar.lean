import Mathlib.Order.Monotone.Basic
import Mathlib.Tactic.IntervalCases

/-! # The proleptic Gregorian calendar

Dates, the date that follows a date, and the number of days between a date and the epoch, the
first of January 1970. The rule for leap years holds for every year, also before the first one.
-/

namespace Airl.Calendar

def IsLeap (year : Int) : Prop := 4 ∣ year ∧ (¬ 100 ∣ year ∨ 400 ∣ year)

instance (year : Int) : Decidable (IsLeap year) := by
  unfold IsLeap
  infer_instance

def daysInMonth (year : Int) : Nat → Nat
  | 1 => 31
  | 2 => if IsLeap year then 29 else 28
  | 3 => 31
  | 4 => 30
  | 5 => 31
  | 6 => 30
  | 7 => 31
  | 8 => 31
  | 9 => 30
  | 10 => 31
  | 11 => 30
  | 12 => 31
  | _ => 0

@[ext]
structure Date where
  year : Int
  month : Nat
  day : Nat
  month_valid : 1 ≤ month ∧ month ≤ 12
  day_valid : 1 ≤ day ∧ day ≤ daysInMonth year month

/-- The first of January 1970. -/
def epoch : Date := ⟨1970, 1, 1, ⟨by decide, by decide⟩, ⟨by decide, by decide⟩⟩

theorem daysInMonth_pos {year : Int} {month : Nat} (h : 1 ≤ month ∧ month ≤ 12) :
    1 ≤ daysInMonth year month := by
  obtain ⟨hlow, hhigh⟩ := h
  by_cases hfebruary : month = 2
  · subst hfebruary
    simp only [daysInMonth]
    split <;> decide
  · interval_cases month
    all_goals first
      | exact absurd rfl hfebruary
      | exact Nat.le_add_left 1 _

/-- The day after a date. -/
def Date.next (d : Date) : Date :=
  if hday : d.day < daysInMonth d.year d.month then
    { d with day := d.day + 1, day_valid := ⟨Nat.le_add_left 1 d.day, hday⟩ }
  else if hmonth : d.month < 12 then
    { year := d.year
      month := d.month + 1
      day := 1
      month_valid := ⟨Nat.le_add_left 1 d.month, hmonth⟩
      day_valid := ⟨Nat.le_refl 1, daysInMonth_pos ⟨Nat.le_add_left 1 d.month, hmonth⟩⟩ }
  else
    { year := d.year + 1
      month := 1
      day := 1
      month_valid := ⟨by decide, by decide⟩
      day_valid := ⟨Nat.le_refl 1, daysInMonth_pos ⟨by decide, by decide⟩⟩ }

/-- The date `n` days after the epoch, before it for a negative number. -/
inductive DaysFromEpoch : Int → Date → Prop
  | epoch : DaysFromEpoch 0 epoch
  | next {n : Int} {d : Date} : DaysFromEpoch n d → DaysFromEpoch (n + 1) d.next
  | previous {n : Int} {d : Date} : DaysFromEpoch (n + 1) d.next → DaysFromEpoch n d

/-- The days between the epoch and the first day of a year. -/
def daysBeforeYear (year : Int) : Int :=
  365 * (year - 1) + (year - 1) / 4 - (year - 1) / 100 + (year - 1) / 400 - 719162

/-- The days of a year before the first day of a month. -/
def daysBeforeMonth (year : Int) : Nat → Nat
  | 0 => 0
  | month + 1 => daysBeforeMonth year month + daysInMonth year month

def Date.dayNumber (d : Date) : Int :=
  daysBeforeYear d.year + daysBeforeMonth d.year d.month + d.day - 1

def yearLength (year : Int) : Nat := if IsLeap year then 366 else 365

theorem daysBeforeYear_succ (year : Int) :
    daysBeforeYear (year + 1) = daysBeforeYear year + yearLength year := by
  unfold daysBeforeYear yearLength
  by_cases h : IsLeap year
  · rw [if_pos h]
    unfold IsLeap at h
    omega
  · rw [if_neg h]
    unfold IsLeap at h
    omega

theorem daysBeforeYear_mono {first second : Int} (h : first ≤ second) :
    daysBeforeYear first ≤ daysBeforeYear second := by
  unfold daysBeforeYear
  omega

theorem daysBeforeMonth_mono {year : Int} {first second : Nat} (h : first ≤ second) :
    daysBeforeMonth year first ≤ daysBeforeMonth year second :=
  monotone_nat_of_le_succ (fun month => Nat.le_add_right (daysBeforeMonth year month) _) h

theorem daysBeforeMonth_end (year : Int) : daysBeforeMonth year 13 = yearLength year := by
  unfold yearLength
  simp only [daysBeforeMonth, daysInMonth]
  split <;> rfl

theorem Date.dayNumber_next (d : Date) : d.next.dayNumber = d.dayNumber + 1 := by
  have hvalid := d.day_valid
  have hmonths := d.month_valid
  unfold Date.next
  split
  next hday =>
    simp only [Date.dayNumber]
    omega
  next hday =>
    have hlast : d.day = daysInMonth d.year d.month := by omega
    split
    next hmonth =>
      simp only [Date.dayNumber, daysBeforeMonth]
      omega
    next hmonth =>
      have htwelve : d.month = 12 := by omega
      have hyear := daysBeforeYear_succ d.year
      have hmonths : daysBeforeMonth d.year 12 + daysInMonth d.year 12 = yearLength d.year :=
        daysBeforeMonth_end d.year
      have hnew : daysBeforeMonth (d.year + 1) 1 = 0 := rfl
      rw [htwelve] at hlast
      simp only [Date.dayNumber, hnew, htwelve, hlast]
      omega

theorem dayNumber_epoch : epoch.dayNumber = 0 := rfl

theorem Date.exists_next (d : Date) : ∃ p : Date, p.next = d := by
  obtain ⟨year, month, day, hmonth, hday⟩ := d
  by_cases hfirst : 1 < day
  · refine ⟨⟨year, month, day - 1, hmonth, by omega⟩, ?_⟩
    unfold Date.next
    rw [dif_pos (by simp only; omega)]
    ext <;> simp only
    omega
  · by_cases hjanuary : 1 < month
    · have hprevious : 1 ≤ month - 1 ∧ month - 1 ≤ 12 := by omega
      refine ⟨⟨year, month - 1, daysInMonth year (month - 1), hprevious,
        daysInMonth_pos hprevious, Nat.le_refl _⟩, ?_⟩
      unfold Date.next
      rw [dif_neg (by simp only; omega), dif_pos (by simp only; omega)]
      ext <;> simp only <;> omega
    · refine ⟨⟨year - 1, 12, 31, by decide, by decide, Nat.le_refl 31⟩, ?_⟩
      unfold Date.next
      rw [dif_neg (by simp [daysInMonth]), dif_neg (by simp)]
      ext <;> simp only <;> omega

theorem Date.dayNumber_bounds (d : Date) :
    daysBeforeYear d.year ≤ d.dayNumber ∧ d.dayNumber < daysBeforeYear (d.year + 1) ∧
      daysBeforeMonth d.year d.month < d.dayNumber - daysBeforeYear d.year + 1 ∧
      d.dayNumber - daysBeforeYear d.year < daysBeforeMonth d.year (d.month + 1) := by
  have hday := d.day_valid
  have hmonth := d.month_valid
  have hmono : daysBeforeMonth d.year (d.month + 1) ≤ daysBeforeMonth d.year 13 :=
    daysBeforeMonth_mono (by omega)
  have hend := daysBeforeMonth_end d.year
  have hyear := daysBeforeYear_succ d.year
  rw [daysBeforeMonth] at hmono ⊢
  unfold Date.dayNumber
  omega

theorem Date.dayNumber_injective {d e : Date} (h : d.dayNumber = e.dayNumber) : d = e := by
  obtain ⟨hlow, hhigh, hafter, hbefore⟩ := d.dayNumber_bounds
  obtain ⟨hlow', hhigh', hafter', hbefore'⟩ := e.dayNumber_bounds
  have hyear : d.year = e.year := by
    rcases Int.lt_trichotomy d.year e.year with hlt | heq | hgt
    · have hmono : daysBeforeYear (d.year + 1) ≤ daysBeforeYear e.year := daysBeforeYear_mono hlt
      omega
    · exact heq
    · have hmono : daysBeforeYear (e.year + 1) ≤ daysBeforeYear d.year := daysBeforeYear_mono hgt
      omega
  rw [← hyear, ← h] at hafter' hbefore'
  have hmonth : d.month = e.month := by
    rcases Nat.lt_trichotomy d.month e.month with hlt | heq | hgt
    · have hmono : daysBeforeMonth d.year (d.month + 1) ≤ daysBeforeMonth d.year e.month :=
        daysBeforeMonth_mono hlt
      omega
    · exact heq
    · have hmono : daysBeforeMonth d.year (e.month + 1) ≤ daysBeforeMonth d.year d.month :=
        daysBeforeMonth_mono hgt
      omega
  have hday : d.day = e.day := by
    simp only [Date.dayNumber, ← hyear, ← hmonth] at h
    omega
  exact Date.ext hyear hmonth hday

theorem exists_daysFromEpoch (n : Int) : ∃ d, DaysFromEpoch n d := by
  induction n with
  | zero => exact ⟨epoch, .epoch⟩
  | succ n ih =>
    obtain ⟨d, hd⟩ := ih
    exact ⟨d.next, .next hd⟩
  | pred n ih =>
    obtain ⟨d, hd⟩ := ih
    obtain ⟨p, rfl⟩ := d.exists_next
    refine ⟨p, .previous ?_⟩
    rw [Int.sub_add_cancel]
    exact hd

theorem dayNumber_of_daysFromEpoch {n : Int} {d : Date} (h : DaysFromEpoch n d) :
    d.dayNumber = n := by
  induction h with
  | epoch => exact dayNumber_epoch
  | next _ ih => rw [Date.dayNumber_next, ih]
  | previous _ ih =>
    rw [Date.dayNumber_next] at ih
    omega

theorem daysFromEpoch_iff {n : Int} {d : Date} : DaysFromEpoch n d ↔ d.dayNumber = n := by
  constructor
  · exact dayNumber_of_daysFromEpoch
  · intro h
    obtain ⟨e, he⟩ := exists_daysFromEpoch n
    have heq : d.dayNumber = e.dayNumber := by rw [h, dayNumber_of_daysFromEpoch he]
    rw [Date.dayNumber_injective heq]
    exact he

end Airl.Calendar
