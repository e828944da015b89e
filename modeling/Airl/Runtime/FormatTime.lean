import Airl.Library.Calendar
import Airl.Runtime.RtValue

/-! # The date and the time of an instant

The builtin `format-time` of `misc.rs`. The count of days is cut towards zero, and so the time of
day of an instant before the epoch is not counted from the beginning of its day.
-/

namespace Airl.FormatTime

open Calendar

/-! ## Texts -/

/-- `{:0width}` of an `i64`. -/
def zeroPadded (width : Nat) (n : Int) : List Char :=
  let sign := if n < 0 then ['-'] else []
  let digits := Nat.toDigits 10 n.natAbs
  sign ++ List.replicate (width - sign.length - digits.length) '0' ++ digits

/-- `str::replace` of `%` and a letter behind it. -/
def replace (letter : Char) (new : List Char) : List Char → List Char
  | [] => []
  | [c] => [c]
  | a :: c :: s =>
    if a = '%' ∧ c = letter then new ++ replace letter new s else a :: replace letter new (c :: s)

/-! ## The builtin -/

/-- The fields as the code computes them. -/
structure Fields where
  year : Int
  month : Int
  day : Int
  hours : Int
  minutes : Int
  seconds : Int

/-- The year, the month and the day from a year that begins in March and a day of it. -/
def civilOfMarch (y doy : Int) : Int × Int × Int :=
  let mp := (5 * doy + 2).tdiv 153
  let d := doy - (153 * mp + 2).tdiv 5 + 1
  let m := if mp < 10 then mp + 3 else mp - 9
  let y := if m ≤ 2 then y + 1 else y
  (y, m, d)

/-- The civil date from the days since the epoch. No step leaves `i64`. -/
def civil (days : Int) : Int × Int × Int :=
  let z := days + 719468
  let era := (if 0 ≤ z then z else z - 146096).tdiv 146097
  let doe := z - era * 146097
  let yoe := (doe - doe.tdiv 1460 + doe.tdiv 36524 - doe.tdiv 146096).tdiv 365
  let y := yoe + era * 400
  let doy := doe - (365 * yoe + yoe.tdiv 4 - yoe.tdiv 100)
  civilOfMarch y doy

def fieldsOf (ms : Int64) : Fields :=
  let secs := ms.toInt.tdiv 1000
  let days := secs.tdiv 86400
  let timeOfDay := secs.tmod 86400
  let (y, m, d) := civil days
  { year := y
    month := m
    day := d
    hours := timeOfDay.tdiv 3600
    minutes := (timeOfDay.tmod 3600).tdiv 60
    seconds := timeOfDay.tmod 60 }

def airlFormatTime (msVal fmtVal : RtValue) : RtValue :=
  match msVal with
  | .int ms =>
    match fmtVal with
    | .str fmt =>
      let f := fieldsOf ms
      let result := replace 'Y' (zeroPadded 4 f.year) fmt.toList
      let result := replace 'm' (zeroPadded 2 f.month) result
      let result := replace 'd' (zeroPadded 2 f.day) result
      let result := replace 'H' (zeroPadded 2 f.hours) result
      let result := replace 'M' (zeroPadded 2 f.minutes) result
      let result := replace 'S' (zeroPadded 2 f.seconds) result
      .str (String.ofList result)
    | _ => .str ""
  | _ => .str ""

/-! ## What a format shows -/

/-- A time of day. -/
structure TimeOfDay where
  hour : Fin 24
  minute : Fin 60
  second : Fin 60

/-- The seconds since the beginning of the day. -/
def TimeOfDay.seconds (t : TimeOfDay) : Nat := t.hour * 3600 + t.minute * 60 + t.second

structure DateTime where
  date : Date
  time : TimeOfDay

/-- The date and the time of day of an instant, which lies `ms` milliseconds behind the epoch. -/
structure DateTime.IsAt (dt : DateTime) (ms : Int64) : Prop where
  date : DaysFromEpoch (ms.toInt / 86400000) dt.date
  time : dt.time.seconds = ms.toInt % 86400000 / 1000

def DateTime.fields (dt : DateTime) : Fields where
  year := dt.date.year
  month := dt.date.month
  day := dt.date.day
  hours := dt.time.hour
  minutes := dt.time.minute
  seconds := dt.time.second

/-- The text of a directive. -/
def Fields.text (f : Fields) (letter : Char) : Option (List Char) :=
  if letter = 'Y' then some (zeroPadded 4 f.year)
  else if letter = 'm' then some (zeroPadded 2 f.month)
  else if letter = 'd' then some (zeroPadded 2 f.day)
  else if letter = 'H' then some (zeroPadded 2 f.hours)
  else if letter = 'M' then some (zeroPadded 2 f.minutes)
  else if letter = 'S' then some (zeroPadded 2 f.seconds)
  else none

/-- A format with the text of each directive in its place. -/
def expand (text : Char → Option (List Char)) : List Char → List Char
  | [] => []
  | [c] => [c]
  | a :: c :: s =>
    if a = '%' then
      match text c with
      | some field => field ++ expand text s
      | none => a :: expand text (c :: s)
    else a :: expand text (c :: s)

/-- What `format` shows of a date and a time. -/
def DateTime.format (dt : DateTime) (fmt : String) : String :=
  String.ofList (expand dt.fields.text fmt.toList)

/-! ## One replacement after the other -/

/-- A text of digits, with a sign or without. -/
def Plain (field : List Char) : Prop := field ≠ [] ∧ ∀ c ∈ field, c = '-' ∨ c.isDigit = true

theorem plain_zeroPadded (width : Nat) (n : Int) : Plain (zeroPadded width n) := by
  unfold zeroPadded
  constructor
  · intro h
    have hdigits := (List.append_eq_nil_iff.mp h).2
    exact Nat.toDigits_ne_nil hdigits
  · intro c hc
    rw [List.append_assoc] at hc
    rcases List.mem_append.mp hc with hsign | hc
    · split at hsign
      · exact .inl (List.mem_singleton.mp hsign)
      · cases hsign
    · rcases List.mem_append.mp hc with hzero | hdigit
      · rw [List.eq_of_mem_replicate hzero]
        exact .inr rfl
      · exact .inr (Nat.isDigit_of_mem_toDigits (by decide) (by decide) hdigit)

variable {letter : Char} {new : List Char} {text : Char → Option (List Char)}

theorem Plain.ne_percent {field : List Char} (h : Plain field) : ∀ c ∈ field, c ≠ '%' := by
  intro c hc heq
  subst heq
  rcases h.2 '%' hc with hsign | hdigit
  · exact absurd hsign (by decide)
  · exact absurd hdigit (by decide)

theorem replace_cons {a : Char} (ha : a ≠ '%') (s : List Char) :
    replace letter new (a :: s) = a :: replace letter new s := by
  cases s with
  | nil => rfl
  | cons c s =>
    rw [replace, if_neg fun h => ha h.1]

theorem replace_append {field : List Char} (h : ∀ c ∈ field, c ≠ '%') (s : List Char) :
    replace letter new (field ++ s) = field ++ replace letter new s := by
  induction field with
  | nil => rfl
  | cons a field ih =>
    rw [List.cons_append, replace_cons (h a List.mem_cons_self),
      ih fun c hc => h c (List.mem_cons_of_mem a hc), List.cons_append]

theorem expand_cons {a : Char} (ha : a ≠ '%') (s : List Char) :
    expand text (a :: s) = a :: expand text s := by
  cases s with
  | nil => rfl
  | cons c s => rw [expand, if_neg ha]

theorem expand_head (hplain : ∀ c field, text c = some field → Plain field) (a : Char)
    (s : List Char) : ∃ b rest, expand text (a :: s) = b :: rest ∧
      (b = a ∨ b = '-' ∨ b.isDigit = true) := by
  cases s with
  | nil => exact ⟨a, [], rfl, .inl rfl⟩
  | cons c s =>
    rw [expand]
    split
    · split
      next field hfield =>
        obtain ⟨hne, hchars⟩ := hplain c field hfield
        obtain ⟨b, rest, rfl⟩ := List.exists_cons_of_ne_nil hne
        exact ⟨b, rest ++ expand text s, rfl, .inr (hchars b List.mem_cons_self)⟩
      next => exact ⟨a, _, rfl, .inl rfl⟩
    · exact ⟨a, _, rfl, .inl rfl⟩

theorem replace_expand (hplain : ∀ c field, text c = some field → Plain field)
    (hletter : letter ≠ '%' ∧ letter ≠ '-' ∧ letter.isDigit = false) (hnew : text letter = none)
    (s : List Char) :
    replace letter new (expand text s) = expand (Function.update text letter (some new)) s := by
  fun_induction expand text s with
  | case1 => rfl
  | case2 c => rfl
  | case3 c s field hfield ih =>
    have hne : c ≠ letter := by
      intro heq
      rw [heq, hnew] at hfield
      cases hfield
    rw [replace_append (hplain c field hfield).ne_percent, ih, expand, if_pos rfl,
      Function.update_of_ne hne, hfield]
  | case4 c s hfield ih =>
    by_cases hc : c = letter
    · subst hc
      rw [expand_cons hletter.1, replace_cons hletter.1, expand_cons hletter.1] at ih
      rw [expand_cons hletter.1, replace, if_pos ⟨rfl, rfl⟩, (List.cons.inj ih).2, expand,
        if_pos rfl, Function.update_self]
    · obtain ⟨b, rest, hb, hkind⟩ := expand_head hplain c s
      have hne : b ≠ letter := by
        rintro rfl
        rcases hkind with heq | heq | heq
        · exact hc heq.symm
        · exact hletter.2.1 heq
        · rw [hletter.2.2] at heq
          cases heq
      rw [hb] at ih
      rw [hb, replace, if_neg fun h => hne h.2, ih, expand, if_pos rfl,
        Function.update_of_ne hc, hfield]
  | case5 a c s hpercent ih =>
    rw [replace_cons hpercent, ih, expand_cons hpercent]

theorem expand_none (s : List Char) : expand (fun _ => none) s = s := by
  fun_induction expand (fun _ => none) s with
  | case1 => rfl
  | case2 c => rfl
  | case3 _ _ _ hfield => cases hfield
  | case4 _ _ _ ih => rw [ih]
  | case5 _ _ _ _ ih => rw [ih]

theorem plain_update (hplain : ∀ c field, text c = some field → Plain field)
    (hnew : Plain new) : ∀ c field, Function.update text letter (some new) c = some field →
      Plain field := by
  intro c field h
  rw [Function.update_apply] at h
  split at h
  · cases h
    exact hnew
  · exact hplain c field h

theorem foldl_replace (pairs : List (Char × List Char))
    (hplain : ∀ c field, text c = some field → Plain field)
    (hpairs : ∀ p ∈ pairs, (p.1 ≠ '%' ∧ p.1 ≠ '-' ∧ p.1.isDigit = false) ∧ Plain p.2 ∧
      text p.1 = none)
    (hdistinct : (pairs.map Prod.fst).Nodup) (s : List Char) :
    pairs.foldl (fun s p => replace p.1 p.2 s) (expand text s) =
      expand (pairs.foldl (fun text p => Function.update text p.1 (some p.2)) text) s := by
  induction pairs generalizing text with
  | nil => rfl
  | cons p pairs ih =>
    obtain ⟨hletter, hfield, hnew⟩ := hpairs p List.mem_cons_self
    rw [List.map_cons, List.nodup_cons] at hdistinct
    rw [List.foldl_cons, List.foldl_cons, replace_expand hplain hletter hnew]
    apply ih (plain_update hplain hfield) _ hdistinct.2
    intro q hq
    obtain ⟨hletter', hfield', hnew'⟩ := hpairs q (List.mem_cons_of_mem p hq)
    refine ⟨hletter', hfield', ?_⟩
    have hne : q.1 ≠ p.1 := by
      intro heq
      apply hdistinct.1
      rw [← heq]
      exact List.mem_map_of_mem hq
    rw [Function.update_of_ne hne, hnew']

/-- The directives in the order in which they are replaced. -/
def Fields.directives (f : Fields) : List (Char × List Char) :=
  [('Y', zeroPadded 4 f.year), ('m', zeroPadded 2 f.month), ('d', zeroPadded 2 f.day),
    ('H', zeroPadded 2 f.hours), ('M', zeroPadded 2 f.minutes), ('S', zeroPadded 2 f.seconds)]

theorem Fields.directives_text (f : Fields) :
    f.directives.foldl (fun (text : Char → Option (List Char)) p =>
      Function.update text p.1 (some p.2)) (fun _ => none) = f.text := by
  funext c
  simp only [Fields.directives, List.foldl_cons, List.foldl_nil, Function.update_apply]
  unfold Fields.text
  by_cases hY : c = 'Y'
  · subst hY
    rfl
  by_cases hm : c = 'm'
  · subst hm
    rfl
  by_cases hd : c = 'd'
  · subst hd
    rfl
  by_cases hH : c = 'H'
  · subst hH
    rfl
  by_cases hM : c = 'M'
  · subst hM
    rfl
  by_cases hS : c = 'S'
  · subst hS
    rfl
  simp only [hY, hm, hd, hH, hM, hS, if_false]

/-- The six replacements put each field in the place of its directive. -/
theorem airlFormatTime_eq (ms : Int64) (fmt : String) :
    airlFormatTime (.int ms) (.str fmt) =
      .str (String.ofList (expand (fieldsOf ms).text fmt.toList)) := by
  have hnone : ∀ (c : Char) (field : List Char), (fun _ => none) c = some field → Plain field := by
    intro c field h
    cases h
  have hletters : ∀ letter ∈ ['Y', 'm', 'd', 'H', 'M', 'S'],
      letter ≠ '%' ∧ letter ≠ '-' ∧ letter.isDigit = false := by
    intro letter hletter
    simp only [List.mem_cons, List.not_mem_nil, or_false] at hletter
    rcases hletter with rfl | rfl | rfl | rfl | rfl | rfl
    all_goals decide
  have hpairs : ∀ p ∈ (fieldsOf ms).directives, (p.1 ≠ '%' ∧ p.1 ≠ '-' ∧ p.1.isDigit = false) ∧
      Plain p.2 ∧ (none : Option (List Char)) = none := by
    intro p hp
    refine ⟨hletters p.1 (List.mem_map_of_mem hp), ?_, rfl⟩
    simp only [Fields.directives, List.mem_cons, List.not_mem_nil, or_false] at hp
    rcases hp with rfl | rfl | rfl | rfl | rfl | rfl
    all_goals exact plain_zeroPadded _ _
  have hdistinct : ['Y', 'm', 'd', 'H', 'M', 'S'].Nodup := by decide
  have hfold := foldl_replace (fieldsOf ms).directives hnone hpairs hdistinct fmt.toList
  rw [expand_none, Fields.directives_text] at hfold
  rw [← hfold]
  rfl

/-! ## The date -/

/-- The days between the epoch and the first of March of a year. -/
def marchNumber (year : Int) : Int := 365 * year + year / 4 - year / 100 + year / 400 - 719468

theorem daysBeforeMarch (year : Int) :
    (daysBeforeMonth year 3 : Int) = marchNumber year - daysBeforeYear year := by
  have hmonths : daysBeforeMonth year 3 = if IsLeap year then 60 else 59 := by
    simp only [daysBeforeMonth, daysInMonth]
    split <;> rfl
  rw [hmonths]
  unfold marchNumber daysBeforeYear
  by_cases h : IsLeap year
  · rw [if_pos h]
    unfold IsLeap at h
    omega
  · rw [if_neg h]
    unfold IsLeap at h
    omega

theorem month_of_march (year : Int) {month : Nat} (h : month ≤ 9) :
    daysBeforeMonth year (month + 3) = daysBeforeMonth year 3 + (153 * month + 2) / 5 ∧
      daysInMonth year (month + 3) + (153 * month + 2) / 5 = (153 * (month + 1) + 2) / 5 := by
  interval_cases month
  all_goals exact ⟨rfl, rfl⟩

theorem civilOfMarch_spec {year doy : Int} (hlow : 0 ≤ doy)
    (hhigh : doy ≤ 364 ∨ doy = 365 ∧ IsLeap (year + 1)) :
    ∃ d : Date, d.dayNumber = marchNumber year + doy ∧
      civilOfMarch year doy = (d.year, (d.month : Int), (d.day : Int)) := by
  have hmarch := daysBeforeMarch year
  have hmp : (5 * doy + 2).tdiv 153 = (5 * doy + 2) / 153 := Int.tdiv_eq_ediv_of_nonneg (by omega)
  obtain ⟨month, hmonth⟩ : ∃ month : Nat, (5 * doy + 2) / 153 = month :=
    Int.eq_ofNat_of_zero_le (by omega)
  have hd : (153 * (month : Int) + 2).tdiv 5 = (153 * month + 2) / 5 :=
    Int.tdiv_eq_ediv_of_nonneg (by omega)
  unfold civilOfMarch
  rw [hmp, hmonth]
  simp only [hd]
  by_cases hlate : month ≤ 9
  · obtain ⟨hbefore, hlength⟩ := month_of_march year hlate
    obtain ⟨day, hday⟩ : ∃ day : Nat, doy - (153 * month + 2) / 5 = day :=
      Int.eq_ofNat_of_zero_le (by omega)
    have hstart : (((153 * month + 2) / 5 : Nat) : Int) = (153 * (month : Int) + 2) / 5 := by omega
    have hvalid : day + 1 ≤ daysInMonth year (month + 3) := by omega
    have hm : (if (month : Int) < 10 then (month : Int) + 3 else month - 9) = month + 3 :=
      if_pos (by omega)
    refine ⟨⟨year, month + 3, day + 1, by omega, by omega, hvalid⟩, ?_, ?_⟩
    · simp only [Date.dayNumber]
      omega
    · rw [hm, if_neg (by omega), hday]
      rfl
  · -- January and February belong to the next year
    have hyear := daysBeforeYear_succ year
    have hend := daysBeforeMonth_end year
    have hten : daysBeforeMonth year 13 = daysBeforeMonth year 3 + 306 := rfl
    have hjanuary : daysBeforeMonth (year + 1) 1 = 0 := rfl
    have hfebruary : daysBeforeMonth (year + 1) 2 = 31 := rfl
    by_cases hmonth' : month = 10
    · subst hmonth'
      have hlength : daysInMonth (year + 1) 1 = 31 := rfl
      obtain ⟨day, hday⟩ : ∃ day : Nat, doy - (153 * (10 : Nat) + 2) / 5 = day :=
        Int.eq_ofNat_of_zero_le (by omega)
      refine ⟨⟨year + 1, 1, day + 1, by omega, by omega⟩, ?_, ?_⟩
      · simp only [Date.dayNumber]
        omega
      · have hm :
            (if ((10 : Nat) : Int) < 10 then ((10 : Nat) : Int) + 3 else (10 : Nat) - 9) = 1 := rfl
        rw [hm, if_pos (by omega), hday]
        rfl
    · have heleven : month = 11 := by omega
      subst heleven
      have hlength : daysInMonth (year + 1) 2 = if IsLeap (year + 1) then 29 else 28 := rfl
      obtain ⟨day, hday⟩ : ∃ day : Nat, doy - (153 * (11 : Nat) + 2) / 5 = day :=
        Int.eq_ofNat_of_zero_le (by omega)
      have hvalid : day + 1 ≤ daysInMonth (year + 1) 2 := by
        rw [hlength]
        rcases hhigh with hhigh | ⟨rfl, hleap⟩
        · split <;> omega
        · rw [if_pos hleap]
          omega
      refine ⟨⟨year + 1, 2, day + 1, by omega, by omega, hvalid⟩, ?_, ?_⟩
      · simp only [Date.dayNumber]
        omega
      · have hm :
            (if ((11 : Nat) : Int) < 10 then ((11 : Nat) : Int) + 3 else (11 : Nat) - 9) = 2 := rfl
        rw [hm, if_pos (by omega), hday]
        rfl

/-- Where a day lies in its era of four hundred years: in a century, a group of four years, a year.
The last day of a group, and of the era, is one of a longer year. -/
structure DayOfEra (doe century group year day : Int) : Prop where
  century_valid : 0 ≤ century ∧ century ≤ 3
  group_valid : 0 ≤ group ∧ group ≤ 24
  year_valid : 0 ≤ year ∧ year ≤ 3
  day_valid : 0 ≤ day ∧ day ≤ 365
  longer : day = 365 → year = 3 ∧ (group = 24 → century = 3)
  split : doe = 36524 * century + 1461 * group + 365 * year + day

theorem exists_dayOfEra {doe : Int} (hlow : 0 ≤ doe) (hhigh : doe ≤ 146096) :
    ∃ century group year day, DayOfEra doe century group year day := by
  obtain ⟨q, r, hq, hr, hlast, hsplit⟩ : ∃ q r : Int, (0 ≤ q ∧ q ≤ 3) ∧ (0 ≤ r ∧ r ≤ 36524) ∧
      (r = 36524 → q = 3) ∧ doe = 36524 * q + r := by
    by_cases h : doe = 146096
    · exact ⟨3, 36524, by omega⟩
    · exact ⟨doe / 36524, doe % 36524, by omega⟩
  by_cases h : r % 1461 = 1460
  · exact ⟨q, r / 1461, 3, 365, hq, by omega, by omega, by omega, by omega, by omega⟩
  · exact ⟨q, r / 1461, r % 1461 / 365, r % 1461 % 365, hq, by omega, by omega, by omega, by omega,
      by omega⟩

variable {doe q k u v : Int}

theorem DayOfEra.yoe (h : DayOfEra doe q k u v) :
    (doe - doe / 1460 + doe / 36524 - doe / 146096) / 365 = 100 * q + 4 * k + u := by
  obtain ⟨hq, hk, hu, hv, hlonger, hsplit⟩ := h
  have hgroups : 25 * q + k ≤ doe / 1460 ∧ doe / 1460 ≤ 25 * q + k + 1 := by omega
  have hfirst : v = 0 → doe / 1460 = 25 * q + k := by omega
  have hlast : v = 365 → doe / 1460 = 25 * q + k + 1 := by omega
  have hcenturies : doe / 36524 - doe / 146096 = q := by
    by_cases hend : doe = 146096
    · omega
    · have hrest : 1461 * k + 365 * u + v ≤ 36523 := by omega
      omega
  omega

theorem DayOfEra.doy (h : DayOfEra doe q k u v) :
    doe - (365 * (100 * q + 4 * k + u) + (100 * q + 4 * k + u) / 4 -
      (100 * q + 4 * k + u) / 100) = v := by
  obtain ⟨hq, hk, hu, -, -, hsplit⟩ := h
  have hfour : (100 * q + 4 * k + u) / 4 = 25 * q + k := by omega
  have hcentury : (100 * q + 4 * k + u) / 100 = q := by omega
  omega

theorem DayOfEra.leap (h : DayOfEra doe q k u v) (era : Int) :
    v ≤ 364 ∨ v = 365 ∧ IsLeap (100 * q + 4 * k + u + era * 400 + 1) := by
  obtain ⟨-, hk, -, hv, hlonger, -⟩ := h
  by_cases hlast : v = 365
  · obtain ⟨rfl, hcentury⟩ := hlonger hlast
    refine .inr ⟨hlast, by omega, ?_⟩
    by_cases hgroup : k = 24
    · have hq := hcentury hgroup
      exact .inr (by omega)
    · exact .inl (by omega)
  · exact .inl (by omega)

theorem DayOfEra.marchNumber_eq (h : DayOfEra doe q k u v) (era : Int) :
    marchNumber (100 * q + 4 * k + u + era * 400) + v = doe + era * 146097 - 719468 := by
  obtain ⟨hq, hk, hu, -, -, hsplit⟩ := h
  have hfour : (100 * q + 4 * k + u + era * 400) / 4 = 25 * q + k + era * 100 := by omega
  have hcentury : (100 * q + 4 * k + u + era * 400) / 100 = q + era * 4 := by omega
  have hera : (100 * q + 4 * k + u + era * 400) / 400 = era := by omega
  unfold marchNumber
  omega

theorem DayOfEra.tdiv (h : DayOfEra doe q k u v) :
    (doe - doe.tdiv 1460 + doe.tdiv 36524 - doe.tdiv 146096).tdiv 365 = 100 * q + 4 * k + u ∧
      (100 * q + 4 * k + u).tdiv 4 = (100 * q + 4 * k + u) / 4 ∧
      (100 * q + 4 * k + u).tdiv 100 = (100 * q + 4 * k + u) / 100 := by
  have hdoe : 0 ≤ doe := by
    have hv := h.day_valid
    have hq := h.century_valid
    have hk := h.group_valid
    have hu := h.year_valid
    have hsplit := h.split
    omega
  have hdays : 0 ≤ doe - doe / 1460 + doe / 36524 - doe / 146096 := by omega
  have hyear : 0 ≤ 100 * q + 4 * k + u := by
    have hq := h.century_valid
    have hk := h.group_valid
    have hu := h.year_valid
    omega
  have hyoe := h.yoe
  rw [Int.tdiv_eq_ediv_of_nonneg hdoe, Int.tdiv_eq_ediv_of_nonneg hdoe,
    Int.tdiv_eq_ediv_of_nonneg hdoe, Int.tdiv_eq_ediv_of_nonneg hdays]
  exact ⟨hyoe, Int.tdiv_eq_ediv_of_nonneg hyear, Int.tdiv_eq_ediv_of_nonneg hyear⟩

theorem era_eq (z : Int) : (if 0 ≤ z then z else z - 146096).tdiv 146097 = z / 146097 := by
  split
  next h => exact Int.tdiv_eq_ediv_of_nonneg h
  next h =>
    have hsign : Int.sign 146097 = 1 := rfl
    rw [Int.tdiv_eq_ediv]
    split <;> omega

theorem civil_spec (days : Int) : ∃ d : Date, d.dayNumber = days ∧
    civil days = (d.year, (d.month : Int), (d.day : Int)) := by
  unfold civil
  simp only [era_eq]
  obtain ⟨era, hera⟩ : ∃ era, (days + 719468) / 146097 = era := ⟨_, rfl⟩
  obtain ⟨doe, hdoe⟩ : ∃ doe, days + 719468 - era * 146097 = doe := ⟨_, rfl⟩
  rw [hera, hdoe]
  obtain ⟨q, k, u, v, h⟩ := @exists_dayOfEra doe (by omega) (by omega)
  obtain ⟨hyoe, hfour, hcentury⟩ := h.tdiv
  obtain ⟨d, hd, hcivil⟩ := civilOfMarch_spec h.day_valid.1 (h.leap era)
  rw [hyoe, hfour, hcentury, h.doy]
  refine ⟨d, ?_, hcivil⟩
  rw [hd, h.marchNumber_eq]
  omega

/-! ## The time of day -/

theorem day_of_instant {n : Int} (h : 0 ≤ n ∨ n % 86400000 = 0) :
    (n.tdiv 1000).tdiv 86400 = n / 86400000 ∧
      (n.tdiv 1000).tmod 86400 = n % 86400000 / 1000 := by
  rcases h with h | h
  · have hsecs : n.tdiv 1000 = n / 1000 := Int.tdiv_eq_ediv_of_nonneg h
    have hnonneg : 0 ≤ n / 1000 := by omega
    rw [hsecs, Int.tdiv_eq_ediv_of_nonneg hnonneg, Int.tmod_eq_emod_of_nonneg hnonneg]
    omega
  · obtain ⟨day, rfl⟩ : ∃ day, n = 86400 * day * 1000 := ⟨n / 86400000, by omega⟩
    rw [Int.mul_tdiv_cancel _ (by decide), Int.mul_tdiv_cancel_left _ (by decide),
      Int.mul_tmod_right]
    omega

theorem day_before_epoch {n : Int} (h : n < 0) :
    (n.tdiv 1000).tmod 86400 ≤ 0 ∧
      ((n.tdiv 1000).tmod 86400 = 0 → n % 86400000 / 1000 = 0 → n % 86400000 = 0) := by
  have hsecs : n.tdiv 1000 = -(-n / 1000) := by
    rw [← Int.tdiv_eq_ediv_of_nonneg (by omega), Int.neg_tdiv, Int.neg_neg]
  have hrest : (-(-n / 1000)).tmod 86400 = -(-n / 1000 % 86400) := by
    rw [Int.neg_tmod, Int.tmod_eq_emod_of_nonneg (by omega)]
  rw [hsecs, hrest]
  omega

theorem fields_of_rest {t : Int} (h : t ≤ 0) :
    t.tdiv 3600 = -(-t / 3600) ∧ (t.tmod 3600).tdiv 60 = -(-t % 3600 / 60) ∧
      t.tmod 60 = -(-t % 60) := by
  obtain ⟨r, rfl⟩ : ∃ r : Nat, t = -(r : Int) := ⟨(-t).toNat, by omega⟩
  rw [Int.neg_tdiv, Int.neg_tmod, Int.neg_tmod, Int.neg_tdiv, Int.neg_neg,
    Int.tdiv_eq_ediv_of_nonneg (by omega), Int.tmod_eq_emod_of_nonneg (by omega),
    Int.tmod_eq_emod_of_nonneg (by omega), Int.tdiv_eq_ediv_of_nonneg (by omega)]
  exact ⟨rfl, rfl, rfl⟩

theorem exists_timeOfDay {t : Nat} (h : t < 86400) : ∃ time : TimeOfDay, time.seconds = t ∧
    time.hour.val = t / 3600 ∧ time.minute.val = t % 3600 / 60 ∧ time.second.val = t % 60 := by
  refine ⟨⟨⟨t / 3600, by omega⟩, ⟨t % 3600 / 60, by omega⟩, ⟨t % 60, by omega⟩⟩, ?_, rfl, rfl, rfl⟩
  simp only [TimeOfDay.seconds]
  omega

theorem of_zeroPadded_two {a : Int} {b : Nat} (hb : b < 60)
    (h : zeroPadded 2 a = zeroPadded 2 b) : 0 ≤ a ∧ (a = 0 → b = 0) := by
  constructor
  · by_contra hnegative
    have hmem : '-' ∈ zeroPadded 2 a := by
      simp only [zeroPadded, if_pos (Int.not_le.mp hnegative)]
      exact List.mem_append_left _ (List.mem_append_left _ (List.mem_singleton.mpr rfl))
    rw [h] at hmem
    have hnonneg : ¬ (b : Int) < 0 := by omega
    simp only [zeroPadded, if_neg hnonneg, List.nil_append] at hmem
    rcases List.mem_append.mp hmem with hzero | hdigit
    · exact absurd (List.eq_of_mem_replicate hzero) (by decide)
    · exact absurd (Nat.isDigit_of_mem_toDigits (by decide) (by decide) hdigit) (by decide)
  · rintro rfl
    have hall : ∀ b : Fin 60, zeroPadded 2 (0 : Int) = zeroPadded 2 (b.val : Int) → b.val = 0 := by
      decide
    exact hall ⟨b, hb⟩ h

theorem expand_directive {c : Char} {field : List Char} (h : text c = some field) :
    expand text ['%', c] = field := by
  rw [expand, if_pos rfl, h]
  exact List.append_nil field

/-- `format-time` shows an instant with its date and its time of day. -/
def Shows (ms : Int64) : Prop :=
  ∃ dt : DateTime, dt.IsAt ms ∧
    ∀ fmt, airlFormatTime (.int ms) (.str fmt) = .str (dt.format fmt)

theorem shows_of {ms : Int64} (h : 0 ≤ ms.toInt ∨ ms.toInt % 86400000 = 0) : Shows ms := by
  obtain ⟨hdays, htime⟩ := day_of_instant h
  obtain ⟨date, hdate, hcivil⟩ := civil_spec (ms.toInt / 86400000)
  obtain ⟨t, ht⟩ : ∃ t : Nat, ms.toInt % 86400000 / 1000 = t := Int.eq_ofNat_of_zero_le (by omega)
  obtain ⟨time, hseconds, hhour, hminute, hsecond⟩ := @exists_timeOfDay t (by omega)
  have hfields : fieldsOf ms = DateTime.fields ⟨date, time⟩ := by
    unfold fieldsOf
    simp only [hdays, htime, hcivil, ht, DateTime.fields, hhour, hminute, hsecond]
    rfl
  refine ⟨⟨date, time⟩, ⟨daysFromEpoch_iff.mpr hdate, ?_⟩, ?_⟩
  · rw [ht, hseconds]
  · intro fmt
    rw [airlFormatTime_eq, hfields]
    rfl

theorem of_shows {ms : Int64} (h : Shows ms) : 0 ≤ ms.toInt ∨ ms.toInt % 86400000 = 0 := by
  obtain ⟨dt, hat, hformat⟩ := h
  by_contra hnot
  rw [not_or] at hnot
  obtain ⟨hbefore, hday⟩ := hnot
  -- the fields of the time, shown one by one
  have hshown (c : Char) (a b : Int) (ha : (fieldsOf ms).text c = some (zeroPadded 2 a))
      (hb : dt.fields.text c = some (zeroPadded 2 b)) : zeroPadded 2 a = zeroPadded 2 b := by
    have hc := hformat (String.ofList ['%', c])
    rw [airlFormatTime_eq, DateTime.format, String.toList_ofList, expand_directive ha,
      expand_directive hb] at hc
    exact String.ofList_injective (RtValue.str.inj hc)
  have hhour := of_zeroPadded_two (by omega)
    (hshown 'H' (fieldsOf ms).hours dt.time.hour rfl rfl)
  have hminute := of_zeroPadded_two dt.time.minute.isLt
    (hshown 'M' (fieldsOf ms).minutes dt.time.minute rfl rfl)
  have hsecond := of_zeroPadded_two dt.time.second.isLt
    (hshown 'S' (fieldsOf ms).seconds dt.time.second rfl rfl)
  obtain ⟨hrest, hexact⟩ := day_before_epoch (Int.not_le.mp hbefore)
  have htime := hat.time
  obtain ⟨hhours, hminutes, hseconds⟩ := fields_of_rest hrest
  simp only [fieldsOf, hhours] at hhour
  simp only [fieldsOf, hminutes] at hminute
  simp only [fieldsOf, hseconds] at hsecond
  simp only [TimeOfDay.seconds] at htime
  -- none of them is below zero, and so all are zero
  have hzero : (ms.toInt.tdiv 1000).tmod 86400 = 0 := by omega
  rw [hzero] at hhour hminute hsecond
  have hh : dt.time.hour.val = 0 := hhour.2 rfl
  have hm : dt.time.minute.val = 0 := hminute.2 rfl
  have hs : dt.time.second.val = 0 := hsecond.2 rfl
  rw [hh, hm, hs] at htime
  exact hday (hexact hzero htime.symm)

/-- The instants that are shown with their date and time of day: the epoch and what comes after it,
and before it the beginnings of days. -/
theorem formatTime_exact (ms : Int64) :
    Shows ms ↔ 0 ≤ ms.toInt ∨ ms.toInt % 86400000 = 0 := ⟨of_shows, shows_of⟩

/-- A second before the epoch is shown as the epoch, less a second. -/
theorem formatTime_before_epoch :
    airlFormatTime (.int (-1000)) (.str "%Y-%m-%d %H:%M:%S") = .str "1970-01-01 00:00:-1" ∧
      ¬ Shows (-1000) := by
  constructor
  · rfl
  · intro h
    rcases of_shows h with hnonneg | hday
    · exact absurd hnonneg (by decide)
    · exact absurd hday (by decide)

end Airl.FormatTime
