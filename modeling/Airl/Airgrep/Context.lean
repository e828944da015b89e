import Airl.Stdlib.MapsLaw

/-! # Context lines of `airgrep`

`search.airl` widens the positions of the matches to ranges of lines and merges what overlaps or
touches; `format.airl` prints the ranges one line after the other.
-/

namespace Airl.Airgrep

open Stdlib (Run Engine HashMap listAt mapGetOr)

/-- The list `[start end]`. -/
structure Range where
  start : Int64
  stop : Int64
  deriving Repr, DecidableEq

def expandContextRec (before after totalLines : Int64) : List Int64 → List Range → List Range
  | [], acc => acc.reverse
  | idx :: rest, acc =>
    let start := if idx - before < 0 then 0 else idx - before
    let stop := if idx + after > totalLines - 1 then totalLines - 1 else idx + after
    expandContextRec before after totalLines rest (⟨start, stop⟩ :: acc)

def mergeRangesRec : List Range → Range → List Range → List Range
  | [], current, acc => (current :: acc).reverse
  | next :: rest, current, acc =>
    if next.start ≤ current.stop + 1 then
      mergeRangesRec rest
        ⟨current.start, if next.stop > current.stop then next.stop else current.stop⟩ acc
    else mergeRangesRec rest next (current :: acc)

def addContext (matchIndices : List Int64) (before after totalLines : Int64) : List Range :=
  if matchIndices = [] then []
  else match expandContextRec before after totalLines matchIndices [] with
    | [] => []
    | first :: rest => mergeRangesRec rest first []

def isMatchLine (idx : Int64) (matchSet : HashMap) : Run RtValue :=
  mapGetOr .uncounted matchSet (.str (toString idx)) (.bool false)

/-- What the builtins on regular expressions answer. -/
structure Regexes where
  findAll : String → String → List String
  replace : String → String → String → String

/-- What the printing functions hand on unchanged. -/
structure Output where
  allLines : List String
  matchSet : HashMap
  filePath : String
  regex : String
  useColor : Bool
  multiFile : Bool

def esc : String := String.ofList [Char.ofNat 27]

def ansi (code text : String) : String := esc ++ "[" ++ code ++ "m" ++ text ++ esc ++ "[0m"

/-- `color-filename`, `color-match` and `color-sep`, which differ in the code. -/
def colored (code text : String) (useColor : Bool) : String :=
  if useColor then ansi code text else text

def colorFilename : String → Bool → String := colored "35"

def colorLinenum (num : Int64) : Bool → String := colored "32" (toString num)

def colorMatch : String → Bool → String := colored "1;31"

def colorSep : String → Bool → String := colored "36"

def escapeRegexChar (c : Char) : List Char :=
  if c ∈ ['\\', '.', '^', '$', '|', '(', ')', '+', '\x7b', '\x7d', '[', ']'] then ['\\', c] else [c]

def escapeRegex (s : String) : String := String.ofList (s.toList.flatMap escapeRegexChar)

section Printing

variable (engine : Engine) (R : Regexes) (O : Output)

def highlightMatches (line : String) : String :=
  if O.useColor then
    (R.findAll O.regex line).foldl
      (fun acc m => R.replace (escapeRegex m) acc (colorMatch m true)) line
  else line

def formatMatchLine (linenum : Int64) (line : String) (isMatch : Bool) : String :=
  let coloredSep := colorSep (if isMatch then ":" else "-") O.useColor
  let highlighted := if isMatch then highlightMatches R O line else line
  if O.multiFile then
    colorFilename O.filePath O.useColor ++ coloredSep ++ colorLinenum linenum O.useColor
      ++ coloredSep ++ highlighted
  else colorLinenum linenum O.useColor ++ coloredSep ++ highlighted

/-- How many lines there are from a position on; none from a negative one. -/
def linesFrom (cur : Int64) : Nat :=
  if cur.toInt < 0 then 0 else O.allLines.length + 1 - cur.toInt.toNat

theorem linesFrom_lt {O : Output} {cur : Int64} {line : String} (hneg : ¬ cur < 0)
    (hline : O.allLines[cur.toInt.toNat]? = some line) :
    linesFrom O (cur + 1) < linesFrom O cur := by
  have hcur : ¬ cur.toInt < 0 := by rwa [Int64.lt_iff_toInt_lt] at hneg
  have hlen := (List.getElem?_eq_some_iff.mp hline).1
  rw [linesFrom, linesFrom, if_neg hcur]
  split
  · omega
  · next hnext =>
    have hsucc : (cur + 1).toInt = cur.toInt + 1 := by
      have hlt := cur.toInt_lt
      rw [Int64.toInt_add] at hnext ⊢
      rw [show Int64.toInt 1 = 1 from rfl, Int.bmod_def] at hnext ⊢
      split at hnext
      · omega
      · omega
    omega

/-- The texts that are printed. -/
def printContextGroupRec (stop cur : Int64) : Run (List String) :=
  if cur > stop then return []
  else if cur < 0 then .error .exit
  else match hline : O.allLines[cur.toInt.toNat]? with
    | none => .error .exit
    | some line => do
      let isMatch ← isMatchLine cur O.matchSet
      let text := formatMatchLine R O (cur + 1) line (engine.truthy isMatch) ++ "\n"
      return text :: (← printContextGroupRec stop (cur + 1))
termination_by linesFrom O cur
decreasing_by exact linesFrom_lt (by assumption) hline

def formatContextSeparator : String := if O.useColor then ansi "36" "--" else "--"

def printGroupsRec : List Range → Nat → Run (List String)
  | [], _ => return []
  | group :: rest, groupIdx => do
    let separator := if groupIdx > 0 then [formatContextSeparator O ++ "\n"] else []
    let printed ← printContextGroupRec engine R O group.stop group.start
    return separator ++ printed ++ (← printGroupsRec rest (groupIdx + 1))

end Printing

namespace Range

def lo (r : Range) : Int := r.start.toInt

def hi (r : Range) : Int := r.stop.toInt

/-- The range has a line, and all its lines are those of the file. -/
def Inside (totalLines : Int64) (r : Range) : Prop :=
  0 ≤ r.lo ∧ r.lo ≤ r.hi ∧ r.hi < totalLines.toInt

/-- There is a line between the two. -/
def Apart (r s : Range) : Prop := r.hi + 1 < s.lo

end Range

def Covers (ranges : List Range) (i : Int) : Prop := ∃ r ∈ ranges, r.lo ≤ i ∧ i ≤ r.hi

@[simp] theorem covers_cons {r : Range} {rs : List Range} {i : Int} :
    Covers (r :: rs) i ↔ (r.lo ≤ i ∧ i ≤ r.hi) ∨ Covers rs i := by
  simp [Covers]

/-- Two lists of ranges cover what either covers. -/
theorem covers_append {rs ss : List Range} {i : Int} :
    Covers (rs ++ ss) i ↔ Covers rs i ∨ Covers ss i := by
  simp only [Covers, List.mem_append, or_and_right, exists_or]

theorem covers_reverse {rs : List Range} {i : Int} : Covers rs.reverse i ↔ Covers rs i := by
  simp only [Covers, List.mem_reverse]

section Merging

variable {totalLines : Int64}

theorem toInt_add_of_fits {x y : Int64} (hlo : -9223372036854775808 ≤ x.toInt + y.toInt)
    (hhi : x.toInt + y.toInt < 9223372036854775808) : (x + y).toInt = x.toInt + y.toInt := by
  rw [Int64.toInt_add]
  exact Int.bmod_eq_of_le hlo hhi

theorem toInt_sub_of_fits {x y : Int64} (hlo : -9223372036854775808 ≤ x.toInt - y.toInt)
    (hhi : x.toInt - y.toInt < 9223372036854775808) : (x - y).toInt = x.toInt - y.toInt := by
  rw [Int64.toInt_sub]
  exact Int.bmod_eq_of_le hlo hhi

theorem toInt_succ {x : Int64} (h : x.toInt < totalLines.toInt) : (x + 1).toInt = x.toInt + 1 := by
  have hlt := totalLines.toInt_lt
  have hle := x.le_toInt
  have hone : Int64.toInt 1 = 1 := rfl
  rw [toInt_add_of_fits (by omega) (by omega), hone]

/-- The ranges of the result: `current` is merged with those that start on its lines or right behind
them. -/
structure Merged (totalLines : Int64) (ranges out : List Range) : Prop where
  inside : ∀ r ∈ out, r.Inside totalLines
  apart : out.Pairwise Range.Apart
  union : ∀ i, Covers out i ↔ Covers ranges i

/-- Merging depends on the lines covered alone. -/
theorem Merged.congr {ranges ranges' out : List Range} (h : Merged totalLines ranges' out)
    (hunion : ∀ i, Covers ranges' i ↔ Covers ranges i) : Merged totalLines ranges out :=
  ⟨h.inside, h.apart, fun i => (h.union i).trans (hunion i)⟩

/-- A range behind all the merged ones keeps them apart. -/
theorem apart_reverse_cons {current : Range} {acc : List Range}
    (hacc : acc.reverse.Pairwise Range.Apart) (hbefore : ∀ r ∈ acc, r.Apart current) :
    (current :: acc).reverse.Pairwise Range.Apart := by
  rw [List.reverse_cons, List.pairwise_append]
  refine ⟨hacc, List.pairwise_singleton _ _, ?_⟩
  intro r hr s hs
  rw [List.mem_singleton.mp hs]
  exact hbefore r (List.mem_reverse.mp hr)

/-- Merging sorted ranges covers the same lines with ranges that are apart. -/
theorem mergeRangesRec_merged {rs : List Range} {current : Range} {acc : List Range}
    (hinside : ∀ r ∈ current :: rs ++ acc, r.Inside totalLines)
    (hsorted : (current :: rs).Pairwise fun r s => r.lo ≤ s.lo)
    (hacc : acc.reverse.Pairwise Range.Apart) (hbefore : ∀ r ∈ acc, r.Apart current) :
    Merged totalLines (current :: rs ++ acc) (mergeRangesRec rs current acc) := by
  induction rs generalizing current acc with
  | nil =>
    rw [mergeRangesRec]
    exact ⟨fun r hr => hinside r (List.mem_reverse.mp hr), apart_reverse_cons hacc hbefore,
      fun i => covers_reverse⟩
  | cons next rest ih =>
    have hcurrent := hinside current List.mem_cons_self
    have hnext := hinside next (List.mem_cons_of_mem _ List.mem_cons_self)
    rw [List.pairwise_cons] at hsorted
    obtain ⟨hfirst, hrest⟩ := hsorted
    have hle := hfirst next List.mem_cons_self
    have htouch : next.start ≤ current.stop + 1 ↔ next.lo ≤ current.hi + 1 := by
      rw [Int64.le_iff_toInt_le, toInt_succ hcurrent.2.2]
      rfl
    rw [mergeRangesRec]
    split
    -- The ranges touch: the joined one covers what they did.
    · next hjoin =>
      rw [htouch] at hjoin
      generalize hjoined : Range.mk current.start
        (if next.stop > current.stop then next.stop else current.stop) = joined
      have hlo : joined.lo = current.lo := by rw [← hjoined]; rfl
      have hhi : joined.hi = max current.hi next.hi := by
        rw [← hjoined, Range.hi]
        dsimp only
        split
        · next hgt => exact (max_eq_right (Int.le_of_lt (Int64.lt_iff_toInt_lt.mp hgt))).symm
        · next hgt =>
          exact (max_eq_left (Int.not_lt.mp (mt Int64.lt_iff_toInt_lt.mpr hgt))).symm
      have hmerged := @ih joined acc ?_ ?_ hacc ?_
      · apply hmerged.congr
        intro i
        simp only [List.cons_append, covers_cons, hlo, hhi]
        unfold Range.Inside at hcurrent hnext
        constructor
        · rintro (hi | hi)
          · omega
          · exact Or.inr (Or.inr hi)
        · rintro (hi | hi | hi)
          · omega
          · omega
          · exact Or.inr hi
      · intro r hr
        rw [List.cons_append, List.mem_cons] at hr
        rcases hr with rfl | hr
        · unfold Range.Inside at hcurrent hnext ⊢
          omega
        · exact hinside r (List.mem_cons_of_mem _ (List.mem_cons_of_mem _ hr))
      · rw [List.pairwise_cons] at hrest ⊢
        refine ⟨fun r hr => ?_, hrest.2⟩
        rw [hlo]
        exact hfirst r (List.mem_cons_of_mem _ hr)
      · intro r hr
        rw [Range.Apart, hlo]
        exact hbefore r hr
    -- They do not: the current one is done, and apart from all that follow.
    · next hgap =>
      rw [htouch, Int.not_le] at hgap
      have hmerged := @ih next (current :: acc) ?_ hrest (apart_reverse_cons hacc hbefore) ?_
      · apply hmerged.congr
        intro i
        simp only [List.cons_append, covers_cons, covers_append]
        tauto
      · intro r hr
        apply hinside r
        simp only [List.cons_append, List.mem_cons, List.mem_append] at hr ⊢
        tauto
      · intro r hr
        rcases List.mem_cons.mp hr with rfl | hr
        · exact hgap
        · exact Int.lt_of_lt_of_le (hbefore r hr) hle

/-- The range around one match. -/
def widen (before after totalLines idx : Int64) : Range :=
  ⟨if idx - before < 0 then 0 else idx - before,
    if idx + after > totalLines - 1 then totalLines - 1 else idx + after⟩

/-- The expansion widens every match, in order. -/
theorem expandContextRec_eq (before after totalLines : Int64) (idxs : List Int64)
    (acc : List Range) : expandContextRec before after totalLines idxs acc =
      acc.reverse ++ idxs.map (widen before after totalLines) := by
  induction idxs generalizing acc with
  | nil => exact (List.append_nil _).symm
  | cons idx rest ih =>
    rw [expandContextRec, ih, List.reverse_cons, List.append_assoc]
    rfl

/-- What a search hands over: the matches in order, and sums that fit. -/
structure Searched (matchIndices : List Int64) (before after totalLines : Int64) : Prop where
  increasing : matchIndices.Pairwise (· < ·)
  inside : ∀ m ∈ matchIndices, 0 ≤ m ∧ m < totalLines
  before_nonneg : 0 ≤ before
  after_nonneg : 0 ≤ after
  fits : ∀ m ∈ matchIndices, m.toInt + after.toInt ≤ Int64.maxValue.toInt

/-- A line that is at most so far in front of a match or behind it. -/
def Near (matchIndices : List Int64) (before after : Int64) (i : Int) : Prop :=
  ∃ m ∈ matchIndices, m.toInt - before.toInt ≤ i ∧ i ≤ m.toInt + after.toInt

variable {matchIndices : List Int64} {before after : Int64}

/-- A widened range begins `before` lines before the match, or at the first line. -/
theorem lo_widen (h : Searched matchIndices before after totalLines) {m : Int64}
    (hm : m ∈ matchIndices) :
    (widen before after totalLines m).lo = max 0 (m.toInt - before.toInt) := by
  have hmem := h.inside m hm
  have hbefore := h.before_nonneg
  rw [Int64.le_iff_toInt_le] at hmem hbefore
  have hlt := m.toInt_lt
  have hlt' := before.toInt_lt
  have hzero : Int64.toInt 0 = 0 := rfl
  have hsub : (m - before).toInt = m.toInt - before.toInt :=
    toInt_sub_of_fits (by omega) (by omega)
  rw [Range.lo, widen]
  dsimp only
  split
  · next hneg =>
    rw [Int64.lt_iff_toInt_lt, hsub, hzero] at hneg
    rw [hzero]
    omega
  · next hneg =>
    rw [Int64.lt_iff_toInt_lt, hsub, hzero] at hneg
    rw [hsub]
    omega

/-- A widened range ends `after` lines behind the match, or at the last line. -/
theorem hi_widen (h : Searched matchIndices before after totalLines) {m : Int64}
    (hm : m ∈ matchIndices) :
    (widen before after totalLines m).hi = min (totalLines.toInt - 1) (m.toInt + after.toInt) := by
  have hmem := h.inside m hm
  have hafter := h.after_nonneg
  have hfits := h.fits m hm
  rw [Int64.le_iff_toInt_le, Int64.lt_iff_toInt_lt] at hmem
  rw [Int64.le_iff_toInt_le] at hafter
  have hzero : Int64.toInt 0 = 0 := rfl
  have hmax : Int64.maxValue.toInt = 9223372036854775807 := rfl
  have hone : Int64.toInt 1 = 1 := rfl
  have hlt := totalLines.toInt_lt
  have hadd : (m + after).toInt = m.toInt + after.toInt :=
    toInt_add_of_fits (by omega) (by omega)
  have hpred : (totalLines - 1).toInt = totalLines.toInt - 1 := by
    rw [toInt_sub_of_fits (by omega) (by omega), hone]
  rw [Range.hi, widen]
  dsimp only
  split
  · next hgt =>
    have hgt := Int64.lt_iff_toInt_lt.mp hgt
    rw [hadd, hpred] at hgt
    rw [hpred]
    omega
  · next hgt =>
    have hgt := mt Int64.lt_iff_toInt_lt.mpr hgt
    rw [hadd, hpred] at hgt
    rw [hadd]
    omega

/-- The ranges are in order, with a line between each two, and have the lines near a match. -/
structure ContextExact (matchIndices : List Int64) (before after totalLines : Int64)
    (groups : List Range) : Prop where
  inside : ∀ r ∈ groups, r.Inside totalLines
  apart : groups.Pairwise Range.Apart
  union : ∀ i, Covers groups i ↔ 0 ≤ i ∧ i < totalLines.toInt ∧ Near matchIndices before after i

/-- The widened ranges cover the lines of the file that are near a match. -/
theorem covers_widen_iff (h : Searched matchIndices before after totalLines) (i : Int) :
    Covers (matchIndices.map (widen before after totalLines)) i ↔
      0 ≤ i ∧ i < totalLines.toInt ∧ Near matchIndices before after i := by
  simp only [Covers, Near, List.mem_map]
  constructor
  · rintro ⟨r, ⟨m, hm, rfl⟩, hlo, hhi⟩
    rw [lo_widen h hm] at hlo
    rw [hi_widen h hm] at hhi
    exact ⟨by omega, by omega, m, hm, by omega, by omega⟩
  · rintro ⟨hpos, hlt, m, hm, hlo, hhi⟩
    refine ⟨_, ⟨m, hm, rfl⟩, ?_, ?_⟩
    · rw [lo_widen h hm]
      omega
    · rw [hi_widen h hm]
      omega

/-- The groups cover the lines near a match, apart and in order. -/
theorem addContext_exact (h : Searched matchIndices before after totalLines) :
    ContextExact matchIndices before after totalLines
      (addContext matchIndices before after totalLines) := by
  have hunion := covers_widen_iff h
  rw [addContext, expandContextRec_eq]
  cases hlist : matchIndices with
  | nil =>
    subst hlist
    rw [if_pos rfl]
    exact ⟨List.forall_mem_nil _, List.Pairwise.nil, hunion⟩
  | cons m rest =>
    rw [if_neg (List.cons_ne_nil _ _), ← hlist]
    have hmap : [].reverse ++ matchIndices.map (widen before after totalLines) =
        widen before after totalLines m :: rest.map (widen before after totalLines) := by
      rw [hlist]
      rfl
    rw [hmap]
    have hmerged := @mergeRangesRec_merged totalLines (rest.map (widen before after totalLines))
      (widen before after totalLines m) [] ?_ ?_ List.Pairwise.nil (List.forall_mem_nil _)
    · refine ⟨hmerged.inside, hmerged.apart, fun i => ?_⟩
      rw [hmerged.union, List.append_nil, ← hunion i, hlist]
      rfl
    · intro r hr
      rw [List.append_nil, ← List.map_cons, ← hlist, List.mem_map] at hr
      obtain ⟨m, hm, rfl⟩ := hr
      have hmem := h.inside m hm
      have hbefore := Int64.le_iff_toInt_le.mp h.before_nonneg
      have hafter := Int64.le_iff_toInt_le.mp h.after_nonneg
      have hzero : Int64.toInt 0 = 0 := rfl
      rw [Int64.le_iff_toInt_le, Int64.lt_iff_toInt_lt] at hmem
      rw [Range.Inside, lo_widen h hm, hi_widen h hm]
      omega
    · rw [← List.map_cons, ← hlist, List.pairwise_map]
      refine h.increasing.imp_of_mem ?_
      intro m n hm hn hlt
      rw [lo_widen h hm, lo_widen h hn]
      rw [Int64.lt_iff_toInt_lt] at hlt
      omega

end Merging

section Prints

variable {engine : Engine} {R : Regexes} {O : Output}

/-- The text that is printed for a line. -/
def lineText (engine : Engine) (R : Regexes) (O : Output) (i : Nat) : String :=
  let isMatch := (O.matchSet.get (toString (Int64.ofNat i))).getD (.bool false)
  formatMatchLine R O (Int64.ofNat i + 1) (O.allLines[i]?.getD "") (engine.truthy isMatch) ++ "\n"

/-- A line is a match just if the set of matches has its number. -/
theorem isMatchLine_eq (idx : Int64) (matchSet : HashMap) : isMatchLine idx matchSet =
    .ok ((matchSet.get (toString idx)).getD (.bool false)) := by
  rw [isMatchLine, Stdlib.mapGetOr_eq, HashMap.lookup_toFinmap, Stack.within_uncounted]

/-- A group is printed line by line. -/
theorem printContextGroupRec_eq {totalLines stop cur : Int64} {n : Nat}
    (hlen : O.allLines.length = totalLines.toInt) (hstop : stop.toInt < totalLines.toInt)
    (hcur : 0 ≤ cur.toInt) (hn : cur.toInt + n = stop.toInt + 1) :
    printContextGroupRec engine R O stop cur =
      .ok ((List.range' cur.toInt.toNat n).map (lineText engine R O)) := by
  induction n generalizing cur with
  | zero =>
    have hgt : cur > stop := Int64.lt_iff_toInt_lt.mpr (by omega)
    rw [printContextGroupRec, if_pos hgt]
    rfl
  | succ n ih =>
    have hgt : ¬ cur > stop := mt Int64.lt_iff_toInt_lt.mp (by omega)
    have hneg : ¬ cur < 0 := mt Int64.lt_iff_toInt_lt.mp (Int.not_lt.mpr hcur)
    have hsucc : (cur + 1).toInt = cur.toInt + 1 := @toInt_succ totalLines cur (by omega)
    have hnat : (cur + 1).toInt.toNat = cur.toInt.toNat + 1 := by omega
    have hlt : cur.toInt.toNat < O.allLines.length := by omega
    have hofNat : Int64.ofNat cur.toInt.toNat = cur := by
      rw [← Int64.ofInt_eq_ofNat, Int.toNat_of_nonneg hcur, Int64.ofInt_toInt]
    have hrest := @ih (cur + 1) (by omega) (by omega)
    rw [printContextGroupRec, if_neg hgt, if_neg hneg]
    split
    · next hnone => exact absurd (List.getElem?_eq_none_iff.mp hnone) (Nat.not_le.mpr hlt)
    · next line hline =>
      rw [isMatchLine_eq, List.range'_succ, List.map_cons, ← hnat, lineText, hofNat, hline]
      show (printContextGroupRec engine R O stop (cur + 1) >>= fun rest => pure (_ :: rest)) = _
      rw [hrest]
      rfl

/-- The positions of the lines of a range. -/
def Range.positions (r : Range) : List Nat := List.range' r.lo.toNat (r.hi + 1 - r.lo).toNat

theorem Range.mem_positions {r : Range} (hlo : 0 ≤ r.lo) (i : Nat) :
    i ∈ r.positions ↔ r.lo ≤ i ∧ (i : Int) ≤ r.hi := by
  rw [Range.positions, List.mem_range'_1]
  omega

theorem printGroupsRec_cons {totalLines : Int64} (hlen : O.allLines.length = totalLines.toInt)
    {group : Range} (hinside : group.Inside totalLines) (rest : List Range) (groupIdx : Nat) :
    printGroupsRec engine R O (group :: rest) groupIdx = do
      let separator := if groupIdx > 0 then [formatContextSeparator O ++ "\n"] else []
      return separator ++ group.positions.map (lineText engine R O)
        ++ (← printGroupsRec engine R O rest (groupIdx + 1)) := by
  unfold Range.Inside at hinside
  have hprinted : printContextGroupRec engine R O group.stop group.start =
      .ok (group.positions.map (lineText engine R O)) :=
    printContextGroupRec_eq hlen hinside.2.2 hinside.1 (by show group.lo + _ = group.hi + 1; omega)
  rw [printGroupsRec, hprinted]
  rfl

theorem intercalate_cons_eq {α : Type} (sep l : List α) (ls : List (List α)) :
    sep.intercalate (l :: ls) = l ++ ls.flatMap (sep ++ ·) := by
  induction ls generalizing l with
  | nil => simp
  | cons l' ls ih =>
    rw [List.intercalate_cons_cons, ih, List.flatMap_cons]
    simp only [List.append_assoc]

/-- A group behind the first is printed behind a separator. -/
theorem printGroupsRec_succ {totalLines : Int64} (hlen : O.allLines.length = totalLines.toInt)
    {groups : List Range} (hinside : ∀ r ∈ groups, r.Inside totalLines) (groupIdx : Nat) :
    printGroupsRec engine R O groups (groupIdx + 1) = .ok
      ((groups.map fun r => r.positions.map (lineText engine R O)).flatMap
        ([formatContextSeparator O ++ "\n"] ++ ·)) := by
  induction groups generalizing groupIdx with
  | nil => rfl
  | cons group rest ih =>
    rw [printGroupsRec_cons hlen (hinside group List.mem_cons_self),
      ih fun r hr => hinside r (List.mem_cons_of_mem _ hr), if_pos (Nat.succ_pos _)]
    rfl

/-- The groups are printed with a separator between each two. -/
theorem printGroupsRec_eq {totalLines : Int64} (hlen : O.allLines.length = totalLines.toInt)
    {groups : List Range} (hinside : ∀ r ∈ groups, r.Inside totalLines) :
    printGroupsRec engine R O groups 0 = .ok ([formatContextSeparator O ++ "\n"].intercalate
      (groups.map fun r => r.positions.map (lineText engine R O))) := by
  cases groups with
  | nil => rfl
  | cons group rest =>
    rw [printGroupsRec_cons hlen (hinside group List.mem_cons_self),
      printGroupsRec_succ hlen fun r hr => hinside r (List.mem_cons_of_mem _ hr),
      List.map_cons, intercalate_cons_eq]
    rfl

/-- A text as it stands on the terminal: by itself, or between two escape sequences. -/
inductive Painted : Bool → String → String → Prop
  | plain (text : String) : Painted false text text
  | inColor (code text : String) : Painted true text ("\x1b[" ++ code ++ "m" ++ text ++ "\x1b[0m")

/-- A coloured text is the text with colour codes about it. -/
theorem colored_painted (code text : String) (useColor : Bool) :
    Painted useColor text (colored code text useColor) := by
  cases useColor with
  | false => exact .plain text
  | true =>
    have hesc : esc ++ "[" = "\x1b[" := by decide
    have hreset : esc ++ "[0m" = "\x1b[0m" := by decide
    rw [colored, if_pos rfl, ansi, hesc, @String.append_assoc _ esc, hreset]
    exact .inColor code text

/-- The line is in the match set. -/
def Selected (engine : Engine) (O : Output) (i : Nat) : Prop :=
  ∃ v, O.matchSet.get (toString i) = some v ∧ engine.truthy v = true

/-- The line as it is printed: its own text, in which the builtins mark the matches when it is
selected and there are colours. -/
def Body (engine : Engine) (R : Regexes) (O : Output) (i : Nat) (line body : String) : Prop :=
  (O.useColor = true ∧ Selected engine O i → ∃ marks : List (String × String),
    marks.map Prod.fst = R.findAll O.regex line ∧
    (∀ mark ∈ marks, Painted true mark.1 mark.2) ∧
    body = marks.foldl (fun text mark => R.replace (escapeRegex mark.1) text mark.2) line) ∧
  (¬ (O.useColor = true ∧ Selected engine O i) → body = line)

/-- The text shows line `i` of the file: its number counted from one and then its text, behind the
name of the file when there are several. -/
def Shows (engine : Engine) (R : Regexes) (O : Output) (i : Nat) (text : String) : Prop :=
  ∃ line number sep body name : String, O.allLines[i]? = some line ∧
    Painted O.useColor (toString (i + 1)) number ∧
    (Selected engine O i → Painted O.useColor ":" sep) ∧
    (¬ Selected engine O i → Painted O.useColor "-" sep) ∧
    Body engine R O i line body ∧ Painted O.useColor O.filePath name ∧
    text = (if O.multiFile then name ++ sep else "") ++ number ++ sep ++ body ++ "\n"

/-- What is printed shows the lines near a match, each once and in order, with a separator
between two blocks. -/
def PrintsNear (engine : Engine) (R : Regexes) (O : Output) (matchIndices : List Int64)
    (before after : Int64) (printed : List String) : Prop :=
  ∃ (blocks : List (List Nat)) (text : Nat → String) (sep : String),
    printed = [sep ++ "\n"].intercalate (blocks.map fun block => block.map text) ∧
    Painted O.useColor "--" sep ∧
    (∀ i ∈ blocks.flatten, Shows engine R O i (text i)) ∧
    blocks.flatten.Pairwise (· < ·) ∧
    ∀ i : Nat, i ∈ blocks.flatten ↔ i < O.allLines.length ∧ Near matchIndices before after i

theorem toString_ofNat {n : Nat} (h : n < 9223372036854775808) :
    toString (Int64.ofNat n) = toString n := by
  show toString (Int64.ofNat n).toInt = toString n
  rw [Int64.toInt_ofNat_of_lt h]
  rfl

/-- A highlighted line is the line with its matches painted. -/
theorem highlightMatches_body {engine : Engine} {i : Nat} (line : String)
    (hselected : Selected engine O i) :
    Body engine R O i line (highlightMatches R O line) := by
  rw [highlightMatches]
  refine ⟨fun hcolor => ⟨(R.findAll O.regex line).map fun m => (m, colorMatch m true), ?_, ?_, ?_⟩,
    fun hplain => if_neg fun hcolor => hplain ⟨hcolor, hselected⟩⟩
  · rw [List.map_map]
    exact List.map_id _
  · intro mark hmark
    obtain ⟨m, -, rfl⟩ := List.mem_map.mp hmark
    exact colored_painted _ m true
  · rw [if_pos hcolor.1, List.foldl_map]

/-- What is printed for a line shows its number and its text. -/
theorem lineText_shows {i : Nat} (hi : i < O.allLines.length)
    (hfits : i + 1 < 9223372036854775808) : Shows engine R O i (lineText engine R O i) := by
  have hnumber : toString (Int64.ofNat i + 1) = toString (i + 1) := by
    rw [← toString_ofNat hfits, Int64.ofNat_add]
    rfl
  have hkey : toString (Int64.ofNat i) = toString i := toString_ofNat (by omega)
  have hline : O.allLines[i]? = some (O.allLines[i]?.getD "") := by
    rw [List.getElem?_eq_getElem hi]
    rfl
  generalize hmatch : engine.truthy ((O.matchSet.get (toString i)).getD (.bool false)) = isMatch
  have hselected : Selected engine O i ↔ isMatch = true := by
    rw [← hmatch, Selected]
    cases O.matchSet.get (toString i) with
    | none => simp [Engine.truthy]
    | some v => simp
  generalize O.allLines[i]?.getD "" = line at hline
  refine ⟨line, colorLinenum (Int64.ofNat i + 1) O.useColor,
    colorSep (if isMatch then ":" else "-") O.useColor,
    if isMatch then highlightMatches R O line else line, colorFilename O.filePath O.useColor, hline,
    ?_, ?_, ?_, ?_, colored_painted _ _ _, ?_⟩
  · rw [← hnumber]
    exact colored_painted _ _ _
  · intro h
    rw [if_pos (hselected.mp h)]
    exact colored_painted _ _ _
  · intro h
    rw [if_neg (mt hselected.mpr h)]
    exact colored_painted _ _ _
  · split
    · next h => exact highlightMatches_body line (hselected.mpr h)
    · next h => exact ⟨fun hcolor => absurd (hselected.mp hcolor.2) h, fun _ => rfl⟩
  · rw [lineText, hkey, hmatch, hline, formatMatchLine]
    dsimp only [Option.getD_some]
    split
    · rfl
    · rw [String.empty_append]

/-- The lines of the groups come in increasing order, each once. -/
theorem positions_increasing {totalLines : Int64} {groups : List Range}
    (hinside : ∀ r ∈ groups, r.Inside totalLines) (hapart : groups.Pairwise Range.Apart) :
    (groups.map Range.positions).flatten.Pairwise (· < ·) := by
  rw [List.pairwise_flatten, List.pairwise_map]
  constructor
  · intro block hblock
    obtain ⟨r, -, rfl⟩ := List.mem_map.mp hblock
    exact List.pairwise_lt_range'
  · refine hapart.imp_of_mem ?_
    intro r s hr hs hrs i hi j hj
    have hi := (Range.mem_positions (hinside r hr).1 i).mp hi
    have hj := (Range.mem_positions (hinside s hs).1 j).mp hj
    unfold Range.Apart at hrs
    omega

example : addContext [0, 2, 6] 1 0 7 = [⟨0, 2⟩, ⟨5, 6⟩] := by decide

end Prints

end Airl.Airgrep
