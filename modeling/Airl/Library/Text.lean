import Airl.Library.Utf8
import Mathlib.Data.List.DropRight

/-! # Searching and cutting texts

The string functions of Rust that a hand-written reader is made of, on lists of
characters: the text after a pattern, a text cut in two, trimming, slices that
are counted in bytes, the lines of a file.
-/

namespace Text

/-- `&s[s.find(pat)? + pat.len()..]`. -/
def after (pat : List Char) : List Char → Option (List Char)
  | [] => if pat = [] then some [] else none
  | c :: cs =>
    if pat.isPrefixOf (c :: cs) then some ((c :: cs).drop pat.length) else after pat cs

/-- The text before and the text after the first character in `p`. -/
def cut (p : Char → Bool) : List Char → Option (List Char × List Char)
  | [] => none
  | c :: cs => if p c then some ([], cs) else (cut p cs).map fun s => (c :: s.1, s.2)

/-- `s.trim_matches(p)`. -/
def trimMatches (p : Char → Bool) (s : List Char) : List Char := (s.dropWhile p).rdropWhile p

/-- `char::is_whitespace`. -/
def isWhitespace (c : Char) : Bool :=
  let n := c.toNat
  (9 ≤ n && n ≤ 13) || n == 0x20 || n == 0x85 || n == 0xA0 || n == 0x1680 ||
    (0x2000 ≤ n && n ≤ 0x200A) || n == 0x2028 || n == 0x2029 || n == 0x202F || n == 0x205F ||
    n == 0x3000

/-- `s.trim()`. -/
def trim (s : List Char) : List Char := trimMatches isWhitespace s

/-- The bytes of a text. -/
def byteLength : List Char → Nat
  | [] => 0
  | c :: s => c.utf8Size + byteLength s

/-- The slice of the first `n` bytes; none where that is past the end or inside a character. -/
def takeBytes : Nat → List Char → Option (List Char)
  | 0, _ => some []
  | _ + 1, [] => none
  | n + 1, c :: cs =>
    if c.utf8Size ≤ n + 1 then (takeBytes (n + 1 - c.utf8Size) cs).map (c :: ·) else none

/-- A line without the carriage return that its line end may have. -/
def stripReturn (line : List UInt8) : List UInt8 :=
  if line.getLast? = some 13 then line.dropLast else line

/-- `BufRead::lines` before decoding. -/
def lines (content : List UInt8) : List (List UInt8) :=
  let pieces := content.splitOn 10
  pieces.dropLast.map stripReturn ++ (pieces.getLast?.toList.filter (· ≠ []))

/-- `str::lines`. -/
def textLines (s : List Char) : List (List Char) :=
  let pieces := s.splitOn '\n'
  let ended := pieces.dropLast.map fun line =>
    if line.getLast? = some '\r' then line.dropLast else line
  ended ++ (pieces.getLast?.toList.filter (· ≠ []))

variable {p : Char → Bool} {s xs ys : List Char} {c : Char}

theorem cut_append (hxs : ∀ x ∈ xs, p x = false) (hc : p c = true) (ys : List Char) :
    cut p (xs ++ c :: ys) = some (xs, ys) := by
  induction xs with
  | nil => simp [cut, hc]
  | cons x xs ih =>
    have hx := hxs x (by simp)
    simp [cut, hx, ih fun y hy => hxs y (by simp [hy])]

theorem cut_eq_none (h : ∀ x ∈ s, p x = false) : cut p s = none := by
  induction s with
  | nil => rfl
  | cons x xs ih => simp [cut, h x (by simp), ih fun y hy => h y (by simp [hy])]

theorem eq_of_cut (h : cut p s = some (xs, ys)) :
    ∃ c, s = xs ++ c :: ys ∧ p c = true ∧ ∀ x ∈ xs, p x = false := by
  induction s generalizing xs with
  | nil => cases h
  | cons d cs ih =>
    unfold cut at h
    split at h
    · next hd =>
      cases h
      exact ⟨d, rfl, hd, by simp⟩
    · next hd =>
      cases hcut : cut p cs with
      | none => simp [hcut] at h
      | some r =>
        obtain ⟨as, bs⟩ := r
        rw [hcut] at h
        cases h
        obtain ⟨c, rfl, hc, has⟩ := ih hcut
        refine ⟨c, rfl, hc, ?_⟩
        simpa using ⟨by simpa using hd, has⟩

variable {pat : List Char}

theorem after_prefix (rest : List Char) : after pat (pat ++ rest) = some rest := by
  cases pat with
  | nil => cases rest <;> simp [after]
  | cons q pat => simp [after, List.isPrefixOf_iff_prefix]

/-- A place where the pattern does not begin is passed over. -/
theorem after_cons (h : ¬ pat <+: c :: s) : after pat (c :: s) = after pat s := by
  rw [after, if_neg (by rwa [List.isPrefixOf_iff_prefix])]

/-- A text without the pattern's first character is passed over. -/
theorem after_append_of_not_mem {q : Char} (h : q ∉ xs) (ys : List Char) :
    after (q :: pat) (xs ++ ys) = after (q :: pat) ys := by
  induction xs with
  | nil => rfl
  | cons x xs ih =>
    rw [List.cons_append, after_cons, ih fun hq => h (by simp [hq])]
    intro hfront
    exact h (by simp [(List.cons_prefix_cons.mp hfront).1])

theorem suffix_of_after {rest : List Char} (h : after pat s = some rest) : rest <:+ s := by
  induction s with
  | nil =>
    unfold after at h
    split at h
    · cases h
      exact List.suffix_refl []
    · cases h
  | cons c cs ih =>
    unfold after at h
    split at h
    · cases h
      exact List.drop_suffix _ _
    · exact (ih h).trans (List.suffix_cons c cs)

theorem mem_of_mem_trimMatches (h : c ∈ trimMatches p s) : c ∈ s :=
  (List.dropWhile_sublist p).mem ((List.rdropWhile_prefix p _).sublist.mem h)

@[simp] theorem byteLength_nil : byteLength [] = 0 := rfl

@[simp] theorem byteLength_cons (c : Char) (s : List Char) :
    byteLength (c :: s) = c.utf8Size + byteLength s := rfl

theorem byteLength_append (xs ys : List Char) :
    byteLength (xs ++ ys) = byteLength xs + byteLength ys := by
  induction xs with
  | nil => simp
  | cons c xs ih => rw [List.cons_append, byteLength_cons, byteLength_cons, ih, Nat.add_assoc]

theorem byteLength_eq_zero (h : byteLength s = 0) : s = [] := by
  cases s with
  | nil => rfl
  | cons c cs =>
    have := c.utf8Size_pos
    rw [byteLength_cons] at h
    omega

theorem length_le_byteLength (s : List Char) : s.length ≤ byteLength s := by
  induction s with
  | nil => simp
  | cons c cs ih =>
    have := c.utf8Size_pos
    rw [byteLength_cons, List.length_cons]
    omega

theorem byteLength_eq_length_iff : byteLength s = s.length ↔ ∀ c ∈ s, c.utf8Size = 1 := by
  induction s with
  | nil => simp
  | cons c cs ih =>
    have hpos := c.utf8Size_pos
    have hle := length_le_byteLength cs
    rw [byteLength_cons, List.length_cons, List.forall_mem_cons, ← ih]
    omega

theorem takeBytes_eq_some {n : Nat} : takeBytes n s = some xs ↔ xs <+: s ∧ byteLength xs = n := by
  induction s generalizing n xs with
  | nil =>
    cases n with
    | zero =>
      simp only [takeBytes, Option.some.injEq, List.prefix_nil]
      exact ⟨fun h => ⟨h.symm, h ▸ rfl⟩, fun h => h.1.symm⟩
    | succ n =>
      simp only [takeBytes, List.prefix_nil, reduceCtorEq, false_iff, not_and]
      rintro rfl
      simp
  | cons c cs ih =>
    cases n with
    | zero =>
      simp only [takeBytes, Option.some.injEq]
      exact ⟨fun h => h ▸ ⟨List.nil_prefix, rfl⟩, fun h => (byteLength_eq_zero h.2).symm⟩
    | succ n =>
      have hpos := c.utf8Size_pos
      cases xs with
      | nil => by_cases hsize : c.utf8Size ≤ n + 1 <;> simp [takeBytes, hsize]
      | cons x xs =>
        simp only [takeBytes, List.cons_prefix_cons, byteLength_cons]
        split
        · next hsize =>
          simp only [Option.map_eq_some_iff, ih, List.cons.injEq]
          constructor
          · rintro ⟨ys, ⟨hys, hlength⟩, rfl, rfl⟩
            exact ⟨⟨rfl, hys⟩, by omega⟩
          · rintro ⟨⟨rfl, hxs⟩, hlength⟩
            exact ⟨xs, ⟨hxs, by omega⟩, rfl, rfl⟩
        · next hsize =>
          simp only [reduceCtorEq, false_iff, not_and]
          rintro ⟨rfl, -⟩
          omega

theorem stripReturn_eq {line : List UInt8} (h : line.getLast? ≠ some 13) :
    stripReturn line = line :=
  if_neg h

theorem lines_flatMap {ls : List (List UInt8)}
    (h : ∀ l ∈ ls, (10 : UInt8) ∉ l ∧ l.getLast? ≠ some 13) :
    lines (ls.flatMap fun l => l ++ [10]) = ls := by
  have hsplit : (ls.flatMap fun l => l ++ [(10 : UInt8)]).splitOn 10 = ls ++ [[]] := by
    induction ls with
    | nil => simp
    | cons l ls ih =>
      rw [List.flatMap_cons, List.append_assoc, List.singleton_append,
        List.splitOn_append_cons_self_of_not_mem (h l (by simp)).1, List.cons_append,
        ih fun l' hl' => h l' (by simp [hl'])]
  have hmap : ls.map stripReturn = ls := by
    rw [List.map_congr_left fun l hl => stripReturn_eq (h l hl).2]
    simp
  simp [lines, hsplit, hmap]

theorem not_mem_of_mem_splitOn {α : Type} [BEq α] [LawfulBEq α] {a : α} {as piece : List α}
    (h : piece ∈ as.splitOn a) : a ∉ piece := by
  induction as generalizing piece with
  | nil =>
    obtain rfl : piece = [] := by simpa using h
    simp
  | cons b as ih =>
    rw [List.splitOn_cons_eq_if_modifyHead] at h
    split at h
    · rcases List.mem_cons.mp h with rfl | h
      · simp
      · exact ih h
    · next hb =>
      cases hpieces : as.splitOn a with
      | nil => exact absurd hpieces (List.splitOn_ne_nil a as)
      | cons first rest =>
        rw [hpieces] at h
        rcases List.mem_cons.mp h with rfl | h
        · have hfirst := ih (hpieces ▸ List.mem_cons_self)
          intro hmem
          rcases List.mem_cons.mp hmem with rfl | hmem
          · exact hb (beq_self_eq_true a)
          · exact hfirst hmem
        · exact ih (hpieces ▸ List.mem_cons_of_mem first h)

theorem length_splitOn {α : Type} [BEq α] [LawfulBEq α] (a : α) (as : List α) :
    (as.splitOn a).length = as.count a + 1 := by
  induction as with
  | nil => simp
  | cons b as ih =>
    rw [List.splitOn_cons_eq_if_modifyHead, List.count_cons]
    split
    · rw [List.length_cons, ih]
    · rw [List.length_modifyHead, ih]

theorem sublist_of_mem_splitOn {α : Type} [BEq α] [LawfulBEq α] {a : α} {as piece : List α}
    (h : piece ∈ as.splitOn a) : piece.Sublist as := by
  induction as generalizing piece with
  | nil =>
    obtain rfl : piece = [] := by simpa using h
    exact List.Sublist.refl []
  | cons b as ih =>
    rw [List.splitOn_cons_eq_if_modifyHead] at h
    split at h
    · rcases List.mem_cons.mp h with rfl | h
      · exact List.nil_sublist _
      · exact (ih h).cons b
    · cases hpieces : as.splitOn a with
      | nil => exact absurd hpieces (List.splitOn_ne_nil a as)
      | cons first rest =>
        rw [hpieces] at h
        rcases List.mem_cons.mp h with rfl | h
        · exact (ih (hpieces ▸ List.mem_cons_self)).cons_cons b
        · exact (ih (hpieces ▸ List.mem_cons_of_mem first h)).cons b

theorem not_mem_of_mem_lines {content line : List UInt8} (h : line ∈ lines content) :
    (10 : UInt8) ∉ line := by
  simp only [lines, List.mem_append, List.mem_map, List.mem_filter, Option.mem_toList] at h
  rcases h with ⟨piece, hpiece, rfl⟩ | ⟨hlast, -⟩
  · have hnot := not_mem_of_mem_splitOn (List.dropLast_subset _ hpiece)
    unfold stripReturn
    split
    · exact fun hmem => hnot (List.dropLast_subset _ hmem)
    · exact hnot
  · exact not_mem_of_mem_splitOn (List.mem_of_getLast? hlast)

theorem textLines_flatMap {ls : List (List Char)}
    (h : ∀ l ∈ ls, '\n' ∉ l ∧ l.getLast? ≠ some '\r') :
    textLines (ls.flatMap fun l => l ++ ['\n']) = ls := by
  have hsplit : (ls.flatMap fun l => l ++ ['\n']).splitOn '\n' = ls ++ [[]] := by
    induction ls with
    | nil => simp
    | cons l ls ih =>
      rw [List.flatMap_cons, List.append_assoc, List.singleton_append,
        List.splitOn_append_cons_self_of_not_mem (h l (by simp)).1, List.cons_append,
        ih fun l' hl' => h l' (by simp [hl'])]
  have hmap : (ls.map fun l => if l.getLast? = some '\r' then l.dropLast else l) = ls := by
    rw [List.map_congr_left fun l hl => if_neg (h l hl).2]
    simp
  simp [textLines, hsplit, hmap]

theorem not_mem_of_mem_textLines {line : List Char} (h : line ∈ textLines s) : '\n' ∉ line := by
  simp only [textLines, List.mem_append, List.mem_map, List.mem_filter, Option.mem_toList] at h
  rcases h with ⟨piece, hpiece, rfl⟩ | ⟨hlast, -⟩
  · have hnot := not_mem_of_mem_splitOn (List.dropLast_subset _ hpiece)
    split
    · exact fun hmem => hnot (List.dropLast_subset _ hmem)
    · exact hnot
  · exact not_mem_of_mem_splitOn (List.mem_of_getLast? hlast)

theorem trim_ends {d : Char} (hc : isWhitespace c = false) (hd : isWhitespace d = false)
    (s : List Char) : trim (c :: (s ++ [d])) = c :: (s ++ [d]) := by
  rw [trim, trimMatches, List.dropWhile_cons_of_neg (by simp [hc]), ← List.cons_append,
    List.rdropWhile_concat_neg _ _ _ (by simp [hd])]

theorem rdropWhile_ends {d : Char} (hd : isWhitespace d = false) (s : List Char) :
    (s ++ [d]).rdropWhile isWhitespace = s ++ [d] :=
  List.rdropWhile_concat_neg _ _ _ (by simp [hd])

section Until

variable {e : Char} {u v : List Char}

theorem takeWhile_all (hu : e ∉ u) : u.takeWhile (· ≠ e) = u := by
  rw [List.takeWhile_eq_self_iff]
  intro d hd
  rw [decide_eq_true_iff]
  rintro rfl
  exact hu hd

theorem takeWhile_until (hu : e ∉ u) (v : List Char) : (u ++ e :: v).takeWhile (· ≠ e) = u := by
  rw [List.takeWhile_append_of_pos (List.takeWhile_eq_self_iff.mp (takeWhile_all hu))]
  simp

theorem dropWhile_until (hu : e ∉ u) (v : List Char) :
    (u ++ e :: v).dropWhile (· ≠ e) = e :: v := by
  rw [List.dropWhile_append_of_pos (List.takeWhile_eq_self_iff.mp (takeWhile_all hu))]
  simp

theorem rtakeWhile_behind (hv : e ∉ v) (u : List Char) :
    (u ++ e :: v).rtakeWhile (· ≠ e) = v := by
  have hreverse : (u ++ e :: v).reverse = v.reverse ++ e :: u.reverse := by simp
  rw [List.rtakeWhile, hreverse, takeWhile_until (mt List.mem_reverse.mp hv), List.reverse_reverse]

theorem rdropWhile_behind (hv : e ∉ v) (u : List Char) :
    (u ++ e :: v).rdropWhile (· ≠ e) = u ++ [e] := by
  have hreverse : (u ++ e :: v).reverse = v.reverse ++ e :: u.reverse := by simp
  rw [List.rdropWhile, hreverse, dropWhile_until (mt List.mem_reverse.mp hv), List.reverse_cons,
    List.reverse_reverse]

end Until

end Text
