import Airl.Stdlib.MapsLaw
import Airl.Stdlib.StringLaw

/-! # Positions and pieces of texts

Where the byte offsets of `index-of` are character positions, and what splitting, joining,
repeating and padding make of a text.
-/

namespace Airl.Stdlib

open Airl.Json (bytesFromString)

section Positions

variable {s t : String}

theorem airlSubstring_natCast (s : String) {a b : Nat} (h : a ≤ b) :
    airlSubstring s a b = .ok (String.ofList ((s.toList.drop a).take (b - a))) := by
  have hlen : ((b : Int) - (a : Int)).toNat = b - a := by omega
  rw [airlSubstring, if_neg (by omega), if_neg (by omega), if_neg (by omega), hlen,
    Int.toNat_natCast]

theorem airlCharAt_natCast (s : String) (i : Nat) : airlCharAt s i =
    (s.toList[i]?).elim (.error .exit) fun c => .ok (String.ofList [c]) := by
  rw [airlCharAt, if_neg (by omega), Int.toNat_natCast]
  cases s.toList[i]? with
  | none => rfl
  | some c => rfl

/-- `index-of` answers the position of the first occurrence, as `substring` and `char-at` count. -/
structure PositionsAgree (s t : String) (i : Int) : Prop where
  found : indexOf s t = .ok i
  there : airlSubstring s i (i + airlCharCount t) = .ok t
  chars : ∀ j, 0 ≤ j → j < airlCharCount t → airlCharAt s (i + j) = airlCharAt t j
  first : ∀ j, 0 ≤ j → j < i → airlSubstring s j (j + airlCharCount t) ≠ .ok t
  joined : ∃ u v, airlSubstring s 0 i = .ok u ∧
    airlSubstring s (i + airlCharCount t) (airlCharCount s) = .ok v ∧ u ++ t ++ v = s

theorem substring_at {u v : List Char} (h : s.toList = u ++ t.toList ++ v) :
    airlSubstring s (u.length : Nat) ((u.length : Nat) + airlCharCount t) = .ok t := by
  rw [airlCharCount, ← Int.natCast_add, airlSubstring_natCast s (Nat.le_add_right _ _), h,
    List.append_assoc, List.drop_left, Nat.add_sub_cancel_left, List.take_left,
      String.ofList_toList]

theorem split_of_substring {j : Nat}
    (h : airlSubstring s j (j + airlCharCount t) = .ok t) :
    s.toList = s.toList.take j ++ t.toList ++ s.toList.drop (j + t.toList.length) := by
  rw [airlCharCount, ← Int.natCast_add, airlSubstring_natCast s (Nat.le_add_right _ _),
    Nat.add_sub_cancel_left] at h
  have hpart : (s.toList.drop j).take t.toList.length = t.toList := by
    have hlist := congrArg String.toList (Except.ok.inj h)
    rwa [String.toList_ofList] at hlist
  rw [List.append_assoc]
  conv => lhs; rw [← List.take_append_drop j s.toList]
  congr 1
  conv => lhs; rw [← List.take_append_drop t.toList.length (s.toList.drop j), hpart]
  rw [List.drop_drop]

theorem positionsAgree_of_ascii {u v : List Char} (h : FirstAt s.toList t.toList u v)
    (hindex : indexOf s t = .ok (u.length : Nat)) : PositionsAgree s t (u.length : Nat) := by
  have hcount : airlCharCount s = ((u.length + t.toList.length + v.length : Nat) : Int) := by
    rw [airlCharCount, h.1, List.length_append, List.length_append]
  refine ⟨hindex, substring_at h.1, ?_, ?_, String.ofList u, String.ofList v, ?_, ?_, ?_⟩
  · intro j hj hlt
    obtain ⟨j, rfl⟩ := Int.eq_ofNat_of_zero_le hj
    rw [airlCharCount] at hlt
    have hget : s.toList[u.length + j]? = t.toList[j]? := by
      rw [h.1, List.append_assoc, List.getElem?_append_right (Nat.le_add_right _ _),
        Nat.add_sub_cancel_left, List.getElem?_append_left (by omega)]
    rw [← Int.natCast_add, airlCharAt_natCast, airlCharAt_natCast, hget]
  · intro j hj hlt hthere
    obtain ⟨j, rfl⟩ := Int.eq_ofNat_of_zero_le hj
    have hle := h.2 _ _ (split_of_substring hthere)
    rw [List.length_take] at hle
    omega
  · rw [show (0 : Int) = (0 : Nat) from rfl, airlSubstring_natCast s (Nat.zero_le _),
      List.drop_zero,
      h.1, List.append_assoc, Nat.sub_zero, List.take_left]
  · rw [hcount, airlCharCount, ← Int.natCast_add, airlSubstring_natCast s (Nat.le_add_right _ _),
      h.1, ← List.length_append, List.drop_left, List.length_append, Nat.add_sub_cancel_left,
      List.take_length]
  · apply String.toList_inj.mp
    rw [String.toList_append, String.toList_append, String.toList_ofList, String.toList_ofList, h.1]

/-- A byte offset is the position of the first occurrence when all before it is ASCII, and only
then. -/
theorem positions_agree_iff (s t : String) (h : ∃ u v, s = u ++ t ++ v) :
    (∃ i, PositionsAgree s t i) ↔
      ∀ u v, FirstAt s.toList t.toList u v → ∀ c ∈ u, c.utf8Size = 1 := by
  rcases indexOf_cases s t with ⟨-, hnone⟩ | ⟨u, v, hfirst, hindex⟩
  · exact absurd (occurs_iff.mpr h) hnone
  constructor
  · rintro ⟨i, hagree⟩ u' v' hfirst'
    have hi : i = (Text.byteLength u : Nat) := Except.ok.inj (hagree.found.symm.trans hindex)
    have hsame : u' = u := by
      have hle := hfirst.2 u' v' hfirst'.1
      have hle' := hfirst'.2 u v hfirst.1
      have hprefix : u <+: s.toList := ⟨t.toList ++ v, by rw [hfirst.1, List.append_assoc]⟩
      have hprefix' : u' <+: s.toList := ⟨t.toList ++ v', by rw [hfirst'.1, List.append_assoc]⟩
      exact (List.prefix_of_prefix_length_le hprefix' hprefix hle').eq_of_length (by omega)
    rw [hsame]
    apply Text.byteLength_eq_length_iff.mp
    have hle := Text.length_le_byteLength u
    by_contra hne
    exact hagree.first (u.length : Nat) (by omega) (by omega) (substring_at hfirst.1)
  · intro hascii
    have hbytes := Text.byteLength_eq_length_iff.mpr (hascii u v hfirst)
    rw [hbytes] at hindex
    exact ⟨_, positionsAgree_of_ascii hfirst hindex⟩

theorem positions_agree_iff_ab : ∃ i, PositionsAgree "ab" "b" i := by
  apply (positions_agree_iff "ab" "b" ⟨"a", "", by decide⟩).mpr
  intro u v hfirst c hc
  have hmem : c ∈ "ab".toList := by
    rw [hfirst.1, List.append_assoc]
    exact List.mem_append_left _ hc
  have hcases : c = 'a' ∨ c = 'b' := by simpa using hmem
  rcases hcases with rfl | rfl
  · decide
  · decide

/-- Behind a character of two bytes the answer is one too many. -/
theorem positions_differ :
    indexOf "éa" "a" = .ok 2 ∧ airlSubstring "éa" 2 3 = .ok "" ∧ airlSubstring "éa" 1 2 = .ok "a" ∧
      ¬ PositionsAgree "éa" "a" 2 := by
  have hthere : airlSubstring "éa" 2 3 = .ok "" := by decide
  refine ⟨?_, hthere, by decide, ?_⟩
  · rw [indexOf_scan (by decide) (by decide), bytesScan_step (by decide) (by decide),
      if_neg (by decide), bytesScan_step (by decide) (by decide), if_neg (by decide),
      bytesScan_step (by decide) (by decide), if_pos (by decide)]
    rfl
  · intro hagree
    have hsub := hagree.there
    rw [show (2 : Int) + airlCharCount "a" = 3 by decide, hthere] at hsub
    exact absurd (Except.ok.inj hsub) (by decide)

end Positions

section Pieces

variable {p : Char → Bool}

/-- The maximal runs of characters that are not `p`. -/
def runs (p : Char → Bool) (s : List Char) : List (List Char) :=
  (s.splitOnP p).filter (· ≠ [])

theorem runs_append_cons {c : Char} (hc : p c = true) (s t : List Char) :
    runs p (s ++ c :: t) = runs p s ++ runs p t := by
  rw [runs, List.splitOnP_append_cons s t hc, List.filter_append]
  rfl

theorem runs_append_of_forall {t : List Char} (ht : ∀ c ∈ t, p c = true) (s : List Char) :
    runs p (s ++ t) = runs p s := by
  induction t generalizing s with
  | nil => rw [List.append_nil]
  | cons c t ih =>
    have hnil : runs p [] = [] := by simp [runs]
    have hrest := ih (fun d hd => ht d (List.mem_cons_of_mem _ hd)) []
    rw [List.nil_append, hnil] at hrest
    rw [runs_append_cons (ht c List.mem_cons_self), hrest, List.append_nil]

theorem runs_of_forall_append {s : List Char} (hs : ∀ c ∈ s, p c = true) (t : List Char) :
    runs p (s ++ t) = runs p t := by
  induction s with
  | nil => rfl
  | cons c s ih =>
    have hnil : runs p [] = [] := by simp [runs]
    have hcons := runs_append_cons (hs c List.mem_cons_self) [] (s ++ t)
    rw [hnil, List.nil_append, List.nil_append] at hcons
    rw [List.cons_append, hcons, ih fun d hd => hs d (List.mem_cons_of_mem _ hd)]

theorem runs_trimMatches (p : Char → Bool) (s : List Char) :
    runs p (Text.trimMatches p s) = runs p s := by
  have hfront := @List.takeWhile_append_dropWhile _ p s
  have hback := @List.rdropWhile_append_rtakeWhile _ p (s.dropWhile p)
  conv => rhs; rw [← hfront]
  rw [runs_of_forall_append fun c hc => List.mem_takeWhile_imp hc]
  conv => rhs; rw [← hback]
  rw [runs_append_of_forall fun c hc => List.mem_rtakeWhile_imp hc]
  rfl

/-- A character of a run goes in front of the first piece of the rest. -/
theorem runs_cons {c : Char} (hc : p c = false) (s : List Char) :
    ∃ first rest, s.splitOnP p = first :: rest ∧
      runs p (c :: s) = (c :: first) :: rest.filter (· ≠ []) := by
  cases hpieces : s.splitOnP p with
  | nil => exact absurd hpieces (List.splitOnP_ne_nil p s)
  | cons first rest =>
    refine ⟨first, rest, rfl, ?_⟩
    rw [runs, List.splitOnP_cons_eq_if_modifyHead, if_neg (by simp [hc]), hpieces]
    simp

theorem runs_cons_of_pos {c : Char} (hc : p c = true) (s : List Char) :
    runs p (c :: s) = runs p s :=
  runs_of_forall_append (s := [c]) (List.forall_mem_singleton.mpr hc) s

theorem mem_runs {c : Char} {s : List Char} (hmem : c ∈ s) (hc : p c = false) :
    ∃ run ∈ runs p s, c ∈ run := by
  induction s with
  | nil => exact absurd hmem List.not_mem_nil
  | cons d s ih =>
    cases hd : p d with
    | true =>
      rw [runs_cons_of_pos hd]
      apply ih
      rcases List.mem_cons.mp hmem with rfl | hmem
      · rw [hc] at hd
        cases hd
      · exact hmem
    | false =>
      obtain ⟨first, rest, hpieces, hruns⟩ := runs_cons hd s
      rw [hruns]
      rcases List.mem_cons.mp hmem with rfl | hmem
      · exact ⟨_, List.mem_cons_self, List.mem_cons_self⟩
      · obtain ⟨run, hrun, hin⟩ := ih hmem
        rw [runs, hpieces, List.mem_filter, List.mem_cons] at hrun
        rcases hrun with ⟨rfl | hrest, hne⟩
        · exact ⟨_, List.mem_cons_self, List.mem_cons_of_mem _ hin⟩
        · exact ⟨run, List.mem_cons_of_mem _ (List.mem_filter.mpr ⟨hrest, hne⟩), hin⟩

theorem not_of_mem_splitOnP {s piece : List Char} (h : piece ∈ s.splitOnP p) :
    ∀ c ∈ piece, p c = false := by
  induction s generalizing piece with
  | nil =>
    rw [List.splitOnP_nil, List.mem_singleton] at h
    rw [h]
    exact List.forall_mem_nil _
  | cons d s ih =>
    rw [List.splitOnP_cons_eq_if_modifyHead] at h
    split at h
    · rcases List.mem_cons.mp h with rfl | h
      · exact List.forall_mem_nil _
      · exact ih h
    · next hd =>
      cases hpieces : s.splitOnP p with
      | nil => exact absurd hpieces (List.splitOnP_ne_nil p s)
      | cons first rest =>
        rw [hpieces] at h
        rcases List.mem_cons.mp h with rfl | h
        · exact List.forall_mem_cons.mpr
            ⟨Bool.eq_false_iff.mpr hd, ih (hpieces ▸ List.mem_cons_self)⟩
        · exact ih (hpieces ▸ List.mem_cons_of_mem _ h)

theorem mem_of_mem_runs {s run : List Char} (h : run ∈ runs p s) :
    run ≠ [] ∧ ∀ c ∈ run, p c = false := by
  obtain ⟨hpiece, hne⟩ := List.mem_filter.mp h
  exact ⟨of_decide_eq_true hne, not_of_mem_splitOnP hpiece⟩

theorem splitOnP_congr {q : Char → Bool} {s : List Char} (h : ∀ c ∈ s, p c = q c) :
    s.splitOnP p = s.splitOnP q := by
  induction s with
  | nil => rfl
  | cons c s ih =>
    rw [List.splitOnP_cons_eq_if_modifyHead, List.splitOnP_cons_eq_if_modifyHead,
      h c List.mem_cons_self, ih fun d hd => h d (List.mem_cons_of_mem _ hd)]

theorem splitPieces_singleton (a : Char) (s : List Char) : splitPieces [a] s = s.splitOn a := by
  induction s with
  | nil => rw [splitPieces]; rfl
  | cons c s ih =>
    rw [splitPieces, List.splitOn_cons_eq_if_modifyHead]
    by_cases hc : c = a
    · subst hc
      rw [if_pos ⟨List.cons_ne_nil _ _, List.prefix_append [c] s⟩, if_pos (beq_self_eq_true c)]
      exact congrArg _ ih
    · rw [if_neg, if_neg (by simp [hc]), ih]
      rintro ⟨-, hprefix⟩
      exact hc (List.cons_prefix_cons.mp hprefix).1.symm

theorem airlSplit_char (a : Char) (s : String) :
    airlSplit s (String.ofList [a]) = (s.toList.splitOn a).map String.ofList := by
  have hne : String.ofList [a] ≠ "" := by
    intro h
    have hlist := congrArg String.toList h
    rw [String.toList_ofList] at hlist
    cases hlist
  rw [airlSplit, if_neg hne, String.toList_ofList, splitPieces_singleton]

theorem toList_airlJoin (sep : String) (items : List String) :
    (airlJoin items sep).toList = sep.toList.intercalate (items.map String.toList) := by
  cases items with
  | nil => rfl
  | cons item items =>
    rw [airlJoin]
    induction items generalizing item with
    | nil => simp
    | cons next items ih =>
      rw [List.foldl_cons, ih]
      cases items with
      | nil => simp [List.intercalate_cons_cons, List.append_assoc]
      | cons _ _ => simp [List.intercalate_cons_cons, List.append_assoc]

theorem wordsCollectLoop_eq (parts : List String) :
    wordsCollectLoop parts 0 parts.length [] = .ok (parts.filter (· ≠ "")) := by
  have hstep : ∀ acc : List String,
      fold (fun acc tok => (pure (if tok = "" then acc else concat acc [tok]) : Run _)) acc parts =
        .ok (acc ++ parts.filter (· ≠ "")) := by
    intro acc
    rw [fold_pure]
    induction parts generalizing acc with
    | nil => rw [List.filter_nil, List.append_nil]; rfl
    | cons tok parts ih =>
      rw [List.foldl_cons, ih]
      by_cases htok : tok = ""
      · rw [if_pos htok, List.filter_cons_of_neg (by simp [htok])]
      · rw [if_neg htok, List.filter_cons_of_pos (by simp [htok]), concat_eq, List.append_assoc]
        rfl
  rw [wordsCollectLoop, indexLoop_eq_fold, List.drop_zero]
  exact hstep []

theorem words_eq (s : String) :
    words s = .ok ((runs (· == ' ') (Text.trimMatches isSpace s.toList)).map String.ofList) := by
  have hfilter : ∀ pieces : List (List Char),
      (pieces.map String.ofList).filter (· ≠ "") =
        (pieces.filter (· ≠ [])).map String.ofList := by
    intro pieces
    rw [List.filter_map]
    congr 1
    apply List.filter_congr
    intro piece _
    simp
  rw [words, trim_eq]
  show wordsCollectLoop _ 0 _ [] = _
  rw [wordsCollectLoop_eq, airlSplit_char ' ', String.toList_ofList, hfilter]
  rfl

theorem runs_congr {q : Char → Bool} {s : List Char} (h : ∀ c ∈ s, p c = q c) :
    runs p s = runs q s := by
  rw [runs, runs, splitOnP_congr h]

theorem spaces_eq {s : List Char} (h : ∀ c ∈ s, isSpace c = true → c = ' ') :
    ∀ c ∈ s, (c == ' ') = isSpace c := by
  intro c hc
  cases hspace : isSpace c with
  | true => rw [h c hc hspace]; rfl
  | false =>
    rw [beq_eq_false_iff_ne]
    rintro rfl
    cases hspace

theorem toList_comp_ofList : String.toList ∘ String.ofList = id := by
  funext l
  exact String.toList_ofList

theorem words_iff (s : String) :
    words s = .ok ((runs isSpace s.toList).map String.ofList) ↔
      ∀ c ∈ Text.trimMatches isSpace s.toList, isSpace c = true → c = ' ' := by
  rw [words_eq, ← runs_trimMatches isSpace]
  constructor
  · intro h c hc hspace
    by_contra hne
    have hruns := congrArg (List.map String.toList) (Except.ok.inj h)
    rw [List.map_map, List.map_map, toList_comp_ofList, List.map_id, List.map_id] at hruns
    -- the character is inside a word, but in none of the runs
    obtain ⟨run, hrun, hin⟩ := mem_runs (p := (· == ' ')) hc (beq_eq_false_iff_ne.mpr hne)
    rw [hruns] at hrun
    rw [(mem_of_mem_runs hrun).2 c hin] at hspace
    cases hspace
  · intro h
    rw [runs_congr (spaces_eq h)]

theorem mem_intercalate {c : Char} {ls : List (List Char)} (h : c ∈ [' '].intercalate ls) :
    c = ' ' ∨ ∃ l ∈ ls, c ∈ l := by
  induction ls with
  | nil => exact absurd h List.not_mem_nil
  | cons l ls ih =>
    by_cases hls : ls = []
    · subst hls
      rw [List.intercalate_singleton] at h
      exact Or.inr ⟨l, List.mem_cons_self, h⟩
    · rw [List.intercalate_cons_of_ne_nil hls, List.mem_append, List.mem_append] at h
      rcases h with (h | h) | h
      · exact Or.inr ⟨l, List.mem_cons_self, h⟩
      · exact Or.inl (List.mem_singleton.mp h)
      · rcases ih h with heq | ⟨m, hm, hin⟩
        · exact Or.inl heq
        · exact Or.inr ⟨m, List.mem_cons_of_mem _ hm, hin⟩

/-- A word is not empty and has no whitespace. -/
def IsWord (w : String) : Prop := w ≠ "" ∧ ∀ c ∈ w.toList, isSpace c = false

theorem words_unwords {ws : List String} (h : ∀ w ∈ ws, IsWord w) :
    words (unwords ws) = .ok ws := by
  have hjoin : (unwords ws).toList = [' '].intercalate (ws.map String.toList) :=
    toList_airlJoin " " ws
  have hspaces : ∀ c ∈ (unwords ws).toList, isSpace c = true → c = ' ' := by
    intro c hc hspace
    rw [hjoin] at hc
    rcases mem_intercalate hc with heq | ⟨l, hl, hin⟩
    · exact heq
    · obtain ⟨w, hw, rfl⟩ := List.mem_map.mp hl
      rw [(h w hw).2 c hin] at hspace
      cases hspace
  have hruns : runs isSpace (unwords ws).toList = ws.map String.toList := by
    rw [← runs_congr (spaces_eq hspaces), hjoin, runs]
    show List.filter _ (([' '].intercalate (ws.map String.toList)).splitOn ' ') = _
    by_cases hws : ws = []
    · subst hws
      rfl
    · rw [List.splitOn_intercalate, List.filter_eq_self]
      · intro l hl
        obtain ⟨w, hw, rfl⟩ := List.mem_map.mp hl
        simpa using (h w hw).1
      · intro l hl hspace
        obtain ⟨w, hw, rfl⟩ := List.mem_map.mp hl
        exact absurd ((h w hw).2 ' ' hspace) (by decide)
      · simpa using hws
  rw [(words_iff _).mpr fun c hc => hspaces c (Text.mem_of_mem_trimMatches hc), hruns, List.map_map]
  congr 1
  apply List.map_id''
  intro w
  exact String.ofList_toList

theorem unlines_lines (s : String) : unlines (lines s) = s := by
  apply String.toList_inj.mp
  rw [unlines, lines, toList_airlJoin, airlSplit_char '\n', List.map_map, toList_comp_ofList,
    List.map_id]
  exact List.intercalate_splitOn '\n'

end Pieces

theorem toList_repeatStr (s : String) (n : Nat) :
    (repeatStr s n).toList = (List.replicate n s.toList).flatten := by
  rw [repeatStr]
  by_cases h0 : n = 0
  · rw [if_pos h0, h0]
    rfl
  by_cases h1 : n = 1
  · rw [if_neg h0, if_pos h1, h1]
    simp
  have ih := toList_repeatStr s (n / 2)
  rw [if_neg h0, if_neg h1]
  split
  · next heven =>
    have hn : n = n / 2 + n / 2 := by omega
    conv => rhs; rw [hn]
    rw [String.toList_append, ih, List.replicate_add, List.flatten_append]
  · next hodd =>
    have hn : n = n / 2 + (n / 2 + 1) := by omega
    conv => rhs; rw [hn]
    rw [String.toList_append, String.toList_append, ih, List.replicate_add, List.flatten_append,
      List.replicate_succ', List.flatten_append, List.flatten_singleton]
termination_by n

theorem length_repeatStr {ch : String} (hch : ch.toList.length = 1) (n : Nat) :
    (repeatStr ch n).toList.length = n := by
  rw [toList_repeatStr, List.length_flatten, List.map_replicate, hch, List.sum_replicate]
  exact Nat.mul_one n

/-- What the text functions make of every text: `words` of texts without inner tabs and line ends,
the others of all. -/
theorem text_assembly_iff (s : String) :
    (words s = .ok ((runs isSpace s.toList).map String.ofList) ↔
      ∀ c ∈ Text.trimMatches isSpace s.toList, isSpace c = true → c = ' ') ∧
    unlines (lines s) = s ∧
    (∀ ws : List String, (∀ w ∈ ws, IsWord w) → words (unwords ws) = .ok ws) ∧
    (∀ n, (repeatStr s n).toList = (List.replicate n s.toList).flatten) ∧
    ∀ (width : Int) (ch : String), ch.toList.length = 1 →
      (airlCharCount (padLeft s width ch) = max width (airlCharCount s) ∧
        ∃ fill, padLeft s width ch = fill ++ s) ∧
      airlCharCount (padRight s width ch) = max width (airlCharCount s) ∧
        ∃ fill, padRight s width ch = s ++ fill := by
  refine ⟨words_iff s, unlines_lines s, fun ws => words_unwords, toList_repeatStr s, ?_⟩
  intro width ch hch
  rw [padLeft, padRight]
  by_cases hwide : airlCharCount s ≥ width
  · simp only [if_pos hwide]
    have hmax : airlCharCount s = max width (airlCharCount s) := (max_eq_right hwide).symm
    exact ⟨⟨hmax, "", (String.empty_append).symm⟩, hmax, "", (String.append_empty).symm⟩
  · simp only [if_neg hwide]
    have hfill := length_repeatStr hch (width - airlCharCount s).toNat
    have hnonneg : 0 ≤ airlCharCount s := Int.natCast_nonneg _
    have hmax : max width (airlCharCount s) = width := max_eq_left (by omega)
    refine ⟨⟨?_, _, rfl⟩, ?_, _, rfl⟩
    · rw [hmax, airlCharCount, String.toList_append, List.length_append, hfill]
      rw [airlCharCount] at hwide ⊢
      omega
    · rw [hmax, airlCharCount, String.toList_append, List.length_append, hfill]
      rw [airlCharCount] at hwide ⊢
      omega

theorem text_assembly_iff_accents :
    words (unwords ["é", "b"]) = .ok ["é", "b"] ∧ airlCharCount (padLeft "é" 3 "x") = 3 := by
  have hlaw := text_assembly_iff "é"
  refine ⟨hlaw.2.2.1 ["é", "b"] ?_, (hlaw.2.2.2.2 3 "x" (by decide)).1.1⟩
  have hone : ∀ c, isSpace c = false → IsWord (String.ofList [c]) := by
    intro c hc
    refine ⟨?_, ?_⟩
    · intro hnil
      have hlist := congrArg String.toList hnil
      rw [String.toList_ofList] at hlist
      cases hlist
    · rw [String.toList_ofList]
      exact List.forall_mem_singleton.mpr hc
  exact List.forall_mem_cons.mpr ⟨hone 'é' (by decide),
    List.forall_mem_singleton.mpr (hone 'b' (by decide))⟩

/-- A tab is no place to split at, although trimming takes it for whitespace. -/
theorem words_tab :
    words "a\tb" = .ok ["a\tb"] ∧ runs isSpace "a\tb".toList = [['a'], ['b']] ∧
      trim "\ta" = .ok "a" := by
  refine ⟨?_, by decide, ?_⟩
  · rw [words_eq]
    rfl
  · rw [trim_eq]
    rfl

end Airl.Stdlib
