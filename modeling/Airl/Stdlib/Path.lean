import Mathlib.Data.Nat.Find
import Airl.Stdlib.TextLaw

/-! # Paths in the standard library

The functions of `path.airl`: the last occurrence of a text, read off the last piece of a split, and
what is made of the last separator and the last dot of a path. No clause of theirs can fail.
-/

namespace Airl.Stdlib

def lastIndexOf (haystack needle : String) : Run Int := do
  let parts := airlSplit haystack needle
  if parts.length ≤ 1 then return -1
  else return airlCharCount haystack - airlCharCount (← listAt parts (parts.length - 1))
    - airlCharCount needle

def pathJoin (a b : String) : Run String :=
  if a = "" then return b
  else if b = "" then return a
  else do
    if (← airlSubstring a (airlCharCount a - 1) (airlCharCount a)) = "/" then return a ++ b
    else return a ++ "/" ++ b

def pathParent (path : String) : Run String := do
  let idx ← lastIndexOf path "/"
  if idx = -1 then return ""
  else if idx = 0 then return "/"
  else airlSubstring path 0 idx

def pathFilename (path : String) : Run String := do
  let idx ← lastIndexOf path "/"
  if idx = -1 then return path
  else airlSubstring path (idx + 1) (airlCharCount path)

def pathExtension (path : String) : Run String := do
  let fname ← pathFilename path
  let idx ← lastIndexOf fname "."
  if idx = -1 then return ""
  else if idx = 0 then return ""
  else airlSubstring fname (idx + 1) (airlCharCount fname)

section LastIndex

variable {needle : List Char}

/-- The positions that a search from the left takes which goes on behind each occurrence. -/
inductive Taken (needle : List Char) : List Char → Nat → Prop
  | here {s : List Char} (h : needle <+: s) : Taken needle s 0
  | behind {s : List Char} {i : Nat} (h : needle <+: s)
      (rest : Taken needle (s.drop needle.length) i) : Taken needle s (needle.length + i)
  | next {c : Char} {s : List Char} {i : Nat} (h : ¬ needle <+: c :: s) (rest : Taken needle s i) :
      Taken needle (c :: s) (i + 1)

theorem Taken.prefix_drop {s : List Char} {i : Nat} (h : Taken needle s i) :
    needle <+: s.drop i := by
  induction h with
  | here h => exact h
  | behind h _ ih => rwa [List.drop_drop] at ih
  | next _ _ ih => exact ih

/-- Of two positions the greater one is behind the occurrence at the other. -/
theorem Taken.apart {s : List Char} {i j : Nat} (hi : Taken needle s i) (hj : Taken needle s j) :
    j ≤ i ∨ i + needle.length ≤ j := by
  induction hi generalizing j with
  | here h =>
    cases hj with
    | here _ => exact Or.inl (Nat.le_refl 0)
    | behind _ _ => exact Or.inr (by omega)
    | next hno _ => exact absurd h hno
  | behind h _ ih =>
    cases hj with
    | here _ => exact Or.inl (Nat.zero_le _)
    | behind _ rest =>
      rcases ih rest with hle | hle
      · exact Or.inl (by omega)
      · exact Or.inr (by omega)
    | next hno _ => exact absurd h hno
  | next hno _ ih =>
    cases hj with
    | here h => exact absurd h hno
    | behind h _ => exact absurd h hno
    | next _ rest =>
      rcases ih rest with hle | hle
      · exact Or.inl (by omega)
      · exact Or.inr (by omega)

theorem splitPieces_cases (hne : needle ≠ []) (s : List Char) :
    (splitPieces needle s = [s] ∧ ¬ needle <:+: s) ∨
      ∃ front i, splitPieces needle s = front ++ [s.drop (i + needle.length)] ∧ front ≠ [] ∧
        Taken needle s i ∧ ¬ needle <:+: s.drop (i + needle.length) := by
  induction s using splitPieces.induct needle with
  | case1 =>
    refine Or.inl ⟨by rw [splitPieces], ?_⟩
    rw [List.infix_nil]
    exact hne
  | case2 c s h ih =>
    rw [splitPieces, if_pos h]
    right
    rcases ih with ⟨hpieces, hno⟩ | ⟨front, i, hpieces, -, htaken, hno⟩
    · refine ⟨[[]], 0, ?_, List.cons_ne_nil _ _, Taken.here h.2, ?_⟩
      · rw [hpieces, Nat.zero_add]
        rfl
      · rwa [Nat.zero_add]
    · rw [List.drop_drop, ← Nat.add_assoc] at hpieces hno
      refine ⟨[] :: front, needle.length + i, ?_, List.cons_ne_nil _ _,
        Taken.behind h.2 htaken, hno⟩
      rw [hpieces]
      rfl
  | case3 c s h ih =>
    have hprefix : ¬ needle <+: c :: s := fun hp => h ⟨hne, hp⟩
    rw [splitPieces, if_neg h]
    rcases ih with ⟨hpieces, hno⟩ | ⟨front, i, hpieces, hfront, htaken, hno⟩
    · refine Or.inl ⟨by rw [hpieces]; rfl, ?_⟩
      rw [List.infix_cons_iff]
      exact not_or.mpr ⟨ hprefix, hno⟩
    · right
      obtain ⟨piece, front, rfl⟩ := List.exists_cons_of_ne_nil hfront
      refine ⟨(c :: piece) :: front, i + 1, ?_, List.cons_ne_nil _ _,
        Taken.next hprefix htaken, ?_⟩
      · rw [hpieces, Nat.add_right_comm]
        rfl
      · rwa [Nat.add_right_comm]

/-- The needle stands in the haystack at a character position. -/
def Occurs (h n : String) (i : Int) : Prop :=
  0 ≤ i ∧ airlSubstring h i (i + airlCharCount n) = .ok n

theorem occurs_natCast_iff {h n : String} {i : Nat} :
    Occurs h n i ↔ n.toList <+: h.toList.drop i := by
  rw [Occurs, airlCharCount, ← Int.natCast_add, airlSubstring_natCast h (Nat.le_add_right _ _),
    Nat.add_sub_cancel_left, List.prefix_iff_eq_take]
  constructor
  · rintro ⟨-, hsub⟩
    have hlist := congrArg String.toList (Except.ok.inj hsub)
    rw [String.toList_ofList] at hlist
    exact hlist.symm
  · intro heq
    refine ⟨Int.natCast_nonneg i, ?_⟩
    rw [← heq, String.ofList_toList]

theorem infix_drop_of_occurs {h n : List Char} {i j : Nat} (hocc : n <+: h.drop j) (hle : i ≤ j) :
    n <:+: h.drop i := by
  have hdrop : h.drop j = (h.drop i).drop (j - i) := by rw [List.drop_drop, Nat.add_sub_cancel' hle]
  rw [hdrop] at hocc
  exact hocc.isInfix.trans (List.drop_suffix _ _).isInfix

theorem toList_ne_nil {n : String} (hn : n ≠ "") : n.toList ≠ [] := by
  intro hnil
  exact hn (String.toList_inj.mp hnil)

theorem ofList_ne_empty {l : List Char} (hl : l ≠ []) : String.ofList l ≠ "" := by
  intro h
  have hlist := congrArg String.toList h
  rw [String.toList_ofList] at hlist
  exact hl hlist

theorem lastIndexOf_cases (h : String) {n : String} (hn : n ≠ "") :
    (lastIndexOf h n = .ok (-1) ∧ ∀ i : Nat, ¬ Occurs h n i) ∨
      ∃ i : Nat, lastIndexOf h n = .ok i ∧ Taken n.toList h.toList i ∧
        ∀ j : Nat, i + n.toList.length ≤ j → ¬ Occurs h n j := by
  have hne := toList_ne_nil hn
  have hsplit : airlSplit h n = (splitPieces n.toList h.toList).map String.ofList := if_neg hn
  rcases splitPieces_cases hne h.toList with
    ⟨hpieces, hno⟩ | ⟨front, i, hpieces, hfront, htaken, hno⟩
  · left
    refine ⟨?_, ?_⟩
    · rw [lastIndexOf, hsplit, hpieces]
      rfl
    · intro i hocc
      exact hno (infix_drop_of_occurs (i := 0) (occurs_natCast_iff.mp hocc) (Nat.zero_le _))
  · right
    refine ⟨i, ?_, htaken, ?_⟩
    · have hlen : 1 < ((splitPieces n.toList h.toList).map String.ofList).length := by
        have := List.length_pos_iff.mpr hfront
        rw [hpieces, List.length_map, List.length_append, List.length_singleton]
        omega
      have hlast : listAt ((splitPieces n.toList h.toList).map String.ofList)
          (((splitPieces n.toList h.toList).map String.ofList).length - 1) =
            .ok (String.ofList (h.toList.drop (i + n.toList.length))) := by
        rw [listAt, hpieces, List.map_append, List.length_append]
        simp
      have hle := htaken.prefix_drop.length_le
      have hpos := List.length_pos_iff.mpr hne
      rw [List.length_drop] at hle
      rw [lastIndexOf, hsplit]
      simp only [if_neg (Nat.not_le_of_lt hlen), hlast]
      show Except.ok (airlCharCount h - airlCharCount (String.ofList _) - airlCharCount n) = _
      rw [airlCharCount, airlCharCount, airlCharCount, String.toList_ofList, List.length_drop]
      congr 1
      omega
    · intro j hj hocc
      exact hno (infix_drop_of_occurs (occurs_natCast_iff.mp hocc) hj)

/-- The answer is the greatest position of the needle, and `-1` if and only if there is none. -/
def LastIndexLaw (h n : String) : Prop :=
  ∃ r, lastIndexOf h n = .ok r ∧ (r = -1 ↔ ∀ i, ¬ Occurs h n i) ∧
    ∀ i, Occurs h n i → Occurs h n r ∧ i ≤ r

/-- The greatest position of the needle is one of those that a search from the left takes. -/
def LastTaken (h n : String) : Prop :=
  ∀ i : Nat, Occurs h n i → (∀ j : Nat, Occurs h n j → j ≤ i) → Taken n.toList h.toList i

theorem exists_greatest {h n : String} (hn : n ≠ "") {i : Nat} (hi : Occurs h n i) :
    ∃ m : Nat, Occurs h n m ∧ ∀ j : Nat, Occurs h n j → j ≤ m := by
  classical
  have hbound : ∀ j : Nat, Occurs h n j → j ≤ h.toList.length := by
    intro j hj
    have hle := (occurs_natCast_iff.mp hj).length_le
    have hpos := List.length_pos_iff.mpr (toList_ne_nil hn)
    rw [List.length_drop] at hle
    omega
  have hmax := @Nat.findGreatest_spec i (fun j => Occurs h n j) _ h.toList.length (hbound i hi) hi
  exact ⟨_, hmax, fun j hj => Nat.le_findGreatest (hbound j hj) hj⟩

theorem last_index_iff (h n : String) (hn : n ≠ "") : LastIndexLaw h n ↔ LastTaken h n := by
  rcases lastIndexOf_cases h hn with ⟨hanswer, hno⟩ | ⟨i, hanswer, htaken, hno⟩
  · have hnone : ∀ i, ¬ Occurs h n i := by
      intro i hocc
      obtain ⟨i, rfl⟩ := Int.eq_ofNat_of_zero_le hocc.1
      exact hno i hocc
    exact ⟨fun _ i hocc => absurd hocc (hno i),
      fun _ => ⟨-1, hanswer, ⟨fun _ => hnone, fun _ => rfl⟩, fun i hocc => absurd hocc (hnone i)⟩⟩
  have hocc : Occurs h n i := occurs_natCast_iff.mpr htaken.prefix_drop
  constructor
  · rintro ⟨r, hr, -, hgreatest⟩ m hm hmax
    obtain rfl : r = (i : Int) := Except.ok.inj (hr.symm.trans hanswer)
    have hle := (hgreatest m hm).2
    have hge := hmax i hocc
    obtain rfl : m = i := by omega
    exact htaken
  · intro hlast
    refine ⟨i, hanswer, ?_, ?_⟩
    · exact ⟨fun hneg => by omega, fun hnone => absurd hocc (hnone i)⟩
    · -- the greatest of the positions was taken, so it is not behind the last one taken
      obtain ⟨m, hm, hmax⟩ := exists_greatest hn hocc
      have hle : m ≤ i := by
        rcases htaken.apart (hlast m hm hmax) with hle | hle
        · exact hle
        · exact absurd hm (hno m hle)
      intro j hj
      obtain ⟨j, rfl⟩ := Int.eq_ofNat_of_zero_le hj.1
      have := hmax j hj
      exact ⟨hocc, by omega⟩

theorem occurs_slash {i : Nat} (h : Occurs "a/b/c" "/" i) : i = 1 ∨ i = 3 := by
  have hprefix : ['/'] <+: ['a', '/', 'b', '/', 'c'].drop i := occurs_natCast_iff.mp h
  match i with
  | 0 => exact absurd hprefix (by decide)
  | 1 => exact Or.inl rfl
  | 2 => exact absurd hprefix (by decide)
  | 3 => exact Or.inr rfl
  | 4 => exact absurd hprefix (by decide)
  | i + 5 => simp at hprefix

/-- The last slash of `a/b/c` is found. -/
theorem last_index_iff_path : lastIndexOf "a/b/c" "/" = .ok 3 := by
  have hthree : Occurs "a/b/c" "/" (3 : Nat) := ⟨by decide, by decide⟩
  have hrest : Taken ['/'] ['b', '/', 'c'] 1 := .next (by decide) (.here (by decide))
  have hsecond : Taken ['/'] ['/', 'b', '/', 'c'] 2 :=
    have hfirst : ['/'] <+: ['/', 'b', '/', 'c'] := by decide
    .behind hfirst hrest
  have htaken : Taken ['/'] ['a', '/', 'b', '/', 'c'] 3 := .next (by decide) hsecond
  have hlast : LastTaken "a/b/c" "/" := by
    intro i hocc hmax
    have hle := hmax 3 hthree
    obtain rfl : i = 3 := by
      have := occurs_slash hocc
      omega
    exact htaken
  obtain ⟨r, hr, -, hgreatest⟩ := (last_index_iff "a/b/c" "/" (by decide)).mpr hlast
  obtain ⟨hocc, hle⟩ := hgreatest 3 hthree
  obtain ⟨i, rfl⟩ := Int.eq_ofNat_of_zero_le hocc.1
  have := occurs_slash hocc
  obtain rfl : i = 3 := by omega
  exact hr

/-- Of the two overlapping positions the first is answered. -/
theorem last_index_overlap :
    lastIndexOf "aaa" "aa" = .ok 0 ∧ airlSubstring "aaa" 1 (1 + airlCharCount "aa") = .ok "aa" ∧
      ¬ LastIndexLaw "aaa" "aa" := by
  have hanswer : lastIndexOf "aaa" "aa" = .ok 0 := by
    have hpieces : splitPieces ['a', 'a'] ['a', 'a', 'a'] = [[], ['a']] := by
      rw [splitPieces, if_pos (by decide), List.length_cons]
      simp [splitPieces]
    show (do
      let parts := (splitPieces ['a', 'a'] ['a', 'a', 'a']).map String.ofList
      if parts.length ≤ 1 then return -1
      else return airlCharCount "aaa" - airlCharCount (← listAt parts (parts.length - 1))
        - airlCharCount "aa" : Run Int) = _
    rw [hpieces]
    rfl
  refine ⟨hanswer, by decide, ?_⟩
  rintro ⟨r, hr, -, hgreatest⟩
  obtain rfl : r = 0 := Except.ok.inj (hr.symm.trans hanswer)
  exact absurd (hgreatest 1 ⟨by decide, by decide⟩).2 (by decide)

theorem lastIndexOf_char (c : Char) (s : String) :
    (lastIndexOf s (String.ofList [c]) = .ok (-1) ∧ c ∉ s.toList) ∨
      ∃ u v, s.toList = u ++ c :: v ∧ c ∉ v ∧
        lastIndexOf s (String.ofList [c]) = .ok (u.length : Nat) := by
  have hne : String.ofList [c] ≠ "" := ofList_ne_empty (List.cons_ne_nil c [])
  have hocc : ∀ i : Nat, Occurs s (String.ofList [c]) i ↔ s.toList[i]? = some c := by
    intro i
    rw [occurs_natCast_iff, String.toList_ofList, List.singleton_prefix_iff_head?_eq_some,
      List.head?_drop]
  rcases lastIndexOf_cases s hne with ⟨hanswer, hno⟩ | ⟨i, hanswer, htaken, hno⟩
  · refine Or.inl ⟨hanswer, ?_⟩
    intro hmem
    obtain ⟨i, hi⟩ := List.mem_iff_getElem?.mp hmem
    exact hno i ((hocc i).mpr hi)
  · right
    have hi := (hocc i).mp (occurs_natCast_iff.mpr htaken.prefix_drop)
    obtain ⟨hlt, hget⟩ := List.getElem?_eq_some_iff.mp hi
    refine ⟨s.toList.take i, s.toList.drop (i + 1), ?_, ?_, ?_⟩
    · rw [← hget, ← List.drop_eq_getElem_cons hlt, List.take_append_drop]
    · intro hmem
      obtain ⟨j, hj⟩ := List.mem_iff_getElem?.mp hmem
      rw [List.getElem?_drop] at hj
      refine hno (i + 1 + j) ?_ ((hocc _).mpr hj)
      rw [String.toList_ofList, List.length_singleton]
      omega
    · rw [List.length_take, Nat.min_eq_left (Nat.le_of_lt hlt), hanswer]

end LastIndex

section Joining

variable {a b c : String}

/-- What stands between two paths that are joined. -/
def glue (a : String) : String := if a.toList.getLast? = some '/' then "" else "/"

theorem pathJoin_eq (ha : a ≠ "") (hb : b ≠ "") : pathJoin a b = .ok (a ++ glue a ++ b) := by
  have hpos := List.length_pos_iff.mpr (toList_ne_nil ha)
  have hcount : airlCharCount a - 1 = ((a.toList.length - 1 : Nat) : Int) := by
    rw [airlCharCount]
    omega
  have hlast : airlSubstring a (airlCharCount a - 1) (airlCharCount a) =
      .ok (String.ofList [a.toList.getLast (toList_ne_nil ha)]) := by
    rw [hcount, airlCharCount, airlSubstring_natCast a (Nat.sub_le _ _),
      List.drop_length_sub_one (toList_ne_nil ha), Nat.sub_sub_self hpos]
    rfl
  have hsep : String.ofList [a.toList.getLast (toList_ne_nil ha)] = "/" ↔
      a.toList.getLast? = some '/' := by
    rw [List.getLast?_eq_some_getLast (toList_ne_nil ha), ← String.toList_inj, String.toList_ofList]
    simp
  rw [pathJoin, if_neg ha, if_neg hb, hlast]
  show (if String.ofList _ = "/" then Except.ok (a ++ b) else Except.ok (a ++ "/" ++ b)) = _
  rw [glue]
  by_cases hend : a.toList.getLast? = some '/'
  · rw [if_pos (hsep.mpr hend), if_pos hend, String.append_empty]
  · rw [if_neg (mt hsep.mp hend), if_neg hend]

theorem pathJoin_left (b : String) : pathJoin "" b = .ok b := if_pos rfl

theorem pathJoin_right (a : String) : pathJoin a "" = .ok a := by
  rw [pathJoin]
  by_cases ha : a = ""
  · rw [if_pos ha, ha]
    rfl
  · rw [if_neg ha, if_pos rfl]
    rfl

theorem append_ne_empty (hb : b ≠ "") (a : String) : a ++ b ≠ "" := by
  intro h
  have hlist := congrArg String.toList h
  rw [String.toList_append, String.toList_empty, List.append_eq_nil_iff] at hlist
  exact toList_ne_nil hb hlist.2

theorem glue_append (hb : b ≠ "") (a : String) : glue (a ++ b) = glue b := by
  rw [glue, glue, String.toList_append, List.getLast?_append_of_ne_nil _ (toList_ne_nil hb)]

theorem pathJoin_assoc (a b c : String) :
    ∃ ab bc r, pathJoin a b = .ok ab ∧ pathJoin b c = .ok bc ∧
      pathJoin ab c = .ok r ∧ pathJoin a bc = .ok r := by
  by_cases ha : a = ""
  · subst ha
    by_cases hb : b = ""
    · subst hb
      exact ⟨"", c, c, pathJoin_left "", pathJoin_left c, pathJoin_left c, pathJoin_left c⟩
    by_cases hc : c = ""
    · subst hc
      exact ⟨b, b, b, pathJoin_left b, pathJoin_right b, pathJoin_right b, pathJoin_left b⟩
    exact ⟨b, _, _, pathJoin_left b, pathJoin_eq hb hc, pathJoin_eq hb hc, pathJoin_left _⟩
  by_cases hb : b = ""
  · subst hb
    by_cases hc : c = ""
    · subst hc
      exact ⟨a, "", a, pathJoin_right a, pathJoin_left "", pathJoin_right a, pathJoin_right a⟩
    exact ⟨a, c, _, pathJoin_right a, pathJoin_left c, pathJoin_eq ha hc, pathJoin_eq ha hc⟩
  by_cases hc : c = ""
  · subst hc
    exact ⟨_, b, _, pathJoin_eq ha hb, pathJoin_right b, pathJoin_right _, pathJoin_eq ha hb⟩
  refine ⟨_, _, _, pathJoin_eq ha hb, pathJoin_eq hb hc,
    pathJoin_eq (append_ne_empty hb _) hc, ?_⟩
  rw [pathJoin_eq ha (append_ne_empty hc _), glue_append hb]
  simp only [String.append_assoc]

end Joining

section Parts

variable {p : String} {u v : List Char}

theorem found_bind {α : Type} {s t : String} {i : Int} (h : lastIndexOf s t = .ok i)
    (rest : Int → Run α) : (lastIndexOf s t >>= rest) = rest i := by
  rw [h]
  rfl

theorem substring_behind {c : Char} (h : p.toList = u ++ c :: v) :
    airlSubstring p ((u.length : Nat) + 1) (airlCharCount p) = .ok (String.ofList v) := by
  have hle : u.length + 1 ≤ p.toList.length := by
    rw [h, List.length_append, List.length_cons]
    omega
  have hdrop : p.toList.drop (u.length + 1) = v := by
    rw [h, ← List.drop_drop, List.drop_left]
    rfl
  have hlen : p.toList.length - (u.length + 1) = v.length := by
    rw [← hdrop, List.length_drop]
  rw [airlCharCount, ← Int.natCast_succ, airlSubstring_natCast p hle, hdrop, hlen, List.take_length]

/-- What is in front of the last separator and what is behind it. -/
theorem parts_cases (p : String) :
    ('/' ∉ p.toList ∧ pathParent p = .ok "" ∧ pathFilename p = .ok p) ∨
      ∃ u v, p.toList = u ++ '/' :: v ∧ '/' ∉ v ∧
        pathParent p = .ok (if u = [] then "/" else String.ofList u) ∧
        pathFilename p = .ok (String.ofList v) := by
  rcases lastIndexOf_char '/' p with ⟨hidx, hno⟩ | ⟨u, v, hsplit, hno, hidx⟩
  · refine Or.inl ⟨hno, ?_, ?_⟩
    · rw [pathParent, found_bind hidx, if_pos rfl]
      rfl
    · rw [pathFilename, found_bind hidx, if_pos rfl]
      rfl
  · have hneg : ((u.length : Nat) : Int) ≠ -1 := by omega
    refine Or.inr ⟨u, v, hsplit, hno, ?_, ?_⟩
    · rw [pathParent, found_bind hidx, if_neg hneg]
      by_cases hu : u = []
      · subst hu
        rfl
      · have hlen := List.length_pos_iff.mpr hu
        rw [if_neg (by omega), if_neg hu, show (0 : Int) = (0 : Nat) from rfl,
          airlSubstring_natCast p (Nat.zero_le _), hsplit, Nat.sub_zero, List.drop_zero,
          List.take_left]
    · rw [pathFilename, found_bind hidx, if_neg hneg, substring_behind hsplit]

/-- The path with one separator in front of the filename instead of a run of them. -/
def oneSeparator (p : List Char) : List Char :=
  let front := p.rdropWhile (· ≠ '/')
  if front = [] then p else front.rdropWhile (· = '/') ++ '/' :: p.rtakeWhile (· ≠ '/')

theorem oneSeparator_eq (hv : '/' ∉ v) (u : List Char) :
    oneSeparator (u ++ '/' :: v) = u.rdropWhile (· = '/') ++ '/' :: v := by
  rw [oneSeparator, Text.rdropWhile_behind hv, Text.rtakeWhile_behind hv, if_neg (by simp),
    List.rdropWhile_concat_pos _ _ _ (by decide)]

/-- The parent of a path with its filename: the path, or the path with one separator less. -/
structure JoinsBack (p parent name : String) : Prop where
  returns : pathParent p = .ok parent ∧ pathFilename p = .ok name
  single : '/' ∉ name.toList
  joins : name ≠ "" → ∃ q, pathJoin parent name = .ok q ∧
    oneSeparator q.toList = oneSeparator p.toList ∧
    (q = p ∨ ∃ w, p = w ++ "//" ++ name ∧ q = w ++ "/" ++ name)

theorem joinsBack (p : String) : ∃ parent name, JoinsBack p parent name := by
  rcases parts_cases p with ⟨hno, hparent, hname⟩ | ⟨u, v, hsplit, hno, hparent, hname⟩
  · exact ⟨"", p, ⟨hparent, hname⟩, hno, fun _ => ⟨p, pathJoin_left p, rfl, Or.inl rfl⟩⟩
  refine ⟨_, _, ⟨hparent, hname⟩, by rwa [String.toList_ofList], fun hne => ?_⟩
  have hslash : "/".toList = ['/'] := by decide
  by_cases hu : u = []
  · subst hu
    have hwhole : "/" ++ String.ofList v = p := by
      apply String.toList_inj.mp
      rw [hsplit, String.toList_append, hslash, String.toList_ofList]
      rfl
    refine ⟨p, ?_, rfl, Or.inl rfl⟩
    rw [if_pos rfl, pathJoin_eq (by decide) hne, ← hwhole]
    rfl
  rw [if_neg hu]
  refine ⟨_, pathJoin_eq (ofList_ne_empty hu) hne, ?_⟩
  rw [glue, String.toList_ofList]
  split
  · next hend =>
    obtain ⟨w, rfl⟩ := List.getLast?_eq_some_iff.mp hend
    have hq : (String.ofList (w ++ ['/']) ++ "" ++ String.ofList v).toList = w ++ '/' :: v := by
      rw [String.append_empty, String.toList_append, String.toList_ofList, String.toList_ofList,
        List.append_assoc]
      rfl
    refine ⟨?_, Or.inr ⟨String.ofList w, ?_, ?_⟩⟩
    · rw [hq, hsplit, oneSeparator_eq hno, oneSeparator_eq hno,
        List.rdropWhile_concat_pos _ _ _ (by decide)]
    · apply String.toList_inj.mp
      have hslashes : "//".toList = ['/', '/'] := by decide
      rw [hsplit, String.toList_append, String.toList_append, hslashes, String.toList_ofList,
        String.toList_ofList, List.append_assoc, List.append_assoc]
      rfl
    · apply String.toList_inj.mp
      rw [hq, String.toList_append, String.toList_append, hslash, String.toList_ofList,
        String.toList_ofList, List.append_assoc]
      rfl
  · have hwhole : String.ofList u ++ "/" ++ String.ofList v = p := by
      apply String.toList_inj.mp
      rw [hsplit, String.toList_append, String.toList_append, hslash, String.toList_ofList,
        String.toList_ofList, List.append_assoc]
      rfl
    rw [hwhole]
    exact ⟨rfl, Or.inl rfl⟩

/-- The extension is what stands behind the last dot of the filename, unless it is the first
character. -/
structure ExtensionLaw (p name ext : String) : Prop where
  returns : pathFilename p = .ok name ∧ pathExtension p = .ok ext
  single : '.' ∉ ext.toList
  behind : ext ≠ "" → ∃ stem, stem ≠ "" ∧ name = stem ++ "." ++ ext

theorem extensionLaw (p : String) : ∃ name ext, ExtensionLaw p name ext := by
  obtain ⟨parent, name, hback⟩ := joinsBack p
  have hname := hback.returns.2
  have hext : pathExtension p = (do
      let idx ← lastIndexOf name "."
      if idx = -1 then return ""
      else if idx = 0 then return ""
      else airlSubstring name (idx + 1) (airlCharCount name)) := by
    rw [pathExtension, hname]
    rfl
  have hnone : pathExtension p = .ok "" → ExtensionLaw p name "" := fun h =>
    ⟨⟨hname, h⟩, by decide, fun hne => absurd rfl hne⟩
  rcases lastIndexOf_char '.' name with ⟨hidx, -⟩ | ⟨u, v, hsplit, hno, hidx⟩
  · refine ⟨name, "", hnone ?_⟩
    rw [hext, found_bind hidx, if_pos rfl]
    rfl
  by_cases hu : u = []
  · subst hu
    refine ⟨name, "", hnone ?_⟩
    rw [hext, found_bind hidx]
    rfl
  have hlen := List.length_pos_iff.mpr hu
  refine ⟨name, String.ofList v, ⟨hname, ?_⟩, by rwa [String.toList_ofList], fun _ =>
    ⟨String.ofList u, ofList_ne_empty hu, ?_⟩⟩
  · rw [hext, found_bind hidx, if_neg (by omega), if_neg (by omega), substring_behind hsplit]
  · have hdot : ".".toList = ['.'] := by decide
    apply String.toList_inj.mp
    rw [hsplit, String.toList_append, String.toList_append, hdot, String.toList_ofList,
      String.toList_ofList, List.append_assoc]
    rfl

theorem path_laws (a b c p : String) :
    (∃ ab bc r, pathJoin a b = .ok ab ∧ pathJoin b c = .ok bc ∧
      pathJoin ab c = .ok r ∧ pathJoin a bc = .ok r) ∧
    (∃ parent name, JoinsBack p parent name) ∧ ∃ name ext, ExtensionLaw p name ext :=
  ⟨pathJoin_assoc a b c, joinsBack p, extensionLaw p⟩

end Parts

end Airl.Stdlib
