import Airl.Syntax.Lexing

/-! # The text of a token

What may stand between tokens, and what stands where a string or an integer is read: grammars of
their own, with the lexer on one side and the meaning of the text on the other.
-/

namespace Airl.Syntax

open Lexer

/-- The text that closes the `depth` block comments that are open before it. -/
inductive BlockRest : Nat → List Char → Prop
  | closed : BlockRest 0 []
  | opens {depth s} : BlockRest (depth + 2) s → BlockRest (depth + 1) ('#' :: '|' :: s)
  | closes {depth s} : BlockRest depth s → BlockRest (depth + 1) ('|' :: '#' :: s)
  | other {depth a s} : (¬ ∃ t, a :: s = '#' :: '|' :: t) → (¬ ∃ t, a :: s = '|' :: '#' :: t) →
      BlockRest (depth + 1) s → BlockRest (depth + 1) (a :: s)

/-- White space and whole comments. -/
inductive Blank : List Char → Prop
  | nil : Blank []
  | space {a s} : isAsciiWhitespace a = true → Blank s → Blank (a :: s)
  | line {body s} : '\n' ∉ body → Blank s → Blank (';' :: (body ++ '\n' :: s))
  | block {body s} : BlockRest 1 body → Blank s → Blank ('#' :: '|' :: (body ++ s))

/-- What may stand behind the last token: the source may end in a line comment. -/
def Trailing (s : List Char) : Prop :=
  Blank s ∨ ∃ blank body, s = blank ++ ';' :: body ∧ Blank blank ∧ '\n' ∉ body

variable {s t : List Char} {a : Char}

theorem BlockRest.ne_nil {depth : Nat} (h : BlockRest (depth + 1) s) : s ≠ [] := by
  cases h with
  | opens _ => exact List.cons_ne_nil _ _
  | closes _ => exact List.cons_ne_nil _ _
  | other _ _ _ => exact List.cons_ne_nil _ _

theorem skipBlock_iff (depth : Nat) (s t : List Char) :
    skipBlock depth s = some t ↔ ∃ body, s = body ++ t ∧ BlockRest depth body := by
  constructor
  · intro h
    fun_induction skipBlock depth s with
    | case1 s =>
      cases h
      exact ⟨[], rfl, .closed⟩
    | case2 => cases h
    | case3 depth s ih =>
      obtain ⟨body, rfl, hbody⟩ := ih h
      exact ⟨'#' :: '|' :: body, rfl, .opens hbody⟩
    | case4 depth s ih =>
      obtain ⟨body, rfl, hbody⟩ := ih h
      exact ⟨'|' :: '#' :: body, rfl, .closes hbody⟩
    | case5 depth a s hopen hclose ih =>
      obtain ⟨body, rfl, hbody⟩ := ih h
      refine ⟨a :: body, rfl, .other ?_ ?_ hbody⟩
      · intro hcons
        obtain ⟨u, hcons⟩ := hcons
        cases hcons
        exact hopen (u ++ t) rfl rfl
      · intro hcons
        obtain ⟨u, hcons⟩ := hcons
        cases hcons
        exact hclose (u ++ t) rfl rfl
  · intro h
    obtain ⟨body, rfl, hbody⟩ := h
    induction hbody with
    | closed =>
      rw [List.nil_append]
      unfold skipBlock
      rfl
    | opens _ ih =>
      rw [List.cons_append, List.cons_append, skipBlock]
      exact ih
    | closes _ ih =>
      rw [List.cons_append, List.cons_append, skipBlock]
      exact ih
    | @other depth a s hopen hclose hrest ih =>
      -- the look-ahead stays inside the comment
      obtain ⟨b, u, rfl⟩ := List.exists_cons_of_ne_nil hrest.ne_nil
      rw [List.cons_append, skipBlock]
      · exact ih
      · rintro v rfl hcons
        cases hcons
        exact hopen ⟨u, rfl⟩
      · rintro v rfl hcons
        cases hcons
        exact hclose ⟨u, rfl⟩

theorem head_of_skip (h : skipWhitespaceAndComments s = .ok (a :: t)) :
    isAsciiWhitespace a = false := by
  fun_induction skipWhitespaceAndComments s with
  | case1 => cases h
  | case2 c cs _ ih => exact ih h
  | case3 c cs _ _ ih => exact ih h
  | case4 c cs _ _ _ u hu _ ih => exact ih h
  | case5 => cases h
  | case6 c cs hblank _ _ =>
    cases h
    exact Bool.eq_false_iff.mpr hblank

/-- A blank that begins with a line end goes on behind it. -/
theorem Blank.of_newline (h : Blank ('\n' :: s)) : Blank s := by
  cases h with
  | space _ h => exact h

theorem blank_of_skip (h : skipWhitespaceAndComments s = .ok t) :
    (∃ blank, s = blank ++ t ∧ Blank blank) ∨ t = [] ∧ Trailing s := by
  fun_induction skipWhitespaceAndComments s with
  | case1 =>
    cases h
    exact .inl ⟨[], rfl, .nil⟩
  | case2 c cs hblank ih =>
    rcases ih h with ⟨blank, rfl, hb⟩ | ⟨rfl, hb⟩
    · exact .inl ⟨c :: blank, rfl, .space hblank hb⟩
    · refine .inr ⟨rfl, ?_⟩
      rcases hb with hb | ⟨blank, body, rfl, hblanks, hbody⟩
      · exact .inl (.space hblank hb)
      · exact .inr ⟨c :: blank, body, rfl, .space hblank hblanks, hbody⟩
  | case3 c cs _ hline ih =>
    rw [beq_iff_eq] at hline
    subst hline
    have hbody : '\n' ∉ cs.takeWhile (· != '\n') := by
      intro hmem
      have hne := List.mem_takeWhile_imp hmem
      exact absurd hne (by decide)
    have hwhole : cs = cs.takeWhile (· != '\n') ++ cs.dropWhile (· != '\n') :=
      List.takeWhile_append_dropWhile.symm
    cases hrest : cs.dropWhile (· != '\n') with
    | nil =>
      rw [hrest, skipWhitespaceAndComments] at h
      cases h
      rw [hrest, List.append_nil] at hwhole
      refine .inr ⟨rfl, .inr ⟨[], cs, rfl, .nil, ?_⟩⟩
      rw [hwhole]
      exact hbody
    | cons d rest =>
      have hd : d = '\n' := by
        have hnot := List.head?_dropWhile_not (· != '\n') cs
        rw [hrest] at hnot
        simpa using hnot
      subst hd
      rw [hrest] at hwhole ih h
      rw [hwhole]
      rcases ih h with ⟨blank, hsplit, hb⟩ | ⟨rfl, hb⟩
      · cases blank with
        | nil =>
          rw [List.nil_append] at hsplit
          subst hsplit
          exact absurd (head_of_skip h) (by decide)
        | cons e blank =>
          cases hsplit
          exact .inl ⟨';' :: (_ ++ '\n' :: blank), by simp, .line hbody hb.of_newline⟩
      · refine .inr ⟨rfl, ?_⟩
        rcases hb with hb | ⟨blank, body, hsplit, hblanks, hlast⟩
        · exact .inl (.line hbody hb.of_newline)
        · cases blank with
          | nil => cases hsplit
          | cons e blank =>
            cases hsplit
            exact .inr ⟨';' :: (_ ++ '\n' :: blank), body, by simp,
              .line hbody hblanks.of_newline, hlast⟩
  | case4 c cs _ _ hblock u hu _ ih =>
    rw [Bool.and_eq_true, beq_iff_eq, beq_iff_eq] at hblock
    obtain ⟨rfl, hhead⟩ := hblock
    obtain ⟨v, rfl⟩ := List.head?_eq_some_iff.mp hhead
    obtain ⟨body, hsplit, hbody⟩ := (skipBlock_iff 1 _ _).mp hu
    rw [List.tail_cons] at hsplit
    subst hsplit
    rcases ih h with ⟨blank, rfl, hb⟩ | ⟨rfl, hb⟩
    · exact .inl ⟨'#' :: '|' :: (body ++ blank), by simp, .block hbody hb⟩
    · refine .inr ⟨rfl, ?_⟩
      rcases hb with hb | ⟨blank, last, rfl, hblanks, hlast⟩
      · exact .inl (.block hbody hb)
      · exact .inr ⟨'#' :: '|' :: (body ++ blank), last, by simp, .block hbody hblanks, hlast⟩
  | case5 => cases h
  | case6 c cs _ _ _ =>
    cases h
    exact .inl ⟨[], rfl, .nil⟩

theorem skip_line_body {body : List Char} (h : '\n' ∉ body) (s : List Char) :
    skipWhitespaceAndComments (';' :: (body ++ '\n' :: s)) =
      skipWhitespaceAndComments ('\n' :: s) := by
  have hdrop : (body ++ '\n' :: s).dropWhile (· != '\n') = '\n' :: s := by
    rw [List.dropWhile_append_of_pos, List.dropWhile_cons_of_neg (by decide)]
    intro c hc
    rw [bne_iff_ne]
    rintro rfl
    exact h hc
  conv_lhs => rw [skipWhitespaceAndComments, if_neg (by decide), if_pos (by decide), hdrop]

theorem skip_blank {blank : List Char} (h : Blank blank) (ha : startsToken a = true)
    (s : List Char) : skipWhitespaceAndComments (blank ++ a :: s) = .ok (a :: s) := by
  have hnewline : ∀ u, skipWhitespaceAndComments ('\n' :: u) = skipWhitespaceAndComments u := by
    intro u
    conv_lhs => rw [skipWhitespaceAndComments, if_pos (by decide)]
  induction h with
  | nil =>
    simp only [startsToken, Bool.not_eq_true', Bool.or_eq_false_iff] at ha
    rw [List.nil_append, skipWhitespaceAndComments, ha.1.1, ha.1.2, ha.2, Bool.false_and,
      if_neg Bool.false_ne_true, if_neg Bool.false_ne_true, if_neg Bool.false_ne_true]
  | space hspace _ ih =>
    rw [List.cons_append, skipWhitespaceAndComments, if_pos hspace]
    exact ih
  | line hbody _ ih =>
    rw [List.cons_append, List.append_assoc, List.cons_append, skip_line_body hbody, hnewline]
    exact ih
  | @block body rest hbody _ ih =>
    have hskip := (skipBlock_iff 1 (body ++ (rest ++ a :: s)) (rest ++ a :: s)).mpr
      ⟨body, rfl, hbody⟩
    rw [List.cons_append, List.cons_append, List.append_assoc, skipWhitespaceAndComments,
      if_neg (by decide), if_neg (by decide), if_pos (by rfl)]
    split
    next u hu =>
      rw [List.tail_cons, hskip] at hu
      cases hu
      exact ih
    next hu =>
      rw [List.tail_cons, hskip] at hu
      cases hu

end Airl.Syntax
