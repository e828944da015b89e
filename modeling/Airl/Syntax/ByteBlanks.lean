import Airl.Syntax.ByteRuns
import Airl.Syntax.Lexing

/-! # The byte lexer skips blanks and comments

On the bytes of a text it skips what the lexer on characters skips. It panics where a counter runs
over, the one of the block comments included, and nowhere else.
-/

namespace Airl.Syntax.ByteLexer

open Lexer (isAsciiWhitespace)

variable {c c' : Cursor} {s t xs ys : List Char} {a : Char}

/-- The reader of a block comment meets more opened ones than it can count. -/
def blockDeep : Nat → List Char → Bool
  | 0, _ => false
  | _ + 1, [] => false
  | depth + 1, '#' :: '|' :: s => decide (counterBound ≤ depth + 2) || blockDeep (depth + 2) s
  | depth + 1, '|' :: '#' :: s => blockDeep depth s
  | depth + 1, _ :: s => blockDeep (depth + 1) s

/-- The bytes of a longer character open and close nothing. -/
theorem skipBlock_high (start : Cursor) (fuel depth : Nat) {bytes rest : List UInt8}
    (hbytes : ∀ b ∈ bytes, 128 ≤ b.toNat) (hrest : c.rest = bytes ++ rest) :
    skipBlock start (fuel + bytes.length) (depth + 1) c =
      c.advances bytes.length >>= skipBlock start fuel (depth + 1) := by
  induction bytes generalizing c with
  | nil => rfl
  | cons b bytes ih =>
    have hhigh := hbytes b List.mem_cons_self
    have hne : ∀ d : Char, d.toNat < 128 → c.peekAt 0 ≠ some d := by
      intro d hd heq
      unfold Cursor.peekAt at heq
      rw [hrest, List.cons_append, List.getElem?_cons_zero, Option.map_some] at heq
      have hchar := congrArg Char.toNat (Option.some.inj heq)
      rw [toNat_asChar] at hchar
      omega
    have hsome : c.rest ≠ [] := by
      rw [hrest]
      exact List.cons_ne_nil _ _
    rw [List.length_cons, ← Nat.add_assoc, skipBlock, if_neg (Nat.succ_ne_zero _),
      if_neg hsome, if_neg fun h => hne '#' (by decide) h.1,
      if_neg fun h => hne '|' (by decide) h.1, Cursor.advances, bind_assoc]
    cases hstep : c.advance with
    | error e => rfl
    | ok next =>
      rw [ok_bind, ok_bind]
      exact ih (fun b' hb' => hbytes b' (List.mem_cons_of_mem b hb'))
        (advance_ok hrest hstep).1

theorem skipBlock_other (start : Cursor) (depth : Nat) {fuel : Nat} (hfuel : c.rest.length < fuel)
    (h : Ahead (a :: s) c) (hopens : ¬ ∃ t, a :: s = '#' :: '|' :: t)
    (hcloses : ¬ ∃ t, a :: s = '|' :: '#' :: t) :
    ∃ fuel', (∀ c', c.past [a] = .ok c' → c'.rest.length < fuel') ∧
      skipBlock start fuel (depth + 1) c = c.past [a] >>= skipBlock start fuel' (depth + 1) := by
  by_cases ha : a.toNat < 128
  · obtain ⟨fuel, rfl⟩ := exists_fuel hfuel
    refine ⟨fuel, fun c' hpast => h.shorter (h.tail hpast) hfuel, ?_⟩
    rw [skipBlock, if_neg (Nat.succ_ne_zero _), if_neg h.rest_ne_nil,
      if_neg fun hpeek => hopens ((h.peek_two (by decide) (by decide)).mp hpeek),
      if_neg fun hpeek => hcloses ((h.peek_two (by decide) (by decide)).mp hpeek), past_low ha]
  · -- its bytes are passed one by one
    have hbytes := Utf8.utf8EncodeChar_high (Nat.lt_of_succ_le (Nat.not_lt.mp ha))
    have hsplit : c.rest = String.utf8EncodeChar a ++ Utf8.encode s := by
      rw [h, Utf8.encode_cons]
    have hlength := congrArg List.length hsplit
    rw [List.length_append] at hlength
    obtain ⟨more, hmore⟩ := Nat.exists_eq_add_of_le
      (show (String.utf8EncodeChar a).length ≤ fuel by omega)
    rw [Nat.add_comm] at hmore
    subst hmore
    refine ⟨more, fun c' hpast => ?_, ?_⟩
    · rw [h.tail hpast]
      omega
    · have hone : (Utf8.encode [a]).length = (String.utf8EncodeChar a).length := by
        rw [Utf8.encode_cons, Utf8.encode_nil, List.append_nil]
      unfold Cursor.past
      rw [hone]
      exact skipBlock_high start more depth hbytes hsplit

theorem skipBlock_opens (start : Cursor) {fuel depth : Nat} (h : Ahead ('#' :: '|' :: s) c)
    (hdepth : depth + 2 < counterBound) :
    skipBlock start (fuel + 1) (depth + 1) c =
      c.past ['#', '|'] >>= skipBlock start fuel (depth + 2) := by
  rw [skipBlock, if_neg (Nat.succ_ne_zero _), if_neg h.rest_ne_nil,
    if_pos ((h.peek_two (by decide) (by decide)).mpr ⟨s, rfl⟩), if_pos hdepth,
    past_two (x := '#') (y := '|') (by decide) (by decide)]

theorem skipBlock_closes (start : Cursor) {fuel depth : Nat} (h : Ahead ('|' :: '#' :: s) c) :
    skipBlock start (fuel + 1) (depth + 1) c =
      c.past ['|', '#'] >>= skipBlock start fuel depth := by
  have hopens : ¬ (c.peekAt 0 = some '#' ∧ c.peekAt 1 = some '|') := by
    rw [h.peek_two (by decide) (by decide)]
    intro hcons
    obtain ⟨t, hcons⟩ := hcons
    exact absurd (List.cons.inj hcons).1 (by decide)
  rw [skipBlock, if_neg (Nat.succ_ne_zero _), if_neg h.rest_ne_nil, if_neg hopens,
    if_pos ((h.peek_two (by decide) (by decide)).mpr ⟨s, rfl⟩),
      past_two (x := '|') (y := '#') (by decide) (by decide)]
  rfl

theorem Ahead.shorter_two {b : Char} (h : Ahead (a :: b :: s) c) {fuel : Nat}
    (hfuel : c.rest.length < fuel + 1) (hpast : c.past [a, b] = .ok c') :
    Ahead s c' ∧ c'.rest.length < fuel := by
  have hat : Ahead s c' := @Ahead.past _ _ [a, b] _ h hpast
  have houter := length_encode_lt a (b :: s)
  have hinner := length_encode_lt b s
  rw [h] at hfuel
  refine ⟨hat, ?_⟩
  rw [hat]
  omega

theorem skipBlock_deep (start : Cursor) {depth fuel : Nat} (hfuel : c.rest.length < fuel)
    (h : Ahead s c) (hdeep : blockDeep depth s = true) :
    skipBlock start fuel depth c = .error .panicked := by
  fun_induction blockDeep depth s generalizing c fuel with
  | case1 s => cases hdeep
  | case2 depth => cases hdeep
  | case3 depth s ih =>
    obtain ⟨fuel, rfl⟩ := exists_fuel hfuel
    by_cases hdepth : depth + 2 < counterBound
    · rw [Bool.or_eq_true, decide_eq_true_eq] at hdeep
      have hinside := hdeep.resolve_left (Nat.not_le.mpr hdepth)
      rw [skipBlock_opens start h hdepth]
      apply past_panics
      intro c' hpast
      obtain ⟨hat, hshorter⟩ := h.shorter_two hfuel hpast
      exact ih hshorter hat hinside
    · rw [skipBlock, if_neg (Nat.succ_ne_zero _), if_neg h.rest_ne_nil,
        if_pos ((h.peek_two (by decide) (by decide)).mpr ⟨s, rfl⟩), if_neg hdepth]
  | case4 depth s ih =>
    obtain ⟨fuel, rfl⟩ := exists_fuel hfuel
    rw [skipBlock_closes start h]
    apply past_panics
    intro c' hpast
    obtain ⟨hat, hshorter⟩ := h.shorter_two hfuel hpast
    exact ih hshorter hat hdeep
  | case5 depth a s hopen hclose ih =>
    obtain ⟨fuel', hshorter, hrun⟩ := skipBlock_other start depth hfuel h
      (fun hcons => by
        obtain ⟨t, hcons⟩ := hcons
        exact hopen t (List.cons.inj hcons).1 (List.cons.inj hcons).2)
      (fun hcons => by
        obtain ⟨t, hcons⟩ := hcons
        exact hclose t (List.cons.inj hcons).1 (List.cons.inj hcons).2)
    rw [hrun]
    apply past_panics
    intro c' hpast
    exact ih (hshorter c' hpast) (h.tail hpast) hdeep

theorem split_front (front : List Char) {rest : List Char} (h : front ++ s = xs ++ rest)
    (hrest : rest <:+ s) :
    ∃ ys, xs = front ++ ys ∧ s = ys ++ rest := by
  obtain ⟨ys, rfl⟩ := hrest
  refine ⟨ys, ?_, rfl⟩
  rw [← List.append_assoc] at h
  exact (List.append_cancel_right h).symm

/-- Where the reader of a block comment stops. -/
def blockStop (depth : Nat) (s : List Char) : List Char := (Lexer.skipBlock depth s).getD []

def blockResult (r : Option (List Char)) : LexResult Unit :=
  if r.isSome then .ok () else .error "unterminated block comment"

theorem suffix_blockStop (depth : Nat) (s : List Char) : blockStop depth s <:+ s := by
  unfold blockStop
  cases hskip : Lexer.skipBlock depth s with
  | none => exact List.nil_suffix
  | some t => exact Lexer.suffix_skipBlock hskip

theorem skipBlock_reads (start : Cursor) {depth fuel : Nat} (hfuel : c.rest.length < fuel)
    (h : Ahead s c) (hdeep : blockDeep depth s = false) (hs : s = xs ++ blockStop depth s) :
    Reads c xs (blockResult (Lexer.skipBlock depth s))
      (located (skipBlock start fuel depth c)) := by
  unfold blockStop at hs
  fun_induction Lexer.skipBlock depth s generalizing c fuel xs with
  | case1 s =>
    obtain ⟨fuel, rfl⟩ := exists_fuel hfuel
    have hnil : xs = [] := List.self_eq_append_left.mp hs
    rw [hnil, skipBlock, if_pos rfl]
    exact Reads.pure () c
  | case2 depth =>
    obtain ⟨fuel, rfl⟩ := exists_fuel hfuel
    have hnil : xs = [] := List.self_eq_append_left.mp hs
    rw [hnil, skipBlock, if_neg (Nat.succ_ne_zero _), if_pos (h.rest_eq_nil.mpr rfl)]
    exact Reads.fail _ _ c
  | case3 depth s ih =>
    obtain ⟨fuel, rfl⟩ := exists_fuel hfuel
    rw [blockDeep, Bool.or_eq_false_iff, decide_eq_false_iff_not, Nat.not_le] at hdeep
    obtain ⟨ys, rfl, hys⟩ :=
      split_front ['#', '|'] hs (suffix_blockStop (depth + 2) s)
    rw [skipBlock_opens start h hdeep.1, ByteLexer.located_bind]
    apply Reads.past
    intro c' hpast
    obtain ⟨hat, hshorter⟩ := h.shorter_two hfuel hpast
    exact ih hshorter hat hdeep.2 hys
  | case4 depth s ih =>
    obtain ⟨fuel, rfl⟩ := exists_fuel hfuel
    rw [blockDeep] at hdeep
    obtain ⟨ys, rfl, hys⟩ := split_front ['|', '#'] hs (suffix_blockStop depth s)
    rw [skipBlock_closes start h, ByteLexer.located_bind]
    apply Reads.past
    intro c' hpast
    obtain ⟨hat, hshorter⟩ := h.shorter_two hfuel hpast
    exact ih hshorter hat hdeep hys
  | case5 depth a s hopen hclose ih =>
    have hopens : ¬ ∃ t, a :: s = '#' :: '|' :: t := by
      intro hcons
      obtain ⟨t, hcons⟩ := hcons
      exact hopen t (List.cons.inj hcons).1 (List.cons.inj hcons).2
    have hcloses : ¬ ∃ t, a :: s = '|' :: '#' :: t := by
      intro hcons
      obtain ⟨t, hcons⟩ := hcons
      exact hclose t (List.cons.inj hcons).1 (List.cons.inj hcons).2
    obtain ⟨fuel', hshorter, hrun⟩ :=
      skipBlock_other start depth hfuel h hopens hcloses
    rw [blockDeep] at hdeep
    · obtain ⟨ys, rfl, hys⟩ := split_front [a] hs (suffix_blockStop (depth + 1) s)
      rw [hrun, ByteLexer.located_bind]
      apply Reads.past
      intro c' hpast
      exact ih (hshorter c' hpast) (h.tail hpast) hdeep hys
    · exact hopen
    · exact hclose

theorem skip_dropWhile (s : List Char) :
    Lexer.skipWhitespaceAndComments s =
      Lexer.skipWhitespaceAndComments (s.dropWhile isAsciiWhitespace) := by
  induction s with
  | nil => rfl
  | cons a s ih =>
    rw [List.dropWhile_cons]
    split
    next hblank =>
      rw [← ih]
      conv_lhs => rw [Lexer.skipWhitespaceAndComments, if_pos hblank]
    next => rfl

theorem skip_line (s : List Char) :
    Lexer.skipWhitespaceAndComments (';' :: s) =
      Lexer.skipWhitespaceAndComments (s.dropWhile (· != '\n')) := by
  conv_lhs => rw [Lexer.skipWhitespaceAndComments, if_neg (by decide), if_pos (by decide)]

theorem skip_block (s : List Char) :
    Lexer.skipWhitespaceAndComments ('#' :: '|' :: s) =
      match Lexer.skipBlock 1 s with
      | some t => Lexer.skipWhitespaceAndComments t
      | none => .error "unterminated block comment" := by
  conv_lhs => rw [Lexer.skipWhitespaceAndComments, if_neg (by decide), if_neg (by decide)]
  rw [if_pos (by rfl)]
  split
  next t heq =>
    have hblock : Lexer.skipBlock 1 s = some t := heq
    rw [hblock]
  next heq =>
    have hblock : Lexer.skipBlock 1 s = none := heq
    rw [hblock]

theorem skip_token {a : Char} (hblank : isAsciiWhitespace a = false) (hline : a ≠ ';')
    (hblock : ¬ ∃ t, a :: s = '#' :: '|' :: t) :
    Lexer.skipWhitespaceAndComments (a :: s) = .ok (a :: s) := by
  rw [Lexer.skipWhitespaceAndComments, if_neg (by rw [hblank]; decide), if_neg, if_neg]
  · intro h
    rw [Bool.and_eq_true, beq_iff_eq, beq_iff_eq] at h
    obtain ⟨rfl, hhead⟩ := h
    obtain ⟨t, rfl⟩ := List.head?_eq_some_iff.mp hhead
    exact hblock ⟨t, rfl⟩
  · rw [beq_iff_eq]
    exact hline

/-- Before the next token the lexer comes to a block comment with `inside` behind its opening. -/
inductive MeetsBlock : List Char → List Char → Prop
  | here {inside : List Char} : MeetsBlock ('#' :: '|' :: inside) inside
  | space {b : Char} {text inside : List Char} : isAsciiWhitespace b = true →
      MeetsBlock text inside → MeetsBlock (b :: text) inside
  | line {text inside : List Char} : MeetsBlock (text.dropWhile (· != '\n')) inside →
      MeetsBlock (';' :: text) inside
  | behind {text rest inside : List Char} : Lexer.skipBlock 1 text = some rest →
      MeetsBlock rest inside → MeetsBlock ('#' :: '|' :: text) inside

theorem meetsBlock_dropWhile (s : List Char) :
    MeetsBlock s t ↔ MeetsBlock (s.dropWhile isAsciiWhitespace) t := by
  induction s with
  | nil => rfl
  | cons a s ih =>
    rw [List.dropWhile_cons]
    split
    next hblank =>
      rw [← ih]
      constructor
      · intro h
        cases h with
        | here => exact absurd hblank (by decide)
        | space _ h => exact h
        | line h => exact absurd hblank (by decide)
        | behind _ h => exact absurd hblank (by decide)
      · exact .space hblank
    next => rfl

/-- A comment in front of the next token is nested too deep to be counted. -/
def TooDeep (s : List Char) : Prop := ∃ t, MeetsBlock s t ∧ blockDeep 1 t = true

/-- Where the lexer stops on its way to a token. -/
def skipStop (s : List Char) : List Char := (Lexer.skipWhitespaceAndComments s).toOption.getD []

theorem suffix_skipStop (s : List Char) : skipStop s <:+ s := by
  unfold skipStop
  cases hskip : Lexer.skipWhitespaceAndComments s with
  | error e => exact List.nil_suffix
  | ok t => exact Lexer.suffix_skipWhitespaceAndComments hskip

/-- Behind white space there is a line comment, a block comment or neither. -/
theorem blank_cases (u : List Char) :
    (∃ v, u = ';' :: v) ∨ (∃ v, u = '#' :: '|' :: v) ∨
      (u.head? ≠ some ';' ∧ ¬ ∃ v, u = '#' :: '|' :: v) := by
  by_cases hline : u.head? = some ';'
  · exact .inl (List.head?_eq_some_iff.mp hline)
  · by_cases hblock : ∃ v, u = '#' :: '|' :: v
    · exact .inr (.inl hblock)
    · exact .inr (.inr ⟨hline, hblock⟩)

theorem head_dropWhile (s : List Char) :
    ∀ b ∈ (s.dropWhile isAsciiWhitespace).head?, isAsciiWhitespace b = false := by
  intro b hb
  have hnot := List.head?_dropWhile_not isAsciiWhitespace s
  rw [Option.mem_def.mp hb] at hnot
  simpa using hnot

section Turns

variable {fuel : Nat} {v : List Char}

theorem Ahead.blanks (h : Ahead s c) (hpast : c.past (s.takeWhile isAsciiWhitespace) = .ok c') :
    Ahead (s.dropWhile isAsciiWhitespace) c' := by
  apply @Ahead.past _ _ (s.takeWhile isAsciiWhitespace) _ _ hpast
  rw [List.takeWhile_append_dropWhile]
  exact h

theorem skip_turn_line (h : Ahead s c) (hu : s.dropWhile isAsciiWhitespace = ';' :: v) :
    skipWhitespaceAndComments (fuel + 1) c =
      c.past (s.takeWhile isAsciiWhitespace ++ ';' :: v.takeWhile (· != '\n')) >>=
        skipWhitespaceAndComments fuel := by
  rw [skipWhitespaceAndComments, advanceWhile_eq uniform_isAsciiWhitespace h]
  apply past_past
  intro c' hpast
  have hat := h.blanks hpast
  rw [hu] at hat
  rw [if_pos ((hat.peek (by decide)).mpr rfl), advanceWhile_eq uniform_notNewline hat,
    List.takeWhile_cons_of_pos (by decide)]

theorem skip_turn_block (h : Ahead s c) (hu : s.dropWhile isAsciiWhitespace = '#' :: '|' :: v) :
    skipWhitespaceAndComments (fuel + 1) c =
      c.past (s.takeWhile isAsciiWhitespace) >>= fun opening =>
        opening.past ['#', '|'] >>= fun inside =>
          skipBlock opening (inside.rest.length + 1) 1 inside >>=
            skipWhitespaceAndComments fuel := by
  rw [skipWhitespaceAndComments, advanceWhile_eq uniform_isAsciiWhitespace h]
  apply past_congr
  intro c' hpast
  have hat := h.blanks hpast
  rw [hu] at hat
  have hline : c'.peekAt 0 ≠ some ';' := by
    intro hpeek
    have hhead := (hat.peek (by decide)).mp hpeek
    exact absurd (Option.some.inj hhead) (by decide)
  rw [if_neg hline, if_pos ((hat.peek_two (by decide) (by decide)).mpr ⟨v, rfl⟩),
    past_two (x := '#') (y := '|') (by decide) (by decide)]

theorem skip_turn_token (h : Ahead s c)
    (hline : (s.dropWhile isAsciiWhitespace).head? ≠ some ';')
    (hblock : ¬ ∃ v, s.dropWhile isAsciiWhitespace = '#' :: '|' :: v) :
    skipWhitespaceAndComments (fuel + 1) c = c.past (s.takeWhile isAsciiWhitespace) := by
  have hpure : c.past (s.takeWhile isAsciiWhitespace) =
      c.past (s.takeWhile isAsciiWhitespace) >>= Except.ok := by
    cases c.past (s.takeWhile isAsciiWhitespace) with
    | error e => rfl
    | ok next => rfl
  rw [skipWhitespaceAndComments, advanceWhile_eq uniform_isAsciiWhitespace h]
  conv_rhs => rw [hpure]
  apply past_congr
  intro c' hpast
  have hat := h.blanks hpast
  rw [if_neg fun hpeek => hline ((hat.peek (by decide)).mp hpeek),
    if_neg fun hpeek => hblock ((hat.peek_two (by decide) (by decide)).mp hpeek)]
  rfl

theorem turn_shorter {b : Char} {rest : List Char} (h : Ahead s c)
    (hu : s.dropWhile isAsciiWhitespace = b :: v) (hrest : rest <:+ v) (hat : Ahead rest c')
    (hfuel : c.rest.length < fuel + 1) : c'.rest.length < fuel := by
  have hle := length_encode_sublist hrest.sublist
  have hlt := length_encode_lt b v
  have hall := length_encode_sublist (List.dropWhile_sublist (l := s) isAsciiWhitespace)
  rw [hu] at hall
  rw [h] at hfuel
  rw [hat]
  omega

/-- A blank and a comment, passed on the way to what is behind them. -/
theorem turn_ahead {comment rest : List Char} (h : Ahead s c)
    (hu : s.dropWhile isAsciiWhitespace = comment ++ rest)
    (hpast : c.past (s.takeWhile isAsciiWhitespace ++ comment) = .ok c') : Ahead rest c' := by
  apply Ahead.past _ hpast
  rw [List.append_assoc, ← hu, List.takeWhile_append_dropWhile]
  exact h

theorem skip_turn_deep (h : Ahead s c) (hu : s.dropWhile isAsciiWhitespace = '#' :: '|' :: v)
    (hdeep : blockDeep 1 v = true) :
    skipWhitespaceAndComments (fuel + 1) c = .error .panicked := by
  rw [skip_turn_block h hu]
  apply past_panics
  intro opening hpast
  have hat := h.blanks hpast
  rw [hu] at hat
  apply past_panics
  intro inside hopen
  have hatInside : Ahead v inside := @Ahead.past _ _ ['#', '|'] _ hat hopen
  rw [skipBlock_deep opening (Nat.lt_succ_self _) hatInside hdeep]
  rfl

theorem skip_turn_closed {body rest : List Char} (h : Ahead s c)
    (hu : s.dropWhile isAsciiWhitespace = '#' :: '|' :: (body ++ rest))
    (hdeep : blockDeep 1 (body ++ rest) = false)
    (hskip : Lexer.skipBlock 1 (body ++ rest) = some rest) :
    skipWhitespaceAndComments (fuel + 1) c =
      c.past (s.takeWhile isAsciiWhitespace ++ '#' :: '|' :: body) >>=
        skipWhitespaceAndComments fuel := by
  rw [skip_turn_block h hu]
  apply past_past
  intro opening hpast
  have hat := h.blanks hpast
  rw [hu] at hat
  have hcomment : '#' :: '|' :: body = ['#', '|'] ++ body := rfl
  rw [hcomment]
  apply past_past
  intro inside hinside
  have hatInside : Ahead (body ++ rest) inside := @Ahead.past _ _ ['#', '|'] _ hat hinside
  have hstop : body ++ rest = body ++ blockStop 1 (body ++ rest) := by
    unfold blockStop
    rw [hskip]
    rfl
  have hblock := skipBlock_reads opening (Nat.lt_succ_self _) hatInside hdeep hstop
  rw [hskip] at hblock
  rw [located_eq hblock]

theorem skip_turn_open (h : Ahead s c) (hu : s.dropWhile isAsciiWhitespace = '#' :: '|' :: v)
    (hdeep : blockDeep 1 v = false) (hskip : Lexer.skipBlock 1 v = none) :
    Reads c s (.error "unterminated block comment" : LexResult Unit)
      (located (skipWhitespaceAndComments (fuel + 1) c)) := by
  have hwhole : s = s.takeWhile isAsciiWhitespace ++ (['#', '|'] ++ v) := by
    conv_lhs => rw [← List.takeWhile_append_dropWhile (p := isAsciiWhitespace) (l := s), hu]
    rfl
  rw [skip_turn_block h hu, located_bind]
  conv => arg 2; rw [hwhole]
  apply Reads.past
  intro opening hpast
  have hat := h.blanks hpast
  rw [hu] at hat
  rw [located_bind]
  apply Reads.past
  intro inside hinside
  have hatInside : Ahead v inside := @Ahead.past _ _ ['#', '|'] _ hat hinside
  have hstop : v = v ++ blockStop 1 v := by
    unfold blockStop
    rw [hskip, Option.getD_none, List.append_nil]
  have hblock := skipBlock_reads opening (Nat.lt_succ_self _) hatInside hdeep hstop
  rw [hskip] at hblock
  rw [located_bind]
  exact hblock.located_error

end Turns

theorem not_tooDeep_of (h : ¬ TooDeep s)
    (himp : ∀ inside, MeetsBlock t inside → MeetsBlock s inside) : ¬ TooDeep t := by
  intro hdeep
  obtain ⟨inside, hmeets, hdeep⟩ := hdeep
  exact h ⟨inside, himp inside hmeets, hdeep⟩

theorem skipStop_congr
    (h : Lexer.skipWhitespaceAndComments s = Lexer.skipWhitespaceAndComments t) :
    skipStop s = skipStop t := by
  unfold skipStop
  rw [h]

theorem skip_here (hblank : ∀ b ∈ s.head?, isAsciiWhitespace b = false)
    (hline : s.head? ≠ some ';') (hblock : ¬ ∃ v, s = '#' :: '|' :: v) :
    Lexer.skipWhitespaceAndComments s = .ok s := by
  cases s with
  | nil => rw [Lexer.skipWhitespaceAndComments]
  | cons b s =>
    apply skip_token (hblank b rfl) _ hblock
    rintro rfl
    exact hline rfl

theorem skip_deep {fuel : Nat} (hfuel : c.rest.length < fuel) (h : Ahead s c)
    (hdeep : TooDeep s) : skipWhitespaceAndComments fuel c = .error .panicked := by
  induction fuel generalizing s c with
  | zero => exact absurd hfuel (Nat.not_lt_zero _)
  | succ fuel ih =>
    obtain ⟨inside, hmeets, hdeep⟩ := hdeep
    rw [meetsBlock_dropWhile] at hmeets
    have hblank := head_dropWhile s
    cases hu : s.dropWhile isAsciiWhitespace with
    | nil =>
      rw [hu] at hmeets
      cases hmeets
    | cons b u =>
      rw [hu] at hmeets hblank
      cases hmeets with
      | here => exact skip_turn_deep h hu hdeep
      | space hspace _ => exact absurd hspace (by rw [hblank b rfl]; decide)
      | line hmeets =>
        rw [skip_turn_line h hu]
        apply past_panics
        intro c' hpast
        have hat : Ahead (u.dropWhile (· != '\n')) c' := by
          apply turn_ahead h _ hpast
          rw [hu, List.cons_append, List.takeWhile_append_dropWhile]
        exact ih (turn_shorter h hu (List.dropWhile_suffix _) hat hfuel) hat
          ⟨inside, hmeets, hdeep⟩
      | @behind v rest _ hskip hmeets =>
        cases hfirst : blockDeep 1 v with
        | true => exact skip_turn_deep h hu hfirst
        | false =>
          have hrest : rest <:+ '|' :: v :=
            (Lexer.suffix_skipBlock hskip).trans (List.suffix_cons _ _)
          obtain ⟨body, rfl⟩ := Lexer.suffix_skipBlock hskip
          rw [skip_turn_closed h hu hfirst hskip]
          apply past_panics
          intro c' hpast
          have hat : Ahead rest c' := turn_ahead h hu hpast
          exact ih (turn_shorter h hu hrest hat hfuel) hat ⟨inside, hmeets, hdeep⟩

theorem skip_reads {fuel : Nat} (hfuel : c.rest.length < fuel) (h : Ahead s c)
    (hdeep : ¬ TooDeep s) (hs : s = xs ++ skipStop s) :
    Reads c xs ((Lexer.skipWhitespaceAndComments s).map fun _ => ())
      (located (skipWhitespaceAndComments fuel c)) := by
  induction fuel generalizing s c xs with
  | zero => exact absurd hfuel (Nat.not_lt_zero _)
  | succ fuel ih =>
    have hblank := head_dropWhile s
    have hwhole : s.takeWhile isAsciiWhitespace ++ s.dropWhile isAsciiWhitespace = s :=
      List.takeWhile_append_dropWhile
    have hmeets := fun inside hm => (meetsBlock_dropWhile (t := inside) s).mpr hm
    rw [skipStop_congr (skip_dropWhile s)] at hs
    rw [skip_dropWhile]
    rcases blank_cases (s.dropWhile isAsciiWhitespace) with ⟨v, hu⟩ | ⟨v, hu⟩ | ⟨hline, hblock⟩
    · rw [hu] at hs hmeets hwhole ⊢
      rw [skipStop_congr (skip_line v)] at hs
      obtain ⟨ys, hys⟩ := suffix_skipStop (v.dropWhile (· != '\n'))
      have hxs : xs = s.takeWhile isAsciiWhitespace ++ ';' :: v.takeWhile (· != '\n') ++ ys := by
        apply (List.append_left_inj (skipStop (v.dropWhile (· != '\n')))).mp
        rw [← hs, List.append_assoc _ ys, hys, List.append_assoc, List.cons_append,
          List.takeWhile_append_dropWhile, hwhole]
      rw [skip_line, skip_turn_line h hu, hxs, located_bind]
      apply Reads.past
      intro c' hpast
      have hat : Ahead (v.dropWhile (· != '\n')) c' := by
        apply turn_ahead h _ hpast
        rw [hu, List.cons_append, List.takeWhile_append_dropWhile]
      exact ih (turn_shorter h hu (List.dropWhile_suffix _) hat hfuel) hat
        (not_tooDeep_of hdeep fun inside hm => hmeets inside (.line hm)) hys.symm
    · rw [hu] at hs hmeets hwhole ⊢
      have hshallow : blockDeep 1 v = false := by
        rw [Bool.eq_false_iff]
        exact fun hfirst => hdeep ⟨v, hmeets v .here, hfirst⟩
      cases hskip : Lexer.skipBlock 1 v with
      | none =>
        have herror : Lexer.skipWhitespaceAndComments ('#' :: '|' :: v) =
            .error "unterminated block comment" := by
          rw [skip_block, hskip]
        have hstop : skipStop ('#' :: '|' :: v) = [] := by
          unfold skipStop
          rw [herror]
          rfl
        rw [hstop, List.append_nil] at hs
        rw [herror, ← hs]
        exact skip_turn_open h hu hshallow hskip
      | some rest =>
        have hskips : Lexer.skipWhitespaceAndComments ('#' :: '|' :: v) =
            Lexer.skipWhitespaceAndComments rest := by
          rw [skip_block, hskip]
        have hrest : rest <:+ '|' :: v :=
          (Lexer.suffix_skipBlock hskip).trans (List.suffix_cons _ _)
        rw [skipStop_congr hskips] at hs
        obtain ⟨body, rfl⟩ := Lexer.suffix_skipBlock hskip
        obtain ⟨ys, hys⟩ := suffix_skipStop rest
        have hxs : xs = s.takeWhile isAsciiWhitespace ++ '#' :: '|' :: body ++ ys := by
          apply (List.append_left_inj (skipStop rest)).mp
          rw [← hs, List.append_assoc _ ys, hys, List.append_assoc, List.cons_append,
            List.cons_append, hwhole]
        rw [hskips, skip_turn_closed h hu hshallow hskip, hxs, located_bind]
        apply Reads.past
        intro c' hpast
        have hat : Ahead rest c' := turn_ahead h hu hpast
        exact ih (turn_shorter h hu hrest hat hfuel) hat
          (not_tooDeep_of hdeep fun inside hm => hmeets inside (.behind hskip hm)) hys.symm
    · have hhere := skip_here hblank hline hblock
      have hstop : skipStop (s.dropWhile isAsciiWhitespace) = s.dropWhile isAsciiWhitespace := by
        unfold skipStop
        rw [hhere]
        rfl
      have hxs : xs = s.takeWhile isAsciiWhitespace := by
        apply (List.append_left_inj (s.dropWhile isAsciiWhitespace)).mp
        rw [hwhole]
        conv_rhs => rw [hs, hstop]
      rw [hhere, skip_turn_token h hline hblock, hxs]
      exact Reads.located_past _ c

end Airl.Syntax.ByteLexer
