import Airl.Syntax.ByteTokens

/-! # What the lexer promises

For every source: it comes to an end without a panic, its tokens cover the source except for blanks,
and they stand for what is written. The exact condition for this names the two ways to fail: a
counter of 32 bits that runs over, and the least integer in hexadecimal or
binary. -/

namespace Airl.Syntax.ByteLexer

open Lexer (maxTokenCount)

variable {c c' : Cursor} {source before s t u xs ys : List Char} {a : Char}

/-! ## Lines and columns -/

/-- The line in which a text ends. -/
def lineOf (text : List Char) : Nat := text.count '\n' + 1

/-- How many bytes of a text stand behind its last line end. -/
def columnOf (text : List Char) : Nat :=
  (Utf8.encode (text.reverse.takeWhile (· != '\n')).reverse).length

/-- Lines and columns can be counted as far as the text goes. -/
def Counted (text : List Char) : Prop :=
  ∀ front, front <+: text → lineOf front < counterBound ∧ columnOf front < counterBound

theorem lineOf_newline (text : List Char) : lineOf (text ++ ['\n']) = lineOf text + 1 := by
  unfold lineOf
  rw [List.count_append, List.count_singleton_self]

theorem lineOf_other (text : List Char) (ha : a ≠ '\n') : lineOf (text ++ [a]) = lineOf text := by
  unfold lineOf
  rw [List.count_append, List.count_singleton, if_neg (by rw [beq_iff_eq]; exact ha)]

theorem columnOf_newline (text : List Char) : columnOf (text ++ ['\n']) = 0 := by
  unfold columnOf
  rw [List.reverse_append, List.reverse_singleton, List.singleton_append,
    List.takeWhile_cons_of_neg (by decide)]
  rfl

theorem columnOf_other (text : List Char) (ha : a ≠ '\n') :
    columnOf (text ++ [a]) = columnOf text + (Utf8.encode [a]).length := by
  unfold columnOf
  rw [List.reverse_append, List.reverse_singleton, List.singleton_append,
    List.takeWhile_cons_of_pos (by rw [bne_iff_ne]; exact ha), List.reverse_cons,
    Utf8.encode_append, List.length_append]

/-- A character more is counted if line and column have room. -/
theorem counted_append_singleton (text : List Char) (a : Char) : Counted (text ++ [a]) ↔
    Counted text ∧ lineOf (text ++ [a]) < counterBound ∧ columnOf (text ++ [a]) < counterBound := by
  constructor
  · intro h
    exact ⟨fun front hfront => h front (hfront.trans (List.prefix_append _ _)),
      h _ (List.prefix_refl _)⟩
  · intro h front hfront
    rcases List.prefix_concat_iff.mp hfront with rfl | hfront
    · exact h.2
    · exact h.1 front hfront

theorem Counted.of_append (h : Counted (xs ++ ys)) : Counted xs := fun front hfront =>
  h front (hfront.trans (List.prefix_append _ _))

theorem counted_nil : Counted [] := by
  intro front hfront
  rw [List.prefix_nil.mp hfront]
  exact ⟨by decide, by decide⟩

theorem advances_plain {bytes rest : List UInt8} (hplain : ∀ b ∈ bytes, asChar b ≠ '\n')
    (hrest : c.rest = bytes ++ rest) (hcol : c.col < counterBound) :
    c.advances bytes.length =
      if c.col + bytes.length < counterBound then
        .ok ⟨rest, c.pos + bytes.length, c.line, c.col + bytes.length⟩
      else .error .panicked := by
  induction bytes generalizing c with
  | nil =>
    rw [List.nil_append] at hrest
    subst hrest
    exact (if_pos hcol).symm
  | cons b bytes ih =>
    have hb := hplain b List.mem_cons_self
    have hstep : c.advance = if c.col + 1 < counterBound then
        .ok ⟨bytes ++ rest, c.pos + 1, c.line, c.col + 1⟩ else .error .panicked := by
      unfold Cursor.advance
      rw [hrest]
      exact if_neg hb
    rw [List.length_cons, Cursor.advances, hstep]
    by_cases hone : c.col + 1 < counterBound
    · rw [if_pos hone, ok_bind, ih (fun b' hb' => hplain b' (List.mem_cons_of_mem b hb')) rfl hone]
      dsimp only
      rw [Nat.add_assoc, Nat.add_assoc, Nat.add_comm 1]
    · rw [if_neg hone, error_bind, if_neg (by omega)]

theorem encode_plain (ha : a ≠ '\n') : ∀ b ∈ Utf8.encode [a], asChar b ≠ '\n' := by
  intro b hb
  rw [Utf8.encode_cons, Utf8.encode_nil, List.append_nil] at hb
  by_cases hlow : a.toNat < 128
  · rw [Utf8.utf8EncodeChar_low (Nat.le_of_lt_succ hlow)] at hb
    rw [List.mem_singleton.mp hb]
    have hchar := asChar_low hlow
    unfold Char.toNat at hchar
    rw [hchar]
    exact ha
  · exact asChar_ne (Utf8.utf8EncodeChar_high (Nat.lt_of_succ_le (Nat.not_lt.mp hlow)) b hb)
      (by decide)

/-! ## Where the lexer stands -/

/-- The lexer has passed `before` and has `rest` ahead. -/
structure Stands (before rest : List Char) (c : Cursor) : Prop where
  ahead : Ahead rest c
  pos : c.pos = (Utf8.encode before).length
  line : c.line = lineOf before
  col : c.col = columnOf before
  counted : Counted before

theorem Stands.start (s : List Char) : Stands [] s (Cursor.new (Utf8.encode s)) :=
  ⟨rfl, rfl, rfl, rfl, counted_nil⟩

/-- Over one character, if its line and column can be counted. -/
theorem Stands.step (h : Stands before (a :: s) c) :
    (Counted (before ++ [a]) → ∃ c', c.past [a] = .ok c' ∧ Stands (before ++ [a]) s c') ∧
      (¬ Counted (before ++ [a]) → c.past [a] = .error .panicked) := by
  have hbefore := h.counted before (List.prefix_refl _)
  have hsplit : c.rest = Utf8.encode [a] ++ Utf8.encode s := by
    rw [h.ahead, ← Utf8.encode_append]
    rfl
  have hpos : c.pos + (Utf8.encode [a]).length = (Utf8.encode (before ++ [a])).length := by
    rw [h.pos, Utf8.encode_append, List.length_append]
  by_cases ha : a = '\n'
  · subst ha
    have hstep : c.past ['\n'] = if c.line + 1 < counterBound then
        .ok ⟨Utf8.encode s, c.pos + 1, c.line + 1, 0⟩ else .error .panicked := by
      rw [past_low (by decide)]
      unfold Cursor.advance
      rw [hsplit]
      rfl
    rw [counted_append_singleton, lineOf_newline, columnOf_newline, hstep, h.line]
    constructor
    · intro hcounted
      refine ⟨_, if_pos hcounted.2.1, rfl, hpos, (lineOf_newline before).symm,
        (columnOf_newline before).symm, ?_⟩
      rw [counted_append_singleton, lineOf_newline, columnOf_newline]
      exact hcounted
    · intro hcounted
      exact if_neg fun hline => hcounted ⟨h.counted, hline, by decide⟩
  · have hcol : c.col < counterBound := by
      rw [h.col]
      exact hbefore.2
    have hstep : c.past [a] = _ := advances_plain (encode_plain ha) hsplit hcol
    rw [counted_append_singleton, lineOf_other before ha, columnOf_other before ha, hstep, h.col]
    constructor
    · intro hcounted
      refine ⟨_, if_pos hcounted.2.2, rfl, hpos, ?_, (columnOf_other before ha).symm, ?_⟩
      · exact h.line.trans (lineOf_other before ha).symm
      · rw [counted_append_singleton, lineOf_other before ha, columnOf_other before ha]
        exact hcounted
    · intro hcounted
      exact if_neg fun hcol => hcounted ⟨h.counted, hbefore.1, hcol⟩

/-- Where the counters have room, the cursor passes the text. -/
theorem Stands.through (h : Stands before (xs ++ ys) c) (hcounted : Counted (before ++ xs)) :
    ∃ c', c.past xs = .ok c' ∧ Stands (before ++ xs) ys c' := by
  induction xs generalizing before c with
  | nil =>
    refine ⟨c, rfl, ?_⟩
    rw [List.append_nil]
    exact h
  | cons a xs ih =>
    have hsplit : before ++ a :: xs = before ++ [a] ++ xs := by
      rw [List.append_assoc, List.singleton_append]
    have hcons : a :: xs = [a] ++ xs := rfl
    rw [hsplit] at hcounted ⊢
    obtain ⟨next, hstep, hnext⟩ := h.step.1 hcounted.of_append
    obtain ⟨c', hpast, hend⟩ := ih hnext hcounted
    refine ⟨c', ?_, hend⟩
    rw [hcons, past_append, hstep, ok_bind]
    exact hpast

/-- Where they have not, it panics. -/
theorem Stands.over (h : Stands before (xs ++ ys) c) (hcounted : ¬ Counted (before ++ xs)) :
    c.past xs = .error .panicked := by
  induction xs generalizing before c with
  | nil =>
    rw [List.append_nil] at hcounted
    exact absurd h.counted hcounted
  | cons a xs ih =>
    have hsplit : before ++ a :: xs = before ++ [a] ++ xs := by
      rw [List.append_assoc, List.singleton_append]
    have hcons : a :: xs = [a] ++ xs := rfl
    rw [hsplit] at hcounted
    rw [hcons, past_append]
    by_cases hone : Counted (before ++ [a])
    · obtain ⟨next, hstep, hnext⟩ := h.step.1 hone
      rw [hstep, ok_bind]
      exact ih hnext hcounted
    · rw [h.step.2 hone, error_bind]

/-- Behind the text the cursor stands in the rest. -/
theorem Stands.past (h : Stands before (xs ++ ys) c) (hpast : c.past xs = .ok c') :
    Stands (before ++ xs) ys c' := by
  by_cases hcounted : Counted (before ++ xs)
  · obtain ⟨next, hnext, hend⟩ := h.through hcounted
    rw [hpast] at hnext
    cases hnext
    exact hend
  · rw [h.over hcounted] at hpast
    cases hpast

/-! ## One token -/

variable (parseFloat : ParseFloat)

/-- Where the lexer stops on its way to the end of the next token. -/
def tokenStop (s : List Char) : List Char :=
  match Lexer.skipWhitespaceAndComments s with
  | .error _ => []
  | .ok [] => []
  | .ok (a :: u) => readStop parseFloat a u

/-- On the way to the end of the next token every counter has room. -/
def Room (source s : List Char) : Prop :=
  ¬ TooDeep s ∧ ∀ front, source = front ++ tokenStop parseFloat s → Counted front

variable {parseFloat} {tok : Token}

/-- Comments nested too deep are a panic. -/
theorem nextToken_deep (h : Ahead s c) (hdeep : TooDeep s) :
    nextToken parseFloat c = .error .panicked := by
  unfold nextToken
  rw [skip_deep (Nat.lt_succ_self _) h hdeep]
  rfl

/-- A comment that is not closed is an error. -/
theorem nextToken_unclosed {e : String} (h : Ahead s c) (hdeep : ¬ TooDeep s)
    (hskip : Lexer.skipWhitespaceAndComments s = .error e) :
    Reads c s (.error e : LexResult Spanned) (nextToken parseFloat c) := by
  have hstop : s = s ++ skipStop s := by
    unfold skipStop
    rw [hskip]
    exact (List.append_nil s).symm
  have hread := skip_reads (Nat.lt_succ_self _) h hdeep hstop
  rw [hskip] at hread
  exact hread.located_error

theorem skip_eq_past (h : Ahead (xs ++ t) c) (hdeep : ¬ TooDeep (xs ++ t))
    (hskip : Lexer.skipWhitespaceAndComments (xs ++ t) = .ok t) :
    skipWhitespaceAndComments (c.rest.length + 1) c = c.past xs := by
  have hstop : xs ++ t = xs ++ skipStop (xs ++ t) := by
    unfold skipStop
    rw [hskip]
    rfl
  have hread := skip_reads (Nat.lt_succ_self _) h hdeep hstop
  rw [hskip] at hread
  exact located_eq hread

theorem nextToken_end (h : Ahead s c) (hdeep : ¬ TooDeep s)
    (hskip : Lexer.skipWhitespaceAndComments s = .ok []) :
    nextToken parseFloat c = c.past s >>= fun c' => .ok (⟨none, spanBetween c' c'⟩, c') := by
  have hnil : s ++ [] = s := List.append_nil s
  rw [← hnil] at h hdeep hskip
  unfold nextToken
  rw [skip_eq_past h hdeep hskip]
  apply past_congr
  intro c' hpast
  rw [if_pos ((h.past hpast).rest_eq_nil.mpr rfl)]
  rfl

theorem nextToken_read {blank : List Char} (h : Ahead (blank ++ a :: u) c)
    (hdeep : ¬ TooDeep (blank ++ a :: u))
    (hskip : Lexer.skipWhitespaceAndComments (blank ++ a :: u) = .ok (a :: u)) :
    nextToken parseFloat c = c.past blank >>= fun start =>
      readToken parseFloat start >>= fun read =>
        .ok (⟨some read.1, spanBetween start read.2⟩, read.2) := by
  unfold nextToken
  rw [skip_eq_past h hdeep hskip]
  apply past_congr
  intro start hpast
  rw [if_neg (h.past hpast).rest_ne_nil]
  rfl

variable (parseFloat) in
/-- What `nextToken` makes of a text whose next token has room. -/
inductive Next (s : List Char) (c : Cursor) : Outcome (Spanned × Cursor) → Prop
  | complaint {e : String} (d : Diagnostic) : Lexer.nextToken parseFloat s = .error e →
      Next s c (.error (.error d))
  | done (c' : Cursor) : Lexer.nextToken parseFloat s = .ok none → Trailing s →
      c.past s = .ok c' → Next s c (.ok (⟨none, spanBetween c' c'⟩, c'))
  | token {blank text rest : List Char} {tok : Token} (start c' : Cursor) :
      Lexer.nextToken parseFloat s = .ok (some (tok, rest)) → s = blank ++ (text ++ rest) →
      Blank blank → text ≠ [] → Denotes text tok → c.past blank = .ok start →
      start.past text = .ok c' → Next s c (.ok (⟨some tok, spanBetween start c'⟩, c'))

/-- One token is read, or the cursor panics on the way. -/
theorem nextToken_reads (h : Ahead s c) (hdeep : ¬ TooDeep s)
    (hs : s = xs ++ tokenStop parseFloat s) :
    (c.past xs = .error .panicked → nextToken parseFloat c = .error .panicked) ∧
      ∀ c', c.past xs = .ok c' → Next parseFloat s c (nextToken parseFloat c) := by
  unfold tokenStop at hs
  cases hskip : Lexer.skipWhitespaceAndComments s with
  | error e =>
    rw [hskip] at hs
    have hxs : xs = s := by
      rw [hs]
      exact (List.append_nil xs).symm
    have hchars : Lexer.nextToken parseFloat s = .error e := by
      unfold Lexer.nextToken
      rw [hskip]
    have hread : Reads c s (.error e : LexResult Spanned) (nextToken parseFloat c) :=
      nextToken_unclosed h hdeep hskip
    rw [hxs]
    refine ⟨hread.overrun, fun c' hpast => ?_⟩
    obtain ⟨d, hfail, -⟩ := hread.ends c' hpast
    rw [hfail]
    exact .complaint d hchars
  | ok v =>
    cases v with
    | nil =>
      rw [hskip] at hs
      have hxs : xs = s := by
        rw [hs]
        exact (List.append_nil xs).symm
      have hchars : Lexer.nextToken parseFloat s = .ok none := by
        unfold Lexer.nextToken
        rw [hskip]
      have htrailing : Trailing s := by
        rcases blank_of_skip hskip with ⟨blank, hsplit, hblank⟩ | ⟨-, htrailing⟩
        · rw [List.append_nil] at hsplit
          exact .inl (hsplit ▸ hblank)
        · exact htrailing
      rw [hxs, nextToken_end h hdeep hskip]
      refine ⟨fun hpast => by rw [hpast]; rfl, fun c' hpast => ?_⟩
      rw [hpast, ok_bind]
      exact .done c' hchars htrailing hpast
    | cons a u =>
      rw [hskip] at hs
      have hblank : ∃ blank, s = blank ++ a :: u ∧ Blank blank := by
        rcases blank_of_skip hskip with hblank | ⟨hnil, -⟩
        · exact hblank
        · cases hnil
      obtain ⟨blank, rfl, hblank⟩ := hblank
      obtain ⟨text, htext⟩ : readStop parseFloat a u <:+ a :: u := suffix_readStop a u
      have hxs : xs = blank ++ text := by
        apply (List.append_left_inj (readStop parseFloat a u)).mp
        rw [List.append_assoc, htext]
        exact hs.symm
      have hread : ∀ start, c.past blank = .ok start →
          Reads start text ((Lexer.readToken parseFloat a u).map Prod.fst)
            (readToken parseFloat start) := fun start hpast =>
        readToken_reads (h.past hpast) htext.symm
      have hchars : Lexer.nextToken parseFloat (blank ++ a :: u) =
          (Lexer.readToken parseFloat a u).map some := by
        unfold Lexer.nextToken
        rw [hskip]
      rw [hxs, nextToken_read h hdeep hskip, past_append]
      constructor
      · intro hpast
        cases hstart : c.past blank with
        | error e => rw [past_error hstart, error_bind]
        | ok start =>
          rw [hstart, ok_bind] at hpast
          rw [ok_bind, (hread start hstart).overrun hpast, error_bind]
      · intro c' hpast
        cases hstart : c.past blank with
        | error e =>
          rw [hstart] at hpast
          cases hpast
        | ok start =>
          rw [hstart, ok_bind] at hpast
          have hend := (hread start hstart).ends c' hpast
          rw [ok_bind]
          cases htoken : Lexer.readToken parseFloat a u with
          | error e =>
            rw [htoken] at hend hchars
            obtain ⟨d, hfail, -⟩ := hend
            rw [hfail]
            exact .complaint d hchars
          | ok p =>
            rw [htoken] at hend hchars
            have hok : readToken parseFloat start = .ok (p.1, c') := hend
            obtain ⟨whole, hwhole, hdenotes⟩ := readToken_denotes htoken
            have hrest : readStop parseFloat a u = p.2 := readStop_of_ok htoken
            rw [hrest] at htext
            have hsame : whole = text := by
              apply (List.append_left_inj p.2).mp
              rw [← hwhole, htext]
            subst hsame
            have hne : whole ≠ [] := by
              rintro rfl
              have hle := (Lexer.suffix_readToken htoken).length_le
              rw [List.nil_append] at hwhole
              rw [← hwhole] at hle
              exact absurd hle (Nat.not_succ_le_self _)
            rw [hok, ok_bind]
            exact .token start c' hchars (by rw [hwhole]) hblank hne hdenotes hstart hpast

/-! ## Whole runs -/

variable (parseFloat)

/-- Behind some tokens, counted on from `n`, the lexer comes to the text `u` as its `m`-th. -/
inductive ComesTo : Nat → List Char → Nat → List Char → Prop
  | here {n : Nat} {s : List Char} : ComesTo n s n s
  | next {n m : Nat} {s rest u : List Char} {tok : Token} :
      Lexer.nextToken parseFloat s = .ok (some (tok, rest)) → n + 1 < maxTokenCount →
      ComesTo (n + 1) rest m u → ComesTo n s m u

/-- The same of the cursor. -/
inductive Reaches : Nat → Cursor → Nat → Cursor → Prop
  | here {n : Nat} {c : Cursor} : Reaches n c n c
  | next {n m : Nat} {c next c' : Cursor} {tok : Token} {span : Span} :
      nextToken parseFloat c = .ok (⟨some tok, span⟩, next) → n + 1 < maxTokenCount →
      Reaches (n + 1) next m c' → Reaches n c m c'

variable {parseFloat}

/-- The tokens cover the text that begins at `pos`: what stands between them is blank, and each
stands for what is written in its span. -/
inductive Covers : Nat → List Char → List Spanned → Prop
  | last {pos : Nat} {trailing : List Char} {span : Span} : Trailing trailing →
      span.start = pos + (Utf8.encode trailing).length → span.end_ = span.start →
      Covers pos trailing [⟨none, span⟩]
  | token {pos : Nat} {blank text rest : List Char} {tok : Token} {span : Span}
      {later : List Spanned} : Blank blank → text ≠ [] → Denotes text tok →
      span.start = pos + (Utf8.encode blank).length →
      span.end_ = span.start + (Utf8.encode text).length → Covers span.end_ rest later →
      Covers pos (blank ++ (text ++ rest)) (⟨some tok, span⟩ :: later)

theorem suffix_tokenStop (s : List Char) : tokenStop parseFloat s <:+ s := by
  unfold tokenStop
  cases hskip : Lexer.skipWhitespaceAndComments s with
  | error e => exact List.nil_suffix
  | ok v =>
    cases v with
    | nil => exact List.nil_suffix
    | cons a u => exact (suffix_readStop a u).trans (Lexer.suffix_skipWhitespaceAndComments hskip)

/-- Where there is room, the next token is what is written. -/
theorem Stands.next (h : Stands before s c) (hsource : source = before ++ s)
    (hroom : Room parseFloat source s) :
    Next parseFloat s c (nextToken parseFloat c) := by
  obtain ⟨xs, hxs⟩ : tokenStop parseFloat s <:+ s := suffix_tokenStop s
  have hcounted : Counted (before ++ xs) := by
    apply hroom.2
    rw [hsource, List.append_assoc, hxs]
  have hahead := h
  rw [← hxs] at hahead
  obtain ⟨c', hpast, -⟩ := hahead.through hcounted
  exact (nextToken_reads h.ahead hroom.1 hxs.symm).2 c' hpast

/-- Where there is none, it is a panic. -/
theorem Stands.next_over (h : Stands before s c) (hsource : source = before ++ s)
    (hroom : ¬ Room parseFloat source s) : nextToken parseFloat c = .error .panicked := by
  by_cases hdeep : TooDeep s
  · exact nextToken_deep h.ahead hdeep
  · obtain ⟨xs, hxs⟩ : tokenStop parseFloat s <:+ s := suffix_tokenStop s
    have hcounted : ¬ Counted (before ++ xs) := by
      intro hcounted
      refine hroom ⟨hdeep, fun front hfront => ?_⟩
      have hsame : front = before ++ xs := by
        apply (List.append_left_inj (tokenStop parseFloat s)).mp
        rw [← hfront, hsource, List.append_assoc, hxs]
      exact hsame ▸ hcounted
    have hahead := h
    rw [← hxs] at hahead
    exact (nextToken_reads h.ahead hdeep hxs.symm).1 (hahead.over hcounted)

/-- Behind a token the cursor stands in the rest. -/
theorem Stands.behind {blank text rest : List Char} {start : Cursor}
    (h : Stands before (blank ++ (text ++ rest)) c) (hblank : c.past blank = .ok start)
    (htext : start.past text = .ok c') : Stands (before ++ (blank ++ text)) rest c' := by
  rw [← List.append_assoc]
  exact (h.past hblank).past htext

theorem Stands.length_behind {blank text rest : List Char} {next : List Char}
    (h : Stands before (blank ++ (text ++ rest)) c) (hend : Stands next rest c') (hne : text ≠ []) :
    c'.rest.length < c.rest.length := by
  rw [h.ahead, hend.ahead]
  cases text with
  | nil => exact absurd rfl hne
  | cons a text =>
    have hsuffix : a :: (text ++ rest) <:+ blank ++ (a :: text ++ rest) := List.suffix_append _ _
    have hle := length_encode_sublist hsuffix.sublist
    have hlt := length_encode_lt a (text ++ rest)
    have hrest := length_encode_sublist (List.suffix_append text rest).sublist
    omega

/-- Where there is room, the tokens cover the text, by induction on the fuel. -/
theorem lexFrom_covers {fuel n : Nat} (h : Stands before s c) (hsource : source = before ++ s)
    (hfuel : c.rest.length < fuel)
    (hroom : ∀ m u, ComesTo parseFloat n s m u → Room parseFloat source u) :
    (∃ d, lexFrom parseFloat fuel n c = .error (.error d)) ∨
      ∃ toks, lexFrom parseFloat fuel n c = .ok toks ∧ Covers c.pos s toks := by
  induction fuel generalizing before s c n with
  | zero => exact absurd hfuel (Nat.not_lt_zero _)
  | succ fuel ih =>
    have hnext := h.next hsource (hroom n s .here)
    rw [lexFrom]
    cases hread : nextToken parseFloat c with
    | error stop =>
      rw [hread] at hnext
      cases hnext with
      | complaint d _ => exact .inl ⟨d, rfl⟩
    | ok p =>
      rw [hread] at hnext
      cases hnext with
      | done c' hchars htrailing hpast =>
        have hahead := h
        rw [← List.append_nil s] at hahead
        have hpos := hahead.ahead.pos hpast
        exact .inr ⟨_, rfl, .last htrailing hpos rfl⟩
      | @token blank text rest tok start c' hchars hsplit hblank hne hdenotes hstart hpast =>
        subst hsplit
        by_cases hlimit : maxTokenCount ≤ n + 1
        · exact .inl ⟨_, if_pos hlimit⟩
        · have hbehind := h.behind hstart hpast
          have hposStart := h.ahead.pos hstart
          have hposEnd := (h.ahead.past hstart).pos hpast
          have hlater := ih hbehind (by rw [hsource]; simp only [List.append_assoc])
            (Nat.lt_of_lt_of_le (h.length_behind hbehind hne) (Nat.le_of_lt_succ hfuel))
            (fun m u hcomes => hroom m u (.next hchars (Nat.lt_of_not_le hlimit) hcomes))
          rw [ok_bind]
          dsimp only
          rw [if_neg hlimit]
          rcases hlater with ⟨d, hfail⟩ | ⟨later, hlater, hcovers⟩
          · exact .inl ⟨d, by rw [hfail]; rfl⟩
          · refine .inr ⟨⟨some tok, spanBetween start c'⟩ :: later, by rw [hlater]; rfl, ?_⟩
            exact .token hblank hne hdenotes hposStart hposEnd hcovers

/-- Where there is none, the lexer panics. -/
theorem lexFrom_over {fuel n m : Nat} (h : Stands before s c) (hsource : source = before ++ s)
    (hfuel : c.rest.length < fuel) (hcomes : ComesTo parseFloat n s m u)
    (hroom : ¬ Room parseFloat source u) :
    lexFrom parseFloat fuel n c = .error .panicked := by
  induction hcomes generalizing before c fuel with
  | here =>
    obtain ⟨fuel, rfl⟩ := exists_fuel hfuel
    rw [lexFrom, h.next_over hsource hroom]
    rfl
  | @next n m s rest u tok hchars hlimit _ ih =>
    obtain ⟨fuel, rfl⟩ := exists_fuel hfuel
    rw [lexFrom]
    by_cases hhere : Room parseFloat source s
    · have hnext := h.next hsource hhere
      cases hread : nextToken parseFloat c with
      | error stop =>
        rw [hread] at hnext
        cases hnext with
        | complaint d herror =>
          rw [hchars] at herror
          cases herror
      | ok p =>
        rw [hread] at hnext
        cases hnext with
        | done c' hend _ _ =>
          rw [hchars] at hend
          cases hend
        | @token blank text rest' tok' start c' hok hsplit hblank hne hdenotes hstart hpast =>
          rw [hchars] at hok
          cases hok
          subst hsplit
          have hbehind := h.behind hstart hpast
          have hlater := ih hbehind (by rw [hsource]; simp only [List.append_assoc])
            (Nat.lt_of_lt_of_le (h.length_behind hbehind hne) (Nat.le_of_lt_succ hfuel)) hroom
          rw [ok_bind]
          dsimp only
          rw [if_neg (Nat.not_le.mpr hlimit), hlater]
          rfl
    · rw [h.next_over hsource hhere]
      rfl

/-- The lexer comes to where a token begins. -/
theorem reaches_of_comesTo {n m : Nat} (h : Stands before s c) (hsource : source = before ++ s)
    (hroom : ∀ m u, ComesTo parseFloat n s m u → Room parseFloat source u)
    (hcomes : ComesTo parseFloat n s m u) :
    ∃ c', Reaches parseFloat n c m c' ∧ Ahead u c' := by
  induction hcomes generalizing before c with
  | here => exact ⟨c, .here, h.ahead⟩
  | @next n m s rest u tok hchars hlimit _ ih =>
    have hnext := h.next hsource (hroom n s .here)
    cases hread : nextToken parseFloat c with
    | error stop =>
      rw [hread] at hnext
      cases hnext with
      | complaint d herror =>
        rw [hchars] at herror
        cases herror
    | ok p =>
      rw [hread] at hnext
      cases hnext with
      | done c' hend _ _ =>
        rw [hchars] at hend
        cases hend
      | @token blank text rest' tok' start c' hok hsplit hblank hne hdenotes hstart hpast =>
        rw [hchars] at hok
        cases hok
        subst hsplit
        obtain ⟨last, hreaches, hahead⟩ := ih (h.behind hstart hpast)
          (by rw [hsource]; simp only [List.append_assoc])
          (fun m u hcomes => hroom m u (.next hchars hlimit hcomes))
        exact ⟨last, .next hread hlimit hreaches, hahead⟩

/-- And a token begins where it comes to. -/
theorem comesTo_of_reaches {n m : Nat} (h : Stands before s c) (hsource : source = before ++ s)
    (hroom : ∀ m u, ComesTo parseFloat n s m u → Room parseFloat source u)
    (hreaches : Reaches parseFloat n c m c') :
    ∃ front u, ComesTo parseFloat n s m u ∧ source = front ++ u ∧ Stands front u c' := by
  induction hreaches generalizing before s with
  | here => exact ⟨before, s, .here, hsource, h⟩
  | @next n m c next c' tok span hread hlimit _ ih =>
    have hnext := h.next hsource (hroom n s .here)
    rw [hread] at hnext
    cases hnext with
    | @token blank text rest _ start _ hchars hsplit hblank hne hdenotes hstart hpast =>
      subst hsplit
      obtain ⟨front, u, hcomes, hwhole, hstands⟩ := ih (h.behind hstart hpast)
        (by rw [hsource]; simp only [List.append_assoc])
        (fun m u hcomes => hroom m u (.next hchars hlimit hcomes))
      exact ⟨front, u, .next hchars hlimit hcomes, hwhole, hstands⟩

/-! ## The law -/

/-- The lexer reads the token in front of the text `rest`. -/
def ReadsAs (parseFloat : ParseFloat) (c : Cursor) (tok : Token) (rest : List Char) : Prop :=
  ∃ span c', nextToken parseFloat c = .ok (⟨some tok, span⟩, c') ∧ c'.rest = Utf8.encode rest

/-- What is promised of every source. -/
structure LexerLaw (parseFloat : ParseFloat) (source : List Char) : Prop where
  /-- no panic, and no loop without an end -/
  returns : ∀ stop, lexAll parseFloat (Utf8.encode source) = .error stop → ∃ d, stop = .error d
  covers : ∀ toks, lexAll parseFloat (Utf8.encode source) = .ok toks → Covers 0 source toks
  /-- an integer literal is accepted if its value fits, and then denotes it -/
  integers : ∀ m c, Reaches parseFloat 0 (Cursor.new (Utf8.encode source)) m c →
    ∀ (blank : List Char) (lit : IntLiteral) (rest : List Char),
      c.rest = Utf8.encode (blank ++ (lit.text ++ rest)) → Blank blank → lit.EndsBefore rest →
        ∀ n : Int64, ReadsAs parseFloat c (.integer n) rest ↔ n.toInt = lit.value

/-- The next token is the least integer in hexadecimal or binary. -/
def StartsRadixMin (s : List Char) : Prop :=
  ∃ (blank : List Char) (lit : IntLiteral) (rest : List Char), s = blank ++ (lit.text ++ rest) ∧
    Blank blank ∧ lit.EndsBefore rest ∧ lit.IsRadixMin

theorem startsNumber_text (lit : IntLiteral) (rest : List Char) :
    ∃ a u, lit.text ++ rest = a :: u ∧ startsNumber a u = true := by
  obtain ⟨negative, base, mark, digits, hmark, hne, hdigits⟩ := lit
  -- the first character behind the sign is a digit
  have hhead : ∃ d t, mark ++ digits ++ rest = d :: t ∧ d.isDigit = true := by
    cases base with
    | decimal =>
      obtain rfl : mark = [] := List.mem_singleton.mp hmark
      obtain ⟨d, ds, rfl⟩ := List.exists_cons_of_ne_nil hne
      exact ⟨d, ds ++ rest, rfl, hdigits d List.mem_cons_self⟩
    | hex =>
      have hcases : mark = ['0', 'x'] ∨ mark = ['0', 'X'] := by
        simpa only [Base.marks, List.mem_cons, List.not_mem_nil, or_false] using hmark
      rcases hcases with rfl | rfl
      all_goals exact ⟨'0', _, rfl, by decide⟩
    | binary =>
      have hcases : mark = ['0', 'b'] ∨ mark = ['0', 'B'] := by
        simpa only [Base.marks, List.mem_cons, List.not_mem_nil, or_false] using hmark
      rcases hcases with rfl | rfl
      all_goals exact ⟨'0', _, rfl, by decide⟩
  obtain ⟨d, t, hcons, hd⟩ := hhead
  unfold IntLiteral.text startsNumber
  dsimp only
  cases negative with
  | true =>
    refine ⟨'-', d :: t, ?_, ?_⟩
    · rw [List.append_assoc, hcons]
      rfl
    · rw [List.head?_cons, Option.any_some, hd]
      rfl
  | false =>
    refine ⟨d, t, ?_, ?_⟩
    · rw [List.append_assoc, hcons]
      rfl
    · rw [hd, Bool.true_or]

/-- A literal is the next token behind blanks. -/
theorem nextToken_literal {blank rest : List Char} (lit : IntLiteral) (hblank : Blank blank)
    (hrest : lit.EndsBefore rest) :
    Lexer.nextToken parseFloat (blank ++ (lit.text ++ rest)) =
      if lit.Fits ∧ ¬ lit.IsRadixMin then .ok (some (.integer (Int64.ofInt lit.value), rest))
      else .error lit.complaint := by
  have hread : Lexer.lexNumber parseFloat (lit.text ++ rest) = _ := lit.lexNumber_literal hrest
  obtain ⟨a, u, hcons, hstart⟩ := startsNumber_text lit rest
  rw [hcons] at hread ⊢
  have hstarts : startsToken a = true := by
    rcases startsNumber_cases hstart with hdigit | ⟨d, t, rfl, -, -⟩
    · unfold startsToken
      have hspace : Lexer.isAsciiWhitespace a = false := by
        unfold Lexer.isAsciiWhitespace
        simp only [Bool.or_eq_false_iff, beq_eq_false_iff_ne]
        refine ⟨⟨⟨⟨?_, ?_⟩, ?_⟩, ?_⟩, ?_⟩
        all_goals
          rintro rfl
          exact absurd hdigit (by decide)
      have hline : a ≠ ';' := by
        rintro rfl
        exact absurd hdigit (by decide)
      have hblock : a ≠ '#' := by
        rintro rfl
        exact absurd hdigit (by decide)
      rw [hspace, beq_eq_false_iff_ne.mpr hline, beq_eq_false_iff_ne.mpr hblock]
      rfl
    · decide
  unfold Lexer.nextToken
  rw [skip_blank hblank hstarts]
  dsimp only
  rw [readToken_number hstart, hread]
  split
  next => rfl
  next => rfl

/-- The lexer reads a literal as its value just if it fits and is no least integer. -/
theorem readsAs_iff {blank rest : List Char} (lit : IntLiteral)
    (h : Stands before (blank ++ (lit.text ++ rest)) c)
    (hsource : source = before ++ (blank ++ (lit.text ++ rest)))
    (hroom : Room parseFloat source (blank ++ (lit.text ++ rest))) (hblank : Blank blank)
    (hrest : lit.EndsBefore rest) (n : Int64) :
    ReadsAs parseFloat c (.integer n) rest ↔ ¬ lit.IsRadixMin ∧ n.toInt = lit.value := by
  have hchars : Lexer.nextToken parseFloat (blank ++ (lit.text ++ rest)) = _ :=
    nextToken_literal lit hblank hrest
  have hnext := h.next hsource hroom
  rw [toInt_eq_iff]
  constructor
  · intro hreads
    obtain ⟨span, c', hread, hahead⟩ := hreads
    rw [hread] at hnext
    cases hnext with
    | token start _ hok hsplit _ _ _ _ _ =>
      rw [hchars] at hok
      by_cases hyes : lit.Fits ∧ ¬ lit.IsRadixMin
      · rw [if_pos hyes] at hok
        cases hok
        exact ⟨hyes.2, hyes.1, rfl⟩
      · rw [if_neg hyes] at hok
        cases hok
  · intro hyes
    obtain ⟨hmin, hfits, rfl⟩ := hyes
    rw [if_pos ⟨hfits, hmin⟩] at hchars
    cases hread : nextToken parseFloat c with
    | error stop =>
      rw [hread] at hnext
      cases hnext with
      | complaint d herror =>
        rw [hchars] at herror
        cases herror
    | ok p =>
      rw [hread] at hnext
      cases hnext with
      | done c' hend _ _ =>
        rw [hchars] at hend
        cases hend
      | token start c' hok hsplit _ _ _ hstart hpast =>
        rw [hchars] at hok
        cases hok
        rw [hsplit] at h
        exact ⟨_, c', hread, (h.behind hstart hpast).ahead⟩

/-- The lexer keeps the law on a source if and only if, wherever a token begins, its counters have
room up to the end of that token and the token is not the least integer in hexadecimal or
binary. -/
theorem lexer_exact (parseFloat : ParseFloat) (source : List Char) :
    LexerLaw parseFloat source ↔ ∀ m u, ComesTo parseFloat 0 source m u →
      Room parseFloat source u ∧ ¬ StartsRadixMin u := by
  have hstart := Stands.start source
  have hfuel : (Cursor.new (Utf8.encode source)).rest.length < (Utf8.encode source).length + 1 :=
    Nat.lt_succ_self _
  constructor
  · intro hlaw
    have hroom : ∀ m u, ComesTo parseFloat 0 source m u → Room parseFloat source u := by
      intro m u hcomes
      by_contra hroom
      have hpanic := lexFrom_over hstart rfl hfuel hcomes hroom
      obtain ⟨d, hd⟩ := hlaw.returns _ hpanic
      cases hd
    refine fun m u hcomes => ⟨hroom m u hcomes, fun hmin => ?_⟩
    obtain ⟨c, hreaches, hahead⟩ := reaches_of_comesTo hstart rfl hroom hcomes
    obtain ⟨front, u', -, hwhole, hstands⟩ := comesTo_of_reaches hstart rfl hroom hreaches
    have hsame : u' = u := Utf8.encode_injective (hstands.ahead.symm.trans hahead)
    subst hsame
    obtain ⟨blank, lit, rest, rfl, hblank, hrest, hmin⟩ := hmin
    have hreads := (hlaw.integers m c hreaches blank lit rest hahead hblank hrest
      (Int64.ofInt lit.value)).mpr ((toInt_eq_iff lit _).mpr ⟨by
        unfold IntLiteral.Fits
        rw [hmin.2]
        decide, rfl⟩)
    exact ((readsAs_iff lit hstands hwhole (hroom m _ hcomes) hblank hrest _).mp hreads).1 hmin
  · intro h
    have hroom := fun m u hcomes => (h m u hcomes).1
    have hrun := lexFrom_covers hstart rfl hfuel hroom
    constructor
    · intro stop hstop
      rcases hrun with ⟨d, hfail⟩ | ⟨toks, hok, -⟩
      · exact ⟨d, Except.error.inj (hstop.symm.trans hfail)⟩
      · cases hstop.symm.trans hok
    · intro toks htoks
      rcases hrun with ⟨d, hfail⟩ | ⟨toks', hok, hcovers⟩
      · cases htoks.symm.trans hfail
      · have hsame : toks = toks' := Except.ok.inj (htoks.symm.trans hok)
        exact hsame ▸ hcovers
    · intro m c hreaches blank lit rest hahead hblank hrest n
      obtain ⟨front, u, hcomes, hwhole, hstands⟩ := comesTo_of_reaches hstart rfl hroom hreaches
      have hsame : u = blank ++ (lit.text ++ rest) :=
        Utf8.encode_injective (hstands.ahead.symm.trans hahead)
      subst hsame
      have hmin : ¬ lit.IsRadixMin := fun hmin =>
        (h m _ hcomes).2 ⟨blank, lit, rest, rfl, hblank, hrest, hmin⟩
      rw [readsAs_iff lit hstands hwhole (hroom m _ hcomes) hblank hrest n]
      exact and_iff_right hmin

/-- The least integer, with sixteen digits. -/
def hexMin : IntLiteral where
  negative := true
  base := .hex
  mark := ['0', 'x']
  digits := "8000000000000000".toList
  mark_mem := by decide
  digits_ne := by decide
  digits_all := List.all_eq_true.mp rfl

/-- The lexer refuses `-0x8000000000000000`, a value of `i64`. -/
theorem lexer_refuses_min : ¬ LexerLaw (fun _ => none) "-0x8000000000000000".toList := by
  intro hlaw
  have hsource : "-0x8000000000000000".toList = [] ++ (hexMin.text ++ []) := by decide
  have hends : hexMin.EndsBefore [] := fun c hc => by cases hc
  have hreads := (hlaw.integers 0 _ .here [] hexMin [] (by rw [hsource]; rfl) .nil hends
    Int64.minValue).mpr (by decide)
  have hstart := Stands.start "-0x8000000000000000".toList
  rw [hsource] at hreads hstart
  by_cases hroom : Room (fun _ => none) ([] ++ (hexMin.text ++ [])) ([] ++ (hexMin.text ++ []))
  · exact ((readsAs_iff hexMin hstart rfl hroom .nil hends _).mp hreads).1 (by decide)
  · obtain ⟨span, c', hread, -⟩ := hreads
    cases hread.symm.trans (hstart.next_over rfl hroom)

end Airl.Syntax.ByteLexer
