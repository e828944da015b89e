import Airl.Parser.Forms
import Airl.Syntax.ByteLexer
import Airl.Syntax.SExpr

/-! # S-expressions with their positions

`sexpr.rs` as it runs: over tokens with spans, of which one may be the end of the file. Without the
spans it is the parser on plain tokens, applied to what stands before the end of the file.
-/

namespace Airl.Parser.Reader

open Airl.Syntax (Token LexResult Rest maxParseDepth)
open Airl.Syntax.ByteLexer (Spanned)

/-- The tokens behind an expression. -/
abbrev Behind (ts : List Spanned) := {rest : List Spanned // rest.length < ts.length}

/-- `{:?}` of a token that is no atom. -/
def debugKind : Option Token → String
  | some .lparen => "LParen"
  | some .rparen => "RParen"
  | some .lbracket => "LBracket"
  | some .rbracket => "RBracket"
  | some .comma => "Comma"
  | _ => "Eof"

def tokenToAtom (token : Spanned) : Except Diagnostic (AtomKind × Span) :=
  match token.kind with
  | some (.integer n) => .ok (.integer n, token.span)
  | some (.float bits) => .ok (.float bits, token.span)
  | some (.str s) => .ok (.str (String.ofList s), token.span)
  | some (.symbol s) => .ok (.symbol (String.ofList s), token.span)
  | some (.keyword s) => .ok (.keyword (String.ofList s), token.span)
  | some (.bool b) => .ok (.bool b, token.span)
  | some .nil => .ok (.nil, token.span)
  | some .arrow => .ok (.arrow, token.span)
  | some (.version a b c) => .ok (.version a b c, token.span)
  | some .colon => .ok (.symbol ":", token.span)
  | other => .error (.error ("unexpected token: " ++ debugKind other) token.span)

/-- The items up to the closing token, each read by `item`, and the span of that token. -/
def parseList (item : (ts : List Spanned) → Except Diagnostic (SExpr × Behind ts)) (close : Token)
    (startSpan : Span) (ts : List Spanned) :
    Except Diagnostic (List SExpr × Span × Behind ts) :=
  match ts with
  | [] => .error (.error "unclosed delimiter" startSpan)
  | t :: ts =>
    if t.kind = none then .error (.error "unclosed delimiter" startSpan)
    else if t.kind = some .comma then
      match parseList item close startSpan ts with
      | .error e => .error e
      | .ok (items, span, ⟨rest, h⟩) => .ok (items, span, ⟨rest, Nat.lt_succ_of_lt h⟩)
    else if t.kind = some close then .ok ([], t.span, ⟨ts, Nat.lt_succ_self _⟩)
    else
      match item (t :: ts) with
      | .error e => .error e
      | .ok (first, ⟨next, h⟩) =>
        match parseList item close startSpan next with
        | .error e => .error e
        | .ok (items, span, ⟨rest, h'⟩) =>
          .ok (first :: items, span, ⟨rest, Nat.lt_trans h' h⟩)
termination_by ts.length
decreasing_by
  · exact Nat.lt_succ_self _
  · exact h

/-- One expression, of at most `levels` levels. -/
def parseSexpr (levels : Nat) (ts : List Spanned) : Except Diagnostic (SExpr × Behind ts) :=
  match levels, ts with
  | 0, ts =>
    .error (.error ("maximum nesting depth exceeded (" ++ toString maxParseDepth ++ ")")
      ((ts.head?.map Spanned.span).getD Span.dummy))
  | _ + 1, [] => .error (.error "unexpected end of input" Span.dummy)
  | levels + 1, t :: ts =>
    if t.kind = some .lparen then
      match parseList (parseSexpr levels) .rparen t.span ts with
      | .error e => .error e
      | .ok (items, span, ⟨rest, h⟩) =>
        .ok (.list items (t.span.merge span), ⟨rest, Nat.lt_succ_of_lt h⟩)
    else if t.kind = some .lbracket then
      match parseList (parseSexpr levels) .rbracket t.span ts with
      | .error e => .error e
      | .ok (items, span, ⟨rest, h⟩) =>
        .ok (.bracketList items (t.span.merge span), ⟨rest, Nat.lt_succ_of_lt h⟩)
    else
      match tokenToAtom t with
      | .error e => .error e
      | .ok (kind, span) => .ok (.atom kind span, ⟨ts, Nat.lt_succ_self _⟩)

/-- `parse_sexpr_all`. -/
def parseSexprAll (ts : List Spanned) : Except Diagnostic (List SExpr) :=
  match ts with
  | [] => .ok []
  | t :: ts =>
    if t.kind = none then .ok []
    else
      match parseSexpr (maxParseDepth + 1) (t :: ts) with
      | .error e => .error e
      | .ok (expr, ⟨rest, _⟩) => (parseSexprAll rest).map (expr :: ·)
termination_by ts.length
decreasing_by assumption

def eraseKind : AtomKind → Syntax.AtomKind
  | .integer n => .integer n
  | .float bits => .float bits
  | .str s => .str s.toList
  | .symbol s => .symbol s.toList
  | .keyword s => .keyword s.toList
  | .bool b => .bool b
  | .nil => .nil
  | .arrow => .arrow
  | .version a b c => .version a b c

mutual

def erase : SExpr → Syntax.SExpr
  | .atom kind _ => .atom (eraseKind kind)
  | .list items _ => .list (eraseList items)
  | .bracketList items _ => .bracketList (eraseList items)

def eraseList : List SExpr → List Syntax.SExpr
  | [] => []
  | e :: es => erase e :: eraseList es

end

/-- The tokens before the end of the file. -/
def kinds : List Spanned → List Token
  | [] => []
  | t :: ts =>
    match t.kind with
    | none => []
    | some tok => tok :: kinds ts

variable {ts : List Spanned} {us : List Token}

theorem kinds_cons {t : Spanned} {tok : Token} (h : t.kind = some tok) (ts : List Spanned) :
    kinds (t :: ts) = tok :: kinds ts := by
  rw [kinds, h]

theorem kinds_eof {t : Spanned} (h : t.kind = none) (ts : List Spanned) : kinds (t :: ts) = [] := by
  rw [kinds, h]

/-- What a parser returns, without positions. -/
def outcome (r : Except Diagnostic (SExpr × Behind ts)) : Option (Syntax.SExpr × List Token) :=
  r.toOption.map fun p => (erase p.1, kinds p.2.1)

def plainOutcome (r : LexResult (Syntax.SExpr × Rest us)) : Option (Syntax.SExpr × List Token) :=
  r.toOption.map fun p => (p.1, p.2.1)

def outcomeList (r : Except Diagnostic (List SExpr × Span × Behind ts)) :
    Option (List Syntax.SExpr × List Token) :=
  r.toOption.map fun p => (eraseList p.1, kinds p.2.2.1)

def plainOutcomeList (r : LexResult (List Syntax.SExpr × Rest us)) :
    Option (List Syntax.SExpr × List Token) :=
  r.toOption.map fun p => (p.1, p.2.1)

/-- Two results that agree as options both fail or both succeed. -/
theorem alike_cases {α β γ ε δ : Type} {r : Except ε α} {s : Except δ β} {f : α → γ} {g : β → γ}
    (h : r.toOption.map f = s.toOption.map g) :
    (∃ e e', r = .error e ∧ s = .error e') ∨ ∃ a b, r = .ok a ∧ s = .ok b ∧ f a = g b := by
  cases r with
  | error e =>
    cases s with
    | error e' => exact .inl ⟨e, e', rfl, rfl⟩
    | ok b => cases h
  | ok a =>
    cases s with
    | error e' => cases h
    | ok b => exact .inr ⟨a, b, rfl, rfl, Option.some.inj h⟩

/-- The list parser with spans does what the one without does, if its items do. -/
theorem parseList_erase
    {item : (ts : List Spanned) → Except Diagnostic (SExpr × Behind ts)}
    {plainItem : (us : List Token) → LexResult (Syntax.SExpr × Rest us)} {close : Token}
    {startSpan : Span} (hitem : ∀ ts, outcome (item ts) = plainOutcome (plainItem (kinds ts)))
    (ts : List Spanned) :
    outcomeList (parseList item close startSpan ts) =
      plainOutcomeList (Syntax.parseList plainItem close (kinds ts)) := by
  induction hn : ts.length using Nat.strongRecOn generalizing ts with
  | _ n ih =>
    subst hn
    cases ts with
    | nil =>
      rw [parseList, kinds, Syntax.parseList]
      rfl
    | cons t ts =>
      cases hkind : t.kind with
      | none =>
        rw [parseList, if_pos hkind, kinds_eof hkind, Syntax.parseList]
        rfl
      | some tok =>
        have hsome : ¬ t.kind = none := by
          rw [hkind]
          exact Option.some_ne_none tok
        have hitems := hitem (t :: ts)
        rw [kinds_cons hkind] at hitems ⊢
        rw [parseList, if_neg hsome, Syntax.parseList, hkind]
        simp only [Option.some.injEq]
        by_cases hcomma : tok = .comma
        · rw [if_pos hcomma, if_pos hcomma]
          rcases alike_cases (ih ts.length (Nat.lt_succ_self _) ts rfl) with
            ⟨e, e', hr, hs⟩ | ⟨a, b, hr, hs, hsame⟩
          · rw [hr, hs]
            rfl
          · rw [hr, hs]
            exact congrArg some hsame
        · rw [if_neg hcomma, if_neg hcomma]
          by_cases hclose : tok = close
          · rw [if_pos hclose, if_pos hclose]
            rfl
          · rw [if_neg hclose, if_neg hclose]
            rcases alike_cases hitems with
              ⟨e, e', hr, hs⟩ | ⟨⟨first, next, hnext⟩, ⟨first', next', hnext'⟩, hr, hs, hsame⟩
            · rw [hr, hs]
              rfl
            · rw [hr, hs]
              obtain ⟨hfirst, hkinds⟩ := Prod.mk.inj hsame
              dsimp only at hfirst hkinds ⊢
              subst hkinds
              rcases alike_cases (ih next.length hnext next rfl) with
                ⟨e, e', hr', hs'⟩ | ⟨a, b, hr', hs', hsame'⟩
              · rw [hr', hs']
                rfl
              · rw [hr', hs']
                obtain ⟨hitems', hrest⟩ := Prod.mk.inj hsame'
                simp only [outcomeList, plainOutcomeList, Except.toOption, Option.map_some,
                  eraseList, hfirst, hitems', hrest]

/-- So does the parser of an atom. -/
theorem tokenToAtom_erase {t : Spanned} {tok : Token} (h : t.kind = some tok) :
    (tokenToAtom t).toOption.map (fun p => eraseKind p.1) = (Syntax.tokenToAtom tok).toOption := by
  cases tok
  all_goals simp [tokenToAtom, h, eraseKind, Syntax.tokenToAtom, Except.toOption]

/-- And the parser of an expression, at every nesting that is left. -/
theorem parseSexpr_erase (levels : Nat) (ts : List Spanned) :
    outcome (parseSexpr levels ts) = plainOutcome (Syntax.parseSexpr levels (kinds ts)) := by
  induction levels generalizing ts with
  | zero =>
      rw [parseSexpr, Syntax.parseSexpr]
      rfl
  | succ levels ih =>
    cases ts with
    | nil =>
      rw [parseSexpr, kinds, Syntax.parseSexpr]
      rfl
    | cons t ts =>
      cases hkind : t.kind with
      | none =>
        rw [kinds_eof hkind, parseSexpr, Syntax.parseSexpr, if_neg (by rw [hkind]; decide),
          if_neg (by rw [hkind]; decide), tokenToAtom, hkind]
        rfl
      | some tok =>
        rw [kinds_cons hkind, parseSexpr, Syntax.parseSexpr, hkind]
        simp only [Option.some.injEq]
        by_cases hparen : tok = .lparen
        · rw [if_pos hparen, if_pos hparen]
          rcases alike_cases (@parseList_erase _ _ .rparen t.span ih ts) with
            ⟨e, e', hr, hs⟩ | ⟨a, b, hr, hs, hsame⟩
          · rw [hr, hs]
            rfl
          · rw [hr, hs]
            obtain ⟨hitems, hrest⟩ := Prod.mk.inj hsame
            simp only [outcome, plainOutcome, Except.toOption, Option.map_some, erase,
              hitems, hrest]
        · rw [if_neg hparen, if_neg hparen]
          by_cases hbracket : tok = .lbracket
          · rw [if_pos hbracket, if_pos hbracket]
            rcases alike_cases (@parseList_erase _ _ .rbracket t.span ih ts) with
              ⟨e, e', hr, hs⟩ | ⟨a, b, hr, hs, hsame⟩
            · rw [hr, hs]
              rfl
            · rw [hr, hs]
              obtain ⟨hitems, hrest⟩ := Prod.mk.inj hsame
              simp only [outcome, plainOutcome, Except.toOption, Option.map_some, erase,
                hitems, hrest]
          · rw [if_neg hbracket, if_neg hbracket]
            have hatom := tokenToAtom_erase hkind
            cases hr : tokenToAtom t with
            | error e =>
              rw [hr] at hatom
              cases hs : Syntax.tokenToAtom tok with
              | error e' => rfl
              | ok kind =>
                rw [hs] at hatom
                cases hatom
            | ok a =>
              rw [hr] at hatom
              cases hs : Syntax.tokenToAtom tok with
              | error e' =>
                rw [hs] at hatom
                cases hatom
              | ok kind =>
                rw [hs] at hatom
                cases hatom
                rfl

/-- And that of a whole file: spans do not matter to what is read. -/
theorem parseSexprAll_erase (ts : List Spanned) :
    (parseSexprAll ts).toOption.map eraseList = (Syntax.parseSexprAll (kinds ts)).toOption := by
  induction hn : ts.length using Nat.strongRecOn generalizing ts with
  | _ n ih =>
    subst hn
    cases ts with
    | nil =>
      rw [parseSexprAll, kinds, Syntax.parseSexprAll]
      rfl
    | cons t ts =>
      cases hkind : t.kind with
      | none =>
        rw [parseSexprAll, if_pos hkind, kinds_eof hkind, Syntax.parseSexprAll]
        rfl
      | some tok =>
        have hsome : ¬ t.kind = none := by
          rw [hkind]
          exact Option.some_ne_none tok
        have hfirst := parseSexpr_erase (maxParseDepth + 1) (t :: ts)
        rw [kinds_cons hkind] at hfirst ⊢
        rw [parseSexprAll, if_neg hsome, Syntax.parseSexprAll]
        rcases alike_cases hfirst with
          ⟨e, e', hr, hs⟩ | ⟨⟨first, next, hnext⟩, ⟨first', next', hnext'⟩, hr, hs, hsame⟩
        · rw [hr, hs]
          rfl
        · rw [hr, hs]
          obtain ⟨hfirst, hkinds⟩ := Prod.mk.inj hsame
          dsimp only at hfirst hkinds ⊢
          subst hkinds
          have hlater := ih next.length hnext next rfl
          cases hr' : parseSexprAll next with
          | error e =>
            rw [hr'] at hlater
            cases hs' : Syntax.parseSexprAll (kinds next) with
            | error e' => rfl
            | ok more =>
              rw [hs'] at hlater
              cases hlater
          | ok items =>
            rw [hr'] at hlater
            cases hs' : Syntax.parseSexprAll (kinds next) with
            | error e' =>
              rw [hs'] at hlater
              cases hlater
            | ok more =>
              rw [hs'] at hlater
              have hmore := Option.some.inj hlater
              simp only [Except.map, Except.toOption, Option.map_some, eraseList, hfirst,
                hmore]

end Airl.Parser.Reader
