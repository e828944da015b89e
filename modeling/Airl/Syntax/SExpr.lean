import Airl.Syntax.Lexer

/-! # S-expressions

`sexpr.rs`: the tokens of a text are parsed into nested lists of atoms, at most
a thousand levels deep. Source positions are left out.
-/

namespace Airl.Syntax

inductive AtomKind where
  | integer (n : Int64)
  | float (bits : UInt64)
  | str (s : List Char)
  | symbol (s : List Char)
  | keyword (s : List Char)
  | bool (b : Bool)
  | nil
  | arrow
  | version (major minor patch : Nat)
  deriving DecidableEq, Repr

inductive SExpr where
  | atom (kind : AtomKind)
  | list (items : List SExpr)
  | bracketList (items : List SExpr)
  deriving Repr, Inhabited

namespace SExpr

def asSymbol : SExpr → Option (List Char)
  | atom (.symbol s) => some s
  | _ => none

def asKeyword : SExpr → Option (List Char)
  | atom (.keyword s) => some s
  | _ => none

end SExpr

def maxParseDepth : Nat := 1000

/-- The tokens behind an expression. -/
abbrev Rest (ts : List Token) := {rest : List Token // rest.length < ts.length}

def tokenToAtom : Token → LexResult AtomKind
  | .integer n => .ok (.integer n)
  | .float bits => .ok (.float bits)
  | .str s => .ok (.str s)
  | .symbol s => .ok (.symbol s)
  | .keyword s => .ok (.keyword s)
  | .bool b => .ok (.bool b)
  | .nil => .ok .nil
  | .arrow => .ok .arrow
  | .version a b c => .ok (.version a b c)
  | .colon => .ok (.symbol [':'])
  | .lparen => .error "unexpected token: LParen"
  | .rparen => .error "unexpected token: RParen"
  | .lbracket => .error "unexpected token: LBracket"
  | .rbracket => .error "unexpected token: RBracket"
  | .comma => .error "unexpected token: Comma"

/-- The items up to the closing token, each read by `item`. -/
def parseList (item : (ts : List Token) → LexResult (SExpr × Rest ts)) (close : Token)
    (ts : List Token) : LexResult (List SExpr × Rest ts) :=
  match ts with
  | [] => .error "unclosed delimiter"
  | t :: ts =>
    if t = .comma then
      match parseList item close ts with
      | .error e => .error e
      | .ok (items, ⟨rest, h⟩) => .ok (items, ⟨rest, Nat.lt_succ_of_lt h⟩)
    else if t = close then .ok ([], ⟨ts, Nat.lt_succ_self _⟩)
    else
      match item (t :: ts) with
      | .error e => .error e
      | .ok (first, ⟨next, h⟩) =>
        match parseList item close next with
        | .error e => .error e
        | .ok (items, ⟨rest, h'⟩) => .ok (first :: items, ⟨rest, Nat.lt_trans h' h⟩)
termination_by ts.length
decreasing_by
  · exact Nat.lt_succ_self _
  · exact h

/-- One expression, of at most `levels` levels. -/
def parseSexpr (levels : Nat) (ts : List Token) : LexResult (SExpr × Rest ts) :=
  match levels, ts with
  | 0, _ => .error ("maximum nesting depth exceeded (" ++ toString maxParseDepth ++ ")")
  | _ + 1, [] => .error "unexpected end of input"
  | levels + 1, t :: ts =>
    if t = .lparen then
      match parseList (parseSexpr levels) .rparen ts with
      | .error e => .error e
      | .ok (items, ⟨rest, h⟩) => .ok (.list items, ⟨rest, Nat.lt_succ_of_lt h⟩)
    else if t = .lbracket then
      match parseList (parseSexpr levels) .rbracket ts with
      | .error e => .error e
      | .ok (items, ⟨rest, h⟩) => .ok (.bracketList items, ⟨rest, Nat.lt_succ_of_lt h⟩)
    else
      match tokenToAtom t with
      | .error e => .error e
      | .ok kind => .ok (.atom kind, ⟨ts, Nat.lt_succ_self _⟩)

/-- Depth 0 is the first of the levels. -/
def parseSexprAll (ts : List Token) : LexResult (List SExpr) :=
  match ts with
  | [] => .ok []
  | t :: ts =>
    match parseSexpr (maxParseDepth + 1) (t :: ts) with
    | .error e => .error e
    | .ok (expr, ⟨rest, _⟩) => (parseSexprAll rest).map (expr :: ·)
termination_by ts.length
decreasing_by assumption

/-- `e` is read from the front of `ts`. -/
def Parses (levels : Nat) (ts : List Token) (e : SExpr) (rest : List Token) : Prop :=
  ∃ h, parseSexpr levels ts = .ok (e, ⟨rest, h⟩)

/-- The items up to the closing token are read from the front of `ts`. -/
def ParsesList (levels : Nat) (close : Token) (ts : List Token) (items : List SExpr)
    (rest : List Token) : Prop :=
  ∃ h, parseList (parseSexpr levels) close ts = .ok (items, ⟨rest, h⟩)

variable {levels : Nat} {close t : Token} {ts rest next : List Token} {e : SExpr}
variable {items : List SExpr} {kind : AtomKind}

theorem not_parses_nil : ¬ Parses levels [] e rest := by
  rintro ⟨h, -⟩
  exact absurd h (Nat.not_lt_zero _)

theorem parses_levels (h : Parses levels ts e rest) : 0 < levels := by
  obtain ⟨_, h⟩ := h
  cases levels with
  | zero => cases h
  | succ levels => exact Nat.succ_pos levels

theorem parses_atom_iff (hatom : tokenToAtom t = .ok kind) :
    Parses levels (t :: ts) e rest ↔ 0 < levels ∧ e = .atom kind ∧ rest = ts := by
  have hparen : t ≠ .lparen ∧ t ≠ .lbracket := by
    constructor <;> rintro rfl <;> cases hatom
  cases levels with
  | zero =>
    constructor
    · exact fun h => absurd (parses_levels h) (Nat.lt_irrefl 0)
    · exact fun h => absurd h.1 (Nat.lt_irrefl 0)
  | succ levels =>
    simp only [Parses, parseSexpr, if_neg hparen.1, if_neg hparen.2, hatom]
    constructor
    · rintro ⟨_, h⟩
      cases h
      exact ⟨Nat.succ_pos _, rfl, rfl⟩
    · rintro ⟨-, rfl, rfl⟩
      exact ⟨Nat.lt_succ_self _, rfl⟩

theorem parses_lparen_iff : Parses (levels + 1) (.lparen :: ts) e rest ↔
    ∃ items, e = .list items ∧ ParsesList levels .rparen ts items rest := by
  simp only [Parses, ParsesList, parseSexpr, if_true]
  constructor
  · rintro ⟨_, h⟩
    split at h
    · cases h
    · next items rest' h' hlist =>
      cases h
      exact ⟨items, rfl, h', hlist⟩
  · rintro ⟨items, rfl, h, hlist⟩
    exact ⟨Nat.lt_succ_of_lt h, by rw [hlist]⟩

theorem parses_lbracket_iff : Parses (levels + 1) (.lbracket :: ts) e rest ↔
    ∃ items, e = .bracketList items ∧ ParsesList levels .rbracket ts items rest := by
  simp only [Parses, ParsesList, parseSexpr, if_true, reduceCtorEq, if_false]
  constructor
  · rintro ⟨_, h⟩
    split at h
    · cases h
    · next items rest' h' hlist =>
      cases h
      exact ⟨items, rfl, h', hlist⟩
  · rintro ⟨items, rfl, h, hlist⟩
    exact ⟨Nat.lt_succ_of_lt h, by rw [hlist]⟩

theorem parses_other (hparen : t ≠ .lparen) (hbracket : t ≠ .lbracket)
    (h : Parses levels (t :: ts) e rest) :
    ∃ kind, tokenToAtom t = .ok kind ∧ e = .atom kind ∧ rest = ts := by
  cases levels with
  | zero => exact absurd (parses_levels h) (Nat.lt_irrefl 0)
  | succ levels =>
    obtain ⟨_, h⟩ := h
    rw [parseSexpr, if_neg hparen, if_neg hbracket] at h
    split at h
    · cases h
    · next kind hatom =>
      cases h
      exact ⟨kind, hatom, rfl, rfl⟩

theorem tokenToAtom_of_parses (h : Parses levels (t :: ts) (.atom kind) rest) :
    tokenToAtom t = .ok kind ∧ rest = ts := by
  cases levels with
  | zero => exact absurd (parses_levels h) (Nat.lt_irrefl 0)
  | succ levels =>
    by_cases hparen : t = .lparen
    · subst hparen
      obtain ⟨_, hlist, -⟩ := parses_lparen_iff.mp h
      cases hlist
    by_cases hbracket : t = .lbracket
    · subst hbracket
      obtain ⟨_, hlist, -⟩ := parses_lbracket_iff.mp h
      cases hlist
    obtain ⟨_, hatom, hkind, hrest⟩ := parses_other hparen hbracket h
    cases hkind
    exact ⟨hatom, hrest⟩

theorem not_parsesList_nil : ¬ ParsesList levels close [] items rest := by
  rintro ⟨h, -⟩
  exact absurd h (Nat.not_lt_zero _)

theorem parsesList_close_iff (hclose : close ≠ .comma) :
    ParsesList levels close (close :: ts) items rest ↔ items = [] ∧ rest = ts := by
  simp only [ParsesList, parseList, if_neg hclose, if_true]
  constructor
  · rintro ⟨_, h⟩
    cases h
    exact ⟨rfl, rfl⟩
  · rintro ⟨rfl, rfl⟩
    exact ⟨Nat.lt_succ_self _, rfl⟩

theorem parsesList_comma_iff :
    ParsesList levels close (.comma :: ts) items rest ↔ ParsesList levels close ts items rest := by
  simp only [ParsesList, parseList, if_true]
  constructor
  · rintro ⟨_, h⟩
    split at h
    · cases h
    · next more rest' hmore hlist =>
      cases h
      exact ⟨hmore, hlist⟩
  · rintro ⟨h, hlist⟩
    exact ⟨Nat.lt_succ_of_lt h, by rw [hlist]⟩

theorem parsesList_cons_iff (hcomma : t ≠ .comma) (hclose : t ≠ close) :
    ParsesList levels close (t :: ts) items rest ↔
      ∃ first more next, items = first :: more ∧ Parses levels (t :: ts) first next ∧
        ParsesList levels close next more rest := by
  simp only [ParsesList, Parses]
  rw [parseList, if_neg hcomma, if_neg hclose]
  constructor
  · rintro ⟨_, h⟩
    split at h
    · cases h
    · next first next hnext hitem =>
      split at h
      · cases h
      · next more rest' hrest hlist =>
        cases h
        exact ⟨first, more, next, rfl, ⟨hnext, hitem⟩, hrest, hlist⟩
  · rintro ⟨first, more, next, rfl, ⟨hnext, hitem⟩, hrest, hlist⟩
    refine ⟨Nat.lt_trans hrest hnext, ?_⟩
    simp only [hitem, hlist]

end Airl.Syntax
