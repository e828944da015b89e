import Airl.Parser.Reader

/-! # Balanced brackets

Which token streams are s-expressions: the brackets are paired, as a reader finds that keeps the
brackets that are open on a stack, and nothing is nested too deeply. The tree is then the stream
again, apart from the commas, which only separate.
-/

namespace Airl.Syntax

/-- The two kinds of brackets. -/
inductive Bracket where
  | paren
  | bracket
  deriving DecidableEq

namespace Bracket

def opening : Bracket → Token
  | .paren => .lparen
  | .bracket => .lbracket

def closing : Bracket → Token
  | .paren => .rparen
  | .bracket => .rbracket

/-- The list in these brackets. -/
def enclose : Bracket → List SExpr → SExpr
  | .paren => .list
  | .bracket => .bracketList

end Bracket

/-! ## Streams -/

/-- A token that is no bracket. -/
def Token.flat : Token → Bool
  | .lparen | .rparen | .lbracket | .rbracket => false
  | _ => true

/-- Each bracket is closed by one of its kind, inside the brackets that were opened before it. The
brackets of the stack are open at the beginning. -/
inductive Paired : List Bracket → List Token → Prop
  | done : Paired [] []
  | opens {b stack ts} : Paired (b :: stack) ts → Paired stack (b.opening :: ts)
  | closes {b stack ts} : Paired stack ts → Paired (b :: stack) (b.closing :: ts)
  | flat {t stack ts} : t.flat = true → Paired stack ts → Paired stack (t :: ts)

/-- Each token with the number of brackets that are open before it. -/
def nested : Nat → List Token → List (Nat × Token)
  | _, [] => []
  | depth, t :: ts =>
    let inside :=
      match t with
      | .lparen | .lbracket => depth + 1
      | .rparen | .rbracket => depth - 1
      | _ => depth
    (depth, t) :: nested inside ts

/-- What begins an item stands at most a thousand levels deep, and a comma stands in a list. -/
def Placed (depth : Nat) (ts : List Token) : Prop :=
  ∀ p ∈ nested depth ts, (p.2 = .comma → 0 < p.1) ∧
    (p.2 ≠ .comma → p.2 ≠ .rparen → p.2 ≠ .rbracket → p.1 ≤ maxParseDepth)

/-- The stream without its commas, and with each colon as the symbol it is read as. -/
def separated : List Token → List Token
  | [] => []
  | .comma :: ts => separated ts
  | .colon :: ts => .symbol [':'] :: separated ts
  | t :: ts => t :: separated ts

/-! ## Trees -/

def AtomKind.token : AtomKind → Token
  | .integer n => .integer n
  | .float bits => .float bits
  | .str s => .str s
  | .symbol s => .symbol s
  | .keyword s => .keyword s
  | .bool b => .bool b
  | .nil => .nil
  | .arrow => .arrow
  | .version a b c => .version a b c

mutual

/-- The tokens of a tree. -/
def SExpr.flatten : SExpr → List Token
  | .atom kind => [kind.token]
  | .list items => .lparen :: (flattenAll items ++ [.rparen])
  | .bracketList items => .lbracket :: (flattenAll items ++ [.rbracket])

def flattenAll : List SExpr → List Token
  | [] => []
  | e :: es => e.flatten ++ flattenAll es

end

theorem SExpr.flatten_enclose (b : Bracket) (items : List SExpr) :
    (b.enclose items).flatten = b.opening :: (flattenAll items ++ [b.closing]) := by
  cases b <;> rfl

/-! ## One token after the other -/

variable {t : Token} {ts rest : List Token} {stack : List Bracket} {b : Bracket} {kind : AtomKind}

theorem tokenToAtom_cases (t : Token) :
    (∃ b : Bracket, t = b.opening) ∨ (∃ b : Bracket, t = b.closing) ∨ t = .comma ∨
      ∃ kind, tokenToAtom t = .ok kind := by
  cases t with
  | lparen => exact .inl ⟨.paren, rfl⟩
  | lbracket => exact .inl ⟨.bracket, rfl⟩
  | rparen => exact .inr (.inl ⟨.paren, rfl⟩)
  | rbracket => exact .inr (.inl ⟨.bracket, rfl⟩)
  | comma => exact .inr (.inr (.inl rfl))
  | _ => exact .inr (.inr (.inr ⟨_, rfl⟩))

theorem flat_of_atom (h : tokenToAtom t = .ok kind) : t.flat = true ∧ t ≠ .comma := by
  cases t with
  | lparen | rparen | lbracket | rbracket | comma => cases h
  | _ => exact ⟨rfl, Token.noConfusion⟩

/-- An atom is no separator. -/
theorem separated_atom (h : tokenToAtom t = .ok kind) (ts : List Token) :
    separated (t :: ts) = kind.token :: separated ts := by
  cases t with
  | lparen | rparen | lbracket | rbracket | comma => cases h
  | _ =>
    cases h
    rfl

theorem separated_opening (b : Bracket) (ts : List Token) :
    separated (b.opening :: ts) = b.opening :: separated ts := by
  cases b <;> rfl

theorem separated_closing (b : Bracket) (ts : List Token) :
    separated (b.closing :: ts) = b.closing :: separated ts := by
  cases b <;> rfl

/-! ## The pairs -/

theorem paired_opening_iff : Paired stack (b.opening :: ts) ↔ Paired (b :: stack) ts := by
  constructor
  · intro h
    generalize hcons : b.opening :: ts = us at h
    cases h with
    | done => cases hcons
    | @opens b' _ _ h =>
      obtain ⟨hb, rfl⟩ := List.cons.inj hcons
      have heq : b = b' := by cases b <;> cases b' <;> first | rfl | cases hb
      rw [heq]
      exact h
    | @closes b' _ _ h =>
      obtain ⟨hb, -⟩ := List.cons.inj hcons
      cases b <;> cases b' <;> cases hb
    | @flat t _ _ hflat h =>
      obtain ⟨rfl, -⟩ := List.cons.inj hcons
      cases b <;> cases hflat
  · exact .opens

/-- A closing bracket closes the innermost open one. -/
theorem paired_closing_iff :
    Paired stack (b.closing :: ts) ↔ ∃ stack', stack = b :: stack' ∧ Paired stack' ts := by
  constructor
  · intro h
    generalize hcons : b.closing :: ts = us at h
    cases h with
    | done => cases hcons
    | @opens b' _ _ h =>
      obtain ⟨hb, -⟩ := List.cons.inj hcons
      cases b <;> cases b' <;> cases hb
    | @closes b' stack' _ h =>
      obtain ⟨hb, rfl⟩ := List.cons.inj hcons
      have heq : b = b' := by cases b <;> cases b' <;> first | rfl | cases hb
      rw [heq]
      exact ⟨stack', rfl, h⟩
    | @flat t _ _ hflat h =>
      obtain ⟨rfl, -⟩ := List.cons.inj hcons
      cases b <;> cases hflat
  · intro h
    obtain ⟨stack', rfl, h⟩ := h
    exact .closes h

theorem paired_flat_iff (hflat : t.flat = true) : Paired stack (t :: ts) ↔ Paired stack ts := by
  constructor
  · intro h
    cases h with
    | @opens b _ _ h => cases b <;> cases hflat
    | @closes b _ _ h => cases b <;> cases hflat
    | flat _ h => exact h
  · exact .flat hflat

/-! ## Streams that are read -/

/-- The stream is paired and each of its tokens in a place for it; the brackets of the stack are
open at the beginning. -/
def Admits (stack : List Bracket) (ts : List Token) : Prop :=
  Paired stack ts ∧ Placed stack.length ts

theorem placed_cons {depth inside : Nat} (hnested : nested depth (t :: ts) =
      (depth, t) :: nested inside ts) :
    Placed depth (t :: ts) ↔ ((t = .comma → 0 < depth) ∧
      (t ≠ .comma → t ≠ .rparen → t ≠ .rbracket → depth ≤ maxParseDepth)) ∧ Placed inside ts := by
  unfold Placed
  rw [hnested, List.forall_mem_cons]

theorem admits_nil : Admits stack [] ↔ stack = [] := by
  constructor
  · intro h
    generalize hnil : ([] : List Token) = ts at h
    cases h.1 with
    | done => rfl
    | _ => cases hnil
  · rintro rfl
    refine ⟨.done, ?_⟩
    intro p hp
    cases hp

/-- An opening bracket is admitted if the nesting has room. -/
theorem admits_opening : Admits stack (b.opening :: ts) ↔
    stack.length ≤ maxParseDepth ∧ Admits (b :: stack) ts := by
  have hnested : nested stack.length (b.opening :: ts) =
      (stack.length, b.opening) :: nested (b :: stack).length ts := by cases b <;> rfl
  unfold Admits
  rw [placed_cons hnested, paired_opening_iff]
  constructor
  · intro h
    refine ⟨h.2.1.2 ?_ ?_ ?_, h.1, h.2.2⟩
    all_goals
      intro heq
      cases b <;> cases heq
  · intro h
    refine ⟨h.2.1, ⟨?_, fun _ _ _ => h.1⟩, h.2.2⟩
    intro heq
    cases b <;> cases heq

/-- A closing bracket, if it closes the innermost open one. -/
theorem admits_closing : Admits stack (b.closing :: ts) ↔
    ∃ stack', stack = b :: stack' ∧ Admits stack' ts := by
  have hnested (stack' : List Bracket) : nested (b :: stack').length (b.closing :: ts) =
      ((b :: stack').length, b.closing) :: nested stack'.length ts := by cases b <;> rfl
  unfold Admits
  rw [paired_closing_iff]
  constructor
  · intro h
    obtain ⟨⟨stack', rfl, hpaired⟩, hplaced⟩ := h
    exact ⟨stack', rfl, hpaired, ((placed_cons (hnested stack')).mp hplaced).2⟩
  · intro h
    obtain ⟨stack', rfl, hpaired, hplaced⟩ := h
    refine ⟨⟨stack', rfl, hpaired⟩, (placed_cons (hnested stack')).mpr ⟨⟨?_, ?_⟩, hplaced⟩⟩
    · intro heq
      cases b <;> cases heq
    · intro _ hparen hbracket
      cases b with
      | paren => exact absurd rfl hparen
      | bracket => exact absurd rfl hbracket

/-- A comma, inside brackets only. -/
theorem admits_comma : Admits stack (.comma :: ts) ↔ stack ≠ [] ∧ Admits stack ts := by
  have hnested : nested stack.length (.comma :: ts) =
      (stack.length, .comma) :: nested stack.length ts := rfl
  unfold Admits
  rw [placed_cons hnested, paired_flat_iff rfl]
  constructor
  · intro h
    exact ⟨List.ne_nil_of_length_pos (h.2.1.1 rfl), h.1, h.2.2⟩
  · intro h
    exact ⟨h.2.1, ⟨fun _ => List.length_pos_iff.mpr h.1, fun hne => absurd rfl hne⟩, h.2.2⟩

theorem admits_atom (hatom : tokenToAtom t = .ok kind) :
    Admits stack (t :: ts) ↔ stack.length ≤ maxParseDepth ∧ Admits stack ts := by
  obtain ⟨hflat, hcomma⟩ := flat_of_atom hatom
  have hnested : nested stack.length (t :: ts) =
      (stack.length, t) :: nested stack.length ts := by
    cases t with
    | lparen | rparen | lbracket | rbracket => cases hflat
    | _ => rfl
  unfold Admits
  rw [placed_cons hnested, paired_flat_iff hflat]
  constructor
  · intro h
    refine ⟨h.2.1.2 hcomma ?_ ?_, h.1, h.2.2⟩
    all_goals
      rintro rfl
      cases hflat
  · intro h
    exact ⟨h.2.1, ⟨fun heq => absurd heq hcomma, fun _ _ _ => h.1⟩, h.2.2⟩

/-! ## What is read is the tree -/

variable {levels : Nat} {e : SExpr} {items : List SExpr}

/-- What is read behind an opening bracket. -/
theorem parses_opening_iff : Parses (levels + 1) (b.opening :: ts) e rest ↔
    ∃ items, e = b.enclose items ∧ ParsesList levels b.closing ts items rest := by
  cases b with
  | paren => exact parses_lparen_iff
  | bracket => exact parses_lbracket_iff

/-- Nothing is read from a closing bracket or a comma on. -/
theorem tokenToAtom_of_first (h : Parses levels (t :: ts) e rest) :
    (∃ b : Bracket, t = b.opening) ∨ ∃ kind, tokenToAtom t = .ok kind := by
  by_cases hparen : t = .lparen
  · exact .inl ⟨.paren, hparen⟩
  by_cases hbracket : t = .lbracket
  · exact .inl ⟨.bracket, hbracket⟩
  · obtain ⟨kind, hkind, -, -⟩ := parses_other hparen hbracket h
    exact .inr ⟨kind, hkind⟩

theorem Bracket.closing_ne (b b' : Bracket) : b.closing ≠ b'.opening := by
  cases b <;> cases b' <;> exact Token.noConfusion

/-- The effect of reading: what is left is admitted if all was, and the tree holds the tokens that
were read. -/
def ReadsExactly (levels : Nat) : Prop :=
  ∀ (stack : List Bracket) (ts : List Token) (e : SExpr) (rest : List Token),
    levels + stack.length = maxParseDepth + 1 → Parses levels ts e rest →
      (Admits stack ts ↔ Admits stack rest) ∧ separated ts = e.flatten ++ separated rest

/-- The items of a list are read exactly. -/
theorem readsExactly_list (hitem : ReadsExactly levels)
    (hlevels : levels + (b :: stack).length = maxParseDepth + 1)
    (h : ParsesList levels b.closing ts items rest) :
    (Admits (b :: stack) ts ↔ Admits stack rest) ∧
      separated ts = flattenAll items ++ b.closing :: separated rest := by
  induction hn : ts.length using Nat.strongRecOn generalizing ts items with
  | _ n ih =>
    subst hn
    cases ts with
    | nil => exact absurd h not_parsesList_nil
    | cons t ts =>
      by_cases hcomma : t = .comma
      · subst hcomma
        have hlater := ih ts.length (Nat.lt_succ_self _) (parsesList_comma_iff.mp h) rfl
        rw [admits_comma]
        exact ⟨⟨fun hall => hlater.1.mp hall.2,
          fun hrest => ⟨List.cons_ne_nil b stack, hlater.1.mpr hrest⟩⟩, hlater.2⟩
      by_cases hclose : t = b.closing
      · subst hclose
        obtain ⟨rfl, rfl⟩ := (parsesList_close_iff (by cases b <;> decide)).mp h
        refine ⟨?_, separated_closing b rest⟩
        rw [admits_closing]
        constructor
        · intro hall
          obtain ⟨stack', heq, hrest⟩ := hall
          rw [(List.cons.inj heq).2]
          exact hrest
        · intro hrest
          exact ⟨stack, rfl, hrest⟩
      · obtain ⟨first, more, next, rfl, hfirst, hmore⟩ :=
          (parsesList_cons_iff hcomma hclose).mp h
        have hshorter := hfirst.1
        obtain ⟨hadmits, htokens⟩ := hitem (b :: stack) (t :: ts) first next hlevels hfirst
        obtain ⟨hadmits', htokens'⟩ := ih next.length hshorter hmore rfl
        refine ⟨hadmits.trans hadmits', ?_⟩
        rw [htokens, htokens', flattenAll, List.append_assoc]

/-- A tree is read from its own tokens and no others, at every level. -/
theorem readsExactly (levels : Nat) : ReadsExactly levels := by
  induction levels with
  | zero =>
    intro stack ts e rest _ h
    exact absurd (parses_levels h) (Nat.lt_irrefl 0)
  | succ levels ih =>
    intro stack ts e rest hlevels h
    have hdepth : stack.length ≤ maxParseDepth := by omega
    cases ts with
    | nil => exact absurd h not_parses_nil
    | cons t ts =>
      rcases tokenToAtom_of_first h with ⟨b, rfl⟩ | ⟨kind, hkind⟩
      · obtain ⟨items, rfl, hlist⟩ := parses_opening_iff.mp h
        have hinside : levels + (b :: stack).length = maxParseDepth + 1 := by
          rw [List.length_cons]
          omega
        obtain ⟨hadmits, htokens⟩ := readsExactly_list ih hinside hlist
        rw [admits_opening, hadmits, separated_opening, htokens, SExpr.flatten_enclose]
        refine ⟨⟨And.right, fun hrest => ⟨hdepth, hrest⟩⟩, ?_⟩
        simp only [List.cons_append, List.append_assoc, List.nil_append]
      · obtain ⟨-, rfl, rfl⟩ := (parses_atom_iff hkind).mp h
        rw [admits_atom hkind, separated_atom hkind]
        exact ⟨⟨And.right, fun hrest => ⟨hdepth, hrest⟩⟩, rfl⟩

/-! ## What is admitted is read -/

/-- An item is read where one may stand. -/
def Reads (levels : Nat) : Prop :=
  ∀ (stack : List Bracket) (t : Token) (ts : List Token),
    levels + stack.length = maxParseDepth + 1 → Admits stack (t :: ts) → t ≠ .comma →
      (∀ b : Bracket, t ≠ b.closing) → ∃ e rest, Parses levels (t :: ts) e rest

/-- What is admitted in brackets is read. -/
theorem reads_list (hitem : Reads levels)
    (hlevels : levels + (b :: stack).length = maxParseDepth + 1)
    (h : Admits (b :: stack) ts) : ∃ items rest, ParsesList levels b.closing ts items rest := by
  induction hn : ts.length using Nat.strongRecOn generalizing ts with
  | _ n ih =>
    subst hn
    cases ts with
    | nil =>
      have hnil := admits_nil.mp h
      cases hnil
    | cons t ts =>
      by_cases hcomma : t = .comma
      · subst hcomma
        obtain ⟨items, rest, hlist⟩ :=
          ih ts.length (Nat.lt_succ_self _) (admits_comma.mp h).2 rfl
        exact ⟨items, rest, parsesList_comma_iff.mpr hlist⟩
      by_cases hclose : t = b.closing
      · exact ⟨[], ts, by
          rw [hclose]
          exact (parsesList_close_iff (by cases b <;> decide)).mpr ⟨rfl, rfl⟩⟩
      · have hother : ∀ b' : Bracket, t ≠ b'.closing := by
          intro b' heq
          rw [heq] at h hclose
          obtain ⟨stack', hstack, -⟩ := admits_closing.mp h
          exact hclose (by rw [(List.cons.inj hstack).1])
        obtain ⟨e, next, hfirst⟩ := hitem (b :: stack) t ts hlevels h hcomma hother
        have hnext := ((readsExactly levels) _ _ _ _ hlevels hfirst).1.mp h
        obtain ⟨items, rest, hmore⟩ := ih next.length hfirst.1 hnext rfl
        exact ⟨e :: items, rest,
          (parsesList_cons_iff hcomma hclose).mpr ⟨e, items, next, rfl, hfirst, hmore⟩⟩

/-- What is admitted is read, at every level. -/
theorem reads (levels : Nat) : Reads levels := by
  induction levels with
  | zero =>
    intro stack t ts hlevels h hcomma hclosing
    -- an item would be too deep
    rcases tokenToAtom_cases t with ⟨b, rfl⟩ | ⟨b, rfl⟩ | rfl | ⟨kind, hkind⟩
    · have hdepth := (admits_opening.mp h).1
      omega
    · exact absurd rfl (hclosing b)
    · exact absurd rfl hcomma
    · have hdepth := ((admits_atom hkind).mp h).1
      omega
  | succ levels ih =>
    intro stack t ts hlevels h hcomma hclosing
    rcases tokenToAtom_cases t with ⟨b, rfl⟩ | ⟨b, rfl⟩ | rfl | ⟨kind, hkind⟩
    · have hinside : levels + (b :: stack).length = maxParseDepth + 1 := by
        rw [List.length_cons]
        omega
      obtain ⟨items, rest, hlist⟩ := reads_list ih hinside (admits_opening.mp h).2
      exact ⟨b.enclose items, rest, parses_opening_iff.mpr ⟨items, rfl, hlist⟩⟩
    · exact absurd rfl (hclosing b)
    · exact absurd rfl hcomma
    · exact ⟨.atom kind, ts, (parses_atom_iff hkind).mpr ⟨Nat.succ_pos levels, rfl, rfl⟩⟩

/-! ## Whole streams -/

theorem parseSexprAll_cons_iff {exprs : List SExpr} :
    parseSexprAll (t :: ts) = .ok exprs ↔ ∃ e more rest, exprs = e :: more ∧
      Parses (maxParseDepth + 1) (t :: ts) e rest ∧ parseSexprAll rest = .ok more := by
  rw [parseSexprAll]
  cases hfirst : parseSexpr (maxParseDepth + 1) (t :: ts) with
  | error message =>
    constructor
    · intro h
      cases h
    · intro h
      obtain ⟨e, more, rest, -, ⟨hrest, hparse⟩, -⟩ := h
      rw [hfirst] at hparse
      cases hparse
  | ok first =>
    obtain ⟨e, rest, hrest⟩ := first
    dsimp only
    constructor
    · intro h
      cases hmore : parseSexprAll rest with
      | error message =>
        rw [hmore] at h
        cases h
      | ok more =>
        rw [hmore] at h
        cases h
        exact ⟨e, more, rest, rfl, ⟨hrest, hfirst⟩, hmore⟩
    · intro h
      obtain ⟨e', more, rest', rfl, ⟨hrest', hparse⟩, hmore⟩ := h
      rw [hfirst] at hparse
      cases hparse
      rw [hmore]
      rfl

/-- A file that is read is admitted, and its trees write its tokens. -/
theorem flattenAll_of_parseSexprAll {exprs : List SExpr} (h : parseSexprAll ts = .ok exprs) :
    Admits [] ts ∧ flattenAll exprs = separated ts := by
  induction hn : ts.length using Nat.strongRecOn generalizing ts exprs with
  | _ n ih =>
    subst hn
    cases ts with
    | nil =>
      rw [parseSexprAll] at h
      cases h
      exact ⟨admits_nil.mpr rfl, rfl⟩
    | cons t ts =>
      obtain ⟨e, more, rest, rfl, hfirst, hmore⟩ := parseSexprAll_cons_iff.mp h
      obtain ⟨hadmits, htokens⟩ := readsExactly (maxParseDepth + 1) [] _ _ _ rfl hfirst
      obtain ⟨hrest, htokens'⟩ := ih rest.length hfirst.1 hmore rfl
      exact ⟨hadmits.mpr hrest, by rw [htokens, flattenAll, htokens']⟩

/-- A file that is admitted is read. -/
theorem parseSexprAll_of_admits (h : Admits [] ts) : ∃ exprs, parseSexprAll ts = .ok exprs := by
  induction hn : ts.length using Nat.strongRecOn generalizing ts with
  | _ n ih =>
    subst hn
    cases ts with
    | nil => exact ⟨[], by rw [parseSexprAll]⟩
    | cons t ts =>
      have hcomma : t ≠ .comma := by
        rintro rfl
        exact (admits_comma.mp h).1 rfl
      have hclosing : ∀ b : Bracket, t ≠ b.closing := by
        rintro b rfl
        obtain ⟨stack', hstack, -⟩ := admits_closing.mp h
        cases hstack
      obtain ⟨e, rest, hfirst⟩ := reads (maxParseDepth + 1) [] t ts rfl h hcomma hclosing
      have hrest := (readsExactly (maxParseDepth + 1) [] _ _ _ rfl hfirst).1.mp h
      obtain ⟨more, hmore⟩ := ih rest.length hfirst.1 hrest rfl
      exact ⟨e :: more, parseSexprAll_cons_iff.mpr ⟨e, more, rest, rfl, hfirst, hmore⟩⟩

/-! ## The tree of a stream -/

/-- The token that a token of a tree is read from: a lone colon is one of its own. -/
def Token.respelled : Token → Token
  | .symbol [':'] => .colon
  | t => t

theorem tokenToAtom_token (kind : AtomKind) : tokenToAtom kind.token = .ok kind := by
  cases kind <;> rfl

theorem tokenToAtom_respelled (kind : AtomKind) : tokenToAtom kind.token.respelled = .ok kind := by
  cases kind with
  | symbol s =>
    by_cases hcolon : s = [':']
    · subst hcolon
      rfl
    · have hsame : AtomKind.token (.symbol s) = .symbol s := rfl
      rw [hsame, Token.respelled]
      · rfl
      · intro heq
        exact hcolon (Token.symbol.inj heq)
  | _ => rfl

theorem AtomKind.token_inj {kind' : AtomKind} (h : kind.token = kind'.token) : kind = kind' := by
  have hatom := congrArg tokenToAtom h
  rw [tokenToAtom_token, tokenToAtom_token] at hatom
  exact Except.ok.inj hatom

theorem AtomKind.token_ne_opening (kind : AtomKind) (b : Bracket) : kind.token ≠ b.opening := by
  cases kind <;> cases b <;> exact Token.noConfusion

theorem AtomKind.token_ne_closing (kind : AtomKind) (b : Bracket) : kind.token ≠ b.closing := by
  cases kind <;> cases b <;> exact Token.noConfusion

theorem flatten_ne_closing (e : SExpr) (b : Bracket) {rest rest' : List Token} :
    e.flatten ++ rest ≠ b.closing :: rest' := by
  intro h
  cases e with
  | atom kind => exact kind.token_ne_closing b (List.cons.inj h).1
  | list items => exact b.closing_ne .paren (List.cons.inj h).1.symm
  | bracketList items => exact b.closing_ne .bracket (List.cons.inj h).1.symm

mutual

/-- A tree is known by its tokens, whatever follows them. -/
theorem flatten_inj (e e' : SExpr) {rest rest' : List Token}
    (h : e.flatten ++ rest = e'.flatten ++ rest') : e = e' ∧ rest = rest' := by
  match e, e' with
  | .atom kind, .atom kind' =>
    obtain ⟨hkind, hrest⟩ := List.cons.inj h
    exact ⟨congrArg SExpr.atom (AtomKind.token_inj hkind), hrest⟩
  | .list items, .list items' =>
    obtain ⟨-, hinside⟩ := List.cons.inj h
    rw [List.append_eq, List.append_eq, List.append_assoc, List.append_assoc] at hinside
    obtain ⟨hitems, hrest⟩ := flattenAll_closing_inj .paren items items' hinside
    exact ⟨congrArg SExpr.list hitems, hrest⟩
  | .bracketList items, .bracketList items' =>
    obtain ⟨-, hinside⟩ := List.cons.inj h
    rw [List.append_eq, List.append_eq, List.append_assoc, List.append_assoc] at hinside
    obtain ⟨hitems, hrest⟩ := flattenAll_closing_inj .bracket items items' hinside
    exact ⟨congrArg SExpr.bracketList hitems, hrest⟩
  | .atom kind, .list items => exact absurd (List.cons.inj h).1 (kind.token_ne_opening .paren)
  | .atom kind, .bracketList items =>
    exact absurd (List.cons.inj h).1 (kind.token_ne_opening .bracket)
  | .list items, .atom kind => exact absurd (List.cons.inj h).1.symm (kind.token_ne_opening .paren)
  | .bracketList items, .atom kind =>
    exact absurd (List.cons.inj h).1.symm (kind.token_ne_opening .bracket)
  | .list items, .bracketList items' => exact absurd (List.cons.inj h).1 Token.noConfusion
  | .bracketList items, .list items' => exact absurd (List.cons.inj h).1 Token.noConfusion

/-- The tokens of a list determine its items. -/
theorem flattenAll_closing_inj (b : Bracket) (es es' : List SExpr) {rest rest' : List Token}
    (h : flattenAll es ++ b.closing :: rest = flattenAll es' ++ b.closing :: rest') :
    es = es' ∧ rest = rest' := by
  match es, es' with
  | [], [] => exact ⟨rfl, (List.cons.inj h).2⟩
  | [], e' :: es' =>
    exact absurd ((List.append_assoc ..).symm.trans h.symm) (flatten_ne_closing e' b)
  | e :: es, [] => exact absurd ((List.append_assoc ..).symm.trans h) (flatten_ne_closing e b)
  | e :: es, e' :: es' =>
    rw [flattenAll, flattenAll, List.append_assoc, List.append_assoc] at h
    obtain ⟨rfl, hmore⟩ := flatten_inj e e' h
    obtain ⟨rfl, hrest⟩ := flattenAll_closing_inj b es es' hmore
    exact ⟨rfl, hrest⟩

end

/-- The tokens of a file determine its trees. -/
theorem flattenAll_inj {es es' : List SExpr} (h : flattenAll es = flattenAll es') : es = es' :=
  (flattenAll_closing_inj .paren es es' (congrArg (· ++ [Bracket.paren.closing]) h)).1

/-- The tokens of the tree stand where those of the stream stood, and are read as the same atoms. -/
theorem admits_respelled (h : Admits stack ts) :
    Admits stack ((separated ts).map Token.respelled) ∧
      separated ((separated ts).map Token.respelled) = separated ts := by
  induction ts generalizing stack with
  | nil => exact ⟨h, rfl⟩
  | cons t ts ih =>
    rcases tokenToAtom_cases t with ⟨b, rfl⟩ | ⟨b, rfl⟩ | rfl | ⟨kind, hkind⟩
    · obtain ⟨hdepth, hinside⟩ := admits_opening.mp h
      obtain ⟨hadmits, hsame⟩ := ih hinside
      have hb : b.opening.respelled = b.opening := by cases b <;> rfl
      rw [separated_opening, List.map_cons, hb, separated_opening, hsame]
      exact ⟨admits_opening.mpr ⟨hdepth, hadmits⟩, rfl⟩
    · obtain ⟨stack', rfl, houtside⟩ := admits_closing.mp h
      obtain ⟨hadmits, hsame⟩ := ih houtside
      have hb : b.closing.respelled = b.closing := by cases b <;> rfl
      rw [separated_closing, List.map_cons, hb, separated_closing, hsame]
      exact ⟨admits_closing.mpr ⟨stack', rfl, hadmits⟩, rfl⟩
    · exact ih (admits_comma.mp h).2
    · obtain ⟨hdepth, hlater⟩ := (admits_atom hkind).mp h
      obtain ⟨hadmits, hsame⟩ := ih hlater
      have hatom := tokenToAtom_respelled kind
      rw [separated_atom hkind, List.map_cons, separated_atom hatom, hsame]
      exact ⟨(admits_atom hatom).mpr ⟨hdepth, hadmits⟩, rfl⟩

/-- The tokens of the trees that were read are read as these trees. -/
theorem parseSexprAll_respelled {exprs : List SExpr} (h : parseSexprAll ts = .ok exprs) :
    parseSexprAll ((flattenAll exprs).map Token.respelled) = .ok exprs := by
  obtain ⟨hadmits, htokens⟩ := flattenAll_of_parseSexprAll h
  obtain ⟨hrespelled, hsame⟩ := admits_respelled hadmits
  rw [← htokens] at hrespelled hsame
  obtain ⟨exprs', hexprs'⟩ := parseSexprAll_of_admits hrespelled
  have htokens' := (flattenAll_of_parseSexprAll hexprs').2
  rw [hexprs', flattenAll_inj (htokens'.trans hsame)]

end Airl.Syntax

namespace Airl.Parser.Reader

open Airl.Syntax (Token Bracket Paired Placed separated flattenAll)
open Airl.Syntax.ByteLexer (Spanned)

/-- The tokens up to the end of the file are s-expressions just if their brackets are paired, no
item is nested deeper than a thousand levels and no comma stands outside a list. The tree holds
every one of them in its place, only the commas are dropped. -/
theorem parseSexprAll_exact (tokens : List Spanned) :
    ((∃ exprs, parseSexprAll tokens = .ok exprs) ↔
      Paired [] (kinds tokens) ∧ Placed 0 (kinds tokens)) ∧
    ∀ exprs, parseSexprAll tokens = .ok exprs →
      flattenAll (eraseList exprs) = separated (kinds tokens) := by
  have hplain {exprs : List SExpr} (h : parseSexprAll tokens = .ok exprs) :
      Airl.Syntax.parseSexprAll (kinds tokens) = .ok (eraseList exprs) := by
    have herase := parseSexprAll_erase tokens
    rw [h] at herase
    cases hplain : Airl.Syntax.parseSexprAll (kinds tokens) with
    | error message =>
        rw [hplain] at herase
        cases herase
    | ok plain =>
        rw [hplain] at herase
        exact congrArg Except.ok (Option.some.inj herase).symm
  refine ⟨⟨?_, ?_⟩, ?_⟩
  · intro h
    obtain ⟨exprs, hexprs⟩ := h
    exact (Airl.Syntax.flattenAll_of_parseSexprAll (hplain hexprs)).1
  · intro h
    obtain ⟨plain, hplain⟩ := Airl.Syntax.parseSexprAll_of_admits h
    have herase := parseSexprAll_erase tokens
    rw [hplain] at herase
    cases hexprs : parseSexprAll tokens with
    | error e =>
        rw [hexprs] at herase
        cases herase
    | ok exprs => exact ⟨exprs, rfl⟩
  · intro exprs h
    exact (Airl.Syntax.flattenAll_of_parseSexprAll (hplain h)).2

/-- `[nil , nil]`. -/
def separatedPair : List Spanned :=
  [⟨some .lbracket, ⟨0, 1, 1, 1⟩⟩, ⟨some .nil, ⟨1, 4, 1, 2⟩⟩, ⟨some .comma, ⟨5, 6, 1, 6⟩⟩,
    ⟨some .nil, ⟨7, 10, 1, 8⟩⟩, ⟨some .rbracket, ⟨10, 11, 1, 11⟩⟩, ⟨none, ⟨11, 11, 1, 12⟩⟩]

/-- `,`, which has no bracket to be out of balance. -/
def loneComma : List Spanned :=
  [⟨some .comma, ⟨0, 1, 1, 1⟩⟩, ⟨none, ⟨1, 1, 1, 2⟩⟩]

theorem parseSexprAll_comma :
    (∃ exprs, parseSexprAll separatedPair = .ok exprs ∧
      flattenAll (eraseList exprs) ≠ kinds separatedPair) ∧
    Paired [] (kinds loneComma) ∧ ¬ ∃ exprs, parseSexprAll loneComma = .ok exprs := by
  refine ⟨⟨[.bracketList [.atom .nil ⟨1, 4, 1, 2⟩, .atom .nil ⟨7, 10, 1, 8⟩] ⟨0, 11, 1, 1⟩],
    ?_, by decide⟩, .flat rfl .done, ?_⟩
  · simp [separatedPair, Airl.Syntax.maxParseDepth, parseSexprAll, parseSexpr,
      parseList, tokenToAtom,
      Span.merge, Except.map]
  · have hcomma : parseSexprAll loneComma =
        .error (.error "unexpected token: Comma" ⟨0, 1, 1, 1⟩) := by
      simp [loneComma, parseSexprAll, parseSexpr, tokenToAtom, debugKind]
    intro h
    obtain ⟨exprs, hexprs⟩ := h
    rw [hcomma] at hexprs
    cases hexprs

end Airl.Parser.Reader
