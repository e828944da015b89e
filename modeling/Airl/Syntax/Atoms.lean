import Airl.Syntax.Lexing

/-! # Where the atoms of an expression come from

The atoms of an expression are those of its tokens. A text holds at least as many
backslashes as it takes to write its atoms, however it is cut into tokens.
-/

namespace Airl.Syntax

open Lexer

/-- The atom of a token, if it has one. -/
def atomOf (tok : Token) : Option AtomKind := (tokenToAtom tok).toOption

mutual

def SExpr.atoms : SExpr → List AtomKind
  | .atom kind => [kind]
  | .list items | .bracketList items => itemsAtoms items

def itemsAtoms : List SExpr → List AtomKind
  | [] => []
  | e :: es => e.atoms ++ itemsAtoms es

end

section Parsing

variable {levels : Nat} {close t : Token} {ts rest : List Token} {e : SExpr}
  {items : List SExpr}

theorem atoms_of_parsesList (hclose : atomOf close = none)
    (hitem : ∀ {ts e rest}, Parses levels ts e rest →
      ∃ front, ts = front ++ rest ∧ e.atoms = front.filterMap atomOf)
    (h : ParsesList levels close ts items rest) :
    ∃ front, ts = front ++ rest ∧ itemsAtoms items = front.filterMap atomOf := by
  induction hn : ts.length using Nat.strong_induction_on generalizing ts items with
  | _ n ih =>
    subst hn
    cases ts with
    | nil => exact absurd h not_parsesList_nil
    | cons t ts =>
      by_cases hcomma : t = .comma
      · subst hcomma
        obtain ⟨front, rfl, hatoms⟩ := ih _ (Nat.lt_succ_self _) (parsesList_comma_iff.mp h) rfl
        exact ⟨.comma :: front, rfl, hatoms⟩
      by_cases hend : t = close
      · subst hend
        obtain ⟨rfl, rfl⟩ := (parsesList_close_iff hcomma).mp h
        refine ⟨[t], rfl, ?_⟩
        rw [List.filterMap_cons_none hclose]
        rfl
      obtain ⟨first, more, next, rfl, hfirst, hmore⟩ := (parsesList_cons_iff hcomma hend).mp h
      obtain ⟨front, hfront, hatoms⟩ := hitem hfirst
      obtain ⟨front', rfl, hatoms'⟩ := ih _ hfirst.choose hmore rfl
      refine ⟨front ++ front', ?_, ?_⟩
      · rw [hfront, List.append_assoc]
      · rw [itemsAtoms, hatoms, hatoms', List.filterMap_append]

/-- The atoms of a tree are those of its tokens, in order. -/
theorem atoms_of_parses (h : Parses levels ts e rest) :
    ∃ front, ts = front ++ rest ∧ e.atoms = front.filterMap atomOf := by
  induction levels generalizing ts e rest with
  | zero => exact absurd (parses_levels h) (Nat.lt_irrefl 0)
  | succ levels ih =>
    cases ts with
    | nil => exact absurd h not_parses_nil
    | cons t ts =>
      by_cases hparen : t = .lparen
      · subst hparen
        obtain ⟨items, rfl, hitems⟩ := parses_lparen_iff.mp h
        obtain ⟨front, rfl, hatoms⟩ := atoms_of_parsesList rfl ih hitems
        exact ⟨.lparen :: front, rfl, hatoms⟩
      by_cases hbracket : t = .lbracket
      · subst hbracket
        obtain ⟨items, rfl, hitems⟩ := parses_lbracket_iff.mp h
        obtain ⟨front, rfl, hatoms⟩ := atoms_of_parsesList rfl ih hitems
        exact ⟨.lbracket :: front, rfl, hatoms⟩
      obtain ⟨kind, hkind, rfl, rfl⟩ := parses_other hparen hbracket h
      refine ⟨[t], rfl, ?_⟩
      rw [List.filterMap_cons_some (by rw [atomOf, hkind]; rfl)]
      rfl

theorem atoms_sublist_of_mem (h : e ∈ items) : e.atoms.Sublist (itemsAtoms items) := by
  induction items with
  | nil => cases h
  | cons first items ih =>
    rw [itemsAtoms]
    rcases List.mem_cons.mp h with rfl | h
    · exact List.sublist_append_left _ _
    · exact (ih h).trans (List.sublist_append_right _ _)

end Parsing

/-- The characters of an atom that can stand for a string. -/
def AtomKind.text : AtomKind → List Char
  | .str s | .symbol s => s
  | .keyword k => ':' :: k
  | .arrow => "->".toList
  | .version a b c => (toString a ++ "." ++ toString b ++ "." ++ toString c).toList
  | _ => []

/-- The characters of a token's atom. -/
def Token.text (tok : Token) : List Char := (atomOf tok).toList.flatMap AtomKind.text

theorem flatMap_tokenText (ts : List Token) :
    ts.flatMap Token.text = (ts.filterMap atomOf).flatMap AtomKind.text := by
  induction ts with
  | nil => rfl
  | cons tok ts ih =>
    rw [List.flatMap_cons, ih, Token.text]
    cases h : atomOf tok with
    | none => rw [List.filterMap_cons_none h, Option.toList_none, List.flatMap_nil, List.nil_append]
    | some kind => simp [List.filterMap_cons_some h]

/-- How many backslashes it takes to write a string. -/
def escapes (s : List Char) : Nat := 2 * s.count '\\' + s.count '"'

variable {parse : ParseFloat} {s t w value name rest : List Char} {tok : Token} {c : Char}
  {ts : List Token}

theorem escapes_append (s t : List Char) : escapes (s ++ t) = escapes s + escapes t := by
  simp only [escapes, List.count_append]
  omega

theorem escapes_eq_zero_iff : escapes s = 0 ↔ IsPlain s := by
  rw [escapes, IsPlain, ← List.count_eq_zero, ← List.count_eq_zero]
  omega

theorem escapes_le_of_sublist (h : s.Sublist t) : escapes s ≤ escapes t := by
  have hslash := h.count_le '\\'
  have hquote := h.count_le '"'
  unfold escapes
  omega

/-- A string has no more escapes than its text has backslashes. -/
theorem escapes_of_lexString (h : lexString value s = .ok (w, t)) :
    ∃ more, w = value ++ more ∧ escapes more + t.count '\\' ≤ s.count '\\' := by
  fun_induction lexString value s with
  | case1 | case2 | case4 | case6 => cases h
  | case3 =>
    cases h
    exact ⟨[], by simp, by simp [escapes]⟩
  | case5 value _ e cs d hd _ ih =>
    obtain ⟨more, rfl, hmore⟩ := ih h
    refine ⟨d :: more, by simp, ?_⟩
    have hcost : escapes [d] ≤ 1 + [e].count '\\' := by
      by_cases hslash : d = '\\'
      · subst hslash
        rw [escape_eq_slash hd]
        decide
      · have hd' : [d].count '\\' = 0 := List.count_eq_zero.mpr (by simpa using Ne.symm hslash)
        have hle : [d].count '"' ≤ 1 := List.count_le_length
        rw [escapes, hd']
        omega
    have hsplit : escapes (d :: more) = escapes [d] + escapes more := escapes_append [d] more
    have hcount : ('\\' :: e :: cs).count '\\' = 1 + [e].count '\\' + cs.count '\\' := by
      rw [← List.singleton_append, List.count_append, ← List.singleton_append (l := cs),
        List.count_append, ← Nat.add_assoc]
      rfl
    omega
  | case7 value c cs _ hquote hslash ih =>
    obtain ⟨more, rfl, hmore⟩ := ih h
    refine ⟨c :: more, by simp, ?_⟩
    have hplain : IsPlain [c] := ⟨by simpa using Ne.symm hquote, by simpa using Ne.symm hslash⟩
    have hsplit : escapes (c :: more) = escapes [c] + escapes more := escapes_append [c] more
    rw [hsplit, escapes_eq_zero_iff.mpr hplain, List.count_cons_of_ne hslash]
    omega

theorem isPlain_of_symbolChars (h : ∀ c ∈ s, isSymbolChar c = true) : IsPlain s := by
  constructor
  · exact fun hmem => absurd (h _ hmem) (by decide)
  · exact fun hmem => absurd (h _ hmem) (by decide)

theorem symbolSpan_chars (h : c ∈ (symbolSpan s).1) : isSymbolChar c = true := by
  fun_induction symbolSpan s with
  | case1 => cases h
  | case2 d s hd name rest hspan ih =>
    rw [hspan] at ih
    rcases List.mem_cons.mp h with rfl | h
    · exact (Bool.and_eq_true _ _ ▸ hd).1
    · exact ih h
  | case3 => cases h

theorem isName_of_symbolSpan (h : symbolSpan s = (name, rest)) : IsName name := by
  fun_induction symbolSpan s generalizing name with
  | case1 =>
    cases h
    rfl
  | case2 c s hc name' rest' hspan ih =>
    cases h
    have hname := ih hspan
    have hhead : c ≠ ':' ∨ name'.head?.any isSymbolStart = true := by
      by_cases hcolon : c = ':'
      · right
        subst hcolon
        have hstart : s.head?.any isSymbolStart = true := by simpa [isSymbolChar] using hc
        cases s with
        | nil => cases hstart
        | cons d s =>
          have hd : isSymbolStart d = true := by simpa using hstart
          have hne : d ≠ ':' := by
            rintro rfl
            revert hd
            decide
          rw [symbolSpan, if_pos (by simp [isSymbolChar, hd, hne])] at hspan
          cases hspan
          simpa using hd
      · exact Or.inl hcolon
    have hchar : isSymbolChar c = true := (Bool.and_eq_true _ _ ▸ hc).1
    rw [IsName] at hname ⊢
    rw [symbolSpan, if_pos, hname]
    rcases hhead with hne | hhead
    · simp [hchar, hne]
    · simp [hchar, hhead]
  | case3 =>
    cases h
    rfl

/-- The token writes no string that takes a backslash, and is a symbol only as a name. -/
def Token.Bare (tok : Token) : Prop :=
  IsPlain tok.text ∧ ∀ name, tok = .symbol name → IsName name ∨ name = "->>".toList

theorem isPlain_of_isDigit (h : ∀ c ∈ s, c.isDigit = true ∨ c = '.') : IsPlain s := by
  constructor
  · exact fun hmem => absurd (h _ hmem) (by decide)
  · exact fun hmem => absurd (h _ hmem) (by decide)

/-- A number or a version. -/
def Token.isNumber : Token → Bool
  | .integer _ | .float _ | .version _ _ _ => true
  | _ => false

theorem bare_of_isNumber (h : tok.isNumber = true) : tok.Bare := by
  have hempty : IsPlain [] := ⟨List.not_mem_nil, List.not_mem_nil⟩
  cases tok with
  | integer n => exact ⟨hempty, by simp⟩
  | float bits => exact ⟨hempty, by simp⟩
  | version a b c =>
    refine ⟨isPlain_of_isDigit fun d hd => ?_, by simp⟩
    have htext : (Token.version a b c).text = Nat.toDigits 10 a ++ '.' :: (Nat.toDigits 10 b ++
        '.' :: Nat.toDigits 10 c) := by
      simp [Token.text, atomOf, tokenToAtom, AtomKind.text, Except.toOption]
    rw [htext] at hd
    simp only [List.mem_append, List.mem_cons] at hd
    rcases hd with hd | rfl | hd | rfl | hd
    · exact Or.inl ((isDigits_toDigits a).2 d hd)
    · exact Or.inr rfl
    · exact Or.inl ((isDigits_toDigits b).2 d hd)
    · exact Or.inr rfl
    · exact Or.inl ((isDigits_toDigits c).2 d hd)
  | _ => cases h

theorem bare_of_mem (h : tok ∈ [.lparen, .rparen, .lbracket, .rbracket, .comma, .colon, .arrow,
    .symbol "->>".toList]) : tok.Bare := by
  have hplain : ∀ tok ∈ [.lparen, .rparen, .lbracket, .rbracket, .comma, .colon, .arrow,
      .symbol "->>".toList], IsPlain (Token.text tok) := by decide
  refine ⟨hplain tok h, ?_⟩
  rintro name rfl
  exact Or.inr (by simpa using h)

section Numbers

variable {P : Token → Prop} (hinteger : ∀ n, P (.integer n)) (hfloat : ∀ bits, P (.float bits))
  (hversion : ∀ {a b c}, a < 4294967296 → b < 4294967296 → c < 4294967296 → P (.version a b c))

theorem parseU32_lt {ds : List Char} {n : Nat} (h : parseU32 ds = some n) : n < 4294967296 := by
  unfold parseU32 at h
  split at h
  · next hsmall => exact Option.some.inj h ▸ hsmall.2
  · cases h

include hinteger in

/-- What holds of every number token holds of one with a radix. -/
theorem lexRadix_token {negative : Bool} {radix : Nat} {p : Char → Bool} {form : String}
    (h : lexRadix negative radix p form s = .ok (tok, t)) : P tok := by
  unfold lexRadix at h
  split at h
  · cases h
    exact hinteger _
  · cases h

include hversion in
theorem lexVersion_token {negative : Bool} {major minor patch : List Char}
    (h : lexVersion negative major minor patch rest = .ok (tok, t)) : P tok := by
  unfold lexVersion at h
  split at h
  · cases h
  · split at h
    · cases h
    · cases h
    · cases h
    · next hmajor hminor hpatch =>
      cases h
      exact hversion (parseU32_lt hmajor) (parseU32_lt hminor) (parseU32_lt hpatch)

include hinteger hfloat

theorem finishNumber_token {text : List Char}
    (h : finishNumber parse text rest = .ok (tok, t)) : P tok := by
  unfold finishNumber at h
  split at h
  · split at h
    · cases h
      exact hfloat _
    · cases h
  · split at h
    · cases h
      exact hinteger _
    · cases h

include hversion

/-- And of a decimal one. -/
theorem lexDecimal_token {negative : Bool} (h : lexDecimal parse negative s = .ok (tok, t)) :
    P tok := by
  unfold lexDecimal at h
  dsimp only at h
  split at h
  · split at h
    · exact lexVersion_token hversion h
    · exact finishNumber_token hinteger hfloat h
  · exact finishNumber_token hinteger hfloat h

theorem lexUnsigned_token {negative : Bool} (h : lexUnsigned parse negative s = .ok (tok, t)) :
    P tok := by
  unfold lexUnsigned at h
  split at h
  · split at h
    · exact lexRadix_token hinteger h
    · split at h
      · exact lexRadix_token hinteger h
      · exact lexDecimal_token hinteger hfloat hversion h
  · exact lexDecimal_token hinteger hfloat hversion h

theorem lexNumber_token (h : lexNumber parse s = .ok (tok, t)) : P tok := by
  unfold lexNumber at h
  split at h
  · exact lexUnsigned_token hinteger hfloat hversion h
  · exact lexUnsigned_token hinteger hfloat hversion h

end Numbers

theorem lexNumber_isNumber (h : lexNumber parse s = .ok (tok, t)) : tok.isNumber = true := by
  apply lexNumber_token (P := (Token.isNumber · = true))
  · exact fun _ => rfl
  · exact fun _ => rfl
  · exact fun _ _ _ => rfl
  · exact h

theorem bare_lexSymbol (s : List Char) : (lexSymbol s).1.Bare := by
  have hempty : IsPlain [] := ⟨List.not_mem_nil, List.not_mem_nil⟩
  rw [lexSymbol]
  dsimp only
  split_ifs
  · exact ⟨hempty, by simp⟩
  · exact ⟨hempty, by simp⟩
  · exact ⟨hempty, by simp⟩
  · refine ⟨isPlain_of_symbolChars fun c hc => ?_, fun name hname => ?_⟩
    · have htext : (Token.symbol (symbolSpan s).1).text = (symbolSpan s).1 := List.append_nil _
      rw [htext] at hc
      exact symbolSpan_chars hc
    · cases hname
      exact Or.inl (isName_of_symbolSpan rfl)

theorem bare_lexKeywordOrColon (s : List Char) : (lexKeywordOrColon s).1.Bare := by
  unfold lexKeywordOrColon
  split
  · refine ⟨isPlain_of_symbolChars fun c hc => ?_, by simp⟩
    have htext : (Token.keyword (s.takeWhile isSymbolChar)).text =
        ':' :: s.takeWhile isSymbolChar := List.append_nil _
    rw [htext] at hc
    rcases List.mem_cons.mp hc with rfl | hc
    · decide
    · exact List.mem_takeWhile_imp hc
  · exact bare_of_mem (by simp)

/-- Only a string token can hold a backslash. -/
theorem readToken_bare {c : Char} (h : readToken parse c s = .ok (tok, t)) :
    tok.Bare ∨ c = '"' ∧ ∃ w, tok = .str w ∧ lexString [] s = .ok (w, t) := by
  have htok {p : Token × List Char} (h : (.ok p : LexResult _) = .ok (tok, t)) (hp : p.1.Bare) :
      tok.Bare ∨ c = '"' ∧ ∃ w, tok = .str w ∧ lexString [] s = .ok (w, t) := by
    cases h
    exact Or.inl hp
  unfold readToken at h
  iterate 5
    rcases ite_eq_iff.mp h with ⟨-, h⟩ | ⟨-, h⟩
    · exact htok h (bare_of_mem (by simp))
  rcases ite_eq_iff.mp h with ⟨hquote, h⟩ | ⟨-, h⟩
  · cases hstring : lexString [] s with
    | error e =>
      rw [hstring] at h
      cases h
    | ok p =>
      rw [hstring] at h
      cases h
      exact Or.inr ⟨hquote, _, rfl, rfl⟩
  rcases ite_eq_iff.mp h with ⟨-, h⟩ | ⟨-, h⟩
  · exact htok h (bare_lexKeywordOrColon s)
  rcases ite_eq_iff.mp h with ⟨-, h⟩ | ⟨-, h⟩
  · exact htok h (bare_of_mem (by simp))
  rcases ite_eq_iff.mp h with ⟨-, h⟩ | ⟨-, h⟩
  · exact htok h (bare_of_mem (by simp))
  rcases ite_eq_iff.mp h with ⟨-, h⟩ | ⟨-, h⟩
  · exact Or.inl (bare_of_isNumber (lexNumber_isNumber h))
  rcases ite_eq_iff.mp h with ⟨-, h⟩ | ⟨-, h⟩
  · exact htok h (bare_lexSymbol _)
  · cases h

/-- Each token uses up the backslashes of its text. -/
theorem escapes_of_nextToken (h : nextToken parse s = .ok (some (tok, t))) :
    escapes tok.text + t.count '\\' ≤ s.count '\\' := by
  unfold nextToken at h
  split at h
  · cases h
  · cases h
  · next c cs hskip =>
    cases htoken : readToken parse c cs with
    | error e =>
      rw [htoken] at h
      cases h
    | ok p =>
      rw [htoken] at h
      cases h
      have hle := (suffix_skipWhitespaceAndComments hskip).sublist.count_le '\\'
      refine Nat.le_trans ?_ hle
      rcases readToken_bare htoken with hbare | ⟨rfl, w, rfl, hstring⟩
      · rw [escapes_eq_zero_iff.mpr hbare.1, Nat.zero_add]
        exact ((suffix_readToken htoken).sublist.cons c).count_le _
      · obtain ⟨more, hw, hmore⟩ := escapes_of_lexString hstring
        have htext : (Token.str w).text = w := List.append_nil _
        rw [htext, hw, List.nil_append, List.count_cons_of_ne (by decide)]
        exact hmore

/-- The tokens of a text take no more backslashes than it holds. -/
theorem escapes_of_lexes (h : Lexes parse s ts) :
    escapes (ts.flatMap Token.text) ≤ s.count '\\' := by
  induction h with
  | done => exact Nat.zero_le _
  | next hnext _ ih =>
    have := escapes_of_nextToken hnext
    rw [List.flatMap_cons, escapes_append]
    omega

/-- A symbol that is lexed is a name. -/
theorem isName_of_lexes {name : List Char} (h : Lexes parse s ts) (hmem : .symbol name ∈ ts) :
    IsName name ∨ name = "->>".toList := by
  induction h with
  | done => cases hmem
  | @next s t tok ts hnext _ ih =>
    rcases List.mem_cons.mp hmem with rfl | hmem
    · unfold nextToken at hnext
      split at hnext
      · cases hnext
      · cases hnext
      · next c cs _ =>
        cases htoken : readToken parse c cs with
        | error e =>
          rw [htoken] at hnext
          cases hnext
        | ok p =>
          rw [htoken] at hnext
          cases hnext
          rcases readToken_bare htoken with hbare | ⟨-, w, hstr, -⟩
          · exact hbare.2 _ rfl
          · cases hstr
    · exact ih hmem

end Airl.Syntax
