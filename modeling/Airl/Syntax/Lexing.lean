import Airl.Syntax.SExpr

/-! # The tokens of a written text

Which token stands at the front of a text, for the texts a program writes: names,
numbers and strings with a blank or a closing bracket behind them.
-/

namespace Airl.Syntax

open Lexer

/-- The tokens of a text, without the limit on their number. -/
inductive Lexes (parse : ParseFloat) : List Char → List Token → Prop where
  | done {s} (h : nextToken parse s = .ok none) : Lexes parse s []
  | next {s t tok ts} (h : nextToken parse s = .ok (some (tok, t))) (hts : Lexes parse t ts) :
      Lexes parse s (tok :: ts)

variable {parse : ParseFloat} {s t rest : List Char} {ts : List Token} {tok : Token} {c : Char}

theorem lexes_iff_of_token (h : nextToken parse s = .ok (some (tok, t))) :
    Lexes parse s ts ↔ ∃ ts', ts = tok :: ts' ∧ Lexes parse t ts' := by
  constructor
  · intro hs
    cases hs with
    | done hnone =>
      rw [h] at hnone
      cases hnone
    | next hsome hts =>
      rw [h] at hsome
      cases hsome
      exact ⟨_, rfl, hts⟩
  · rintro ⟨ts', rfl, hts⟩
    exact .next h hts

theorem lexes_iff_of_end (h : nextToken parse s = .ok none) : Lexes parse s ts ↔ ts = [] := by
  constructor
  · intro hs
    cases hs with
    | done => rfl
    | next hsome =>
      rw [h] at hsome
      cases hsome
  · rintro rfl
    exact .done h

theorem not_lexes_of_error {e : String} (h : nextToken parse s = .error e) :
    ¬ Lexes parse s ts := by
  intro hs
  cases hs with
  | done hnone =>
    rw [h] at hnone
    cases hnone
  | next hsome =>
    rw [h] at hsome
    cases hsome

theorem lexes_congr (h : nextToken parse s = nextToken parse t) :
    Lexes parse s ts ↔ Lexes parse t ts := by
  constructor
  · intro hs
    cases hs with
    | done hnone => exact .done (h ▸ hnone)
    | next hsome hts => exact .next (h ▸ hsome) hts
  · intro ht
    cases ht with
    | done hnone => exact .done (h ▸ hnone)
    | next hsome hts => exact .next (h ▸ hsome) hts

theorem lexAll_eq_ok_iff {count : Nat} : lexAll parse count s = .ok ts ↔
    Lexes parse s ts ∧ (ts = [] ∨ count + ts.length < maxTokenCount) := by
  induction hn : s.length using Nat.strong_induction_on generalizing s ts count with
  | _ n ih =>
    subst hn
    rw [lexAll]
    split
    · next e he =>
      constructor
      · intro h
        cases h
      · exact fun h => absurd h.1 (not_lexes_of_error he)
    · next hnone =>
      rw [lexes_iff_of_end hnone, Except.ok.injEq]
      constructor
      · rintro rfl
        exact ⟨rfl, Or.inl rfl⟩
      · exact fun h => h.1.symm
    · next tok t hsome =>
      rw [lexes_iff_of_token hsome]
      dsimp only
      split
      · next hlimit =>
        constructor
        · intro h
          cases h
        · rintro ⟨⟨ts', rfl, -⟩, hcount⟩
          rcases hcount with hcount | hcount
          · cases hcount
          · rw [List.length_cons] at hcount
            omega
      · next hlimit =>
        have htail := fun ts' => @ih t.length (length_nextToken hsome) t ts' (count + 1) rfl
        constructor
        · intro h
          cases hrest : lexAll parse (count + 1) t with
          | error e =>
            rw [hrest] at h
            cases h
          | ok ts' =>
            rw [hrest] at h
            cases h
            obtain ⟨hts, hcount⟩ := (htail ts').mp hrest
            refine ⟨⟨ts', rfl, hts⟩, Or.inr ?_⟩
            rcases hcount with rfl | hcount
            · rw [List.length_singleton]
              omega
            · rw [List.length_cons]
              omega
        · rintro ⟨⟨ts', rfl, hts⟩, hcount⟩
          have hrest := (htail ts').mpr ⟨hts, Or.inr (by
            rcases hcount with hcount | hcount
            · cases hcount
            · rw [List.length_cons] at hcount
              omega)⟩
          rw [hrest]
          rfl

/-! ## What stands at the front -/

/-- A text that goes on with a blank or a closing bracket. -/
def Delimited (rest : List Char) : Prop :=
  ∃ c cs, rest = c :: cs ∧ (c = ' ' ∨ c = ')' ∨ c = ']')

/-- A text that does not go on with a character of a name. -/
def Breaks (rest : List Char) : Prop := rest.head?.all (!isSymbolChar ·) = true

theorem breaks_nil : Breaks [] := rfl

theorem breaks_cons (hc : isSymbolChar c = false) (s : List Char) : Breaks (c :: s) := by
  simp [Breaks, hc]

theorem Delimited.breaks (h : Delimited rest) : Breaks rest := by
  obtain ⟨c, cs, rfl, hc⟩ := h
  refine breaks_cons ?_ cs
  rcases hc with rfl | rfl | rfl <;> decide

theorem Breaks.head (h : Breaks rest) (hc : rest.head? = some c) : isSymbolChar c = false := by
  rw [Breaks, hc] at h
  simpa using h

/-- Neither a blank nor the start of a comment. -/
def startsToken (c : Char) : Bool := !(isAsciiWhitespace c || c == ';' || c == '#')

theorem nextToken_blank (hc : isAsciiWhitespace c = true) (s : List Char) :
    nextToken parse (c :: s) = nextToken parse s := by
  have hskip : skipWhitespaceAndComments (c :: s) = skipWhitespaceAndComments s := by
    rw [skipWhitespaceAndComments, if_pos hc]
  rw [nextToken, nextToken, hskip]

theorem nextToken_space (s : List Char) : nextToken parse (' ' :: s) = nextToken parse s :=
  nextToken_blank rfl s

theorem isSymbolChar_of_blank (hc : isAsciiWhitespace c = true) : isSymbolChar c = false := by
  simp only [isAsciiWhitespace, Bool.or_eq_true, beq_iff_eq] at hc
  rcases hc with (((rfl | rfl) | rfl) | rfl) | rfl <;> decide

theorem nextToken_nil : nextToken parse [] = .ok none := by
  rw [nextToken, skipWhitespaceAndComments]

theorem nextToken_cons (h : startsToken c = true) :
    nextToken parse (c :: s) = (readToken parse c s).map some := by
  simp only [startsToken, Bool.not_eq_true', Bool.or_eq_false_iff] at h
  have hskip : skipWhitespaceAndComments (c :: s) = .ok (c :: s) := by
    rw [skipWhitespaceAndComments, if_neg (by simp [h.1.1]), if_neg (by simp [h.1.2]),
      if_neg (by simp [h.2])]
  rw [nextToken, hskip]

theorem nextToken_lparen : nextToken parse ('(' :: s) = .ok (some (.lparen, s)) := by
  rw [nextToken_cons rfl]
  rfl

theorem nextToken_rparen : nextToken parse (')' :: s) = .ok (some (.rparen, s)) := by
  rw [nextToken_cons rfl]
  rfl

theorem nextToken_lbracket : nextToken parse ('[' :: s) = .ok (some (.lbracket, s)) := by
  rw [nextToken_cons rfl]
  rfl

theorem nextToken_rbracket : nextToken parse (']' :: s) = .ok (some (.rbracket, s)) := by
  rw [nextToken_cons rfl]
  rfl

theorem nextToken_quote : nextToken parse ('"' :: s) =
    (lexString [] s).map fun p => some (.str p.1, p.2) := by
  rw [nextToken_cons rfl]
  have hread : readToken parse '"' s = (lexString [] s).map fun p => (.str p.1, p.2) := rfl
  rw [hread]
  cases lexString [] s <;> rfl

/-! ## Names -/

theorem Breaks.head_any {p : Char → Bool} (h : Breaks rest)
    (hp : ∀ c, p c = true → isSymbolChar c = true) : rest.head?.any p = false := by
  cases rest with
  | nil => rfl
  | cons c cs =>
    have hc := h.head rfl
    rw [List.head?_cons, Option.any_some]
    by_contra hne
    rw [hp c (by simpa using hne)] at hc
    cases hc

theorem isSymbolChar_of_isSymbolStart (h : isSymbolStart c = true) : isSymbolChar c = true := by
  simp [isSymbolChar, h]

theorem isSymbolChar_of_isDigit (h : c.isDigit = true) : isSymbolChar c = true := by
  simp [isSymbolChar, h]

theorem symbolSpan_append (s : List Char) (hrest : Breaks rest) :
    symbolSpan (s ++ rest) = ((symbolSpan s).1, (symbolSpan s).2 ++ rest) := by
  induction s with
  | nil =>
    cases rest with
    | nil => rfl
    | cons c cs => simp [symbolSpan, hrest.head rfl]
  | cons d s ih =>
    have hhead : (s ++ rest).head?.any isSymbolStart = s.head?.any isSymbolStart := by
      cases s with
      | nil => exact hrest.head_any fun _ => isSymbolChar_of_isSymbolStart
      | cons e s => rfl
    rw [List.cons_append, symbolSpan, symbolSpan, hhead, ih]
    split <;> rfl

/-- The name is read as one symbol. -/
def IsName (name : List Char) : Prop := symbolSpan name = (name, [])

instance : DecidablePred IsName := fun name => inferInstanceAs (Decidable (symbolSpan name = _))

theorem symbolSpan_fst_append (s : List Char) : (symbolSpan s).1 ++ (symbolSpan s).2 = s := by
  fun_induction symbolSpan s with
  | case1 => rfl
  | case2 c s _ name rest hspan ih =>
    rw [hspan] at ih
    simpa using ih
  | case3 => rfl

theorem symbolSpan_breaks {name u : List Char} (hrest : Breaks rest) :
    symbolSpan (name ++ rest) = (name, u) ↔ IsName name ∧ u = rest := by
  rw [symbolSpan_append name hrest]
  have hwhole := symbolSpan_fst_append name
  constructor
  · intro h
    have hname : (symbolSpan name).1 = name := congrArg Prod.fst h
    have hnil : (symbolSpan name).2 = [] := by
      rw [hname] at hwhole
      exact List.append_right_eq_self.mp hwhole
    have hu : (symbolSpan name).2 ++ rest = u := congrArg Prod.snd h
    rw [hnil] at hu
    exact ⟨Prod.ext hname hnil, hu.symm⟩
  · rintro ⟨hname, rfl⟩
    rw [IsName] at hname
    rw [hname]
    rfl

theorem isDigit_of_isAlpha (hc : c.isAlpha = true) : c.isDigit = false := by
  have hletter : (decide (c.val ≥ 'A'.val ∧ c.val ≤ 'Z'.val) ||
      (decide (c.val ≥ 'a'.val) && decide (c.val ≤ 'z'.val))) = true := hc
  simp only [Bool.or_eq_true, Bool.and_eq_true, decide_eq_true_eq, ge_iff_le,
    UInt32.le_iff_toNat_le] at hletter
  have hrange : 65 ≤ c.val.toNat ∧ c.val.toNat ≤ 90 ∨ 97 ≤ c.val.toNat ∧ c.val.toNat ≤ 122 :=
    hletter
  cases hdigit : c.isDigit with
  | false => rfl
  | true =>
    simp only [Char.isDigit, Bool.and_eq_true, decide_eq_true_eq, ge_iff_le,
      UInt32.le_iff_toNat_le] at hdigit
    have hvalue : 48 ≤ c.val.toNat ∧ c.val.toNat ≤ 57 := hdigit
    omega

theorem isAlpha_of_isUpper (hc : c.isUpper = true) : c.isAlpha = true := by
  have hor : c.isAlpha = (c.isUpper || c.isLower) := rfl
  rw [hor, hc, Bool.true_or]

theorem nextToken_alpha (hc : c.isAlpha = true) :
    nextToken parse (c :: s) = .ok (some (lexSymbol (c :: s))) := by
  have hne : ∀ d : Char, d.isAlpha = false → c ≠ d := by
    rintro d hd rfl
    rw [hd] at hc
    cases hc
  have hstarts : startsToken c = true := by
    simp [startsToken, isAsciiWhitespace, hne ' ' rfl, hne '\t' rfl, hne '\n' rfl,
      hne '\x0c' rfl, hne '\r' rfl, hne ';' rfl, hne '#' rfl]
  have hread : readToken parse c s = .ok (lexSymbol (c :: s)) := by
    simp [readToken, hne '(' rfl, hne ')' rfl, hne '[' rfl, hne ']' rfl, hne ',' rfl, hne '"' rfl,
      hne ':' rfl, hne '-' rfl, isDigit_of_isAlpha hc, isSymbolStart, hc]
  rw [nextToken_cons hstarts, hread]
  rfl

theorem nextToken_name {name : List Char} (hname : IsName name)
    (hhead : name.head?.any Char.isAlpha = true) (hrest : Breaks rest) :
    nextToken parse (name ++ rest) =
      .ok (some (if name = "true".toList then .bool true
        else if name = "false".toList then .bool false
        else if name = "nil".toList then .nil
        else .symbol name, rest)) := by
  cases name with
  | nil => cases hhead
  | cons c cs =>
    have hspan := (symbolSpan_breaks hrest).mpr ⟨hname, rfl⟩
    rw [List.cons_append] at hspan ⊢
    rw [nextToken_alpha (by simpa using hhead), lexSymbol, hspan]

theorem nextToken_minusName {name : List Char} (hhead : name.head?.any Char.isAlpha = true)
    (hname : IsName ('-' :: name)) (hrest : Breaks rest) :
    nextToken parse ('-' :: name ++ rest) = .ok (some (.symbol ('-' :: name), rest)) := by
  cases name with
  | nil => cases hhead
  | cons c cs =>
    have hc : c.isAlpha = true := by simpa using hhead
    have hgreater : c ≠ '>' := by
      rintro rfl
      cases hc
    have hread : readToken parse '-' (c :: cs ++ rest) =
        .ok (lexSymbol ('-' :: (c :: cs ++ rest))) := by
      simp [readToken, hgreater, isDigit_of_isAlpha hc, isSymbolStart]
    have hspan := (symbolSpan_breaks hrest).mpr ⟨hname, rfl⟩
    rw [List.cons_append] at hspan ⊢
    rw [nextToken_cons rfl, hread, lexSymbol, hspan]
    simp [Except.map]

theorem takeWhile_front {p : Char → Bool} {front : List Char} (hfront : ∀ c ∈ front, p c = true)
    (hrest : rest.head?.any p = false) :
    (front ++ rest).takeWhile p = front ∧ (front ++ rest).dropWhile p = rest := by
  rw [List.takeWhile_append_of_pos hfront, List.dropWhile_append_of_pos hfront]
  cases rest with
  | nil => simp
  | cons c cs =>
    have hc : p c = false := by simpa using hrest
    rw [List.takeWhile_cons_of_neg (by simp [hc]), List.dropWhile_cons_of_neg (by simp [hc])]
    simp

theorem nextToken_keyword {name : List Char} (hname : name ≠ [])
    (hchars : ∀ c ∈ name, isSymbolChar c = true) (hrest : Breaks rest) :
    nextToken parse (':' :: name ++ rest) = .ok (some (.keyword name, rest)) := by
  obtain ⟨htake, hdrop⟩ := takeWhile_front hchars (hrest.head_any fun _ h => h)
  have hhead : (name ++ rest).head?.any isSymbolChar = true := by
    cases name with
    | nil => exact absurd rfl hname
    | cons c cs => simpa using hchars c (by simp)
  rw [List.cons_append, nextToken_cons rfl]
  have hread : readToken parse ':' (name ++ rest) =
      .ok (lexKeywordOrColon (name ++ rest)) := rfl
  rw [hread, lexKeywordOrColon, if_pos hhead, htake, hdrop]
  rfl

/-! ## Numbers -/

/-- The text of digits that are not empty. -/
def IsDigits (ds : List Char) : Prop := ds ≠ [] ∧ ∀ c ∈ ds, c.isDigit = true

def signText (negative : Bool) : List Char := if negative then ['-'] else []

theorem Breaks.head_ne (h : Breaks rest) (hd : isSymbolChar c = true) : rest.head? ≠ some c := by
  intro hc
  rw [h.head hc] at hd
  cases hd

theorem Breaks.head_not_mem (h : Breaks rest) {cs : List Char}
    (hcs : cs.all isSymbolChar = true) : ∀ c ∈ rest.head?, c ∉ cs :=
  fun _ hc hmem => h.head_ne (List.all_eq_true.mp hcs _ hmem) hc

theorem lexTail_plain {text : List Char} (hrest : ∀ c ∈ rest.head?, c ∉ ['e', 'E', 'f']) :
    lexTail parse text rest = finishNumber parse text rest := by
  have hexponent : lexExponent rest = ([], rest) := by
    cases rest with
    | nil => rfl
    | cons c cs =>
      have hc := hrest c rfl
      simp only [List.mem_cons, List.not_mem_nil, or_false, not_or] at hc
      simp only [lexExponent, hc.1, hc.2.1, or_self, if_false]
  have hsuffix : lexSuffix rest = ([], rest) := by
    rw [lexSuffix]
    rintro s rfl
    exact absurd (hrest 'f' rfl) (by decide)
  rw [lexTail, hexponent]
  simp only [hsuffix, List.append_nil]

/-- No mark of a base stands behind the zero that digits begin with. -/
theorem lexUnsigned_plain {negative : Bool} {ds : List Char} (hds : IsDigits ds)
    (hrest : ds = ['0'] → ∀ c ∈ rest.head?, c ∉ ['x', 'X', 'b', 'B']) :
    lexUnsigned parse negative (ds ++ rest) = lexDecimal parse negative (ds ++ rest) := by
  have hsecond : ∀ x t, ds ++ rest = '0' :: x :: t → x ∉ ['x', 'X', 'b', 'B'] := by
    intro x t heq
    match ds, hds with
    | [], h => exact absurd rfl h.1
    | [d], _ =>
      obtain ⟨rfl, hx⟩ := List.cons.inj heq
      exact hrest rfl x (congrArg List.head? hx)
    | _ :: d :: ds, h =>
      obtain ⟨-, hx⟩ := List.cons.inj heq
      obtain ⟨rfl, -⟩ := List.cons.inj hx
      have hd : d.isDigit = true := h.2 d (by simp)
      intro hmem
      simp only [List.mem_cons, List.not_mem_nil, or_false] at hmem
      rcases hmem with rfl | rfl | rfl | rfl
      all_goals cases hd
  unfold lexUnsigned
  split
  · next x t heq =>
    have hx := hsecond x t heq
    simp only [List.mem_cons, List.not_mem_nil, or_false, not_or] at hx
    rw [if_neg (by simp [hx.1, hx.2.1]), if_neg (by simp [hx.2.2.1, hx.2.2.2])]
  · rfl

theorem nextToken_number {negative : Bool} {ds : List Char} (hds : IsDigits ds) :
    nextToken parse (signText negative ++ ds ++ rest) =
      (lexUnsigned parse negative (ds ++ rest)).map some := by
  obtain ⟨hne, hdigits⟩ := hds
  cases ds with
  | nil => exact absurd rfl hne
  | cons d ds =>
    have hd : d.isDigit = true := hdigits d (by simp)
    have hned : ∀ c : Char, c.isDigit = false → d ≠ c := by
      rintro c hc rfl
      rw [hc] at hd
      cases hd
    cases negative with
    | true =>
      have hread : readToken parse '-' (d :: ds ++ rest) =
          lexUnsigned parse true (d :: ds ++ rest) := by
        simp [readToken, hd, lexNumber, hned '>' rfl]
      rw [signText, if_pos rfl, List.append_assoc, List.singleton_append, nextToken_cons rfl, hread]
    | false =>
      have hstarts : startsToken d = true := by
        simp [startsToken, isAsciiWhitespace, hned ' ' rfl, hned '\t' rfl, hned '\n' rfl,
          hned '\x0c' rfl, hned '\r' rfl, hned ';' rfl, hned '#' rfl]
      have hread : readToken parse d (ds ++ rest) =
          lexUnsigned parse false (d :: ds ++ rest) := by
        simp [readToken, hned '(' rfl, hned ')' rfl, hned '[' rfl, hned ']' rfl, hned ',' rfl,
          hned '"' rfl, hned ':' rfl, hned '-' rfl, hd, lexNumber]
      rw [signText, if_neg (by decide), List.nil_append, List.cons_append,
        nextToken_cons hstarts, hread]
      rfl

theorem Breaks.head_not_digit (h : Breaks rest) :
    rest.head?.any Char.isDigit = false ∧ rest.head? ≠ some '.' :=
  ⟨h.head_any fun _ => isSymbolChar_of_isDigit, h.head_ne rfl⟩

theorem lexDecimal_literal {negative : Bool} {digits : List Char}
    (hdigits : ∀ c ∈ digits, c.isDigit = true)
    (hrest : ∀ c ∈ rest.head?, c.isDigit = false ∧ c ∉ ['e', 'E', 'f'])
    (hpoint : (rest.head? == some '.' && rest.tail.head?.any Char.isDigit) = false) :
    lexDecimal parse negative (digits ++ rest) =
      finishNumber parse (signText negative ++ digits) rest := by
  have hstop : rest.head?.any Char.isDigit = false := by
    cases rest with
    | nil => rfl
    | cons c cs => exact (hrest c rfl).1
  obtain ⟨htake, hdrop⟩ := takeWhile_front hdigits hstop
  rw [lexDecimal]
  simp only [htake, hdrop]
  rw [hpoint, if_neg Bool.false_ne_true]
  exact lexTail_plain fun c hc => (hrest c hc).2

/-- A decimal integer is lexed up to its end. -/
theorem lexDecimal_integer {negative : Bool} {ds : List Char} (hds : IsDigits ds)
    (hrest : Breaks rest) :
    lexDecimal parse negative (ds ++ rest) = finishNumber parse (signText negative ++ ds) rest := by
  refine lexDecimal_literal hds.2 (fun c hc => ⟨?_, hrest.head_not_mem rfl c hc⟩) ?_
  · simpa [Option.mem_def.mp hc] using hrest.head_not_digit.1
  · simp [hrest.head_not_digit.2]

/-- So is a number with a fraction. -/
theorem lexDecimal_fraction {negative : Bool} {ds fs : List Char} (hds : IsDigits ds)
    (hfs : IsDigits fs) (hrest : Breaks rest) :
    lexDecimal parse negative (ds ++ '.' :: fs ++ rest) =
      finishNumber parse (signText negative ++ ds ++ '.' :: fs) rest := by
  obtain ⟨hdigit, hdot⟩ := hrest.head_not_digit
  obtain ⟨htake, hdrop⟩ := takeWhile_front hds.2
    (show ('.' :: (fs ++ rest)).head?.any Char.isDigit = false from rfl)
  obtain ⟨htake', hdrop'⟩ := takeWhile_front hfs.2 hdigit
  have hhead : (fs ++ rest).head?.any Char.isDigit = true := by
    cases fs with
    | nil => exact absurd rfl hfs.1
    | cons f fs => simpa using hfs.2 f (by simp)
  rw [List.append_assoc, List.cons_append, lexDecimal]
  simp only [htake, hdrop, List.head?_cons, List.tail_cons, hhead, htake', hdrop']
  rw [if_pos (by simp), if_neg (by simp [hdot])]
  exact lexTail_plain (hrest.head_not_mem rfl)

theorem not_float {text : List Char} (hchars : ∀ c ∈ text, c.isDigit = true ∨ c = '-') :
    ¬ ('.' ∈ text ∨ 'e' ∈ text ∨ 'E' ∈ text) := by
  have hnot : ∀ c : Char, c.isDigit = false → c ≠ '-' → c ∉ text := by
    intro c hc hminus hmem
    rcases hchars c hmem with h | h
    · rw [hc] at h
      cases h
    · exact hminus h
  simp [hnot '.' rfl (by decide), hnot 'e' rfl (by decide), hnot 'E' rfl (by decide)]

/-- Digits that fit are an integer. -/
theorem finishNumber_integer {text : List Char} {n : Int64} (h : parseI64 text = some n)
    (hchars : ∀ c ∈ text, c.isDigit = true ∨ c = '-') :
    finishNumber parse text rest = .ok (.integer n, rest) := by
  rw [finishNumber, if_neg (not_float hchars), h]

/-- Digits that do not fit are refused. -/
theorem finishNumber_invalid {text : List Char} (h : parseI64 text = none)
    (hchars : ∀ c ∈ text, c.isDigit = true ∨ c = '-') :
    finishNumber parse text rest = .error "invalid integer literal" := by
  rw [finishNumber, if_neg (not_float hchars), h]

theorem finishNumber_float {text : List Char} {bits : UInt64} (h : parse text = some bits)
    (hdot : '.' ∈ text) (hf : 'f' ∉ text) :
    finishNumber parse text rest = .ok (.float bits, rest) := by
  have hall : text.takeWhile (· != 'f') = text := by
    rw [List.takeWhile_eq_self_iff]
    intro c hc
    simpa using ne_of_mem_of_not_mem hc hf
  rw [finishNumber, if_pos (Or.inl hdot), hall, h]

theorem isDigits_toDigits (k : Nat) : IsDigits (Nat.toDigits 10 k) :=
  ⟨Nat.toDigits_ne_nil, fun _ hc => Nat.isDigit_of_mem_toDigits (by decide) (by decide) hc⟩

/-- The text of an integer is a sign and digits that denote it. -/
theorem parseI64_toString (n : Int64) : ∃ negative k,
    (toString n.toInt).toList = signText negative ++ Nat.toDigits 10 k ∧
      parseI64 (signText negative ++ Nat.toDigits 10 k) = some n := by
  have hlow := n.le_toInt
  have hhigh := n.toInt_lt
  have hn := Int64.ofInt_toInt n
  have hdigits := fun k => (isDigits_toDigits k).2
  cases h : n.toInt with
  | ofNat k =>
    rw [h] at hhigh hn
    refine ⟨false, k, ?_, ?_⟩
    · rw [show toString (Int.ofNat k) = k.repr from rfl, Nat.repr_eq_ofList_toDigits]
      simp [signText]
    · rw [signText, if_neg (by decide), List.nil_append, parseI64]
      · rw [if_pos, Nat.ofDigitChars_ten_toDigits, ← hn]
        · exact congrArg some Int64.ofInt_eq_ofNat.symm
        · refine ⟨Nat.toDigits_ne_nil, List.all_eq_true.mpr (hdigits k), ?_⟩
          rw [Nat.ofDigitChars_ten_toDigits]
          have hk : Int.ofNat k = (k : Int) := rfl
          omega
      · intro ds heq
        have := hdigits k '-' (heq ▸ List.mem_cons_self)
        cases this
  | negSucc k =>
    rw [h] at hlow hn
    refine ⟨true, k + 1, ?_, ?_⟩
    · rw [show toString (Int.negSucc k) = "-" ++ (k + 1).repr from rfl,
        Nat.repr_eq_ofList_toDigits]
      simp [signText]
    · rw [signText, if_pos rfl, List.singleton_append, parseI64, if_pos,
        Nat.ofDigitChars_ten_toDigits, ← hn]
      · rfl
      · refine ⟨Nat.toDigits_ne_nil, List.all_eq_true.mpr (hdigits _), ?_⟩
        rw [Nat.ofDigitChars_ten_toDigits]
        omega

theorem nextToken_digits {negative : Bool} {ds : List Char} (hds : IsDigits ds)
    (hrest : Breaks rest) : nextToken parse (signText negative ++ ds ++ rest) =
      (finishNumber parse (signText negative ++ ds) rest).map some := by
  have hradix : ∀ c ∈ rest.head?, c ∉ ['x', 'X', 'b', 'B'] := hrest.head_not_mem rfl
  rw [nextToken_number hds, lexUnsigned_plain hds fun _ => hradix, lexDecimal_integer hds hrest]

theorem signText_digits {negative : Bool} {ds : List Char} (hds : IsDigits ds) :
    ∀ c ∈ signText negative ++ ds, c.isDigit = true ∨ c = '-' := by
  intro c hc
  rcases List.mem_append.mp hc with hc | hc
  · right
    unfold signText at hc
    split at hc
    · simpa using hc
    · cases hc
  · exact Or.inl (hds.2 c hc)

/-- A printed integer is one token. -/
theorem nextToken_int (n : Int64) (hrest : Breaks rest) :
    nextToken parse ((toString n.toInt).toList ++ rest) = .ok (some (.integer n, rest)) := by
  obtain ⟨negative, k, htext, hparse⟩ := parseI64_toString n
  have hds := isDigits_toDigits k
  rw [htext, nextToken_digits hds hrest, finishNumber_integer hparse (signText_digits hds)]
  rfl

/-- The text of a fraction: digits before and behind the point. -/
def fractionText (negative : Bool) (ds fs : List Char) : List Char :=
  signText negative ++ ds ++ '.' :: fs

/-- A printed float is one token. -/
theorem nextToken_float {negative : Bool} {ds fs : List Char} {bits : UInt64}
    (hds : IsDigits ds) (hfs : IsDigits fs)
    (hparse : parse (fractionText negative ds fs) = some bits) (hrest : Breaks rest) :
    nextToken parse (fractionText negative ds fs ++ rest) = .ok (some (.float bits, rest)) := by
  have hwhole : fractionText negative ds fs ++ rest =
      signText negative ++ ds ++ ('.' :: fs ++ rest) := by
    simp [fractionText]
  have hf : 'f' ∉ fractionText negative ds fs := by
    have hds' : 'f' ∉ ds := fun hmem => absurd (hds.2 _ hmem) (by decide)
    have hfs' : 'f' ∉ fs := fun hmem => absurd (hfs.2 _ hmem) (by decide)
    cases negative <;> simp [fractionText, signText, hds', hfs']
  have hradix : ∀ c ∈ ('.' :: fs ++ rest).head?, c ∉ ['x', 'X', 'b', 'B'] := by
    simp
  have hdecimal : lexDecimal parse negative (ds ++ ('.' :: fs ++ rest)) =
      .ok (.float bits, rest) := by
    rw [← List.append_assoc, lexDecimal_fraction hds hfs hrest]
    exact finishNumber_float hparse (by simp) hf
  rw [hwhole, nextToken_number hds, lexUnsigned_plain hds fun _ => hradix, hdecimal]
  rfl

/-! ## Strings -/

/-- No character that is written with a backslash. -/
def IsPlain (s : List Char) : Prop := '"' ∉ s ∧ '\\' ∉ s

/-- Short enough for a string literal. -/
def IsShort (s : List Char) : Prop := Text.byteLength s < maxStringLength

instance : DecidablePred IsPlain := fun _ => inferInstanceAs (Decidable (_ ∧ _))

instance : DecidablePred IsShort := fun _ => inferInstanceAs (Decidable (_ < _))

variable {value w : List Char}

theorem IsShort.of_append (h : IsShort (value ++ s)) : IsShort value := by
  rw [IsShort, Text.byteLength_append] at h
  exact Nat.lt_of_le_of_lt (Nat.le_add_right _ _) h

theorem lexString_quote (h : IsShort value) :
    lexString value ('"' :: rest) = .ok (value, rest) := by
  rw [lexString.eq_def]
  simp only [if_neg (Nat.not_le.mpr h), if_true]

theorem lexString_char (h : IsShort value) (hquote : c ≠ '"') (hslash : c ≠ '\\') :
    lexString value (c :: s) = lexString (value ++ [c]) s := by
  rw [lexString.eq_def]
  simp only [if_neg (Nat.not_le.mpr h), if_neg hquote, if_neg hslash]

/-- An escape is one character of the string. -/
theorem lexString_escape {d : Char} (h : IsShort value) (hd : escape c = some d) :
    lexString value ('\\' :: c :: s) = lexString (value ++ [d]) s := by
  rw [lexString.eq_def]
  simp [Nat.not_le.mpr h, hd]

/-- A string that is too long is refused. -/
theorem lexString_long (h : ¬ IsShort value) : ∃ e, lexString value s = .error e := by
  cases s with
  | nil => exact ⟨_, rfl⟩
  | cons c s =>
    rw [lexString.eq_def]
    exact ⟨_, if_pos (Nat.not_lt.mp h)⟩

/-- Plain characters are read as they are. -/
theorem lexString_plain (hs : IsPlain s) (hshort : IsShort (value ++ s)) :
    lexString value (s ++ '"' :: rest) = .ok (value ++ s, rest) := by
  induction s generalizing value with
  | nil =>
    rw [List.append_nil] at hshort ⊢
    exact lexString_quote hshort
  | cons c s ih =>
    obtain ⟨hquote, hslash⟩ := hs
    rw [List.mem_cons, not_or] at hquote hslash
    rw [List.cons_append, lexString_char hshort.of_append (Ne.symm hquote.1) (Ne.symm hslash.1),
      ih ⟨hquote.2, hslash.2⟩ (by simpa using hshort)]
    simp

theorem prefix_lexString (h : lexString value s = .ok (w, t)) : value <+: w := by
  fun_induction lexString value s with
  | case1 | case2 | case4 | case6 => cases h
  | case3 =>
    cases h
    exact List.prefix_refl _
  | case5 value e cs _ d hd _ ih => exact (List.prefix_append value [d]).trans (ih h)
  | case7 value c cs _ _ _ ih => exact (List.prefix_append value [c]).trans (ih h)

theorem escape_eq_slash {e : Char} (h : escape e = some '\\') : e = '\\' := by
  unfold escape at h
  split at h
  all_goals first | rfl | cases h

/-- A string that is lexed is short. -/
theorem isShort_of_lexString (h : lexString value s = .ok (w, t)) : IsShort value := by
  by_contra hlong
  obtain ⟨e, he⟩ := lexString_long (s := s) hlong
  rw [he] at h
  cases h

/-- The next character that is read is the next one of the whole. -/
theorem head_of_lexString {d : Char} {more : List Char}
    (h : lexString (value ++ [d]) s = .ok (value ++ c :: more, t)) : d = c := by
  have hprefix := (List.prefix_append_right_inj value).mp (prefix_lexString h)
  exact (List.cons_prefix_cons.mp hprefix).1

/-- A text in quotation marks is read as itself only if nothing in it is escaped. The `k`
backslashes were read from twice as many. -/
theorem lexString_inv {k : Nat}
    (h : lexString value (s ++ '"' :: rest) = .ok (value ++ (List.replicate k '\\' ++ s), t)) :
    k = 0 ∧ IsPlain s ∧ IsShort (value ++ s) ∧ t = rest := by
  induction hn : s.length using Nat.strong_induction_on generalizing s value k with
  | _ n ih =>
    subst hn
    have hshort := isShort_of_lexString h
    match s with
    | [] =>
      rw [List.nil_append, lexString_quote hshort, Except.ok.injEq, Prod.mk.injEq] at h
      have hk : k = 0 := by simpa using h.1
      rw [List.append_nil]
      exact ⟨hk, ⟨by simp, by simp⟩, hshort, h.2.symm⟩
    | c :: cs =>
      by_cases hquote : c = '"'
      · subst hquote
        rw [List.cons_append, lexString_quote hshort] at h
        have := congrArg List.length (congrArg Prod.fst (Except.ok.inj h))
        simp at this
      by_cases hslash : c = '\\'
      · subst hslash
        exfalso
        cases cs with
        | nil =>
          rw [List.cons_append, List.nil_append, lexString_escape hshort rfl] at h
          cases k with
          | zero => exact absurd (head_of_lexString h) (by decide)
          | succ k => exact absurd (head_of_lexString h) (by decide)
        | cons e cs =>
          cases hd : escape e with
          | none =>
            rw [List.cons_append, List.cons_append, lexString.eq_def] at h
            simp [Nat.not_le.mpr hshort, hd] at h
          | some d =>
            rw [List.cons_append, List.cons_append, lexString_escape hshort hd] at h
            obtain rfl : d = '\\' := by
              cases k with
              | zero => exact head_of_lexString h
              | succ k => exact head_of_lexString h
            obtain rfl := escape_eq_slash hd
            have hmore : value ++ (List.replicate k '\\' ++ '\\' :: '\\' :: cs) =
                (value ++ ['\\']) ++ (List.replicate (k + 1) '\\' ++ cs) := by
              have hswap : List.replicate k '\\' ++ '\\' :: '\\' :: cs =
                  '\\' :: (List.replicate k '\\' ++ '\\' :: cs) := by
                rw [← List.cons_append, ← List.replicate_succ, List.replicate_succ',
                  List.append_assoc, List.singleton_append]
              rw [hswap, List.replicate_succ']
              simp
            rw [hmore] at h
            exact absurd (ih cs.length (by simp only [List.length_cons]; omega) h rfl).1
              (Nat.succ_ne_zero k)
      · rw [List.cons_append, lexString_char hshort hquote hslash] at h
        cases k with
        | succ k => exact absurd (head_of_lexString h) hslash
        | zero =>
          have hsplit : value ++ (List.replicate 0 '\\' ++ c :: cs) =
              (value ++ [c]) ++ (List.replicate 0 '\\' ++ cs) := by
            simp
          rw [hsplit] at h
          obtain ⟨-, hplain, hlong, ht⟩ := ih cs.length (Nat.lt_succ_self _) h rfl
          refine ⟨rfl, ⟨?_, ?_⟩, by simpa using hlong, ht⟩
          · simp [Ne.symm hquote, hplain.1]
          · simp [Ne.symm hslash, hplain.2]

end Airl.Syntax
