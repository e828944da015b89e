import Airl.Syntax.Atoms
import Airl.Syntax.SExprLaw

/-! # Tokens that are read again

What is known of a token that was read from a text, and how the text of its atom is read in turn:
in front of anything that ends a name it is that token again.
-/

namespace Airl.Syntax

open Lexer

variable {parse : ParseFloat} {s t rest name : List Char} {c : Char} {tok : Token}
  {ts : List Token}

/-- A minus at the front is not that of an arrow or a number. -/
def NoSign (s : List Char) : Prop :=
  s.head? = some '-' → s.tail.head? ≠ some '>' ∧ s.tail.head?.any Char.isDigit = false

/-- A name that is read as one symbol. -/
structure IsSymbol (name : List Char) : Prop where
  isName : IsName name
  start : name.head?.any isSymbolStart = true
  noSign : NoSign name
  noConstant : name ∉ ["true".toList, "false".toList, "nil".toList]

theorem isDigit_of_isSymbolStart (hc : isSymbolStart c = true) : c.isDigit = false := by
  rcases Bool.or_eq_true_iff.mp hc with halpha | hmem
  · exact isDigit_of_isAlpha halpha
  · have hall : ['_', '+', '-', '*', '/', '%', '<', '>', '=', '!', '&', '|', '?', '.'].all
        (fun c => !c.isDigit) = true := by decide
    simpa using List.all_eq_true.mp hall c (of_decide_eq_true hmem)

theorem readToken_symbolStart (hc : isSymbolStart c = true) (hsign : NoSign (c :: s)) :
    readToken parse c s = .ok (lexSymbol (c :: s)) := by
  have hne : ∀ d : Char, isSymbolStart d = false → c ≠ d := by
    rintro d hd rfl
    rw [hd] at hc
    cases hc
  have harrow : ¬ (c = '-' ∧ s.take 1 = ['>']) := by
    rintro ⟨rfl, htake⟩
    obtain ⟨hgreater, -⟩ := hsign rfl
    cases s with
    | nil => cases htake
    | cons d s =>
      cases htake
      exact hgreater rfl
  have hthread : ¬ (c = '-' ∧ s.take 2 = ['>', '>']) := by
    rintro ⟨hminus, htake⟩
    refine harrow ⟨hminus, ?_⟩
    have hfirst : (s.take 2).take 1 = s.take 1 := List.take_take
    rw [← hfirst, htake]
    rfl
  have hnumber : ¬ (c.isDigit || (c == '-' && s.head?.any Char.isDigit)) = true := by
    rw [isDigit_of_isSymbolStart hc, Bool.false_or, Bool.and_eq_true, beq_iff_eq]
    rintro ⟨rfl, hdigit⟩
    obtain ⟨-, hnot⟩ := hsign rfl
    rw [List.tail_cons, hdigit] at hnot
    cases hnot
  unfold readToken
  rw [if_neg (hne '(' rfl), if_neg (hne ')' rfl), if_neg (hne '[' rfl), if_neg (hne ']' rfl),
    if_neg (hne ',' rfl), if_neg (hne '"' rfl), if_neg (hne ':' rfl), if_neg hthread,
    if_neg harrow, if_neg hnumber, if_pos hc]

theorem startsToken_of_isSymbolStart (hc : isSymbolStart c = true) : startsToken c = true := by
  have hne : ∀ d : Char, isSymbolStart d = false → c ≠ d := by
    rintro d hd rfl
    rw [hd] at hc
    cases hc
  simp [startsToken, isAsciiWhitespace, hne ' ' rfl, hne '\t' rfl, hne '\n' rfl,
    hne '\x0c' rfl, hne '\r' rfl, hne ';' rfl, hne '#' rfl]

theorem NoSign.append (h : NoSign (c :: s)) (hrest : Breaks rest) : NoSign (c :: s ++ rest) := by
  intro hc
  obtain ⟨hgreater, hdigit⟩ := h hc
  cases s with
  | nil => exact ⟨hrest.head_ne rfl, hrest.head_any fun _ => isSymbolChar_of_isDigit⟩
  | cons d s => exact ⟨hgreater, hdigit⟩

theorem nextToken_symbol (hname : IsSymbol name) (hrest : Breaks rest) :
    nextToken parse (name ++ rest) = .ok (some (.symbol name, rest)) := by
  have hspan := (symbolSpan_breaks hrest).mpr ⟨hname.isName, rfl⟩
  have hconstant := hname.noConstant
  simp only [List.mem_cons, List.not_mem_nil, or_false, not_or] at hconstant
  obtain ⟨htrue, hfalse, hnil⟩ := hconstant
  cases name with
  | nil => cases hname.start
  | cons c cs =>
    have hc : isSymbolStart c = true := by simpa using hname.start
    have hsign : NoSign (c :: (cs ++ rest)) := hname.noSign.append hrest
    rw [List.cons_append] at hspan ⊢
    rw [nextToken_cons (startsToken_of_isSymbolStart hc), readToken_symbolStart hc hsign, lexSymbol,
      hspan]
    simp only [if_neg htrue, if_neg hfalse, if_neg hnil]
    rfl

theorem nextToken_arrow (hrest : Breaks rest) :
    nextToken parse ("->".toList ++ rest) = .ok (some (.arrow, rest)) := by
  have hthread : ¬ ('-' = '-' ∧ ('>' :: rest).take 2 = ['>', '>']) := by
    rintro ⟨-, htake⟩
    cases rest with
    | nil => cases htake
    | cons c cs =>
      cases htake
      exact hrest.head_ne rfl rfl
  have hread : readToken parse '-' ('>' :: rest) = .ok (.arrow, rest) := by
    unfold readToken
    rw [if_neg (by decide), if_neg (by decide), if_neg (by decide), if_neg (by decide),
      if_neg (by decide), if_neg (by decide), if_neg (by decide), if_neg hthread,
      if_pos ⟨rfl, rfl⟩]
    rfl
  change nextToken parse ('-' :: '>' :: rest) = _
  rw [nextToken_cons rfl, hread]
  rfl

theorem nextToken_thread (rest : List Char) :
    nextToken parse ("->>".toList ++ rest) = .ok (some (.symbol "->>".toList, rest)) := by
  change nextToken parse ('-' :: '>' :: '>' :: rest) = _
  rw [nextToken_cons rfl]
  rfl

theorem nextToken_colon (hrest : Breaks rest) :
    nextToken parse (':' :: rest) = .ok (some (.colon, rest)) := by
  have hread : readToken parse ':' rest = .ok (lexKeywordOrColon rest) := rfl
  have hcolon : lexKeywordOrColon rest = (.colon, rest) := by
    rw [lexKeywordOrColon, hrest.head_any fun _ h => h]
    rfl
  rw [nextToken_cons rfl, hread, hcolon]
  rfl

theorem parseU32_toDigits {n : Nat} (h : n < 4294967296) :
    parseU32 (Nat.toDigits 10 n) = some n := by
  rw [parseU32, Nat.ofDigitChars_ten_toDigits, if_pos ⟨Nat.toDigits_ne_nil, h⟩]

theorem head_digits {ds : List Char} (hds : IsDigits ds) (s : List Char) :
    (ds ++ s).head?.any Char.isDigit = true := by
  obtain ⟨hne, hdigits⟩ := hds
  cases ds with
  | nil => exact absurd rfl hne
  | cons d ds => simpa using hdigits d List.mem_cons_self

theorem lexDecimal_version {negative : Bool} {ds fs gs : List Char} (hds : IsDigits ds)
    (hfs : IsDigits fs) (hgs : IsDigits gs) (hrest : Breaks rest) :
    lexDecimal parse negative (ds ++ '.' :: (fs ++ '.' :: (gs ++ rest))) =
      lexVersion negative ds fs gs rest := by
  have hdot (s : List Char) : ('.' :: s).head?.any Char.isDigit = false := rfl
  obtain ⟨htake, hdrop⟩ := takeWhile_front hds.2 (hdot (fs ++ '.' :: (gs ++ rest)))
  obtain ⟨htake', hdrop'⟩ := takeWhile_front hfs.2 (hdot (gs ++ rest))
  obtain ⟨htake'', hdrop''⟩ := takeWhile_front hgs.2 hrest.head_not_digit.1
  rw [lexDecimal]
  simp only [htake, hdrop, List.head?_cons, List.tail_cons, head_digits hfs, htake', hdrop',
    head_digits hgs, htake'', hdrop'']
  rw [if_pos (by decide), if_pos (by decide)]

theorem nextToken_version {a b c : Nat} (ha : a < 4294967296) (hb : b < 4294967296)
    (hc : c < 4294967296) (hrest : Breaks rest) :
    nextToken parse (Nat.toDigits 10 a ++ '.' :: (Nat.toDigits 10 b ++ '.' :: Nat.toDigits 10 c) ++
      rest) = .ok (some (.version a b c, rest)) := by
  have hdigits := isDigits_toDigits
  have htext : Nat.toDigits 10 a ++ '.' :: (Nat.toDigits 10 b ++ '.' :: Nat.toDigits 10 c) ++ rest =
      signText false ++ Nat.toDigits 10 a ++
      '.' :: (Nat.toDigits 10 b ++ '.' :: (Nat.toDigits 10 c ++ rest)) := by
    simp [signText]
  have hradix : ∀ d ∈ ('.' :: (Nat.toDigits 10 b ++ '.' :: (Nat.toDigits 10 c ++ rest))).head?,
      d ∉ ['x', 'X', 'b', 'B'] := by
    simp
  rw [htext, nextToken_number (hdigits a), lexUnsigned_plain (hdigits a) fun _ => hradix,
    lexDecimal_version (hdigits a) (hdigits b) (hdigits c) hrest, lexVersion,
    parseU32_toDigits ha, parseU32_toDigits hb, parseU32_toDigits hc]
  rfl

/-- What is known of a token that was read. -/
def Token.Lexed : Token → Prop
  | .str s => IsShort s
  | .symbol s => IsSymbol s ∨ s = "->>".toList
  | .keyword s => s ≠ [] ∧ ∀ c ∈ s, isSymbolChar c = true
  | .version a b c => a < 4294967296 ∧ b < 4294967296 ∧ c < 4294967296
  | _ => True

theorem lexed_lexSymbol (hc : isSymbolStart c = true) (hsign : NoSign (c :: s)) :
    (lexSymbol (c :: s)).1.Lexed := by
  rw [lexSymbol]
  dsimp only
  by_cases htrue : (symbolSpan (c :: s)).1 = "true".toList
  · rw [if_pos htrue]
    trivial
  by_cases hfalse : (symbolSpan (c :: s)).1 = "false".toList
  · rw [if_neg htrue, if_pos hfalse]
    trivial
  by_cases hnil : (symbolSpan (c :: s)).1 = "nil".toList
  · rw [if_neg htrue, if_neg hfalse, if_pos hnil]
    trivial
  rw [if_neg htrue, if_neg hfalse, if_neg hnil]
  have hcolon : c ≠ ':' := by
    rintro rfl
    revert hc
    decide
  have hspan : (symbolSpan (c :: s)).1 = c :: (symbolSpan s).1 := by
    rw [symbolSpan, if_pos (by simp [isSymbolChar, hc, hcolon])]
  left
  refine ⟨isName_of_symbolSpan rfl, ?_, ?_, ?_⟩
  · rw [hspan]
    simpa using hc
  · rw [hspan]
    intro hminus
    obtain ⟨hgreater, hdigit⟩ := hsign hminus
    -- the second character of the name, if it has one, is that of the text
    have hfront := symbolSpan_fst_append s
    cases hname : (symbolSpan s).1 with
    | nil => exact ⟨fun h => (Option.some_ne_none _ h.symm), rfl⟩
    | cons d ds =>
      rw [hname] at hfront
      rw [← hfront] at hgreater hdigit
      exact ⟨hgreater, hdigit⟩
  · simp only [List.mem_cons, List.not_mem_nil, or_false, not_or]
    exact ⟨htrue, hfalse, hnil⟩

theorem lexed_lexKeywordOrColon (s : List Char) : (lexKeywordOrColon s).1.Lexed := by
  unfold lexKeywordOrColon
  split
  · next hhead =>
    refine ⟨?_, fun c hc => List.mem_takeWhile_imp hc⟩
    cases s with
    | nil => cases hhead
    | cons c cs =>
      have hc : isSymbolChar c = true := by simpa using hhead
      rw [List.takeWhile_cons_of_pos hc]
      exact List.cons_ne_nil _ _
  · trivial

theorem isShort_of_lexString_ok {value w : List Char} (h : lexString value s = .ok (w, t)) :
    IsShort w := by
  fun_induction lexString value s with
  | case1 | case2 | case4 | case6 => cases h
  | case3 value cs hlong =>
    cases h
    exact Nat.lt_of_not_le hlong
  | case5 value _ e cs d hd _ ih => exact ih h
  | case7 value c cs _ _ _ ih => exact ih h

theorem lexed_lexNumber (h : lexNumber parse s = .ok (tok, t)) : tok.Lexed := by
  apply lexNumber_token (P := Token.Lexed)
  · exact fun _ => trivial
  · exact fun _ => trivial
  · exact fun ha hb hc => ⟨ha, hb, hc⟩
  · exact h

theorem lexed_of_readToken (h : readToken parse c s = .ok (tok, t)) : tok.Lexed := by
  have htok {p : Token × List Char} (h : (.ok p : LexResult _) = .ok (tok, t)) (hp : p.1.Lexed) :
      tok.Lexed := by
    cases h
    exact hp
  unfold readToken at h
  iterate 5
    rcases ite_eq_iff.mp h with ⟨-, h⟩ | ⟨-, h⟩
    · exact htok h trivial
  rcases ite_eq_iff.mp h with ⟨-, h⟩ | ⟨-, h⟩
  · cases hstring : lexString [] s with
    | error e =>
      rw [hstring] at h
      cases h
    | ok p =>
      rw [hstring] at h
      cases h
      exact isShort_of_lexString_ok hstring
  rcases ite_eq_iff.mp h with ⟨-, h⟩ | ⟨-, h⟩
  · exact htok h (lexed_lexKeywordOrColon s)
  rcases ite_eq_iff.mp h with ⟨-, h⟩ | ⟨-, h⟩
  · exact htok h (Or.inr rfl)
  rcases ite_eq_iff.mp h with ⟨-, h⟩ | ⟨harrow, h⟩
  · exact htok h trivial
  rcases ite_eq_iff.mp h with ⟨-, h⟩ | ⟨hnumber, h⟩
  · exact lexed_lexNumber h
  rcases ite_eq_iff.mp h with ⟨hsymbol, h⟩ | ⟨-, h⟩
  · refine htok h (lexed_lexSymbol hsymbol fun hminus => ?_)
    obtain rfl : c = '-' := Option.some.inj hminus
    rw [List.tail_cons]
    constructor
    · intro hgreater
      refine harrow ⟨rfl, ?_⟩
      cases s with
      | nil => cases hgreater
      | cons d s =>
        cases hgreater
        rfl
    · simpa using hnumber
  · cases h

theorem lexed_of_lexes (h : Lexes parse s ts) : ∀ tok ∈ ts, tok.Lexed := by
  induction h with
  | done => exact fun _ hmem => absurd hmem List.not_mem_nil
  | @next s t tok ts hnext _ ih =>
    rw [List.forall_mem_cons]
    refine ⟨?_, ih⟩
    unfold nextToken at hnext
    split at hnext
    · cases hnext
    · cases hnext
    · next c cs _ =>
      cases htoken : readToken parse c cs with
      | error e =>
        rw [htoken] at hnext
        cases hnext
      | ok p =>
        rw [htoken] at hnext
        cases hnext
        exact lexed_of_readToken htoken

end Airl.Syntax
