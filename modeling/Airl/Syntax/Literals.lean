import Airl.Syntax.TokenTexts

/-! # What a token stands for

Integer literals and quoted strings: how they are written, what they stand for, and what the lexer
makes of them.
-/

namespace Airl.Syntax

open Lexer

variable {s t rest : List Char} {a : Char}

/-! ## Integer literals -/

inductive Base where
  | decimal
  | hex
  | binary
  deriving DecidableEq, Repr

namespace Base

def radix : Base → Nat
  | .decimal => 10
  | .hex => 16
  | .binary => 2

/-- What stands in front of the digits. -/
def marks : Base → List (List Char)
  | .decimal => [[]]
  | .hex => [['0', 'x'], ['0', 'X']]
  | .binary => [['0', 'b'], ['0', 'B']]

def isDigit : Base → Char → Bool
  | .decimal => Char.isDigit
  | .hex => isHexDigit
  | .binary => fun c => c == '0' || c == '1'

end Base

/-- An integer as it is written: a sign, the mark of its base and digits of the base. -/
structure IntLiteral where
  negative : Bool
  base : Base
  mark : List Char
  digits : List Char
  mark_mem : mark ∈ base.marks
  digits_ne : digits ≠ []
  digits_all : ∀ c ∈ digits, base.isDigit c = true

namespace IntLiteral

def text (lit : IntLiteral) : List Char := signText lit.negative ++ (lit.mark ++ lit.digits)

def magnitude (lit : IntLiteral) : Nat :=
  lit.digits.foldl (fun n c => n * lit.base.radix + digitValue c) 0

def value (lit : IntLiteral) : Int := if lit.negative then -lit.magnitude else lit.magnitude

/-- The literal does not go on in the text behind it. -/
def EndsBefore (lit : IntLiteral) (rest : List Char) : Prop :=
  match lit.base with
  | .decimal =>
    (∀ c ∈ rest.head?, c.isDigit = false ∧ c ∉ ['e', 'E', 'f']) ∧
      (rest.head? == some '.' && rest.tail.head?.any Char.isDigit) = false ∧
        (lit.digits = ['0'] → ∀ c ∈ rest.head?, c ∉ ['x', 'X', 'b', 'B'])
  | base => ∀ c ∈ rest.head?, base.isDigit c = false

/-- The value is one of `i64`. -/
def Fits (lit : IntLiteral) : Prop :=
  -9223372036854775808 ≤ lit.value ∧ lit.value < 9223372036854775808

instance (lit : IntLiteral) : Decidable lit.Fits := inferInstanceAs (Decidable (_ ∧ _))

/-- The least value of `i64`, in hexadecimal or binary. -/
def IsRadixMin (lit : IntLiteral) : Prop :=
  lit.base ≠ .decimal ∧ lit.value = -9223372036854775808

instance (lit : IntLiteral) : Decidable lit.IsRadixMin := inferInstanceAs (Decidable (_ ∧ _))

def complaint (lit : IntLiteral) : String :=
  match lit.base with
  | .decimal => "invalid integer literal"
  | .hex => "invalid hex literal"
  | .binary => "invalid binary literal"

end IntLiteral

/-- A literal is an `i64` just if it fits. -/
theorem toInt_eq_iff (lit : IntLiteral) (n : Int64) :
    n.toInt = lit.value ↔ lit.Fits ∧ n = Int64.ofInt lit.value := by
  unfold IntLiteral.Fits
  constructor
  · intro h
    have hlow := n.le_toInt
    have hhigh := n.toInt_lt
    rw [h] at hlow hhigh
    refine ⟨⟨hlow, hhigh⟩, ?_⟩
    rw [← h, Int64.ofInt_toInt]
  · intro h
    obtain ⟨⟨hlow, hhigh⟩, rfl⟩ := h
    exact Int64.toInt_ofInt_of_le hlow hhigh

/-- Digits in a radix are folded from the left. -/
theorem parseRadix_eq (radix : Nat) {digits : List Char} (hdigits : digits ≠ []) :
    parseRadix radix digits =
      if digits.foldl (fun n c => n * radix + digitValue c) 0 < 9223372036854775808 then
        some (Int64.ofNat (digits.foldl (fun n c => n * radix + digitValue c) 0))
      else none := by
  unfold parseRadix
  dsimp only
  split
  next h => rw [if_pos h.2]
  next h => rw [if_neg fun hlt => h ⟨hdigits, hlt⟩]

theorem ofDigitChars_eq_foldl {digits : List Char} (hdigits : ∀ c ∈ digits, c.isDigit = true)
    (n : Nat) : Nat.ofDigitChars 10 digits n =
      digits.foldl (fun n c => n * 10 + digitValue c) n := by
  induction digits generalizing n with
  | nil => rfl
  | cons c digits ih =>
    have hc := hdigits c List.mem_cons_self
    have hvalue : digitValue c = c.toNat - '0'.toNat := by
      unfold digitValue
      rw [if_pos hc]
      rfl
    rw [Nat.ofDigitChars_cons, List.foldl_cons, hvalue, Nat.mul_comm n 10]
    exact ih (fun d hd => hdigits d (List.mem_cons_of_mem c hd)) _

/-- The sign stands before the digits. -/
theorem parseI64_signed (negative : Bool) {digits : List Char} (hne : digits ≠ [])
    (hdigits : ∀ c ∈ digits, c.isDigit = true) :
    parseI64 (signText negative ++ digits) =
      if negative then
        if Nat.ofDigitChars 10 digits 0 ≤ 9223372036854775808 then
          some (Int64.ofInt (-Nat.ofDigitChars 10 digits 0))
        else none
      else if Nat.ofDigitChars 10 digits 0 < 9223372036854775808 then
        some (Int64.ofNat (Nat.ofDigitChars 10 digits 0))
      else none := by
  have hall : digits.all Char.isDigit = true := List.all_eq_true.mpr hdigits
  cases negative with
  | true =>
    rw [signText, if_pos rfl, if_pos rfl, List.singleton_append, parseI64]
    split
    next h => rw [if_pos h.2.2]
    next h => rw [if_neg fun hle => h ⟨hne, hall, hle⟩]
  | false =>
    rw [signText, if_neg Bool.false_ne_true, if_neg Bool.false_ne_true, List.nil_append,
      parseI64]
    · split
      next h => rw [if_pos h.2.2]
      next h => rw [if_neg fun hle => h ⟨hne, hall, hle⟩]
    · rintro ds rfl
      have hminus := hdigits '-' List.mem_cons_self
      exact absurd hminus (by decide)

/-! ### The lexer on a literal -/

variable {parse : ParseFloat}

theorem lexRadix_literal (negative : Bool) (radix : Nat) {p : Char → Bool} (name : String)
    {digits : List Char} (hne : digits ≠ []) (hdigits : ∀ c ∈ digits, p c = true)
    (hrest : ∀ c ∈ rest.head?, p c = false) :
    lexRadix negative radix p name (digits ++ rest) =
      if digits.foldl (fun n c => n * radix + digitValue c) 0 < 9223372036854775808 then
        .ok (.integer (Int64.ofInt (if negative then
          -(digits.foldl (fun n c => n * radix + digitValue c) 0 : Nat)
          else (digits.foldl (fun n c => n * radix + digitValue c) 0 : Nat))), rest)
      else .error ("invalid " ++ name ++ " literal") := by
  have hstop : rest.head?.any p = false := by
    cases rest with
    | nil => rfl
    | cons c cs => exact hrest c rfl
  obtain ⟨htake, hdrop⟩ := takeWhile_front hdigits hstop
  unfold lexRadix
  rw [htake, hdrop, parseRadix_eq radix hne]
  generalize digits.foldl (fun n c => n * radix + digitValue c) 0 = n
  by_cases hn : n < 9223372036854775808
  · rw [if_pos hn, if_pos hn]
    cases negative with
    | true =>
      dsimp only
      rw [if_pos rfl, if_pos rfl, Int64.ofInt_neg, Int64.ofInt_eq_ofNat]
    | false =>
      dsimp only
      rw [if_neg Bool.false_ne_true, if_neg Bool.false_ne_true, Int64.ofInt_eq_ofNat]
  · rw [if_neg hn, if_neg hn]

namespace IntLiteral

theorem lexNumber_sign (lit : IntLiteral) (rest : List Char) :
    lexNumber parse (lit.text ++ rest) =
      lexUnsigned parse lit.negative (lit.mark ++ lit.digits ++ rest) := by
  obtain ⟨negative, base, mark, digits, hmark, hne, hdigits⟩ := lit
  unfold text
  dsimp only
  cases negative with
  | true => rfl
  | false =>
    have hhead : ∀ u, mark ++ digits ++ rest ≠ '-' :: u := by
      intro u heq
      cases mark with
      | nil =>
        cases digits with
        | nil => exact hne rfl
        | cons d ds =>
          have hd := hdigits d List.mem_cons_self
          have hdash : d = '-' := (List.cons.inj heq).1
          subst hdash
          cases base
          all_goals exact absurd hd (by decide)
      | cons m ms =>
        have hm : m = '-' := (List.cons.inj heq).1
        subst hm
        have hmarks : ∀ base : Base, ∀ mark ∈ base.marks, mark.head? ≠ some '-' := by
          intro base
          cases base
          all_goals decide
        exact hmarks base _ hmark rfl
    rw [signText, if_neg Bool.false_ne_true, List.nil_append]
    unfold lexNumber
    split
    next u heq => exact absurd heq (hhead u)
    next => rfl

theorem fits_radix_iff {lit : IntLiteral} (hbase : lit.base ≠ .decimal) :
    lit.magnitude < 9223372036854775808 ↔ lit.Fits ∧ ¬ lit.IsRadixMin := by
  unfold Fits IsRadixMin value
  cases lit.negative with
  | true =>
    rw [if_pos rfl]
    constructor
    · intro h
      refine ⟨by omega, fun hmin => ?_⟩
      have hvalue := hmin.2
      omega
    · intro h
      obtain ⟨hfits, hmin⟩ := h
      have hne : -(lit.magnitude : Int) ≠ -9223372036854775808 := fun heq => hmin ⟨hbase, heq⟩
      omega
  | false =>
    rw [if_neg Bool.false_ne_true]
    constructor
    · intro h
      refine ⟨by omega, fun hmin => ?_⟩
      have hvalue := hmin.2
      omega
    · intro h
      omega

/-- A literal with a radix is lexed, but for the least integer. -/
theorem lexUnsigned_radix {lit : IntLiteral} (hbase : lit.base ≠ .decimal)
    (hrest : lit.EndsBefore rest) :
    lexUnsigned parse lit.negative (lit.mark ++ lit.digits ++ rest) =
      if lit.magnitude < 9223372036854775808 then .ok (.integer (Int64.ofInt lit.value), rest)
      else .error lit.complaint := by
  obtain ⟨negative, base, mark, digits, hmark, hne, hdigits⟩ := lit
  cases base with
  | decimal => exact absurd rfl hbase
  | hex =>
    have hradix := lexRadix_literal negative 16 "hex" hne hdigits hrest
    have hcases : mark = ['0', 'x'] ∨ mark = ['0', 'X'] := by
      simpa only [Base.marks, List.mem_cons, List.not_mem_nil, or_false] using hmark
    rcases hcases with rfl | rfl
    · exact hradix
    · exact hradix
  | binary =>
    have hradix := lexRadix_literal negative 2 "binary" hne hdigits hrest
    have hcases : mark = ['0', 'b'] ∨ mark = ['0', 'B'] := by
      simpa only [Base.marks, List.mem_cons, List.not_mem_nil, or_false] using hmark
    rcases hcases with rfl | rfl
    · exact hradix
    · exact hradix

theorem isDigits_decimal {lit : IntLiteral} (hbase : lit.base = .decimal) :
    IsDigits lit.digits := by
  have hall := lit.digits_all
  rw [hbase] at hall
  exact ⟨lit.digits_ne, hall⟩

theorem text_decimal {lit : IntLiteral} (hbase : lit.base = .decimal) :
    lit.mark = [] ∧ lit.text = signText lit.negative ++ lit.digits := by
  have hmem := lit.mark_mem
  rw [hbase] at hmem
  have hmark : lit.mark = [] := List.mem_singleton.mp hmem
  refine ⟨hmark, ?_⟩
  unfold text
  rw [hmark, List.nil_append]

theorem parseI64_text {lit : IntLiteral} (hbase : lit.base = .decimal) :
    parseI64 lit.text = if lit.Fits then some (Int64.ofInt lit.value) else none := by
  have hdigits := (isDigits_decimal hbase).2
  have hmagnitude : Nat.ofDigitChars 10 lit.digits 0 = lit.magnitude := by
    unfold magnitude
    rw [hbase]
    exact ofDigitChars_eq_foldl hdigits 0
  have hfits : lit.Fits ↔ (if lit.negative then lit.magnitude ≤ 9223372036854775808
      else lit.magnitude < 9223372036854775808) := by
    unfold Fits value
    cases lit.negative with
    | true =>
      rw [if_pos rfl, if_pos rfl]
      omega
    | false =>
      rw [if_neg Bool.false_ne_true, if_neg Bool.false_ne_true]
      omega
  rw [(text_decimal hbase).2, parseI64_signed lit.negative lit.digits_ne hdigits, hmagnitude]
  unfold value
  by_cases hyes : lit.Fits
  · have hbound := hfits.mp hyes
    rw [if_pos hyes]
    cases hsign : lit.negative with
    | true =>
      rw [hsign, if_pos rfl] at hbound
      rw [if_pos rfl, if_pos hbound, if_pos rfl]
    | false =>
      rw [hsign, if_neg Bool.false_ne_true] at hbound
      rw [if_neg Bool.false_ne_true, if_pos hbound, if_neg Bool.false_ne_true,
        Int64.ofInt_eq_ofNat]
  · have hbound := fun h => hyes (hfits.mpr h)
    rw [if_neg hyes]
    cases hsign : lit.negative with
    | true =>
      rw [hsign, if_pos rfl] at hbound
      rw [if_pos rfl, if_neg hbound]
    | false =>
      rw [hsign, if_neg Bool.false_ne_true] at hbound
      rw [if_neg Bool.false_ne_true, if_neg hbound]

/-- A decimal literal is lexed just if it fits. -/
theorem lexUnsigned_decimalLiteral {lit : IntLiteral} (hbase : lit.base = .decimal)
    (hrest : lit.EndsBefore rest) :
    lexUnsigned parse lit.negative (lit.mark ++ lit.digits ++ rest) =
      if lit.Fits then .ok (.integer (Int64.ofInt lit.value), rest) else .error lit.complaint := by
  have hds := isDigits_decimal hbase
  obtain ⟨hmark, htext⟩ := text_decimal hbase
  have hparse := parseI64_text hbase
  have hcomplaint : lit.complaint = "invalid integer literal" := by
    unfold complaint
    rw [hbase]
  unfold EndsBefore at hrest
  rw [hbase] at hrest
  obtain ⟨hhead, hpoint, hzero⟩ := hrest
  rw [hmark, List.nil_append, lexUnsigned_plain hds hzero, lexDecimal_literal hds.2 hhead hpoint,
    hcomplaint]
  rw [htext] at hparse
  by_cases hyes : lit.Fits
  · rw [if_pos hyes] at hparse ⊢
    exact finishNumber_integer hparse (signText_digits hds)
  · rw [if_neg hyes] at hparse ⊢
    exact finishNumber_invalid hparse (signText_digits hds)

/-- So every literal is lexed just if it fits and is no least integer in a radix. -/
theorem lexNumber_literal (lit : IntLiteral) (hrest : lit.EndsBefore rest) :
    lexNumber parse (lit.text ++ rest) =
      if lit.Fits ∧ ¬ lit.IsRadixMin then .ok (.integer (Int64.ofInt lit.value), rest)
      else .error lit.complaint := by
  rw [lexNumber_sign]
  by_cases hbase : lit.base = .decimal
  · have hmin : ¬ lit.IsRadixMin := fun hmin => hmin.1 hbase
    rw [lexUnsigned_decimalLiteral hbase hrest]
    by_cases hfits : lit.Fits
    · rw [if_pos hfits, if_pos ⟨hfits, hmin⟩]
    · rw [if_neg hfits, if_neg fun h => hfits h.1]
  · rw [lexUnsigned_radix hbase hrest]
    by_cases hn : lit.magnitude < 9223372036854775808
    · rw [if_pos hn, if_pos ((fits_radix_iff hbase).mp hn)]
    · rw [if_neg hn, if_neg fun h => hn ((fits_radix_iff hbase).mpr h)]

end IntLiteral

/-! ## What a token stands for -/

/-- The letters behind a backslash and what they stand for. -/
def escapeTable : List (Char × Char) :=
  [('n', '\n'), ('t', '\t'), ('r', '\r'), ('\\', '\\'), ('"', '"'), ('0', '\x00')]

/-- The text between quotation marks and the string it stands for. -/
inductive Unescapes : List Char → List Char → Prop
  | nil : Unescapes [] []
  | plain {c inner value} : c ≠ '"' → c ≠ '\\' → Unescapes inner value →
      Unescapes (c :: inner) (c :: value)
  | escape {e d inner value} : (e, d) ∈ escapeTable → Unescapes inner value →
      Unescapes ('\\' :: e :: inner) (d :: value)

/-- The token is the one that is written so. Of floats and versions nothing is said. -/
def Denotes (text : List Char) : Token → Prop
  | .integer n => ∃ lit : IntLiteral, text = lit.text ∧ n.toInt = lit.value
  | .float _ => True
  | .version _ _ _ => True
  | .str value => ∃ inner, text = '"' :: (inner ++ ['"']) ∧ Unescapes inner value
  | .bool b => text = (if b then "true" else "false").toList
  | .nil => text = "nil".toList
  | .symbol name => text = name
  | .keyword name => text = ':' :: name
  | .lparen => text = ['(']
  | .rparen => text = [')']
  | .lbracket => text = ['[']
  | .rbracket => text = [']']
  | .colon => text = [':']
  | .arrow => text = "->".toList
  | .comma => text = [',']

theorem mem_escapeTable {e d : Char} (h : Lexer.escape e = some d) : (e, d) ∈ escapeTable := by
  unfold Lexer.escape at h
  split at h
  all_goals
    cases h
    try decide

/-- A string token is its text with the escapes undone. -/
theorem lexString_unescapes {value w : List Char} (h : lexString value s = .ok (w, t)) :
    ∃ inner more, w = value ++ more ∧ s = inner ++ '"' :: t ∧ Unescapes inner more := by
  fun_induction lexString value s with
  | case1 | case2 | case4 | case6 => cases h
  | case3 value cs _ =>
    cases h
    exact ⟨[], [], (List.append_nil _).symm, rfl, .nil⟩
  | case5 value _ e cs d hd _ ih =>
    obtain ⟨inner, more, rfl, rfl, hinner⟩ := ih h
    exact ⟨'\\' :: e :: inner, d :: more, by simp, rfl, .escape (mem_escapeTable hd) hinner⟩
  | case7 value c cs _ hquote hslash ih =>
    obtain ⟨inner, more, rfl, rfl, hinner⟩ := ih h
    exact ⟨c :: inner, c :: more, by simp, rfl, .plain hquote hslash hinner⟩

theorem parseI64_literal {text : List Char} {n : Int64} (h : parseI64 text = some n) :
    Denotes text (.integer n) := by
  have hsplit : ∃ negative digits, text = signText negative ++ digits ∧ digits ≠ [] ∧
      ∀ c ∈ digits, c.isDigit = true := by
    unfold parseI64 at h
    split at h
    next digits =>
      split at h
      next hdigits => exact ⟨true, digits, rfl, hdigits.1, List.all_eq_true.mp hdigits.2.1⟩
      next => cases h
    next =>
      split at h
      next hdigits => exact ⟨false, text, rfl, hdigits.1, List.all_eq_true.mp hdigits.2.1⟩
      next => cases h
  obtain ⟨negative, digits, rfl, hne, hdigits⟩ := hsplit
  let lit : IntLiteral := ⟨negative, .decimal, [], digits, List.mem_singleton.mpr rfl, hne, hdigits⟩
  have hparse : parseI64 lit.text = some n := h
  rw [IntLiteral.parseI64_text rfl] at hparse
  refine ⟨lit, rfl, (toInt_eq_iff lit n).mpr ?_⟩
  by_cases hfits : lit.Fits
  · rw [if_pos hfits] at hparse
    exact ⟨hfits, (Option.some.inj hparse).symm⟩
  · rw [if_neg hfits] at hparse
    cases hparse

theorem lexExponent_append (s : List Char) : (lexExponent s).1 ++ (lexExponent s).2 = s := by
  unfold lexExponent
  match s with
  | [] => rfl
  | [a] =>
    dsimp only
    split
    next => rfl
    next => rfl
  | a :: d :: t =>
    dsimp only
    split
    next =>
      split
      next =>
        rw [List.cons_append, List.cons_append, List.takeWhile_append_dropWhile]
      next => rw [List.cons_append, List.takeWhile_append_dropWhile]
    next => rfl

theorem lexSuffix_append (s : List Char) : (lexSuffix s).1 ++ (lexSuffix s).2 = s := by
  unfold lexSuffix
  split
  next t => rw [List.cons_append, List.takeWhile_append_dropWhile]
  next => rfl

variable {tok : Token} {negative : Bool}

theorem finishNumber_denotes {text : List Char} (h : finishNumber parse text rest = .ok (tok, t)) :
    t = rest ∧ Denotes text tok := by
  refine ⟨finishNumber_rest h, ?_⟩
  unfold finishNumber at h
  split at h
  next =>
    split at h
    next =>
      cases h
      exact trivial
    next => cases h
  next =>
    split at h
    next n hparse =>
      cases h
      exact parseI64_literal hparse
    next => cases h

/-- A number with an exponent or a suffix is what is written. -/
theorem lexTail_denotes {text : List Char} (h : lexTail parse text s = .ok (tok, t)) :
    ∃ whole, text ++ s = whole ++ t ∧ Denotes whole tok := by
  have hfinish : finishNumber parse (text ++ (lexExponent s).1 ++ (lexSuffix (lexExponent s).2).1)
      (lexSuffix (lexExponent s).2).2 = .ok (tok, t) := h
  obtain ⟨rfl, hdenotes⟩ := finishNumber_denotes hfinish
  refine ⟨_, ?_, hdenotes⟩
  rw [List.append_assoc, List.append_assoc, lexSuffix_append, lexExponent_append]

theorem lexVersion_denotes {major minor patch : List Char} (text : List Char)
    (h : lexVersion negative major minor patch rest = .ok (tok, t)) :
    t = rest ∧ Denotes text tok := by
  refine ⟨lexVersion_rest h, ?_⟩
  unfold lexVersion at h
  split at h
  next => cases h
  next =>
    split at h
    next => cases h
    next => cases h
    next => cases h
    next =>
      cases h
      exact trivial

/-- A decimal number is what is written. -/
theorem lexDecimal_denotes (h : lexDecimal parse negative s = .ok (tok, t)) :
    ∃ whole, signText negative ++ s = whole ++ t ∧ Denotes whole tok := by
  have hwhole : s = s.takeWhile Char.isDigit ++ s.dropWhile Char.isDigit :=
    List.takeWhile_append_dropWhile.symm
  unfold lexDecimal at h
  generalize s.takeWhile Char.isDigit = major at h hwhole
  generalize s.dropWhile Char.isDigit = u at h hwhole
  subst hwhole
  dsimp only at h
  split at h
  next hpoint =>
    rw [Bool.and_eq_true, beq_iff_eq] at hpoint
    obtain ⟨v, rfl⟩ := List.head?_eq_some_iff.mp hpoint.1
    have hminor : v = v.takeWhile Char.isDigit ++ v.dropWhile Char.isDigit :=
      List.takeWhile_append_dropWhile.symm
    rw [List.tail_cons] at h
    generalize v.takeWhile Char.isDigit = minor at h hminor
    generalize v.dropWhile Char.isDigit = w at h hminor
    subst hminor
    split at h
    next hpatch =>
      rw [Bool.and_eq_true, beq_iff_eq] at hpatch
      obtain ⟨x, rfl⟩ := List.head?_eq_some_iff.mp hpatch.1
      rw [List.tail_cons] at h
      obtain ⟨rfl, hdenotes⟩ := lexVersion_denotes
        (signText negative ++ (major ++ '.' :: (minor ++ '.' :: x.takeWhile Char.isDigit))) h
      refine ⟨_, ?_, hdenotes⟩
      simp only [List.append_assoc, List.cons_append, List.takeWhile_append_dropWhile]
    next =>
      obtain ⟨whole, hsplit, hdenotes⟩ := lexTail_denotes h
      refine ⟨whole, ?_, hdenotes⟩
      rw [← hsplit]
      unfold signText
      simp only [List.append_assoc, List.cons_append]
  next =>
    obtain ⟨whole, hsplit, hdenotes⟩ := lexTail_denotes h
    refine ⟨whole, ?_, hdenotes⟩
    rw [← hsplit, List.append_assoc]
    rfl

/-- And one with a radix. -/
theorem lexRadix_denotes (base : Base) {mark : List Char} {name : String}
    (hbase : base ≠ .decimal) (hmark : mark ∈ base.marks)
    (h : lexRadix negative base.radix base.isDigit name s = .ok (tok, t)) :
    ∃ whole, signText negative ++ (mark ++ s) = whole ++ t ∧ Denotes whole tok := by
  have hne : s.takeWhile base.isDigit ≠ [] := by
    intro hnil
    unfold lexRadix at h
    rw [hnil] at h
    have hparse : parseRadix base.radix [] = none := by
      unfold parseRadix
      dsimp only
      rw [if_neg fun hdigits => hdigits.1 rfl]
    rw [hparse] at h
    cases h
  have hall : ∀ c ∈ s.takeWhile base.isDigit, base.isDigit c = true :=
    fun c hc => List.mem_takeWhile_imp hc
  have hstop : ∀ c ∈ (s.dropWhile base.isDigit).head?, base.isDigit c = false := by
    intro c hc
    have hnot := List.head?_dropWhile_not base.isDigit s
    rw [Option.mem_def.mp hc] at hnot
    simpa using hnot
  let lit : IntLiteral := ⟨negative, base, mark, s.takeWhile base.isDigit, hmark, hne, hall⟩
  have hread := lexRadix_literal negative base.radix name hne hall hstop
  rw [List.takeWhile_append_dropWhile, h] at hread
  have hmagnitude : lit.magnitude =
      (s.takeWhile base.isDigit).foldl (fun n c => n * base.radix + digitValue c) 0 := rfl
  rw [← hmagnitude] at hread
  by_cases hn : lit.magnitude < 9223372036854775808
  · rw [if_pos hn] at hread
    have hvalue :
        (if negative then -(lit.magnitude : Int) else (lit.magnitude : Int)) = lit.value :=
      rfl
    rw [hvalue] at hread
    cases hread
    refine ⟨lit.text, ?_, lit, rfl, (toInt_eq_iff lit _).mpr ⟨?_, rfl⟩⟩
    · have htext : lit.text = signText negative ++ (mark ++ s.takeWhile base.isDigit) := rfl
      rw [htext, List.append_assoc, List.append_assoc, List.takeWhile_append_dropWhile]
    · exact ((IntLiteral.fits_radix_iff hbase).mp hn).1
  · rw [if_neg hn] at hread
    cases hread

theorem lexUnsigned_denotes (h : lexUnsigned parse negative s = .ok (tok, t)) :
    ∃ whole, signText negative ++ s = whole ++ t ∧ Denotes whole tok := by
  unfold lexUnsigned at h
  split at h
  next x u =>
    split at h
    next hx =>
      have hmark : ['0', x] ∈ Base.hex.marks := by
        rcases hx with rfl | rfl
        all_goals decide
      exact lexRadix_denotes .hex (by decide) hmark h
    next =>
      split at h
      next hx =>
        have hmark : ['0', x] ∈ Base.binary.marks := by
          rcases hx with rfl | rfl
          all_goals decide
        exact lexRadix_denotes .binary (by decide) hmark h
      next => exact lexDecimal_denotes h
  next => exact lexDecimal_denotes h

/-- So is every number. -/
theorem lexNumber_denotes (h : lexNumber parse s = .ok (tok, t)) :
    ∃ whole, s = whole ++ t ∧ Denotes whole tok := by
  unfold lexNumber at h
  split at h
  next u => exact lexUnsigned_denotes h
  next => exact lexUnsigned_denotes h

/-- And every symbol. -/
theorem lexSymbol_denotes (s : List Char) :
    s = (symbolSpan s).1 ++ (lexSymbol s).2 ∧ Denotes (symbolSpan s).1 (lexSymbol s).1 := by
  refine ⟨(symbolSpan_fst_append s).symm, ?_⟩
  unfold lexSymbol
  dsimp only
  split
  next h => exact h
  next =>
    split
    next h => exact h
    next =>
      split
      next h => exact h
      next => rfl

theorem lexKeywordOrColon_denotes (s : List Char) :
    ∃ whole, ':' :: s = whole ++ (lexKeywordOrColon s).2 ∧
      Denotes whole (lexKeywordOrColon s).1 := by
  unfold lexKeywordOrColon
  split
  next =>
    refine ⟨':' :: s.takeWhile isSymbolChar, ?_, rfl⟩
    rw [List.cons_append, List.takeWhile_append_dropWhile]
  next => exact ⟨[':'], rfl, rfl⟩

/-- Every token denotes the text that it takes. -/
theorem readToken_denotes (h : readToken parse a s = .ok (tok, t)) :
    ∃ whole, a :: s = whole ++ t ∧ Denotes whole tok := by
  unfold readToken at h
  by_cases hlparen : a = '('
  · rw [if_pos hlparen] at h
    cases h
    exact ⟨[a], rfl, congrArg (fun b => [b]) hlparen⟩
  rw [if_neg hlparen] at h
  by_cases hrparen : a = ')'
  · rw [if_pos hrparen] at h
    cases h
    exact ⟨[a], rfl, congrArg (fun b => [b]) hrparen⟩
  rw [if_neg hrparen] at h
  by_cases hlbracket : a = '['
  · rw [if_pos hlbracket] at h
    cases h
    exact ⟨[a], rfl, congrArg (fun b => [b]) hlbracket⟩
  rw [if_neg hlbracket] at h
  by_cases hrbracket : a = ']'
  · rw [if_pos hrbracket] at h
    cases h
    exact ⟨[a], rfl, congrArg (fun b => [b]) hrbracket⟩
  rw [if_neg hrbracket] at h
  by_cases hcomma : a = ','
  · rw [if_pos hcomma] at h
    cases h
    exact ⟨[a], rfl, congrArg (fun b => [b]) hcomma⟩
  rw [if_neg hcomma] at h
  by_cases hquote : a = '"'
  · rw [if_pos hquote] at h
    cases hstring : lexString [] s with
    | error e =>
      rw [hstring] at h
      cases h
    | ok p =>
      rw [hstring] at h
      cases h
      obtain ⟨inner, more, hmore, rfl, hinner⟩ := lexString_unescapes hstring
      rw [List.nil_append] at hmore
      refine ⟨'"' :: (inner ++ ['"']), ?_, inner, rfl, hmore ▸ hinner⟩
      rw [hquote, List.cons_append, List.append_assoc, List.singleton_append]
  rw [if_neg hquote] at h
  by_cases hcolon : a = ':'
  · rw [if_pos hcolon] at h
    have hpair := Except.ok.inj h
    obtain ⟨whole, hsplit, hdenotes⟩ := lexKeywordOrColon_denotes s
    rw [hpair] at hsplit hdenotes
    exact ⟨whole, hcolon ▸ hsplit, hdenotes⟩
  rw [if_neg hcolon] at h
  by_cases hlong : a = '-' ∧ s.take 2 = ['>', '>']
  · rw [if_pos hlong] at h
    cases h
    refine ⟨"->>".toList, ?_, rfl⟩
    conv_lhs => rw [← List.take_append_drop 2 s, hlong.1, hlong.2]
    rfl
  rw [if_neg hlong] at h
  by_cases harrow : a = '-' ∧ s.take 1 = ['>']
  · rw [if_pos harrow] at h
    cases h
    refine ⟨"->".toList, ?_, rfl⟩
    conv_lhs => rw [← List.take_append_drop 1 s, harrow.1, harrow.2]
    rfl
  rw [if_neg harrow] at h
  by_cases hnumber : (a.isDigit || (a == '-' && s.head?.any Char.isDigit)) = true
  · rw [if_pos hnumber] at h
    exact lexNumber_denotes h
  rw [if_neg hnumber] at h
  by_cases hsymbol : isSymbolStart a = true
  · rw [if_pos hsymbol] at h
    have hpair := Except.ok.inj h
    obtain ⟨hsplit, hdenotes⟩ := lexSymbol_denotes (a :: s)
    rw [hpair] at hsplit hdenotes
    exact ⟨_, hsplit, hdenotes⟩
  rw [if_neg hsymbol] at h
  cases h

end Airl.Syntax
