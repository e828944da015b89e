import Airl.Library.Text

/-! # The lexer

`lexer.rs` on a text of characters. Line and column numbers, which only place an
error in the source, are left out; an error is its message.
-/

namespace Airl.Syntax

/-- `TokenKind`, without the end of the file. A float is its bit pattern. -/
inductive Token where
  | integer (n : Int64)
  | float (bits : UInt64)
  | version (major minor patch : Nat)
  | str (s : List Char)
  | bool (b : Bool)
  | nil
  | symbol (s : List Char)
  | keyword (s : List Char)
  | lparen
  | rparen
  | lbracket
  | rbracket
  | colon
  | arrow
  | comma
  deriving DecidableEq, Repr

/-- `str::parse::<f64>`. -/
abbrev ParseFloat := List Char → Option UInt64

abbrev LexResult := Except String

namespace Lexer

def maxTokenCount : Nat := 10000000

def maxStringLength : Nat := 10000000

def isSymbolStart (c : Char) : Bool :=
  c.isAlpha || c ∈ ['_', '+', '-', '*', '/', '%', '<', '>', '=', '!', '&', '|', '?', '.']

def isSymbolChar (c : Char) : Bool := isSymbolStart c || c.isDigit || c == '-' || c == ':'

def isAsciiWhitespace (c : Char) : Bool :=
  c == ' ' || c == '\t' || c == '\n' || c == '\x0c' || c == '\r'

def isHexDigit (c : Char) : Bool :=
  c.isDigit || ('a' ≤ c && c ≤ 'f') || ('A' ≤ c && c ≤ 'F')

/-- The first byte of the character, printed as a character of its own. -/
def byteText (c : Char) : String :=
  String.ofList ((Utf8.encode [c]).head?.toList.map fun b => Char.ofNat b.toNat)

/-- The text behind a block comment, inside which `depth` comments are open. -/
def skipBlock : Nat → List Char → Option (List Char)
  | 0, s => some s
  | _ + 1, [] => none
  | depth + 1, '#' :: '|' :: s => skipBlock (depth + 2) s
  | depth + 1, '|' :: '#' :: s => skipBlock depth s
  | depth + 1, _ :: s => skipBlock (depth + 1) s

theorem suffix_skipBlock {depth : Nat} {s t : List Char} (h : skipBlock depth s = some t) :
    t <:+ s := by
  fun_induction skipBlock depth s with
  | case1 s =>
    cases h
    exact List.suffix_refl _
  | case2 => cases h
  | case3 depth s ih => exact ((ih h).trans (List.suffix_cons _ _)).trans (List.suffix_cons _ _)
  | case4 depth s ih => exact ((ih h).trans (List.suffix_cons _ _)).trans (List.suffix_cons _ _)
  | case5 depth c s _ _ ih => exact (ih h).trans (List.suffix_cons _ _)

def skipWhitespaceAndComments (s : List Char) : LexResult (List Char) :=
  match s with
  | [] => .ok []
  | c :: cs =>
    if isAsciiWhitespace c then skipWhitespaceAndComments cs
    else if c == ';' then skipWhitespaceAndComments (cs.dropWhile (· != '\n'))
    else if c == '#' && cs.head? == some '|' then
      match h : skipBlock 1 cs.tail with
      | some t =>
        have := (suffix_skipBlock h).length_le
        skipWhitespaceAndComments t
      | none => .error "unterminated block comment"
    else .ok (c :: cs)
termination_by s.length
decreasing_by
  · simp
  · exact Nat.lt_succ_of_le (List.dropWhile_suffix _).length_le
  · simp only [List.length_tail, List.length_cons] at this ⊢
    omega

def escape : Char → Option Char
  | 'n' => some '\n'
  | 't' => some '\t'
  | 'r' => some '\r'
  | '\\' => some '\\'
  | '"' => some '"'
  | '0' => some '\x00'
  | _ => none

/-- Behind the opening quotation mark; `value` is what was read so far. -/
def lexString (value : List Char) : List Char → LexResult (List Char × List Char)
  | [] => .error "unterminated string literal"
  | c :: cs =>
    if maxStringLength ≤ Text.byteLength value then
      .error ("string literal exceeds maximum length (" ++ toString maxStringLength ++ ")")
    else if c = '"' then .ok (value, cs)
    else if c = '\\' then
      match cs with
      | [] => .error "unterminated escape sequence"
      | e :: cs =>
        match escape e with
        | some d => lexString (value ++ [d]) cs
        | none => .error ("unknown escape sequence: \\" ++ byteText e)
    else lexString (value ++ [c]) cs

def digitValue (c : Char) : Nat :=
  if c.isDigit then c.toNat - 48 else if 'a' ≤ c then c.toNat - 87 else c.toNat - 55

/-- `i64::from_str_radix` on digits of that radix. -/
def parseRadix (radix : Nat) (digits : List Char) : Option Int64 :=
  let n := digits.foldl (fun n c => n * radix + digitValue c) 0
  if digits ≠ [] ∧ n < 9223372036854775808 then some (Int64.ofNat n) else none

/-- `str::parse::<i64>` on a text without a plus sign. -/
def parseI64 : List Char → Option Int64
  | '-' :: digits =>
    if digits ≠ [] ∧ digits.all Char.isDigit ∧
        Nat.ofDigitChars 10 digits 0 ≤ 9223372036854775808 then
      some (Int64.ofInt (-Nat.ofDigitChars 10 digits 0))
    else none
  | digits =>
    if digits ≠ [] ∧ digits.all Char.isDigit ∧
        Nat.ofDigitChars 10 digits 0 < 9223372036854775808 then
      some (Int64.ofNat (Nat.ofDigitChars 10 digits 0))
    else none

/-- `str::parse::<u32>` on digits. -/
def parseU32 (digits : List Char) : Option Nat :=
  if digits ≠ [] ∧ Nat.ofDigitChars 10 digits 0 < 4294967296 then
    some (Nat.ofDigitChars 10 digits 0)
  else none

/-- A hexadecimal or binary literal behind its prefix. -/
def lexRadix (negative : Bool) (radix : Nat) (p : Char → Bool) (name : String) (s : List Char) :
    LexResult (Token × List Char) :=
  match parseRadix radix (s.takeWhile p) with
  | some n => .ok (.integer (if negative then -n else n), s.dropWhile p)
  | none => .error ("invalid " ++ name ++ " literal")

/-- `N.N.N`, cut into its three numbers. -/
def lexVersion (negative : Bool) (major minor patch rest : List Char) :
    LexResult (Token × List Char) :=
  if negative then .error "version literals cannot be negative"
  else
    match parseU32 major, parseU32 minor, parseU32 patch with
    | none, _, _ => .error "invalid version major"
    | _, none, _ => .error "invalid version minor"
    | _, _, none => .error "invalid version patch"
    | some a, some b, some c => .ok (.version a b c, rest)

/-- The exponent behind a number: its text and the rest. -/
def lexExponent : List Char → List Char × List Char
  | c :: s =>
    if c = 'e' ∨ c = 'E' then
      match s with
      | d :: t =>
        if d = '+' ∨ d = '-' then
          (c :: d :: t.takeWhile Char.isDigit, t.dropWhile Char.isDigit)
        else (c :: s.takeWhile Char.isDigit, s.dropWhile Char.isDigit)
      | [] => ([c], [])
    else ([], c :: s)
  | [] => ([], [])

/-- The suffix `f`, `f32` or the like. -/
def lexSuffix : List Char → List Char × List Char
  | 'f' :: s => ('f' :: s.takeWhile Char.isDigit, s.dropWhile Char.isDigit)
  | s => ([], s)

variable (parseFloat : ParseFloat)

/-- The token of a decimal number from its whole text. -/
def finishNumber (text rest : List Char) : LexResult (Token × List Char) :=
  if '.' ∈ text ∨ 'e' ∈ text ∨ 'E' ∈ text then
    match parseFloat (text.takeWhile (· != 'f')) with
    | some bits => .ok (.float bits, rest)
    | none => .error "invalid float literal"
  else
    match parseI64 text with
    | some n => .ok (.integer n, rest)
    | none => .error "invalid integer literal"

/-- The exponent and the suffix behind the digits. -/
def lexTail (text s : List Char) : LexResult (Token × List Char) :=
  let (exponent, s) := lexExponent s
  let (suffix, s) := lexSuffix s
  finishNumber parseFloat (text ++ exponent ++ suffix) s

/-- Behind the sign. -/
def lexDecimal (negative : Bool) (s : List Char) : LexResult (Token × List Char) :=
  let sign := if negative then ['-'] else []
  let major := s.takeWhile Char.isDigit
  let s := s.dropWhile Char.isDigit
  if s.head? == some '.' && (s.tail.head?.any Char.isDigit) then
    let minor := s.tail.takeWhile Char.isDigit
    let t := s.tail.dropWhile Char.isDigit
    if t.head? == some '.' && (t.tail.head?.any Char.isDigit) then
      lexVersion negative major minor (t.tail.takeWhile Char.isDigit)
        (t.tail.dropWhile Char.isDigit)
    else lexTail parseFloat (sign ++ major ++ '.' :: minor) t
  else lexTail parseFloat (sign ++ major) s

/-- Behind the sign. -/
def lexUnsigned (negative : Bool) (s : List Char) : LexResult (Token × List Char) :=
  match s with
  | '0' :: x :: t =>
    if x = 'x' ∨ x = 'X' then lexRadix negative 16 isHexDigit "hex" t
    else if x = 'b' ∨ x = 'B' then
      lexRadix negative 2 (fun c => c == '0' || c == '1') "binary" t
    else lexDecimal parseFloat negative s
  | _ => lexDecimal parseFloat negative s

def lexNumber : List Char → LexResult (Token × List Char)
  | '-' :: s => lexUnsigned parseFloat true s
  | s => lexUnsigned parseFloat false s

/-- Behind the colon. -/
def lexKeywordOrColon (s : List Char) : Token × List Char :=
  if s.head?.any isSymbolChar then
    (.keyword (s.takeWhile isSymbolChar), s.dropWhile isSymbolChar)
  else (.colon, s)

/-- The characters of a symbol and the rest; a colon belongs to it before the start of a name. -/
def symbolSpan : List Char → List Char × List Char
  | [] => ([], [])
  | c :: s =>
    if isSymbolChar c && !(c == ':' && !s.head?.any isSymbolStart) then
      let (name, rest) := symbolSpan s
      (c :: name, rest)
    else ([], c :: s)

def lexSymbol (s : List Char) : Token × List Char :=
  let (name, rest) := symbolSpan s
  let token :=
    if name = "true".toList then .bool true
    else if name = "false".toList then .bool false
    else if name = "nil".toList then .nil
    else .symbol name
  (token, rest)

/-- The token that begins with `c`. -/
def readToken (c : Char) (cs : List Char) : LexResult (Token × List Char) :=
  if c = '(' then .ok (.lparen, cs)
  else if c = ')' then .ok (.rparen, cs)
  else if c = '[' then .ok (.lbracket, cs)
  else if c = ']' then .ok (.rbracket, cs)
  else if c = ',' then .ok (.comma, cs)
  else if c = '"' then (lexString [] cs).map fun (value, rest) => (.str value, rest)
  else if c = ':' then .ok (lexKeywordOrColon cs)
  else if c = '-' ∧ cs.take 2 = ['>', '>'] then .ok (.symbol "->>".toList, cs.drop 2)
  else if c = '-' ∧ cs.take 1 = ['>'] then .ok (.arrow, cs.drop 1)
  else if c.isDigit || (c == '-' && cs.head?.any Char.isDigit) then lexNumber parseFloat (c :: cs)
  else if isSymbolStart c then .ok (lexSymbol (c :: cs))
  else .error ("unexpected character: '" ++ byteText c ++ "'")

/-- The next token and the text behind it; none at the end of the text. -/
def nextToken (s : List Char) : LexResult (Option (Token × List Char)) :=
  match skipWhitespaceAndComments s with
  | .error e => .error e
  | .ok [] => .ok none
  | .ok (c :: cs) => (readToken parseFloat c cs).map some

variable {parseFloat}
variable {s t : List Char} {tok : Token}

theorem suffix_skipWhitespaceAndComments (h : skipWhitespaceAndComments s = .ok t) :
    t <:+ s := by
  fun_induction skipWhitespaceAndComments s with
  | case1 =>
    cases h
    exact List.suffix_refl _
  | case2 c cs _ ih => exact (ih h).trans (List.suffix_cons _ _)
  | case3 c cs _ _ ih => exact ((ih h).trans (List.dropWhile_suffix _)).trans (List.suffix_cons _ _)
  | case4 c cs _ _ _ u hu hshorter ih =>
    have hblock : u <:+ cs := (suffix_skipBlock hu).trans (List.tail_suffix cs)
    exact ((ih h).trans hblock).trans (List.suffix_cons _ _)
  | case5 => cases h
  | case6 =>
    cases h
    exact List.suffix_refl _

theorem suffix_lexString {value w : List Char} (h : lexString value s = .ok (w, t)) :
    t <:+ s := by
  fun_induction lexString value s with
  | case1 | case2 | case4 | case6 => cases h
  | case3 =>
    cases h
    exact List.suffix_cons _ _
  | case5 value e cs _ d hd _ ih =>
    exact ((ih h).trans (List.suffix_cons _ _)).trans (List.suffix_cons _ _)
  | case7 value c cs _ _ _ ih => exact (ih h).trans (List.suffix_cons _ _)

theorem suffix_lexExponent (s : List Char) : (lexExponent s).2 <:+ s := by
  have hdrop (s : List Char) : (s.dropWhile Char.isDigit) <:+ s := List.dropWhile_suffix _
  match s with
  | [] => exact List.suffix_refl _
  | [c] =>
    simp only [lexExponent]
    split
    · exact List.nil_suffix
    · exact List.suffix_refl _
  | c :: d :: t =>
    simp only [lexExponent]
    split
    · split
      · exact ((hdrop t).trans (List.suffix_cons _ _)).trans (List.suffix_cons _ _)
      · exact (hdrop (d :: t)).trans (List.suffix_cons _ _)
    · exact List.suffix_refl _

theorem suffix_lexSuffix (s : List Char) : (lexSuffix s).2 <:+ s := by
  unfold lexSuffix
  split
  · exact (List.dropWhile_suffix _).trans (List.suffix_cons _ _)
  · exact List.suffix_refl _

theorem finishNumber_rest {text rest : List Char}
    (h : finishNumber parseFloat text rest = .ok (tok, t)) : t = rest := by
  unfold finishNumber at h
  split at h
  all_goals
    split at h
    · cases h
      rfl
    · cases h

theorem suffix_lexTail {text : List Char} (h : lexTail parseFloat text s = .ok (tok, t)) :
    t <:+ s := by
  have hrest : t = (lexSuffix (lexExponent s).2).2 := finishNumber_rest h
  rw [hrest]
  exact (suffix_lexSuffix _).trans (suffix_lexExponent s)

theorem lexVersion_rest {negative : Bool} {major minor patch rest : List Char}
    (h : lexVersion negative major minor patch rest = .ok (tok, t)) : t = rest := by
  unfold lexVersion at h
  split at h
  · cases h
  · split at h
    all_goals cases h
    rfl

theorem suffix_lexDecimal {negative : Bool}
    (h : lexDecimal parseFloat negative s = .ok (tok, t)) :
    t <:+ (s.dropWhile Char.isDigit) := by
  unfold lexDecimal at h
  have hdrop (s : List Char) : (s.tail.dropWhile Char.isDigit) <:+ s :=
    (List.dropWhile_suffix _).trans (List.tail_suffix s)
  dsimp only at h
  split at h
  · split at h
    · rw [lexVersion_rest h]
      exact (hdrop _).trans (hdrop _)
    · exact (suffix_lexTail h).trans (hdrop _)
  · exact suffix_lexTail h

theorem suffix_lexRadix {negative : Bool} {radix : Nat} {p : Char → Bool} {name : String}
    (h : lexRadix negative radix p name s = .ok (tok, t)) : t <:+ s := by
  unfold lexRadix at h
  split at h
  · cases h
    exact List.dropWhile_suffix p
  · cases h

theorem suffix_lexUnsigned {negative : Bool}
    (h : lexUnsigned parseFloat negative s = .ok (tok, t)) :
    t <:+ s ∧ (s.head?.any Char.isDigit → t <:+ s.tail) := by
  have hdecimal : lexDecimal parseFloat negative s = .ok (tok, t) →
      t <:+ s ∧ (s.head?.any Char.isDigit → t <:+ s.tail) := by
    intro h
    have hsub := suffix_lexDecimal h
    refine ⟨hsub.trans (List.dropWhile_suffix _), fun hhead => ?_⟩
    cases s with
    | nil => simp at hhead
    | cons c cs =>
      have hc : c.isDigit = true := by simpa using hhead
      rw [List.dropWhile_cons_of_pos hc] at hsub
      exact hsub.trans (List.dropWhile_suffix _)
  unfold lexUnsigned at h
  split at h
  · next d u =>
    have hradix : t <:+ u → t <:+ '0' :: d :: u ∧
        ((('0' :: d :: u).head?.any Char.isDigit) → t <:+ ('0' :: d :: u).tail) := by
      intro hsub
      have hless : t <:+ d :: u := hsub.trans (List.suffix_cons _ _)
      exact ⟨hless.trans (List.suffix_cons _ _), fun _ => hless⟩
    split at h
    · exact hradix (suffix_lexRadix h)
    · split at h
      · exact hradix (suffix_lexRadix h)
      · exact hdecimal h
  · exact hdecimal h

theorem suffix_lexNumber {c : Char} (h : lexNumber parseFloat (c :: s) = .ok (tok, t))
    (hc : c.isDigit = true ∨ c = '-') : t <:+ s := by
  unfold lexNumber at h
  split at h
  · next u heq =>
    cases heq
    exact (suffix_lexUnsigned h).1
  · next hminus =>
    have hdigit : c.isDigit = true := hc.resolve_right fun hc => hminus s (by rw [hc])
    exact (suffix_lexUnsigned h).2 (by simpa using hdigit)

theorem suffix_symbolSpan (s : List Char) : (symbolSpan s).2 <:+ s := by
  fun_induction symbolSpan s with
  | case1 => exact List.suffix_refl _
  | case2 c s _ name rest hspan ih =>
    rw [hspan] at ih
    exact ih.trans (List.suffix_cons _ _)
  | case3 => exact List.suffix_refl _

theorem suffix_lexSymbol {c : Char} (hc : isSymbolStart c = true) :
    (lexSymbol (c :: s)).2 <:+ s := by
  have hcolon : c ≠ ':' := by
    rintro rfl
    revert hc
    decide
  simp only [lexSymbol, symbolSpan, isSymbolChar, hc, beq_eq_false_iff_ne.mpr hcolon]
  simp only [Bool.true_or, Bool.false_and, Bool.not_false, Bool.and_true, if_true]
  exact suffix_symbolSpan s

theorem suffix_lexKeywordOrColon (s : List Char) : (lexKeywordOrColon s).2 <:+ s := by
  unfold lexKeywordOrColon
  split
  · exact List.dropWhile_suffix _
  · exact List.suffix_refl _

theorem rest_eq {p : Token × List Char} (h : (.ok p : LexResult _) = .ok (tok, t)) : t = p.2 :=
  (congrArg Prod.snd (Except.ok.inj h)).symm

theorem suffix_readToken {c : Char} (h : readToken parseFloat c s = .ok (tok, t)) :
    t <:+ s := by
  unfold readToken at h
  iterate 5
    rcases ite_eq_iff.mp h with ⟨-, h⟩ | ⟨-, h⟩
    · exact rest_eq h ▸ List.suffix_refl _
  rcases ite_eq_iff.mp h with ⟨-, h⟩ | ⟨-, h⟩
  · cases hstring : lexString [] s with
    | error e =>
      rw [hstring] at h
      cases h
    | ok p =>
      rw [hstring] at h
      rw [rest_eq h]
      exact suffix_lexString hstring
  rcases ite_eq_iff.mp h with ⟨-, h⟩ | ⟨-, h⟩
  · rw [rest_eq h]
    exact suffix_lexKeywordOrColon s
  rcases ite_eq_iff.mp h with ⟨-, h⟩ | ⟨-, h⟩
  · exact rest_eq h ▸ List.drop_suffix 2 s
  rcases ite_eq_iff.mp h with ⟨-, h⟩ | ⟨-, h⟩
  · exact rest_eq h ▸ List.drop_suffix 1 s
  rcases ite_eq_iff.mp h with ⟨hnumber, h⟩ | ⟨-, h⟩
  · apply suffix_lexNumber h
    simp only [Bool.or_eq_true, Bool.and_eq_true, beq_iff_eq] at hnumber
    exact hnumber.imp id And.left
  rcases ite_eq_iff.mp h with ⟨hsymbol, h⟩ | ⟨-, h⟩
  · rw [rest_eq h]
    exact suffix_lexSymbol hsymbol
  · cases h

theorem length_nextToken (h : nextToken parseFloat s = .ok (some (tok, t))) :
    t.length < s.length := by
  unfold nextToken at h
  split at h
  · cases h
  · cases h
  · next c cs hskip =>
    cases htoken : readToken parseFloat c cs with
    | error e =>
      rw [htoken] at h
      cases h
    | ok p =>
      rw [htoken] at h
      cases h
      have hread := (suffix_readToken htoken).length_le
      have hle := (suffix_skipWhitespaceAndComments hskip).length_le
      exact Nat.lt_of_le_of_lt hread hle

/-- The tokens of a text, of which `count` were read before. -/
def lexAll (parseFloat : ParseFloat) (count : Nat) (s : List Char) : LexResult (List Token) :=
  match h : nextToken parseFloat s with
  | .error e => .error e
  | .ok none => .ok []
  | .ok (some (tok, t)) =>
    have := length_nextToken h
    if maxTokenCount ≤ count + 1 then
      .error ("token limit exceeded (" ++ toString maxTokenCount ++ ")")
    else (lexAll parseFloat (count + 1) t).map (tok :: ·)
termination_by s.length

end Lexer

end Airl.Syntax
