import Airl.Syntax.Ast
import Airl.Syntax.Lexer

/-! # The lexer on bytes

`lexer.rs` as it runs: over the bytes of the source, with the position, the line and the column of
the next one. An index behind the last byte is a panic, and so is a counter of 32 bits that runs
over. A loop is given the number of times it may turn.
-/

namespace Airl.Syntax.ByteLexer

open Lexer (isSymbolStart isSymbolChar isAsciiWhitespace isHexDigit escape parseRadix parseI64
  parseU32 maxTokenCount maxStringLength)

inductive Stop where
  | error (d : Diagnostic)
  | panicked
  | unfinished
  deriving DecidableEq

abbrev Outcome := Except Stop

/-- Where the lexer stands: `rest` is `source[pos..]`. -/
structure Cursor where
  rest : List UInt8
  pos : Nat
  line : Nat
  col : Nat
  deriving DecidableEq

/-- `Lexer::new`. -/
def Cursor.new (source : List UInt8) : Cursor := ⟨source, 0, 1, 0⟩

/-- What a `u32` stays below. -/
def counterBound : Nat := 4294967296

/-- `ch as char`. -/
def asChar (b : UInt8) : Char := Char.ofNat b.toNat

def Cursor.advance (c : Cursor) : Outcome Cursor :=
  match c.rest with
  | [] => .ok c
  | b :: rest =>
    if asChar b = '\n' then
      if c.line + 1 < counterBound then .ok ⟨rest, c.pos + 1, c.line + 1, 0⟩
      else .error .panicked
    else if c.col + 1 < counterBound then .ok ⟨rest, c.pos + 1, c.line, c.col + 1⟩
    else .error .panicked

def Cursor.advances : Nat → Cursor → Outcome Cursor
  | 0, c => .ok c
  | n + 1, c => do
      let c ← c.advance
      c.advances n

/-- `while self.pos < self.source.len() && p(self.source[self.pos])`. -/
def Cursor.advanceWhile (p : Char → Bool) (c : Cursor) : Outcome Cursor :=
  c.advances (c.rest.takeWhile fun b => p (asChar b)).length

/-- `self.source[self.pos]`. -/
def Cursor.current (c : Cursor) : Outcome UInt8 :=
  match c.rest with
  | b :: _ => .ok b
  | [] => .error .panicked

def Cursor.peekAt (c : Cursor) (offset : Nat) : Option Char := c.rest[offset]?.map asChar

/-- `from_utf8(&self.source[start..self.pos]).unwrap_or("")`. -/
def textBetween (start c : Cursor) : List Char :=
  (Utf8.decode (start.rest.take (c.pos - start.pos))).getD []

def spanBetween (start c : Cursor) : Span := ⟨start.pos, c.pos, start.line, start.col⟩

def fail {α : Type} (message : String) (span : Span) : Outcome α :=
  .error (.error (.error message span))

/-- The rest of a block comment inside which `depth` comments are open. -/
def skipBlock (start : Cursor) : Nat → Nat → Cursor → Outcome Cursor
  | 0, _, _ => .error .unfinished
  | fuel + 1, depth, c =>
    if depth = 0 then .ok c
    else if c.rest = [] then fail "unterminated block comment" (spanBetween start c)
    else if c.peekAt 0 = some '#' ∧ c.peekAt 1 = some '|' then
      if depth + 1 < counterBound then do
        let c ← c.advances 2
        skipBlock start fuel (depth + 1) c
      else .error .panicked
    else if c.peekAt 0 = some '|' ∧ c.peekAt 1 = some '#' then do
      let c ← c.advances 2
      skipBlock start fuel (depth - 1) c
    else do
      let c ← c.advance
      skipBlock start fuel depth c

def skipWhitespaceAndComments : Nat → Cursor → Outcome Cursor
  | 0, _ => .error .unfinished
  | fuel + 1, c => do
      let c ← c.advanceWhile isAsciiWhitespace
      if c.peekAt 0 = some ';' then
        let c ← c.advanceWhile (· != '\n')
        skipWhitespaceAndComments fuel c
      else if c.peekAt 0 = some '#' ∧ c.peekAt 1 = some '|' then
        let inside ← c.advances 2
        let c ← skipBlock c (inside.rest.length + 1) 1 inside
        skipWhitespaceAndComments fuel c
      else pure c

/-- The length of a sequence by its first byte. -/
def sequenceLength (b : UInt8) : Nat :=
  if b &&& 0xE0 = 0xC0 then 2
  else if b &&& 0xF0 = 0xE0 then 3
  else if b &&& 0xF8 = 0xF0 then 4
  else 1

/-- Behind the opening quotation mark; `value` is what was read so far. -/
def readString (start : Cursor) : Nat → List Char → Cursor → Outcome (List Char × Cursor)
  | 0, _, _ => .error .unfinished
  | fuel + 1, value, c =>
    if c.rest = [] then fail "unterminated string literal" (spanBetween start c)
    else if maxStringLength ≤ Text.byteLength value then
      fail ("string literal exceeds maximum length (" ++ toString maxStringLength ++ ")")
        (spanBetween start c)
    else do
      let b ← c.current
      if asChar b = '"' then
        let c ← c.advance
        pure (value, c)
      else if asChar b = '\\' then
        let c ← c.advance
        if c.rest = [] then fail "unterminated escape sequence" (spanBetween start c)
        else
          let other ← c.current
          match escape (asChar other) with
          | some d =>
            let c ← c.advance
            readString start fuel (value ++ [d]) c
          | none =>
            fail ("unknown escape sequence: \\" ++ String.ofList [asChar other])
              ⟨c.pos - 1, c.pos + 1, c.line, c.col⟩
      else if b < 0x80 then
        let c ← c.advance
        readString start fuel (value ++ [asChar b]) c
      else
        match Utf8.decode (c.rest.take (sequenceLength b)) with
        | some (ch :: _) =>
          let c ← c.advances ch.utf8Size
          readString start fuel (value ++ [ch]) c
        -- not the bytes of a character
        | _ =>
          fail ("invalid UTF-8 byte: 0x" ++
              String.ofList ((Nat.toDigits 16 b.toNat).map Char.toUpper))
            ⟨c.pos, c.pos + 1, c.line, c.col⟩

def lexString (c : Cursor) : Outcome (Token × Cursor) := do
  let inside ← c.advance
  let read ← readString c (inside.rest.length + 1) [] inside
  pure (.str read.1, read.2)

/-- `-val`. -/
def negate (n : Int64) : Outcome Int64 :=
  if n = Int64.minValue then .error .panicked else .ok (-n)

/-- A hexadecimal or binary literal from its prefix on. -/
def lexRadix (start : Cursor) (negative : Bool) (radix : Nat) (p : Char → Bool) (name : String)
    (c : Cursor) : Outcome (Token × Cursor) := do
  let digits ← c.advances 2
  let c ← digits.advanceWhile p
  match parseRadix radix (textBetween digits c) with
  | some n =>
    if negative then
      let n ← negate n
      pure (.integer n, c)
    else pure (.integer n, c)
  | none => fail ("invalid " ++ name ++ " literal") (spanBetween start c)

def lexVersion (start : Cursor) (negative : Bool) (major minor patch : List Char) (c : Cursor) :
    Outcome (Token × Cursor) :=
  if negative then fail "version literals cannot be negative" (spanBetween start c)
  else
    match parseU32 major, parseU32 minor, parseU32 patch with
    | none, _, _ => fail "invalid version major" (spanBetween start c)
    | _, none, _ => fail "invalid version minor" (spanBetween start c)
    | _, _, none => fail "invalid version patch" (spanBetween start c)
    | some major, some minor, some patch => .ok (.version major minor patch, c)

def lexExponent (c : Cursor) : Outcome Cursor :=
  if c.peekAt 0 = some 'e' ∨ c.peekAt 0 = some 'E' then do
    let c ← c.advance
    if c.peekAt 0 = some '+' ∨ c.peekAt 0 = some '-' then
      let c ← c.advance
      c.advanceWhile Char.isDigit
    else c.advanceWhile Char.isDigit
  else pure c

def lexSuffix (c : Cursor) : Outcome Cursor :=
  if c.peekAt 0 = some 'f' then do
    let c ← c.advance
    c.advanceWhile Char.isDigit
  else pure c

section Tokens

variable (parseFloat : ParseFloat)

def finishNumber (start c : Cursor) : Outcome (Token × Cursor) :=
  let text := textBetween start c
  if '.' ∈ text ∨ 'e' ∈ text ∨ 'E' ∈ text then
    match parseFloat (text.takeWhile (· != 'f')) with
    | some bits => .ok (.float bits, c)
    | none => fail "invalid float literal" (spanBetween start c)
  else
    match parseI64 text with
    | some n => .ok (.integer n, c)
    | none => fail "invalid integer literal" (spanBetween start c)

def lexTail (start c : Cursor) : Outcome (Token × Cursor) := do
  let c ← lexExponent c
  let c ← lexSuffix c
  finishNumber parseFloat start c

/-- Behind the sign. -/
def lexDecimal (start : Cursor) (negative : Bool) (c : Cursor) : Outcome (Token × Cursor) := do
  let afterInt ← c.advanceWhile Char.isDigit
  if afterInt.peekAt 0 = some '.' ∧ (afterInt.peekAt 1).any Char.isDigit then
    let minorStart ← afterInt.advance
    let afterMinor ← minorStart.advanceWhile Char.isDigit
    if afterMinor.peekAt 0 = some '.' ∧ (afterMinor.peekAt 1).any Char.isDigit then
      let patchStart ← afterMinor.advance
      let end_ ← patchStart.advanceWhile Char.isDigit
      lexVersion start negative (textBetween c afterInt) (textBetween minorStart afterMinor)
        (textBetween patchStart end_) end_
    else lexTail parseFloat start afterMinor
  else lexTail parseFloat start afterInt

/-- Behind the sign. -/
def lexUnsigned (start : Cursor) (negative : Bool) (c : Cursor) : Outcome (Token × Cursor) := do
  let b ← c.current
  if asChar b = '0' ∧ (c.peekAt 1 = some 'x' ∨ c.peekAt 1 = some 'X') then
    lexRadix start negative 16 isHexDigit "hex" c
  else if asChar b = '0' ∧ (c.peekAt 1 = some 'b' ∨ c.peekAt 1 = some 'B') then
    lexRadix start negative 2 (fun c => c == '0' || c == '1') "binary" c
  else lexDecimal parseFloat start negative c

def lexNumber (c : Cursor) : Outcome (Token × Cursor) := do
  let b ← c.current
  if asChar b = '-' then
    let unsigned ← c.advance
    lexUnsigned parseFloat c true unsigned
  else lexUnsigned parseFloat c false c

def lexKeywordOrColon (c : Cursor) : Outcome (Token × Cursor) := do
  let start ← c.advance
  if (start.peekAt 0).any isSymbolChar then
    let c ← start.advanceWhile isSymbolChar
    pure (.keyword (textBetween start c), c)
  else pure (.colon, start)

/-- How many bytes the loop of `lex_symbol` takes. -/
def symbolLength : List UInt8 → Nat
  | [] => 0
  | b :: rest =>
    if isSymbolChar (asChar b) &&
        !(asChar b == ':' && !(rest.head?.any fun next => isSymbolStart (asChar next))) then
      symbolLength rest + 1
    else 0

def lexSymbol (start : Cursor) : Outcome (Token × Cursor) := do
  let c ← start.advances (symbolLength start.rest)
  let text := textBetween start c
  if text = "true".toList then pure (.bool true, c)
  else if text = "false".toList then pure (.bool false, c)
  else if text = "nil".toList then pure (.nil, c)
  else pure (.symbol text, c)

/-- `Token`; without a kind it is the end of the file. -/
structure Spanned where
  kind : Option Token
  span : Span
  deriving DecidableEq

/-- A token of `n` bytes that is known by them. -/
def fixed (n : Nat) (tok : Token) (c : Cursor) : Outcome (Token × Cursor) := do
  let c ← c.advances n
  pure (tok, c)

def readToken (c : Cursor) : Outcome (Token × Cursor) := do
  let b ← c.current
  let ch := asChar b
  if ch = '(' then fixed 1 .lparen c
  else if ch = ')' then fixed 1 .rparen c
  else if ch = '[' then fixed 1 .lbracket c
  else if ch = ']' then fixed 1 .rbracket c
  else if ch = ',' then fixed 1 .comma c
  else if ch = '"' then lexString c
  else if ch = ':' then lexKeywordOrColon c
  else if ch = '-' ∧ c.peekAt 1 = some '>' ∧ c.peekAt 2 = some '>' then
    fixed 3 (.symbol "->>".toList) c
  else if ch = '-' ∧ c.peekAt 1 = some '>' then fixed 2 .arrow c
  else if ch.isDigit || (ch == '-' && (c.peekAt 1).any Char.isDigit) then lexNumber parseFloat c
  else if isSymbolStart ch then lexSymbol c
  else
    fail ("unexpected character: '" ++ String.ofList [ch] ++ "'")
      ⟨c.pos, c.pos + 1, c.line, c.col⟩

def nextToken (c : Cursor) : Outcome (Spanned × Cursor) := do
  let start ← skipWhitespaceAndComments (c.rest.length + 1) c
  if start.rest = [] then pure (⟨none, spanBetween start start⟩, start)
  else
    let read ← readToken parseFloat start
    pure (⟨some read.1, spanBetween start read.2⟩, read.2)

/-- The tokens from the cursor on, of which `count` were read before. -/
def lexFrom : Nat → Nat → Cursor → Outcome (List Spanned)
  | 0, _, _ => .error .unfinished
  | fuel + 1, count, c => do
      let next ← nextToken parseFloat c
      match next.1.kind with
      | none => pure [next.1]
      | some _ =>
        if maxTokenCount ≤ count + 1 then
          fail ("token limit exceeded (" ++ toString maxTokenCount ++ ")") next.1.span
        else
          let later ← lexFrom fuel (count + 1) next.2
          pure (next.1 :: later)

/-- `Lexer::new(source).lex_all()`. -/
def lexAll (source : List UInt8) : Outcome (List Spanned) :=
  lexFrom parseFloat (source.length + 1) 0 (Cursor.new source)

end Tokens

end Airl.Syntax.ByteLexer
