import Airl.Json.Parser

/-! # The parser over the rest of the text

The same parser without positions: a function takes the bytes from its position on
and returns the bytes after what it read. Every lookup is in range here and every
clause but the one of `hex-digit-to-int` is gone; `jsonParseValue_scan` and its
companions show that this is the parser of the source.
-/

namespace Airl.Json.Scan

variable (H : Host) {α β : Type}

/-- The byte at offset `i`. -/
def peek (src : Bytes) (i : Nat) : Run UInt8 :=
  match src[i]? with
  | some b => .ok b
  | none => .error .exit

def skipWs (src : Bytes) : Bytes := src.dropWhile isWs

/-- A call of `json-skip-ws`. -/
def skip (frames : Nat) (src : Bytes) : Run Bytes := H.enter frames fun _ => .ok (skipWs src)

def unicode (frames : Nat) (src : Bytes) : Run Bytes :=
  H.enter frames fun frames => do
    let d0 ← hexDigitToInt H frames (← peek src 0)
    let d1 ← hexDigitToInt H frames (← peek src 1)
    let d2 ← hexDigitToInt H frames (← peek src 2)
    let d3 ← hexDigitToInt H frames (← peek src 3)
    return codePointBytes
      (((bitwiseShl d0 12 ||| bitwiseShl d1 8) ||| bitwiseShl d2 4) ||| d3)

/-- `chunk` in front of the chunks that were read after it. -/
def push (frames : Nat) (chunk : Bytes) : Reply (List Bytes × α) → Run (Reply (List Bytes × α))
  | .ok rest => do return .ok (← concat H frames [chunk] rest.1, rest.2)
  | .error e => .ok (.error e)

/-- The chunks up to the closing quote and what follows the quote. -/
def stringLoop : Nat → Bytes → Run (Reply (List Bytes × Bytes))
  | 0, _ => H.overflow
  | _ + 1, [] => .ok (.error "json-parse: unterminated string")
  | frames + 1, b :: rest =>
    if b = 34 then .ok (.ok ([], rest))
    else if b = 92 then
      match rest with
      | [] => .ok (.error "json-parse: unterminated string")
      | next :: rest =>
        if next = 117 then do
          let chunk ← unicode H frames rest
          push H frames chunk (← stringLoop frames (rest.drop 4))
        else do push H frames (unescape next) (← stringLoop frames rest)
    else do push H frames [b] (← stringLoop frames rest)

/-- The text of the chunks of a string. -/
def joinChunks (parts : List Bytes) : String := String.ofList (Utf8.decodeLossy parts.flatten)

def string (frames : Nat) (src : Bytes) : Run (Reply (String × Bytes)) :=
  H.enter frames fun frames => do
    match ← stringLoop H frames src with
    | .ok (parts, rest) => return .ok (joinChunks parts, rest)
    | .error e => return .error e

/-- The value of the digits, wrapping as the source's accumulator does. -/
def readInt (neg : Bool) : Bytes → Int64 → Reply Int64
  | [], acc => .ok (if neg then 0 - acc else acc)
  | b :: rest, acc =>
    if acc > 922337203685477580 then .error "number too large"
    else readInt neg rest (acc * 10 + (byteToInt b - 48))

/-- What a number without a dot denotes. -/
def readInteger (text : Bytes) : Reply VmValue :=
  if text = [45] then .error "json-parse: invalid number"
  else if text.head? = some 45 then (readInt true text.tail 0).map .int
  else (readInt false text 0).map .int

/-- What a number of these bytes denotes. -/
def readNumber (text : Bytes) : Reply VmValue :=
  if text = [] then .error "json-parse: invalid number"
  else if 46 ∈ text then
    match H.stringToFloat (String.ofList (Utf8.decodeLossy text)) with
    | some v => .ok (.float v)
    | none => .error "json-parse: invalid number"
  else readInteger text

/-- A call of `json-parse-number` with the calls it makes. -/
def number (frames : Nat) (src : Bytes) : Run (Reply (VmValue × Bytes)) :=
  H.enter frames fun frames => H.enter frames fun _ =>
    .ok ((readNumber H (src.takeWhile isNumberByte)).map fun v =>
      (v, src.dropWhile isNumberByte))

/-- The word `bs` stands at the front. -/
def word (frames : Nat) (src bs : Bytes) : Run Bool :=
  H.enter frames fun _ => .ok (bs.isPrefixOf src)

/-- A separating comma is skipped where there is one. -/
def dropComma : Bytes → Bytes
  | 44 :: rest => rest
  | rest => rest

/-- The entries of an object in the order they stand in. -/
def objectLoopIn (frames : Nat) (parseValue : Bytes → Run (Reply (VmValue × Bytes))) :
    Nat → Bytes → Run (Reply (List (String × VmValue) × Bytes))
  | 0, src => do
    let _ ← skip H frames src
    return .error "json-parse: unterminated object"
  | left + 1, src => do
    match ← skip H frames src with
    | [] => return .error "json-parse: unterminated object"
    | b :: src =>
      if b = 125 then return .ok ([], src)
      if b ≠ 34 then return .error "json-parse: expected string key in object"
      match ← string H frames src with
      | .error e => return .error e
      | .ok (key, src) =>
        match ← skip H frames src with
        | [] => return .error "json-parse: unterminated object"
        | c :: src =>
          if c ≠ 58 then return .error "json-parse: expected ':' in object"
          match ← parseValue src with
          | .error e => return .error e
          | .ok (val, src) =>
            match ← skip H frames src with
            | [] => return .error "json-parse: unterminated object"
            | c :: src =>
              match ← objectLoopIn frames parseValue left (dropComma (c :: src)) with
              | .ok (entries, src) => return .ok ((key, val) :: entries, src)
              | .error e => return .error e

mutual

def arrayLoop : Nat → Bytes → Run (Reply (List VmValue × Bytes))
  | 0, _ => H.overflow
  | frames + 1, src => do
    match ← skip H frames src with
    | [] => return .error "json-parse: unterminated array"
    | b :: src =>
      if b = 93 then return .ok ([], src)
      match ← value frames (b :: src) with
      | .error e => return .error e
      | .ok (val, src) =>
        match ← skip H frames src with
        | [] => return .error "json-parse: unterminated array"
        | c :: src =>
          match ← arrayLoop frames (dropComma (c :: src)) with
          | .ok (vals, src) => return .ok (val :: vals, src)
          | .error e => return .error e

def objectLoop : Nat → Bytes → Run (Reply (List (String × VmValue) × Bytes))
  | 0, _ => H.overflow
  | frames + 1, src => objectLoopIn H frames (fun src => value frames src) src.length src

def value : Nat → Bytes → Run (Reply (VmValue × Bytes))
  | 0, _ => H.overflow
  | frames + 1, src => do
    match ← skip H frames src with
    | [] => return .error "json-parse: unexpected end of input"
    | b :: src =>
      if b = 34 then
        match ← string H frames src with
        | .ok (s, src) => return .ok (.str s, src)
        | .error e => return .error e
      else if b = 91 then
        match ← arrayLoop frames src with
        | .ok (items, src) => return .ok (.list items, src)
        | .error e => return .error e
      else if b = 123 then
        match ← objectLoop frames src with
        | .ok (entries, src) =>
          return .ok (.map (entries.foldl (fun m e => mapSet m e.1 e.2) []), src)
        | .error e => return .error e
      else if b = 116 then
        if ← word H frames src [114, 117, 101] then return .ok (.bool true, src.drop 3)
        else return .error "json-parse: expected 'true'"
      else if b = 102 then
        if ← word H frames src [97, 108, 115, 101] then return .ok (.bool false, src.drop 4)
        else return .error "json-parse: expected 'false'"
      else if b = 110 then
        if ← word H frames src [117, 108, 108] then return .ok (.nil, src.drop 3)
        else return .error "json-parse: expected 'null'"
      else number H frames (b :: src)

end

/-- `json-parse` on the bytes of its text. -/
def text (frames : Nat) (src : Bytes) : Run (Reply VmValue) :=
  H.enter frames fun frames => do
    if src = [] then return .error "json-parse: empty input"
    match ← value H frames src with
    | .ok (v, src) =>
      if (← skip H frames src) = [] then return .ok v
      else return .error "json-parse: unexpected trailing content after value"
    | .error e => return .error e

/-- How the rest of a string literal begins. -/
inductive StringForm : Bytes → Prop
  | finished : StringForm []
  | quote (rest : Bytes) : StringForm (34 :: rest)
  | backslash : StringForm [92]
  | unicode (rest : Bytes) : StringForm (92 :: 117 :: rest)
  | escape (next : UInt8) (rest : Bytes) (h : next ≠ 117) : StringForm (92 :: next :: rest)
  | plain (b : UInt8) (rest : Bytes) (hq : b ≠ 34) (hb : b ≠ 92) : StringForm (b :: rest)

theorem stringForm (src : Bytes) : StringForm src := by
  cases src with
  | nil => exact .finished
  | cons b rest =>
    by_cases hq : b = 34
    · exact hq ▸ .quote rest
    by_cases hb : b = 92
    · subst hb
      cases rest with
      | nil => exact .backslash
      | cons next rest =>
        by_cases hu : next = 117
        · exact hu ▸ .unicode rest
        · exact .escape next rest hu
    · exact .plain b rest hq hb

section

variable {frames : Nat} {b next : UInt8} {rest : Bytes}

theorem stringLoop_quote : stringLoop H (frames + 1) (34 :: rest) = .ok (.ok ([], rest)) := rfl

theorem stringLoop_backslash :
    stringLoop H (frames + 1) [92] = .ok (.error "json-parse: unterminated string") := rfl

theorem stringLoop_unicode : stringLoop H (frames + 1) (92 :: 117 :: rest) = (do
    let chunk ← unicode H frames rest
    push H frames chunk (← stringLoop H frames (rest.drop 4))) := rfl

theorem stringLoop_escape (h : next ≠ 117) : stringLoop H (frames + 1) (92 :: next :: rest) = (do
    push H frames (unescape next) (← stringLoop H frames rest)) := by
  rw [stringLoop.eq_def]
  simp only [if_neg h]
  rfl

theorem stringLoop_plain (hq : b ≠ 34) (hb : b ≠ 92) :
    stringLoop H (frames + 1) (b :: rest) = (do
      push H frames [b] (← stringLoop H frames rest)) := by
  rw [stringLoop.eq_def]
  simp only [if_neg hq, if_neg hb]

end

end Airl.Json.Scan
