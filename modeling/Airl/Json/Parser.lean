import Airl.Json.Host

/-! # The JSON parser

The functions of `json.airl` from `json-skip-ws` to `json-parse`. Positions are
indices into the bytes of the text. A function that calls itself in tail position
keeps its frame: it is a loop here, over what is left between its position and the
end, so that zero is the branch in which the position has reached the end.
-/

namespace Airl.Json

variable (H : Host)

def isWs (b : UInt8) : Bool := b = 32 || b = 9 || b = 10 || b = 13

def jsonSkipWsLoop (src : Bytes) (len : Int) : Nat → Int → Run Int
  | left, pos => do
    H.requires "json-skip-ws" "(>= pos 0)" (0 ≤ pos)
    H.requires "json-skip-ws" "(>= len 0)" (0 ≤ len)
    match left with
    | 0 => return pos
    | left + 1 =>
      if isWs (← byteAt src pos) then jsonSkipWsLoop src len left (pos + 1) else return pos

def jsonSkipWs (frames : Nat) (src : Bytes) (pos len : Int) : Run Int :=
  H.enter frames fun _ => jsonSkipWsLoop H src len (len - pos).toNat pos

/-- The clause of `hex-digit-to-int`. -/
def isHexDigit (b : UInt8) : Bool :=
  48 ≤ b && b ≤ 57 || (65 ≤ b && b ≤ 70 || 97 ≤ b && b ≤ 102)

/-- The value that the body of `hex-digit-to-int` computes, for any byte. -/
def hexValue (b : UInt8) : Int64 :=
  if 48 ≤ b ∧ b ≤ 57 then byteToInt b - 48
  else if 65 ≤ b ∧ b ≤ 70 then byteToInt b - 55
  else byteToInt b - 87

def hexDigitToInt (frames : Nat) (b : UInt8) : Run Int64 :=
  H.enter frames fun _ => do
    H.requires "hex-digit-to-int"
      "(or (and (>= b 48) (<= b 57)) (or (and (>= b 65) (<= b 70)) (and (>= b 97) (<= b 102))))"
      (isHexDigit b)
    let result := hexValue b
    H.ensures "hex-digit-to-int" "(and (>= result 0) (<= result 15))" (0 ≤ result ∧ result ≤ 15)
    return result

/-- The UTF-8 bytes of a code point below 2^16, surrogates included. -/
def codePointBytes (cp : Int64) : Bytes :=
  if cp ≤ 127 then bytesFromInt8 cp
  else if cp ≤ 2047 then
    bytesFromInt8 (192 ||| bitwiseShr cp 6) ++ bytesFromInt8 (128 ||| (cp &&& 63))
  else
    bytesFromInt8 (224 ||| bitwiseShr cp 12) ++
      (bytesFromInt8 (128 ||| (bitwiseShr cp 6 &&& 63)) ++ bytesFromInt8 (128 ||| (cp &&& 63)))

def unicodeEscapeToBytes (frames : Nat) (src : Bytes) (pos : Int) : Run Bytes :=
  H.enter frames fun frames => do
    H.requires "unicode-escape-to-bytes" "(>= pos 0)" (0 ≤ pos)
    let d0 ← hexDigitToInt H frames (← byteAt src pos)
    let d1 ← hexDigitToInt H frames (← byteAt src (pos + 1))
    let d2 ← hexDigitToInt H frames (← byteAt src (pos + 2))
    let d3 ← hexDigitToInt H frames (← byteAt src (pos + 3))
    return codePointBytes
      (((bitwiseShl d0 12 ||| bitwiseShl d1 8) ||| bitwiseShl d2 4) ||| d3)

/-- `bytes-match-3` and `bytes-match-4`, with the bytes to match as a list. -/
def bytesMatchFrom (src : Bytes) : Int → List UInt8 → Run Bool
  | _, [] => return true
  | pos, b :: bs => do
    if (← byteAt src pos) = b then bytesMatchFrom src (pos + 1) bs else return false

def bytesMatch (function : String) (frames : Nat) (src : Bytes) (pos len : Int)
    (bs : List UInt8) : Run Bool :=
  H.enter frames fun _ => do
    H.requires function "(>= pos 0)" (0 ≤ pos)
    H.requires function "(>= len 0)" (0 ≤ len)
    if pos + bs.length > len then return false else bytesMatchFrom src pos bs

def bytesMatch3 (frames : Nat) (src : Bytes) (pos len : Int) (b0 b1 b2 : UInt8) : Run Bool :=
  bytesMatch H "bytes-match-3" frames src pos len [b0, b1, b2]

def bytesMatch4 (frames : Nat) (src : Bytes) (pos len : Int) (b0 b1 b2 b3 : UInt8) : Run Bool :=
  bytesMatch H "bytes-match-4" frames src pos len [b0, b1, b2, b3]

/-- The byte that `\` followed by `next` stands for, `\u` apart. -/
def unescape (next : UInt8) : Bytes :=
  if next = 110 then bytesFromInt8 10
  else if next = 116 then bytesFromInt8 9
  else if next = 114 then bytesFromInt8 13
  else if next = 98 then bytesFromInt8 8
  else if next = 102 then bytesFromInt8 12
  else bytesFromInt8 (byteToInt next)

/-- The chunks up to the closing quote and the position of that quote. -/
def jsonParseStringLoop (src : Bytes) (len : Int) : Nat → Int → Run (Reply (List Bytes × Int))
  | 0, _ => H.overflow
  | frames + 1, pos => do
    H.requires "json-parse-string-loop" "(>= pos 0)" (0 ≤ pos)
    if pos ≥ len then return .error "json-parse: unterminated string"
    let b ← byteAt src pos
    if b = 34 then return .ok ([], pos)
    if b = 92 then
      if pos + 1 ≥ len then return .error "json-parse: unterminated string"
      let next ← byteAt src (pos + 1)
      if next = 117 then
        let escBytes ← unicodeEscapeToBytes H frames src (pos + 2)
        match ← jsonParseStringLoop src len frames (pos + 6) with
        | .ok rest => return .ok (← concat H frames [escBytes] rest.1, rest.2)
        | .error e => return .error e
      else
        match ← jsonParseStringLoop src len frames (pos + 2) with
        | .ok rest => return .ok (← concat H frames [unescape next] rest.1, rest.2)
        | .error e => return .error e
    else
      match ← jsonParseStringLoop src len frames (pos + 1) with
      | .ok rest => return .ok (← concat H frames [bytesFromInt8 (byteToInt b)] rest.1, rest.2)
      | .error e => return .error e

def jsonParseString (frames : Nat) (src : Bytes) (pos len : Int) : Run (Reply (String × Int)) :=
  H.enter frames fun frames => do
    H.requires "json-parse-string" "(>= pos 0)" (0 ≤ pos)
    match ← jsonParseStringLoop H src len frames pos with
    | .ok (parts, endPos) =>
      if parts.length = 0 then return .ok ("", endPos + 1)
      else
        let bytes := parts.flatten
        return .ok (bytesToString bytes 0 bytes.length, endPos + 1)
    | .error e => return .error e

def isNumberByte (b : UInt8) : Bool :=
  48 ≤ b && b ≤ 57 || (b = 46 || (b = 45 || (b = 43 || (b = 101 || b = 69))))

def jsonParseNumberEndLoop (src : Bytes) (len : Int) : Nat → Int → Run Int
  | left, pos => do
    H.requires "json-parse-number-end" "(>= pos 0)" (0 ≤ pos)
    H.requires "json-parse-number-end" "(>= len 0)" (0 ≤ len)
    match left with
    | 0 => return pos
    | left + 1 =>
      if isNumberByte (← byteAt src pos) then jsonParseNumberEndLoop src len left (pos + 1)
      else return pos

def jsonParseNumberEnd (frames : Nat) (src : Bytes) (pos len : Int) : Run Int :=
  H.enter frames fun _ => jsonParseNumberEndLoop H src len (len - pos).toNat pos

def jsonHasDotLoop (src : Bytes) (stop : Int) : Nat → Int → Run Bool
  | left, start => do
    H.requires "json-has-dot" "(>= start 0)" (0 ≤ start)
    H.requires "json-has-dot" "(>= end 0)" (0 ≤ stop)
    match left with
    | 0 => return false
    | left + 1 =>
      if (← byteAt src start) = 46 then return true
      else jsonHasDotLoop src stop left (start + 1)

def jsonHasDot (frames : Nat) (src : Bytes) (start stop : Int) : Run Bool :=
  H.enter frames fun _ => jsonHasDotLoop H src stop (stop - start).toNat start

/-- The accumulator wraps; the guard is the source's, before the last multiplication. -/
def jsonParseIntLoop (src : Bytes) (neg : Bool) : Nat → Int → Int64 → Run (Reply Int64)
  | left, pos, acc => do
    H.requires "json-parse-int-loop" "(>= pos 0)" (0 ≤ pos)
    match left with
    | 0 => return .ok (if neg then 0 - acc else acc)
    | left + 1 =>
      let b ← byteAt src pos
      let digit := byteToInt b - 48
      if acc > 922337203685477580 then return .error "number too large"
      else jsonParseIntLoop src neg left (pos + 1) (acc * 10 + digit)

def jsonParseInt (frames : Nat) (src : Bytes) (pos stop : Int) (acc : Int64) (neg : Bool) :
    Run (Reply Int64) :=
  H.enter frames fun _ => jsonParseIntLoop H src neg (stop - pos).toNat pos acc

def jsonParseNumber (frames : Nat) (src : Bytes) (pos len : Int) : Run (Reply (VmValue × Int)) :=
  H.enter frames fun frames => do
    H.requires "json-parse-number" "(>= pos 0)" (0 ≤ pos)
    let stop ← jsonParseNumberEnd H frames src pos len
    if stop = pos then return .error "json-parse: invalid number"
    let numStr := bytesToString src pos (stop - pos)
    if ← jsonHasDot H frames src pos stop then
      match H.stringToFloat numStr with
      | some v => return .ok (.float v, stop)
      | none => return .error "json-parse: invalid number"
    else
      let neg := (← byteAt src pos) == 45
      let start := if neg then pos + 1 else pos
      if start = stop then return .error "json-parse: invalid number"
      match ← jsonParseInt H frames src start stop 0 neg with
      | .ok v => return .ok (.int v, stop)
      | .error e => return .error e

/-- `json-parse-object-loop` with the frame it keeps; `parseValue` is `json-parse-value`. -/
def jsonParseObjectLoopIn (frames : Nat) (parseValue : Int → Run (Reply (VmValue × Int)))
    (src : Bytes) (len : Int) :
    Nat → Int → List (String × VmValue) → Run (Reply (List (String × VmValue) × Int))
  | 0, pos, _ => do
    H.requires "json-parse-object-loop" "(>= pos 0)" (0 ≤ pos)
    let _ ← jsonSkipWs H frames src pos len
    return .error "json-parse: unterminated object"
  | left + 1, pos, acc => do
    H.requires "json-parse-object-loop" "(>= pos 0)" (0 ≤ pos)
    let p ← jsonSkipWs H frames src pos len
    if p ≥ len then return .error "json-parse: unterminated object"
    if (← byteAt src p) = 125 then return .ok (acc, p + 1)
    if (← byteAt src p) ≠ 34 then return .error "json-parse: expected string key in object"
    match ← jsonParseString H frames src (p + 1) len with
    | .error e => return .error e
    | .ok (key, keyEnd) =>
      let p2 ← jsonSkipWs H frames src keyEnd len
      if p2 ≥ len then return .error "json-parse: unterminated object"
      if (← byteAt src p2) ≠ 58 then return .error "json-parse: expected ':' in object"
      let p3 := p2 + 1
      match ← parseValue p3 with
      | .error e => return .error e
      | .ok (val, valEnd) =>
        let p4 ← jsonSkipWs H frames src valEnd len
        if p4 ≥ len then return .error "json-parse: unterminated object"
        let nextPos := if (← byteAt src p4) = 44 then p4 + 1 else p4
        jsonParseObjectLoopIn frames parseValue src len left nextPos (mapSet acc key val)

mutual

def jsonParseArrayLoop (src : Bytes) (len : Int) : Nat → Int → Run (Reply (List VmValue × Int))
  | 0, _ => H.overflow
  | frames + 1, pos => do
    H.requires "json-parse-array-loop" "(>= pos 0)" (0 ≤ pos)
    let p ← jsonSkipWs H frames src pos len
    if p ≥ len then return .error "json-parse: unterminated array"
    if (← byteAt src p) = 93 then return .ok ([], p + 1)
    match ← jsonParseValue src len frames p with
    | .error e => return .error e
    | .ok (val, valEnd) =>
      let p2 ← jsonSkipWs H frames src valEnd len
      if p2 ≥ len then return .error "json-parse: unterminated array"
      let nextPos := if (← byteAt src p2) = 44 then p2 + 1 else p2
      match ← jsonParseArrayLoop src len frames nextPos with
      | .ok rest => return .ok (val :: rest.1, rest.2)
      | .error e => return .error e

def jsonParseObjectLoop (src : Bytes) (len : Int) :
    Nat → Int → List (String × VmValue) → Run (Reply (List (String × VmValue) × Int))
  | 0, _, _ => H.overflow
  | frames + 1, pos, acc =>
    jsonParseObjectLoopIn H frames (fun p => jsonParseValue src len frames p) src len
      (len - pos).toNat pos acc

def jsonParseValue (src : Bytes) (len : Int) : Nat → Int → Run (Reply (VmValue × Int))
  | 0, _ => H.overflow
  | frames + 1, pos => do
    H.requires "json-parse-value" "(>= pos 0)" (0 ≤ pos)
    let p ← jsonSkipWs H frames src pos len
    if p ≥ len then return .error "json-parse: unexpected end of input"
    let b ← byteAt src p
    if b = 34 then
      match ← jsonParseString H frames src (p + 1) len with
      | .ok (s, q) => return .ok (.str s, q)
      | .error e => return .error e
    else if b = 91 then
      match ← jsonParseArrayLoop src len frames (p + 1) with
      | .ok (items, q) => return .ok (.list items, q)
      | .error e => return .error e
    else if b = 123 then
      match ← jsonParseObjectLoop src len frames (p + 1) [] with
      | .ok (m, q) => return .ok (.map m, q)
      | .error e => return .error e
    else if b = 116 then
      if ← bytesMatch3 H frames src (p + 1) len 114 117 101 then return .ok (.bool true, p + 4)
      else return .error "json-parse: expected 'true'"
    else if b = 102 then
      if ← bytesMatch4 H frames src (p + 1) len 97 108 115 101 then
        return .ok (.bool false, p + 5)
      else return .error "json-parse: expected 'false'"
    else if b = 110 then
      if ← bytesMatch3 H frames src (p + 1) len 117 108 108 then return .ok (.nil, p + 4)
      else return .error "json-parse: expected 'null'"
    else jsonParseNumber H frames src p len

end

/-- `json-parse`, called with `frames` frames left. -/
def jsonParse (frames : Nat) (s : String) : Run (Reply VmValue) :=
  H.enter frames fun frames => do
    let src := bytesFromString s
    let len : Int := src.length
    if len = 0 then return .error "json-parse: empty input"
    match ← jsonParseValue H src len frames 0 with
    | .ok (v, endPos) =>
      let trailingPos ← jsonSkipWs H frames src endPos len
      if trailingPos = len then return .ok v
      else return .error "json-parse: unexpected trailing content after value"
    | .error e => return .error e

end Airl.Json
