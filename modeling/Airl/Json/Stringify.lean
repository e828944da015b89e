import Airl.Json.Host
import Airl.Json.Positions
import Airl.Library.Returns

/-! # The JSON serializer

The functions of `json.airl` from `json-escape-loop` to `json-stringify`, each
with the frames its calls take and the clauses that can fail. A clause
`(valid x)` has a check where `x` may be nil; a text, a list or a buffer never is.
What `json-escape` makes of the bytes of a string are the escapes of its characters.
-/

namespace Airl.Json

section Serializing

variable (H : Host)

/-- The chunk that stands for byte `b` in a JSON string. -/
def escapeChunk (b : UInt8) : Bytes :=
  if b = 34 then bytesFromString "\\\""
  else if b = 92 then bytesFromString "\\\\"
  else if b = 10 then bytesFromString "\\n"
  else if b = 13 then bytesFromString "\\r"
  else if b = 9 then bytesFromString "\\t"
  else if b = 8 then bytesFromString "\\b"
  else if b = 12 then bytesFromString "\\f"
  else bytesFromInt8 (byteToInt b)

def jsonEscapeLoop (src : Bytes) (len : Int) : Nat → Int → Run (List Bytes)
  | 0, _ => H.overflow
  | frames + 1, i => do
    H.requires "json-escape-loop" "(>= i 0)" (0 ≤ i)
    if i = len then return []
    let b ← byteAt src i
    let rest ← jsonEscapeLoop src len frames (i + 1)
    concat H frames [escapeChunk b] rest

def jsonEscape (frames : Nat) (s : String) : Run String :=
  H.enter frames fun frames => do
    let src := bytesFromString s
    let len : Int := src.length
    let parts ← jsonEscapeLoop H src len frames 0
    let result := parts.flatten
    return bytesToString result 0 result.length

mutual

def jsonStringifyListLoop : Nat → List VmValue → Bool → Run String
  | 0, _, _ => H.overflow
  | _ + 1, [], _ => return ""
  | frames + 1, x :: xs, first => do
    let comma := if first then "" else ","
    let val ← jsonStringify frames x
    let rest ← jsonStringifyListLoop frames xs false
    return comma ++ val ++ rest

def jsonStringifyMapLoop : Nat → List (String × VmValue) → Bool → Run String
  | 0, _, _ => H.overflow
  | _ + 1, [], _ => return ""
  | frames + 1, (k, v) :: entries, first => do
    let key := "\"" ++ (← jsonEscape H frames k) ++ "\""
    let val ← jsonStringify frames v
    let entry := key ++ ":" ++ val
    let comma := if first then "" else ","
    let rest ← jsonStringifyMapLoop frames entries false
    return comma ++ entry ++ rest

/-- `val` is a value as a register holds it (`Value.toRt`). -/
def jsonStringify : Nat → VmValue → Run String
  | 0, _ => H.overflow
  | frames + 1, val => do
    H.requires "json-stringify" "(valid val)" (typeOf val ≠ "nil")
    match val with
    | .nil => return "null"
    | .bool b => return if b then "true" else "false"
    | .int n => return toString n.toInt
    | .float bits => return H.floatToString bits
    | .str s => return "\"" ++ (← jsonEscape H frames s) ++ "\""
    | .list items => return "[" ++ (← jsonStringifyListLoop frames items true) ++ "]"
    | .map m =>
      let entries ← mapEntries H frames m
      return "\x7b" ++ (← jsonStringifyMapLoop frames entries true) ++ "\x7d"
    | val => return "\"<" ++ typeOf val ++ ">\""

end

end Serializing

/-- The characters that stand for `c` in a JSON string. -/
def escapeChar (c : Char) : List Char :=
  if c = '"' then ['\\', '"']
  else if c = '\\' then ['\\', '\\']
  else if c = '\n' then ['\\', 'n']
  else if c = '\r' then ['\\', 'r']
  else if c = '\t' then ['\\', 't']
  else if c = Char.ofNat 8 then ['\\', 'b']
  else if c = Char.ofNat 12 then ['\\', 'f']
  else [c]

def escapeString (s : String) : String := String.ofList (s.toList.flatMap escapeChar)

theorem bytesFromString_append (s t : String) :
    bytesFromString (s ++ t) = bytesFromString s ++ bytesFromString t := by
  simp [bytesFromString, Utf8.encode_append]

theorem bytesFromString_ofList (cs : List Char) :
    bytesFromString (String.ofList cs) = Utf8.encode cs := by
  simp [bytesFromString]

theorem decode_bytesFromString (s : String) :
    String.ofList (Utf8.decodeLossy (bytesFromString s)) = s := by
  rw [bytesFromString, Utf8.decodeLossy_encode, String.ofList_toList]

theorem escapeChunk_plain {b : UInt8} (h : b ∉ [34, 92, 10, 13, 9, 8, 12]) :
    escapeChunk b = [b] := by
  simp only [List.mem_cons, List.not_mem_nil, or_false, not_or] at h
  obtain ⟨h1, h2, h3, h4, h5, h6, h7⟩ := h
  rw [escapeChunk, if_neg h1, if_neg h2, if_neg h3, if_neg h4, if_neg h5, if_neg h6, if_neg h7,
    bytesFromInt8_byteToInt]

theorem escapeChunk_high {b : UInt8} (h : 128 ≤ b.toNat) : escapeChunk b = [b] := by
  apply escapeChunk_plain
  simp only [List.mem_cons, List.not_mem_nil, or_false, not_or]
  refine ⟨?_, ?_, ?_, ?_, ?_, ?_, ?_⟩
  all_goals
    rintro rfl
    exact absurd h (by decide)

theorem flatMap_escapeChunk_high (bs : Bytes) (h : ∀ b ∈ bs, 128 ≤ b.toNat) :
    bs.flatMap escapeChunk = bs := by
  induction bs with
  | nil => rfl
  | cons b bs ih =>
    rw [List.flatMap_cons, escapeChunk_high (h b (by simp)), ih fun c hc => h c (by simp [hc])]
    rfl

theorem escapeChunk_encodeChar (c : Char) :
    (String.utf8EncodeChar c).flatMap escapeChunk = Utf8.encode (escapeChar c) := by
  by_cases hspecial : c ∈ ['"', '\\', '\n', '\r', '\t', Char.ofNat 8, Char.ofNat 12]
  · simp only [List.mem_cons, List.not_mem_nil, or_false] at hspecial
    rcases hspecial with rfl | rfl | rfl | rfl | rfl | rfl | rfl
    all_goals decide
  · have hplain : escapeChar c = [c] := by
      simp only [List.mem_cons, List.not_mem_nil, or_false, not_or] at hspecial
      obtain ⟨h1, h2, h3, h4, h5, h6, h7⟩ := hspecial
      rw [escapeChar, if_neg h1, if_neg h2, if_neg h3, if_neg h4, if_neg h5, if_neg h6, if_neg h7]
    rw [hplain, Utf8.encode_cons, Utf8.encode_nil, List.append_nil]
    by_cases hlow : c.val.toNat ≤ 127
    · rw [Utf8.utf8EncodeChar_low hlow, List.flatMap_cons, List.flatMap_nil, List.append_nil]
      apply escapeChunk_plain
      intro hmem
      apply hspecial
      have hc : c = Char.ofNat (UInt8.ofNat c.val.toNat).toNat := by
        rw [Utf8.toNat_ofNat_lt (by omega)]
        exact (Char.ofNat_toNat c).symm
      simp only [List.mem_cons, List.not_mem_nil, or_false] at hmem ⊢
      rw [hc]
      rcases hmem with h | h | h | h | h | h | h
      all_goals
        rw [h]
        decide
    · exact flatMap_escapeChunk_high _ (Utf8.utf8EncodeChar_high (by omega))

theorem escapeChunk_bytes (s : String) :
    (bytesFromString s).flatMap escapeChunk = bytesFromString (escapeString s) := by
  rw [escapeString, bytesFromString_ofList, bytesFromString]
  induction s.toList with
  | nil => rfl
  | cons c cs ih =>
    rw [Utf8.encode_cons, List.flatMap_append, ih, List.flatMap_cons, Utf8.encode_append,
      escapeChunk_encodeChar]

end Airl.Json
