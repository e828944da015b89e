import Airl.Json.Host
import Airl.Stdlib.Prelude
import Airl.Stdlib.Maps

/-! # Strings in the standard library

The functions of `string.airl`, which work on the bytes of a text, and those of `string.rs` that
work on its characters.
-/

namespace Airl.Stdlib

open Airl.Json (Bytes Host byteAt byteToInt bytesFromString bytesToString bytesFromInt8)

def airlCharCount (s : String) : Int := s.toList.length

def airlCharAt (s : String) (index : Int) : Run String :=
  if index < 0 then .error .exit
  else match s.toList[index.toNat]? with
    | some c => .ok (String.ofList [c])
    | none => .error .exit

def airlSubstring (s : String) (start stop : Int) : Run String :=
  if start < 0 then .error .exit
  else if stop < 0 then .error .exit
  else if stop < start then .error .exit
  else .ok (String.ofList ((s.toList.drop start.toNat).take (stop - start).toNat))

/-- `str::split` by a pattern that is not empty: the pieces between its occurrences. -/
def splitPieces (pat : List Char) : List Char → List (List Char)
  | [] => [[]]
  | c :: cs =>
    if pat ≠ [] ∧ pat <+: c :: cs then [] :: splitPieces pat ((c :: cs).drop pat.length)
    else (splitPieces pat cs).modifyHead (c :: ·)
termination_by cs => cs.length
decreasing_by
  · have := List.length_pos_iff.mpr (by assumption : _ ∧ _).1
    simp only [List.length_drop, List.length_cons]
    omega
  · simp

/-- The empty pattern occurs at both ends and between the characters. -/
def airlSplit (s delim : String) : List String :=
  if delim = "" then [""] ++ s.toList.map (fun c => String.ofList [c]) ++ [""]
  else (splitPieces delim.toList s.toList).map String.ofList

def airlJoin : List String → String → String
  | [], _ => ""
  | item :: items, sep => items.foldl (fun result item => result ++ sep ++ item) item

def bytesConcatAll (parts : List Bytes) : Bytes := parts.flatten

def wordsCollectLoop : List String → Nat → Nat → List String → Run (List String) :=
  indexLoop fun acc tok => return if tok = "" then acc else concat acc [tok]

/-- `i` runs up to `nlen`. -/
def bytesMatchAt (haystack needle : Bytes) (offset nlen i : Nat) : Run Bool :=
  if nlen ≤ i then return true
  else do
    if (← byteAt haystack (offset + i)) = (← byteAt needle i) then
      bytesMatchAt haystack needle offset nlen (i + 1)
    else return false
termination_by nlen - i

def startsWith (s pre : String) : Run Bool :=
  let sb := bytesFromString s
  let pb := bytesFromString pre
  if pb.length > sb.length then return false
  else bytesMatchAt sb pb 0 pb.length 0

def endsWith (s suffix : String) : Run Bool :=
  let sb := bytesFromString s
  let xb := bytesFromString suffix
  if xb.length > sb.length then return false
  else bytesMatchAt sb xb (sb.length - xb.length) xb.length 0

def bytesScan (haystack needle : Bytes) (hlen nlen pos limit : Nat) : Run Int :=
  if pos > limit then return -1
  else do
    if ← bytesMatchAt haystack needle pos nlen 0 then return pos
    else bytesScan haystack needle hlen nlen (pos + 1) limit
termination_by limit + 1 - pos

def indexOf (s sub : String) : Run Int :=
  let sb := bytesFromString s
  let nb := bytesFromString sub
  if nb.length = 0 then return 0
  else if nb.length > sb.length then return -1
  else bytesScan sb nb sb.length nb.length 0 (sb.length - nb.length)

def contains (s sub : String) : Run Bool := return !((← indexOf s sub) == -1)

def toLowerByte (b : Int64) : Int64 := if b ≥ 65 ∧ b ≤ 90 then b + 32 else b

def toUpperByte (b : Int64) : Int64 := if b ≥ 97 ∧ b ≤ 122 then b - 32 else b

section Case

variable (H : Host)

/-- `lower-bytes-loop` and `upper-bytes-loop`: `cons` waits for the rest, so every byte keeps a
frame. -/
def bytesLoop (f : Int64 → Int64) : Nat → Bytes → Nat → Nat → Run (List Bytes)
  | 0, _, _, _ => H.overflow
  | frames + 1, src, i, len => do
    if i = len then return []
    else
      let b ← byteAt src i
      let byte ← H.enter frames fun _ => return f (byteToInt b)
      return bytesFromInt8 byte :: (← bytesLoop f frames src (i + 1) len)

def lowerBytesLoop : Nat → Bytes → Nat → Nat → Run (List Bytes) := bytesLoop H toLowerByte

def upperBytesLoop : Nat → Bytes → Nat → Nat → Run (List Bytes) := bytesLoop H toUpperByte

def toLower (frames : Nat) (s : String) : Run String :=
  H.enter frames fun frames => do
    let sb := bytesFromString s
    let parts ← lowerBytesLoop H frames sb 0 sb.length
    return bytesToString (bytesConcatAll parts) 0 sb.length

def toUpper (frames : Nat) (s : String) : Run String :=
  H.enter frames fun frames => do
    let sb := bytesFromString s
    let parts ← upperBytesLoop H frames sb 0 sb.length
    return bytesToString (bytesConcatAll parts) 0 sb.length

end Case

def isWhitespaceByte (b : UInt8) : Bool := b == 32 || (b == 9 || (b == 10 || b == 13))

def trimLeftPos (buf : Bytes) (i len : Nat) : Run Nat :=
  if len ≤ i then return i
  else do
    if isWhitespaceByte (← byteAt buf i) then trimLeftPos buf (i + 1) len else return i
termination_by len - i

def trimRightPos (buf : Bytes) : Nat → Run Nat
  | 0 => return 0
  | i + 1 => do
    if isWhitespaceByte (← byteAt buf i) then trimRightPos buf i else return i + 1

def trim (s : String) : Run String := do
  let sb := bytesFromString s
  let left ← trimLeftPos sb 0 sb.length
  let right ← trimRightPos sb sb.length
  return if left ≥ right then "" else bytesToString sb left (right - left)

def words (s : String) : Run (List String) := do
  let parts := airlSplit (← trim s) " "
  wordsCollectLoop parts 0 parts.length []

def unwords (ws : List String) : String := airlJoin ws " "

def lines (s : String) : List String := airlSplit s "\n"

def unlines (ls : List String) : String := airlJoin ls "\n"

def repeatStr (s : String) (n : Nat) : String :=
  if n = 0 then ""
  else if n = 1 then s
  else
    let half := repeatStr s (n / 2)
    if n % 2 = 0 then half ++ half else half ++ (half ++ s)
termination_by n

def padLeft (s : String) (width : Int) (ch : String) : String :=
  let slen := airlCharCount s
  if slen ≥ width then s else repeatStr ch (width - slen).toNat ++ s

def padRight (s : String) (width : Int) (ch : String) : String :=
  let slen := airlCharCount s
  if slen ≥ width then s else s ++ repeatStr ch (width - slen).toNat

end Airl.Stdlib
