import Airl.Library.Text
import Mathlib.Data.Char
import Mathlib.Data.List.Lex
import Mathlib.Data.String.Defs

/-! # The baseline file

`verify_policy.rs`: the modules and functions that may stay below `:verify proven` are kept in a
file, one text in quotes for each, that is written sorted and read back line by line.
-/

namespace Airl.Policy

/-- A whole file, or a module or function of it. -/
structure BaselineKey where
  path : List Char
  name : Option (List Char)
  deriving DecidableEq, Repr

namespace BaselineKey

/-- `to_string`. -/
def text (key : BaselineKey) : List Char :=
  match key.name with
  | some n => key.path ++ '#' :: n
  | none => key.path

def parse (s : List Char) : BaselineKey :=
  match Text.cut (· == '#') s with
  | some (path, name) => ⟨path, some name⟩
  | none => ⟨s, none⟩

/-- The derived order: by the path, then by the name, where no name comes first. -/
def le (a b : BaselineKey) : Bool :=
  if a.path = b.path then
    match a.name, b.name with
    | none, _ => true
    | some _, none => false
    | some m, some n => decide (m ≤ n)
  else decide (a.path ≤ b.path)

end BaselineKey

structure Baseline where
  version : UInt32
  grandfatheredChecked : List BaselineKey
  grandfatheredTrusted : List BaselineKey
  deriving DecidableEq, Repr

/-- `BASELINE_VERSION`. -/
def baselineVersion : UInt32 := 1

def Baseline.new : Baseline := ⟨baselineVersion, [], []⟩

/-- What stands before the first number sign outside quotation marks. -/
def stripComment (inString : Bool) : List Char → List Char
  | [] => []
  | c :: cs =>
    if c = '"' then c :: stripComment (!inString) cs
    else if c = '#' ∧ inString = false then []
    else c :: stripComment inString cs

/-- A line as it is read. -/
def content (line : List Char) : List Char := Text.trim (stripComment false line)

/-- The lines up to the one with the closing bracket are joined. -/
def gather (buf : List Char) : (lines : List (List Char)) →
    List Char × {rest : List (List Char) // rest.length ≤ lines.length}
  | [] => (buf, ⟨[], Nat.le_refl 0⟩)
  | next :: lines =>
    let buf := buf ++ ' ' :: content next
    if ']' ∈ buf then (buf, ⟨lines, Nat.le_succ _⟩)
    else
      match gather buf lines with
      | (buf, ⟨rest, h⟩) => (buf, ⟨rest, Nat.le_succ_of_le h⟩)

/-- The text of an array without its brackets. -/
def unbracket (buf : List Char) : Except String (List Char) :=
  match ['['].isPrefixOf? (Text.trim buf) with
  | none => .error "expected `[` starting array"
  | some opened =>
    match [']'].isSuffixOf? (opened.rdropWhile Text.isWhitespace) with
    | none => .error "expected `]` ending array"
    | some inner => .ok (Text.trim inner)

/-- The text of an element without its quotation marks. -/
def unquote (p : List Char) : Except String (List Char) :=
  match (['"'].isPrefixOf? p).bind (['"'].isSuffixOf? ·) with
  | some s => .ok s
  | none => .error ("array element not quoted: " ++ String.ofList p)

/-- The elements of an array, without those that are blank. -/
def elements (inner : List Char) : Except String (List (List Char)) :=
  if inner = [] then .ok []
  else (((inner.splitOn ',').map Text.trim).filter (· ≠ [])).mapM unquote

def parseArray (afterName : List Char) (lines : List (List Char)) :
    Except String (List (List Char) × {rest : List (List Char) // rest.length ≤ lines.length}) :=
  match ['='].isPrefixOf? (afterName.dropWhile Text.isWhitespace) with
  | none => .error "expected `=` after array name"
  | some rest =>
    let buf := rest.dropWhile Text.isWhitespace
    let (buf, lines) := if ']' ∈ buf then (buf, ⟨lines, Nat.le_refl _⟩) else gather buf lines
    match unbracket buf with
    | .error e => .error e
    | .ok inner => (elements inner).map (·, lines)

/-- `parse::<u32>`. -/
def parseU32 (s : List Char) : Option UInt32 :=
  let digits := if s.head? = some '+' then s.tail else s
  if digits = [] ∨ digits.any (fun c => !c.isDigit) then none
  else
    let n := Nat.ofDigitChars 10 digits 0
    if n < 4294967296 then some (UInt32.ofNat n) else none

def parseVersion (rest : List Char) : Except String UInt32 :=
  match ['='].isPrefixOf? (rest.dropWhile Text.isWhitespace) with
  | none => .error "expected `=` after version"
  | some rest =>
    match parseU32 (Text.trim rest) with
    | some n => .ok n
    | none => .error ("invalid version: " ++ String.ofList (Text.trim rest))

/-- What has been read so far. -/
structure Reading where
  version : Option UInt32
  checked : List BaselineKey
  trusted : List BaselineKey

/-- The loop over the lines. -/
def readLines (st : Reading) (lines : List (List Char)) : Except String Reading :=
  match lines with
  | [] => .ok st
  | raw :: lines =>
    let line := content raw
    if line = [] then readLines st lines
    else
      match "version".toList.isPrefixOf? line with
      | some rest =>
        match parseVersion rest with
        | .error e => .error e
        | .ok n => readLines { st with version := some n } lines
      | none =>
        match "grandfathered_checked".toList.isPrefixOf? line with
        | some rest =>
          match parseArray rest lines with
          | .error e => .error e
          | .ok (entries, ⟨rest, _⟩) =>
            readLines { st with checked := entries.map BaselineKey.parse } rest
        | none =>
          match "grandfathered_trusted".toList.isPrefixOf? line with
          | some rest =>
            match parseArray rest lines with
            | .error e => .error e
            | .ok (entries, ⟨rest, _⟩) =>
              readLines { st with trusted := entries.map BaselineKey.parse } rest
          | none => .error ("unexpected line: " ++ String.ofList line)
termination_by lines.length
decreasing_by
  · exact Nat.lt_succ_self _
  · exact Nat.lt_succ_self _
  · exact Nat.lt_succ_of_le ‹_›
  · exact Nat.lt_succ_of_le ‹_›

/-- `Baseline::parse`. -/
def parse (src : List Char) : Except String Baseline :=
  match readLines ⟨none, [], []⟩ (Text.textLines src) with
  | .error e => .error e
  | .ok st =>
    match st.version with
    | none => .error "baseline missing `version` field"
    | some version => .ok ⟨version, st.checked, st.trusted⟩

/-- `Vec::dedup`. -/
def dedup : List BaselineKey → List BaselineKey
  | a :: b :: keys => if a = b then dedup (b :: keys) else a :: dedup (b :: keys)
  | keys => keys

/-- The keys in the order in which they are written. -/
def sorted (keys : List BaselineKey) : List BaselineKey := dedup (keys.mergeSort BaselineKey.le)

def entryLine (key : BaselineKey) : List Char := "  \"".toList ++ key.text ++ "\",".toList

/-- The lines of a baseline. -/
def rendered (b : Baseline) : List (List Char) :=
  ["# Managed by `airl verify-policy`. Hand-edits are allowed; CI validates".toList,
    "# consistency on every run. Remove an entry to ratchet — requires upgrading".toList,
    "# the module's :verify to proven and adding :ensures to every :pub defn.".toList,
    "version = ".toList ++ Nat.toDigits 10 b.version.toNat,
    [],
    "grandfathered_checked = [".toList] ++ (sorted b.grandfatheredChecked).map entryLine ++
  ["]".toList,
    [],
    "grandfathered_trusted = [".toList] ++ (sorted b.grandfatheredTrusted).map entryLine ++
  ["]".toList]

/-- `Baseline::render`. -/
def render (b : Baseline) : List Char := (rendered b).flatMap fun line => line ++ ['\n']

end Airl.Policy
