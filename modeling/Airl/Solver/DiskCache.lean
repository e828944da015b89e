import Airl.Library.Text

/-! # The disk cache of proofs

`airl-solver/src/cache.rs`. A Rust string is its list of characters, a file its
list of bytes. An index outside a text or inside a character is a panic; the
depth of brackets is counted without a bound.
-/

namespace Airl.Solver

/-- `VerifyResult`. -/
inductive VerifyResult where
  | proven
  | disproven (counterexample : List (List Char × List Char))
  | unknown (reason : List Char)
  | translationError (message : List Char)
  deriving Repr, DecidableEq

/-- `FunctionVerification`. -/
structure FunctionVerification where
  functionName : List Char
  ensuresResults : List (List Char × VerifyResult)
  invariantsResults : List (List Char × VerifyResult)
  deriving Repr, DecidableEq

def VerifyResult.isDisproven : VerifyResult → Bool
  | .disproven _ => true
  | _ => false

/-- `has_disproven`. -/
def FunctionVerification.hasDisproven (v : FunctionVerification) : Bool :=
  v.ensuresResults.any (fun r => r.2.isDisproven) ||
    v.invariantsResults.any fun r => r.2.isDisproven

/-- `CacheEntry`: clause texts with the tags of their results. -/
structure CacheEntry where
  functionName : List Char
  ensuresResults : List (List Char × List Char)
  invariantsResults : List (List Char × List Char)
  deriving Repr, DecidableEq

/-- `DiskCache`: the entries of the hash map in the order in which it iterates over them. -/
structure DiskCache where
  entries : List (UInt64 × CacheEntry)
  dirty : Bool
  distinct : (entries.map Prod.fst).Nodup

/-- A slice with a bad index. -/
inductive Panic where
  | slice
  deriving Repr, DecidableEq

namespace DiskCache

def new : DiskCache := ⟨[], false, List.nodup_nil⟩

/-- The map after `entries.insert(key, entry)`. -/
def put (cache : DiskCache) (key : UInt64) (entry : CacheEntry) : DiskCache where
  entries := (key, entry) :: cache.entries.filter fun e => e.1 != key
  dirty := cache.dirty
  distinct := by
    rw [List.map_cons, List.nodup_cons]
    refine ⟨by simp, ?_⟩
    exact cache.distinct.sublist (List.filter_sublist.map _)

/-- `entries.get(&key)`. -/
def entryAt (cache : DiskCache) (key : UInt64) : Option CacheEntry :=
  (cache.entries.find? fun e => e.1 == key).map Prod.snd

/-- `extract_u64`. -/
def extractU64 (s pat : List Char) : Option UInt64 := do
  let rest ← Text.after pat s
  let (digits, _) ← Text.cut (fun c => !c.isDigit) rest
  if digits = [] then none
  else
    let n := Nat.ofDigitChars 10 digits 0
    if n < 18446744073709551616 then some (UInt64.ofNat n) else none

/-- `extract_string`. -/
def extractString (s pat : List Char) : Option (List Char) := do
  let rest ← Text.after pat s
  let (text, _) ← Text.cut (· == '"') rest
  some text

/-- How many characters stand before the bracket that closes `depth` open ones. -/
def closing : Nat → List Char → Option Nat
  | _, [] => none
  | depth, c :: cs =>
    if c = '[' then (closing (depth + 1) cs).map (· + 1)
    else if c = ']' then
      if depth = 1 then some 0 else (closing (depth - 1) cs).map (· + 1)
    else (closing depth cs).map (· + 1)

/-- `part.trim().trim_matches('"')`. -/
def unquote (part : List Char) : List Char := Text.trimMatches (· == '"') (Text.trim part)

/-- One pair `"clause","tag"`; without a comma it is no pair. -/
def pairOf (pair : List Char) : Option (List Char × List Char) :=
  (Text.cut (· == ',') pair).map fun parts => (unquote parts.1, unquote parts.2)

/-- The loop of `extract_clause_results` over the pairs in brackets. -/
def pairLoop (inner : List Char) : List (List Char × List Char) :=
  match _hopen : Text.cut (· == '[') inner with
  | none => []
  | some (_, opened) =>
    match _hclose : Text.cut (· == ']') opened with
    | none => []
    | some (pair, rest) => (pairOf pair).toList ++ pairLoop rest
termination_by inner.length
decreasing_by
  obtain ⟨c, rfl, -, -⟩ := Text.eq_of_cut _hopen
  obtain ⟨d, rfl, -, -⟩ := Text.eq_of_cut _hclose
  simp only [List.length_append, List.length_cons]
  omega

/-- The list behind its opening bracket. The closing bracket is found by characters and the
slice is cut by bytes; without a closing bracket the slice ends before it begins. -/
def listResults (opened : List Char) : Except Panic (List (List Char × List Char)) :=
  match closing 1 opened with
  | none => .error .slice
  | some count =>
    match Text.takeBytes count opened with
    | none => .error .slice
    | some inner => .ok (if Text.trim inner = [] then [] else pairLoop inner)

/-- `extract_clause_results`. -/
def extractClauseResults (s pat : List Char) :
    Except Panic (Option (List (List Char × List Char))) :=
  match Text.after pat s with
  | none => .ok none
  | some rest =>
    match Text.cut (· == '[') rest with
    | none => .ok none
    | some (_, opened) => (listResults opened).map some

/-- `parse_line`. -/
def parseLine (line : List Char) : Except Panic (Option (UInt64 × CacheEntry)) :=
  match extractU64 line "\"key\":".toList with
  | none => .ok none
  | some key =>
    match extractString line "\"fn\":\"".toList with
    | none => .ok none
    | some fnName => do
        match ← extractClauseResults line "\"ensures\":".toList with
        | none => .ok none
        | some ensures =>
          match ← extractClauseResults line "\"invariants\":".toList with
          | none => .ok none
          | some invariants => .ok (some (key, ⟨fnName, ensures, invariants⟩))

/-- One line of the file; a line that is no text is passed over. -/
def loadLine (cache : DiskCache) (line : List UInt8) : Except Panic DiskCache :=
  match Utf8.decode line with
  | none => .ok cache
  | some text => do
      match ← parseLine text with
      | none => .ok cache
      | some (key, entry) => .ok (cache.put key entry)

/-- `load`, from the file's content if the file can be opened. -/
def load (file : Option (List UInt8)) : Except Panic DiskCache :=
  match file with
  | none => .ok new
  | some content => (Text.lines content).foldlM loadLine new

/-- `parse_result_tag`. -/
def parseResultTag (tag : List Char) : VerifyResult :=
  if tag = "Proven".toList then .proven
  else if tag = "Unknown".toList then .unknown "cached".toList
  else if tag = "TranslationError".toList then .translationError "cached".toList
  else .unknown ("unknown cache tag: ".toList ++ tag)

/-- `get`. -/
def get (cache : DiskCache) (key : UInt64) : Option FunctionVerification :=
  (cache.entryAt key).map fun entry =>
    { functionName := entry.functionName
      ensuresResults := entry.ensuresResults.map fun r => (r.1, parseResultTag r.2)
      invariantsResults := entry.invariantsResults.map fun r => (r.1, parseResultTag r.2) }

/-- `result_tag`. -/
def resultTag : VerifyResult → List Char
  | .proven => "Proven".toList
  | .disproven _ => "Disproven".toList
  | .unknown _ => "Unknown".toList
  | .translationError _ => "TranslationError".toList

/-- The clauses of a list that are stored, with their tags. -/
def stored (results : List (List Char × VerifyResult)) : List (List Char × List Char) :=
  (results.filter fun r => !r.2.isDisproven).map fun r => (r.1, resultTag r.2)

/-- The entry that `insert` makes. -/
def entryOf (v : FunctionVerification) : CacheEntry :=
  ⟨v.functionName, stored v.ensuresResults, stored v.invariantsResults⟩

/-- `insert`. -/
def insert (cache : DiskCache) (key : UInt64) (v : FunctionVerification) : DiskCache :=
  if v.hasDisproven then cache else { cache.put key (entryOf v) with dirty := true }

/-- `text.replace('"', "\\\"")`. -/
def escapeQuotes (text : List Char) : List Char :=
  text.flatMap fun c => if c = '"' then ['\\', '"'] else [c]

/-- One pair as `clauses_to_json` writes it. -/
def pairToJson (r : List Char × List Char) : List Char :=
  "[\"".toList ++ escapeQuotes r.1 ++ "\",\"".toList ++ escapeQuotes r.2 ++ "\"]".toList

/-- `clauses_to_json`. -/
def clausesToJson (clauses : List (List Char × List Char)) : List Char :=
  if clauses = [] then "[]".toList
  else "[".toList ++ ",".toList.intercalate (clauses.map pairToJson) ++ "]".toList

/-- The line of an entry. -/
def renderLine (e : UInt64 × CacheEntry) : List Char :=
  "\x7b\"key\":".toList ++ Nat.toDigits 10 e.1.toNat ++ ",\"fn\":\"".toList ++ e.2.functionName ++
    "\",\"ensures\":".toList ++ clausesToJson e.2.ensuresResults ++
    ",\"invariants\":".toList ++ clausesToJson e.2.invariantsResults ++ "\x7d".toList

/-- What the file holds after `write`, for an order of iteration over the map. -/
def write (cache : DiskCache) (order : List (UInt64 × CacheEntry)) (file : Option (List UInt8)) :
    Option (List UInt8) :=
  if cache.dirty then some (order.flatMap fun e => Utf8.encode (renderLine e ++ ['\n'])) else file

end DiskCache

end Airl.Solver
