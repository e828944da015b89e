import Airl.Json.Host
import Airl.Runtime.Display

/-! # The proof cache of the self-hosted compiler

`z3_cache.airl`: verdicts are stored under a hash of the definition, in two maps
that are saved to and loaded from a file of lines `hash|name|verdict`. The
compiler drops the contract clauses of these functions, so none is asserted.
-/

namespace Airl.Solver.Z3Cache

open Airl.Json (mapSet)

/-- The builtins whose code is not in the repository: the digest as a text of
hexadecimal digits, and the text of a float. -/
structure Builtins where
  sha256 : List Char → String
  sha256_hex : ∀ text, ∀ c ∈ (sha256 text).toList, c ∈ "0123456789abcdef".toList
  floatText : UInt64 → List Char

/-- A node of the syntax tree, a variant as the parser builds it. -/
abbrev Node := VmValue

/-- What the cache reads of an `ASTDefn`. -/
structure Defn where
  name : String
  params : List Node
  requires : List Node
  ensures : List Node
  body : Node

/-- What `z3-verify-function` answers. -/
inductive Verdict where
  | proven
  | disproven
  | unknown
  deriving DecidableEq, Repr

def Verdict.text : Verdict → String
  | .proven => "proven"
  | .disproven => "disproven"
  | .unknown => "unknown"

section Hash

variable (B : Builtins)

def str (args : List VmValue) : VmValue := .str (String.ofList (Value.strVariadic B.floatText args))

mutual

/-- `type-of` answers `int` for an integer, so its test for `integer` never holds. -/
def stringifyAst : Node → VmValue
  | .str text => .str text
  | .variant "ASTSymbol" (.list [name, _, _]) => name
  | .variant "ASTInt" (.list [value, _, _]) => value
  | .variant "ASTBool" (.list [value, _, _]) => value
  | .variant "ASTCall" (.list [callee, .list args, _, _]) =>
    str B [.str "(", callee, .str " ", stringifyList args, .str ")"]
  | .variant "ASTIf" (.list [c, t, e, _, _]) =>
    str B [.str "(if ", stringifyAst c, .str " ", stringifyAst t, .str " ", stringifyAst e,
      .str ")"]
  | node => str B [node]

def stringifyList : List Node → VmValue
  | [] => .str ""
  | [node] => stringifyAst node
  | node :: nodes => str B [stringifyAst node, .str " ", stringifyList nodes]

end

def hashParams : List Node → List Char → List Char
  | [], acc => acc
  | .variant "ASTParam" (.list [name, typeName]) :: params, acc =>
    hashParams params (Value.strVariadic B.floatText
      [.str (String.ofList acc), name, .str ":", typeName, .str ";"])
  | _ :: params, acc => hashParams params acc

/-- The body does not go into the hash. -/
def computeHash (d : Defn) : String :=
  B.sha256 (Value.strVariadic B.floatText
    [.str "v2|", .str d.name, .str "|", .str (String.ofList (hashParams B d.params [])), .str "|",
      stringifyList B d.requires, .str "|", stringifyList B d.ensures])

end Hash

/-- The result map and the name map, both by hash. -/
structure Cache where
  results : List (String × String)
  names : List (String × String)

def makeEmpty : Cache := ⟨[], []⟩

def parseLine (line : List Char) (cache : Cache) : Cache :=
  if line.length = 0 then cache
  else
    match line.splitOn '|' with
    | hash :: name :: result :: _ =>
      ⟨mapSet cache.results (String.ofList hash) (String.ofList result),
        mapSet cache.names (String.ofList hash) (String.ofList name)⟩
    | _ => cache

def parseLines : List (List Char) → Cache → Cache
  | [], cache => cache
  | line :: lines, cache => parseLines lines (parseLine line cache)

/-- The file is its text; none where no file exists. -/
def load : Option (List Char) → Cache
  | some content => parseLines (content.splitOn '\n') makeEmpty
  | none => makeEmpty

def lookup (cache : Cache) (hash : String) : Option String := cache.results.lookup hash

def put (cache : Cache) (hash name result : String) : Cache :=
  if result = "disproven" then cache
  else ⟨mapSet cache.results hash result, mapSet cache.names hash name⟩

def buildLine (cache : Cache) (hash : String) : List Char :=
  hash.toList ++ '|' :: ((cache.names.lookup hash).getD "").toList ++
    '|' :: ((cache.results.lookup hash).getD "").toList

def buildLines (cache : Cache) : List String → List Char → List Char
  | [], acc => acc
  | hash :: keys, acc =>
    buildLines cache keys
      (if acc = [] then buildLine cache hash else acc ++ '\n' :: buildLine cache hash)

/-- The file after a save; an empty cache is not written. -/
def save (file : Option (List Char)) (cache : Cache) : Option (List Char) :=
  let keys := cache.results.map Prod.fst
  if keys = [] then file else some (buildLines cache keys [] ++ ['\n'])

/-- What `z3c-verify-with-cache` returns. -/
structure Answer where
  name : String
  verdict : String
  cache : Cache
  hit : Bool

/-- `z3` is what `z3-verify-function` answers if it is called. -/
def verifyWithCache (B : Builtins) (d : Defn) (cache : Cache) (z3 : Verdict) : Answer :=
  let hash := computeHash B d
  match lookup cache hash with
  | none => ⟨d.name, z3.text, put cache hash d.name z3.text, false⟩
  | some cached => ⟨d.name, cached, cache, true⟩

end Airl.Solver.Z3Cache
