import Airl.Syntax.SExpr

/-! # Messages between agents

`protocol.rs`: a task and its result are written as S-expressions and read with
the language's own lexer and parser.
-/

namespace Airl.Agent

open Airl.Syntax

/-- The values a message can carry. A variant without an argument holds the unit in the
source; an integer list is printed as, and equal to, the list of its integers. -/
inductive Datum where
  | nil
  | bool (b : Bool)
  | int (n : Int64)
  | float (bits : UInt64)
  | str (s : List Char)
  | list (items : List Datum)
  | variant (tag : List Char) (inner : Datum)
  | constant (tag : List Char)
  deriving Repr, Inhabited

/-- Formatting and parsing of floats, by their bit patterns. -/
structure FloatFormat where
  text : UInt64 → List Char
  parse : ParseFloat

def exponentBits (bits : UInt64) : Nat := bits.toNat / 4503599627370496 % 2048

def fractionBits (bits : UInt64) : Nat := bits.toNat % 4503599627370496

def isFinite (bits : UInt64) : Bool := exponentBits bits ≠ 2047

/-- `n.fract() == 0.0` for a finite float. -/
def isWhole (bits : UInt64) : Bool :=
  let e := exponentBits bits
  if e < 1023 then e = 0 ∧ fractionBits bits = 0
  else 1075 ≤ e ∨ fractionBits bits % Nat.pow 2 (1075 - e) = 0

structure TaskMessage where
  id : List Char
  /-- The field `from`. -/
  sender : List Char
  call : List Char
  args : List Datum

structure ResultMessage where
  id : List Char
  success : Bool
  payload : Option Datum
  error : Option (List Char)

def replaceChar (c : Char) (text s : List Char) : List Char :=
  s.flatMap fun d => if d = c then text else [d]

def escapeStr (s : List Char) : List Char :=
  replaceChar '"' ['\\', '"'] (replaceChar '\\' ['\\', '\\'] s)

def intText (n : Int64) : List Char := (toString n.toInt).toList

section Write

variable (F : FloatFormat)

mutual

/-- `impl Display for Value`. -/
def display : Datum → List Char
  | .nil => "nil".toList
  | .bool b => if b then "true".toList else "false".toList
  | .int n => intText n
  | .float bits =>
    if isWhole bits && isFinite bits then F.text bits ++ ['.', '0'] else F.text bits
  | .str s => '"' :: s ++ ['"']
  | .list items => '[' :: displayItems items ++ [']']
  | .variant tag inner => '(' :: tag ++ ' ' :: display inner ++ [')']
  | .constant tag => '(' :: tag ++ [')']

def displayItems : List Datum → List Char
  | [] => []
  | [v] => display v
  | v :: vs => display v ++ ' ' :: displayItems vs

end

/-- Only a text that stands by itself is escaped. -/
def valueToWire : Datum → List Char
  | .str s => '"' :: escapeStr s ++ ['"']
  | other => display F other

def serializeTask (msg : TaskMessage) : List Char :=
  "(task \"".toList ++ escapeStr msg.id ++ "\" :from \"".toList ++ escapeStr msg.sender ++
    "\" :call \"".toList ++ escapeStr msg.call ++ "\" :args [".toList ++
    [' '].intercalate (msg.args.map (valueToWire F)) ++ "])".toList

def serializeResult (msg : ResultMessage) : List Char :=
  if msg.success then
    "(result \"".toList ++ escapeStr msg.id ++ "\" :status :complete :payload ".toList ++
      (match msg.payload with
        | some v => valueToWire F v
        | none => "nil".toList) ++ [')']
  else
    "(result \"".toList ++ escapeStr msg.id ++ "\" :status :error :message \"".toList ++
      escapeStr (msg.error.getD "unknown error".toList) ++ "\")".toList

end Write

def atomValue : AtomKind → Datum
  | .integer n => .int n
  | .float bits => .float bits
  | .str s => .str s
  | .bool b => .bool b
  | .nil => .nil
  | .symbol s => .str s
  | .keyword k => .str (':' :: k)
  | .arrow => .str "->".toList
  | .version a b c => .str (toString a ++ "." ++ toString b ++ "." ++ toString c).toList

/-- The lexer makes symbols of ASCII characters only. -/
def startsUppercase (name : List Char) : Bool := name.head?.any Char.isUpper

mutual

/-- Every branch of the source answers `Ok`. -/
def sexprToValue : SExpr → Datum
  | .atom kind => atomValue kind
  | .list [.atom (.symbol name), inner] =>
    if startsUppercase name then .variant name (sexprToValue inner)
    else .list [.str name, sexprToValue inner]
  | .list items => .list (sexprsToValues items)
  | .bracketList items => .list (sexprsToValues items)

def sexprsToValues : List SExpr → List Datum
  | [] => []
  | e :: es => sexprToValue e :: sexprsToValues es

end

def lexAndParse (parse : ParseFloat) (input : List Char) : Except String (List SExpr) := do
  let tokens ← Lexer.lexAll parse 0 input
  parseSexprAll tokens

/-- The fields of a task; keywords it does not know are skipped. -/
def taskFields (msg : TaskMessage) (items : List SExpr) : Except String TaskMessage :=
  match items with
  | [] => .ok msg
  | item :: items =>
    if item.asKeyword = some "from".toList then
      match items with
      | .atom (.str s) :: rest => taskFields { msg with sender := s } rest
      | _ :: _ => .error "expected string value after :from"
      | [] => .error "missing value after :from"
    else if item.asKeyword = some "call".toList then
      match items with
      | .atom (.str s) :: rest => taskFields { msg with call := s } rest
      | _ :: _ => .error "expected string value after :call"
      | [] => .error "missing value after :call"
    else if item.asKeyword = some "args".toList then
      match items with
      | .bracketList values :: rest =>
        taskFields { msg with args := msg.args ++ sexprsToValues values } rest
      | _ :: _ => .error "expected bracket list after :args"
      | [] => .error "missing value after :args"
    else taskFields msg items

def taskOfList (list : List SExpr) : Except String TaskMessage := do
  if list.head?.bind SExpr.asSymbol ≠ some "task".toList then
    throw "expected (task ...) form"
  match list.tail with
  | .atom (.str id) :: items =>
    let msg ← taskFields ⟨id, [], [], []⟩ items
    if msg.call = [] then throw "task missing required :call field"
    if msg.sender = [] then throw "task missing required :from field"
    return msg
  | .atom _ :: _ => throw "expected string task ID"
  | _ => throw "expected task ID"

def parseTask (parse : ParseFloat) (input : List Char) : Except String TaskMessage := do
  match ← lexAndParse parse input with
  | .list items :: _ => taskOfList items
  | _ :: _ => throw "expected list"
  | [] => throw "empty input"

def resultFields (msg : ResultMessage) (items : List SExpr) : Except String ResultMessage :=
  match items with
  | [] => .ok msg
  | item :: items =>
    if item.asKeyword = some "status".toList then
      match items with
      | [] => .error "expected keyword value after :status"
      | status :: rest =>
        match status.asKeyword with
        | some s => resultFields { msg with success := s = "complete".toList } rest
        | none => .error "expected keyword value after :status"
    else if item.asKeyword = some "payload".toList then
      match items with
      | expr :: rest => resultFields { msg with payload := some (sexprToValue expr) } rest
      | [] => .error "missing value after :payload"
    else if item.asKeyword = some "message".toList then
      match items with
      | .atom (.str s) :: rest => resultFields { msg with error := some s } rest
      | _ :: _ => .error "expected string value after :message"
      | [] => .error "missing value after :message"
    else resultFields msg items

def resultOfList (list : List SExpr) : Except String ResultMessage := do
  if list.head?.bind SExpr.asSymbol ≠ some "result".toList then
    throw "expected (result ...) form"
  match list.tail with
  | .atom (.str id) :: items => resultFields ⟨id, false, none, none⟩ items
  | .atom _ :: _ => throw "expected string result ID"
  | _ => throw "expected result ID"

def parseResult (parse : ParseFloat) (input : List Char) : Except String ResultMessage := do
  match ← lexAndParse parse input with
  | .list items :: _ => resultOfList items
  | _ :: _ => throw "expected list"
  | [] => throw "empty input"

end Airl.Agent
