import Airl.Syntax.Ast

/-! # Forms

The nested lists of `sexpr.rs` that `parser.rs` reads, with their places in the source, and the
parts of the parser that read types and patterns.
-/

namespace Airl

/-- `Span::merge`. -/
def Span.merge (a b : Span) : Span where
  start := min a.start b.start
  end_ := max a.end_ b.end_
  line := min a.line b.line
  col := if a.line < b.line then a.col else if b.line < a.line then b.col else min a.col b.col

namespace Parser

/-- A float is its bit pattern. -/
inductive AtomKind where
  | integer (v : Int64)
  | float (bits : UInt64)
  | str (s : String)
  | symbol (s : String)
  | keyword (s : String)
  | bool (b : Bool)
  | nil
  | arrow
  | version (major minor patch : Nat)
  deriving Repr, DecidableEq

inductive SExpr where
  | atom (kind : AtomKind) (span : Span)
  | list (items : List SExpr) (span : Span)
  | bracketList (items : List SExpr) (span : Span)
  deriving Repr

namespace SExpr

def span : SExpr → Span
  | atom _ span => span
  | list _ span => span
  | bracketList _ span => span

def asSymbol : SExpr → Option String
  | atom (.symbol s) _ => some s
  | _ => none

def asKeyword : SExpr → Option String
  | atom (.keyword s) _ => some s
  | _ => none

end SExpr

variable (debug : SExpr → String)

/-- `expect_symbol`; the text that `{:?}` has for a form is given by `debug`. -/
def expectSymbol (sexpr : SExpr) : Except Diagnostic String :=
  match sexpr with
  | .atom (.symbol s) _ => .ok s
  | _ => .error (.error ("expected symbol, found " ++ debug sexpr) sexpr.span)

def expectString (sexpr : SExpr) : Except Diagnostic String :=
  match sexpr with
  | .atom (.str s) _ => .ok s
  | _ => .error (.error ("expected string, found " ++ debug sexpr) sexpr.span)

/-- Names are of the letters that the lexer lets into symbols. -/
def isCapitalized (s : String) : Bool := s.toList.head?.any Char.isUpper

def parseAtomExpr (kind : AtomKind) (span : Span) : Except Diagnostic Expr :=
  match kind with
  | .integer v => .ok ⟨.intLit v, span⟩
  | .float bits => .ok ⟨.floatLit bits, span⟩
  | .str s => .ok ⟨.strLit s, span⟩
  | .bool b => .ok ⟨.boolLit b, span⟩
  | .nil => .ok ⟨.nilLit, span⟩
  | .symbol s => .ok ⟨.symbolRef s, span⟩
  | .keyword s => .ok ⟨.keywordLit s, span⟩
  | .arrow => .ok ⟨.symbolRef "->", span⟩
  | .version _ _ _ => .error (.error "version literal is only valid in :version position" span)

mutual

def parseType : SExpr → Except Diagnostic AstType
  | .atom (.symbol s) span => .ok ⟨.named s, span⟩
  | .atom (.integer v) span => .ok ⟨.nat (.lit v.toUInt64), span⟩
  | .atom _ span => .error (.error "unexpected type form" span)
  | .list [] span => .error (.error "empty type expression" span)
  | .list (head :: rest) span =>
    if head.asSymbol = some "->" then
      match rest with
      | [.bracketList params _, ret] => do
          let params ← parseTypes params
          let ret ← parseType ret
          .ok ⟨.func params ret, span⟩
      | [_, _] => .error (.error "function type params must be a bracket list" span)
      | _ => .error (.error "function type requires (-> [params] return)" span)
    else .error (.error "unexpected type form" span)
  | .bracketList _ span => .error (.error "unexpected bracket list in type position" span)

def parseTypes : List SExpr → Except Diagnostic (List AstType)
  | [] => .ok []
  | p :: ps => do
      let t ← parseType p
      let ts ← parseTypes ps
      .ok (t :: ts)

end

/-- The arguments of a type application. -/
def parseTypeArgs : List SExpr → Except Diagnostic (List AstType)
  | [] => .ok []
  | .atom (.symbol name) span :: .bracketList args bspan :: rest => do
      let args ← parseTypeArgs args
      let more ← parseTypeArgs rest
      .ok (⟨.app name args, span.merge bspan⟩ :: more)
  | .atom (.symbol name) span :: rest => do
      let more ← parseTypeArgs rest
      .ok (⟨.named name, span⟩ :: more)
  | item :: rest => do
      let t ← parseType item
      let more ← parseTypeArgs rest
      .ok (t :: more)

/-- `parse_type_from_slice`, with the items behind the type instead of their number. -/
def parseTypeFromSlice : List SExpr → Except Diagnostic (AstType × List SExpr)
  | [] => .error (.error "expected type" .dummy)
  | .atom (.symbol name) span :: .bracketList args bspan :: rest => do
      let args ← parseTypeArgs args
      .ok (⟨.app name args, span.merge bspan⟩, rest)
  | .atom (.symbol name) span :: rest => .ok (⟨.named name, span⟩, rest)
  | item :: rest => do
      let t ← parseType item
      .ok (t, rest)

mutual

def parsePattern : SExpr → Except Diagnostic Pattern
  | .atom kind span =>
    match kind with
    | .symbol s => .ok ⟨if s = "_" then .wildcard else .binding s, span⟩
    | .integer v => .ok ⟨.literal (.int v), span⟩
    | .float bits => .ok ⟨.literal (.float bits), span⟩
    | .str s => .ok ⟨.literal (.str s), span⟩
    | .bool b => .ok ⟨.literal (.bool b), span⟩
    | .nil => .ok ⟨.literal .nil, span⟩
    | _ => .error (.error "unexpected pattern atom" span)
  | .list [] span => .error (.error "empty pattern" span)
  | .list (head :: rest) span => do
      let name ← expectSymbol debug head
      let subPatterns ← parsePatterns rest
      .ok ⟨.variant name subPatterns, span⟩
  | .bracketList _ span => .error (.error "unexpected pattern form" span)

def parsePatterns : List SExpr → Except Diagnostic (List Pattern)
  | [] => .ok []
  | item :: items => do
      let p ← parsePattern item
      let ps ← parsePatterns items
      .ok (p :: ps)

end

end Parser

end Airl
