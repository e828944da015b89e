import Airl.Syntax.Ast

/-! # Source text of a syntax tree

`to_airl` of types, patterns and expressions, which gives a contract clause the text that stands in
the message about its violation.
-/

namespace Airl

/-- How the formatting macros write a float and, by `{:?}`, a number in a type. -/
structure Display where
  float : UInt64 → String
  natExpr : NatExpr → String

variable (D : Display)

mutual

def AstType.toAirl : AstType → String
  | ⟨kind, _⟩ => kind.toAirl

def AstTypeKind.toAirl : AstTypeKind → String
  | .named s => s
  | .app name args => name ++ "[" ++ ", ".intercalate (typesToAirl args) ++ "]"
  | .func params ret => "(-> [" ++ " ".intercalate (typesToAirl params) ++ "] " ++ ret.toAirl ++ ")"
  | .nat (.lit v) => toString v
  | .nat (.var s) => s
  | .nat (.binOp op l r) =>
    "(" ++ (match op with | .add => "+" | .sub => "-" | .mul => "*") ++ " " ++ D.natExpr l ++ " " ++
      D.natExpr r ++ ")"

def typesToAirl : List AstType → List String
  | [] => []
  | ty :: tys => ty.toAirl :: typesToAirl tys

end

mutual

def Pattern.toAirl : Pattern → String
  | ⟨kind, _⟩ => kind.toAirl

def PatternKind.toAirl : PatternKind → String
  | .wildcard => "_"
  | .binding name => name
  | .literal (.int v) => toString v
  | .literal (.float bits) => D.float bits
  | .literal (.str s) => "\"" ++ s ++ "\""
  | .literal (.bool b) => toString b
  | .literal .nil => "nil"
  | .variant name subPats => "(" ++ " ".intercalate (name :: patternsToAirl subPats) ++ ")"

def patternsToAirl : List Pattern → List String
  | [] => []
  | p :: ps => p.toAirl :: patternsToAirl ps

end

mutual

def Expr.toAirl : Expr → String
  | ⟨kind, _⟩ => kind.toAirl

def ExprKind.toAirl : ExprKind → String
  | .intLit v => toString v
  | .floatLit bits => D.float bits
  | .strLit s => "\"" ++ s ++ "\""
  | .boolLit b => toString b
  | .nilLit => "nil"
  | .symbolRef s => s
  | .keywordLit k => ":" ++ k
  | .fnCall callee args => "(" ++ " ".intercalate (callee.toAirl :: exprsToAirl args) ++ ")"
  | .ite cond then_ else_ =>
    "(if " ++ cond.toAirl ++ " " ++ then_.toAirl ++ " " ++ else_.toAirl ++ ")"
  | .let bindings body =>
    "(let " ++ " ".intercalate (bindingsToAirl bindings) ++ " " ++ body.toAirl ++ ")"
  | .do exprs => "(do " ++ " ".intercalate (exprsToAirl exprs) ++ ")"
  | .match scrutinee arms => "(match " ++ scrutinee.toAirl ++ armsToAirl arms ++ ")"
  | .lambda params body =>
    "(fn [" ++ " ".intercalate (params.map Param.name) ++ "] " ++ body.toAirl ++ ")"
  | .try inner => "(try " ++ inner.toAirl ++ ")"
  | .forall param whereClause body =>
    "(forall [" ++ param.name ++ " : " ++ param.ty.toAirl D ++ "]" ++
      guardToAirl whereClause ++ " " ++
      body.toAirl ++ ")"
  | .exists param whereClause body =>
    "(exists [" ++ param.name ++ " : " ++ param.ty.toAirl D ++ "]" ++
      guardToAirl whereClause ++ " " ++
      body.toAirl ++ ")"
  | .variantCtor name [] => name
  | .variantCtor name args => "(" ++ name ++ " " ++ " ".intercalate (exprsToAirl args) ++ ")"
  | .structLit name fields => "(" ++ name ++ " " ++ " ".intercalate (fieldsToAirl fields) ++ ")"
  | .listLit items => "[" ++ " ".intercalate (exprsToAirl items) ++ "]"

def guardToAirl : Option Expr → String
  | none => ""
  | some guard => " (where " ++ guard.toAirl ++ ")"

def exprsToAirl : List Expr → List String
  | [] => []
  | e :: es => e.toAirl :: exprsToAirl es

def bindingsToAirl : List LetBinding → List String
  | [] => []
  | ⟨name, ty, value, _⟩ :: bindings =>
    ("(" ++ name ++ " : " ++ ty.toAirl D ++ " " ++ value.toAirl ++ ")") :: bindingsToAirl bindings

def armsToAirl : List MatchArm → String
  | [] => ""
  | ⟨pattern, body, _⟩ :: arms =>
    " " ++ pattern.toAirl D ++ " " ++ body.toAirl ++ armsToAirl arms

def fieldsToAirl : List FieldInit → List String
  | [] => []
  | ⟨key, value⟩ :: fields => (":" ++ key ++ " " ++ value.toAirl) :: fieldsToAirl fields

end

end Airl
