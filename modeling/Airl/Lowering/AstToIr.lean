import Airl.Syntax.Ast
import Airl.Ir.Syntax

/-! # Lowering in the runtime

`ast_to_ir.rs`, which the compiler to native code uses.
-/

namespace Airl.AstToIr

mutual

def compilePattern : Pattern → IRPattern
  | ⟨kind, _⟩ => compilePatternKind kind

def compilePatternKind : PatternKind → IRPattern
  | .wildcard => .wild
  | .binding name => .bind name
  | .literal (.int v) => .lit (.int v)
  | .literal (.float bits) => .lit (.float bits)
  | .literal (.str s) => .lit (.str s)
  | .literal (.bool b) => .lit (.bool b)
  | .literal .nil => .lit .nil
  | .variant name subPats => .variant name (compilePatterns subPats)

def compilePatterns : List Pattern → List IRPattern
  | [] => []
  | pattern :: patterns => compilePattern pattern :: compilePatterns patterns

end

/-- A fold over the numbers below the bound, which leaves the body out once the answer is known. -/
def quantifier (isForall : Bool) (varName : String) (upperBound body : IRNode) : IRNode :=
  let accName := "__quant_acc"
  let foldBody : IRNode :=
    if isForall then .ite (.call "not" [.load accName]) (.bool false) body
    else .ite (.load accName) (.bool true) body
  .call "fold" [.lambda [accName, varName] foldBody, .bool isForall,
    .call "range" [.int 0, upperBound]]

mutual

def compileExpr : Expr → IRNode
  | ⟨kind, _⟩ => compileKind kind

def compileKind : ExprKind → IRNode
  | .intLit v => .int v
  | .floatLit bits => .float bits
  | .strLit s => .str s
  | .boolLit b => .bool b
  | .nilLit => .nil
  | .symbolRef name => .load name
  | .keywordLit k => .str (":" ++ k)
  | .ite cond then_ else_ => .ite (compileExpr cond) (compileExpr then_) (compileExpr else_)
  | .let bindings body => .let (compileBindings bindings) (compileExpr body)
  | .do exprs => .do (compileExprs exprs)
  | .fnCall ⟨.symbolRef name, _⟩ args => .call name (compileExprs args)
  | .fnCall callee args => .callExpr (compileExpr callee) (compileExprs args)
  | .lambda params body => .lambda (params.map Param.name) (compileExpr body)
  | .match scrutinee arms => .match (compileExpr scrutinee) (compileArms arms)
  | .listLit items => .list (compileExprs items)
  | .variantCtor name args => .variant name (compileExprs args)
  | .try inner => .try (compileExpr inner)
  | .structLit name fields => .variant name [.list (compileFields fields)]
  | .forall param whereClause body =>
    quantifier true param.name (compileWhere whereClause param.name) (compileExpr body)
  | .exists param whereClause body =>
    quantifier false param.name (compileWhere whereClause param.name) (compileExpr body)

/-- The bound that the where clause gives, or the clause itself, or 10000. -/
def compileWhere : Option Expr → String → IRNode
  | none, _ => .int 10000
  | some w, varName => (extractUpperBound w varName).getD (compileExpr w)

/-- The bound of `(< var n)` and of `(<= var n)`. -/
def extractUpperBound : Expr → String → Option IRNode
  | ⟨.fnCall ⟨.symbolRef op, _⟩ [⟨.symbolRef name, _⟩, bound], _⟩, varName =>
    if name = varName then
      if op = "<" then some (compileExpr bound)
      else if op = "<=" then some (.call "+" [compileExpr bound, .int 1])
      else none
    else none
  | _, _ => none

def compileExprs : List Expr → List IRNode
  | [] => []
  | e :: es => compileExpr e :: compileExprs es

def compileBindings : List LetBinding → List IRBinding
  | [] => []
  | ⟨name, _, value, _⟩ :: bindings => ⟨name, compileExpr value⟩ :: compileBindings bindings

def compileArms : List MatchArm → List IRArm
  | [] => []
  | ⟨pattern, body, _⟩ :: arms => ⟨compilePattern pattern, compileExpr body⟩ :: compileArms arms

def compileFields : List FieldInit → List IRNode
  | [] => []
  | ⟨key, value⟩ :: fields => .list [.str key, compileExpr value] :: compileFields fields

end

def compileTopLevel : TopLevel → IRNode
  | .defn f => .func f.name (f.params.map Param.name) (compileExpr f.body)
  | .expr e => compileExpr e
  | .externC => .nil
  | _ => .nil

/-- The nodes of a program. -/
def compileTops (tops : List TopLevel) : List IRNode := tops.map compileTopLevel

end Airl.AstToIr
