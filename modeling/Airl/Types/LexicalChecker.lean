import Airl.Types.Checker

/-! # Type checking without a stack of scopes

What the checks of `checker.rs` mean: an expression is checked in the bindings that are around it,
which it gets as an argument. A failure inside a scope is told apart from one outside.
-/

namespace Airl.Checker.Lexical

open Scoped

/-- The visible bindings. -/
abbrev Scope := String → Option Ty

abbrev Spec := Scoped.Spec CheckerRest

def Scope.bind (scope : Scope) (name : String) (ty : Ty) : Scope :=
  Function.update scope name (some ty)

section Check

variable (ids : String → Unify.Symbol) (fuel : Nat)

mutual

def bindPatternNames : Pattern → Scope → Scope
  | ⟨.wildcard, _⟩, scope => scope
  | ⟨.binding name, _⟩, scope => scope.bind name (.typeVar name)
  | ⟨.literal _, _⟩, scope => scope
  | ⟨.variant _ subPats, _⟩, scope => bindPatternsNames subPats scope

def bindPatternsNames : List Pattern → Scope → Scope
  | [], scope => scope
  | p :: ps, scope => bindPatternsNames ps (bindPatternNames p scope)

end

mutual

def checkPattern : Pattern → Ty → Scope → Spec Scope
  | ⟨.wildcard, _⟩, _, scope => pure scope
  | ⟨.binding name, _⟩, scrutTy, scope => pure (scope.bind name scrutTy)
  | ⟨.literal _, _⟩, _, scope => pure scope
  | ⟨.variant name subPats, span⟩, scrutTy, scope => do
      let fieldTypes ← Spec.lift (lookupVariantFields fuel scrutTy name)
      match fieldTypes with
      | some fields =>
        if subPats.length = fields.length then checkPatterns subPats fields scope
        else Spec.lift (fail (.patternArity name fields.length subPats.length) span)
      | none => pure (bindPatternsNames subPats scope)

def checkPatterns : List Pattern → List Ty → Scope → Spec Scope
  | p :: ps, ty :: tys, scope => do
      let scope ← checkPattern p ty scope
      checkPatterns ps tys scope
  | _, _, scope => pure scope

end

/-- The types of the parameters, and the scope of the body. -/
def bindLambdaParams : List Param → Scope → Spec (List Ty × Scope)
  | [], scope => pure ([], scope)
  | p :: ps, scope => do
      let ty ← Spec.lift (resolve ids p.ty)
      let boundTy := if ty.isWildcard then .typeVar p.name else ty
      let rest ← bindLambdaParams ps (scope.bind p.name boundTy)
      return (boundTy :: rest.1, rest.2)

def checkCtor (name : String) (args : Nat) (span : Span)
    (checkArgs : List Ty → Scope → Spec Unit) (checkAll : Scope → Spec (List Ty)) :
    Option Ty → Scope → Spec Ty
  | some (.func params ret), scope =>
    if args = params.length then do
      checkArgs params scope
      pure ret
    else Spec.lift (fail (.variantArity name params.length args) span)
  | some ty, _ => pure ty
  | none, scope => do
      let argTys ← checkAll scope
      pure (.named name (argTys.map .type))

mutual

def checkExpr : Expr → Scope → Spec Ty
  | ⟨.intLit _, _⟩, _ => pure (.prim .i64)
  | ⟨.floatLit _, _⟩, _ => pure (.prim .f64)
  | ⟨.boolLit _, _⟩, _ => pure (.prim .bool)
  | ⟨.strLit _, _⟩, _ => pure (.prim .str)
  | ⟨.nilLit, _⟩, _ => pure .unit
  | ⟨.keywordLit _, _⟩, _ => pure (.prim .str)
  | ⟨.symbolRef name, span⟩, scope => Spec.lift (symbolTy name span (scope name))
  | ⟨.ite cond then_ else_, span⟩, scope => do
      let condTy ← checkExpr cond scope
      if condTy.eq (.prim .bool) then
        let thenTy ← checkExpr then_ scope
        let elseTy ← checkExpr else_ scope
        if thenTy.eq elseTy then pure thenTy
        else Spec.lift (fail (.ifBranches thenTy elseTy) span)
      else Spec.lift (fail .ifCondition cond.span)
  | ⟨.let bindings body, _⟩, scope => checkLet bindings (checkExpr body) scope
  | ⟨.do exprs, _⟩, scope => checkSeq exprs .unit scope
  | ⟨.fnCall callee args, span⟩, scope => do
      let calleeTy ← checkExpr callee scope
      match calleeTy with
      | .func params ret =>
        if args.length = params.length then
          checkArgs args params scope
          pure ret
        else Spec.lift (fail (.arity params.length args.length) span)
      | .typeVar _ =>
        Spec.lift (checkMinArity callee args.length span)
        checkAnyArgs args scope
        pure tyWildcard
      | ty => Spec.lift (fail (.notFunction ty) span)
  | ⟨.match scrutinee arms, span⟩, scope => do
      let scrutTy ← checkExpr scrutinee scope
      let resultTy ← checkArms arms scrutTy none scope
      match resultTy with
      | some ty => pure ty
      | none => Spec.lift (fail .noArms span)
  | ⟨.lambda params body, _⟩, scope => do
      let bound ← Spec.inside (bindLambdaParams ids params scope)
      let bodyTy ← Spec.inside (checkExpr body bound.2)
      pure (.func bound.1 bodyTy)
  | ⟨.try inner, _⟩, scope => do
      let innerTy ← checkExpr inner scope
      Spec.lift (tryType innerTy)
  | ⟨.variantCtor name args, span⟩, scope =>
    checkCtor name args.length span (checkArgs args) (checkAll args) (scope name) scope
  | ⟨.structLit _ fields, _⟩, scope => do
      let fieldTys ← checkFields fields scope
      pure (.product fieldTys)
  | ⟨.listLit items, _⟩, scope =>
    match items with
    | [] => pure (.named "List" [.type tyWildcard])
    | first :: items => do
        let firstTy ← checkExpr first scope
        checkItems firstTy items scope
        pure (.named "List" [.type firstTy])
  | ⟨.forall _ _ _, _⟩, _ => pure (.prim .bool)
  | ⟨.exists _ _ _, _⟩, _ => pure (.prim .bool)

/-- A type that is not the declared one is reported after the scope has been closed. -/
def checkLet : List LetBinding → (Scope → Spec Ty) → Scope → Spec Ty
  | [], body, scope => Spec.inside (body scope)
  | ⟨name, ty, value, span⟩ :: bindings, body, scope => do
      let actual ← Spec.inside (checkExpr value scope)
      let declared ← Spec.inside (Spec.lift (resolve ids ty))
      if declared.isWildcard then checkLet bindings body (scope.bind name actual)
      else
        let fits ← Spec.inside (Spec.lift (compatible fuel actual declared))
        if fits then checkLet bindings body (scope.bind name declared)
        else Spec.lift (fail (.letBinding declared actual) span)

def checkSeq : List Expr → Ty → Scope → Spec Ty
  | [], ty, _ => pure ty
  | e :: es, _, scope => do
      let ty ← checkExpr e scope
      checkSeq es ty scope

def checkArgs : List Expr → List Ty → Scope → Spec Unit
  | arg :: args, paramTy :: params, scope => do
      let argTy ← checkExpr arg scope
      Spec.lift (checkAssignable fuel argTy paramTy arg.span)
      checkArgs args params scope
  | _, _, _ => pure ()

def checkAnyArgs : List Expr → Scope → Spec Unit
  | [], _ => pure ()
  | arg :: args, scope => do
      let _ ← Spec.attempt (checkExpr arg scope)
      checkAnyArgs args scope

def checkAll : List Expr → Scope → Spec (List Ty)
  | [], _ => pure []
  | e :: es, scope => do
      let ty ← checkExpr e scope
      let tys ← checkAll es scope
      pure (ty :: tys)

def checkFields : List FieldInit → Scope → Spec (List TyField)
  | [], _ => pure []
  | ⟨key, value⟩ :: fields, scope => do
      let ty ← checkExpr value scope
      let tys ← checkFields fields scope
      pure (⟨key, ty⟩ :: tys)

def checkItems (firstTy : Ty) : List Expr → Scope → Spec Unit
  | [], _ => pure ()
  | item :: items, scope => do
      let itemTy ← checkExpr item scope
      if itemTy.eq firstTy then checkItems firstTy items scope
      else Spec.lift (fail (.listElements firstTy itemTy) item.span)

def checkArm : MatchArm → Ty → Scope → Spec Ty
  | ⟨pattern, body, _⟩, scrutTy, scope => do
      let armScope ← Spec.inside (checkPattern fuel pattern scrutTy scope)
      Spec.inside (checkExpr body armScope)

def checkArms : List MatchArm → Ty → Option Ty → Scope → Spec (Option Ty)
  | [], _, resultTy, _ => pure resultTy
  | arm :: arms, scrutTy, resultTy, scope => do
      let armTy ← checkArm arm scrutTy scope
      match resultTy with
      | some prev =>
        if armTy.eq prev then checkArms arms scrutTy (some prev) scope
        else Spec.lift (fail (.matchArms prev armTy) arm.span)
      | none => checkArms arms scrutTy (some armTy) scope

end

def bindParams : List Param → Scope → Spec (List Ty × Scope)
  | [], scope => pure ([], scope)
  | p :: ps, scope => do
      let ty ← Spec.lift (resolve ids p.ty)
      let rest ← bindParams ps (scope.bind p.name ty)
      return (ty :: rest.1, rest.2)

def checkClauses (clause : String) : List Expr → Scope → Spec Unit
  | [], _ => pure ()
  | e :: es, scope => do
      let result ← Spec.attempt (checkExpr ids fuel e scope)
      Spec.lift (checkClauseTy clause e.span result)
      checkClauses clause es scope

/-- A function is a scope as a whole, so whatever fails in it fails inside. -/
def checkFn (f : FnDef) (scope : Scope) : Spec Ty := do
  let bound ← Spec.inside (bindParams ids f.params scope)
  let scope := bound.2
  let declaredRet ← Spec.inside (Spec.lift (resolve ids f.returnType))
  Spec.inside (checkClauses ids fuel ":requires" f.requires scope)
  let preliminaryRet :=
    if declaredRet.isWildcard then .typeVar ("__ret_" ++ f.name) else declaredRet
  let scope := scope.bind f.name (.func bound.1 preliminaryRet)
  let bodyTy ← Spec.inside (checkExpr ids fuel f.body scope)
  Spec.inside (Spec.lift (checkAssignable fuel bodyTy declaredRet f.body.span))
  let scope := scope.bind "result" declaredRet
  Spec.inside (checkClauses ids fuel ":ensures" f.ensures scope)
  Spec.inside (checkClauses ids fuel ":invariants" f.invariants scope)
  return .func bound.1 declaredRet

mutual

/-- The bindings that are visible after the form. -/
def checkTopLevel : CheckedForm → Scope → Spec Scope
  | .defn f, scope => do
      let fnTy ← checkFn ids fuel f scope
      pure (scope.bind f.name fnTy)
  | .defType td, scope => do
      Spec.lift (registerTypeDef ids td)
      pure scope
  | .module body, scope => checkTopLevels body scope
  | .expr e, scope => do
      let _ ← checkExpr ids fuel e scope
      pure scope
  | .define, scope => pure scope
  | .task, scope => pure scope
  | .useDecl, scope => pure scope
  | .externC decl, scope => do
      let fnTy ← Spec.lift (externTy ids decl)
      pure (scope.bind decl.cName fnTy)
  | .import_, scope => pure scope

def checkTopLevels : List CheckedForm → Scope → Spec Scope
  | [], scope => pure scope
  | form :: forms, scope => do
      let scope ← checkTopLevel form scope
      checkTopLevels forms scope

end

end Check

end Airl.Checker.Lexical
