import Airl.Syntax.Ast
import Airl.Types.TypeEnv

/-! # The type checker

`checker.rs`. A message keeps the types that its text shows. Recursion along substitutions and
along registered names has a bound, beyond which a check does not return.
-/

namespace Airl

/-! ## What is checked -/

structure VariantDef where
  name : String
  fields : List AstType

structure FieldDef where
  name : String
  ty : AstType

inductive TypeDefBody where
  | sum (variants : List VariantDef)
  | product (fields : List FieldDef)
  | alias (ty : AstType)

structure TypeDef where
  name : String
  typeParams : List String
  body : TypeDefBody

structure ExternCDecl where
  cName : String
  params : List Param
  returnType : AstType

/-- A top-level form, with what the checker reads. -/
inductive CheckedForm where
  | defn (f : FnDef)
  | defType (td : TypeDef)
  | module (body : List CheckedForm)
  | expr (e : Expr)
  | define
  | task
  | useDecl
  | externC (decl : ExternCDecl)
  | import_

/-! ## State -/

inductive TypeMessage where
  | undefinedSymbol (name : String)
  | ifCondition
  | ifBranches (then_ else_ : Ty)
  | letBinding (expected got : Ty)
  | arity (expected got : Nat)
  | builtinArity (name : String) (atLeast got : Nat)
  | notFunction (got : Ty)
  | matchArms (prev arm : Ty)
  | noArms
  | variantArity (name : String) (expected got : Nat)
  | listElements (first item : Ty)
  | patternArity (name : String) (fields subPats : Nat)
  | contractClause (clause : String) (got : Ty)
  | unresolvedVariant (name : String)
  | unresolvedField (name : String)
  | narrowing (actual expected : PrimTy)
  | mismatch (expected actual : Ty)

structure TypeDiagnostic where
  message : TypeMessage
  span : Span

structure RegisteredType where
  params : List String
  ty : Ty

/-- The state of the checker apart from the scopes. -/
structure CheckerRest where
  types : String → Option RegisteredType
  dimSubst : Unify.DimSubst
  diags : List TypeDiagnostic

abbrev Checker := Scoped.State TypeEnv CheckerRest

abbrev RestCheck := Scoped.RestCode CheckerRest

abbrev Check := Scoped.Code TypeEnv CheckerRest

/-! ## Types -/

namespace PrimTy

def fromName (name : String) : Option PrimTy :=
  match name with
  | "bool" => some .bool
  | "i8" => some .i8
  | "i16" => some .i16
  | "i32" => some .i32
  | "i64" => some .i64
  | "u8" => some .u8
  | "u16" => some .u16
  | "u32" => some .u32
  | "u64" => some .u64
  | "f16" => some .f16
  | "f32" => some .f32
  | "f64" => some .f64
  | "bf16" => some .bf16
  | "Nat" => some .nat
  | "String" => some .str
  | _ => none

def isInteger : PrimTy → Bool
  | .i8 | .i16 | .i32 | .i64 | .u8 | .u16 | .u32 | .u64 => true
  | _ => false

def isFloat : PrimTy → Bool
  | .f16 | .f32 | .f64 | .bf16 => true
  | _ => false

def canWiden (source target : PrimTy) : Bool :=
  match source, target with
  | .i8, .i16 | .i8, .i32 | .i8, .i64 => true
  | .i16, .i32 | .i16, .i64 => true
  | .i32, .i64 => true
  | .u8, .u16 | .u8, .u32 | .u8, .u64 => true
  | .u16, .u32 | .u16, .u64 => true
  | .u32, .u64 => true
  | .f32, .f64 => true
  | _, _ => false

end PrimTy

mutual

/-- The derived equality. -/
def Ty.eq : Ty → Ty → Bool
  | .prim a, .prim b => a = b
  | .tensor elem shape, .tensor elem' shape' => elem.eq elem' && shape = shape'
  | .func params ret, .func params' ret' => Ty.eqAll params params' && ret.eq ret'
  | .named name args, .named name' args' => name = name' && TyArg.eqAll args args'
  | .sum variants, .sum variants' => TyVariant.eqAll variants variants'
  | .product fields, .product fields' => TyField.eqAll fields fields'
  | .typeVar name, .typeVar name' => name = name'
  | .nat d, .nat d' => d = d'
  | .unit, .unit => true
  | .never, .never => true
  | _, _ => false

def Ty.eqAll : List Ty → List Ty → Bool
  | [], [] => true
  | a :: as, b :: bs => a.eq b && Ty.eqAll as bs
  | _, _ => false

def TyArg.eq : TyArg → TyArg → Bool
  | .type t, .type t' => t.eq t'
  | .nat d, .nat d' => d = d'
  | _, _ => false

def TyArg.eqAll : List TyArg → List TyArg → Bool
  | [], [] => true
  | a :: as, b :: bs => a.eq b && TyArg.eqAll as bs
  | _, _ => false

def TyVariant.eq : TyVariant → TyVariant → Bool
  | ⟨name, fields⟩, ⟨name', fields'⟩ => name = name' && Ty.eqAll fields fields'

def TyVariant.eqAll : List TyVariant → List TyVariant → Bool
  | [], [] => true
  | a :: as, b :: bs => a.eq b && TyVariant.eqAll as bs
  | _, _ => false

def TyField.eq : TyField → TyField → Bool
  | ⟨name, ty⟩, ⟨name', ty'⟩ => name = name' && ty.eq ty'

def TyField.eqAll : List TyField → List TyField → Bool
  | [], [] => true
  | a :: as, b :: bs => a.eq b && TyField.eqAll as bs
  | _, _ => false

end

def MatchArm.span : MatchArm → Span
  | ⟨_, _, span⟩ => span

/-- `TypeVar("_")`, an inferred placeholder. -/
def Ty.isWildcard : Ty → Bool
  | .typeVar name => name = "_"
  | _ => false

def tyWildcard : Ty := .typeVar "_"

namespace Checker

/-- `str::parse::<u64>`. -/
def parseU64 (s : String) : Option UInt64 :=
  let digits := if s.toList.head? = some '+' then s.toList.tail else s.toList
  if digits.isEmpty || !digits.all Char.isDigit then none
  else
    let n := digits.foldl (fun n c => n * 10 + (c.toNat - 48)) 0
    if n < 18446744073709551616 then some (UInt64.ofNat n) else none

def resolveTypeName (types : String → Option RegisteredType) (name : String) : Option Ty :=
  match PrimTy.fromName name with
  | some prim => some (.prim prim)
  | none =>
    if name = "Unit" then some .unit
    else if name = "Never" then some .never
    else (types name).map RegisteredType.ty

section Resolve

-- the identifiers that the interner gives to the names of dimensions
variable (ids : String → Unify.Symbol) (types : String → Option RegisteredType)

def astNatToDim : NatExpr → Unify.DimExpr
  | .lit v => .lit v
  | .var s => .var (ids s)
  | .binOp .add l r => .binOp .add (astNatToDim l) (astNatToDim r)
  | .binOp .sub l r => .binOp .sub (astNatToDim l) (astNatToDim r)
  | .binOp .mul l r => .binOp .mul (astNatToDim l) (astNatToDim r)

def resolveDim : AstType → Option Unify.DimExpr
  | ⟨.nat nat, _⟩ => some (astNatToDim ids nat)
  | ⟨.named name, _⟩ =>
    match parseU64 name with
    | some n => some (.lit n)
    | none => some (.var (ids name))
  | _ => none

mutual

def resolveType : AstType → Option Ty
  | ⟨.named name, _⟩ => if name = "_" then some tyWildcard else resolveTypeName types name
  | ⟨.app name args, _⟩ =>
    if name = "tensor" then
      match args with
      | [] => none
      | first :: dims => do
          let elem ← resolveType first
          let shape ← dims.mapM (resolveDim ids)
          return .tensor elem shape
    else do
      let resolvedArgs ← resolveTypes args
      return .named name (resolvedArgs.map .type)
  | ⟨.func params ret, _⟩ => do
      let paramTys ← resolveTypes params
      let retTy ← resolveType ret
      return .func paramTys retTy
  | ⟨.nat nat, _⟩ => some (.nat (astNatToDim ids nat))

def resolveTypes : List AstType → Option (List Ty)
  | [] => some []
  | t :: ts => do
      let ty ← resolveType t
      let tys ← resolveTypes ts
      return ty :: tys

end

end Resolve

/-! ## Compatible types -/

section Compatible

variable (fuel : Nat)

def dimsCompatible (a b : Unify.DimExpr) : StateT Unify.DimSubst Option Bool := fun subst =>
  (Unify.unifyDim fuel a b subst).map fun out => (out.1.isOk, out.2)

mutual

def typesCompatible (actual expected : Ty) : StateT Unify.DimSubst Option Bool :=
  if actual.isWildcard || expected.isWildcard then pure true
  else
    match actual, expected with
    | .never, _ => pure true
    | .prim a, .prim b =>
      pure (a = b || (a.isInteger && b.isInteger) || (a.isFloat && b.isFloat))
    | .func ap ar, .func bp br => do
        if ap.length = bp.length then
          if ← allCompatible ap bp then typesCompatible ar br else pure false
        else pure false
    | .tensor ae as, .tensor be bs => do
        if ← typesCompatible ae be then Unify.unifyShapes fuel as bs else pure false
    | .named an aa, .named bn ba =>
      if an = bn && aa.length = ba.length then argsCompatible aa ba else pure false
    | actual, expected => pure (actual.eq expected)
termination_by structural actual

def allCompatible : List Ty → List Ty → StateT Unify.DimSubst Option Bool
  | a :: as, b :: bs => do
      if ← typesCompatible a b then allCompatible as bs else pure false
  | _, _ => pure true
termination_by structural as => as

def argCompatible : TyArg → TyArg → StateT Unify.DimSubst Option Bool
  | .type a, .type b => typesCompatible a b
  | .nat a, .nat b => dimsCompatible fuel a b
  | _, _ => pure false
termination_by structural a => a

def argsCompatible : List TyArg → List TyArg → StateT Unify.DimSubst Option Bool
  | a :: as, b :: bs => do
      if ← argCompatible a b then argsCompatible as bs else pure false
  | _, _ => pure true
termination_by structural as => as

end

end Compatible

/-! ## Checks without scopes -/

section Rest

variable (ids : String → Unify.Symbol) (fuel : Nat)

def report (message : TypeMessage) (span : Span) : RestCheck Unit := fun r =>
  some (.ok (), { r with diags := r.diags ++ [⟨message, span⟩] })

def fail {α : Type} (message : TypeMessage) (span : Span) : RestCheck α := do
  report message span
  throw ()

def resolve (t : AstType) : RestCheck Ty := fun r =>
  match resolveType ids r.types t with
  | some ty => some (.ok ty, r)
  | none => some (.error (), r)

def compatible (actual expected : Ty) : RestCheck Bool := fun r =>
  (typesCompatible fuel actual expected r.dimSubst).map fun out =>
    (.ok out.1, { r with dimSubst := out.2 })

def checkAssignable (actual expected : Ty) (span : Span) : RestCheck Unit := do
  if ← compatible fuel actual expected then
    match actual, expected with
    | .prim a, .prim b =>
      if a = b || a.canWiden b then return () else report (.narrowing a b) span
    | _, _ => return ()
  else fail (.mismatch expected actual) span

/-- The bound is on the chain of registered names. -/
def variantFields (types : String → Option RegisteredType) :
    Nat → Ty → String → Option (Option (List Ty))
  | 0, _, _ => none
  | _ + 1, .sum variants, name =>
    some ((variants.find? (·.name = name)).map TyVariant.fields)
  | fuel + 1, .named n _, name =>
    match types n with
    | some reg => variantFields types fuel reg.ty name
    | none => some none
  | _ + 1, _, _ => some none

def lookupVariantFields (scrutTy : Ty) (name : String) : RestCheck (Option (List Ty)) := fun r =>
  (variantFields r.types fuel scrutTy name).map fun fields => (.ok fields, r)

def polymorphicBuiltinMinArity (name : String) : Option Nat :=
  if name ∈ ["print", "println", "eprint", "eprintln"] then some 1
  else if name = "format" then some 1
  else if name = "spawn-agent" then some 1
  else if name ∈ ["send", "send-async"] then some 2
  else if name = "await" then some 1
  else if name ∈ ["tensor.zeros", "tensor.ones"] then some 1
  else if name = "tensor.rand" then some 2
  else if name = "tensor.identity" then some 1
  else if name ∈ ["tensor.add", "tensor.mul", "tensor.matmul"] then some 2
  else if name = "tensor.reshape" then some 2
  else if name ∈ ["tensor.transpose", "tensor.softmax", "tensor.sum", "tensor.max"] then some 1
  else if name = "tensor.slice" then some 3
  else if name ∈ ["run-bytecode", "compile-to-executable"] then some 1
  else none

/-- The call of a builtin without a signature has enough arguments. -/
def checkMinArity (callee : Expr) (args : Nat) (span : Span) : RestCheck Unit :=
  match callee.kind with
  | .symbolRef name =>
    match polymorphicBuiltinMinArity name with
    | some minArity =>
      if args < minArity then fail (.builtinArity name minArity args) span else pure ()
    | none => pure ()
  | _ => pure ()

def symbolTy (name : String) (span : Span) : Option Ty → RestCheck Ty
  | some ty => pure ty
  | none => fail (.undefinedSymbol name) span

/-- What `?` makes of the type of its operand. -/
def tryType : Ty → RestCheck Ty
  | .named name [.type t, arg] => pure (if name = "Result" then t else .named name [.type t, arg])
  | .named name [.nat d, arg] =>
    if name = "Result" then throw () else pure (.named name [.nat d, arg])
  | ty => pure ty

def resolveOr (message : TypeMessage) (t : AstType) : RestCheck Ty := fun r =>
  match resolveType ids r.types t with
  | some ty => some (.ok ty, r)
  | none => some (.error (), { r with diags := r.diags ++ [⟨message, .dummy⟩] })

def resolveVariant (v : VariantDef) : RestCheck TyVariant := do
  let fields ← v.fields.mapM (resolveOr ids (.unresolvedVariant v.name))
  return ⟨v.name, fields⟩

def resolveField (f : FieldDef) : RestCheck TyField := do
  let ty ← resolveOr ids (.unresolvedField f.name) f.ty
  return ⟨f.name, ty⟩

def resolveBody : TypeDefBody → RestCheck Ty
  | .sum variants => do
      let tyVariants ← variants.mapM (resolveVariant ids)
      return .sum tyVariants
  | .product fields => do
      let tyFields ← fields.mapM (resolveField ids)
      return .product tyFields
  | .alias ty => resolve ids ty

def registerType (name : String) (reg : RegisteredType) : RestCheck Unit := fun r =>
  some (.ok (), { r with types := Function.update r.types name (some reg) })

def registerTypeDef (td : TypeDef) : RestCheck Unit := do
  let ty ← resolveBody ids td.body
  registerType td.name ⟨td.typeParams, ty⟩

def checkClauseTy (clause : String) (span : Span) : Option Ty → RestCheck Unit
  | some ty =>
    if ty.eq (.prim .bool) then pure () else report (.contractClause clause ty) span
  | none => pure ()

/-- The type of an external function. -/
def externTy (decl : ExternCDecl) : RestCheck Ty := do
  let paramTys ← decl.params.mapM fun p => resolve ids p.ty
  let retTy ← resolve ids decl.returnType
  return .func paramTys retTy

end Rest

/-! ## Expressions -/

section Check

open Scoped

variable (ids : String → Unify.Symbol) (fuel : Nat)

def bindName (name : String) (ty : Ty) : Check Unit := Code.modifyEnv (·.bind name ty)

mutual

/-- A sub-pattern whose type is not known. -/
def checkPatternBinding : Pattern → Check Unit
  | ⟨.wildcard, _⟩ => pure ()
  | ⟨.binding name, _⟩ => bindName name (.typeVar name)
  | ⟨.literal _, _⟩ => pure ()
  | ⟨.variant _ subPats, _⟩ => checkPatternBindings subPats

def checkPatternBindings : List Pattern → Check Unit
  | [] => pure ()
  | p :: ps => do
      checkPatternBinding p
      checkPatternBindings ps

end

mutual

def checkPattern : Pattern → Ty → Check Unit
  | ⟨.wildcard, _⟩, _ => pure ()
  | ⟨.binding name, _⟩, scrutTy => bindName name scrutTy
  | ⟨.literal _, _⟩, _ => pure ()
  | ⟨.variant name subPats, span⟩, scrutTy => do
      let fieldTypes ← Code.lift (lookupVariantFields fuel scrutTy name)
      match fieldTypes with
      | some fields =>
        if subPats.length = fields.length then checkPatterns subPats fields
        else Code.lift (fail (.patternArity name fields.length subPats.length) span)
      | none => checkPatternBindings subPats

def checkPatterns : List Pattern → List Ty → Check Unit
  | p :: ps, ty :: tys => do
      checkPattern p ty
      checkPatterns ps tys
  | _, _ => pure ()

end

/-- The parameters of a lambda; one without a type stands for itself. -/
def bindLambdaParams : List Param → Check (List Ty)
  | [] => pure []
  | p :: ps => do
      let ty ← Code.lift (resolve ids p.ty)
      let boundTy := if ty.isWildcard then .typeVar p.name else ty
      bindName p.name boundTy
      let tys ← bindLambdaParams ps
      return boundTy :: tys

/-- A constructor of a known type or of an unknown one, with the two ways to check its arguments. -/
def checkCtor (name : String) (args : Nat) (span : Span) (checkArgs : List Ty → Check Unit)
    (checkAll : Check (List Ty)) : Option Ty → Check Ty
  | some (.func params ret) =>
    if args = params.length then do
      checkArgs params
      pure ret
    else Code.lift (fail (.variantArity name params.length args) span)
  | some ty => pure ty
  | none => do
      let argTys ← checkAll
      pure (.named name (argTys.map .type))

mutual

def checkExpr : Expr → Check Ty
  | ⟨.intLit _, _⟩ => pure (.prim .i64)
  | ⟨.floatLit _, _⟩ => pure (.prim .f64)
  | ⟨.boolLit _, _⟩ => pure (.prim .bool)
  | ⟨.strLit _, _⟩ => pure (.prim .str)
  | ⟨.nilLit, _⟩ => pure .unit
  | ⟨.keywordLit _, _⟩ => pure (.prim .str)
  | ⟨.symbolRef name, span⟩ => do
      let lookup ← Code.view TypeEnv.scoping
      Code.lift (symbolTy name span (lookup name))
  | ⟨.ite cond then_ else_, span⟩ => do
      let condTy ← checkExpr cond
      if condTy.eq (.prim .bool) then
        let thenTy ← checkExpr then_
        let elseTy ← checkExpr else_
        if thenTy.eq elseTy then pure thenTy
        else Code.lift (fail (.ifBranches thenTy elseTy) span)
      else Code.lift (fail .ifCondition cond.span)
  | ⟨.let bindings body, _⟩ => do
      Code.modifyEnv TypeEnv.pushScope
      checkLet bindings (checkExpr body)
  | ⟨.do exprs, _⟩ => checkSeq exprs .unit
  | ⟨.fnCall callee args, span⟩ => do
      let calleeTy ← checkExpr callee
      match calleeTy with
      | .func params ret =>
        if args.length = params.length then
          checkArgs args params
          pure ret
        else Code.lift (fail (.arity params.length args.length) span)
      | .typeVar _ =>
        Code.lift (checkMinArity callee args.length span)
        checkAnyArgs args
        pure tyWildcard
      | ty => Code.lift (fail (.notFunction ty) span)
  | ⟨.match scrutinee arms, span⟩ => do
      let scrutTy ← checkExpr scrutinee
      let resultTy ← checkArms arms scrutTy none
      match resultTy with
      | some ty => pure ty
      | none => Code.lift (fail .noArms span)
  | ⟨.lambda params body, _⟩ => do
      Code.modifyEnv TypeEnv.pushScope
      let paramTys ← bindLambdaParams ids params
      let bodyTy ← checkExpr body
      Code.modifyEnv TypeEnv.popScope
      pure (.func paramTys bodyTy)
  | ⟨.try inner, _⟩ => do
      let innerTy ← checkExpr inner
      Code.lift (tryType innerTy)
  | ⟨.variantCtor name args, span⟩ => do
      let lookup ← Code.view TypeEnv.scoping
      checkCtor name args.length span (checkArgs args) (checkAll args) (lookup name)
  | ⟨.structLit _ fields, _⟩ => do
      let fieldTys ← checkFields fields
      pure (.product fieldTys)
  | ⟨.listLit items, _⟩ =>
    match items with
    | [] => pure (.named "List" [.type tyWildcard])
    | first :: items => do
        let firstTy ← checkExpr first
        checkItems firstTy items
        pure (.named "List" [.type firstTy])
  | ⟨.forall _ _ _, _⟩ => pure (.prim .bool)
  | ⟨.exists _ _ _, _⟩ => pure (.prim .bool)

/-- The bindings of a `let` whose scope is open, then its body. -/
def checkLet : List LetBinding → Check Ty → Check Ty
  | [], body => do
      let bodyTy ← body
      Code.modifyEnv TypeEnv.popScope
      pure bodyTy
  | ⟨name, ty, value, span⟩ :: bindings, body => do
      let actual ← checkExpr value
      let declared ← Code.lift (resolve ids ty)
      if declared.isWildcard then
        bindName name actual
        checkLet bindings body
      else
        let fits ← Code.lift (compatible fuel actual declared)
        if fits then
          bindName name declared
          checkLet bindings body
        else
          Code.lift (report (.letBinding declared actual) span)
          Code.modifyEnv TypeEnv.popScope
          throw ()

/-- The type of the last expression. -/
def checkSeq : List Expr → Ty → Check Ty
  | [], ty => pure ty
  | e :: es, _ => do
      let ty ← checkExpr e
      checkSeq es ty

def checkArgs : List Expr → List Ty → Check Unit
  | arg :: args, paramTy :: params => do
      let argTy ← checkExpr arg
      Code.lift (checkAssignable fuel argTy paramTy arg.span)
      checkArgs args params
  | _, _ => pure ()

/-- Arguments whose types are of no matter; their errors are passed over. -/
def checkAnyArgs : List Expr → Check Unit
  | [] => pure ()
  | arg :: args => do
      let _ ← Code.attempt (checkExpr arg)
      checkAnyArgs args

def checkAll : List Expr → Check (List Ty)
  | [] => pure []
  | e :: es => do
      let ty ← checkExpr e
      let tys ← checkAll es
      pure (ty :: tys)

def checkFields : List FieldInit → Check (List TyField)
  | [] => pure []
  | ⟨key, value⟩ :: fields => do
      let ty ← checkExpr value
      let tys ← checkFields fields
      pure (⟨key, ty⟩ :: tys)

def checkItems (firstTy : Ty) : List Expr → Check Unit
  | [] => pure ()
  | item :: items => do
      let itemTy ← checkExpr item
      if itemTy.eq firstTy then checkItems firstTy items
      else Code.lift (fail (.listElements firstTy itemTy) item.span)

/-- One arm, in a scope of its own. -/
def checkArm : MatchArm → Ty → Check Ty
  | ⟨pattern, body, _⟩, scrutTy => do
      Code.modifyEnv TypeEnv.pushScope
      checkPattern fuel pattern scrutTy
      let armTy ← checkExpr body
      Code.modifyEnv TypeEnv.popScope
      pure armTy

/-- The arms, with the type of those before. -/
def checkArms : List MatchArm → Ty → Option Ty → Check (Option Ty)
  | [], _, resultTy => pure resultTy
  | arm :: arms, scrutTy, resultTy => do
      let armTy ← checkArm arm scrutTy
      match resultTy with
      | some prev =>
        if armTy.eq prev then checkArms arms scrutTy (some prev)
        else Code.lift (fail (.matchArms prev armTy) arm.span)
      | none => checkArms arms scrutTy (some armTy)

end

/-! ## Definitions -/

def bindParams : List Param → Check (List Ty)
  | [] => pure []
  | p :: ps => do
      let ty ← Code.lift (resolve ids p.ty)
      bindName p.name ty
      let tys ← bindParams ps
      return ty :: tys

/-- The clauses of one kind; an error in one is passed over. -/
def checkClauses (clause : String) : List Expr → Check Unit
  | [] => pure ()
  | e :: es => do
      let result ← Code.attempt (checkExpr ids fuel e)
      Code.lift (checkClauseTy clause e.span result)
      checkClauses clause es

/-- `check_fn` up to the end of its scope. -/
def checkFnScope (f : FnDef) : Check Ty := do
  Code.modifyEnv TypeEnv.pushScope
  let paramTys ← bindParams ids f.params
  let declaredRet ← Code.lift (resolve ids f.returnType)
  checkClauses ids fuel ":requires" f.requires
  let preliminaryRet :=
    if declaredRet.isWildcard then .typeVar ("__ret_" ++ f.name) else declaredRet
  bindName f.name (.func paramTys preliminaryRet)
  let bodyTy ← checkExpr ids fuel f.body
  Code.lift (checkAssignable fuel bodyTy declaredRet f.body.span)
  bindName "result" declaredRet
  checkClauses ids fuel ":ensures" f.ensures
  checkClauses ids fuel ":invariants" f.invariants
  Code.modifyEnv TypeEnv.popScope
  return .func paramTys declaredRet

def checkFn (f : FnDef) : Check Ty := do
  let fnTy ← checkFnScope ids fuel f
  bindName f.name fnTy
  return fnTy

mutual

def checkTopLevel : CheckedForm → Check Unit
  | .defn f => do
      let _ ← checkFn ids fuel f
      pure ()
  | .defType td => Code.lift (registerTypeDef ids td)
  | .module body => checkTopLevels body
  | .expr e => do
      let _ ← checkExpr ids fuel e
      pure ()
  | .define => pure ()
  | .task => pure ()
  | .useDecl => pure ()
  | .externC decl => do
      let fnTy ← Code.lift (externTy ids decl)
      bindName decl.cName fnTy
  | .import_ => pure ()

def checkTopLevels : List CheckedForm → Check Unit
  | [] => pure ()
  | form :: forms => do
      checkTopLevel form
      checkTopLevels forms

end

end Check

end Checker

end Airl
