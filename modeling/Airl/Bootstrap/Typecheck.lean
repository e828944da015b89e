import Mathlib.Data.Finset.Insert
import Mathlib.Logic.Function.Basic

/-! # The type checker of the self-hosted compiler

`bootstrap/types.airl` and `bootstrap/typecheck.airl`: the types, the environment and the registry,
the checks of expressions and of functions, and the two passes over a program.
-/

namespace Airl.Bootstrap.Typecheck

inductive Ty where
  | bool | i8 | i16 | i32 | i64 | u8 | u16 | u32 | u64 | f16 | f32 | f64 | bf16
  | nat | str | unit | never
  | list (elem : Ty)
  | var (name : String)
  | named (name : String) (args : List Ty)
  | func (params : List Ty) (ret : Ty)
  deriving BEq

def isIntType : Ty → Bool
  | .i8 | .i16 | .i32 | .i64 | .u8 | .u16 | .u32 | .u64 => true
  | _ => false

def isFloatType : Ty → Bool
  | .f16 | .f32 | .f64 | .bf16 => true
  | _ => false

/-- The keys of the registry, a map from `type:` and `ctor:` keys: nothing in the checker reads the
values. -/
abbrev Registry := Finset String

/-- The names that `resolve-type-name` compares with before it asks the registry. -/
def builtinTypes : List (String × Ty) :=
  [("bool", .bool), ("Bool", .bool), ("i8", .i8), ("i16", .i16), ("i32", .i32), ("i64", .i64),
    ("u8", .u8), ("u16", .u16), ("u32", .u32), ("u64", .u64), ("f16", .f16), ("f32", .f32),
    ("f64", .f64), ("bf16", .bf16), ("Nat", .nat), ("String", .str), ("Str", .str),
    ("Unit", .unit), ("Never", .never), ("List", .list (.var "_")), ("fn", .var "fn"),
    ("tensor", .var "tensor")]

def resolveTypeName (name : String) (registry : Registry) : Except String Ty :=
  match builtinTypes.lookup name with
  | some ty => .ok ty
  | none =>
    if name = "Any" then .error "type 'Any' is not a valid AIRL type - use a specific type"
    else if name ∈ registry then .ok (.named name [])
    else .error ("unknown type: " ++ name)

mutual

def typesCompatible (a b : Ty) : Bool :=
  a == b ||
    match a, b with
    | .var _, _ | _, .var _ => true
    | .never, _ | .unit, _ | _, .never | _, .unit => true
    | .list ea, .list eb => typesCompatible ea eb
    | .named na _, .named nb _ => na == nb
    | .func pa ra, .func pb rb =>
      pa.length == pb.length && typesCompatible ra rb && typesCompatibleLists pa pb
    | a, b => if isIntType a then isIntType b else isFloatType a && isFloatType b

def typesCompatibleLists : List Ty → List Ty → Bool
  | [], _ => true
  | _, [] => true
  | a :: as, b :: bs => typesCompatible a b && typesCompatibleLists as bs

end

abbrev Frame := String → Option Ty

/-- A list of frames, the top one first. -/
structure Env where
  top : Frame
  below : List Frame

def typeEnvNew : Env := ⟨fun _ => none, []⟩

def typeEnvPush (env : Env) : Env := ⟨fun _ => none, env.top :: env.below⟩

def typeEnvBind (env : Env) (name : String) (ty : Ty) : Env :=
  { env with top := Function.update env.top name (some ty) }

def typeEnvLookup (env : Env) (name : String) : Except String Ty :=
  match (env.top :: env.below).findSome? (· name) with
  | some ty => .ok ty
  | none => .error ("undefined symbol: " ++ name)

def registryAddType (reg : Registry) (name : String) : Registry := insert ("type:" ++ name) reg

def registryAddCtor (reg : Registry) (name : String) : Registry := insert ("ctor:" ++ name) reg

inductive Pattern where
  | wild
  | bind (name : String)
  | lit
  | variant (tag : String) (subPats : List Pattern)

mutual

/-- Expressions, without their positions and the values of literals. -/
inductive Ast where
  | int | float | str | bool | nil | keyword
  | symbol (name : String)
  | ite (cond thenExpr elseExpr : Ast)
  | let (bindings : List Binding) (body : Ast)
  | do (exprs : List Ast)
  | call (callee : Ast) (args : List Ast)
  | list (items : List Ast)
  | variant (name : String) (args : List Ast)
  | lambda (params : List String) (body : Ast)
  | match (scrutinee : Ast) (arms : List Arm)
  | try (expr : Ast)
  /-- Any other node, which `check-expr` does not know. -/
  | other

structure Binding where
  name : String
  typeName : String
  valExpr : Ast

structure Arm where
  pattern : Pattern
  body : Ast

end

structure Param where
  name : String
  typeName : String

structure Sig where
  params : List Param
  retName : String

/-- An `ASTDefn`; `sig` is none for a node that is no `ASTSig`. The contracts are not checked. -/
structure Defn where
  name : String
  sig : Option Sig
  body : Ast

/-- The body of a `deftype`; the checker reads neither the fields nor their types. -/
inductive TypeBody where
  | sum (variants : List String)
  | product
  | other

inductive Top where
  | defn (d : Defn)
  | deftype (name : String) (body : TypeBody)
  | expr (node : Ast)

def checkArgTypes : List Ty → List Ty → Bool
  | [], _ => true
  | _, [] => true
  | a :: actual, e :: expected => typesCompatible a e && checkArgTypes actual expected

def bindLambdaParams (env : Env) (params : List String) : Env :=
  params.foldl (fun env p => typeEnvBind env p (.var p)) env

mutual

def bindPatternVars (env : Env) : Pattern → Ty → Env
  | .wild, _ => env
  | .bind name, scrTy => typeEnvBind env name scrTy
  | .lit, _ => env
  | .variant _ subPats, _ => bindVariantPatternVars env subPats

def bindVariantPatternVars (env : Env) : List Pattern → Env
  | [] => env
  | p :: rest => bindVariantPatternVars (bindPatternVars env p (.var "_")) rest

end

mutual

def checkExpr (env : Env) (reg : Registry) : Ast → Except String Ty
  | .int => .ok .i64
  | .float => .ok .f64
  | .str => .ok .str
  | .bool => .ok .bool
  | .nil => .ok .unit
  | .keyword => .ok .str
  | .symbol name => typeEnvLookup env name
  | .ite cond thenExpr elseExpr => do
      let condTy ← checkExpr env reg cond
      if typesCompatible condTy .bool then
        let thenTy ← checkExpr env reg thenExpr
        let elseTy ← checkExpr env reg elseExpr
        if typesCompatible thenTy elseTy then .ok thenTy
        else .error "if branches have incompatible types"
      else .error "if condition must be Bool"
  | .let bindings body => do
      let boundEnv ← checkLetBindings (typeEnvPush env) reg bindings
      checkExpr boundEnv reg body
  | .do exprs => checkDoExprs env reg exprs
  | .call callee args => do
      match ← checkExpr env reg callee with
      | .func paramTys retTy =>
        let argTys ← checkArgsAcc env reg args []
        -- a function without parameters takes any number of arguments
        if paramTys.isEmpty then .ok retTy
        else if argTys.length = paramTys.length then
          if checkArgTypes argTys paramTys then .ok retTy
          else .error "argument type mismatch in function call"
        else .error ("wrong number of arguments: expected " ++ toString paramTys.length ++
          ", got " ++ toString argTys.length)
      | .var _ =>
        let _ ← checkArgsAcc env reg args []
        .ok (.var "result")
      | _ => .error "calling a non-function"
  | .list items =>
    if items.isEmpty then .ok (.list (.var "_"))
    else do
      let itemTys ← checkArgsAcc env reg items []
      .ok (.list (itemTys.headD (.var "_")))
  | .variant name args => do
      let _ ← checkArgsAcc env reg args []
      .ok (.var name)
  | .lambda params body => do
      let bodyTy ← checkExpr (bindLambdaParams (typeEnvPush env) params) reg body
      .ok (.func (params.map fun _ => .var "_") bodyTy)
  | .match scrutinee arms => do
      let scrTy ← checkExpr env reg scrutinee
      checkMatchArms env reg scrTy arms
  | .try expr => do
      let _ ← checkExpr env reg expr
      .ok (.var "unwrapped")
  | .other => .error "check-expr: unknown node type"

def checkLetBindings (env : Env) (reg : Registry) : List Binding → Except String Env
  | [] => .ok env
  | ⟨name, typeName, valExpr⟩ :: rest => do
      let valTy ← checkExpr env reg valExpr
      let declaredTy ← resolveTypeName typeName reg
      if typesCompatible valTy declaredTy then
        checkLetBindings (typeEnvBind env name declaredTy) reg rest
      else .error ("let binding '" ++ name ++
        "': value type incompatible with declared type " ++ typeName)

def checkDoExprs (env : Env) (reg : Registry) : List Ast → Except String Ty
  | [] => .ok .unit
  | e :: rest => do
      let ty ← checkExpr env reg e
      if rest.isEmpty then .ok ty else checkDoExprs env reg rest

def checkArgsAcc (env : Env) (reg : Registry) : List Ast → List Ty → Except String (List Ty)
  | [], acc => .ok acc.reverse
  | a :: rest, acc => do
      let ty ← checkExpr env reg a
      checkArgsAcc env reg rest (ty :: acc)

def checkMatchArms (env : Env) (reg : Registry) (scrTy : Ty) : List Arm → Except String Ty
  | [] => .error "non-exhaustive match"
  | ⟨pattern, body⟩ :: rest => do
      let armTy ← checkExpr (bindPatternVars (typeEnvPush env) pattern scrTy) reg body
      if rest.isEmpty then .ok armTy
      else
        let restTy ← checkMatchArms env reg scrTy rest
        if typesCompatible armTy restTy then .ok armTy else .ok (.var "match-result")

end

def bindFnParams (env : Env) (reg : Registry) : List Param → List Ty → Except String (Env × List Ty)
  | [], acc => .ok (env, acc.reverse)
  | p :: rest, acc => do
      let ty ← resolveTypeName p.typeName reg
      bindFnParams (typeEnvBind env p.name ty) reg rest (ty :: acc)

def checkFn (d : Defn) (env : Env) (reg : Registry) : Except String (Ty × Env) :=
  match d.sig with
  | none => .error "defn requires a sig"
  | some sig => do
      let (fnEnv, paramTys) ← bindFnParams (typeEnvPush env) reg sig.params []
      let retTy ← resolveTypeName sig.retName reg
      let fnTy := .func paramTys retTy
      -- the name for recursion, and `result` for the postconditions
      let fnEnv := typeEnvBind (typeEnvBind fnEnv d.name fnTy) "result" retTy
      match checkExpr fnEnv reg d.body with
      | .error e => .error ("in function '" ++ d.name ++ "': " ++ e)
      | .ok bodyTy =>
        if typesCompatible bodyTy retTy then .ok (fnTy, typeEnvBind env d.name fnTy)
        else .error ("function '" ++ d.name ++
          "': body type incompatible with declared return type")

def registerSumCtors (variants : List String) (reg : Registry) : Registry :=
  variants.foldl registryAddCtor reg

def registerDeftype (name : String) (body : TypeBody) (reg : Registry) : Registry :=
  let reg := registryAddType reg name
  match body with
  | .sum variants => registerSumCtors variants reg
  | .product => registryAddCtor reg name
  | .other => reg

def makePreludeRegistry : Registry :=
  let reg := registryAddType ∅ "Result"
  let reg := registryAddCtor reg "Ok"
  let reg := registryAddCtor reg "Err"
  let reg := registryAddType reg "Option"
  let reg := registryAddCtor reg "Some"
  registryAddCtor reg "None"

def checkTopLevel (node : Top) (env : Env) (reg : Registry) :
    Except String (Ty × Env × Registry) :=
  match node with
  | .defn d => do
      let (fnTy, env) ← checkFn d env reg
      .ok (fnTy, env, reg)
  | .deftype name body => .ok (.unit, env, registerDeftype name body reg)
  | .expr e => do
      let ty ← checkExpr env reg e
      .ok (ty, env, reg)

def bindFnParamTypes (reg : Registry) : List Param → List Ty → Except String (List Ty)
  | [], acc => .ok acc.reverse
  | p :: rest, acc => do
      let ty ← resolveTypeName p.typeName reg
      bindFnParamTypes reg rest (ty :: acc)

def registerFnSig (node : Top) (env : Env) (reg : Registry) : Except String (Env × Registry) :=
  match node with
  | .defn ⟨name, some sig, _⟩ => do
      let paramTys ← bindFnParamTypes reg sig.params []
      let retTy ← resolveTypeName sig.retName reg
      .ok (typeEnvBind env name (.func paramTys retTy), reg)
  | .defn ⟨_, none, _⟩ => .ok (env, reg)
  | .deftype name body => .ok (env, registerDeftype name body reg)
  | .expr _ => .ok (env, reg)

def registerAllTopLevels : List Top → Env → Registry → Except String (Env × Registry)
  | [], env, reg => .ok (env, reg)
  | node :: rest, env, reg => do
      let (env, reg) ← registerFnSig node env reg
      registerAllTopLevels rest env reg

def checkAllTopLevelsAcc : List Top → Env → Registry → List String → Except String Env
  | [], env, _, errors =>
    if errors.isEmpty then .ok env else .error ("; ".intercalate errors)
  | node :: rest, env, reg, errors =>
    match checkTopLevel node env reg with
    | .error e => checkAllTopLevelsAcc rest env reg (errors ++ [e])
    | .ok (_, env, reg) => checkAllTopLevelsAcc rest env reg errors

def typeCheckProgram (nodes : List Top) (env : Env) (reg : Registry) : Except String Env := do
  let (env, reg) ← registerAllTopLevels nodes env reg
  checkAllTopLevelsAcc nodes env reg []

end Airl.Bootstrap.Typecheck
