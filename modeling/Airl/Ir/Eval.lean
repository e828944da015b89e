import Airl.Ir.Syntax
import Airl.Bytecode.Instruction
import Airl.Runtime.Builtins
import Airl.Library.Simulation

/-! # Reference evaluation of the intermediate representation

A big-step evaluator with lexical scoping: a closure keeps its whole
environment, arguments are evaluated left to right, a `Match` runs its first
matching arm, and a self call in tail position is an ordinary call. Calls are
bounded by a number of nested activations; nothing else is.
-/

namespace Airl

/-- The code of a reference closure: its lambda, and the names of the
environment whose values it has captured. -/
structure Lambda where
  params : List String
  body : IRNode
  names : List String

abbrev RefValue := Value Lambda

/-- Bindings, the innermost first. -/
abbrev Env := List (String × RefValue)

/-- `departs` is never produced by the reference evaluator itself: it marks, in
the guarded evaluator, a step at which compiled code does something else. -/
abbrev Res (World α : Type) := Transition.Outcome Fault World α

/-- A function definition with the contract clauses that are checked at run time. -/
structure FuncDef where
  params : List String
  body : IRNode
  contracts : Contracts

/-- What a reference run depends on. -/
structure RefProgram (World : Type) where
  functions : String → Option FuncDef
  builtins : Builtins Lambda World
  /-- Whether a builtin does with these arguments what it does with machine values. It may not where
  it shows or keeps what the machine has for a lambda. The reference evaluator does not ask. -/
  alike : String → List RefValue → Bool := fun _ _ => true

/-- A user function under its name, or a closure. -/
inductive Target where
  | named (name : String) (func : FuncDef)
  | closure (code : Lambda) (captured : List RefValue)

def Target.params : Target → List String
  | .named _ func => func.params
  | .closure code _ => code.params

def Lambda.env (code : Lambda) (captured : List RefValue) : Env := code.names.zip captured

/-- Parameters bound to arguments; among equal names the last one counts. -/
def bindArgs (params : List String) (args : List RefValue) : Env := (params.zip args).reverse

mutual

/-- The bindings of a pattern that matches a value. A nullary variant carries
nil, a variant with several fields a list of them. -/
def matchPattern : IRPattern → RefValue → Option Env
  | .wild, _ => some []
  | .bind name, v => some [(name, v)]
  | .lit c, v => if v.rtValuesEqual c.toRt then some [] else none
  | .variant tag subPats, .variant tagName inner =>
    if tagName = tag then matchFields subPats inner else none
  | .variant _ _, _ => none

def matchFields : List IRPattern → RefValue → Option Env
  | [], .nil => some []
  | [], _ => none
  | [pat], inner => matchPattern pat inner
  | pat :: pat' :: pats, .list items => matchEach (pat :: pat' :: pats) items
  | _ :: _ :: _, _ => none

def matchEach : List IRPattern → List RefValue → Option Env
  | [], [] => some []
  | pat :: pats, item :: items =>
    match matchPattern pat item, matchEach pats items with
    | some first, some rest => some (rest ++ first)
    | _, _ => none
  | _, _ => none

end

/-- A variant pattern matches a variant of its tag whose fields match. -/
theorem matchPattern_variant {tag : String} {subPats : List IRPattern} {v : RefValue} {binds : Env}
    (h : matchPattern (.variant tag subPats) v = some binds) :
    ∃ inner, v = .variant tag inner ∧ matchFields subPats inner = some binds := by
  cases v with
  | variant tagName inner =>
    simp only [matchPattern] at h
    split at h
    · next heq => exact ⟨inner, by rw [heq], h⟩
    · exact absurd h (by simp)
  | _ => simp [matchPattern] at h

namespace RefProgram

variable {World : Type} (P : RefProgram World)

/-- The names that denote a builtin. -/
def isBuiltin (name : String) : Bool :=
  P.builtins.known name || name == "thread-spawn" || name == "fn-metadata"

/-- A call of a builtin by name. -/
def dispatch (name : String) (args : List RefValue) (world : World) : Res World RefValue :=
  if name = "thread-spawn" then .ofPair (P.builtins.threadSpawn args world)
  else if name = "fn-metadata" then .ofPair (P.builtins.fnMetadata args world)
  else if P.builtins.known name then .ofPair (P.builtins.dispatch name args world)
  else .err (.error (.undefinedSymbol name))

/-- A call of a global name: a user definition wins over a builtin; too few
arguments make a partial application, too many are an error. -/
def applyNamed (enter : Target → List RefValue → World → Res World RefValue) (name : String)
    (args : List RefValue) (world : World) : Res World RefValue :=
  match P.functions name with
  | some func =>
    if args.length < func.params.length then
      .ok (.partialApp (.irFuncRef name) args (func.params.length - args.length)) world
    else if func.params.length < args.length then
      .err (.error (.custom "call: too many arguments"))
    else enter (.named name func) args world
  | none =>
    match builtinPartial name args with
    | some p => .ok p world
    | none => P.dispatch name args world

/-- A call of a value. -/
def applyValue (enter : Target → List RefValue → World → Res World RefValue) :
    RefValue → List RefValue → World → Res World RefValue
  | .bytecodeClosure code captured, args, world =>
    if args.length < code.params.length then
      .ok (.partialApp (.bytecodeClosure code captured) args
        (code.params.length - args.length)) world
    else if code.params.length < args.length then
      .err (.error (.custom "call: too many arguments"))
    else enter (.closure code captured) args world
  | .irFuncRef name, args, world => P.applyNamed enter name args world
  | .builtinFn name, args, world => P.applyNamed enter name args world
  | .partialApp func capturedArgs _, args, world =>
    applyValue enter func (capturedArgs ++ args) world
  | _, _, _ => .err (.error .notCallable)

/-- A known operator applied to its operands. -/
def operator : String → List RefValue → Option (Except Fault RefValue)
  | name, [x, y] => (directOp name).map fun op => binaryOp op x y
  | "not", [x] => some x.not
  | _, _ => none

/-- A call by name: the local variable, the user function, the operator, the builtin. -/
def applyCall (enter : Target → List RefValue → World → Res World RefValue) (name : String)
    (env : Env) (args : List RefValue) (world : World) : Res World RefValue :=
  match env.lookup name with
  | some callee => P.applyValue enter callee args world
  | none =>
    match P.functions name, operator name args with
    | none, some r => .lift r world
    | _, _ => P.applyNamed enter name args world

/-- A global name as a value. -/
def globalValue (name : String) : Except Fault RefValue :=
  if (P.functions name).isSome || P.isBuiltin name || (builtinArity name).isSome then
    .ok (.irFuncRef name)
  else .error (.error (.undefinedSymbol name))

/-- The payload of a variant with the given fields. -/
def payload : List RefValue → RefValue
  | [] => .nil
  | [x] => x
  | xs => .list xs

/-- `try`. -/
def tryUnwrap : RefValue → Except Fault RefValue
  | .variant "Ok" inner => .ok inner
  | .variant "Err" _ => .error (.error .tryErr)
  | _ => .error (.error .tryOnNonResult)

mutual

/-- The value of an expression; `enter` runs the body of a call. -/
def eval (enter : Target → List RefValue → World → Res World RefValue) :
    IRNode → Env → World → Res World RefValue
  | .int v, _, world => .ok (.int v) world
  | .float bits, _, world => .ok (.float bits) world
  | .str v, _, world => .ok (.str v) world
  | .bool b, _, world => .ok (.bool b) world
  | .nil, _, world => .ok .nil world
  | .load name, env, world =>
    match env.lookup name with
    | some v => .ok v world
    | none => .lift (P.globalValue name) world
  | .ite cond then_ else_, env, world =>
    (eval enter cond env world).bind fun c world =>
      match c with
      | .bool false => eval enter else_ env world
      | _ => eval enter then_ env world
  | .do exprs, env, world => evalDo enter exprs env world
  | .let bindings body, env, world =>
    (evalBindings enter bindings env world).bind fun env world => eval enter body env world
  | .func _ _ _, _, world => .ok .nil world
  | .lambda params body, env, world =>
    .ok (.bytecodeClosure ⟨params, body, env.map Prod.fst⟩ (env.map Prod.snd)) world
  | .call name args, env, world =>
    (evalArgs enter args env world).bind fun vals world => P.applyCall enter name env vals world
  | .callExpr callee args, env, world =>
    (eval enter callee env world).bind fun f world =>
      (evalArgs enter args env world).bind fun vals world => P.applyValue enter f vals world
  | .list items, env, world =>
    (evalArgs enter items env world).bind fun vals world => .ok (.list vals) world
  | .variant tag args, env, world =>
    (evalArgs enter args env world).bind fun vals world => .ok (.variant tag (payload vals)) world
  | .match scrutinee arms, env, world =>
    (eval enter scrutinee env world).bind fun v world => evalArms enter arms v env world
  | .try expr, env, world =>
    (eval enter expr env world).bind fun v world => .lift (tryUnwrap v) world

def evalArgs (enter : Target → List RefValue → World → Res World RefValue) :
    List IRNode → Env → World → Res World (List RefValue)
  | [], _, world => .ok [] world
  | arg :: args, env, world =>
    (eval enter arg env world).bind fun v world =>
      (evalArgs enter args env world).bind fun vals world => .ok (v :: vals) world

def evalDo (enter : Target → List RefValue → World → Res World RefValue) :
    List IRNode → Env → World → Res World RefValue
  | [], _, world => .ok .nil world
  | [expr], env, world => eval enter expr env world
  | expr :: exprs, env, world =>
    (eval enter expr env world).bind fun _ world => evalDo enter exprs env world

def evalBindings (enter : Target → List RefValue → World → Res World RefValue) :
    List IRBinding → Env → World → Res World Env
  | [], env, world => .ok env world
  | ⟨name, expr⟩ :: bindings, env, world =>
    (eval enter expr env world).bind fun v world =>
      evalBindings enter bindings ((name, v) :: env) world

/-- The first arm whose pattern matches. -/
def evalArms (enter : Target → List RefValue → World → Res World RefValue) :
    List IRArm → RefValue → Env → World → Res World RefValue
  | [], _, _, _ => .err (.error .nonExhaustiveMatch)
  | ⟨pattern, body⟩ :: arms, v, env, world =>
    match matchPattern pattern v with
    | some binds => eval enter body (binds ++ env) world
    | none => evalArms enter arms v env world

end

/-- Check clauses in order; anything but `true` violates the contract. -/
def checkClauses (enter : Target → List RefValue → World → Res World RefValue) (name : String)
    (kind : ContractKind) (env : Env) : List Clause → World → Res World Unit
  | [], world => .ok () world
  | clause :: clauses, world =>
    (P.eval enter clause.ir env world).bind fun v world =>
      match v with
      | .bool true => checkClauses enter name kind env clauses world
      | _ => .err (.error (.contractViolation name kind clause.source))

/-- The activation of a function: its preconditions, its body, its invariants
and its postconditions, the last two with `result` bound. -/
def activate (enter : Target → List RefValue → World → Res World RefValue) :
    Target → List RefValue → World → Res World RefValue
  | .closure code captured, args, world =>
    P.eval enter code.body (bindArgs code.params args ++ code.env captured) world
  | .named name func, args, world =>
    let env := bindArgs func.params args
    (P.checkClauses enter name .requires env func.contracts.requires world).bind fun _ world =>
      (P.eval enter func.body env world).bind fun result world =>
        let env := ("result", result) :: env
        (P.checkClauses enter name .invariant env func.contracts.invariants world).bind
          fun _ world =>
            (P.checkClauses enter name .ensures env func.contracts.ensures world).bind
              fun _ world => .ok result world

/-- A call with at most `depth` nested activations. -/
def call : Nat → Target → List RefValue → World → Res World RefValue
  | 0, _, _, _ => .timeout
  | depth + 1, target, args, world => P.activate (call depth) target args world

section Calls

variable {P} {enter : Target → List RefValue → World → Res World RefValue} {name : String}
  {env : Env} {args : List RefValue}

/-- A name that is bound by nothing but a definition calls the definition. -/
theorem applyCall_function {func : FuncDef} (hlocal : env.lookup name = none)
    (hfunc : P.functions name = some func) (hcount : args.length = func.params.length)
    (world : World) :
    P.applyCall enter name env args world = enter (.named name func) args world := by
  unfold applyCall applyNamed
  rw [hlocal, hfunc]
  dsimp only
  rw [if_neg (by omega), if_neg (by omega)]

/-- A name that is not defined may be an operator. -/
theorem applyCall_operator {r : Except Fault RefValue} (hlocal : env.lookup name = none)
    (hfunc : P.functions name = none) (hop : operator name args = some r) (world : World) :
    P.applyCall enter name env args world = .lift r world := by
  unfold applyCall
  rw [hlocal, hfunc, hop]

/-- A name that is neither is a builtin. -/
theorem applyCall_builtin (hlocal : env.lookup name = none) (hfunc : P.functions name = none)
    (hop : operator name args = none) (hfull : builtinPartial name args = none)
    (hspawn : name ≠ "thread-spawn") (hmeta : name ≠ "fn-metadata")
    (hknown : P.builtins.known name = true) (world : World) :
    P.applyCall enter name env args world = .ofPair (P.builtins.dispatch name args world) := by
  unfold applyCall applyNamed dispatch
  rw [hlocal, hfunc, hop]
  dsimp only
  rw [hfull]
  dsimp only
  rw [if_neg hspawn, if_neg hmeta, if_pos hknown]

/-- Without contracts an activation is the evaluation of the body. -/
theorem activate_uncontracted (params : List String) (body : IRNode) (world : World) :
    P.activate enter (.named name ⟨params, body, {}⟩) args world =
      P.eval enter body (bindArgs params args) world := by
  simp only [activate, checkClauses, Transition.Outcome.bind_ok, Transition.Outcome.bind_ok_self]

end Calls

end RefProgram

/-- The last definition of a name among the top-level nodes. -/
def lastDef (name : String) : List IRNode → Option (List String × IRNode)
  | [] => none
  | .func name' params body :: nodes =>
    (lastDef name nodes).orElse fun _ => if name' = name then some (params, body) else none
  | _ :: nodes => lastDef name nodes

/-- The clauses of a function that its compiled form checks: all of them, less
the ones proven statically, and none in a trusted function. -/
def checkedContracts (s : Contracts) (proven : String → Bool) (trusted : Bool) : Contracts :=
  if trusted then {}
  else
    { requires := s.requires
      ensures := s.ensures.filter fun clause => !proven clause.source
      invariants := s.invariants.filter fun clause => !proven clause.source }

/-- The reference program of a list of top-level nodes with their contracts. -/
def refProgram {World : Type} (nodes : List IRNode) (contracts : String → Option Contracts)
    (proven : String → String → Bool) (trusted : String → Bool)
    (builtins : Builtins Lambda World) (alike : String → List RefValue → Bool) :
    RefProgram World where
  functions name := (lastDef name nodes).map fun (params, body) =>
    { params := params
      body := body
      contracts := match contracts name with
        | some clauses => checkedContracts clauses (proven name) (trusted name)
        | none => {} }
  builtins := builtins
  alike := alike

end Airl
