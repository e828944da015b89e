import Airl.Ir.Eval

/-! # Guarded evaluation

The reference evaluator with a guard before every step at which compiled code
does something else; there the guarded evaluator departs. What the guards read
are static facts of the position: the names for which the compiler still has a
register, the registers in use above the destination, the function a tail call
would restart, and whether the machine evaluates the body inline. Where no
guard fires the two evaluators agree.
-/

namespace Airl

/-! ## Static facts of a node -/

mutual

/-- The names a node rebinds, for which the compiler has no register afterwards:
it removes them instead of restoring what they meant before. -/
def lost : IRNode → List String
  | .ite cond then_ else_ => lost cond ++ lost then_ ++ lost else_
  | .do exprs => lostList exprs
  | .let bindings body => lostBindings bindings ++ lost body
  | .call _ args => lostList args
  | .callExpr callee args => lost callee ++ lostList args
  | .list items => lostList items
  | .variant _ args => lostList args
  | .match scrutinee arms => lost scrutinee ++ lostArms arms
  | .try expr => lost expr
  | _ => []

def lostList : List IRNode → List String
  | [] => []
  | node :: nodes => lost node ++ lostList nodes

def lostBindings : List IRBinding → List String
  | [] => []
  | ⟨name, expr⟩ :: bindings => lost expr ++ name :: lostBindings bindings

def lostArms : List IRArm → List String
  | [] => []
  | ⟨pattern, body⟩ :: arms => pattern.bindings ++ lost body ++ lostArms arms

end

/-- The registers a node still occupies when it is done: a call of an expression
keeps its callee's, and a conditional those of both branches. -/
def leak : IRNode → Nat
  | .callExpr callee _ => 1 + leak callee
  | .ite _ then_ else_ => leak then_ + leak else_
  | _ => 0

mutual

/-- The registers that binding a pattern occupies. -/
def patternRegs : IRPattern → Nat
  | .variant _ subPats => 1 + fieldsRegs subPats
  | _ => 0

/-- The registers that binding the payload of a matched variant occupies. -/
def fieldsRegs : List IRPattern → Nat
  | [] => 0
  | [pat] => patternRegs pat
  | pat :: pat' :: pats => multiFieldRegs (pat :: pat' :: pats)

def multiFieldRegs : List IRPattern → Nat
  | [] => 0
  | pat :: pats => fieldRegs pat + multiFieldRegs pats

def fieldRegs : IRPattern → Nat
  | .bind _ => 3
  | .variant _ nested => 4 + fieldsRegs nested
  | _ => 0

end

mutual

/-- The number of instructions of a node whose compiled form consists of the
instructions that the machine evaluates inline; `none` for every other node. -/
def inlineSize : IRNode → Option Nat
  | .int _ => some 1
  | .float _ => some 1
  | .str _ => some 1
  | .bool _ => some 1
  | .nil => some 1
  | .load _ => some 1
  | .func _ _ _ => some 1
  | .do [] => some 1
  | .do (expr :: exprs) => inlineSizeList (expr :: exprs)
  | .let bindings body => do return (← inlineSizeBindings bindings) + (← inlineSize body)
  | .list items => do return (← inlineSizeList items) + 1
  | .call name args =>
    if ((directOp name).isSome && args.length == 2) || (name == "not" && args.length == 1) then
      do return (← inlineSizeList args) + 1
    else none
  | .match scrutinee arms => do return (← inlineSize scrutinee) + (← inlineSizeArms arms)
  | _ => none

def inlineSizeList : List IRNode → Option Nat
  | [] => some 0
  | node :: nodes => do return (← inlineSize node) + (← inlineSizeList nodes)

def inlineSizeBindings : List IRBinding → Option Nat
  | [] => some 0
  | ⟨_, expr⟩ :: bindings => do return (← inlineSize expr) + (← inlineSizeBindings bindings)

def inlineSizeArms : List IRArm → Option Nat
  | [] => some 0
  | ⟨.bind _, body⟩ :: arms => do return (← inlineSize body) + (← inlineSizeArms arms)
  | _ => none

end

/-- The names a closure captures: the free variables of its lambda that were
in scope. -/
def Lambda.captureNames (code : Lambda) : List String :=
  (freeVars code.body code.params []).filter (· ∈ code.names)

/-- Whether `is_simple_closure` holds of the compiled lambda. -/
def Lambda.inlined (code : Lambda) : Bool :=
  decide (code.captureNames.length + code.params.length ≤ 8) &&
    match inlineSize code.body with
    | some size => decide (size + 1 ≤ 15)
    | none => false

/-- The function names the compiler makes up. -/
def reserved (name : String) : Bool :=
    name == "__main__" || "__lambda_".toList.isPrefixOf name.toList

/-! ## Inline arithmetic -/

mutual

/-- No map, function reference, partial application or native function occurs in the
value, so that both equality tests of the machine agree on it. -/
def plain : RefValue → Bool
  | .list items => plainList items
  | .variant _ inner => plain inner
  | .map _ => false
  | .partialApp _ _ _ => false
  | .builtinFn _ => false
  | .irFuncRef _ => false
  | .tuple _ => false
  | .intList _ => false
  | .bcFuncNative _ _ _ _ _ _ _ => false
  | _ => true

def plainList : List RefValue → Bool
  | [] => true
  | v :: vs => plain v && plainList vs

end

/-- The inline evaluator computes an operator as the main loop does. -/
def opAgrees : Op → RefValue → RefValue → Bool
  | .eq, x, y => plain x || plain y
  | .ne, x, y => plain x || plain y
  | .lt, .str _, .str _ => false
  | .le, .str _, .str _ => false
  | .gt, .str _, .str _ => false
  | .ge, .str _, .str _ => false
  | .mod, .int x, .int y => !(x == Int64.minValue && y == -1)
  | _, _, _ => true

def operatorAgrees (name : String) : List RefValue → Bool
  | [x, y] => match directOp name with
      | some op => opAgrees op x y
      | none => true
  | _ => true

/-! ## The position of a node -/

/-- What the guards know of the position of a node. -/
structure Site where
  /-- The names for which the compiler has a register. -/
  scope : String → Bool
  /-- How many registers above the destination are in use. -/
  gap : Nat
  /-- In tail position, the function that a self call restarts. -/
  self : Option String
  /-- The machine evaluates the code inline. -/
  inline : Bool

namespace Site

/-- A fresh destination above everything in use, not in tail position. -/
def temp (c : Site) : Site := { c with gap := 0, self := none }

def forget (c : Site) (names : List String) : Site :=
  { c with scope := fun x => c.scope x && !decide (x ∈ names) }

def bind (c : Site) (name : String) : Site :=
  { c with scope := fun x => x == name || c.scope x }

def bindAll (c : Site) (names : List String) : Site :=
  { c with scope := fun x => decide (x ∈ names) || c.scope x }

def grow (c : Site) (count : Nat) : Site := { c with gap := c.gap + count }

/-- The site after an expression with a destination of its own. -/
def after (c : Site) (node : IRNode) : Site := (c.forget (lost node)).grow (1 + leak node)

/-- The site of what follows the bindings of a `Let`. -/
def afterBindings (c : Site) : List IRBinding → Site
  | [] => c
  | ⟨name, expr⟩ :: bindings => ((c.after expr).bind name).afterBindings bindings

/-- The site of what follows the clauses of a contract. -/
def afterClauses (c : Site) : List Clause → Site
  | [] => c
  | clause :: clauses => (c.forget (lost clause.ir)).afterClauses clauses

end Site

/-- An item other than the last keeps registers, so that the compiled items do
not stand side by side. -/
def scattered (items : List IRNode) : Bool := items.dropLast.any fun node => leak node != 0

mutual

/-- The field indices of a pattern fit an `i64`. -/
def indexable : IRPattern → Bool
  | .variant _ subPats => decide (subPats.length < 0x8000000000000000) && indexableList subPats
  | _ => true

def indexableList : List IRPattern → Bool
  | [] => true
  | pat :: pats => indexable pat && indexableList pats

end

/-- The value carries the tag of the pattern. -/
def hasTag (tag : String) : RefValue → Bool
  | .variant tagName _ => tagName == tag
  | _ => false

namespace RefProgram

variable {World : Type} (P : RefProgram World)

/-- The call of a builtin tells what the machine has for a lambda. -/
def discloses (name : String) (args : List RefValue) : Bool :=
  (builtinPartial name args).isNone && P.isBuiltin name && !P.alike name args

/-- A call of a global name. Compiled code lets a builtin win over a user
function of its name and drops the arguments a user function has no parameter for. -/
def guardedNamed (enter : Bool → Target → List RefValue → World → Res World RefValue)
    (name : String) (args : List RefValue) (world : World) : Res World RefValue :=
  if reserved name then .departs
  else match P.functions name with
    | some func =>
      if (builtinPartial name args).isSome then .departs
      else if args.length < func.params.length then
        .ok (.partialApp (.irFuncRef name) args (func.params.length - args.length)) world
      else if func.params.length < args.length ∨ P.isBuiltin name then .departs
      else enter false (.named name func) args world
    | none =>
      if P.discloses name args then .departs
      else P.applyNamed (fun _ _ _ => .departs) name args world

/-- A partial application of a name, called. Compiled code does not count the arguments. -/
def guardedPartial (enter : Bool → Target → List RefValue → World → Res World RefValue)
    (name : String) (args : List RefValue) (world : World) : Res World RefValue :=
  if reserved name then .departs
  else match P.functions name with
    | some func =>
      if (builtinPartial name args).isSome ∨ P.isBuiltin name ∨
          args.length ≠ func.params.length then .departs
      else enter false (.named name func) args world
    | none =>
      if P.discloses name args then .departs
      else P.applyNamed (fun _ _ _ => .departs) name args world

/-- A call of a value. -/
def guardedValue (enter : Bool → Target → List RefValue → World → Res World RefValue) :
    RefValue → List RefValue → World → Res World RefValue
  | .bytecodeClosure code captured, args, world =>
    if args.length < code.params.length then
      .ok (.partialApp (.bytecodeClosure code captured) args
        (code.params.length - args.length)) world
    else if code.params.length < args.length then
      .err (.error (.custom "call: too many arguments"))
    else enter code.inlined (.closure code captured) args world
  | .partialApp (.bytecodeClosure code captured) capturedArgs _, args, world =>
    if (capturedArgs ++ args).length = code.params.length then
      enter false (.closure code captured) (capturedArgs ++ args) world
    else .departs
  | .partialApp (.irFuncRef name) capturedArgs _, args, world =>
    P.guardedPartial enter name (capturedArgs ++ args) world
  | .partialApp (.builtinFn name) capturedArgs _, args, world =>
    P.guardedPartial enter name (capturedArgs ++ args) world
  | .partialApp _ _ _, _, _ => .departs
  | .irFuncRef _, _, _ => .departs
  | .builtinFn _, _, _ => .departs
  | _, _, _ => .err (.error .notCallable)

/-- A self call in tail position restarts the body: it counts no arguments and
never comes back to the postconditions. -/
def guardedSelf (enter : Bool → Target → List RefValue → World → Res World RefValue)
    (name : String) (env : Env) (args : List RefValue) (world : World) : Res World RefValue :=
  if (env.lookup name).isSome ∨ (operator name args).isSome then .departs
  else match P.functions name with
    | some func =>
      if args.length = func.params.length ∧ func.contracts.invariants = [] ∧
          func.contracts.ensures = [] then enter false (.named name func) args world
      else .departs
    | none => .departs

/-- A call by name. Compiled code takes a known operator before anything else,
and knows only the local variables that still have a register. -/
def guardedCallName (enter : Bool → Target → List RefValue → World → Res World RefValue)
    (c : Site) (name : String) (env : Env) (args : List RefValue) (world : World) :
    Res World RefValue :=
  if reserved name then .departs
  else if c.self = some name then P.guardedSelf enter name env args world
  else match operator name args with
    | some r =>
      if c.scope name || (env.lookup name).isSome || (P.functions name).isSome ||
          (c.inline && !operatorAgrees name args) then .departs
      else .lift r world
    | none =>
      match env.lookup name with
      | some callee => if c.scope name then P.guardedValue enter callee args world else .departs
      | none => if c.scope name then .departs else P.guardedNamed enter name args world

mutual

/-- `eval` with its guards. -/
def guardedEval (enter : Bool → Target → List RefValue → World → Res World RefValue) :
    Site → IRNode → Env → World → Res World RefValue
  | _, .int v, _, world => .ok (.int v) world
  | _, .float bits, _, world => .ok (.float bits) world
  | _, .str v, _, world => .ok (.str v) world
  | _, .bool b, _, world => .ok (.bool b) world
  | _, .nil, _, world => .ok .nil world
  | c, .load name, env, world =>
    match env.lookup name with
    | some v => if c.scope name then .ok v world else .departs
    | none => .departs
  | c, .ite cond then_ else_, env, world =>
    (guardedEval enter c.temp cond env world).bind fun v world =>
      match v with
      | .bool false =>
        guardedEval enter ((c.forget (lost cond ++ lost then_)).grow (leak then_)) else_ env
          world
      | _ => guardedEval enter (c.forget (lost cond)) then_ env world
  | c, .do exprs, env, world => guardedDo enter c exprs env world
  | c, .let bindings body, env, world =>
    (guardedBindings enter c bindings env world).bind fun env world =>
      guardedEval enter (c.afterBindings bindings) body env world
  | _, .func _ _ _, _, world => .ok .nil world
  | c, .lambda params body, env, world =>
    if (freeVars body params []).any fun x => (env.lookup x).isSome && !c.scope x then .departs
    else .ok (.bytecodeClosure ⟨params, body, env.map Prod.fst⟩ (env.map Prod.snd)) world
  | c, .call name args, env, world =>
    (guardedArgs enter c args env world).bind fun vals world =>
      P.guardedCallName enter c name env vals world
  | c, .callExpr callee args, env, world =>
    (guardedEval enter c.temp callee env world).bind fun f world =>
      (guardedArgs enter (c.forget (lost callee)) args env world).bind fun vals world =>
        -- the first arguments would be moved over the callee
        if c.gap < args.length then .departs else P.guardedValue enter f vals world
  | c, .list items, env, world =>
    (guardedArgs enter c items env world).bind fun vals world =>
      if scattered items then .departs else .ok (.list vals) world
  | c, .variant tag args, env, world =>
    (guardedArgs enter c args env world).bind fun vals world =>
      if scattered args then .departs else .ok (.variant tag (payload vals)) world
  | c, .match scrutinee arms, env, world =>
    (guardedEval enter c.temp scrutinee env world).bind fun v world =>
      guardedArms enter (c.after scrutinee) arms v env world
  | c, .try expr, env, world =>
    (guardedEval enter c.temp expr env world).bind fun v world => .lift (tryUnwrap v) world

def guardedArgs (enter : Bool → Target → List RefValue → World → Res World RefValue) :
    Site → List IRNode → Env → World → Res World (List RefValue)
  | _, [], _, world => .ok [] world
  | c, arg :: args, env, world =>
    (guardedEval enter c.temp arg env world).bind fun v world =>
      (guardedArgs enter (c.forget (lost arg)) args env world).bind fun vals world =>
        .ok (v :: vals) world

def guardedDo (enter : Bool → Target → List RefValue → World → Res World RefValue) :
    Site → List IRNode → Env → World → Res World RefValue
  | _, [], _, world => .ok .nil world
  | c, [expr], env, world => guardedEval enter c expr env world
  | c, expr :: exprs, env, world =>
    (guardedEval enter c.temp expr env world).bind fun _ world =>
      guardedDo enter (c.after expr) exprs env world

def guardedBindings (enter : Bool → Target → List RefValue → World → Res World RefValue) :
    Site → List IRBinding → Env → World → Res World Env
  | _, [], env, world => .ok env world
  | c, ⟨name, expr⟩ :: bindings, env, world =>
    (guardedEval enter c.temp expr env world).bind fun v world =>
      guardedBindings enter ((c.after expr).bind name) bindings ((name, v) :: env) world

/-- A compiled arm tests the tag of its pattern only, a catch-all arm runs into
the arms after it, and no match is no error. -/
def guardedArms (enter : Bool → Target → List RefValue → World → Res World RefValue) :
    Site → List IRArm → RefValue → Env → World → Res World RefValue
  | _, [], _, _, _ => .departs
  | c, ⟨.wild, body⟩ :: arms, _, env, world =>
    if arms.isEmpty then guardedEval enter c body env world else .departs
  | c, ⟨.bind name, body⟩ :: arms, v, env, world =>
    if arms.isEmpty then guardedEval enter (c.bind name) body ((name, v) :: env) world
    else .departs
  | c, ⟨.lit val, body⟩ :: arms, v, env, world =>
    if v.rtValuesEqual val.toRt then guardedEval enter c body env world
    else guardedArms enter ((c.forget (lost body)).grow (leak body)) arms v env world
  | c, ⟨.variant tag subPats, body⟩ :: arms, v, env, world =>
    match matchPattern (.variant tag subPats) v with
    | some binds =>
      if indexable (.variant tag subPats) then
        guardedEval enter
          ((c.bindAll (IRPattern.bindingsList subPats)).grow (1 + fieldsRegs subPats)) body
          (binds ++ env) world
      else .departs
    | none =>
      if hasTag tag v then .departs
      else guardedArms enter (c.forget (IRPattern.bindingsList subPats ++ lost body)) arms v env
        world

end

def guardedClauses (enter : Bool → Target → List RefValue → World → Res World RefValue)
    (name : String) (kind : ContractKind) (env : Env) :
    Site → List Clause → World → Res World Unit
  | _, [], world => .ok () world
  | c, clause :: clauses, world =>
    (P.guardedEval enter c.temp clause.ir env world).bind fun v world =>
      match v with
      | .bool true => guardedClauses enter name kind env (c.forget (lost clause.ir)) clauses world
      | _ => .err (.error (.contractViolation name kind clause.source))

/-- The site of a function body before its preconditions are checked. -/
def entrySite (scope : String → Bool) (self : Option String) (inline : Bool) : Site :=
  { scope := scope, gap := 0, self := self, inline := inline }

/-- `activate` with its guards; the flag tells that the machine runs the body inline. -/
def guardedActivate (enter : Bool → Target → List RefValue → World → Res World RefValue) :
    Bool → Target → List RefValue → World → Res World RefValue
  | inline, .closure code captured, args, world =>
    let scope x := decide (x ∈ code.captureNames ++ code.params)
    P.guardedEval (if inline then fun _ _ _ _ => .departs else enter)
      (entrySite scope none inline) code.body (bindArgs code.params args ++ code.env captured)
      world
  | _, .named name func, args, world =>
    let env := bindArgs func.params args
    let c := entrySite (fun x => decide (x ∈ func.params)) (some name) false
    (P.guardedClauses enter name .requires env c func.contracts.requires world).bind
      fun _ world =>
        let c := c.afterClauses func.contracts.requires
        (P.guardedEval enter c func.body env world).bind fun result world =>
          let env := ("result", result) :: env
          let c := (c.forget (lost func.body)).bind "result"
          (P.guardedClauses enter name .invariant env c func.contracts.invariants world).bind
            fun _ world =>
              let c := c.afterClauses func.contracts.invariants
              (P.guardedClauses enter name .ensures env c func.contracts.ensures world).bind
                fun _ world => .ok result world

/-- `call` with its guards. -/
def guardedCall : Nat → Bool → Target → List RefValue → World → Res World RefValue
  | 0, _, _, _, _ => .timeout
  | depth + 1, inline, target, args, world =>
    P.guardedActivate (guardedCall depth) inline target args world

/-! ## The guarded evaluator departs or agrees -/

section Refines

open Transition (Outcome)

variable {P}
variable {enter' : Bool → Target → List RefValue → World → Res World RefValue}
  {enter : Target → List RefValue → World → Res World RefValue}
  (henter : ∀ inline target args world,
    (enter' inline target args world).Refines (enter target args world))

include henter

/-- Calling a named function departs or does the same. -/
theorem guardedNamed_refines (name : String) (args : List RefValue) (world : World) :
    (P.guardedNamed enter' name args world).Refines (P.applyNamed enter name args world) := by
  unfold guardedNamed
  split
  · exact .departs _
  · cases hfunc : P.functions name with
    | none =>
      simp only [applyNamed, hfunc]
      split
      · exact .departs _
      · exact .refl _
    | some func =>
      simp only [applyNamed, hfunc]
      split
      · exact .departs _
      split
      · exact .refl _
      split
      · exact .departs _
      · next hcount =>
          have hle : ¬ func.params.length < args.length := fun h => hcount (Or.inl h)
          rw [if_neg hle]
          exact henter _ _ _ _

/-- Calling a partially applied name departs or does the same. -/
theorem guardedPartial_refines (name : String) (args : List RefValue) (world : World) :
    (P.guardedPartial enter' name args world).Refines (P.applyNamed enter name args world) := by
  unfold guardedPartial
  split
  · exact .departs _
  · cases hfunc : P.functions name with
    | none =>
      simp only [applyNamed, hfunc]
      split
      · exact .departs _
      · exact .refl _
    | some func =>
      simp only [applyNamed, hfunc]
      split
      · exact .departs _
      · next hguard =>
          have hcount : args.length = func.params.length := by
            by_contra hne
            exact hguard (Or.inr (Or.inr hne))
          rw [if_neg (by omega), if_neg (by omega)]
          exact henter _ _ _ _

/-- Calling a value departs or does the same. -/
theorem guardedValue_refines (f : RefValue) (args : List RefValue) (world : World) :
    (P.guardedValue enter' f args world).Refines (P.applyValue enter f args world) := by
  unfold guardedValue
  split
  · simp only [applyValue]
    split
    · exact .refl _
    split
    · exact .refl _
    · exact henter _ _ _ _
  · simp only [applyValue]
    split
    · next hcount =>
        rw [if_neg (by omega), if_neg (by omega)]
        exact henter _ _ _ _
    · exact .departs _
  · simp only [applyValue]; exact guardedPartial_refines henter _ _ _
  · simp only [applyValue]; exact guardedPartial_refines henter _ _ _
  · exact .departs _
  · exact .departs _
  · exact .departs _
  · unfold applyValue
    split <;> first | exact .refl _ | simp_all

/-- A call of a name, however it is bound, departs or does the same. -/
theorem guardedCallName_refines
    (c : Site) (name : String) (env : Env) (args : List RefValue) (world : World) :
    (P.guardedCallName enter' c name env args world).Refines
      (P.applyCall enter name env args world) := by
  unfold guardedCallName applyCall
  split
  · exact .departs _
  split
  · unfold guardedSelf
    split
    · exact .departs _
    · next hguard =>
        obtain ⟨hlocal, hop⟩ : env.lookup name = none ∧ operator name args = none := by
          simpa only [not_or, Option.not_isSome_iff_eq_none] using hguard
        cases hfunc : P.functions name with
        | none => exact .departs _
        | some func =>
          simp only [hlocal, applyNamed, hfunc]
          split
          · next hall =>
              rw [if_neg (by omega), if_neg (by omega)]
              exact henter _ _ _ _
          · exact .departs _
  · cases hop : operator name args with
    | some r =>
      simp only
      split
      · exact .departs _
      · next hguard =>
          simp only [Bool.or_eq_true, not_or, Option.not_isSome_iff_eq_none] at hguard
          obtain ⟨⟨⟨-, hlocal⟩, hfunc⟩, -⟩ := hguard
          simp only [hlocal, hfunc]
          exact .refl _
    | none =>
      simp only
      cases hlocal : env.lookup name with
      | some callee =>
        simp only
        split
        · exact guardedValue_refines henter _ _ _
        · exact .departs _
      | none =>
        simp only
        split
        · exact .departs _
        · split
          · next h => exact absurd h (by simp)
          · exact guardedNamed_refines henter _ _ _

-- `henter` reaches the other members through `guardedEval_refines` only.
set_option linter.unusedSectionVars false in
mutual

/-- Evaluating a node departs or does the same, by induction on the node. -/
theorem guardedEval_refines : ∀ (node : IRNode) (c : Site) (env : Env) (world : World),
      (P.guardedEval enter' c node env world).Refines (P.eval enter node env world)
  | .int _, _, _, _ => .refl _
  | .float _, _, _, _ => .refl _
  | .str _, _, _, _ => .refl _
  | .bool _, _, _, _ => .refl _
  | .nil, _, _, _ => .refl _
  | .load name, c, env, world => by
    simp only [guardedEval, eval]
    cases env.lookup name with
    | none => exact .departs _
    | some v =>
      simp only
      split
      · exact .refl _
      · exact .departs _
  | .ite cond then_ else_, c, env, world => by
    simp only [guardedEval, eval]
    refine (guardedEval_refines cond _ env world).bind fun v world => ?_
    cases v with
    | bool b =>
      cases b with
      | false => exact guardedEval_refines else_ _ env world
      | true => exact guardedEval_refines then_ _ env world
    | _ => exact guardedEval_refines then_ _ env world
  | .do exprs, c, env, world => by
    simp only [guardedEval, eval]
    exact guardedDo_refines exprs c env world
  | .let bindings body, c, env, world => by
    simp only [guardedEval, eval]
    exact (guardedBindings_refines bindings c env world).bind fun env world =>
      guardedEval_refines body _ env world
  | .func _ _ _, _, _, _ => .refl _
  | .lambda params body, c, env, world => by
    simp only [guardedEval, eval]
    split
    · exact .departs _
    · exact .refl _
  | .call name args, c, env, world => by
    simp only [guardedEval, eval]
    exact (guardedArgs_refines args c env world).bind fun vals world =>
      guardedCallName_refines henter c name env vals world
  | .callExpr callee args, c, env, world => by
    simp only [guardedEval, eval]
    refine (guardedEval_refines callee _ env world).bind fun f world =>
      (guardedArgs_refines args _ env world).bind fun vals world => ?_
    split
    · exact .departs _
    · exact guardedValue_refines henter f vals world
  | .list items, c, env, world => by
    simp only [guardedEval, eval]
    refine (guardedArgs_refines items _ env world).bind fun vals world => ?_
    split
    · exact .departs _
    · exact .refl _
  | .variant tag args, c, env, world => by
    simp only [guardedEval, eval]
    refine (guardedArgs_refines args _ env world).bind fun vals world => ?_
    split
    · exact .departs _
    · exact .refl _
  | .match scrutinee arms, c, env, world => by
    simp only [guardedEval, eval]
    exact (guardedEval_refines scrutinee _ env world).bind fun v world =>
      guardedArms_refines arms _ v env world
  | .try expr, c, env, world => by
    simp only [guardedEval, eval]
    exact (guardedEval_refines expr _ env world).bind fun v world => .refl _

theorem guardedArgs_refines : ∀ (args : List IRNode) (c : Site) (env : Env) (world : World),
      (P.guardedArgs enter' c args env world).Refines (P.evalArgs enter args env world)
  | [], _, _, _ => .refl _
  | arg :: args, c, env, world => by
    simp only [guardedArgs, evalArgs]
    exact (guardedEval_refines arg _ env world).bind fun v world =>
      (guardedArgs_refines args _ env world).bind fun vals world => .refl _

theorem guardedDo_refines : ∀ (exprs : List IRNode) (c : Site) (env : Env) (world : World),
      (P.guardedDo enter' c exprs env world).Refines (P.evalDo enter exprs env world)
  | [], _, _, _ => .refl _
  | [expr], c, env, world => by
    simp only [guardedDo, evalDo]
    exact guardedEval_refines expr c env world
  | expr :: expr' :: exprs, c, env, world => by
    simp only [guardedDo, evalDo]
    exact (guardedEval_refines expr _ env world).bind fun _ world =>
      guardedDo_refines (expr' :: exprs) _ env world

theorem guardedBindings_refines :
    ∀ (bindings : List IRBinding) (c : Site) (env : Env) (world : World),
      (P.guardedBindings enter' c bindings env world).Refines
        (P.evalBindings enter bindings env world)
  | [], _, _, _ => .refl _
  | ⟨name, expr⟩ :: bindings, c, env, world => by
    simp only [guardedBindings, evalBindings]
    exact (guardedEval_refines expr _ env world).bind fun v world =>
      guardedBindings_refines bindings _ _ world

theorem guardedArms_refines :
    ∀ (arms : List IRArm) (c : Site) (v : RefValue) (env : Env) (world : World),
      (P.guardedArms enter' c arms v env world).Refines (P.evalArms enter arms v env world)
  | [], _, _, _, _ => .departs _
  | ⟨.wild, body⟩ :: arms, c, v, env, world => by
    simp only [guardedArms, evalArms, matchPattern]
    split
    · exact guardedEval_refines body c env world
    · exact .departs _
  | ⟨.bind name, body⟩ :: arms, c, v, env, world => by
    simp only [guardedArms, evalArms, matchPattern]
    split
    · exact guardedEval_refines body _ _ world
    · exact .departs _
  | ⟨.lit val, body⟩ :: arms, c, v, env, world => by
    simp only [guardedArms, evalArms, matchPattern]
    split
    · exact guardedEval_refines body c env world
    · exact guardedArms_refines arms _ v env world
  | ⟨.variant tag subPats, body⟩ :: arms, c, v, env, world => by
    simp only [guardedArms, evalArms]
    cases matchPattern (.variant tag subPats) v with
    | some binds =>
      simp only
      split
      · exact guardedEval_refines body _ _ world
      · exact .departs _
    | none =>
      simp only
      split
      · exact .departs _
      · exact guardedArms_refines arms _ v env world

end

/-- Checking a list of clauses departs or does the same. -/
theorem guardedClauses_refines
    (name : String) (kind : ContractKind) (env : Env) (clauses : List Clause) (c : Site)
    (world : World) :
    (P.guardedClauses enter' name kind env c clauses world).Refines
      (P.checkClauses enter name kind env clauses world) := by
  induction clauses generalizing c world with
  | nil => exact .refl _
  | cons clause clauses ih =>
    simp only [guardedClauses, checkClauses]
    refine (guardedEval_refines henter clause.ir _ env world).bind fun v world => ?_
    cases v with
    | bool b =>
      cases b with
      | false => exact .refl _
      | true => exact ih _ world
    | _ => exact .refl _

/-- An activation departs or does the same. -/
theorem guardedActivate_refines
    (inline : Bool) (target : Target) (args : List RefValue) (world : World) :
    (P.guardedActivate enter' inline target args world).Refines
      (P.activate enter target args world) := by
  cases target with
  | closure code captured =>
    simp only [guardedActivate, activate]
    refine guardedEval_refines (fun inline' target args world => ?_) code.body _ _ world
    cases inline with
    | true => exact .departs _
    | false => exact henter inline' target args world
  | named name func =>
    simp only [guardedActivate, activate]
    exact (guardedClauses_refines henter _ _ _ _ _ world).bind fun _ world =>
      (guardedEval_refines henter func.body _ _ world).bind fun result world =>
        (guardedClauses_refines henter _ _ _ _ _ world).bind fun _ world =>
          (guardedClauses_refines henter _ _ _ _ _ world).bind fun _ world => .refl _

end Refines

/-- At every depth of calls the guarded evaluator departs or does the same. -/
theorem guardedCall_refines (depth : Nat) (inline : Bool) (target : Target)
    (args : List RefValue) (world : World) :
    (P.guardedCall depth inline target args world).Refines (P.call depth target args world) := by
  induction depth generalizing inline target args world with
  | zero => exact .refl _
  | succ depth ih => exact guardedActivate_refines ih inline target args world

end RefProgram

end Airl
