import Airl.Types.Linearity
import Mathlib.Data.Set.Basic
import Mathlib.Logic.Relation

/-! # Branches and the variables they move

What a branch does to the variables around it, told without scopes that are pushed and popped: an
expression is walked with the states of the variables in scope, and what a binder binds is put back
to what it was when the binder's scope ends. The arms of the checker stand beside it.
-/

namespace Airl.LinearityChecker

/-- The state of each variable in scope. -/
abbrev Holdings := String → Option OwnershipState

def Holdings.introduce (σ : Holdings) (names : List String) : Holdings := fun name =>
  if name ∈ names then some .owned else σ name

/-- Outside a scope its names stand again for what they stood for before. -/
def Holdings.closing (inner : Holdings) (names : List String) (outer : Holdings) : Holdings :=
  fun name => if name ∈ names then outer name else inner name

/-- What becomes of an argument; an error leaves it as it is. -/
def passed (ownership : Ownership) (span : Span) : OwnershipState → OwnershipState
  | .owned =>
    match ownership with
    | .own => .moved span
    | .ref => .borrowed .immutable 1
    | .mut => .borrowed .mutable 1
    | .copy | .default => .owned
  | .borrowed .immutable count =>
    if ownership = .ref then .borrowed .immutable (count + 1) else .borrowed .immutable count
  | state => state

def Holdings.pass (σ : Holdings) (name : String) (ownership : Ownership) (span : Span) :
    Holdings := fun other =>
  if other = name then (σ name).map (passed ownership span) else σ other

/-- The variables that are moved after and were not before. -/
def movedBetween (before after : Holdings) : Set String :=
  {name | (∃ at_, after name = some (.moved at_)) ∧ ¬ ∃ at_, before name = some (.moved at_)}

mutual

def patternNames : Pattern → List String
  | ⟨.binding name, _⟩ => [name]
  | ⟨.variant _ subPats, _⟩ => patternsNames subPats
  | ⟨.wildcard, _⟩ => []
  | ⟨.literal _, _⟩ => []

def patternsNames : List Pattern → List String
  | [] => []
  | p :: ps => patternNames p ++ patternsNames ps

end

/-- The annotations of the functions that have been registered. -/
abbrev Ownerships := AList (fun _ : String => List Ownership)

section Walk

variable (fns : Ownerships)

def ownershipsOf (callee : Expr) : List Ownership :=
  match callee.kind with
  | .symbolRef name => (fns.lookup name).getD []
  | _ => []

mutual

/-- After branches it goes on with the branch the checker goes on with. -/
def walk : Expr → Holdings → Holdings
  | ⟨.fnCall callee args, _⟩, σ => walk callee (walkArgs args (ownershipsOf fns callee) σ)
  | ⟨.let bindings body, _⟩, σ => walkLet bindings (walk body) σ
  | ⟨.do exprs, _⟩, σ => walkAll exprs σ
  | ⟨.ite cond _ else_, _⟩, σ => walk else_ (walk cond σ)
  | ⟨.match scrutinee arms, _⟩, σ => (walkArms arms (walk scrutinee σ)).headD (walk scrutinee σ)
  | ⟨.lambda params body, _⟩, σ =>
    (walk body (σ.introduce (params.map Param.name))).closing (params.map Param.name) σ
  | ⟨.try inner, _⟩, σ => walk inner σ
  | ⟨.variantCtor _ args, _⟩, σ => walkAll args σ
  | ⟨.structLit _ fields, _⟩, σ => walkFields fields σ
  | ⟨.listLit items, _⟩, σ => walkAll items σ
  | ⟨.forall param guard body, _⟩, σ =>
    (walk body (walkGuard guard (σ.introduce [param.name]))).closing [param.name] σ
  | ⟨.exists param guard body, _⟩, σ =>
    (walk body (walkGuard guard (σ.introduce [param.name]))).closing [param.name] σ
  | _, σ => σ

def walkAll : List Expr → Holdings → Holdings
  | [], σ => σ
  | e :: es, σ => walkAll es (walk e σ)

def walkFields : List FieldInit → Holdings → Holdings
  | [], σ => σ
  | ⟨_, value⟩ :: fields, σ => walkFields fields (walk value σ)

def walkGuard : Option Expr → Holdings → Holdings
  | none, σ => σ
  | some guard, σ => walk guard σ

def walkLet : List LetBinding → (Holdings → Holdings) → Holdings → Holdings
  | [], body, σ => body σ
  | ⟨name, _, value, _⟩ :: bindings, body, σ =>
    (walkLet bindings body ((walk value σ).introduce [name])).closing [name] (walk value σ)

/-- The states after each arm. -/
def walkArms : List MatchArm → Holdings → List Holdings
  | [], _ => []
  | ⟨pattern, body, _⟩ :: arms, σ =>
    (walk body (σ.introduce (patternNames pattern))).closing (patternNames pattern) σ ::
      walkArms arms σ

def walkArgs : List Expr → List Ownership → Holdings → Holdings
  | [], _, σ => σ
  | arg :: args, ownerships, σ =>
    let σ := match arg.kind with
      | .symbolRef name => σ.pass name (ownerships.headD .default) arg.span
      | _ => walk arg σ
    walkArgs args ownerships.tail σ

end

/-- The states in the body of a `let`. -/
def walkBindings : List LetBinding → Holdings → Holdings
  | [], σ => σ
  | ⟨name, _, value, _⟩ :: bindings, σ =>
      walkBindings bindings ((walk fns value σ).introduce [name])

/-- Whether the names of `overlooked` that a scope binds anew are taken out. -/
def without (overlooked names : List String) : List String :=
  overlooked.filter fun name => name ∉ names

mutual

/-- No call passes a parameter of a lambda or of a quantifier where the callee owns or borrows.
`overlooked` are the names that stand for such a parameter. -/
def keepsParams : Expr → List String → Bool
  | ⟨.fnCall callee args, _⟩, overlooked =>
    keepsArgs args (ownershipsOf fns callee) overlooked && keepsParams callee overlooked
  | ⟨.let bindings body, _⟩, overlooked =>
    keepsBindings bindings overlooked &&
      keepsParams body (without overlooked (bindings.map LetBinding.name))
  | ⟨.do exprs, _⟩, overlooked => keepsAll exprs overlooked
  | ⟨.ite cond then_ else_, _⟩, overlooked =>
    keepsParams cond overlooked && keepsParams then_ overlooked && keepsParams else_ overlooked
  | ⟨.match scrutinee arms, _⟩, overlooked =>
    keepsParams scrutinee overlooked && keepsArms arms overlooked
  | ⟨.lambda params body, _⟩, overlooked =>
    keepsParams body (params.map Param.name ++ overlooked)
  | ⟨.try inner, _⟩, overlooked => keepsParams inner overlooked
  | ⟨.variantCtor _ args, _⟩, overlooked => keepsAll args overlooked
  | ⟨.structLit _ fields, _⟩, overlooked => keepsFields fields overlooked
  | ⟨.listLit items, _⟩, overlooked => keepsAll items overlooked
  | ⟨.forall param guard body, _⟩, overlooked =>
    keepsGuard guard (param.name :: overlooked) && keepsParams body (param.name :: overlooked)
  | ⟨.exists param guard body, _⟩, overlooked =>
    keepsGuard guard (param.name :: overlooked) && keepsParams body (param.name :: overlooked)
  | _, _ => true

def keepsAll : List Expr → List String → Bool
  | [], _ => true
  | e :: es, overlooked => keepsParams e overlooked && keepsAll es overlooked

def keepsFields : List FieldInit → List String → Bool
  | [], _ => true
  | ⟨_, value⟩ :: fields, overlooked =>
    keepsParams value overlooked && keepsFields fields overlooked

def keepsGuard : Option Expr → List String → Bool
  | none, _ => true
  | some guard, overlooked => keepsParams guard overlooked

def keepsBindings : List LetBinding → List String → Bool
  | [], _ => true
  | ⟨name, _, value, _⟩ :: bindings, overlooked =>
    keepsParams value overlooked && keepsBindings bindings (without overlooked [name])

def keepsArms : List MatchArm → List String → Bool
  | [], _ => true
  | ⟨pattern, body, _⟩ :: arms, overlooked =>
    keepsParams body (without overlooked (patternNames pattern)) && keepsArms arms overlooked

def keepsArgs : List Expr → List Ownership → List String → Bool
  | [], _, _ => true
  | arg :: args, ownerships, overlooked =>
    let kept := match arg.kind with
      | .symbolRef name =>
        match ownerships.headD .default with
        | .own | .ref | .mut => decide (name ∉ overlooked)
        | .copy | .default => true
      | _ => keepsParams arg overlooked
    kept && keepsArgs args ownerships.tail overlooked

end

/-- An arm of the checker: the state it is begun in and the state when it has ended. -/
structure ArmRun where
  start : LinearityChecker
  stop : LinearityChecker

/-- The arms of an `if`, from the state after its condition. -/
def iteRuns (then_ else_ : Expr) (tested : LinearityChecker) : List ArmRun :=
  let thenEnd := checkExpr then_ tested
  let elseStart := thenEnd.restore tested.snapshot
  [⟨tested, thenEnd⟩, ⟨elseStart, checkExpr else_ elseStart⟩]

def matchRuns : List MatchArm → LinearitySnapshot → LinearityChecker → List ArmRun
  | [], _, _ => []
  | ⟨pattern, body, _⟩ :: arms, snap, lc =>
    let start := lc.restore snap
    let stop := (checkExpr body (introducePattern pattern start.pushScope)).popScope
    ⟨start, stop⟩ :: matchRuns arms snap stop

/-- The same variables in the same states, in the same scopes. -/
structure SameState (a b : LinearityChecker) : Prop where
  shadow : b.shadow = a.shadow
  depth : b.depth = a.depth
  scopes : b.scopeBindings = a.scopeBindings

/-- Arms with a merge: `entered` is the checker before the arms and `after` the one after the merge;
`σ` and `arms` are the states before and after the arms by the walk. -/
structure PathExact (entered : LinearityChecker) (runs : List ArmRun) (after : LinearityChecker)
    (σ : Holdings) (arms : List Holdings) : Prop where
  /-- Each arm is checked, from the same state. -/
  count : runs.length = arms.length
  starts : ∀ run ∈ runs, SameState entered run.start
  /-- The merge complains just when two arms disagree on a variable. -/
  reports : after.diags ≠ ((runs.map ArmRun.stop).getLast?.getD entered).diags ↔
    ∃ a ∈ arms, ∃ b ∈ arms, ∃ name ∈ movedBetween σ a, name ∉ movedBetween σ b
  /-- Where it does not, what every arm moves has been moved. -/
  moved : after.diags = ((runs.map ArmRun.stop).getLast?.getD entered).diags →
    ∀ a ∈ arms, movedBetween entered.lookupState after.lookupState = movedBetween σ a
  /-- Every scope has been popped, in the arms and after them. -/
  armScopes : ∀ run ∈ runs,
    run.stop.depth = entered.depth ∧ run.stop.scopeBindings = entered.scopeBindings
  scopes : after.depth = entered.depth ∧ after.scopeBindings = entered.scopeBindings

/-- An expression with the checker and the variables where it is checked. -/
structure Point where
  expr : Expr
  checker : LinearityChecker
  holdings : Holdings

def PathExactAt (p : Point) : Prop :=
  match p.expr with
  | ⟨.ite cond then_ else_, _⟩ =>
    let tested := checkExpr cond p.checker
    let σ := walk fns cond p.holdings
    PathExact tested (iteRuns then_ else_ tested) (checkExpr p.expr p.checker) σ
      [walk fns then_ σ, walk fns else_ σ]
  | ⟨.match scrutinee arms, _⟩ =>
    let matched := checkExpr scrutinee p.checker
    let σ := walk fns scrutinee p.holdings
    PathExact matched (matchRuns arms matched.snapshot matched) (checkExpr p.expr p.checker) σ
      (walkArms fns arms σ)
  | _ => True

/-- From an expression to a part of it, in the state in which the checker comes to the part. -/
inductive Enters : Point → Point → Prop
  | arg {callee : Expr} {before after : List Expr} {arg : Expr} {span lc σ} :
      Enters ⟨⟨.fnCall callee (before ++ arg :: after), span⟩, lc, σ⟩
        ⟨arg, checkArgs before (lc.extractCalleeOwnerships callee) lc,
          walkArgs fns before (ownershipsOf fns callee) σ⟩
  | callee {callee : Expr} {args : List Expr} {span lc σ} :
      Enters ⟨⟨.fnCall callee args, span⟩, lc, σ⟩
        ⟨callee, checkArgs args (lc.extractCalleeOwnerships callee) lc,
          walkArgs fns args (ownershipsOf fns callee) σ⟩
  | binding {before after : List LetBinding} {name ty value bound} {body : Expr} {span lc σ} :
      Enters ⟨⟨.let (before ++ ⟨name, ty, value, bound⟩ :: after) body, span⟩, lc, σ⟩
        ⟨value, checkBindings before lc.pushScope, walkBindings fns before σ⟩
  | letBody {bindings : List LetBinding} {body : Expr} {span lc σ} :
      Enters ⟨⟨.let bindings body, span⟩, lc, σ⟩
        ⟨body, checkBindings bindings lc.pushScope, walkBindings fns bindings σ⟩
  | step {before after : List Expr} {e : Expr} {span lc σ} :
      Enters ⟨⟨.do (before ++ e :: after), span⟩, lc, σ⟩
        ⟨e, checkExprs before lc, walkAll fns before σ⟩
  | cond {cond then_ else_ : Expr} {span lc σ} :
      Enters ⟨⟨.ite cond then_ else_, span⟩, lc, σ⟩ ⟨cond, lc, σ⟩
  | then_ {cond then_ else_ : Expr} {span lc σ} :
      Enters ⟨⟨.ite cond then_ else_, span⟩, lc, σ⟩
        ⟨then_, checkExpr cond lc, walk fns cond σ⟩
  | else_ {cond then_ else_ : Expr} {span lc σ} :
      Enters ⟨⟨.ite cond then_ else_, span⟩, lc, σ⟩
        ⟨else_, (checkExpr then_ (checkExpr cond lc)).restore (checkExpr cond lc).snapshot,
          walk fns cond σ⟩
  | scrutinee {scrutinee : Expr} {arms : List MatchArm} {span lc σ} :
      Enters ⟨⟨.match scrutinee arms, span⟩, lc, σ⟩ ⟨scrutinee, lc, σ⟩
  | arm {scrutinee : Expr} {before after : List MatchArm} {pattern body armSpan span lc σ} :
      Enters ⟨⟨.match scrutinee (before ++ ⟨pattern, body, armSpan⟩ :: after), span⟩, lc, σ⟩
        ⟨body,
          introducePattern pattern
            ((checkArms before (checkExpr scrutinee lc).snapshot (checkExpr scrutinee lc)).2.restore
              (checkExpr scrutinee lc).snapshot).pushScope,
          (walk fns scrutinee σ).introduce (patternNames pattern)⟩
  | lambda {params : List Param} {body : Expr} {span lc σ} :
      Enters ⟨⟨.lambda params body, span⟩, lc, σ⟩
        ⟨body, lc.pushScope, σ.introduce (params.map Param.name)⟩
  | tried {inner : Expr} {span lc σ} : Enters ⟨⟨.try inner, span⟩, lc, σ⟩ ⟨inner, lc, σ⟩
  | ctorArg {name} {before after : List Expr} {arg : Expr} {span lc σ} :
      Enters ⟨⟨.variantCtor name (before ++ arg :: after), span⟩, lc, σ⟩
        ⟨arg, checkExprs before lc, walkAll fns before σ⟩
  | field {name key} {before after : List FieldInit} {value : Expr} {span lc σ} :
      Enters ⟨⟨.structLit name (before ++ ⟨key, value⟩ :: after), span⟩, lc, σ⟩
        ⟨value, checkFields before lc, walkFields fns before σ⟩
  | item {before after : List Expr} {item : Expr} {span lc σ} :
      Enters ⟨⟨.listLit (before ++ item :: after), span⟩, lc, σ⟩
        ⟨item, checkExprs before lc, walkAll fns before σ⟩
  | forallGuard {param : Param} {guard body : Expr} {span lc σ} :
      Enters ⟨⟨.forall param (some guard) body, span⟩, lc, σ⟩
        ⟨guard, lc, σ.introduce [param.name]⟩
  | forallBody {param : Param} {guard : Option Expr} {body : Expr} {span lc σ} :
      Enters ⟨⟨.forall param guard body, span⟩, lc, σ⟩
        ⟨body, checkWhere guard lc, walkGuard fns guard (σ.introduce [param.name])⟩
  | existsGuard {param : Param} {guard body : Expr} {span lc σ} :
      Enters ⟨⟨.exists param (some guard) body, span⟩, lc, σ⟩
        ⟨guard, lc, σ.introduce [param.name]⟩
  | existsBody {param : Param} {guard : Option Expr} {body : Expr} {span lc σ} :
      Enters ⟨⟨.exists param guard body, span⟩, lc, σ⟩
        ⟨body, checkWhere guard lc, walkGuard fns guard (σ.introduce [param.name])⟩

end Walk

/-- The body of a function, where the checker begins with it. -/
def bodyPoint (lc : LinearityChecker) (def_ : FnDef) : Point where
  expr := def_.body
  checker := def_.params.foldl (fun lc p => lc.introduce p.name) (lc.registerFn def_).pushScope
  holdings := Holdings.introduce lc.lookupState (def_.params.map Param.name)

/-- The annotations that are known while a function is checked, its own among them. -/
def knownFns (lc : LinearityChecker) (def_ : FnDef) : Ownerships :=
  (lc.registerFn def_).fnOwnerships

end Airl.LinearityChecker
