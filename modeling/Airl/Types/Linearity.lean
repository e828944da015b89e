import Airl.Syntax.Ast
import Mathlib.Data.List.AList

/-! # The linearity checker

`linearity.rs`. A name stands for its interned identifier. The entries of a hash map are visited in
the order of the list. The innermost scope and the latest binding come first.
-/

namespace Airl

inductive BorrowKind where
  | immutable
  | mutable
  deriving Repr, DecidableEq

inductive OwnershipState where
  | owned
  | borrowed (kind : BorrowKind) (count : Nat)
  | moved (movedAt : Span)
  | dropped
  deriving Repr, DecidableEq

def OwnershipState.isMoved : OwnershipState → Bool
  | .moved _ => true
  | _ => false

/-- A state with the depth at which the name was bound. -/
abbrev ShadowEntry := OwnershipState × Nat

abbrev Shadow := AList (fun _ : String => ShadowEntry)

structure LinearitySnapshot where
  shadow : Shadow
  depth : Nat
  scopeBindingsLen : Nat

structure LinearityChecker where
  depth : Nat
  shadow : Shadow
  scopeBindings : List (List (String × Option ShadowEntry))
  fnOwnerships : AList (fun _ : String => List Ownership)
  diags : List Diagnostic

namespace LinearityChecker

def new : LinearityChecker := ⟨0, ∅, [[]], ∅, []⟩

def addDiag (lc : LinearityChecker) (d : Diagnostic) : LinearityChecker :=
  { lc with diags := lc.diags ++ [d] }

/-- `lookup_state_id`. -/
def lookupState (lc : LinearityChecker) (name : String) : Option OwnershipState :=
  (lc.shadow.lookup name).map Prod.fst

/-- `set_state_id`: a name without an entry gets none. -/
def setState (lc : LinearityChecker) (name : String) (state : OwnershipState) :
    LinearityChecker :=
  match lc.shadow.lookup name with
  | some (_, depth) => { lc with shadow := lc.shadow.insert name (state, depth) }
  | none => lc

def introduce (lc : LinearityChecker) (name : String) : LinearityChecker :=
  let prev := lc.shadow.lookup name
  { lc with
    shadow := lc.shadow.insert name (.owned, lc.depth)
    scopeBindings := match lc.scopeBindings with
      | bindings :: outer => ((name, prev) :: bindings) :: outer
      | [] => [] }

def useOfMoved (name : String) (span movedAt : Span) : Diagnostic :=
  (Diagnostic.error ("use of moved value `" ++ name ++ "`") span).withNote movedAt
    "value moved here"

def trackMove (lc : LinearityChecker) (name : String) (span : Span) :
    Except Unit Unit × LinearityChecker :=
  match lc.lookupState name with
  | some .owned => (.ok (), lc.setState name (.moved span))
  | some (.moved movedAt) => (.error (), lc.addDiag (useOfMoved name span movedAt))
  | some (.borrowed _ _) =>
    (.error (), lc.addDiag (.error ("cannot move `" ++ name ++ "` while borrowed") span))
  | some .dropped | none =>
    (.error (), lc.addDiag (.error ("use of undefined value `" ++ name ++ "`") span))

def trackBorrow (lc : LinearityChecker) (name : String) (kind : BorrowKind) (span : Span) :
    Except Unit Unit × LinearityChecker :=
  match lc.lookupState name, kind with
  | some .owned, .immutable => (.ok (), lc.setState name (.borrowed .immutable 1))
  | some (.borrowed .immutable count), .immutable =>
    (.ok (), lc.setState name (.borrowed .immutable (count + 1)))
  | some .owned, .mutable => (.ok (), lc.setState name (.borrowed .mutable 1))
  | some (.borrowed _ _), .mutable =>
    (.error (),
      lc.addDiag (.error ("cannot mutably borrow `" ++ name ++ "` — already borrowed") span))
  | some (.moved movedAt), _ => (.error (), lc.addDiag (useOfMoved name span movedAt))
  -- no diagnostic: what is mutably borrowed is not borrowed again, nor is what is not known
  | _, _ => (.error (), lc)

/-- The type is given by the answer of `is_copy` and its text. -/
def trackCopy (lc : LinearityChecker) (copied : Bool) (type : String) (span : Span) :
    Except Unit Unit × LinearityChecker :=
  if copied then (.ok (), lc)
  else (.error (), lc.addDiag (.error ("type " ++ type ++ " does not implement Copy") span))

def releaseBorrow (lc : LinearityChecker) (name : String) : LinearityChecker :=
  match lc.lookupState name with
  | some (.borrowed kind count) =>
    if 1 < count then lc.setState name (.borrowed kind (count - 1))
    else lc.setState name .owned
  | _ => lc

def pushScope (lc : LinearityChecker) : LinearityChecker :=
  { lc with depth := lc.depth + 1, scopeBindings := [] :: lc.scopeBindings }

/-- Takes one binding back. -/
def rollback (shadow : Shadow) : String × Option ShadowEntry → Shadow
  | (name, some entry) => shadow.insert name entry
  | (name, none) => shadow.erase name

def popScope (lc : LinearityChecker) : LinearityChecker :=
  if lc.depth = 0 then lc
  else
    match lc.scopeBindings with
    | bindings :: outer =>
      { lc with
        shadow := bindings.foldl rollback lc.shadow
        scopeBindings := outer
        depth := lc.depth - 1 }
    | [] => { lc with depth := lc.depth - 1 }

def snapshot (lc : LinearityChecker) : LinearitySnapshot :=
  ⟨lc.shadow, lc.depth, lc.scopeBindings.length⟩

/-- `truncate` keeps the outer scopes. -/
def restore (lc : LinearityChecker) (snap : LinearitySnapshot) : LinearityChecker :=
  { lc with
    shadow := snap.shadow
    depth := snap.depth
    scopeBindings := lc.scopeBindings.drop (lc.scopeBindings.length - snap.scopeBindingsLen) }

/-- The complaint about a name that only one of two branches moves. -/
def disagreement (b : LinearitySnapshot) (span : Span) :
    (Σ _ : String, ShadowEntry) → Option Diagnostic
  | ⟨name, stateInA, _⟩ =>
    match b.shadow.lookup name with
    | some (stateInB, _) =>
      if stateInA.isMoved ≠ stateInB.isMoved then
        some (.error ("branches disagree on ownership of `" ++ name ++
          "`: moved in one branch but not the other") span)
      else none
    | none => none

def mergeBranchStates (lc : LinearityChecker) (a b : LinearitySnapshot) (span : Span) :
    LinearityChecker :=
  { lc with diags := lc.diags ++ a.shadow.entries.filterMap (disagreement b span) }

/-- All arms against the first. -/
def mergeArmStates (lc : LinearityChecker) (armStates : List LinearitySnapshot) (span : Span) :
    LinearityChecker :=
  match armStates with
  | first :: others => others.foldl (fun lc other => lc.mergeBranchStates first other span) lc
  | [] => lc

def registerFn (lc : LinearityChecker) (def_ : FnDef) : LinearityChecker :=
  let ownerships := def_.params.map fun p =>
    if p.ownership = .default then .own else p.ownership
  { lc with fnOwnerships := lc.fnOwnerships.insert def_.name ownerships }

def extractCalleeOwnerships (lc : LinearityChecker) (callee : Expr) : List Ownership :=
  match callee.kind with
  | .symbolRef name => (lc.fnOwnerships.lookup name).getD []
  | _ => []

mutual

def introducePattern : Pattern → LinearityChecker → LinearityChecker
  | ⟨.binding name, _⟩, lc => lc.introduce name
  | ⟨.variant _ subPats, _⟩, lc => introducePatterns subPats lc
  | ⟨.wildcard, _⟩, lc => lc
  | ⟨.literal _, _⟩, lc => lc

def introducePatterns : List Pattern → LinearityChecker → LinearityChecker
  | [], lc => lc
  | p :: ps, lc => introducePatterns ps (introducePattern p lc)

end

/-- `check_arg` of a symbol; nothing is checked of one without an annotation. -/
def checkSymbol (lc : LinearityChecker) (name : String) (ownership : Ownership) (span : Span) :
    Except Unit Unit × LinearityChecker :=
  match ownership with
  | .own => lc.trackMove name span
  | .ref => lc.trackBorrow name .immutable span
  | .mut => lc.trackBorrow name .mutable span
  | .copy => lc.trackCopy true "Prim(I64)" span
  | .default => (.ok (), lc)

mutual

def checkExpr : Expr → LinearityChecker → LinearityChecker
  | ⟨.fnCall callee args, _⟩, lc =>
    checkExpr callee (checkArgs args (lc.extractCalleeOwnerships callee) lc)
  | ⟨.let bindings body, _⟩, lc =>
    (checkExpr body (checkBindings bindings lc.pushScope)).popScope
  | ⟨.do exprs, _⟩, lc => checkExprs exprs lc
  | ⟨.ite cond then_ else_, span⟩, lc =>
    let lc := checkExpr cond lc
    let snap := lc.snapshot
    let lc := checkExpr then_ lc
    let thenStates := lc.snapshot
    let lc := checkExpr else_ (lc.restore snap)
    lc.mergeBranchStates thenStates lc.snapshot span
  | ⟨.match scrutinee arms, span⟩, lc =>
    let lc := checkExpr scrutinee lc
    if arms.isEmpty then lc
    else
      let snap := lc.snapshot
      let checked := checkArms arms snap lc
      (checked.2.mergeArmStates checked.1 span).restore (checked.1.head?.getD snap)
  | ⟨.lambda _ body, _⟩, lc => (checkExpr body lc.pushScope).popScope
  | ⟨.try inner, _⟩, lc => checkExpr inner lc
  | ⟨.variantCtor _ args, _⟩, lc => checkExprs args lc
  | ⟨.structLit _ fields, _⟩, lc => checkFields fields lc
  | ⟨.listLit items, _⟩, lc => checkExprs items lc
  | ⟨.forall _ whereClause body, _⟩, lc => checkExpr body (checkWhere whereClause lc)
  | ⟨.exists _ whereClause body, _⟩, lc => checkExpr body (checkWhere whereClause lc)
  | _, lc => lc

def checkExprs : List Expr → LinearityChecker → LinearityChecker
  | [], lc => lc
  | e :: es, lc => checkExprs es (checkExpr e lc)

def checkFields : List FieldInit → LinearityChecker → LinearityChecker
  | [], lc => lc
  | ⟨_, value⟩ :: fields, lc => checkFields fields (checkExpr value lc)

def checkWhere : Option Expr → LinearityChecker → LinearityChecker
  | none, lc => lc
  | some guard, lc => checkExpr guard lc

def checkBindings : List LetBinding → LinearityChecker → LinearityChecker
  | [], lc => lc
  | ⟨name, _, value, _⟩ :: bindings, lc =>
    checkBindings bindings ((checkExpr value lc).introduce name)

/-- The arms from one state, with the state after each. -/
def checkArms : List MatchArm → LinearitySnapshot → LinearityChecker →
    List LinearitySnapshot × LinearityChecker
  | [], _, lc => ([], lc)
  | ⟨pattern, body, _⟩ :: arms, snap, lc =>
    let lc := (checkExpr body (introducePattern pattern (lc.restore snap).pushScope)).popScope
    let rest := checkArms arms snap lc
    (lc.snapshot :: rest.1, rest.2)

/-- `check_arg` of each argument; without an annotation there is `default`. -/
def checkArgs : List Expr → List Ownership → LinearityChecker → LinearityChecker
  | [], _, lc => lc
  | arg :: args, ownerships, lc =>
    let lc := match arg.kind with
      | .symbolRef name => (lc.checkSymbol name (ownerships.headD .default) arg.span).2
      | _ => checkExpr arg lc
    checkArgs args ownerships.tail lc

end

def checkFn (lc : LinearityChecker) (def_ : FnDef) : LinearityChecker :=
  let lc := (lc.registerFn def_).pushScope
  let lc := def_.params.foldl (fun lc p => lc.introduce p.name) lc
  (checkExpr def_.body lc).popScope

def drainDiagnostics (lc : LinearityChecker) : List Diagnostic × LinearityChecker :=
  (lc.diags, { lc with diags := [] })

end LinearityChecker

end Airl
