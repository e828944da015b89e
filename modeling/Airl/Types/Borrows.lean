import Airl.Types.Violations
import Mathlib.Data.List.Induction

/-! # Borrows that do not end

No call gives a borrow back. Along any expression the state of a variable only moves on, from owned
to borrowed or moved and to more and more borrows, so a call that borrows a variable leaves it in
another state for good.
-/

namespace Airl

namespace LinearityChecker

/-- The order in which a variable's states follow one another. -/
def Onward : OwnershipState → OwnershipState → Prop
  | .owned, _ => True
  | .borrowed .immutable n, .borrowed .immutable m => n ≤ m
  | s, s' => s = s'

theorem Onward.refl (s : OwnershipState) : Onward s s := by
  unfold Onward
  split <;> simp_all

/-- States only go onward. -/
theorem Onward.trans {a b c : OwnershipState} (hab : Onward a b) (hbc : Onward b c) :
    Onward a c := by
  match a, b, c with
  | .owned, _, _ => trivial
  | .borrowed .immutable n, .borrowed .immutable m, .borrowed .immutable k =>
    exact Nat.le_trans hab hbc
  | .borrowed .immutable n, .borrowed .immutable m, .borrowed .mutable k => exact nomatch hbc
  | .borrowed .immutable n, .borrowed .immutable m, .owned => exact nomatch hbc
  | .borrowed .immutable n, .borrowed .immutable m, .moved at_ => exact nomatch hbc
  | .borrowed .immutable n, .borrowed .immutable m, .dropped => exact nomatch hbc
  | .borrowed .mutable n, _, _ =>
    cases hab
    exact hbc
  | .moved at_, _, _ =>
    cases hab
    exact hbc
  | .dropped, _, _ =>
    cases hab
    exact hbc

/-- And not back. -/
theorem Onward.antisymm {a b : OwnershipState} (hab : Onward a b) (hba : Onward b a) : a = b := by
  match a, b with
  | .owned, .owned => rfl
  | .owned, .borrowed .immutable m => exact nomatch hba
  | .owned, .borrowed .mutable m => exact nomatch hba
  | .owned, .moved at_ => exact nomatch hba
  | .owned, .dropped => exact nomatch hba
  | .borrowed .immutable n, .borrowed .immutable m => rw [Nat.le_antisymm hab hba]
  | .borrowed .mutable n, _ => exact hab
  | .moved at_, _ => exact hab
  | .dropped, _ => exact hab

/-- An entry keeps its depth, and what has no entry gets none. -/
def EntryOnward : Option ShadowEntry → Option ShadowEntry → Prop :=
  Option.Rel fun a b => Onward a.1 b.1 ∧ a.2 = b.2

theorem EntryOnward.refl (a : Option ShadowEntry) : EntryOnward a a := by
  cases a with
  | none => exact .none
  | some entry => exact .some ⟨Onward.refl entry.1, rfl⟩

theorem EntryOnward.trans {a b c : Option ShadowEntry} (hab : EntryOnward a b)
    (hbc : EntryOnward b c) : EntryOnward a c := by
  cases hab with
  | none => exact hbc
  | some hab =>
    cases hbc with
    | some hbc => exact .some ⟨hab.1.trans hbc.1, hab.2.trans hbc.2⟩

def ShadowOnward (a b : Shadow) : Prop := ∀ name, EntryOnward (a.lookup name) (b.lookup name)

theorem ShadowOnward.refl (a : Shadow) : ShadowOnward a a := fun name => .refl (a.lookup name)

theorem ShadowOnward.trans {a b c : Shadow} (hab : ShadowOnward a b) (hbc : ShadowOnward b c) :
    ShadowOnward a c := fun name => (hab name).trans (hbc name)

theorem lookup_rollback (shadow : Shadow) (name : String) (prev : Option ShadowEntry)
    (other : String) :
    (rollback shadow (name, prev)).lookup other =
      if other = name then prev else shadow.lookup other := by
  by_cases heq : other = name
  · subst heq
    cases prev <;> simp [rollback]
  · cases prev <;> simp [rollback, heq]

/-- Rolling a binding back keeps the rest onward. -/
theorem ShadowOnward.rollback {a b : Shadow} (h : ShadowOnward a b)
    (binding : String × Option ShadowEntry) :
    ShadowOnward (LinearityChecker.rollback a binding) (LinearityChecker.rollback b binding) := by
  intro other
  rw [lookup_rollback, lookup_rollback]
  split
  next => exact EntryOnward.refl _
  next => exact h other

theorem ShadowOnward.rollbacks {a b : Shadow} (h : ShadowOnward a b)
    (bindings : List (String × Option ShadowEntry)) :
    ShadowOnward (bindings.foldl LinearityChecker.rollback a)
      (bindings.foldl LinearityChecker.rollback b) := by
  induction bindings generalizing a b with
  | nil => exact h
  | cons binding bindings ih => exact ih (h.rollback binding)

theorem shadowOnward_rollback_insert (shadow : Shadow) (name : String) (entry : ShadowEntry) :
    ShadowOnward shadow (rollback (shadow.insert name entry) (name, shadow.lookup name)) := by
  intro other
  rw [lookup_rollback]
  split
  next heq =>
    subst heq
    exact EntryOnward.refl _
  next heq =>
    rw [AList.lookup_insert_ne heq]
    exact EntryOnward.refl _

/-- The state after an expression: the same scopes, and the variables have moved on. -/
structure Follows (a b : LinearityChecker) : Prop where
  depth : b.depth = a.depth
  scopes : b.scopeBindings = a.scopeBindings
  fns : b.fnOwnerships = a.fnOwnerships
  shadow : ShadowOnward a.shadow b.shadow

/-- The states inside one more scope: without its bindings the variables have moved on. -/
structure InScope (a b : LinearityChecker) : Prop where
  depth : b.depth = a.depth + 1
  scopes : ∃ bindings, b.scopeBindings = bindings :: a.scopeBindings ∧
    ShadowOnward a.shadow (bindings.foldl rollback b.shadow)
  fns : b.fnOwnerships = a.fnOwnerships

theorem Follows.refl (lc : LinearityChecker) : Follows lc lc := ⟨rfl, rfl, rfl, .refl _⟩

/-- One checker state follows another, through every step. -/
theorem Follows.trans {a b c : LinearityChecker} (hab : Follows a b) (hbc : Follows b c) :
    Follows a c where
  depth := hbc.depth.trans hab.depth
  scopes := hbc.scopes.trans hab.scopes
  fns := hbc.fns.trans hab.fns
  shadow := hab.shadow.trans hbc.shadow

theorem InScope.introduce {a b : LinearityChecker} (h : InScope a b) (name : String) :
    InScope a (b.introduce name) := by
  obtain ⟨bindings, hscopes, hshadow⟩ := h.scopes
  refine ⟨h.depth, ⟨(name, b.shadow.lookup name) :: bindings, ?_, ?_⟩, h.fns⟩
  · unfold LinearityChecker.introduce
    simp only [hscopes]
  · exact hshadow.trans ((shadowOnward_rollback_insert b.shadow name _).rollbacks bindings)

theorem InScope.step {a b c : LinearityChecker} (h : InScope a b) (hbc : Follows b c) :
    InScope a c := by
  obtain ⟨bindings, hscopes, hshadow⟩ := h.scopes
  refine ⟨hbc.depth.trans h.depth, ⟨bindings, hbc.scopes.trans hscopes, ?_⟩, hbc.fns.trans h.fns⟩
  exact hshadow.trans (hbc.shadow.rollbacks bindings)

/-- Leaving a scope follows from entering it. -/
theorem InScope.pop {a b : LinearityChecker} (h : InScope a b) : Follows a b.popScope := by
  obtain ⟨bindings, hscopes, hshadow⟩ := h.scopes
  have hdepth : b.depth ≠ 0 := by
    rw [h.depth]
    exact Nat.succ_ne_zero _
  unfold popScope
  rw [if_neg hdepth, hscopes]
  exact ⟨by simp [h.depth], rfl, h.fns, hshadow⟩

/-- Setting a state that is onward follows. -/
theorem follows_setState {lc : LinearityChecker} {name : String} {state state' : OwnershipState}
    (hstate : lc.lookupState name = some state) (honward : Onward state state') :
    Follows lc (lc.setState name state') := by
  obtain ⟨⟨found, depth⟩, hentry, rfl⟩ := Option.map_eq_some_iff.mp hstate
  unfold setState
  rw [hentry]
  refine ⟨rfl, rfl, rfl, ?_⟩
  intro other
  by_cases heq : other = name
  · subst heq
    rw [hentry, AList.lookup_insert]
    exact .some ⟨honward, rfl⟩
  · rw [AList.lookup_insert_ne heq]
    exact EntryOnward.refl _

theorem follows_addDiag (lc : LinearityChecker) (d : Diagnostic) : Follows lc (lc.addDiag d) :=
  ⟨rfl, rfl, rfl, .refl _⟩

/-- Moving follows. -/
theorem follows_trackMove (lc : LinearityChecker) (name : String) (span : Span) :
    Follows lc (lc.trackMove name span).2 := by
  unfold trackMove
  split
  next hstate => exact follows_setState hstate trivial
  all_goals exact follows_addDiag _ _

/-- Borrowing follows. -/
theorem follows_trackBorrow (lc : LinearityChecker) (name : String) (kind : BorrowKind)
    (span : Span) : Follows lc (lc.trackBorrow name kind span).2 := by
  unfold trackBorrow
  split
  case h_1 hstate => exact follows_setState hstate trivial
  case h_2 hstate => exact follows_setState hstate (Nat.le_succ _)
  case h_3 hstate => exact follows_setState hstate trivial
  case h_4 | h_5 => exact follows_addDiag _ _
  case h_6 => exact Follows.refl _

/-- Every use of a name follows. -/
theorem follows_checkSymbol (lc : LinearityChecker) (name : String) (ownership : Ownership)
    (span : Span) : Follows lc (lc.checkSymbol name ownership span).2 := by
  cases ownership with
  | own => exact follows_trackMove lc name span
  | ref => exact follows_trackBorrow lc name .immutable span
  | «mut» => exact follows_trackBorrow lc name .mutable span
  | copy => exact Follows.refl lc
  | default => exact Follows.refl lc

/-- The rule that carries this through the whole checker. -/
theorem follows_rule : CheckRule Follows InScope fun a snap =>
    snap.depth = a.depth ∧ snap.scopeBindingsLen = a.scopeBindings.length ∧
      ShadowOnward a.shadow snap.shadow where
  refl := Follows.refl
  trans := Follows.trans
  symbol := follows_checkSymbol
  merge _ _ _ _ := ⟨rfl, rfl, rfl, .refl _⟩
  push _ := ⟨rfl, ⟨[], rfl, .refl _⟩, rfl⟩
  introduce name h := h.introduce name
  step := InScope.step
  pop := InScope.pop
  snapshot h := ⟨h.depth, congrArg List.length h.scopes, h.shadow⟩
  restore := by
    intro a b snap hab ⟨hdepth, hlength, hshadow⟩
    refine ⟨hdepth, ?_, hab.fns, hshadow⟩
    unfold LinearityChecker.restore
    simp [hab.scopes, hlength]

theorem EntryOnward.state {a b : Option ShadowEntry} (h : EntryOnward a b) :
    Option.Rel Onward (a.map Prod.fst) (b.map Prod.fst) := by
  cases h with
  | none => exact .none
  | some honward => exact .some honward.1

theorem Follows.lookupState {a b : LinearityChecker} (h : Follows a b) (name : String) :
    Option.Rel Onward (a.lookupState name) (b.lookupState name) :=
  (h.shadow name).state

theorem state_antisymm {x y : Option OwnershipState} (hxy : Option.Rel Onward x y)
    (hyx : Option.Rel Onward y x) : x = y := by
  cases hxy with
  | none => rfl
  | some hxy =>
    cases hyx with
    | some hyx => rw [hxy.antisymm hyx]

/-- A state that comes back was never left. -/
theorem Follows.lookupState_eq {a b c : LinearityChecker} {name : String} (hab : Follows a b)
    (hbc : Follows b c) (heq : c.lookupState name = a.lookupState name) :
    b.lookupState name = a.lookupState name := by
  have hback := hbc.lookupState name
  rw [heq] at hback
  exact (state_antisymm (hab.lookupState name) hback).symm

/-- The variables that a call borrows: the symbols at the places of references. -/
def borrowedNames (args : List Expr) (ownerships : List Ownership) : List String :=
  (args.zip ownerships).filterMap fun (arg, ownership) =>
    match arg.kind, ownership with
    | .symbolRef name, .ref => some name
    | .symbolRef name, .mut => some name
    | _, _ => none

/-- The variable can be borrowed at all: it is owned, or others have borrowed it to read. -/
def Borrowable : Option OwnershipState → Prop
  | some .owned => True
  | some (.borrowed .immutable _) => True
  | _ => False

/-- A state that cannot be borrowed does not change. -/
theorem eq_of_not_borrowable {x y : Option OwnershipState} (h : Option.Rel Onward x y)
    (hx : ¬ Borrowable x) : y = x := by
  cases h with
  | none => rfl
  | @some state state' honward =>
    match state with
    | .owned => exact absurd trivial hx
    | .borrowed .immutable n => exact absurd trivial hx
    | .borrowed .mutable n => exact congrArg some (Eq.symm honward)
    | .moved at_ => exact congrArg some (Eq.symm honward)
    | .dropped => exact congrArg some (Eq.symm honward)

/-- A borrow that succeeds changes the state. -/
theorem trackBorrow_ne {lc : LinearityChecker} {name : String} (kind : BorrowKind) (span : Span)
    (hstate : Borrowable (lc.lookupState name))
    (hquiet : (lc.trackBorrow name kind span).2.diags = lc.diags) :
    (lc.trackBorrow name kind span).2.lookupState name ≠ lc.lookupState name := by
  have hwrites : ∀ state, (lc.setState name state).lookupState name = some state := by
    intro state
    cases hentry : lc.shadow.lookup name with
    | none => simp [lookupState, hentry, Borrowable] at hstate
    | some entry => simp [setState, lookupState, hentry]
  cases hfound : lc.lookupState name with
  | none =>
    rw [hfound] at hstate
    exact hstate.elim
  | some state =>
    rw [hfound] at hstate
    match state, kind with
    | .owned, .immutable => simp [trackBorrow, hfound, hwrites]
    | .owned, .mutable => simp [trackBorrow, hfound, hwrites]
    | .borrowed .immutable n, .immutable => simp [trackBorrow, hfound, hwrites]
    | .borrowed .immutable n, .mutable => simp [trackBorrow, hfound] at hquiet
    | .borrowed .mutable n, _ => exact hstate.elim
    | .moved at_, _ => exact hstate.elim
    | .dropped, _ => exact hstate.elim

theorem mem_borrowedNames_cons {name : String} {arg : Expr} {args : List Expr}
    {ownership : Ownership} {ownerships : List Ownership}
    (h : name ∈ borrowedNames (arg :: args) (ownership :: ownerships)) :
    (arg.kind = .symbolRef name ∧ (ownership = .ref ∨ ownership = .mut)) ∨
      name ∈ borrowedNames args ownerships := by
  obtain ⟨⟨arg', ownership'⟩, hpair, hsome⟩ := List.mem_filterMap.mp h
  rcases List.mem_cons.mp hpair with heq | hlater
  · cases heq
    dsimp only at hsome
    split at hsome
    case h_1 hkind =>
      cases hsome
      exact .inl ⟨hkind, .inl rfl⟩
    case h_2 hkind =>
      cases hsome
      exact .inl ⟨hkind, .inr rfl⟩
    case h_3 => exact nomatch hsome
  · exact .inr (List.mem_filterMap.mpr ⟨_, hlater, hsome⟩)

/-- The arguments of an accepted call leave a variable that they borrow in another state. -/
theorem checkArgs_ne {args : List Expr} {ownerships : List Ownership} {lc : LinearityChecker}
    {name : String} (hmem : name ∈ borrowedNames args ownerships)
    (hstate : Borrowable (lc.lookupState name))
    (hquiet : (checkArgs args ownerships lc).diags = lc.diags) :
    (checkArgs args ownerships lc).lookupState name ≠ lc.lookupState name := by
  induction args generalizing ownerships lc with
  | nil => exact nomatch hmem
  | cons arg args ih =>
    cases ownerships with
    | nil => exact nomatch hmem
    | cons ownership ownerships =>
      intro heq
      have hsplit : checkArgs (arg :: args) (ownership :: ownerships) lc =
          checkArgs args ownerships (checkArgs [arg] [ownership] lc) := rfl
      rw [hsplit] at heq hquiet
      -- the state after the first argument lies between two that are equal
      have hmiddle := (follows_rule.checkArgs [arg] [ownership] lc).lookupState_eq
        (follows_rule.checkArgs args ownerships _) heq
      have hfirst := diags_rule.checkArgs [arg] [ownership] lc
      have hrest := diags_rule.checkArgs args ownerships (checkArgs [arg] [ownership] lc)
      rw [hquiet] at hrest
      have hsame : (checkArgs [arg] [ownership] lc).diags = lc.diags :=
        hrest.eq_of_length (Nat.le_antisymm hrest.length_le hfirst.length_le)
      rcases mem_borrowedNames_cons hmem with ⟨hkind, href⟩ | hlater
      · have hone : checkArgs [arg] [ownership] lc =
            (lc.checkSymbol name ownership arg.span).2 := by
          simp only [checkArgs, hkind, List.headD_cons]
        rw [hone] at hmiddle hsame
        rcases href with rfl | rfl
        · exact trackBorrow_ne .immutable arg.span hstate hsame hmiddle
        · exact trackBorrow_ne .mutable arg.span hstate hsame hmiddle
      · exact ih hlater (hmiddle ▸ hstate) (hquiet.trans hsame.symm) (heq.trans hmiddle.symm)

/-- A call, by its callee and its arguments. -/
structure FnCall where
  callee : Expr
  args : List Expr
  span : Span

def FnCall.expr (c : FnCall) : Expr := ⟨.fnCall c.callee c.args, c.span⟩

/-- The variables that the call borrows. -/
def FnCall.borrows (c : FnCall) (lc : LinearityChecker) : List String :=
  borrowedNames c.args (lc.extractCalleeOwnerships c.callee)

/-- No diagnostic is added. -/
def Accepts (lc : LinearityChecker) (c : FnCall) : Prop := (checkExpr c.expr lc).diags = lc.diags

/-- The variable is in the state it was in, and what was allowed before is allowed after. -/
structure GivenBack (before after : LinearityChecker) (name : String) : Prop where
  state : after.lookupState name = before.lookupState name
  move : ∀ span, (before.trackMove name span).1 = .ok () → (after.trackMove name span).1 = .ok ()
  borrow : ∀ kind span, (before.trackBorrow name kind span).1 = .ok () →
    (after.trackBorrow name kind span).1 = .ok ()

theorem givenBack_of_state {before after : LinearityChecker} {name : String}
    (h : after.lookupState name = before.lookupState name) : GivenBack before after name := by
  refine ⟨h, fun span hok => ?_, fun kind span hok => ?_⟩
  · unfold trackMove at hok ⊢
    rw [h]
    split at hok <;> simp_all
  · unfold trackBorrow at hok ⊢
    rw [h]
    split at hok <;> simp_all

/-- In a sequence of calls, each accepted call gives back what it borrows. -/
def BorrowsEnd : LinearityChecker → List FnCall → Prop
  | _, [] => True
  | lc, c :: cs =>
    (Accepts lc c → ∀ name ∈ c.borrows lc, GivenBack lc (checkExpr c.expr lc) name) ∧
      BorrowsEnd (checkExpr c.expr lc) cs

/-- In a sequence of calls, no accepted call borrows a variable that can be borrowed. -/
def NothingBorrowed : LinearityChecker → List FnCall → Prop
  | _, [] => True
  | lc, c :: cs =>
    (Accepts lc c → ∀ name ∈ c.borrows lc, ¬ Borrowable (lc.lookupState name)) ∧
      NothingBorrowed (checkExpr c.expr lc) cs

/-- A borrow of the call is given back just if the name could not be borrowed before it. -/
theorem givenBack_iff {lc : LinearityChecker} {c : FnCall} (haccepts : Accepts lc c)
    {name : String} (hmem : name ∈ c.borrows lc) :
    GivenBack lc (checkExpr c.expr lc) name ↔ ¬ Borrowable (lc.lookupState name) := by
  constructor
  · intro h hstate
    have hargs := follows_rule.checkArgs c.args (lc.extractCalleeOwnerships c.callee) lc
    have hcallee := follows_rule.checkExpr c.callee
      (checkArgs c.args (lc.extractCalleeOwnerships c.callee) lc)
    have hquiet : (checkArgs c.args (lc.extractCalleeOwnerships c.callee) lc).diags = lc.diags := by
      have hlate := diags_rule.checkExpr c.callee
        (checkArgs c.args (lc.extractCalleeOwnerships c.callee) lc)
      have hearly := diags_rule.checkArgs c.args (lc.extractCalleeOwnerships c.callee) lc
      have hends : (checkExpr c.callee
          (checkArgs c.args (lc.extractCalleeOwnerships c.callee) lc)).diags = lc.diags := haccepts
      rw [hends] at hlate
      exact hlate.eq_of_length (Nat.le_antisymm hlate.length_le hearly.length_le)
    apply checkArgs_ne hmem hstate hquiet
    exact hargs.lookupState_eq hcallee h.state
  · intro hstate
    apply givenBack_of_state
    exact eq_of_not_borrowable ((follows_rule.checkExpr c.expr lc).lookupState name) hstate

/-- In every sequence of calls and from every state, borrows end with their calls exactly if there
are none: the arguments at the places of references are no variables, or no accepted call finds one
of them owned or borrowed to read. -/
theorem borrowsEnd_iff (lc : LinearityChecker) (cs : List FnCall) :
    BorrowsEnd lc cs ↔ NothingBorrowed lc cs := by
  induction cs generalizing lc with
  | nil => exact Iff.rfl
  | cons c cs ih =>
      apply and_congr _ (ih _)
      constructor
      · exact fun h haccepts name hmem => (givenBack_iff haccepts hmem).mp (h haccepts name hmem)
      · exact fun h haccepts name hmem => (givenBack_iff haccepts hmem).mpr (h haccepts name hmem)

/-- The loop of the pipeline over the definitions of a program. -/
def checkFns (lc : LinearityChecker) (defs : List FnDef) : LinearityChecker :=
  defs.foldl checkFn lc

/-- The signatures alone. -/
def registerFns (lc : LinearityChecker) (defs : List FnDef) : LinearityChecker :=
  defs.foldl registerFn lc

theorem InScope.introduceParams {a b : LinearityChecker} (h : InScope a b) (params : List Param) :
    InScope a (params.foldl (fun lc p => lc.introduce p.name) b) := by
  induction params generalizing b with
  | nil => exact h
  | cons p params ih => exact ih (h.introduce p.name)

/-- Checking a function follows. -/
theorem checkFn_follows (lc : LinearityChecker) (def_ : FnDef) :
    Follows (lc.registerFn def_) (lc.checkFn def_) := by
  have hparams := (follows_rule.push (lc.registerFn def_)).introduceParams def_.params
  exact (hparams.step (follows_rule.checkExpr def_.body _)).pop

theorem shadow_eq_empty {shadow : Shadow} (h : ShadowOnward ∅ shadow) : shadow = ∅ := by
  have hkeys : shadow.keys = [] := by
    rw [List.eq_nil_iff_forall_not_mem]
    intro name hname
    have hentry := h name
    rw [AList.lookup_empty] at hentry
    obtain ⟨entry, hlookup⟩ := AList.lookup_isSome.mpr hname |> Option.isSome_iff_exists.mp
    rw [hlookup] at hentry
    exact nomatch hentry
  apply AList.ext
  exact List.map_eq_nil_iff.mp hkeys

/-- Of the definitions the checker has kept the signatures and the diagnostics alone. -/
structure Fresh (lc : LinearityChecker) (defs : List FnDef) : Prop where
  depth : lc.depth = 0
  shadow : lc.shadow = ∅
  scopes : lc.scopeBindings = [[]]
  fns : lc.fnOwnerships = (registerFns new defs).fnOwnerships

theorem Fresh.checkFn {lc : LinearityChecker} {defs : List FnDef} (h : Fresh lc defs)
    (def_ : FnDef) : Fresh (lc.checkFn def_) (defs ++ [def_]) := by
  have hfollows := checkFn_follows lc def_
  refine ⟨hfollows.depth.trans h.depth, ?_, hfollows.scopes.trans h.scopes, ?_⟩
  · apply shadow_eq_empty
    rw [← h.shadow]
    exact hfollows.shadow
  · rw [hfollows.fns, registerFns, List.foldl_append]
    show lc.fnOwnerships.insert def_.name _ = (registerFns new defs).fnOwnerships.insert def_.name _
    rw [h.fns]

/-- And only adds diagnostics. -/
theorem checkFn_diags (lc : LinearityChecker) (def_ : FnDef) :
    lc.diags <+: (lc.checkFn def_).diags := by
  have hparams : ∀ (params : List Param) (lc : LinearityChecker),
      (params.foldl (fun lc p => lc.introduce p.name) lc).diags = lc.diags := by
    intro params
    induction params with
    | nil => exact fun _ => rfl
    | cons p params ih => exact fun lc => ih (lc.introduce p.name)
  have hbody := diags_rule.checkExpr def_.body
    (def_.params.foldl (fun lc p => lc.introduce p.name) (lc.registerFn def_).pushScope)
  rw [hparams] at hbody
  exact diags_rule.pop hbody

/-- Before and after any number of definitions the checker has no variable and no open scope: a
definition is checked with the signatures of those before it and nothing else of them, and their
diagnostics stay. -/
theorem checkFns_fresh (defs : List FnDef) : Fresh (checkFns new defs) defs ∧
    ∀ earlier, earlier <+: defs → (checkFns new earlier).diags <+: (checkFns new defs).diags := by
  induction defs using List.reverseRecOn with
  | nil =>
    refine ⟨⟨rfl, rfl, rfl, rfl⟩, fun earlier h => ?_⟩
    obtain rfl := List.prefix_nil.mp h
    exact List.prefix_rfl
  | append_singleton defs def_ ih =>
    obtain ⟨hfresh, hdiags⟩ := ih
    have hlast : checkFns new (defs ++ [def_]) = (checkFns new defs).checkFn def_ :=
      List.foldl_concat _ _ _ _
    rw [hlast]
    refine ⟨hfresh.checkFn def_, fun earlier h => ?_⟩
    rcases List.prefix_concat_iff.mp h with rfl | h
    · exact hlast ▸ List.prefix_rfl
    · exact (hdiags earlier h).trans (checkFn_diags _ def_)

def inspect : FnDef :=
  ⟨"inspect", [paramOf .ref "a"], ⟨.named "i64", .dummy⟩, [], [], [], symbol "a"⟩

/-- `inspect` and `consume` are known and `x` is in scope. -/
def inspecting : LinearityChecker :=
  (((new.registerFn inspect).registerFn consume).pushScope).introduce "x"

def inspectX : FnCall := ⟨symbol "inspect", [symbol "x"], .dummy⟩

/-- `(inspect x)` is accepted and leaves `x` borrowed, so that `x` can no longer be moved. -/
theorem inspect_keeps :
    Accepts inspecting inspectX ∧ "x" ∈ inspectX.borrows inspecting ∧
    ¬ BorrowsEnd inspecting [inspectX] ∧
    (inspecting.trackMove "x" .dummy).1 = .ok () ∧
    ((checkExpr inspectX.expr inspecting).trackMove "x" .dummy).1 = .error () := by
  have haccepts : Accepts inspecting inspectX := by
    unfold Accepts
    decide
  have hmem : "x" ∈ inspectX.borrows inspecting := by decide
  refine ⟨haccepts, hmem, ?_, by rfl, by rfl⟩
  intro h
  have hstate := (h.1 haccepts "x" hmem).state
  exact absurd hstate (by decide)

end LinearityChecker

end Airl
