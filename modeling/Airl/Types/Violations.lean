import Airl.Types.Checks

/-! # Violations of ownership

Each check of an argument that breaks a rule is answered with an error, except the borrow of what is
mutably borrowed and the use of what has been moved where the parameter is copied or has no
annotation.
-/

namespace Airl

namespace LinearityChecker

@[simp] theorem addDiag_diags (lc : LinearityChecker) (d : Diagnostic) :
    (lc.addDiag d).diags = lc.diags ++ [d] := rfl

@[simp] theorem addDiag_shadow (lc : LinearityChecker) (d : Diagnostic) :
    (lc.addDiag d).shadow = lc.shadow := rfl

@[simp] theorem addDiag_scopeBindings (lc : LinearityChecker) (d : Diagnostic) :
    (lc.addDiag d).scopeBindings = lc.scopeBindings := rfl

@[simp] theorem setState_diags (lc : LinearityChecker) (name : String) (state : OwnershipState) :
    (lc.setState name state).diags = lc.diags := by
  unfold setState
  split <;> rfl

@[simp] theorem setState_scopeBindings (lc : LinearityChecker) (name : String)
    (state : OwnershipState) : (lc.setState name state).scopeBindings = lc.scopeBindings := by
  unfold setState
  split <;> rfl

/-- What an operation on one variable may do: fail and leave the states, with an error or without,
or succeed and write the variable's state. -/
inductive Tracked (lc : LinearityChecker) (name : String) (span : Span) :
    Except Unit Unit × LinearityChecker → Prop where
  | wrote (state : OwnershipState) : Tracked lc name span (.ok (), lc.setState name state)
  | kept : Tracked lc name span (.ok (), lc)
  | complained (d : Diagnostic) (herror : d.severity = .error) (hspan : d.span = span) :
      Tracked lc name span (.error (), lc.addDiag d)
  | refused : Tracked lc name span (.error (), lc)

/-- A move is refused with a diagnostic, or sets the state. -/
theorem trackMove_tracked (lc : LinearityChecker) (name : String) (span : Span) :
    Tracked lc name span (lc.trackMove name span) := by
  unfold trackMove
  split
  next => exact .wrote _
  all_goals exact .complained _ rfl rfl

/-- So is a borrow. -/
theorem trackBorrow_tracked (lc : LinearityChecker) (name : String) (kind : BorrowKind)
    (span : Span) : Tracked lc name span (lc.trackBorrow name kind span) := by
  unfold trackBorrow
  split
  case h_4 | h_5 => exact .complained _ rfl rfl
  case h_6 => exact .refused
  all_goals exact .wrote _

theorem trackCopy_tracked (lc : LinearityChecker) (name : String) (copied : Bool) (type : String)
    (span : Span) : Tracked lc name span (lc.trackCopy copied type span) := by
  unfold trackCopy
  split
  next => exact .kept
  next => exact .complained _ rfl rfl

/-- So is every use of a name. -/
theorem checkSymbol_tracked (lc : LinearityChecker) (name : String) (ownership : Ownership)
    (span : Span) : Tracked lc name span (lc.checkSymbol name ownership span) := by
  cases ownership with
  | own => exact trackMove_tracked lc name span
  | ref => exact trackBorrow_tracked lc name .immutable span
  | «mut» => exact trackBorrow_tracked lc name .mutable span
  | copy => exact trackCopy_tracked lc name true "Prim(I64)" span
  | default => exact .kept

theorem Tracked.unchanged {lc : LinearityChecker} {name : String} {span : Span}
    {outcome : Except Unit Unit × LinearityChecker} (h : Tracked lc name span outcome)
    (hfailed : outcome.1 = .error ()) : outcome.2.shadow = lc.shadow := by
  cases h with
  | wrote state => exact nomatch hfailed
  | kept => rfl
  | complained d => rfl
  | refused => rfl

theorem Tracked.diags_grow {lc : LinearityChecker} {name : String} {span : Span}
    {outcome : Except Unit Unit × LinearityChecker} (h : Tracked lc name span outcome) :
    lc.diags <+: outcome.2.diags := by
  cases h with
  | wrote state => exact (setState_diags lc name state).symm ▸ List.prefix_rfl
  | kept => exact List.prefix_rfl
  | complained d => exact List.prefix_append _ _
  | refused => exact List.prefix_rfl

/-- Through the whole checker diagnostics are only added. -/
theorem diags_rule : CheckRule (fun a b => a.diags <+: b.diags) (fun a b => a.diags <+: b.diags)
    (fun _ _ => True) where
  refl _ := List.prefix_rfl
  trans hab hbc := hab.trans hbc
  symbol lc name ownership span := (checkSymbol_tracked lc name ownership span).diags_grow
  merge _ _ _ _ := List.prefix_append _ _
  push _ := List.prefix_rfl
  introduce _ h := h
  step hab hbc := hab.trans hbc
  pop := by
    intro a b h
    unfold popScope
    split
    · exact h
    · split <;> exact h
  snapshot _ := trivial
  restore h _ := h

/-- The argument is moved while borrowed, borrowed mutably while borrowed, borrowed while mutably
borrowed, or used after a move. -/
def ArgCheck.violates (c : ArgCheck) : Bool :=
  match c.ownership, c.state with
  | .own, some (.borrowed _ _) => true
  | .mut, some (.borrowed _ _) => true
  | .ref, some (.borrowed .mutable _) => true
  | _, some (.moved _) => true
  | _, _ => false

/-- The argument is borrowed while mutably borrowed, or it has been moved and its parameter is
copied or has no annotation. -/
def ArgCheck.overlooked (c : ArgCheck) : Bool :=
  match c.ownership, c.state with
  | .ref, some (.borrowed .mutable _) => true
  | .copy, some (.moved _) => true
  | .default, some (.moved _) => true
  | _, _ => false

/-- The check adds an error at the argument. -/
def ArgCheck.Complains (c : ArgCheck) : Prop :=
  ∃ d : Diagnostic, d.severity = .error ∧ d.span = c.span ∧
    c.outcome.2.diags = c.checker.diags ++ [d]

theorem ArgCheck.violates_of_overlooked {c : ArgCheck} (h : c.overlooked = true) :
    c.violates = true := by
  obtain ⟨lc, name, ownership, span⟩ := c
  unfold overlooked at h
  unfold violates
  split at h
  case h_4 => exact nomatch h
  all_goals simp_all

/-- The checker is silent exactly about the overlooked violations. -/
theorem ArgCheck.complains_iff {c : ArgCheck} (h : c.violates = true) :
    c.Complains ↔ c.overlooked = false := by
  obtain ⟨lc, name, ownership, span⟩ := c
  have hadded : ∀ d : Diagnostic, d.severity = .error → d.span = span →
      ∃ d' : Diagnostic, d'.severity = .error ∧ d'.span = span ∧
        (lc.addDiag d).diags = lc.diags ++ [d'] :=
    fun d herror hspan => ⟨d, herror, hspan, rfl⟩
  unfold Complains outcome overlooked
  unfold violates at h
  dsimp only [state] at h ⊢
  cases hstate : lc.lookupState name with
  | none => cases ownership <;> simp [hstate] at h
  | some state =>
    rw [hstate] at h
    cases state with
    | owned => cases ownership <;> simp at h
    | dropped => cases ownership <;> simp at h
    | moved movedAt =>
      cases ownership with
      | own => simpa [checkSymbol, trackMove, hstate] using hadded _ rfl rfl
      | ref => simpa [checkSymbol, trackBorrow, hstate] using hadded _ rfl rfl
      | «mut» => simpa [checkSymbol, trackBorrow, hstate] using hadded _ rfl rfl
      | copy => simp [checkSymbol, trackCopy]
      | default => simp [checkSymbol]
    | borrowed kind count =>
      cases ownership with
      | own => simpa [checkSymbol, trackMove, hstate] using hadded _ rfl rfl
      | «mut» => cases kind <;> simpa [checkSymbol, trackBorrow, hstate] using hadded _ rfl rfl
      | ref =>
        cases kind with
        | immutable => simp at h
        | mutable => simp [checkSymbol, trackBorrow, hstate]
      | copy => cases kind <;> simp at h
      | default => cases kind <;> simp at h

/-- A mutable borrow is the only borrow. -/
def Sole (state : OwnershipState) : Prop :=
  ∀ count, state = .borrowed .mutable count → count = 1

/-- No variable is both mutably borrowed and otherwise borrowed. -/
def Exclusive (lc : LinearityChecker) : Prop :=
  ∀ name state, lc.lookupState name = some state → Sole state

def ExclusiveIn (shadow : Shadow) : Prop :=
  ∀ name entry, shadow.lookup name = some entry → Sole entry.1

/-- The visible states are exclusive, and so are those that a scope brings back. -/
structure Sound (lc : LinearityChecker) : Prop where
  visible : ExclusiveIn lc.shadow
  hidden : ∀ bindings ∈ lc.scopeBindings, ∀ binding ∈ bindings, ∀ entry,
    binding.2 = some entry → Sole entry.1

/-- In a sound state no name is both borrowed mutably and borrowed otherwise. -/
theorem Sound.exclusive {lc : LinearityChecker} (h : lc.Sound) : lc.Exclusive := by
  intro name state hstate
  obtain ⟨entry, hentry, rfl⟩ := Option.map_eq_some_iff.mp hstate
  exact h.visible name entry hentry

theorem ExclusiveIn.insert {shadow : Shadow} (h : ExclusiveIn shadow) {name : String}
    {entry : ShadowEntry} (hentry : Sole entry.1) :
    ExclusiveIn (shadow.insert name entry) := by
  intro other found hfound
  by_cases heq : other = name
  · subst heq
    rw [AList.lookup_insert] at hfound
    cases hfound
    exact hentry
  · rw [AList.lookup_insert_ne heq] at hfound
    exact h other found hfound

theorem ExclusiveIn.erase {shadow : Shadow} (h : ExclusiveIn shadow) (name : String) :
    ExclusiveIn (shadow.erase name) := by
  intro other found hfound
  by_cases heq : other = name
  · subst heq
    rw [AList.lookup_erase] at hfound
    exact nomatch hfound
  · rw [AList.lookup_erase_ne heq] at hfound
    exact h other found hfound

theorem ExclusiveIn.rollback {bindings : List (String × Option ShadowEntry)} {shadow : Shadow}
    (h : ExclusiveIn shadow)
    (hbindings : ∀ binding ∈ bindings, ∀ entry, binding.2 = some entry →
      Sole entry.1) :
    ExclusiveIn (bindings.foldl LinearityChecker.rollback shadow) := by
  induction bindings generalizing shadow with
  | nil => exact h
  | cons binding bindings ih =>
    have hlater := fun b hb => hbindings b (List.mem_cons_of_mem _ hb)
    obtain ⟨name, prev⟩ := binding
    cases prev with
    | none => exact ih (h.erase name) hlater
    | some entry =>
      apply ih (h.insert _) hlater
      exact hbindings _ List.mem_cons_self entry rfl

/-- Setting a possible state keeps it sound. -/
theorem Sound.setState {lc : LinearityChecker} (h : lc.Sound) (name : String)
    {state : OwnershipState} (hstate : Sole state) :
    (lc.setState name state).Sound := by
  unfold LinearityChecker.setState
  split
  next => exact ⟨h.visible.insert hstate, h.hidden⟩
  next => exact h

/-- So does moving. -/
theorem Sound.trackMove {lc : LinearityChecker} (h : lc.Sound) (name : String) (span : Span) :
    (lc.trackMove name span).2.Sound := by
  unfold LinearityChecker.trackMove
  split
  next => exact h.setState name nofun
  all_goals exact ⟨h.visible, h.hidden⟩

/-- So does borrowing. -/
theorem Sound.trackBorrow {lc : LinearityChecker} (h : lc.Sound) (name : String)
    (kind : BorrowKind) (span : Span) : (lc.trackBorrow name kind span).2.Sound := by
  unfold LinearityChecker.trackBorrow
  split
  case h_1 => exact h.setState name nofun
  case h_2 => exact h.setState name nofun
  -- a mutable borrow is only begun where there is no other
  case h_3 => exact h.setState name (fun count heq => by cases heq; rfl)
  all_goals exact ⟨h.visible, h.hidden⟩

theorem Sound.trackCopy {lc : LinearityChecker} (h : lc.Sound) (copied : Bool) (type : String)
    (span : Span) : (lc.trackCopy copied type span).2.Sound := by
  unfold LinearityChecker.trackCopy
  split <;> exact ⟨h.visible, h.hidden⟩

theorem Sound.releaseBorrow {lc : LinearityChecker} (h : lc.Sound) (name : String) :
    (lc.releaseBorrow name).Sound := by
  unfold LinearityChecker.releaseBorrow
  split
  next kind count hstate =>
    split
    next hcount =>
      apply h.setState
      intro left heq
      cases heq
      have hone := h.exclusive name _ hstate count rfl
      omega
    next => exact h.setState name nofun
  next => exact h

/-- So does every use. -/
theorem Sound.checkSymbol {lc : LinearityChecker} (h : lc.Sound) (name : String)
    (ownership : Ownership) (span : Span) : (lc.checkSymbol name ownership span).2.Sound := by
  cases ownership with
  | own => exact h.trackMove name span
  | ref => exact h.trackBorrow name .immutable span
  | «mut» => exact h.trackBorrow name .mutable span
  | copy => exact h.trackCopy true "Prim(I64)" span
  | default => exact h

theorem Sound.introduce {lc : LinearityChecker} (h : lc.Sound) (name : String) :
    (lc.introduce name).Sound := by
  refine ⟨h.visible.insert nofun, ?_⟩
  intro bindings hbindings
  unfold LinearityChecker.introduce at hbindings
  dsimp only at hbindings
  split at hbindings
  next outermost outer heq =>
    rcases List.mem_cons.mp hbindings with rfl | hlater
    · intro binding hbinding entry hentry
      rcases List.mem_cons.mp hbinding with rfl | hbinding
      · exact h.visible name entry hentry
      · exact h.hidden outermost (heq ▸ List.mem_cons_self) binding hbinding entry hentry
    · exact h.hidden bindings (heq ▸ List.mem_cons_of_mem _ hlater)
  next => exact nomatch hbindings

theorem Sound.pushScope {lc : LinearityChecker} (h : lc.Sound) : lc.pushScope.Sound := by
  refine ⟨h.visible, ?_⟩
  intro bindings hbindings
  rcases List.mem_cons.mp hbindings with rfl | hlater
  · exact nofun
  · exact h.hidden bindings hlater

/-- So does leaving a scope. -/
theorem Sound.popScope {lc : LinearityChecker} (h : lc.Sound) : lc.popScope.Sound := by
  unfold LinearityChecker.popScope
  split
  next => exact h
  next =>
    split
    next bindings outer heq =>
      refine ⟨h.visible.rollback (h.hidden bindings (heq ▸ List.mem_cons_self)), ?_⟩
      exact fun others hothers => h.hidden others (heq ▸ List.mem_cons_of_mem _ hothers)
    next heq => exact ⟨h.visible, h.hidden⟩

/-- So does going back to a sound snapshot. -/
theorem Sound.restore {lc : LinearityChecker} (h : lc.Sound) {snap : LinearitySnapshot}
    (hsnap : ExclusiveIn snap.shadow) : (lc.restore snap).Sound :=
  ⟨hsnap, fun bindings hbindings => h.hidden bindings (List.mem_of_mem_drop hbindings)⟩

/-- The rule that carries soundness through the whole checker. -/
theorem sound_rule : CheckRule (fun a b => a.Sound → b.Sound) (fun a b => a.Sound → b.Sound)
    (fun a snap => a.Sound → ExclusiveIn snap.shadow) where
  refl _ h := h
  trans hab hbc h := hbc (hab h)
  symbol _ name ownership span h := h.checkSymbol name ownership span
  merge _ _ _ _ h := ⟨h.visible, h.hidden⟩
  push _ h := h.pushScope
  introduce name hab h := (hab h).introduce name
  step hab hbc h := hbc (hab h)
  pop hab h := (hab h).popScope
  snapshot hab h := (hab h).visible
  restore hab hsnap h := (hab h).restore (hsnap h)

/-- The states that the checker's operations lead to. -/
inductive Reachable : LinearityChecker → Prop where
  | new : Reachable .new
  | introduce {lc} (name) : Reachable lc → Reachable (lc.introduce name)
  | trackMove {lc} (name span) : Reachable lc → Reachable (lc.trackMove name span).2
  | trackBorrow {lc} (name kind span) : Reachable lc → Reachable (lc.trackBorrow name kind span).2
  | trackCopy {lc} (copied type span) : Reachable lc → Reachable (lc.trackCopy copied type span).2
  | releaseBorrow {lc} (name) : Reachable lc → Reachable (lc.releaseBorrow name)
  | registerFn {lc} (def_) : Reachable lc → Reachable (lc.registerFn def_)
  | checkExpr {lc} (e) : Reachable lc → Reachable (checkExpr e lc)
  | pushScope {lc} : Reachable lc → Reachable lc.pushScope
  | popScope {lc} : Reachable lc → Reachable lc.popScope
  | restore {lc earlier} : Reachable lc → Reachable earlier →
      Reachable (lc.restore earlier.snapshot)
  | drainDiagnostics {lc} : Reachable lc → Reachable lc.drainDiagnostics.2

/-- Every state that the checker reaches is sound. -/
theorem Reachable.sound {lc : LinearityChecker} (h : Reachable lc) : lc.Sound := by
  induction h with
  | new =>
    constructor
    · intro name entry hentry
      exact nomatch hentry
    · intro bindings hbindings
      rw [List.mem_singleton.mp hbindings]
      exact nofun
  | introduce name _ ih => exact ih.introduce name
  | trackMove name span _ ih => exact ih.trackMove name span
  | trackBorrow name kind span _ ih => exact ih.trackBorrow name kind span
  | trackCopy copied type span _ ih => exact ih.trackCopy copied type span
  | releaseBorrow name _ ih => exact ih.releaseBorrow name
  | registerFn def_ _ ih => exact ⟨ih.visible, ih.hidden⟩
  | checkExpr e _ ih => exact sound_rule.checkExpr e _ ih
  | pushScope _ ih => exact ih.pushScope
  | popScope _ ih => exact ih.popScope
  | restore _ _ ih ihEarlier => exact ih.restore ihEarlier.visible
  | drainDiagnostics _ ih => exact ⟨ih.visible, ih.hidden⟩

/-- Every violation met in checking the expression adds an error to those that were there, and the
error is kept; a failed check leaves the states; and from a reachable state on mutable borrows are
exclusive throughout. -/
structure Enforced (lc : LinearityChecker) (e : Expr) : Prop where
  reported : ∀ c ∈ argChecks e lc, c.violates = true →
    c.Complains ∧ lc.diags <+: c.checker.diags ∧ c.outcome.2.diags <+: (checkExpr e lc).diags
  unchanged : ∀ c ∈ argChecks e lc, c.outcome.1 = .error () → c.outcome.2.shadow = c.checker.shadow
  exclusive : Reachable lc →
    (∀ c ∈ argChecks e lc, c.checker.Exclusive ∧ c.outcome.2.Exclusive) ∧
      (checkExpr e lc).Exclusive

/-- Ownership is enforced exactly where no check is overlooked: nothing is borrowed while mutably
borrowed, and nothing that has been moved is passed where there is no annotation or a copy. -/
theorem enforced_iff (lc : LinearityChecker) (e : Expr) :
    Enforced lc e ↔ ∀ c ∈ argChecks e lc, c.overlooked = false := by
  constructor
  · intro h c hc
    by_contra hoverlooked
    rw [Bool.not_eq_false] at hoverlooked
    have hviolates := ArgCheck.violates_of_overlooked hoverlooked
    rw [(ArgCheck.complains_iff hviolates).mp (h.reported c hc hviolates).1] at hoverlooked
    exact nomatch hoverlooked
  · intro h
    constructor
    · intro c hc hviolates
      obtain ⟨hbefore, hafter⟩ :=
        diags_rule.argChecks (p := True) (fun _ _ _ => trivial) e lc c hc
      exact ⟨(ArgCheck.complains_iff hviolates).mpr (h c hc), hbefore, hafter trivial⟩
    · intro c _ hfailed
      exact (checkSymbol_tracked c.checker c.name c.ownership c.span).unchanged hfailed
    · intro hreach
      constructor
      · intro c hc
        have hchecker := (sound_rule.argChecks (p := False) nofun e lc c hc).1 hreach.sound
        exact ⟨hchecker.exclusive, (hchecker.checkSymbol _ _ _).exclusive⟩
      · exact (sound_rule.checkExpr e lc hreach.sound).exclusive

def symbol (name : String) : Expr := ⟨.symbolRef name, .dummy⟩

def call (name : String) (args : List Expr) : Expr := ⟨.fnCall (symbol name) args, .dummy⟩

def paramOf (ownership : Ownership) (name : String) : Param :=
  ⟨ownership, name, ⟨.named "i64", .dummy⟩, none, .dummy⟩

/-- A function of a mutable and a shared reference. -/
def mix : FnDef :=
  ⟨"mix", [paramOf .mut "a", paramOf .ref "b"], ⟨.named "i64", .dummy⟩, [], [], [], symbol "a"⟩

def consume : FnDef :=
  ⟨"consume", [paramOf .own "a"], ⟨.named "i64", .dummy⟩, [], [], [], symbol "a"⟩

/-- The two functions are known and `x` is in scope. -/
def started : LinearityChecker :=
  (((new.registerFn mix).registerFn consume).pushScope).introduce "x"

theorem started_reachable : Reachable started :=
  ((((Reachable.new).registerFn mix).registerFn consume).pushScope).introduce "x"

/-- In `(mix x x)` the variable is borrowed while mutably borrowed, in `(do (consume x) (print x))`
it is used after a move, and no diagnostic is added. -/
theorem overlooked_not_enforced :
    Reachable started ∧
    (∀ e ∈ [call "mix" [symbol "x", symbol "x"],
        ⟨.do [call "consume" [symbol "x"], call "print" [symbol "x"]], .dummy⟩],
      ¬ Enforced started e ∧ (∃ c ∈ argChecks e started, c.violates = true) ∧
        (checkExpr e started).diags = []) := by
  refine ⟨started_reachable, ?_⟩
  have hsilent : ∀ e c, c ∈ argChecks e started → c.violates = true →
      (checkExpr e started).diags = [] → ¬ Enforced started e := by
    intro e c hc hviolates hdiags h
    obtain ⟨⟨d, _, _, hadded⟩, _, hkept⟩ := h.reported c hc hviolates
    rw [hadded, hdiags] at hkept
    exact absurd (List.eq_nil_of_prefix_nil hkept) (by simp)
  intro e he
  have hmet : ∃ c ∈ argChecks e started, c.violates = true := by
    simp only [List.mem_cons, List.not_mem_nil, or_false] at he
    rcases he with rfl | rfl
    · exact ⟨⟨_, "x", .ref, .dummy⟩, List.mem_cons_of_mem _ List.mem_cons_self, by decide⟩
    · exact ⟨⟨_, "x", .default, .dummy⟩, List.mem_cons_of_mem _ List.mem_cons_self, by decide⟩
  have hdiags : (checkExpr e started).diags = [] := by
    simp only [List.mem_cons, List.not_mem_nil, or_false] at he
    rcases he with rfl | rfl <;> decide
  obtain ⟨c, hc, hviolates⟩ := hmet
  exact ⟨hsilent e c hc hviolates hdiags, ⟨c, hc, hviolates⟩, hdiags⟩

end LinearityChecker

end Airl
