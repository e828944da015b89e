import Airl.Types.Borrows
import Airl.Types.Branches

/-! # The checker goes the way of the walk

The checker keeps one entry for each name and takes it back when a scope ends. Between the entries
and the variables in scope stands an agreement, which every expression keeps as long as no parameter
that the checker overlooks is given away.
-/

namespace Airl.LinearityChecker

/-! ## Entries and variables -/

/-- The entries are the variables in scope, the names of `overlooked` apart: these stand for
parameters, and the entries under them are those of `kept`. -/
structure Agrees (overlooked : List String) (kept states σ : Holdings) : Prop where
  tracked : ∀ name ∉ overlooked, states name = σ name
  params : ∀ name ∈ overlooked, σ name = some .owned
  entries : ∀ name ∈ overlooked, states name = kept name

variable {overlooked names : List String} {kept states states' σ σ' : Holdings}

theorem mem_without {name : String} :
    name ∈ without overlooked names ↔ name ∈ overlooked ∧ name ∉ names := by
  unfold without
  rw [List.mem_filter, decide_eq_true_iff]

theorem without_nil : without overlooked [] = overlooked := by
  unfold without
  simp only [List.not_mem_nil, not_false_eq_true, decide_true, List.filter_true]

theorem without_cons (name : String) :
    without (without overlooked [name]) names = without overlooked (name :: names) := by
  unfold without
  rw [List.filter_filter]
  congr 1
  funext other
  rw [← Bool.decide_and]
  simp only [List.mem_cons, List.not_mem_nil, or_false, not_or, and_comm]

/-- Introducing names ends the overlooking of those names. -/
theorem Agrees.introduce (h : Agrees overlooked kept states σ) (names : List String) :
    Agrees (without overlooked names) kept (Holdings.introduce states names)
      (σ.introduce names) := by
  refine ⟨?_, ?_, ?_⟩
  · intro name hname
    unfold Holdings.introduce
    split
    next => rfl
    next hnew => exact h.tracked name fun hmem => hname (mem_without.mpr ⟨hmem, hnew⟩)
  · intro name hname
    obtain ⟨hmem, hnew⟩ := mem_without.mp hname
    unfold Holdings.introduce
    rw [if_neg hnew]
    exact h.params name hmem
  · intro name hname
    obtain ⟨hmem, hnew⟩ := mem_without.mp hname
    unfold Holdings.introduce
    rw [if_neg hnew]
    exact h.entries name hmem

/-- At the end of a scope the names mean what they meant before. -/
theorem Agrees.closing (h : Agrees overlooked kept states σ)
    (hinner : Agrees (without overlooked names) kept states' σ') :
    Agrees overlooked kept (Holdings.closing states' names states) (σ'.closing names σ) := by
  refine ⟨?_, ?_, ?_⟩
  · intro name hname
    unfold Holdings.closing
    split
    next => exact h.tracked name hname
    next => exact hinner.tracked name fun hmem => hname (mem_without.mp hmem).1
  · intro name hname
    unfold Holdings.closing
    split
    next => exact h.params name hname
    next hold => exact hinner.params name (mem_without.mpr ⟨hname, hold⟩)
  · intro name hname
    unfold Holdings.closing
    split
    next => exact h.entries name hname
    next hold => exact hinner.entries name (mem_without.mpr ⟨hname, hold⟩)

/-- More names may be overlooked. -/
theorem Agrees.overlook (h : Agrees overlooked kept states σ) (names : List String) :
    Agrees (names ++ overlooked) states states (σ.introduce names) := by
  refine ⟨?_, ?_, fun _ _ => rfl⟩
  · intro name hname
    rw [List.mem_append, not_or] at hname
    unfold Holdings.introduce
    rw [if_neg hname.1]
    exact h.tracked name hname.2
  · intro name hname
    unfold Holdings.introduce
    split
    next => rfl
    next hold => exact h.params name ((List.mem_append.mp hname).resolve_left hold)

theorem Agrees.forget (h : Agrees overlooked kept states σ)
    (hinner : Agrees (names ++ overlooked) states states' σ') :
    Agrees overlooked kept states' (σ'.closing names σ) := by
  refine ⟨?_, ?_, ?_⟩
  · intro name hname
    unfold Holdings.closing
    split
    next hin =>
      rw [hinner.entries name (List.mem_append_left _ hin)]
      exact h.tracked name hname
    next hout =>
      exact hinner.tracked name fun hmem => (List.mem_append.mp hmem).elim hout hname
  · intro name hname
    unfold Holdings.closing
    split
    next => exact h.params name hname
    next => exact hinner.params name (List.mem_append_right _ hname)
  · intro name hname
    rw [hinner.entries name (List.mem_append_right _ hname)]
    exact h.entries name hname

/-! ## Arguments -/

theorem lookupState_setState {lc : LinearityChecker} {name : String} {state : OwnershipState}
    (hstate : lc.lookupState name = some state) (state' : OwnershipState) (other : String) :
    (lc.setState name state').lookupState other =
      if other = name then some state' else lc.lookupState other := by
  obtain ⟨⟨found, depth⟩, hentry, -⟩ := Option.map_eq_some_iff.mp hstate
  unfold setState lookupState
  rw [hentry]
  by_cases heq : other = name
  · rw [if_pos heq, heq]
    simp only [AList.lookup_insert, Option.map_some]
  · rw [if_neg heq]
    simp only [AList.lookup_insert_ne heq]

theorem pass_eq_self {name : String} {ownership : Ownership} {span : Span}
    (h : (σ name).map (passed ownership span) = σ name) : σ.pass name ownership span = σ := by
  funext other
  unfold Holdings.pass
  split
  next heq => rw [h, heq]
  next => rfl

theorem pass_eq_of_setState {lc : LinearityChecker} {name : String} {state : OwnershipState}
    (ownership : Ownership) (span : Span) (hstate : lc.lookupState name = some state) :
    (lc.setState name (passed ownership span state)).lookupState =
      Holdings.pass lc.lookupState name ownership span := by
  funext other
  unfold Holdings.pass
  rw [lookupState_setState hstate, hstate, Option.map_some]

/-- A use that is refused changes nothing. -/
theorem pass_of_refused {lc lc' : LinearityChecker} {name : String} {ownership : Ownership}
    {span : Span} {state : Option OwnershipState} (hstate : lc.lookupState name = state)
    (hfixed : state.map (passed ownership span) = state)
    (hsame : lc'.lookupState = lc.lookupState) :
    lc'.lookupState = Holdings.pass lc.lookupState name ownership span := by
  rw [hsame, pass_eq_self]
  rw [hstate, hfixed]

/-- A move changes the state of the moved name as the walk does. -/
theorem lookupState_trackMove (lc : LinearityChecker) (name : String) (span : Span) :
    (lc.trackMove name span).2.lookupState = Holdings.pass lc.lookupState name .own span := by
  unfold trackMove
  split
  next hstate => exact pass_eq_of_setState .own span hstate
  next hstate => exact pass_of_refused hstate rfl rfl
  next kind count hstate =>
    apply pass_of_refused hstate _ rfl
    cases kind <;> rfl
  next hstate => exact pass_of_refused hstate rfl rfl
  next hstate => exact pass_of_refused hstate rfl rfl

/-- So does a borrow. -/
theorem lookupState_trackBorrow (lc : LinearityChecker) (name : String) (span : Span) :
    (lc.trackBorrow name .immutable span).2.lookupState =
        Holdings.pass lc.lookupState name .ref span ∧
      (lc.trackBorrow name .mutable span).2.lookupState =
        Holdings.pass lc.lookupState name .mut span := by
  rcases hstate : lc.lookupState name with _ | _ | ⟨_ | _, count⟩ | at_ | _
  all_goals simp only [trackBorrow, hstate]
  case none => exact ⟨pass_of_refused hstate rfl rfl, pass_of_refused hstate rfl rfl⟩
  case some.owned =>
    exact ⟨pass_eq_of_setState .ref span hstate, pass_eq_of_setState .mut span hstate⟩
  case some.borrowed.immutable =>
    exact ⟨pass_eq_of_setState .ref span hstate, pass_of_refused hstate rfl rfl⟩
  case some.borrowed.mutable =>
    exact ⟨pass_of_refused hstate rfl rfl, pass_of_refused hstate rfl rfl⟩
  case some.moved => exact ⟨pass_of_refused hstate rfl rfl, pass_of_refused hstate rfl rfl⟩
  case some.dropped => exact ⟨pass_of_refused hstate rfl rfl, pass_of_refused hstate rfl rfl⟩

theorem pass_of_read {name : String} {ownership : Ownership} (span : Span)
    (h : ownership = .copy ∨ ownership = .default) : σ.pass name ownership span = σ := by
  apply pass_eq_self
  cases σ name with
  | none => rfl
  | some state =>
    rcases h with rfl | rfl
    all_goals
      rcases state with _ | ⟨kind, count⟩ | at_ | _
      · rfl
      · cases kind <;> rfl
      · rfl
      · rfl

/-- So does every use of a name. -/
theorem lookupState_checkSymbol (lc : LinearityChecker) (name : String) (ownership : Ownership)
    (span : Span) :
    (lc.checkSymbol name ownership span).2.lookupState =
      Holdings.pass lc.lookupState name ownership span := by
  cases ownership with
  | own => exact lookupState_trackMove lc name span
  | ref => exact (lookupState_trackBorrow lc name span).1
  | «mut» => exact (lookupState_trackBorrow lc name span).2
  | copy => exact (pass_of_read span (.inl rfl)).symm
  | default => exact (pass_of_read span (.inr rfl)).symm

/-- A use of a name that is not overlooked keeps the agreement. -/
theorem Agrees.pass (h : Agrees overlooked kept states σ) {name : String}
    (hname : name ∉ overlooked) (ownership : Ownership) (span : Span) :
    Agrees overlooked kept (Holdings.pass states name ownership span)
      (σ.pass name ownership span) := by
  refine ⟨?_, ?_, ?_⟩
  · intro other hother
    unfold Holdings.pass
    rw [h.tracked name hname, h.tracked other hother]
  · intro other hother
    have hne : other ≠ name := fun heq => hname (heq ▸ hother)
    unfold Holdings.pass
    rw [if_neg hne]
    exact h.params other hother
  · intro other hother
    have hne : other ≠ name := fun heq => hname (heq ▸ hother)
    unfold Holdings.pass
    rw [if_neg hne]
    exact h.entries other hother

/-! ## Scopes -/

/-- The entries when `bindings` have been taken back. -/
def taken (bindings : List (String × Option ShadowEntry)) (shadow : Shadow) : Holdings :=
  fun name => ((bindings.foldl rollback shadow).lookup name).map Prod.fst

theorem taken_append_singleton (bindings : List (String × Option ShadowEntry)) (name : String)
    (prev : Option ShadowEntry) (shadow : Shadow) (other : String) :
    taken (bindings ++ [(name, prev)]) shadow other =
      if other = name then prev.map Prod.fst else taken bindings shadow other := by
  unfold taken
  rw [List.foldl_append]
  simp only [List.foldl_cons, List.foldl_nil]
  rw [lookup_rollback]
  split <;> rfl

theorem taken_snoc (bindings : List (String × Option ShadowEntry)) (name : String)
    (lc : LinearityChecker) (shadow : Shadow) :
    taken (bindings ++ [(name, lc.shadow.lookup name)]) shadow =
      Holdings.closing (taken bindings shadow) [name] lc.lookupState := by
  funext other
  rw [taken_append_singleton]
  unfold Holdings.closing
  by_cases heq : other = name
  · rw [if_pos heq, if_pos (List.mem_singleton.mpr heq), heq]
    rfl
  · rw [if_neg heq, if_neg fun hmem => heq (List.mem_singleton.mp hmem)]

theorem fnOwnerships_popScope (lc : LinearityChecker) :
    lc.popScope.fnOwnerships = lc.fnOwnerships := by
  unfold popScope
  split
  next => rfl
  next => split <;> rfl

/-- A name that is introduced is owned. -/
theorem lookupState_introduce (lc : LinearityChecker) (name : String) :
    (lc.introduce name).lookupState = Holdings.introduce lc.lookupState [name] := by
  funext other
  unfold introduce lookupState Holdings.introduce
  by_cases heq : other = name
  · rw [if_pos (List.mem_singleton.mpr heq), heq]
    simp only [AList.lookup_insert, Option.map_some]
  · rw [if_neg (fun hmem => heq (List.mem_singleton.mp hmem))]
    simp only [AList.lookup_insert_ne heq]

theorem scopeBindings_introduce {lc : LinearityChecker}
    {bindings : List (String × Option ShadowEntry)}
    {outer : List (List (String × Option ShadowEntry))}
    (h : lc.scopeBindings = bindings :: outer) (name : String) :
    (lc.introduce name).scopeBindings = ((name, lc.shadow.lookup name) :: bindings) :: outer := by
  unfold introduce
  simp only [h]

/-- Several names, one after the other. -/
def introduces (names : List String) (lc : LinearityChecker) : LinearityChecker :=
  names.foldl introduce lc

theorem introduces_append (first second : List String) (lc : LinearityChecker) :
    introduces (first ++ second) lc = introduces second (introduces first lc) :=
  List.foldl_append

mutual

/-- A pattern introduces its names in order. -/
theorem introducePattern_eq : ∀ (p : Pattern) (lc : LinearityChecker),
    introducePattern p lc = introduces (patternNames p) lc
  | ⟨.binding _, _⟩, _ => rfl
  | ⟨.variant _ subPats, _⟩, lc => introducePatterns_eq subPats lc
  | ⟨.wildcard, _⟩, _ => rfl
  | ⟨.literal _, _⟩, _ => rfl

theorem introducePatterns_eq : ∀ (ps : List Pattern) (lc : LinearityChecker),
    introducePatterns ps lc = introduces (patternsNames ps) lc
  | [], _ => rfl
  | p :: ps, lc => by
    unfold introducePatterns patternsNames
    rw [introduces_append, introducePattern_eq p, introducePatterns_eq ps]

end

theorem lookupState_introduces (names : List String) (lc : LinearityChecker) :
    (introduces names lc).lookupState = Holdings.introduce lc.lookupState names := by
  induction names generalizing lc with
  | nil => rfl
  | cons name names ih =>
    funext other
    have hrest := congrFun (ih (lc.introduce name)) other
    rw [lookupState_introduce] at hrest
    apply hrest.trans
    unfold Holdings.introduce
    by_cases hmem : other ∈ names
    · rw [if_pos hmem, if_pos (List.mem_cons_of_mem name hmem)]
    · rw [if_neg hmem]
      simp only [List.mem_cons, List.not_mem_nil, hmem, or_false]

theorem introduces_taken (names : List String) {lc : LinearityChecker}
    {bindings : List (String × Option ShadowEntry)}
    {outer : List (List (String × Option ShadowEntry))}
    (h : lc.scopeBindings = bindings :: outer) :
    ∃ bound, (introduces names lc).scopeBindings = (bound ++ bindings) :: outer ∧
      ∀ shadow, taken bound shadow =
        Holdings.closing (taken [] shadow) names lc.lookupState := by
  induction names generalizing lc bindings with
  | nil => exact ⟨[], h, fun _ => rfl⟩
  | cons name names ih =>
    obtain ⟨bound, hbound, htaken⟩ := ih (scopeBindings_introduce h name)
    refine ⟨bound ++ [(name, lc.shadow.lookup name)], ?_, fun shadow => ?_⟩
    · rw [List.append_assoc]
      exact hbound
    · funext other
      rw [taken_append_singleton, htaken, lookupState_introduce]
      unfold Holdings.closing Holdings.introduce
      by_cases heq : other = name
      · rw [if_pos heq, heq, if_pos List.mem_cons_self]
        rfl
      · simp only [List.mem_cons, List.not_mem_nil, heq, false_or, if_false]

/-- Leaving a scope puts back what its names hid. -/
theorem popScope_of_scope {lc : LinearityChecker} {depth : Nat}
    {bindings : List (String × Option ShadowEntry)}
    {outer : List (List (String × Option ShadowEntry))} (hdepth : lc.depth = depth + 1)
    (h : lc.scopeBindings = bindings :: outer) :
    lc.popScope.lookupState = taken bindings lc.shadow := by
  have hpos : lc.depth ≠ 0 := by omega
  unfold popScope
  rw [if_neg hpos, h]
  rfl

/-! ## The arms -/

/-- Each arm is checked from the state before the match. -/
theorem checkArms_eq (arms : List MatchArm) (snap : LinearitySnapshot) (lc : LinearityChecker) :
    (checkArms arms snap lc).1 = ((matchRuns arms snap lc).map ArmRun.stop).map snapshot ∧
      (checkArms arms snap lc).2 =
        ((matchRuns arms snap lc).map ArmRun.stop).getLast?.getD lc := by
  induction arms generalizing lc with
  | nil => exact ⟨rfl, rfl⟩
  | cons arm arms ih =>
    obtain ⟨pattern, body, span⟩ := arm
    obtain ⟨hstates, hend⟩ :=
      ih (checkExpr body (introducePattern pattern (lc.restore snap).pushScope)).popScope
    unfold checkArms matchRuns
    rw [List.map_cons, List.map_cons, List.getLast?_cons, Option.getD_some]
    exact ⟨congrArg (List.cons _) hstates, hend⟩

theorem checkExpr_match (scrutinee : Expr) (arms : List MatchArm) (span : Span)
    (lc : LinearityChecker) :
    (checkExpr ⟨.match scrutinee arms, span⟩ lc).lookupState =
      ((matchRuns arms (checkExpr scrutinee lc).snapshot (checkExpr scrutinee lc)).map
        (fun run => run.stop.lookupState)).headD (checkExpr scrutinee lc).lookupState := by
  rw [checkExpr]
  cases arms with
  | nil => rfl
  | cons arm arms =>
    obtain ⟨pattern, body, armSpan⟩ := arm
    rfl

/-! ## Along an expression -/

variable {fns : Ownerships}

theorem extractCalleeOwnerships_eq {lc : LinearityChecker} (h : lc.fnOwnerships = fns)
    (callee : Expr) : lc.extractCalleeOwnerships callee = ownershipsOf fns callee := by
  subst h
  rfl

/-- A name in an argument position keeps the agreement. -/
theorem Agrees.symbol {lc : LinearityChecker} (h : Agrees overlooked kept lc.lookupState σ)
    (name : String) (ownership : Ownership) (span : Span)
    (hkept : (match ownership with
      | .own | .ref | .mut => decide (name ∉ overlooked)
      | .copy | .default => true) = true) :
    Agrees overlooked kept (lc.checkSymbol name ownership span).2.lookupState
      (σ.pass name ownership span) := by
  rw [lookupState_checkSymbol]
  cases ownership with
  | own => exact h.pass (of_decide_eq_true hkept) .own span
  | ref => exact h.pass (of_decide_eq_true hkept) .ref span
  | «mut» => exact h.pass (of_decide_eq_true hkept) .mut span
  | copy =>
    rw [pass_of_read span (.inl rfl), pass_of_read span (.inl rfl)]
    exact h
  | default =>
    rw [pass_of_read span (.inr rfl), pass_of_read span (.inr rfl)]
    exact h

/-- The checker and the walk go the same way. -/
def WalksAs (fns : Ownerships) (check : LinearityChecker → LinearityChecker)
    (walked : Holdings → Holdings) (overlooked : List String) : Prop :=
  ∀ (lc : LinearityChecker) (σ kept : Holdings), lc.fnOwnerships = fns →
    Agrees overlooked kept lc.lookupState σ →
      Agrees overlooked kept (check lc).lookupState (walked σ)

/-- One after the other. -/
theorem WalksAs.then_ {first second : LinearityChecker → LinearityChecker}
    {walked walked' : Holdings → Holdings} (h : WalksAs fns first walked overlooked)
    (hfns : ∀ lc, (first lc).fnOwnerships = lc.fnOwnerships)
    (h' : WalksAs fns second walked' overlooked) :
    WalksAs fns (fun lc => second (first lc)) (fun σ => walked' (walked σ)) overlooked := by
  intro lc σ kept hlc hagrees
  exact h' _ _ _ ((hfns lc).trans hlc) (h lc σ kept hlc hagrees)

theorem fnOwnerships_checkExpr (e : Expr) (lc : LinearityChecker) :
    (checkExpr e lc).fnOwnerships = lc.fnOwnerships :=
  (follows_rule.checkExpr e lc).fns

/-- A lambda or a quantifier, whose parameters the checker does not introduce. -/
theorem WalksAs.overlooking {check : LinearityChecker → LinearityChecker}
    {walked : Holdings → Holdings} (names : List String)
    (h : WalksAs fns check walked (names ++ overlooked)) :
    WalksAs fns check (fun σ => (walked (σ.introduce names)).closing names σ) overlooked := by
  intro lc σ kept hlc hagrees
  exact hagrees.forget (h lc _ _ hlc (hagrees.overlook names))

/-- A body in a scope of its own. -/
theorem WalksAs.scope {body : Expr} (h : WalksAs fns (checkExpr body) (walk fns body) overlooked) :
    WalksAs fns (fun lc => (checkExpr body lc.pushScope).popScope) (walk fns body) overlooked := by
  intro lc σ kept hlc hagrees
  have hfollows := follows_rule.checkExpr body lc.pushScope
  rw [popScope_of_scope hfollows.depth hfollows.scopes]
  exact h lc.pushScope σ kept hlc hagrees

/-- An arm introduces its names before its body. -/
theorem WalksAs.arm {body : Expr} (pattern : Pattern)
    (h : WalksAs fns (checkExpr body) (walk fns body)
      (without overlooked (patternNames pattern))) :
    WalksAs fns (fun lc => (checkExpr body (introducePattern pattern lc.pushScope)).popScope)
      (fun σ => (walk fns body (σ.introduce (patternNames pattern))).closing
        (patternNames pattern) σ) overlooked := by
  intro lc σ kept hlc hagrees
  have hpushed : lc.pushScope.scopeBindings = [] :: lc.scopeBindings := rfl
  obtain ⟨bound, hbound, htaken⟩ := introduces_taken (patternNames pattern) hpushed
  have hinside := follows_rule.introducePattern pattern _ (follows_rule.push lc)
  have hfollows := follows_rule.checkExpr body (introducePattern pattern lc.pushScope)
  dsimp only
  rw [introducePattern_eq] at hfollows hinside ⊢
  rw [popScope_of_scope (hfollows.depth.trans hinside.depth) (hfollows.scopes.trans hbound),
    List.append_nil, htaken]
  apply hagrees.closing
  apply h _ _ kept (hinside.fns.trans hlc)
  rw [lookupState_introduces]
  exact hagrees.introduce (patternNames pattern)

theorem headD_agrees {runs : List ArmRun} {afters : List Holdings} {before σ : Holdings}
    (h : List.Forall₂ (fun run after => Agrees overlooked kept run.stop.lookupState after) runs
      afters) (hbefore : Agrees overlooked kept before σ) :
    Agrees overlooked kept ((runs.map fun run => run.stop.lookupState).headD before)
      (afters.headD σ) := by
  cases h with
  | nil => exact hbefore
  | cons hfirst _ => exact hfirst

/-- A quantifier introduces its variable. -/
theorem WalksAs.quantifier {guard : Option Expr} {body : Expr} (param : Param)
    (hguard : WalksAs fns (checkWhere guard) (walkGuard fns guard) (param.name :: overlooked))
    (hbody : WalksAs fns (checkExpr body) (walk fns body) (param.name :: overlooked)) :
    WalksAs fns (fun lc => checkExpr body (checkWhere guard lc))
      (fun σ => (walk fns body (walkGuard fns guard (σ.introduce [param.name]))).closing
        [param.name] σ) overlooked :=
  WalksAs.overlooking [param.name]
    (hguard.then_ (fun lc => (follows_rule.checkWhere guard lc).fns) hbody)

mutual

/-- The checker's states are those of the walk, by induction on the expression. -/
theorem walk_agrees : ∀ (e : Expr) {overlooked : List String},
    keepsParams fns e overlooked = true → WalksAs fns (checkExpr e) (walk fns e) overlooked
  | ⟨.fnCall callee args, _⟩, overlooked, hkeeps => by
    rw [keepsParams, Bool.and_eq_true] at hkeeps
    intro lc σ kept hlc hagrees
    rw [checkExpr, walk, extractCalleeOwnerships_eq hlc]
    have hargs := walkArgs_agrees args (ownershipsOf fns callee) hkeeps.1 lc σ kept hlc hagrees
    exact walk_agrees callee hkeeps.2 _ _ kept
      ((follows_rule.checkArgs args _ lc).fns.trans hlc) hargs
  | ⟨.let bindings body, _⟩, overlooked, hkeeps => by
    rw [keepsParams, Bool.and_eq_true] at hkeeps
    intro lc σ kept hlc hagrees
    rw [checkExpr, walk]
    have hpushed : lc.pushScope.scopeBindings = [] :: lc.scopeBindings := rfl
    obtain ⟨bound, hbound, hbody⟩ := walkLet_agrees bindings hkeeps.1
      (walk_agrees body hkeeps.2) (lc.pushScope) hlc hpushed hagrees
    have hdepth : (checkExpr body (checkBindings bindings lc.pushScope)).depth = lc.depth + 1 :=
      (follows_rule.checkExpr body _).depth.trans
        (follows_rule.checkBindings bindings _ (follows_rule.push lc)).depth
    rw [List.append_nil] at hbound
    rw [popScope_of_scope hdepth hbound]
    exact hbody
  | ⟨.do exprs, _⟩, overlooked, hkeeps => by
    rw [keepsParams] at hkeeps
    intro lc σ kept hlc hagrees
    rw [checkExpr, walk]
    exact walkAll_agrees exprs hkeeps lc σ kept hlc hagrees
  | ⟨.ite cond then_ else_, span⟩, overlooked, hkeeps => by
    rw [keepsParams, Bool.and_eq_true, Bool.and_eq_true] at hkeeps
    intro lc σ kept hlc hagrees
    rw [checkExpr, walk]
    have hcond := walk_agrees cond hkeeps.1.1 lc σ kept hlc hagrees
    have hfns : ((checkExpr then_ (checkExpr cond lc)).restore
        (checkExpr cond lc).snapshot).fnOwnerships = fns :=
      (fnOwnerships_checkExpr then_ _).trans ((fnOwnerships_checkExpr cond lc).trans hlc)
    exact walk_agrees else_ hkeeps.2 _ _ kept hfns hcond
  | ⟨.match scrutinee arms, span⟩, overlooked, hkeeps => by
    rw [keepsParams, Bool.and_eq_true] at hkeeps
    intro lc σ kept hlc hagrees
    have hscrutinee := walk_agrees scrutinee hkeeps.1 lc σ kept hlc hagrees
    have hfns := (fnOwnerships_checkExpr scrutinee lc).trans hlc
    have harms := walkArms_agrees arms hkeeps.2 (checkExpr scrutinee lc).snapshot
      (checkExpr scrutinee lc) hfns hscrutinee
    rw [checkExpr_match, walk]
    -- what follows is the first arm's state
    exact headD_agrees harms hscrutinee
  | ⟨.lambda params body, _⟩, overlooked, hkeeps => by
    rw [keepsParams] at hkeeps
    intro lc σ kept hlc hagrees
    rw [checkExpr, walk]
    exact (walk_agrees body hkeeps).scope.overlooking _ lc σ kept hlc hagrees
  | ⟨.try inner, _⟩, overlooked, hkeeps => by
    rw [keepsParams] at hkeeps
    intro lc σ kept hlc hagrees
    rw [checkExpr, walk]
    exact walk_agrees inner hkeeps lc σ kept hlc hagrees
  | ⟨.variantCtor _ args, _⟩, overlooked, hkeeps => by
    rw [keepsParams] at hkeeps
    intro lc σ kept hlc hagrees
    rw [checkExpr, walk]
    exact walkAll_agrees args hkeeps lc σ kept hlc hagrees
  | ⟨.structLit _ fields, _⟩, overlooked, hkeeps => by
    rw [keepsParams] at hkeeps
    intro lc σ kept hlc hagrees
    rw [checkExpr, walk]
    exact walkFields_agrees fields hkeeps lc σ kept hlc hagrees
  | ⟨.listLit items, _⟩, overlooked, hkeeps => by
    rw [keepsParams] at hkeeps
    intro lc σ kept hlc hagrees
    rw [checkExpr, walk]
    exact walkAll_agrees items hkeeps lc σ kept hlc hagrees
  | ⟨.forall param guard body, _⟩, overlooked, hkeeps => by
    rw [keepsParams, Bool.and_eq_true] at hkeeps
    intro lc σ kept hlc hagrees
    rw [checkExpr, walk]
    exact WalksAs.quantifier param (walkGuard_agrees guard hkeeps.1) (walk_agrees body hkeeps.2)
      lc σ kept hlc hagrees
  | ⟨.exists param guard body, _⟩, overlooked, hkeeps => by
    rw [keepsParams, Bool.and_eq_true] at hkeeps
    intro lc σ kept hlc hagrees
    rw [checkExpr, walk]
    exact WalksAs.quantifier param (walkGuard_agrees guard hkeeps.1) (walk_agrees body hkeeps.2)
      lc σ kept hlc hagrees
  | ⟨.intLit _, _⟩, _, _ => fun _ _ _ _ hagrees => hagrees
  | ⟨.floatLit _, _⟩, _, _ => fun _ _ _ _ hagrees => hagrees
  | ⟨.strLit _, _⟩, _, _ => fun _ _ _ _ hagrees => hagrees
  | ⟨.boolLit _, _⟩, _, _ => fun _ _ _ _ hagrees => hagrees
  | ⟨.nilLit, _⟩, _, _ => fun _ _ _ _ hagrees => hagrees
  | ⟨.symbolRef _, _⟩, _, _ => fun _ _ _ _ hagrees => hagrees
  | ⟨.keywordLit _, _⟩, _, _ => fun _ _ _ _ hagrees => hagrees

theorem walkAll_agrees : ∀ (es : List Expr) {overlooked : List String},
    keepsAll fns es overlooked = true → WalksAs fns (checkExprs es) (walkAll fns es) overlooked
  | [], _, _ => fun _ _ _ _ hagrees => hagrees
  | e :: es, overlooked, hkeeps => by
    rw [keepsAll, Bool.and_eq_true] at hkeeps
    exact (walk_agrees e hkeeps.1).then_ (fnOwnerships_checkExpr e) (walkAll_agrees es hkeeps.2)

theorem walkFields_agrees : ∀ (fields : List FieldInit) {overlooked : List String},
    keepsFields fns fields overlooked = true →
      WalksAs fns (checkFields fields) (walkFields fns fields) overlooked
  | [], _, _ => fun _ _ _ _ hagrees => hagrees
  | ⟨_, value⟩ :: fields, overlooked, hkeeps => by
    rw [keepsFields, Bool.and_eq_true] at hkeeps
    exact (walk_agrees value hkeeps.1).then_ (fnOwnerships_checkExpr value)
      (walkFields_agrees fields hkeeps.2)

theorem walkGuard_agrees : ∀ (guard : Option Expr) {overlooked : List String},
    keepsGuard fns guard overlooked = true →
      WalksAs fns (checkWhere guard) (walkGuard fns guard) overlooked
  | none, _, _ => fun _ _ _ _ hagrees => hagrees
  | some guard, _, hkeeps => walk_agrees guard hkeeps

/-- Arm by arm, each from the state before the match. -/
theorem walkArms_agrees : ∀ (arms : List MatchArm) {overlooked : List String},
    keepsArms fns arms overlooked = true →
      ∀ (snap : LinearitySnapshot) (lc : LinearityChecker) {σ kept : Holdings},
        lc.fnOwnerships = fns → Agrees overlooked kept (taken [] snap.shadow) σ →
          List.Forall₂ (fun run after => Agrees overlooked kept run.stop.lookupState after)
            (matchRuns arms snap lc) (walkArms fns arms σ)
  | [], _, _, _, _, _, _, _, _ => .nil
  | ⟨pattern, body, _⟩ :: arms, overlooked, hkeeps, snap, lc, σ, kept, hlc, hagrees => by
    rw [keepsArms, Bool.and_eq_true] at hkeeps
    have harm := (walk_agrees body hkeeps.1).arm pattern (lc.restore snap) σ kept hlc hagrees
    have hstarted := follows_rule.introducePattern pattern _
      (follows_rule.push (lc.restore snap))
    have hfns : (checkExpr body (introducePattern pattern
        (lc.restore snap).pushScope)).popScope.fnOwnerships = fns := by
      rw [fnOwnerships_popScope, fnOwnerships_checkExpr]
      exact hstarted.fns.trans hlc
    exact .cons harm (walkArms_agrees arms hkeeps.2 snap _ hfns hagrees)

theorem walkArgs_agrees : ∀ (args : List Expr) (ownerships : List Ownership)
    {overlooked : List String}, keepsArgs fns args ownerships overlooked = true →
      WalksAs fns (checkArgs args ownerships) (walkArgs fns args ownerships) overlooked
  | [], _, _, _ => fun _ _ _ _ hagrees => hagrees
  | arg :: args, ownerships, overlooked, hkeeps => by
    rw [keepsArgs, Bool.and_eq_true] at hkeeps
    obtain ⟨hkept, hrest⟩ := hkeeps
    intro lc σ kept hlc hagrees
    rw [checkArgs, walkArgs]
    cases hkind : arg.kind
    case symbolRef name =>
      rw [hkind] at hkept
      have hsymbol := hagrees.symbol name (ownerships.headD .default) arg.span hkept
      exact walkArgs_agrees args ownerships.tail hrest _ _ kept
        ((follows_checkSymbol lc name _ _).fns.trans hlc) hsymbol
    all_goals
      rw [hkind] at hkept
      exact walkArgs_agrees args ownerships.tail hrest _ _ kept
        ((fnOwnerships_checkExpr arg lc).trans hlc) (walk_agrees arg hkept lc σ kept hlc hagrees)

/-- Binding by binding, each in the scope of those before it. -/
theorem walkLet_agrees : ∀ (bindings : List LetBinding) {body : Expr} {overlooked : List String},
    keepsBindings fns bindings overlooked = true →
      WalksAs fns (checkExpr body) (walk fns body)
        (without overlooked (bindings.map LetBinding.name)) →
        ∀ (lc : LinearityChecker) {σ kept : Holdings} {before : List (String × Option ShadowEntry)}
          {outer : List (List (String × Option ShadowEntry))},
          lc.fnOwnerships = fns → lc.scopeBindings = before :: outer →
            Agrees overlooked kept lc.lookupState σ →
              ∃ bound,
                (checkExpr body (checkBindings bindings lc)).scopeBindings =
                  (bound ++ before) :: outer ∧
                Agrees overlooked kept
                  (taken bound (checkExpr body (checkBindings bindings lc)).shadow)
                  (walkLet fns bindings (walk fns body) σ)
  | [], body, overlooked, _, hbody, lc, σ, kept, before, outer, hlc, hscopes, hagrees => by
    rw [List.map_nil, without_nil] at hbody
    refine ⟨[], ?_, hbody lc σ kept hlc hagrees⟩
    exact (follows_rule.checkExpr body lc).scopes.trans hscopes
  | ⟨name, ty, value, span⟩ :: bindings, body, overlooked, hkeeps, hbody, lc, σ, kept, before,
      outer, hlc, hscopes, hagrees => by
      rw [keepsBindings, Bool.and_eq_true] at hkeeps
      rw [List.map_cons, ← without_cons] at hbody
      have hvalue := walk_agrees value hkeeps.1 lc σ kept hlc hagrees
      have hafter : (checkExpr value lc).scopeBindings = before :: outer :=
        (follows_rule.checkExpr value lc).scopes.trans hscopes
      have hopened : Agrees (without overlooked [name]) kept
          ((checkExpr value lc).introduce name).lookupState
          ((walk fns value σ).introduce [name]) := by
        rw [lookupState_introduce]
        exact hvalue.introduce [name]
      obtain ⟨bound, hbound, hinner⟩ := walkLet_agrees bindings hkeeps.2 hbody
        ((checkExpr value lc).introduce name) ((fnOwnerships_checkExpr value lc).trans hlc)
        (scopeBindings_introduce hafter name) hopened
      rw [checkBindings, walkLet]
      refine ⟨bound ++ [(name, (checkExpr value lc).shadow.lookup name)], ?_, ?_⟩
      · rw [List.append_assoc]
        exact hbound
      · rw [taken_snoc]
        exact hvalue.closing hinner

end

/-! ## Parts of an expression -/

/-- Where checker and walk agree and the rest of the way keeps parameters. -/
def Aligned (fns : Ownerships) (p : Point) : Prop :=
  ∃ overlooked kept, p.checker.fnOwnerships = fns ∧
    Agrees overlooked kept p.checker.lookupState p.holdings ∧
    keepsParams fns p.expr overlooked = true

theorem keepsAll_append (before after : List Expr) (e : Expr) :
    keepsAll fns (before ++ e :: after) overlooked = true ↔
      keepsAll fns before overlooked = true ∧ keepsParams fns e overlooked = true ∧
        keepsAll fns after overlooked = true := by
  induction before with
  | nil => simp [keepsAll]
  | cons first before ih => simp [keepsAll, ih, and_assoc]

theorem keepsFields_append (before after : List FieldInit) (key : String) (value : Expr) :
    keepsFields fns (before ++ ⟨key, value⟩ :: after) overlooked = true ↔
      keepsFields fns before overlooked = true ∧ keepsParams fns value overlooked = true ∧
        keepsFields fns after overlooked = true := by
  induction before with
  | nil => simp [keepsFields]
  | cons first before ih =>
    obtain ⟨firstKey, firstValue⟩ := first
    simp [keepsFields, ih, and_assoc]

theorem keepsArms_append (before after : List MatchArm) (pattern : Pattern) (body : Expr)
    (span : Span) :
    keepsArms fns (before ++ ⟨pattern, body, span⟩ :: after) overlooked = true ↔
      keepsArms fns before overlooked = true ∧
        keepsParams fns body (without overlooked (patternNames pattern)) = true ∧
        keepsArms fns after overlooked = true := by
  induction before with
  | nil => simp [keepsArms]
  | cons first before ih =>
    obtain ⟨firstPattern, firstBody, firstSpan⟩ := first
    simp [keepsArms, ih, and_assoc]

theorem keepsBindings_append (before after : List LetBinding) (name : String) (ty : AstType)
    (value : Expr) (span : Span) (overlooked : List String) :
    keepsBindings fns (before ++ ⟨name, ty, value, span⟩ :: after) overlooked = true →
      keepsBindings fns before overlooked = true ∧
        keepsParams fns value (without overlooked (before.map LetBinding.name)) = true := by
  induction before generalizing overlooked with
  | nil =>
    intro h
    rw [List.nil_append, keepsBindings, Bool.and_eq_true] at h
    rw [List.map_nil, without_nil]
    exact ⟨rfl, h.1⟩
  | cons first before ih =>
    intro h
    obtain ⟨firstName, firstTy, firstValue, firstSpan⟩ := first
    rw [List.cons_append, keepsBindings, Bool.and_eq_true] at h
    obtain ⟨hbefore, hvalue⟩ := ih _ h.2
    rw [List.map_cons, ← without_cons, keepsBindings, Bool.and_eq_true]
    exact ⟨⟨h.1, hbefore⟩, hvalue⟩

theorem keepsArgs_append (before after : List Expr) (arg : Expr) (ownerships : List Ownership) :
    keepsArgs fns (before ++ arg :: after) ownerships overlooked = true →
      keepsArgs fns before ownerships overlooked = true ∧
        keepsParams fns arg overlooked = true := by
  induction before generalizing ownerships with
  | nil =>
    intro h
    rw [List.nil_append, keepsArgs, Bool.and_eq_true] at h
    refine ⟨rfl, ?_⟩
    obtain ⟨kind, span⟩ := arg
    cases kind
    case symbolRef name => rfl
    all_goals exact h.1
  | cons first before ih =>
    intro h
    rw [List.cons_append, keepsArgs, Bool.and_eq_true] at h
    obtain ⟨hbefore, harg⟩ := ih _ h.2
    rw [keepsArgs, Bool.and_eq_true]
    exact ⟨⟨h.1, hbefore⟩, harg⟩

theorem walkBindings_agrees (bindings : List LetBinding) {overlooked : List String}
    (hkeeps : keepsBindings fns bindings overlooked = true) (lc : LinearityChecker)
    {σ kept : Holdings} (hlc : lc.fnOwnerships = fns)
    (hagrees : Agrees overlooked kept lc.lookupState σ) :
    (checkBindings bindings lc).fnOwnerships = fns ∧
      Agrees (without overlooked (bindings.map LetBinding.name)) kept
        (checkBindings bindings lc).lookupState (walkBindings fns bindings σ) := by
  induction bindings generalizing overlooked lc σ with
  | nil =>
    rw [List.map_nil, without_nil]
    exact ⟨hlc, hagrees⟩
  | cons binding bindings ih =>
    obtain ⟨name, ty, value, span⟩ := binding
    rw [keepsBindings, Bool.and_eq_true] at hkeeps
    have hvalue := walk_agrees value hkeeps.1 lc σ kept hlc hagrees
    have hopened : Agrees (without overlooked [name]) kept
        ((checkExpr value lc).introduce name).lookupState
        ((walk fns value σ).introduce [name]) := by
      rw [lookupState_introduce]
      exact hvalue.introduce [name]
    rw [List.map_cons, ← without_cons, checkBindings, walkBindings]
    exact ih hkeeps.2 ((checkExpr value lc).introduce name)
      ((fnOwnerships_checkExpr value lc).trans hlc) hopened

theorem armStart_agrees (before : List MatchArm) (pattern : Pattern) {matched : LinearityChecker}
    (hmatched : matched.fnOwnerships = fns)
    (hagrees : Agrees overlooked kept matched.lookupState σ) :
    let start := introducePattern pattern
      ((checkArms before matched.snapshot matched).2.restore matched.snapshot).pushScope
    start.fnOwnerships = fns ∧
      Agrees (without overlooked (patternNames pattern)) kept start.lookupState
        (σ.introduce (patternNames pattern)) := by
  have hsnap := follows_rule.snapshot (follows_rule.refl matched)
  have hafter := (follows_rule.checkArms before _ _ (follows_rule.refl matched) hsnap).1
  have hinside := follows_rule.introducePattern pattern _ (follows_rule.push
    ((checkArms before matched.snapshot matched).2.restore matched.snapshot))
  refine ⟨hinside.fns.trans (hafter.fns.trans hmatched), ?_⟩
  rw [introducePattern_eq, lookupState_introduces]
  exact hagrees.introduce (patternNames pattern)

/-- One step further inside, checker and walk still agree. -/
theorem Enters.aligned {p q : Point} (h : Enters fns p q) (hp : Aligned fns p) :
    Aligned fns q := by
  obtain ⟨overlooked, kept, hlc, hagrees, hkeeps⟩ := hp
  cases h with
  | arg =>
    rw [keepsParams, Bool.and_eq_true] at hkeeps
    obtain ⟨hbefore, harg⟩ := keepsArgs_append _ _ _ _ hkeeps.1
    rw [extractCalleeOwnerships_eq hlc]
    exact ⟨overlooked, kept, (follows_rule.checkArgs _ _ _).fns.trans hlc,
      walkArgs_agrees _ _ hbefore _ _ kept hlc hagrees, harg⟩
  | callee =>
    rw [keepsParams, Bool.and_eq_true] at hkeeps
    rw [extractCalleeOwnerships_eq hlc]
    exact ⟨overlooked, kept, (follows_rule.checkArgs _ _ _).fns.trans hlc,
      walkArgs_agrees _ _ hkeeps.1 _ _ kept hlc hagrees, hkeeps.2⟩
  | binding =>
    rw [keepsParams, Bool.and_eq_true] at hkeeps
    obtain ⟨hbefore, hvalue⟩ := keepsBindings_append _ _ _ _ _ _ _ hkeeps.1
    obtain ⟨hfns, hbound⟩ := walkBindings_agrees _ hbefore (pushScope _) hlc hagrees
    exact ⟨_, kept, hfns, hbound, hvalue⟩
  | letBody =>
    rw [keepsParams, Bool.and_eq_true] at hkeeps
    obtain ⟨hfns, hbound⟩ := walkBindings_agrees _ hkeeps.1 (pushScope _) hlc hagrees
    exact ⟨_, kept, hfns, hbound, hkeeps.2⟩
  | step =>
    rw [keepsParams, keepsAll_append] at hkeeps
    exact ⟨overlooked, kept, (follows_rule.checkExprs _ _).fns.trans hlc,
      walkAll_agrees _ hkeeps.1 _ _ kept hlc hagrees, hkeeps.2.1⟩
  | cond =>
    rw [keepsParams, Bool.and_eq_true, Bool.and_eq_true] at hkeeps
    exact ⟨overlooked, kept, hlc, hagrees, hkeeps.1.1⟩
  | then_ =>
    rw [keepsParams, Bool.and_eq_true, Bool.and_eq_true] at hkeeps
    exact ⟨overlooked, kept, (fnOwnerships_checkExpr _ _).trans hlc,
      walk_agrees _ hkeeps.1.1 _ _ kept hlc hagrees, hkeeps.1.2⟩
  | else_ =>
    rw [keepsParams, Bool.and_eq_true, Bool.and_eq_true] at hkeeps
    exact ⟨overlooked, kept,
      (fnOwnerships_checkExpr _ _).trans ((fnOwnerships_checkExpr _ _).trans hlc),
      walk_agrees _ hkeeps.1.1 _ _ kept hlc hagrees, hkeeps.2⟩
  | scrutinee =>
    rw [keepsParams, Bool.and_eq_true] at hkeeps
    exact ⟨overlooked, kept, hlc, hagrees, hkeeps.1⟩
  | arm =>
    rw [keepsParams, Bool.and_eq_true, keepsArms_append] at hkeeps
    have hscrutinee := walk_agrees _ hkeeps.1 _ _ kept hlc hagrees
    obtain ⟨hfns, hstart⟩ := armStart_agrees _ _ ((fnOwnerships_checkExpr _ _).trans hlc)
      hscrutinee
    exact ⟨_, kept, hfns, hstart, hkeeps.2.2.1⟩
  | lambda =>
    rw [keepsParams] at hkeeps
    exact ⟨_, _, hlc, hagrees.overlook _, hkeeps⟩
  | tried =>
    rw [keepsParams] at hkeeps
    exact ⟨overlooked, kept, hlc, hagrees, hkeeps⟩
  | ctorArg =>
    rw [keepsParams, keepsAll_append] at hkeeps
    exact ⟨overlooked, kept, (follows_rule.checkExprs _ _).fns.trans hlc,
      walkAll_agrees _ hkeeps.1 _ _ kept hlc hagrees, hkeeps.2.1⟩
  | field =>
    rw [keepsParams, keepsFields_append] at hkeeps
    exact ⟨overlooked, kept, (follows_rule.checkFields _ _).fns.trans hlc,
      walkFields_agrees _ hkeeps.1 _ _ kept hlc hagrees, hkeeps.2.1⟩
  | item =>
    rw [keepsParams, keepsAll_append] at hkeeps
    exact ⟨overlooked, kept, (follows_rule.checkExprs _ _).fns.trans hlc,
      walkAll_agrees _ hkeeps.1 _ _ kept hlc hagrees, hkeeps.2.1⟩
  | forallGuard =>
    rw [keepsParams, Bool.and_eq_true] at hkeeps
    exact ⟨_, _, hlc, hagrees.overlook [_], hkeeps.1⟩
  | forallBody =>
    rw [keepsParams, Bool.and_eq_true] at hkeeps
    exact ⟨_, _, (follows_rule.checkWhere _ _).fns.trans hlc,
      walkGuard_agrees _ hkeeps.1 _ _ _ hlc (hagrees.overlook [_]), hkeeps.2⟩
  | existsGuard =>
    rw [keepsParams, Bool.and_eq_true] at hkeeps
    exact ⟨_, _, hlc, hagrees.overlook [_], hkeeps.1⟩
  | existsBody =>
    rw [keepsParams, Bool.and_eq_true] at hkeeps
    exact ⟨_, _, (follows_rule.checkWhere _ _).fns.trans hlc,
      walkGuard_agrees _ hkeeps.1 _ _ _ hlc (hagrees.overlook [_]), hkeeps.2⟩

/-- So they are at every point that a run of the checker comes to. -/
theorem reached_aligned {p q : Point} (h : Relation.ReflTransGen (Enters fns) p q)
    (hp : Aligned fns p) : Aligned fns q := by
  induction h with
  | refl => exact hp
  | tail _ hstep ih => exact hstep.aligned ih

end Airl.LinearityChecker
