import Airl.Types.BranchWalk

/-! # Branches are merged path by path

The merge of the checker compares the arms as the walk leaves them, at every `if` and every `match`
that the check of a function comes to.
-/

namespace Airl.LinearityChecker

theorem isMoved_iff (state : OwnershipState) :
    state.isMoved = true ↔ ∃ at_, state = .moved at_ := by
  cases state with
  | moved at_ => exact ⟨fun _ => ⟨at_, rfl⟩, fun _ => rfl⟩
  | owned => simp [OwnershipState.isMoved]
  | borrowed kind count => simp [OwnershipState.isMoved]
  | dropped => simp [OwnershipState.isMoved]

/-- What is moved stays moved. -/
theorem Follows.stays_moved {a b : LinearityChecker} (h : Follows a b) {name : String}
    {at_ : Span} (hmoved : a.lookupState name = some (.moved at_)) :
    b.lookupState name = some (.moved at_) := by
  have hrel := h.lookupState name
  rw [hmoved] at hrel
  cases hafter : b.lookupState name with
  | none =>
    rw [hafter] at hrel
    cases hrel
  | some state =>
    rw [hafter] at hrel
    cases hrel with
    | some honward =>
      have heq : OwnershipState.moved at_ = state := honward
      rw [heq]

theorem EntryOnward.isSome {a b : Option ShadowEntry} (h : EntryOnward a b) :
    b.isSome = a.isSome := by
  cases h with
  | none => rfl
  | some _ => rfl

theorem Follows.isMoved_mono {entered a : LinearityChecker} (h : Follows entered a)
    {name : String} {state state' : OwnershipState} (hstate : entered.lookupState name = some state)
    (hstate' : a.lookupState name = some state') (hmoved : state.isMoved = true) :
    state'.isMoved = true := by
  obtain ⟨at_, rfl⟩ := (isMoved_iff state).mp hmoved
  rw [h.stays_moved hstate] at hstate'
  cases hstate'
  rfl

theorem Follows.states {entered a b : LinearityChecker} (ha : Follows entered a)
    (hb : Follows entered b) {name : String} {stateInA : OwnershipState}
    (hstate : a.lookupState name = some stateInA) :
    ∃ before stateInB, entered.lookupState name = some before ∧
      b.lookupState name = some stateInB := by
  have hina : (a.shadow.lookup name).isSome = true := by
    obtain ⟨entry, hentry, -⟩ := Option.map_eq_some_iff.mp hstate
    rw [hentry]
    rfl
  have hine : (entered.shadow.lookup name).isSome = true := by
    rw [← (ha.shadow name).isSome]
    exact hina
  have hinb : (b.shadow.lookup name).isSome = true := by
    rw [(hb.shadow name).isSome]
    exact hine
  obtain ⟨before, hbefore⟩ := Option.isSome_iff_exists.mp hine
  obtain ⟨entry, hentry⟩ := Option.isSome_iff_exists.mp hinb
  refine ⟨before.1, entry.1, ?_, ?_⟩
  · unfold LinearityChecker.lookupState
    rw [hbefore, Option.map_some]
  · unfold LinearityChecker.lookupState
    rw [hentry, Option.map_some]

theorem disagreement_eq_none (b : LinearitySnapshot) (span : Span) (name : String)
    (stateInA : OwnershipState) (depth : Nat) :
    disagreement b span ⟨name, stateInA, depth⟩ = none ↔
      ∀ stateInB, (b.shadow.lookup name).map Prod.fst = some stateInB →
        stateInA.isMoved = stateInB.isMoved := by
  unfold disagreement
  rcases hentry : b.shadow.lookup name with _ | ⟨stateInB, depthInB⟩
  · simp [hentry]
  · simp [hentry]

/-- No disagreement is reported just if the same names were moved. -/
theorem filterMap_disagreement_eq_nil (a b : LinearityChecker) (span : Span) :
    a.snapshot.shadow.entries.filterMap (disagreement b.snapshot span) = [] ↔
      ∀ name stateInA stateInB, a.lookupState name = some stateInA →
        b.lookupState name = some stateInB → stateInA.isMoved = stateInB.isMoved := by
  rw [List.filterMap_eq_nil_iff]
  constructor
  · intro h name stateInA stateInB ha hb
    obtain ⟨⟨found, depth⟩, hentry, rfl⟩ := Option.map_eq_some_iff.mp ha
    have hnone := h ⟨name, found, depth⟩ (AList.mem_lookup_iff.mp hentry)
    exact (disagreement_eq_none b.snapshot span name found depth).mp hnone stateInB hb
  · intro h entry hentry
    obtain ⟨name, found, depth⟩ := entry
    rw [disagreement_eq_none]
    intro stateInB hb
    have hin : a.shadow.lookup name = some (found, depth) := AList.mem_lookup_iff.mpr hentry
    apply h name found stateInB _ hb
    unfold lookupState
    rw [hin, Option.map_some]

theorem mem_movedBetween {before after : Holdings} {name : String} :
    name ∈ movedBetween before after ↔
      (∃ state, after name = some state ∧ state.isMoved = true) ∧
        ∀ state, before name = some state → state.isMoved = false := by
  constructor
  · intro h
    obtain ⟨⟨at_, hafter⟩, hbefore⟩ := h
    refine ⟨⟨_, hafter, rfl⟩, fun state hstate => ?_⟩
    apply Bool.eq_false_iff.mpr
    intro hmoved
    obtain ⟨at', rfl⟩ := (isMoved_iff state).mp hmoved
    exact hbefore ⟨at', hstate⟩
  · intro h
    obtain ⟨⟨state, hafter, hmoved⟩, hbefore⟩ := h
    obtain ⟨at_, rfl⟩ := (isMoved_iff state).mp hmoved
    refine ⟨⟨at_, hafter⟩, fun hmovedBefore => ?_⟩
    obtain ⟨at', hstate⟩ := hmovedBefore
    cases hbefore _ hstate

/-- What is moved on the way is moved at the end. -/
theorem movedBetween_subset {entered a b : LinearityChecker} (ha : Follows entered a)
    (hb : Follows entered b)
    (h : ∀ name stateInA stateInB, a.lookupState name = some stateInA →
      b.lookupState name = some stateInB → stateInA.isMoved = stateInB.isMoved) :
    movedBetween entered.lookupState a.lookupState ⊆
      movedBetween entered.lookupState b.lookupState := by
  intro name hname
  obtain ⟨⟨stateInA, hstateA, hmoved⟩, hbefore⟩ := mem_movedBetween.mp hname
  obtain ⟨_, stateInB, _, hstateB⟩ := ha.states hb hstateA
  rw [h name stateInA stateInB hstateA hstateB] at hmoved
  exact mem_movedBetween.mpr ⟨⟨stateInB, hstateB, hmoved⟩, hbefore⟩

/-- Two arms from one state agree on what they move just when the merge has nothing to say. -/
theorem filterMap_disagreement_eq_nil_iff {entered a b : LinearityChecker}
    (ha : Follows entered a) (hb : Follows entered b) (span : Span) :
    a.snapshot.shadow.entries.filterMap (disagreement b.snapshot span) = [] ↔
      movedBetween entered.lookupState a.lookupState =
        movedBetween entered.lookupState b.lookupState := by
  rw [filterMap_disagreement_eq_nil]
  constructor
  · intro h
    apply Set.Subset.antisymm (movedBetween_subset ha hb h)
    apply movedBetween_subset hb ha
    intro name stateInB stateInA hstateB hstateA
    exact (h name stateInA stateInB hstateA hstateB).symm
  · intro h name stateInA stateInB hstateA hstateB
    obtain ⟨before, _, hbefore, _⟩ := ha.states hb hstateA
    cases hwas : before.isMoved with
    | true => rw [ha.isMoved_mono hbefore hstateA hwas, hb.isMoved_mono hbefore hstateB hwas]
    | false =>
      have hunmoved : ∀ state, entered.lookupState name = some state → state.isMoved = false := by
        intro state hstate
        cases hbefore.symm.trans hstate
        exact hwas
      apply Bool.eq_iff_iff.mpr
      constructor
      · intro hmoved
        have hmem := mem_movedBetween.mpr ⟨⟨stateInA, hstateA, hmoved⟩, hunmoved⟩
        rw [h] at hmem
        obtain ⟨⟨state, hstate, hstateMoved⟩, -⟩ := mem_movedBetween.mp hmem
        cases hstateB.symm.trans hstate
        exact hstateMoved
      · intro hmoved
        have hmem := mem_movedBetween.mpr ⟨⟨stateInB, hstateB, hmoved⟩, hunmoved⟩
        rw [← h] at hmem
        obtain ⟨⟨state, hstate, hstateMoved⟩, -⟩ := mem_movedBetween.mp hmem
        cases hstateA.symm.trans hstate
        exact hstateMoved

theorem diags_mergeArmStates (lc : LinearityChecker) (first : LinearitySnapshot)
    (others : List LinearitySnapshot) (span : Span) :
    (lc.mergeArmStates (first :: others) span).diags = lc.diags ++
      others.flatMap fun other => first.shadow.entries.filterMap (disagreement other span) := by
  change (others.foldl (fun lc other => lc.mergeBranchStates first other span) lc).diags = _
  induction others generalizing lc with
  | nil => exact (List.append_nil _).symm
  | cons other others ih =>
    rw [List.foldl_cons, ih, List.flatMap_cons, ← List.append_assoc]
    rfl

/-- Two different sets disagree on a name. -/
theorem exists_disagreement {sets : List (Set String)} {s t : Set String} (hs : s ∈ sets)
    (ht : t ∈ sets) (hne : s ≠ t) : ∃ a ∈ sets, ∃ b ∈ sets, ∃ name ∈ a, name ∉ b := by
  by_cases hsub : s ⊆ t
  · obtain ⟨name, hin, hout⟩ := Set.not_subset.mp fun hback => hne (hsub.antisymm hback)
    exact ⟨t, ht, s, hs, name, hin, hout⟩
  · obtain ⟨name, hin, hout⟩ := Set.not_subset.mp hsub
    exact ⟨s, hs, t, ht, name, hin, hout⟩

theorem disagree_iff {first : Set String} {others : List (Set String)} :
    (∃ a ∈ first :: others, ∃ b ∈ first :: others, ∃ name ∈ a, name ∉ b) ↔
      ¬ ∀ other ∈ others, first = other := by
  constructor
  · intro h hsame
    obtain ⟨a, ha, b, hb, name, hin, hout⟩ := h
    have heq : ∀ s ∈ first :: others, s = first := by
      intro s hs
      rcases List.mem_cons.mp hs with rfl | hs
      · rfl
      · exact (hsame s hs).symm
    rw [heq a ha] at hin
    rw [heq b hb] at hout
    exact hout hin
  · intro h
    by_contra hnone
    apply h
    intro other hother
    by_contra hne
    exact hnone
      (exists_disagreement List.mem_cons_self (List.mem_cons_of_mem first hother) hne)

theorem disagree_pair {s t : Set String} :
    (∃ a ∈ [s, t], ∃ b ∈ [s, t], ∃ name ∈ a, name ∉ b) ↔ ¬ s = t := by
  rw [disagree_iff, List.forall_mem_singleton]

/-- A conditional reports just if its branches moved different names. -/
theorem mergeBranchStates_reports {entered a b : LinearityChecker} (ha : Follows entered a)
    (hb : Follows entered b) (lc : LinearityChecker) (span : Span) :
    (lc.mergeBranchStates a.snapshot b.snapshot span).diags ≠ lc.diags ↔
      ¬ movedBetween entered.lookupState a.lookupState =
        movedBetween entered.lookupState b.lookupState := by
  rw [← filterMap_disagreement_eq_nil_iff ha hb span]
  unfold mergeBranchStates
  dsimp only
  rw [ne_eq, List.append_right_eq_self]

/-- A match just if two of its arms did. -/
theorem mergeArmStates_reports {entered first : LinearityChecker} {others : List LinearityChecker}
    (hfirst : Follows entered first) (hothers : ∀ other ∈ others, Follows entered other)
    (lc : LinearityChecker) (span : Span) :
    (lc.mergeArmStates (first.snapshot :: others.map snapshot) span).diags ≠ lc.diags ↔
      ¬ ∀ other ∈ others.map fun other => movedBetween entered.lookupState other.lookupState,
        movedBetween entered.lookupState first.lookupState = other := by
  rw [diags_mergeArmStates, ne_eq, List.append_right_eq_self, List.flatMap_eq_nil_iff,
    List.forall_mem_map, List.forall_mem_map]
  apply not_congr
  constructor
  · intro h other hother
    exact (filterMap_disagreement_eq_nil_iff hfirst (hothers other hother) span).mp
      (h other hother)
  · intro h other hother
    exact (filterMap_disagreement_eq_nil_iff hfirst (hothers other hother) span).mpr
      (h other hother)

theorem Agrees.movedBetween_eq {overlooked : List String} {kept before after σ τ : Holdings}
    (hbefore : Agrees overlooked kept before σ) (hafter : Agrees overlooked kept after τ) :
    movedBetween σ τ = movedBetween before after := by
  ext name
  rw [mem_movedBetween, mem_movedBetween]
  by_cases hname : name ∈ overlooked
  · -- the parameter stays owned, and the entry under its name stays what it was
    rw [hafter.params name hname, hbefore.entries name hname, hafter.entries name hname]
    constructor
    · intro h
      obtain ⟨⟨state, hstate, hmoved⟩, -⟩ := h
      cases hstate
      cases hmoved
    · intro h
      obtain ⟨⟨state, hstate, hmoved⟩, hunmoved⟩ := h
      rw [hunmoved state hstate] at hmoved
      cases hmoved
  · rw [hbefore.tracked name hname, hafter.tracked name hname]

theorem Follows.restored {entered lc : LinearityChecker} (h : Follows entered lc) :
    SameState entered (lc.restore entered.snapshot) := by
  have hsnap := follows_rule.snapshot (follows_rule.refl entered)
  have hrestored := follows_rule.restore h hsnap
  exact ⟨rfl, hrestored.depth, hrestored.scopes⟩

theorem matchRuns_follows {entered : LinearityChecker} (arms : List MatchArm)
    {lc : LinearityChecker} (h : Follows entered lc) :
    ∀ run ∈ matchRuns arms entered.snapshot lc,
      SameState entered run.start ∧ Follows entered run.stop := by
  induction arms generalizing lc with
  | nil =>
    intro run hrun
    cases hrun
  | cons arm arms ih =>
    obtain ⟨pattern, body, span⟩ := arm
    have hsnap := follows_rule.snapshot (follows_rule.refl entered)
    have hstart := follows_rule.restore h hsnap
    have hinside := follows_rule.introducePattern pattern _
      (follows_rule.push (lc.restore entered.snapshot))
    have hstop := hstart.trans (follows_rule.pop
      (follows_rule.step hinside (follows_rule.checkExpr body _)))
    intro run hrun
    rcases List.mem_cons.mp hrun with rfl | hrun
    · exact ⟨h.restored, hstop⟩
    · exact ih hstop run hrun

/-- The sets of variables that the arms move, for the checker. -/
def armsMoved (entered : LinearityChecker) (runs : List ArmRun) : List (Set String) :=
  (runs.map ArmRun.stop).map fun stop => movedBetween entered.lookupState stop.lookupState

/-- What each arm moved is what the walk moves in it. -/
theorem armsMoved_eq {overlooked : List String} {kept σ : Holdings} {entered : LinearityChecker}
    {runs : List ArmRun} {arms : List Holdings}
    (hentered : Agrees overlooked kept entered.lookupState σ)
    (harms : List.Forall₂ (fun run after => Agrees overlooked kept run.stop.lookupState after)
      runs arms) : arms.map (movedBetween σ) = armsMoved entered runs := by
  induction harms with
  | nil => rfl
  | cons hfirst _ ih =>
    unfold armsMoved
    rw [List.map_cons, List.map_cons, List.map_cons, hentered.movedBetween_eq hfirst, ih]
    rfl

theorem pathExact_of {overlooked : List String} {kept σ : Holdings}
    {entered after : LinearityChecker} {runs : List ArmRun} {arms : List Holdings}
    (hentered : Agrees overlooked kept entered.lookupState σ)
    (harms : List.Forall₂ (fun run after => Agrees overlooked kept run.stop.lookupState after)
      runs arms)
    (hruns : ∀ run ∈ runs, SameState entered run.start ∧ Follows entered run.stop)
    (hafter : after.depth = entered.depth ∧ after.scopeBindings = entered.scopeBindings)
    (hend : runs = [] ∨ ∃ run ∈ runs, after.lookupState = run.stop.lookupState)
    (hreports : after.diags ≠ ((runs.map ArmRun.stop).getLast?.getD entered).diags ↔
      ∃ a ∈ armsMoved entered runs, ∃ b ∈ armsMoved entered runs, ∃ name ∈ a, name ∉ b) :
    PathExact entered runs after σ arms := by
  have hsets := armsMoved_eq hentered harms
  rw [← hsets] at hreports
  refine ⟨harms.length_eq, fun run hrun => (hruns run hrun).1, ?_, ?_, ?_, hafter⟩
  · simpa only [List.mem_map, exists_exists_and_eq_and] using hreports
  · intro hsilent a ha
    have hmem : movedBetween σ a ∈ arms.map (movedBetween σ) := List.mem_map_of_mem ha
    rcases hend with rfl | ⟨run, hrun, hstates⟩
    · cases harms
      cases ha
    · have hrunMoved : movedBetween entered.lookupState run.stop.lookupState ∈
          arms.map (movedBetween σ) := by
        rw [hsets]
        exact List.mem_map_of_mem (List.mem_map_of_mem hrun)
      rw [hstates]
      -- two arms that differed would have been reported
      by_contra hne
      exact hreports.mpr (exists_disagreement hrunMoved hmem hne) hsilent
  · intro run hrun
    exact ⟨(hruns run hrun).2.depth, (hruns run hrun).2.scopes⟩

theorem scopes_after {lc entered after : LinearityChecker} (hentered : Follows lc entered)
    (hafter : Follows lc after) :
    after.depth = entered.depth ∧ after.scopeBindings = entered.scopeBindings :=
  ⟨hafter.depth.trans hentered.depth.symm, hafter.scopes.trans hentered.scopes.symm⟩

/-- A conditional is checked exactly. -/
theorem pathExact_ite (cond then_ else_ : Expr) (span : Span) {overlooked : List String}
    {lc : LinearityChecker} {kept σ : Holdings} {fns : Ownerships} (hlc : lc.fnOwnerships = fns)
    (hagrees : Agrees overlooked kept lc.lookupState σ)
    (hkeeps : keepsParams fns ⟨.ite cond then_ else_, span⟩ overlooked = true) :
    PathExactAt fns ⟨⟨.ite cond then_ else_, span⟩, lc, σ⟩ := by
  rw [keepsParams, Bool.and_eq_true, Bool.and_eq_true] at hkeeps
  have hcond := walk_agrees cond hkeeps.1.1 lc σ kept hlc hagrees
  have hfns := (fnOwnerships_checkExpr cond lc).trans hlc
  have hthen := walk_agrees then_ hkeeps.1.2 _ _ kept hfns hcond
  have hthenFollows := follows_rule.checkExpr then_ (checkExpr cond lc)
  have hrestored := follows_rule.restore hthenFollows
    (follows_rule.snapshot (follows_rule.refl (checkExpr cond lc)))
  have helse := walk_agrees else_ hkeeps.2
    ((checkExpr then_ (checkExpr cond lc)).restore (checkExpr cond lc).snapshot) _ kept
    ((fnOwnerships_checkExpr then_ _).trans hfns) hcond
  have helseFollows := hrestored.trans (follows_rule.checkExpr else_ _)
  apply pathExact_of hcond (.cons hthen (.cons helse .nil)) _
    (scopes_after (follows_rule.checkExpr cond lc) (follows_rule.checkExpr _ lc))
  · right
    refine ⟨_, List.mem_cons_of_mem _ List.mem_cons_self, ?_⟩
    rw [checkExpr]
    rfl
  · rw [checkExpr]
    exact (mergeBranchStates_reports hthenFollows helseFollows _ span).trans disagree_pair.symm
  · intro run hrun
    rcases List.mem_cons.mp hrun with rfl | hrun
    · exact ⟨⟨rfl, rfl, rfl⟩, hthenFollows⟩
    · cases List.mem_singleton.mp hrun
      exact ⟨hthenFollows.restored, helseFollows⟩

/-- So is a match. -/
theorem pathExact_match (scrutinee : Expr) (arms : List MatchArm) (span : Span)
    {overlooked : List String} {lc : LinearityChecker} {kept σ : Holdings} {fns : Ownerships}
    (hlc : lc.fnOwnerships = fns) (hagrees : Agrees overlooked kept lc.lookupState σ)
    (hkeeps : keepsParams fns ⟨.match scrutinee arms, span⟩ overlooked = true) :
    PathExactAt fns ⟨⟨.match scrutinee arms, span⟩, lc, σ⟩ := by
  rw [keepsParams, Bool.and_eq_true] at hkeeps
  have hscrutinee := walk_agrees scrutinee hkeeps.1 lc σ kept hlc hagrees
  have hfns := (fnOwnerships_checkExpr scrutinee lc).trans hlc
  have harms := walkArms_agrees arms hkeeps.2 (checkExpr scrutinee lc).snapshot
    (checkExpr scrutinee lc) hfns hscrutinee
  have hruns := matchRuns_follows arms (Follows.refl (checkExpr scrutinee lc))
  apply pathExact_of hscrutinee harms hruns
    (scopes_after (follows_rule.checkExpr scrutinee lc) (follows_rule.checkExpr _ lc))
  · rw [checkExpr_match]
    cases matchRuns arms (checkExpr scrutinee lc).snapshot (checkExpr scrutinee lc) with
    | nil => exact .inl rfl
    | cons first rest => exact .inr ⟨first, List.mem_cons_self, rfl⟩
  · rw [checkExpr]
    cases arms with
    | nil => simp [armsMoved, matchRuns]
    | cons arm arms =>
      obtain ⟨pattern, body, armSpan⟩ := arm
      obtain ⟨hstates, hend⟩ := checkArms_eq (⟨pattern, body, armSpan⟩ :: arms)
        (checkExpr scrutinee lc).snapshot (checkExpr scrutinee lc)
      have hsome : ¬ (MatchArm.mk pattern body armSpan :: arms).isEmpty = true :=
        Bool.false_ne_true
      dsimp only
      rw [if_neg hsome, hstates, hend]
      have hfirst := (hruns _ List.mem_cons_self).2
      refine Iff.trans (mergeArmStates_reports hfirst ?_ _ span) disagree_iff.symm
      intro other hother
      obtain ⟨run, hrun, rfl⟩ := List.mem_map.mp hother
      exact (hruns run (List.mem_cons_of_mem _ hrun)).2

/-- Where checker and walk agree, so do they on what the arms move. -/
theorem Aligned.pathExactAt {fns : Ownerships} {p : Point} (h : Aligned fns p) :
    PathExactAt fns p := by
  obtain ⟨⟨kind, span⟩, lc, σ⟩ := p
  obtain ⟨overlooked, kept, hlc, hagrees, hkeeps⟩ := h
  cases kind
  case ite cond then_ else_ => exact pathExact_ite cond then_ else_ span hlc hagrees hkeeps
  case «match» scrutinee arms => exact pathExact_match scrutinee arms span hlc hagrees hkeeps
  all_goals trivial

theorem bodyPoint_aligned (lc : LinearityChecker) (def_ : FnDef)
    (hkeeps : keepsParams (knownFns lc def_) def_.body [] = true) :
    Aligned (knownFns lc def_) (bodyPoint lc def_) := by
  have hstart : (bodyPoint lc def_).checker =
      introduces (def_.params.map Param.name) (lc.registerFn def_).pushScope := by
    unfold introduces
    rw [List.foldl_map]
    rfl
  have hfns : ∀ (names : List String) (lc : LinearityChecker),
      (introduces names lc).fnOwnerships = lc.fnOwnerships := by
    intro names
    induction names with
    | nil => exact fun _ => rfl
    | cons name names ih => exact fun lc => ih (lc.introduce name)
  refine ⟨[], Holdings.introduce lc.lookupState [], ?_, ?_, hkeeps⟩
  · rw [hstart, hfns]
    rfl
  · rw [hstart, lookupState_introduces]
    refine ⟨fun _ _ => rfl, ?_, ?_⟩
    · intro name hname
      cases hname
    · intro name hname
      cases hname

/-- In the check of a function that gives no parameter of a lambda or a quantifier away, whatever
was checked before it, branches are merged path by path: at every `if` and `match` that the check
comes to, all arms are checked from one state, the merge complains just when two arms disagree on a
variable around it, otherwise what is moved afterwards is what each arm moved, and the scopes are
popped. -/
theorem branches_path_exact (lc : LinearityChecker) (def_ : FnDef)
    (hkeeps : keepsParams (knownFns lc def_) def_.body [] = true) (p : Point)
    (hreached : Relation.ReflTransGen (Enters (knownFns lc def_)) (bodyPoint lc def_) p) :
    PathExactAt (knownFns lc def_) p :=
  (reached_aligned hreached (bodyPoint_aligned lc def_ hkeeps)).pathExactAt

/-- `consume` has been checked. -/
def consumeChecked : LinearityChecker := new.checkFn consume

def text : AstType := ⟨.named "String", .dummy⟩

/-- `(if c (let (x : String "b") (consume x)) 0)` with parameters `x` and `c`. -/
def shadowing : FnDef :=
  ⟨"f", [paramOf .default "x", paramOf .default "c"], ⟨.named "i64", .dummy⟩, [], [], [],
    ⟨.ite (symbol "c")
      ⟨.let [⟨"x", text, ⟨.strLit "b", .dummy⟩, .dummy⟩] (call "consume" [symbol "x"]), .dummy⟩
      ⟨.intLit 0, .dummy⟩, .dummy⟩⟩

theorem shadowing_path_exact :
    PathExactAt (knownFns consumeChecked shadowing) (bodyPoint consumeChecked shadowing) :=
  branches_path_exact consumeChecked shadowing (by decide) _ .refl

/-- `(if c ((fn [x] (consume x)) "b") 0)` with parameters `x` and `c`. -/
def givingAway : FnDef :=
  ⟨"f", [paramOf .default "x", paramOf .default "c"], ⟨.named "i64", .dummy⟩, [], [], [],
    ⟨.ite (symbol "c")
      ⟨.fnCall ⟨.lambda [paramOf .default "x"] (call "consume" [symbol "x"]), .dummy⟩
        [⟨.strLit "b", .dummy⟩], .dummy⟩
      ⟨.intLit 0, .dummy⟩, .dummy⟩⟩

theorem walk_own_parameter (fns : Ownerships) (param : Param) (callee : String) (σ : Holdings) :
    walk fns ⟨.lambda [param] (call callee [symbol param.name]), .dummy⟩ σ = σ := by
  funext name
  unfold walk Holdings.closing
  rw [List.map_singleton]
  split
  next => rfl
  next hother =>
    have hne : name ≠ param.name := fun heq => hother (List.mem_singleton.mpr heq)
    change Holdings.pass _ _ _ _ name = _
    unfold Holdings.pass Holdings.introduce
    rw [if_neg hne, if_neg hother]

/-- The lambda moves its own `x`, and the arms are said to disagree on the one around them. -/
theorem merge_reports_parameter :
    ¬ ∀ (lc : LinearityChecker) (def_ : FnDef) (p : Point),
      Relation.ReflTransGen (Enters (knownFns lc def_)) (bodyPoint lc def_) p →
        PathExactAt (knownFns lc def_) p := by
  intro h
  have hexact := h consumeChecked givingAway _ .refl
  obtain ⟨a, ha, b, _, name, hmoved, _⟩ := hexact.reports.mp (by decide)
  have hsame : a = (bodyPoint consumeChecked givingAway).holdings := by
    rcases List.mem_cons.mp ha with rfl | ha
    · exact walk_own_parameter _ (paramOf .default "x") "consume" _
    · exact List.mem_singleton.mp ha
  rw [hsame] at hmoved
  exact hmoved.2 hmoved.1

end Airl.LinearityChecker
