import Airl.Types.Linearity

/-! # What the checker does along an expression

A property of the checker's operations is carried through `checkExpr` once and for all: `CheckRule`
names what the operations have to satisfy, with a relation of its own for the states inside a scope
and one for snapshots. The checks of symbol arguments that a run comes to are listed with the state
in which each is made.
-/

namespace Airl

namespace LinearityChecker

/-- `R` relates the state before an expression to the state after it, `S` the state before a scope
to the states inside, and `T` a state to the snapshots it may be restored from. -/
structure CheckRule (R S : LinearityChecker → LinearityChecker → Prop)
    (T : LinearityChecker → LinearitySnapshot → Prop) : Prop where
  refl : ∀ lc, R lc lc
  trans : ∀ {a b c}, R a b → R b c → R a c
  symbol : ∀ lc name ownership span, R lc (lc.checkSymbol name ownership span).2
  merge : ∀ lc a b span, R lc (lc.mergeBranchStates a b span)
  push : ∀ lc, S lc lc.pushScope
  introduce : ∀ {a b} name, S a b → S a (b.introduce name)
  step : ∀ {a b c}, S a b → R b c → S a c
  pop : ∀ {a b}, S a b → R a b.popScope
  snapshot : ∀ {a b}, R a b → T a b.snapshot
  restore : ∀ {a b snap}, R a b → T a snap → R a (b.restore snap)

variable {R S : LinearityChecker → LinearityChecker → Prop}
variable {T : LinearityChecker → LinearitySnapshot → Prop}

mutual

theorem CheckRule.introducePattern (h : CheckRule R S T) {lc : LinearityChecker} :
    ∀ (p : Pattern) (inner : LinearityChecker), S lc inner →
      S lc (LinearityChecker.introducePattern p inner)
  | ⟨.binding name, _⟩, _, hin => h.introduce name hin
  | ⟨.variant _ subPats, _⟩, _, hin => CheckRule.introducePatterns h subPats _ hin
  | ⟨.wildcard, _⟩, _, hin => hin
  | ⟨.literal _, _⟩, _, hin => hin

theorem CheckRule.introducePatterns (h : CheckRule R S T) {lc : LinearityChecker} :
    ∀ (ps : List Pattern) (inner : LinearityChecker), S lc inner →
      S lc (LinearityChecker.introducePatterns ps inner)
  | [], _, hin => hin
  | p :: ps, _, hin =>
    CheckRule.introducePatterns h ps _ (CheckRule.introducePattern h p _ hin)

end

theorem CheckRule.mergeArmStates (h : CheckRule R S T) (lc : LinearityChecker)
    (armStates : List LinearitySnapshot) (span : Span) :
    R lc (lc.mergeArmStates armStates span) := by
  cases armStates with
  | nil => exact h.refl lc
  | cons first others =>
    unfold LinearityChecker.mergeArmStates
    induction others generalizing lc with
    | nil => exact h.refl lc
    | cons other others ih =>
      apply h.trans (h.merge lc first other span)
      exact ih (lc.mergeBranchStates first other span)

mutual

/-- A rule of the single steps holds of the checker, by induction on the expression. -/
theorem CheckRule.checkExpr (h : CheckRule R S T) :
    ∀ (e : Expr) (lc : LinearityChecker), R lc (LinearityChecker.checkExpr e lc)
  | ⟨.fnCall callee args, _⟩, lc => by
    unfold LinearityChecker.checkExpr
    exact h.trans (CheckRule.checkArgs h args _ lc) (CheckRule.checkExpr h callee _)
  | ⟨.let bindings body, _⟩, lc => by
    unfold LinearityChecker.checkExpr
    apply h.pop
    exact h.step (CheckRule.checkBindings h bindings _ (h.push lc))
      (CheckRule.checkExpr h body _)
  | ⟨.do exprs, _⟩, lc => CheckRule.checkExprs h exprs lc
  | ⟨.ite cond then_ else_, span⟩, lc => by
    unfold LinearityChecker.checkExpr
    apply h.trans (CheckRule.checkExpr h cond lc)
    -- the second branch starts where the first did
    have hrestored := h.restore (CheckRule.checkExpr h then_ _)
      (h.snapshot (h.refl (LinearityChecker.checkExpr cond lc)))
    apply h.trans hrestored
    exact h.trans (CheckRule.checkExpr h else_ _) (h.merge _ _ _ span)
  | ⟨.match scrutinee arms, span⟩, lc => by
    unfold LinearityChecker.checkExpr
    apply h.trans (CheckRule.checkExpr h scrutinee lc)
    dsimp only
    split
    next => exact h.refl _
    next =>
      have hsnap := h.snapshot (h.refl (LinearityChecker.checkExpr scrutinee lc))
      obtain ⟨hend, hstates⟩ := CheckRule.checkArms h arms _ _ (h.refl _) hsnap
      apply h.restore (h.trans hend (h.mergeArmStates _ _ span))
      cases hhead : (LinearityChecker.checkArms arms
        (LinearityChecker.checkExpr scrutinee lc).snapshot
        (LinearityChecker.checkExpr scrutinee lc)).1.head? with
      | none => exact hsnap
      | some first => exact hstates first (List.mem_of_mem_head? hhead)
  | ⟨.lambda _ body, _⟩, lc => by
    unfold LinearityChecker.checkExpr
    exact h.pop (h.step (h.push lc) (CheckRule.checkExpr h body _))
  | ⟨.try inner, _⟩, lc => CheckRule.checkExpr h inner lc
  | ⟨.variantCtor _ args, _⟩, lc => CheckRule.checkExprs h args lc
  | ⟨.structLit _ fields, _⟩, lc => CheckRule.checkFields h fields lc
  | ⟨.listLit items, _⟩, lc => CheckRule.checkExprs h items lc
  | ⟨.forall _ whereClause body, _⟩, lc => by
    unfold LinearityChecker.checkExpr
    exact h.trans (CheckRule.checkWhere h whereClause lc) (CheckRule.checkExpr h body _)
  | ⟨.exists _ whereClause body, _⟩, lc => by
    unfold LinearityChecker.checkExpr
    exact h.trans (CheckRule.checkWhere h whereClause lc) (CheckRule.checkExpr h body _)
  | ⟨.intLit _, _⟩, lc => h.refl lc
  | ⟨.floatLit _, _⟩, lc => h.refl lc
  | ⟨.strLit _, _⟩, lc => h.refl lc
  | ⟨.boolLit _, _⟩, lc => h.refl lc
  | ⟨.nilLit, _⟩, lc => h.refl lc
  | ⟨.symbolRef _, _⟩, lc => h.refl lc
  | ⟨.keywordLit _, _⟩, lc => h.refl lc

theorem CheckRule.checkExprs (h : CheckRule R S T) :
    ∀ (es : List Expr) (lc : LinearityChecker), R lc (LinearityChecker.checkExprs es lc)
  | [], lc => h.refl lc
  | e :: es, lc => h.trans (CheckRule.checkExpr h e lc) (CheckRule.checkExprs h es _)

theorem CheckRule.checkFields (h : CheckRule R S T) :
    ∀ (fields : List FieldInit) (lc : LinearityChecker),
      R lc (LinearityChecker.checkFields fields lc)
  | [], lc => h.refl lc
  | ⟨_, value⟩ :: fields, lc =>
    h.trans (CheckRule.checkExpr h value lc) (CheckRule.checkFields h fields _)

theorem CheckRule.checkWhere (h : CheckRule R S T) :
    ∀ (guard : Option Expr) (lc : LinearityChecker), R lc (LinearityChecker.checkWhere guard lc)
  | none, lc => h.refl lc
  | some guard, lc => CheckRule.checkExpr h guard lc

theorem CheckRule.checkBindings (h : CheckRule R S T) {lc : LinearityChecker} :
    ∀ (bindings : List LetBinding) (inner : LinearityChecker), S lc inner →
      S lc (LinearityChecker.checkBindings bindings inner)
  | [], _, hin => hin
  | ⟨name, _, value, _⟩ :: bindings, _, hin => by
    apply CheckRule.checkBindings h bindings
    exact h.introduce name (h.step hin (CheckRule.checkExpr h value _))

/-- Of the arms of a match, each from the same snapshot. -/
theorem CheckRule.checkArms (h : CheckRule R S T) {lc : LinearityChecker} :
    ∀ (arms : List MatchArm) (snap : LinearitySnapshot) (after : LinearityChecker), R lc after →
      T lc snap →
        R lc (LinearityChecker.checkArms arms snap after).2 ∧
          ∀ state ∈ (LinearityChecker.checkArms arms snap after).1, T lc state
  | [], _, _, hafter, _ => ⟨hafter, nofun⟩
  | ⟨pattern, body, _⟩ :: arms, snap, after, hafter, hsnap => by
    have harm : R lc (LinearityChecker.checkExpr body
        (LinearityChecker.introducePattern pattern (after.restore snap).pushScope)).popScope := by
      apply h.trans (h.restore hafter hsnap)
      apply h.pop
      exact h.step (h.introducePattern pattern _ (h.push _)) (CheckRule.checkExpr h body _)
    obtain ⟨hend, hstates⟩ := CheckRule.checkArms h arms snap _ harm hsnap
    refine ⟨hend, ?_⟩
    intro state hstate
    rcases List.mem_cons.mp hstate with rfl | hlater
    · exact h.snapshot harm
    · exact hstates state hlater

theorem CheckRule.checkArgs (h : CheckRule R S T) :
    ∀ (args : List Expr) (ownerships : List Ownership) (lc : LinearityChecker),
      R lc (LinearityChecker.checkArgs args ownerships lc)
  | [], _, lc => h.refl lc
  | arg :: args, ownerships, lc => by
    unfold LinearityChecker.checkArgs
    refine h.trans ?_ (CheckRule.checkArgs h args _ _)
    split
    next name _ => exact h.symbol lc name _ _
    next => exact CheckRule.checkExpr h arg lc

end

/-- The check of a symbol that is an argument, and the state in which it is made. -/
structure ArgCheck where
  checker : LinearityChecker
  name : String
  ownership : Ownership
  span : Span

def ArgCheck.outcome (c : ArgCheck) : Except Unit Unit × LinearityChecker :=
  c.checker.checkSymbol c.name c.ownership c.span

def ArgCheck.state (c : ArgCheck) : Option OwnershipState := c.checker.lookupState c.name

mutual

/-- The checks that `checkExpr` comes to. -/
def argChecks : Expr → LinearityChecker → List ArgCheck
  | ⟨.fnCall callee args, _⟩, lc =>
    let ownerships := lc.extractCalleeOwnerships callee
    argsChecks args ownerships lc ++ argChecks callee (checkArgs args ownerships lc)
  | ⟨.let bindings body, _⟩, lc =>
    bindingChecks bindings lc.pushScope ++ argChecks body (checkBindings bindings lc.pushScope)
  | ⟨.do exprs, _⟩, lc => exprsChecks exprs lc
  | ⟨.ite cond then_ else_, _⟩, lc =>
    let tested := checkExpr cond lc
    argChecks cond lc ++ argChecks then_ tested ++
      argChecks else_ ((checkExpr then_ tested).restore tested.snapshot)
  | ⟨.match scrutinee arms, _⟩, lc =>
    let matched := checkExpr scrutinee lc
    argChecks scrutinee lc ++ armChecks arms matched.snapshot matched
  | ⟨.lambda _ body, _⟩, lc => argChecks body lc.pushScope
  | ⟨.try inner, _⟩, lc => argChecks inner lc
  | ⟨.variantCtor _ args, _⟩, lc => exprsChecks args lc
  | ⟨.structLit _ fields, _⟩, lc => fieldChecks fields lc
  | ⟨.listLit items, _⟩, lc => exprsChecks items lc
  | ⟨.forall _ whereClause body, _⟩, lc =>
    whereChecks whereClause lc ++ argChecks body (checkWhere whereClause lc)
  | ⟨.exists _ whereClause body, _⟩, lc =>
    whereChecks whereClause lc ++ argChecks body (checkWhere whereClause lc)
  | _, _ => []

def exprsChecks : List Expr → LinearityChecker → List ArgCheck
  | [], _ => []
  | e :: es, lc => argChecks e lc ++ exprsChecks es (checkExpr e lc)

def fieldChecks : List FieldInit → LinearityChecker → List ArgCheck
  | [], _ => []
  | ⟨_, value⟩ :: fields, lc => argChecks value lc ++ fieldChecks fields (checkExpr value lc)

def whereChecks : Option Expr → LinearityChecker → List ArgCheck
  | none, _ => []
  | some guard, lc => argChecks guard lc

def bindingChecks : List LetBinding → LinearityChecker → List ArgCheck
  | [], _ => []
  | ⟨name, _, value, _⟩ :: bindings, lc =>
    argChecks value lc ++ bindingChecks bindings ((checkExpr value lc).introduce name)

def armChecks : List MatchArm → LinearitySnapshot → LinearityChecker → List ArgCheck
  | [], _, _ => []
  | ⟨pattern, body, _⟩ :: arms, snap, lc =>
    let started := introducePattern pattern (lc.restore snap).pushScope
    argChecks body started ++ armChecks arms snap (checkExpr body started).popScope

def argsChecks : List Expr → List Ownership → LinearityChecker → List ArgCheck
  | [], _, _ => []
  | arg :: args, ownerships, lc =>
    let ownership := ownerships.headD .default
    match arg.kind with
    | .symbolRef name =>
      ⟨lc, name, ownership, arg.span⟩ ::
        argsChecks args ownerships.tail (lc.checkSymbol name ownership arg.span).2
    | _ => argChecks arg lc ++ argsChecks args ownerships.tail (checkExpr arg lc)

end

/-- Every check lies between the two states; what follows it is asked for only under `p`. -/
def Between (R : LinearityChecker → LinearityChecker → Prop) (p : Prop)
    (before after : LinearityChecker) (cs : List ArgCheck) : Prop :=
  ∀ c ∈ cs, R before c.checker ∧ (p → R c.outcome.2 after)

variable {p : Prop}

theorem Between.nil (before after : LinearityChecker) : Between R p before after [] := nofun

theorem CheckRule.between_append (h : CheckRule R R T) {a b d : LinearityChecker}
    {cs ds : List ArgCheck} (hcs : Between R p a b cs) (hab : R a b) (hds : Between R p b d ds)
    (hbd : R b d) : Between R p a d (cs ++ ds) := by
  intro c hc
  rcases List.mem_append.mp hc with hc | hc
  · exact ⟨(hcs c hc).1, fun hp => h.trans ((hcs c hc).2 hp) hbd⟩
  · exact ⟨h.trans hab (hds c hc).1, (hds c hc).2⟩

theorem CheckRule.between_mono (h : CheckRule R R T) {a b a' b' : LinearityChecker}
    {cs : List ArgCheck} (ha : R a' a) (hcs : Between R p a b cs) (hb : p → R b b') :
    Between R p a' b' cs := by
  intro c hc
  exact ⟨h.trans ha (hcs c hc).1, fun hp => h.trans ((hcs c hc).2 hp) (hb hp)⟩

mutual

/-- And between any two checks of arguments that a run comes to. -/
theorem CheckRule.argChecks (h : CheckRule R R T) (hfree : p → ∀ a snap, T a snap) :
    ∀ (e : Expr) (lc : LinearityChecker),
      Between R p lc (LinearityChecker.checkExpr e lc) (LinearityChecker.argChecks e lc)
  | ⟨.fnCall callee args, _⟩, lc => by
    unfold LinearityChecker.checkExpr LinearityChecker.argChecks
    exact h.between_append (CheckRule.argsChecks h hfree args _ lc) (h.checkArgs args _ lc)
      (CheckRule.argChecks h hfree callee _) (h.checkExpr callee _)
  | ⟨.let bindings body, _⟩, lc => by
    unfold LinearityChecker.checkExpr LinearityChecker.argChecks
    refine h.between_mono (h.refl lc) ?_ (fun _ => h.pop (h.refl _))
    have hbound := h.checkBindings bindings lc.pushScope (h.push lc)
    apply h.between_append _ hbound (CheckRule.argChecks h hfree body _) (h.checkExpr body _)
    exact h.between_mono (h.push lc) (CheckRule.bindingChecks h hfree bindings _)
      (fun _ => h.refl _)
  | ⟨.do exprs, _⟩, lc => CheckRule.exprsChecks h hfree exprs lc
  | ⟨.ite cond then_ else_, span⟩, lc => by
    unfold LinearityChecker.checkExpr LinearityChecker.argChecks
    have hthen := h.checkExpr then_ (LinearityChecker.checkExpr cond lc)
    have hrestored := h.restore hthen (h.snapshot (h.refl _))
    have helse := h.checkExpr else_ ((LinearityChecker.checkExpr then_
      (LinearityChecker.checkExpr cond lc)).restore (LinearityChecker.checkExpr cond lc).snapshot)
    refine h.between_mono (h.refl lc) ?_ (fun _ => h.merge _ _ _ span)
    refine h.between_append ?_ (h.trans (h.checkExpr cond lc) hrestored)
      (CheckRule.argChecks h hfree else_ _) helse
    refine h.between_append (CheckRule.argChecks h hfree cond lc) (h.checkExpr cond lc) ?_
      hrestored
    exact h.between_mono (h.refl _) (CheckRule.argChecks h hfree then_ _)
      (fun hp => h.restore (h.refl _) (hfree hp _ _))
  | ⟨.match scrutinee arms, span⟩, lc => by
    unfold LinearityChecker.checkExpr LinearityChecker.argChecks
    have hscrutinee := CheckRule.argChecks h hfree scrutinee lc
    have hmatched := h.checkExpr scrutinee lc
    dsimp only
    split
    next hempty =>
      rw [List.isEmpty_iff.mp hempty]
      apply h.between_append hscrutinee hmatched _ (h.refl _)
      exact Between.nil _ _
    next hne =>
      have hsnap := h.snapshot (h.refl (LinearityChecker.checkExpr scrutinee lc))
      have harms := CheckRule.armChecks h hfree arms _ _ (h.refl _) hsnap
      have hend := (h.checkArms arms _ _ (h.refl _) hsnap).1
      intro c hc
      rcases List.mem_append.mp hc with hc | hc
      · refine ⟨(hscrutinee c hc).1, fun hp => ?_⟩
        apply h.trans ((hscrutinee c hc).2 hp)
        exact h.restore (h.trans hend (h.mergeArmStates _ _ span)) (hfree hp _ _)
      · refine ⟨h.trans hmatched (harms c hc).1, fun hp => ?_⟩
        apply h.trans ((harms c hc).2 hp)
        exact h.restore (h.mergeArmStates _ _ span) (hfree hp _ _)
  | ⟨.lambda _ body, _⟩, lc => by
    unfold LinearityChecker.checkExpr LinearityChecker.argChecks
    exact h.between_mono (h.push lc) (CheckRule.argChecks h hfree body _)
      (fun _ => h.pop (h.refl _))
  | ⟨.try inner, _⟩, lc => CheckRule.argChecks h hfree inner lc
  | ⟨.variantCtor _ args, _⟩, lc => CheckRule.exprsChecks h hfree args lc
  | ⟨.structLit _ fields, _⟩, lc => CheckRule.fieldChecks h hfree fields lc
  | ⟨.listLit items, _⟩, lc => CheckRule.exprsChecks h hfree items lc
  | ⟨.forall _ whereClause body, _⟩, lc => by
    unfold LinearityChecker.checkExpr LinearityChecker.argChecks
    exact h.between_append (CheckRule.whereChecks h hfree whereClause lc)
      (h.checkWhere whereClause lc) (CheckRule.argChecks h hfree body _) (h.checkExpr body _)
  | ⟨.exists _ whereClause body, _⟩, lc => by
    unfold LinearityChecker.checkExpr LinearityChecker.argChecks
    exact h.between_append (CheckRule.whereChecks h hfree whereClause lc)
      (h.checkWhere whereClause lc) (CheckRule.argChecks h hfree body _) (h.checkExpr body _)
  | ⟨.intLit _, _⟩, lc => Between.nil lc lc
  | ⟨.floatLit _, _⟩, lc => Between.nil lc lc
  | ⟨.strLit _, _⟩, lc => Between.nil lc lc
  | ⟨.boolLit _, _⟩, lc => Between.nil lc lc
  | ⟨.nilLit, _⟩, lc => Between.nil lc lc
  | ⟨.symbolRef _, _⟩, lc => Between.nil lc lc
  | ⟨.keywordLit _, _⟩, lc => Between.nil lc lc

theorem CheckRule.exprsChecks (h : CheckRule R R T) (hfree : p → ∀ a snap, T a snap) :
    ∀ (es : List Expr) (lc : LinearityChecker),
      Between R p lc (LinearityChecker.checkExprs es lc) (LinearityChecker.exprsChecks es lc)
  | [], lc => Between.nil lc lc
  | e :: es, lc =>
    h.between_append (CheckRule.argChecks h hfree e lc) (h.checkExpr e lc)
      (CheckRule.exprsChecks h hfree es _) (h.checkExprs es _)

theorem CheckRule.fieldChecks (h : CheckRule R R T) (hfree : p → ∀ a snap, T a snap) :
    ∀ (fields : List FieldInit) (lc : LinearityChecker),
      Between R p lc (LinearityChecker.checkFields fields lc)
        (LinearityChecker.fieldChecks fields lc)
  | [], lc => Between.nil lc lc
  | ⟨_, value⟩ :: fields, lc =>
    h.between_append (CheckRule.argChecks h hfree value lc) (h.checkExpr value lc)
      (CheckRule.fieldChecks h hfree fields _) (h.checkFields fields _)

theorem CheckRule.whereChecks (h : CheckRule R R T) (hfree : p → ∀ a snap, T a snap) :
    ∀ (guard : Option Expr) (lc : LinearityChecker),
      Between R p lc (LinearityChecker.checkWhere guard lc) (LinearityChecker.whereChecks guard lc)
  | none, lc => Between.nil lc lc
  | some guard, lc => CheckRule.argChecks h hfree guard lc

theorem CheckRule.bindingChecks (h : CheckRule R R T) (hfree : p → ∀ a snap, T a snap) :
    ∀ (bindings : List LetBinding) (lc : LinearityChecker),
      Between R p lc (LinearityChecker.checkBindings bindings lc)
        (LinearityChecker.bindingChecks bindings lc)
  | [], lc => Between.nil lc lc
  | ⟨name, _, value, _⟩ :: bindings, lc => by
    unfold LinearityChecker.checkBindings LinearityChecker.bindingChecks
    have hvalue := h.checkExpr value lc
    have hbound : R (LinearityChecker.checkExpr value lc)
        ((LinearityChecker.checkExpr value lc).introduce name) := h.introduce name (h.refl _)
    have hrest := h.checkBindings bindings _
      (h.refl ((LinearityChecker.checkExpr value lc).introduce name))
    refine h.between_append ?_ (h.trans hvalue hbound)
      (CheckRule.bindingChecks h hfree bindings _) hrest
    exact h.between_mono (h.refl lc) (CheckRule.argChecks h hfree value lc) (fun _ => hbound)

theorem CheckRule.armChecks (h : CheckRule R R T) (hfree : p → ∀ a snap, T a snap)
    {lc : LinearityChecker} :
    ∀ (arms : List MatchArm) (snap : LinearitySnapshot) (after : LinearityChecker), R lc after →
      T lc snap →
        Between R p lc (LinearityChecker.checkArms arms snap after).2
          (LinearityChecker.armChecks arms snap after)
  | [], _, _, _, _ => nofun
  | ⟨pattern, body, _⟩ :: arms, snap, after, hafter, hsnap => by
    have hstarted : R lc
        (LinearityChecker.introducePattern pattern (after.restore snap).pushScope) := by
      apply h.trans (h.restore hafter hsnap)
      exact h.introducePattern pattern _ (h.push _)
    have harm := h.pop (h.trans hstarted (h.checkExpr body _))
    have hlater := CheckRule.armChecks h hfree arms snap _ harm hsnap
    intro c hc
    rcases List.mem_append.mp hc with hc | hc
    · have hbody := CheckRule.argChecks h hfree body _ c hc
      refine ⟨h.trans hstarted hbody.1, fun hp => ?_⟩
      apply h.trans (h.pop (hbody.2 hp))
      exact (h.checkArms arms snap _ (h.refl _) (hfree hp _ _)).1
    · exact hlater c hc

theorem CheckRule.argsChecks (h : CheckRule R R T) (hfree : p → ∀ a snap, T a snap) :
    ∀ (args : List Expr) (ownerships : List Ownership) (lc : LinearityChecker),
      Between R p lc (LinearityChecker.checkArgs args ownerships lc)
        (LinearityChecker.argsChecks args ownerships lc)
  | [], _, lc => Between.nil lc lc
  | arg :: args, ownerships, lc => by
    unfold LinearityChecker.checkArgs LinearityChecker.argsChecks
    have hrest := h.checkArgs args ownerships.tail
    cases arg.kind
    case symbolRef name =>
      have hsymbol := h.symbol lc name (ownerships.headD .default) arg.span
      have htail := h.between_mono hsymbol
        (CheckRule.argsChecks h hfree args ownerships.tail _) (fun _ => h.refl _)
      intro c hc
      rcases List.mem_cons.mp hc with rfl | hc
      · exact ⟨h.refl lc, fun _ => hrest _⟩
      · exact htail c hc
    all_goals
      exact h.between_append (CheckRule.argChecks h hfree arg lc) (h.checkExpr arg lc)
        (CheckRule.argsChecks h hfree args ownerships.tail _) (hrest _)

end

end LinearityChecker

end Airl
