import Airl.Bytecode.CompilerSpec

/-! # Scopes of the compiler

What compiling an expression does to the compiler's map from names to registers: the
names that the expression rebinds are gone from it, whatever they were bound to before,
and every other name keeps its register. So an expression leaves the map as it found it
exactly if it rebinds no name that is bound around it.
-/

namespace Airl

/-- A step from `s` to `s'` that rebinds the names in `fresh` and forgets those in `gone`. -/
def Scopes (gone fresh : List String) (s s' : Compiler) : Prop :=
  ∀ x, x ∉ fresh → s'.locals x = if x ∈ gone then none else s.locals x

namespace Scopes

variable {gone gone' fresh fresh' : List String} {s s' s'' : Compiler}

/-- Code that touches no name. -/
theorem of_eq (h : s'.locals = s.locals) : Scopes [] [] s s' := by
  intro x _
  simp [h]

/-- One after the other: what is lost and what is new adds up. -/
theorem append (h : Scopes gone fresh s s') (h' : Scopes gone' fresh' s' s'') :
    Scopes (gone ++ gone') (fresh ++ fresh') s s'' := by
  intro x hx
  rw [List.mem_append, not_or] at hx
  rw [h' x hx.2, h x hx.1]
  by_cases hgone' : x ∈ gone'
  · simp [hgone']
  · simp [hgone']

/-- What comes after may change all but the names. -/
theorem keep (h : Scopes gone fresh s s') (heq : s''.locals = s'.locals) :
    Scopes gone fresh s s'' := by
  intro x hx
  rw [heq]
  exact h x hx

theorem free (h : Scopes gone fresh s s') (r : Nat) : Scopes gone fresh s (s'.freeRegTo r) :=
  h.keep rfl

theorem from_eq (h : Scopes gone fresh s s') (heq : s.locals = s''.locals) :
    Scopes gone fresh s'' s' := by
  intro x hx
  rw [← heq]
  exact h x hx

/-- Removing the new names ends their scope, and loses what they hid. -/
theorem remove (h : Scopes gone fresh s s') {names : List String}
    (hfresh : ∀ x ∈ fresh, x ∈ names) : Scopes (gone ++ names) [] s (s'.removeLocals names) := by
  intro x _
  by_cases hx : x ∈ names
  · simp [Compiler.removeLocals, hx]
  · rw [show (s'.removeLocals names).locals x = s'.locals x from if_neg hx,
      h x (mt (hfresh x) hx)]
    simp [hx]

/-- A name that is new is not asked for among the lost ones. -/
theorem congr (h : Scopes gone fresh s s') (hgone : ∀ x, x ∉ fresh → (x ∈ gone ↔ x ∈ gone')) :
    Scopes gone' fresh s s' := by
  intro x hx
  rw [h x hx]
  simp only [hgone x hx]

/-- Binding a name makes it new. -/
theorem insertLocal (s : Compiler) (name : String) (r : Nat) :
    Scopes [] [name] s (s.insertLocal name r) := by
  intro x hx
  rw [List.mem_singleton] at hx
  simp [Compiler.insertLocal, hx]

end Scopes

theorem loadConstant_locals (s : Compiler) (v : VmValue) (dst : Nat) :
    (s.loadConstant v dst).state.locals = s.locals :=
  s.addConstant_locals v

theorem reserveSlots_locals (s : Compiler) (dst count : Nat) :
    (s.reserveSlots dst count).locals = s.locals := by
  unfold Compiler.reserveSlots
  split
  · rfl
  · rfl

theorem raiseAbove_locals (s : Compiler) (pos : Position) (dst : Nat) :
    (s.raiseAbove pos dst).locals = s.locals := by
  cases pos with
  | value =>
    simp only [Compiler.raiseAbove]
    split
    · rfl
    · rfl
  | tail fnName => rfl

theorem allocRegs_locals (s : Compiler) (count : Nat) : (s.allocRegs count).locals = s.locals := by
  induction count generalizing s with
  | zero => rfl
  | succ count ih => exact ih s.allocReg

theorem makeClosure_locals (name : String) (captures : List (String × Nat)) (dst : Nat)
    (s : Compiler) : (makeClosure name captures dst s).state.locals = s.locals :=
  (Compiler.addConstant_locals _ _).trans (allocRegs_locals s captures.length)

theorem conflictChecks_locals (args : List IRNode) (regs : List Nat) (s : Compiler) :
    (conflictChecks args regs s).state.locals = s.locals := by
  induction regs generalizing s with
  | nil => rfl
  | cons reg regs ih => exact (ih _).trans (s.addConstant_locals _)

theorem ownChecks_locals (flags : List Bool) (sources : List (Option Nat)) (args : List IRNode)
    (s : Compiler) : (ownChecks flags sources args s).state.locals = s.locals := by
  fun_induction ownChecks flags sources args s with
  | case1 flags reg sources arg args s name idx rest ih => exact ih.trans (s.addConstant_locals _)
  | case2 flag flags source sources arg args s h ih => exact ih
  | case3 => rfl

theorem ownershipChecks_locals (flags : List Bool) (sources : List (Option Nat))
    (args : List IRNode) (s : Compiler) :
    (ownershipChecks flags sources args s).state.locals = s.locals := by
  rw [ownershipChecks]
  split
  · exact ownChecks_locals flags sources args s
  · exact conflictChecks_locals args _ s

theorem saveCallee_locals (callee : Option Nat) (dst count : Nat) (s : Compiler) :
    (saveCallee callee dst count s).state.locals = s.locals := by
  cases callee with
  | none => rfl
  | some orig =>
    simp only [saveCallee]
    split
    · rfl
    · rfl

theorem emitCall_locals (name : String) (callee : Option Nat) (safe dst count : Nat)
    (s : Compiler) : (emitCall name callee safe dst count s).state.locals = s.locals := by
  cases callee with
  | none => exact s.addConstant_locals _
  | some orig => rfl

theorem generalCall_locals (name : String) (args : List IRNode) (dst : Nat) (s : Compiler)
    (all : EmittedArgs) : (generalCall name args dst s all).state.locals = all.state.locals := by
  have hreserved : ((saveCallee (s.locals name) dst args.length all.state).state.reserveSlots dst
      args.length).locals = all.state.locals := by
    rw [reserveSlots_locals, saveCallee_locals]
  rw [generalCall]
  cases hflags : s.ownershipMap name with
  | none =>
    simp only [Compiler.freeRegTo]
    rw [emitCall_locals, hreserved]
  | some flags =>
    simp only [Compiler.freeRegTo, ownershipMarks]
    rw [emitCall_locals, ownershipChecks_locals, hreserved]

theorem finishCall_locals (name : String) (args : List IRNode) (dst : Nat) (s : Compiler)
    (all : EmittedArgs) : (finishCall name args dst s all).state.locals = all.state.locals := by
  unfold finishCall
  split
  · rfl
  · rfl
  · exact generalCall_locals name args dst s all

theorem finishTailCall_locals (fnName : String) (args : List IRNode) (s : Compiler)
    (all : EmittedArgs) :
    (finishTailCall fnName args s all).state.locals = all.state.locals :=
  Compiler.addConstant_locals _ _

theorem extractField_locals (s : Compiler) (i innerReg : Nat) :
    (extractField s i innerReg).state.locals = s.locals := by
  simp [extractField, Compiler.allocReg]

mutual

/-- A pattern binds its names and loses none. -/
theorem bindPattern_scopes : ∀ (pat : IRPattern) (valueReg : Nat) (s : Compiler),
    Scopes [] pat.bindings s (bindPattern pat valueReg s).state
  | .bind name, valueReg, s => .insertLocal s name valueReg
  | .wild, _, s => .of_eq rfl
  | .lit _, _, s => .of_eq rfl
  | .variant tag subPats, valueReg, s => by
    rw [bindPattern, IRPattern.bindings]
    exact (bindFields_scopes subPats _ _).from_eq (by simp [Compiler.allocReg])

theorem bindFields_scopes : ∀ (pats : List IRPattern) (innerReg : Nat) (s : Compiler),
    Scopes [] (IRPattern.bindingsList pats) s (bindFields pats innerReg s).state
  | [], _, s => .of_eq rfl
  | [pat], innerReg, s => by
    rw [bindFields, IRPattern.bindingsList, IRPattern.bindingsList, List.append_nil]
    exact bindPattern_scopes pat innerReg s
  | pat :: pat' :: pats, innerReg, s => by
    rw [bindFields, IRPattern.bindingsList]
    exact ((bindField_scopes pat 0 innerReg _).from_eq (by simp)).append
      (bindMultiField_scopes (pat' :: pats) 1 innerReg _)

theorem bindMultiField_scopes : ∀ (pats : List IRPattern) (i innerReg : Nat) (s : Compiler),
    Scopes [] (IRPattern.bindingsList pats) s (bindMultiField pats i innerReg s).state
  | [], _, _, s => .of_eq rfl
  | pat :: pats, i, innerReg, s => by
    rw [bindMultiField, IRPattern.bindingsList]
    exact (bindField_scopes pat i innerReg s).append
      (bindMultiField_scopes pats (i + 1) innerReg _)

theorem bindField_scopes : ∀ (pat : IRPattern) (i innerReg : Nat) (s : Compiler),
    Scopes [] pat.bindings s (bindField pat i innerReg s).state
  | .bind name, i, innerReg, s => by
    rw [bindField, IRPattern.bindings]
    exact (Scopes.insertLocal _ name _).from_eq (extractField_locals s i innerReg)
  | .wild, _, _, s => .of_eq rfl
  | .lit _, _, _, s => .of_eq rfl
  | .variant tag nested, i, innerReg, s => by
    rw [bindField, IRPattern.bindings]
    exact (bindFields_scopes nested _ _).from_eq
      (by simp [Compiler.allocReg, extractField_locals])

end

mutual

/-- A node leaves no new name and loses those it rebinds, by induction on the node. -/
theorem compileNode_scopes : ∀ (node : IRNode) (pos : Position) (dst : Nat) (s : Compiler),
    Scopes (lost node) [] s (compileNode node pos dst s).state
  | .int v, pos, dst, s => by
    simp only [compileNode, lost]
    exact .of_eq (loadConstant_locals s _ dst)
  | .float bits, pos, dst, s => by
    simp only [compileNode, lost]
    exact .of_eq (loadConstant_locals s _ dst)
  | .str v, pos, dst, s => by
    simp only [compileNode, lost]
    exact .of_eq (loadConstant_locals s _ dst)
  | .bool true, pos, dst, s => by
    simp only [compileNode, lost]
    exact .of_eq rfl
  | .bool false, pos, dst, s => by
    simp only [compileNode, lost]
    exact .of_eq rfl
  | .nil, pos, dst, s => by
    simp only [compileNode, lost]
    exact .of_eq rfl
  | .func _ _ _, pos, dst, s => by
    simp only [compileNode, lost]
    exact .of_eq rfl
  | .load name, pos, dst, s => by
    simp only [compileNode, lost]
    apply Scopes.of_eq
    cases s.locals name with
    | none => exact loadConstant_locals s _ dst
    | some slot =>
      dsimp only
      split
      · exact s.addConstant_locals _
      · rfl
  | .do [], pos, dst, s => by
    simp only [compileNode, lost, lostList]
    exact .of_eq rfl
  | .do (expr :: exprs), pos, dst, s => by
    simp only [compileNode, lost]
    exact (compileDo_scopes (expr :: exprs) pos dst s).keep rfl
  | .list items, pos, dst, s => by
    simp only [compileNode, lost]
    exact (compileArgs_scopes items s).keep rfl
  | .ite cond then_ else_, pos, dst, s => by
    simp only [compileNode, lost]
    have hcond := ((compileNode_scopes cond .value s.nextReg s.allocReg).from_eq rfl).free
      (max s.nextReg (dst + 1))
    exact ((hcond.append (compileNode_scopes then_ pos dst _)).append
      (compileNode_scopes else_ pos dst _)).keep rfl
  | .let bindings body, pos, dst, s => by
    simp only [compileNode, lost]
    have hbound := (compileBindings_scopes bindings _).from_eq (raiseAbove_locals s pos dst)
    have hall := (hbound.append (compileNode_scopes body pos dst _)).remove
      (fun x hx => (by simpa using hx : x ∈ bindings.map IRBinding.name))
    refine Scopes.congr (hall.keep rfl) fun x _ => ?_
    simp only [List.mem_append]
    exact ⟨fun h => h.elim id fun h => Or.inl (mem_lostBindings_of_name h), Or.inl⟩
  | .call name args, .value, dst, s => by
    simp only [compileNode, lost]
    exact (compileArgs_scopes args s).keep (finishCall_locals name args dst s _)
  | .call name args, .tail fnName, dst, s => by
    simp only [compileNode, lost]
    split
    · exact (compileArgs_scopes args s).keep (finishTailCall_locals fnName args s _)
    · exact (compileArgs_scopes args s).keep (finishCall_locals name args dst s _)
  | .callExpr callee args, pos, dst, s => by
    simp only [compileNode, lost]
    exact (((compileNode_scopes callee .value s.nextReg s.allocReg).from_eq rfl).append
      (compileArgs_scopes args _)).keep (reserveSlots_locals _ _ _)
  | .variant tag [], pos, dst, s => by
    simp only [compileNode, lost, lostList]
    exact .of_eq (s.addConstant_locals _)
  | .variant tag [arg], pos, dst, s => by
    simp only [compileNode, lost, lostList, List.append_nil]
    exact ((compileNode_scopes arg .value _ (s.addConstant (.str tag)).allocReg).from_eq
      (s.addConstant_locals _)).keep rfl
  | .variant tag (arg :: arg' :: args), pos, dst, s => by
    simp only [compileNode, lost]
    exact ((compileArgs_scopes (arg :: arg' :: args) _).from_eq (s.addConstant_locals _)).keep rfl
  | .lambda params body, pos, dst, s => by
    simp only [compileNode, lost]
    exact .of_eq (makeClosure_locals _ _ dst _)
  | .match scrutinee arms, pos, dst, s => by
    simp only [compileNode, lost]
    exact (((compileNode_scopes scrutinee .value s.nextReg s.allocReg).from_eq rfl).append
      (compileArms_scopes arms pos dst s.nextReg _)).keep rfl
  | .try expr, pos, dst, s => by
    simp only [compileNode, lost]
    exact ((compileNode_scopes expr .value s.nextReg s.allocReg).from_eq rfl).keep rfl

theorem compileArgs_scopes : ∀ (args : List IRNode) (s : Compiler),
    Scopes (lostList args) [] s (compileArgs args s).state
  | [], s => by
    simp only [compileArgs, lostList]
    exact .of_eq rfl
  | arg :: args, s => by
    simp only [compileArgs, lostList]
    exact ((compileNode_scopes arg .value s.nextReg s.allocReg).from_eq rfl).append
      (compileArgs_scopes args _)

theorem compileDo_scopes : ∀ (exprs : List IRNode) (pos : Position) (dst : Nat) (s : Compiler),
    Scopes (lostList exprs) [] s (compileDo exprs pos dst s).state
  | [], pos, dst, s => by
    simp only [compileDo, lostList]
    exact .of_eq rfl
  | [expr], pos, dst, s => by
    simp only [compileDo, lostList, List.append_nil]
    exact compileNode_scopes expr pos dst s
  | expr :: expr' :: exprs, pos, dst, s => by
    simp only [compileDo]
    rw [lostList]
    exact ((compileNode_scopes expr .value s.nextReg s.allocReg).from_eq rfl).append
      (compileDo_scopes (expr' :: exprs) pos dst _)

/-- Bindings leave their names to the body. -/
theorem compileBindings_scopes : ∀ (bindings : List IRBinding) (s : Compiler),
    Scopes (lostBindings bindings) (bindings.map IRBinding.name) s
      (compileBindings bindings s).state
  | [], s => by
    simp only [compileBindings, lostBindings]
    exact .of_eq rfl
  | ⟨name, expr⟩ :: bindings, s => by
    simp only [compileBindings, lostBindings, List.map_cons, IRBinding.name]
    have hname := ((compileNode_scopes expr .value s.nextReg s.allocReg).from_eq rfl).append
      (.insertLocal _ name s.nextReg)
    refine (hname.append (compileBindings_scopes bindings _)).congr fun x hx => ?_
    have hne : x ≠ name := fun heq => hx (by simp [heq])
    simp [hne]

theorem compileArms_scopes : ∀ (arms : List IRArm) (pos : Position) (dst scrReg : Nat)
    (s : Compiler), Scopes (lostArms arms) [] s (compileArms arms pos dst scrReg s).state
  | [], pos, dst, scrReg, s => by
    simp only [compileArms, lostArms]
    exact .of_eq rfl
  | ⟨.wild, body⟩ :: arms, pos, dst, scrReg, s => by
    simp only [compileArms, lostArms, IRPattern.bindings, List.nil_append]
    exact (compileNode_scopes body pos dst s).append (compileArms_scopes arms pos dst scrReg _)
  | ⟨.bind name, body⟩ :: arms, pos, dst, scrReg, s => by
    simp only [compileArms, lostArms, IRPattern.bindings]
    have harm := ((Scopes.insertLocal s name scrReg).append
      (compileNode_scopes body pos dst _)).remove
        (fun x hx => (by simpa using hx : x ∈ [name]))
    refine (harm.append (compileArms_scopes arms pos dst scrReg _)).congr fun x _ => ?_
    simp only [List.nil_append, List.mem_append]
    tauto
  | ⟨.lit val, body⟩ :: arms, pos, dst, scrReg, s => by
    simp only [compileArms, lostArms, IRPattern.bindings, List.nil_append]
    exact (((compileNode_scopes body pos dst _).from_eq (by simp [Compiler.freeRegTo,
      Compiler.allocReg])).append (compileArms_scopes arms pos dst scrReg _)).keep rfl
  | ⟨.variant tag subPats, body⟩ :: arms, pos, dst, scrReg, s => by
    simp only [compileArms, lostArms, IRPattern.bindings]
    have hfields := (bindFields_scopes subPats (s.addConstant (.str tag)).nextReg
      (s.addConstant (.str tag)).allocReg).from_eq (s.addConstant_locals _)
    have hbody := (hfields.append (compileNode_scopes body pos dst _)).remove
      (fun x hx => (by simpa using hx : x ∈ IRPattern.bindingsList subPats))
    refine (((hbody.free _).append (compileArms_scopes arms pos dst scrReg _)).keep rfl).congr
      fun x _ => ?_
    simp only [List.nil_append, List.mem_append]
    tauto

end

/-- What an expression leaves of the map: the outer meaning of every name that it does not
rebind, and of no other. The whole map is left exactly if no rebound name was in it. -/
theorem compileNode_scope_iff (node : IRNode) (pos : Position) (dst : Nat) (s : Compiler) :
    ((compileNode node pos dst s).state.locals = s.locals ↔ ∀ x ∈ lost node, s.locals x = none) ∧
      ∀ x r, s.locals x = some r →
        ((compileNode node pos dst s).state.locals x = some r ↔ x ∉ lost node) := by
  have hscopes : ∀ x, (compileNode node pos dst s).state.locals x =
      if x ∈ lost node then none else s.locals x := fun x =>
    compileNode_scopes node pos dst s x (by simp)
  refine ⟨⟨fun h x hx => ?_, fun h => funext fun x => ?_⟩, fun x r hr => ?_⟩
  · rw [← h, hscopes x, if_pos hx]
  · rw [hscopes x]
    split
    · next hx => exact (h x hx).symm
    · rfl
  · rw [hscopes x]
    by_cases hx : x ∈ lost node
    · simp [hx]
    · simp [hx, hr]

/-- `(let (x 2) x)` inside `(let (x 1) ..)`: afterwards `x` has no register. -/
theorem not_scope_restored : ¬ ∀ (node : IRNode) (pos : Position) (dst : Nat) (s : Compiler),
    (compileNode node pos dst s).state.locals = s.locals := by
  intro h
  have hx := (compileNode_scope_iff (.let [⟨"x", .int 2⟩] (.load "x")) .value 2
    (({} : Compiler).allocReg.insertLocal "x" 0)).1.mp (h _ _ _ _) "x"
      (by simp [lost, lostBindings])
  cases hx

end Airl
