import Airl.Bytecode.CompilerSpec

/-! # The jumps that the compiler patches

For every statement of the source that patches a jump, its position and the
position that the compiler measured, both counted from the start of the code
that the node emits.
-/

namespace Airl

/-- `self.instructions[site] = (target as i16 - site as i16 - 1) as u16`. -/
structure Patch where
  site : Nat
  target : Nat
  deriving Repr, DecidableEq

/-- The number of instructions between the jump and its target. -/
def Patch.distance (p : Patch) : Nat := p.target - (p.site + 1)

/-- The jumps of a block that starts `count` instructions later. -/
def shiftPatches (count : Nat) (ps : List Patch) : List Patch :=
  ps.map fun p => ⟨p.site + count, p.target + count⟩

mutual

/-- The jumps that `compileNode` patches. A lambda body has an instruction vector of its own. -/
def nodePatches : IRNode → Position → Nat → Compiler → List Patch
  | .int _, _, _, _ | .float _, _, _, _ | .str _, _, _, _ | .bool _, _, _, _ | .nil, _, _, _
  | .load _, _, _, _ | .lambda _ _, _, _, _ | .func _ _ _, _, _, _ => []
  | .do [], _, _, _ | .variant _ [], _, _, _ => []
  | .do (expr :: exprs), pos, dst, s => doPatches (expr :: exprs) pos dst s
  | .list items, _, _, s => argsPatches items s
  | .ite cond then_ else_, pos, dst, s =>
    let condReg := s.nextReg
    let c := compileNode cond .value condReg s.allocReg
    let sThen := c.state.freeRegTo (max condReg (dst + 1))
    let t := compileNode then_ pos dst sThen
    let e := compileNode else_ pos dst t.state
    let jumpToElse := c.code.length
    let jumpToEnd := jumpToElse + 1 + t.code.length
    let elseStart := jumpToEnd + 1
    nodePatches cond .value condReg s.allocReg ++
      ⟨jumpToElse, elseStart⟩ :: shiftPatches (jumpToElse + 1) (nodePatches then_ pos dst sThen) ++
      ⟨jumpToEnd, elseStart + e.code.length⟩ ::
        shiftPatches elseStart (nodePatches else_ pos dst t.state)
  | .let bindings body, pos, dst, s =>
    let bound := compileBindings bindings (s.raiseAbove pos dst)
    bindingsPatches bindings (s.raiseAbove pos dst) ++
      shiftPatches bound.code.length (nodePatches body pos dst bound.state)
  | .call _ args, _, _, s => argsPatches args s
  | .callExpr callee args, _, _, s =>
    let c := compileNode callee .value s.nextReg s.allocReg
    nodePatches callee .value s.nextReg s.allocReg ++
      shiftPatches c.code.length (argsPatches args c.state)
  | .variant tag [arg], _, _, s =>
    let s := s.addConstant (.str tag)
    nodePatches arg .value s.nextReg s.allocReg
  | .variant tag (arg :: arg' :: args), _, _, s =>
    argsPatches (arg :: arg' :: args) (s.addConstant (.str tag))
  | .match scrutinee arms, pos, dst, s =>
    let scr := compileNode scrutinee .value s.nextReg s.allocReg
    nodePatches scrutinee .value s.nextReg s.allocReg ++
      shiftPatches scr.code.length (armsPatches arms pos dst s.nextReg scr.state)
  | .try expr, _, _, s => nodePatches expr .value s.nextReg s.allocReg

def argsPatches : List IRNode → Compiler → List Patch
  | [], _ => []
  | arg :: args, s =>
    let a := compileNode arg .value s.nextReg s.allocReg
    nodePatches arg .value s.nextReg s.allocReg ++
      shiftPatches a.code.length (argsPatches args a.state)

def doPatches : List IRNode → Position → Nat → Compiler → List Patch
  | [], _, _, _ => []
  | [expr], pos, dst, s => nodePatches expr pos dst s
  | expr :: exprs, pos, dst, s =>
    let e := compileNode expr .value s.nextReg s.allocReg
    nodePatches expr .value s.nextReg s.allocReg ++
      shiftPatches e.code.length (doPatches exprs pos dst e.state)

def bindingsPatches : List IRBinding → Compiler → List Patch
  | [], _ => []
  | ⟨name, expr⟩ :: bindings, s =>
    let e := compileNode expr .value s.nextReg s.allocReg
    nodePatches expr .value s.nextReg s.allocReg ++
      shiftPatches e.code.length (bindingsPatches bindings (e.state.insertLocal name s.nextReg))

/-- The last jump of an arm goes behind the last arm. -/
def armsPatches : List IRArm → Position → Nat → Nat → Compiler → List Patch
  | [], _, _, _, _ => []
  | ⟨.wild, body⟩ :: arms, pos, dst, scrReg, s =>
    let b := compileNode body pos dst s
    shiftPatches 1 (nodePatches body pos dst s) ++
      shiftPatches (1 + b.code.length) (armsPatches arms pos dst scrReg b.state)
  | ⟨.bind name, body⟩ :: arms, pos, dst, scrReg, s =>
    let b := compileNode body pos dst (s.insertLocal name scrReg)
    nodePatches body pos dst (s.insertLocal name scrReg) ++
      shiftPatches b.code.length (armsPatches arms pos dst scrReg (b.state.removeLocals [name]))
  | ⟨.lit val, body⟩ :: arms, pos, dst, scrReg, s =>
    let valReg := s.nextReg
    let s := (s.allocReg.addConstant val).freeRegTo (max valReg (dst + 1))
    let b := compileNode body pos dst s
    let rest := compileArms arms pos dst scrReg b.state
    let skip := 2
    let endJump := skip + 1 + b.code.length
    let here := endJump + 1
    ⟨skip, here⟩ :: shiftPatches (skip + 1) (nodePatches body pos dst s) ++
      ⟨endJump, here + rest.code.length⟩ ::
        shiftPatches here (armsPatches arms pos dst scrReg b.state)
  | ⟨.variant tag subPats, body⟩ :: arms, pos, dst, scrReg, s =>
    let s := s.addConstant (.str tag)
    let innerReg := s.nextReg
    let fields := bindFields subPats innerReg s.allocReg
    let b := compileNode body pos dst fields.state
    let s := (b.state.removeLocals (IRPattern.bindingsList subPats)).freeRegTo
      (max innerReg (dst + 1))
    let rest := compileArms arms pos dst scrReg s
    let skip := 1
    let bodyStart := skip + 1 + fields.code.length
    let endJump := bodyStart + b.code.length
    let here := endJump + 1
    ⟨skip, here⟩ :: shiftPatches bodyStart (nodePatches body pos dst fields.state) ++
      ⟨endJump, here + rest.code.length⟩ ::
        shiftPatches here (armsPatches arms pos dst scrReg s)

end

/-- The opcodes that move the instruction pointer by an operand. -/
def Op.isJump : Op → Bool
  | .jump | .jumpIfFalse | .jumpIfTrue | .jumpIfNoMatch => true
  | _ => false

/-- The operand that holds the distance of a jump. -/
def Instruction.jumpOperand (instr : Instruction) : Nat :=
  match instr.op with
  | .jumpIfFalse | .jumpIfTrue => instr.b
  | _ => instr.a

/-- Code before a jump does not change its distance. -/
theorem shift_distance (p : Patch) (count : Nat) :
    (Patch.mk (p.site + count) (p.target + count)).distance = p.distance := by
  simp only [Patch.distance]
  omega

theorem shiftPatches_append (count : Nat) (ps ps' : List Patch) :
    shiftPatches count (ps ++ ps') = shiftPatches count ps ++ shiftPatches count ps' :=
  List.map_append

theorem shiftPatches_cons (count : Nat) (p : Patch) (ps : List Patch) :
    shiftPatches count (p :: ps) = ⟨p.site + count, p.target + count⟩ :: shiftPatches count ps :=
  rfl

/-- Shifts add up. -/
theorem shiftPatches_shiftPatches (count count' : Nat) (ps : List Patch) :
    shiftPatches count (shiftPatches count' ps) = shiftPatches (count' + count) ps := by
  simp [shiftPatches, Nat.add_assoc]

/-- Code without jumps. -/
def JumpFree (code : List Instruction) : Prop := ∀ instr ∈ code, instr.op.isJump = false

@[simp] theorem jumpFree_nil : JumpFree [] := fun _ h => nomatch h

@[simp] theorem jumpFree_cons {instr : Instruction} {code : List Instruction} :
    JumpFree (instr :: code) ↔ instr.op.isJump = false ∧ JumpFree code :=
  List.forall_mem_cons

@[simp] theorem jumpFree_append {code code' : List Instruction} :
    JumpFree (code ++ code') ↔ JumpFree code ∧ JumpFree code' :=
  List.forall_mem_append

/-- The jumps of the code are exactly those in the list, each patched with its distance. -/
structure Patched (code : List Instruction) (ps : List Patch) : Prop where
  patched : ∀ p ∈ ps, p.site < p.target ∧ p.target ≤ code.length ∧
    ∃ instr, code[p.site]? = some instr ∧ instr.op.isJump = true ∧
      instr.jumpOperand = toU16 p.distance
  complete : ∀ i instr, code[i]? = some instr → instr.op.isJump = true → ∃ p ∈ ps, p.site = i

namespace Patched

variable {code code' : List Instruction} {ps ps' : List Patch}

/-- Code without jumps has nothing to patch. -/
theorem plain (h : JumpFree code) : Patched code [] where
  patched p hp := nomatch hp
  complete i instr hi hjump := by
    rw [h instr (List.mem_of_getElem? hi)] at hjump
    exact nomatch hjump

/-- The patches of the second part are shifted by the first. -/
theorem append (h : Patched code ps) (h' : Patched code' ps') :
    Patched (code ++ code') (ps ++ shiftPatches code.length ps') where
  patched p hp := by
    rcases List.mem_append.mp hp with hp | hp
    · obtain ⟨hlt, hle, instr, hinstr, hop⟩ := h.patched p hp
      refine ⟨hlt, by rw [List.length_append]; omega, instr, ?_, hop⟩
      rw [List.getElem?_append_left (by omega)]
      exact hinstr
    · obtain ⟨q, hq, rfl⟩ := List.mem_map.mp hp
      obtain ⟨hlt, hle, instr, hinstr, hjump, hoperand⟩ := h'.patched q hq
      refine ⟨by dsimp only; omega, by rw [List.length_append]; dsimp only; omega, instr, ?_, hjump,
        by rw [hoperand, shift_distance]⟩
      rw [List.getElem?_append_right (by dsimp only; omega)]
      simpa using hinstr
  complete i instr hi hjump := by
    by_cases hlt : i < code.length
    · rw [List.getElem?_append_left hlt] at hi
      obtain ⟨p, hp, hsite⟩ := h.complete i instr hi hjump
      exact ⟨p, List.mem_append_left _ hp, hsite⟩
    · rw [List.getElem?_append_right (Nat.not_lt.mp hlt)] at hi
      obtain ⟨p, hp, hsite⟩ := h'.complete _ instr hi hjump
      exact ⟨⟨p.site + code.length, p.target + code.length⟩,
        List.mem_append_right _ (List.mem_map_of_mem hp), by dsimp only; omega⟩

/-- A jump over the code behind it. -/
theorem jump {instr : Instruction} {distance : Nat} (h : Patched code ps)
    (hop : instr.op.isJump = true) (hoperand : instr.jumpOperand = toU16 distance)
    (hle : distance ≤ code.length) :
    Patched (instr :: code) (⟨0, distance + 1⟩ :: shiftPatches 1 ps) where
  patched p hp := by
    rcases List.mem_cons.mp hp with rfl | hp
    · refine ⟨Nat.succ_pos _, Nat.succ_le_succ hle, instr, rfl, hop, ?_⟩
      rw [hoperand]
      rfl
    · obtain ⟨q, hq, rfl⟩ := List.mem_map.mp hp
      obtain ⟨hlt, hle, instr', hinstr, hjump, hoperand⟩ := h.patched q hq
      exact ⟨Nat.succ_lt_succ hlt, Nat.succ_le_succ hle, instr', hinstr, hjump,
        by rw [hoperand, shift_distance]⟩
  complete i instr' hi hjump := by
    cases i with
    | zero => exact ⟨_, List.mem_cons_self, rfl⟩
    | succ i =>
      obtain ⟨p, hp, hsite⟩ := h.complete i instr' hi hjump
      exact ⟨⟨p.site + 1, p.target + 1⟩, List.mem_cons_of_mem _ (List.mem_map_of_mem hp),
        congrArg (· + 1) hsite⟩

/-- More code without jumps behind it. -/
theorem emit (h : Patched code ps) (h' : JumpFree code') :
    Patched (code ++ code') ps := by
  have happend := h.append (.plain h')
  rwa [show shiftPatches code.length [] = [] from rfl, List.append_nil] at happend

/-- More code without jumps before it. -/
theorem after (h : Patched code ps) (h' : JumpFree code') :
    Patched (code' ++ code) (shiftPatches code'.length ps) :=
  (plain h').append h

end Patched

theorem extractField_jumpFree (s : Compiler) (i innerReg : Nat) :
    JumpFree (extractField s i innerReg).code := by
  simp [extractField, Op.isJump]

mutual

/-- Patterns jump nowhere: the jump stands behind them. -/
theorem bindPattern_jumpFree : ∀ (pat : IRPattern) (valueReg : Nat) (s : Compiler),
    JumpFree (bindPattern pat valueReg s).code
  | .bind _, _, _ | .wild, _, _ | .lit _, _, _ => by simp [bindPattern]
  | .variant tag subPats, valueReg, s => by
    simp only [bindPattern, jumpFree_cons]
    exact ⟨rfl, bindFields_jumpFree subPats _ _⟩

theorem bindFields_jumpFree : ∀ (pats : List IRPattern) (innerReg : Nat) (s : Compiler),
    JumpFree (bindFields pats innerReg s).code
  | [], _, _ => by simp [bindFields]
  | [pat], innerReg, s => by
    simp only [bindFields]
    exact bindPattern_jumpFree pat innerReg s
  | pat :: pat' :: pats, innerReg, s => by
    simp only [bindFields, jumpFree_append]
    exact ⟨bindField_jumpFree pat _ _ _, bindMultiField_jumpFree (pat' :: pats) _ _ _⟩

theorem bindMultiField_jumpFree : ∀ (pats : List IRPattern) (i innerReg : Nat) (s : Compiler),
    JumpFree (bindMultiField pats i innerReg s).code
  | [], _, _, _ => by simp [bindMultiField]
  | pat :: pats, i, innerReg, s => by
    simp only [bindMultiField, jumpFree_append]
    exact ⟨bindField_jumpFree pat _ _ _, bindMultiField_jumpFree pats _ _ _⟩

theorem bindField_jumpFree : ∀ (pat : IRPattern) (i innerReg : Nat) (s : Compiler),
    JumpFree (bindField pat i innerReg s).code
  | .bind _, i, innerReg, s => by
    simp only [bindField]
    exact extractField_jumpFree s i innerReg
  | .wild, _, _, _ | .lit _, _, _, _ => by simp [bindField]
  | .variant tag nested, i, innerReg, s => by
    simp only [bindField, jumpFree_append, jumpFree_cons]
    exact ⟨extractField_jumpFree s i innerReg, rfl, bindFields_jumpFree nested _ _⟩

end

theorem moveToSlots_jumpFree (slot : Nat) (tmps : List Nat) :
    JumpFree (moveToSlots slot tmps) := by
  induction tmps generalizing slot with
  | nil => exact jumpFree_nil
  | cons tmp tmps ih =>
    simp only [moveToSlots, jumpFree_append]
    refine ⟨?_, ih (slot + 1)⟩
    split <;> simp [Op.isJump]

theorem moveCaptures_jumpFree (captures : List (String × Nat)) (r : Nat) :
    JumpFree (moveCaptures captures r) := by
  induction captures generalizing r with
  | nil => exact jumpFree_nil
  | cons capture captures ih => exact jumpFree_cons.mpr ⟨rfl, ih (r + 1)⟩

theorem conflictChecks_jumpFree (args : List IRNode) (regs : List Nat) (s : Compiler) :
    JumpFree (conflictChecks args regs s).code := by
  induction regs generalizing s with
  | nil => exact jumpFree_nil
  | cons reg regs ih => exact jumpFree_cons.mpr ⟨rfl, jumpFree_cons.mpr ⟨rfl, ih _⟩⟩

theorem ownChecks_jumpFree (flags : List Bool) (sources : List (Option Nat)) (args : List IRNode)
    (s : Compiler) : JumpFree (ownChecks flags sources args s).code := by
  fun_induction ownChecks flags sources args s with
  | case1 flags reg sources arg args s name idx rest ih => exact jumpFree_cons.mpr ⟨rfl, ih⟩
  | case2 flag flags source sources arg args s _ ih => exact ih
  | case3 => exact jumpFree_nil

theorem ownershipChecks_jumpFree (flags : List Bool) (sources : List (Option Nat))
    (args : List IRNode) (s : Compiler) : JumpFree (ownershipChecks flags sources args s).code := by
  unfold ownershipChecks
  dsimp only
  split
  · exact ownChecks_jumpFree flags sources args s
  · exact conflictChecks_jumpFree args _ s

theorem ownershipMarks_jumpFree (flags : List Bool) (sources : List (Option Nat)) (s : Compiler) :
    JumpFree (ownershipMarks flags sources s).code := by
  intro instr hinstr
  obtain ⟨reg, -, rfl⟩ := List.mem_map.mp hinstr
  rfl

theorem saveCallee_jumpFree (callee : Option Nat) (dst count : Nat) (s : Compiler) :
    JumpFree (saveCallee callee dst count s).code := by
  unfold saveCallee
  split
  · split <;> simp [Op.isJump]
  · exact jumpFree_nil

theorem emitCall_jumpFree (name : String) (callee : Option Nat) (safe dst count : Nat)
    (s : Compiler) : JumpFree (emitCall name callee safe dst count s).code := by
  unfold emitCall
  split <;> simp [Op.isJump]

/-- Behind its arguments a call jumps nowhere. -/
theorem finishCall_code (name : String) (args : List IRNode) (dst : Nat) (s : Compiler)
    (all : EmittedArgs) :
    ∃ code, (finishCall name args dst s all).code = all.code ++ code ∧ JumpFree code := by
  unfold finishCall
  split
  next op aReg bReg hop _ =>
    refine ⟨_, rfl, jumpFree_cons.mpr ⟨?_, jumpFree_nil⟩⟩
    unfold directOp at hop
    split at hop <;> cases hop <;> rfl
  next => exact ⟨_, rfl, by simp [Op.isJump]⟩
  next =>
    refine ⟨_, by simp only [generalCall, List.append_assoc]; rfl, ?_⟩
    simp only [jumpFree_append]
    refine ⟨saveCallee_jumpFree _ _ _ _, moveToSlots_jumpFree _ _, ?_,
      emitCall_jumpFree _ _ _ _ _ _, ?_⟩
    · split
      · exact ownershipChecks_jumpFree _ _ _ _
      · exact jumpFree_nil
    · split
      · exact ownershipMarks_jumpFree _ _ _
      · exact jumpFree_nil

/-- A conditional: the test, a jump over the block and its end jump, the block, a jump over the
rest, the rest. -/
theorem Patched.branch {test block rest : List Instruction} {psTest psBlock psRest : List Patch}
    {skip endJump : Instruction} (htest : Patched test psTest) (hblock : Patched block psBlock)
    (hrest : Patched rest psRest) (hskip : skip.op.isJump = true)
    (hskipOperand : skip.jumpOperand = toU16 (block.length + 1 : Nat))
    (hendJump : endJump.op.isJump = true) (hendOperand : endJump.jumpOperand = toU16 rest.length) :
    Patched (test ++ skip :: block ++ endJump :: rest)
      (psTest ++ ⟨test.length, test.length + 1 + block.length + 1⟩ ::
        shiftPatches (test.length + 1) psBlock ++
        ⟨test.length + 1 + block.length, test.length + 1 + block.length + 1 + rest.length⟩ ::
          shiftPatches (test.length + 1 + block.length + 1) psRest) := by
  have hend := hrest.jump hendJump hendOperand (Nat.le_refl _)
  have hboth := (hblock.append hend).jump hskip hskipOperand (by simp)
  have hall := htest.append hboth
  simpa [shiftPatches_cons, shiftPatches_append, shiftPatches_shiftPatches, Nat.add_assoc,
    Nat.add_comm, Nat.add_left_comm] using hall

mutual

/-- The jumps of compiled code are those of the source, by induction on the node. -/
theorem compileNode_patched : ∀ (node : IRNode) (pos : Position) (dst : Nat) (s : Compiler),
    Patched (compileNode node pos dst s).code (nodePatches node pos dst s)
  | .int _, _, _, _ | .float _, _, _, _ | .str _, _, _, _ | .bool true, _, _, _
  | .bool false, _, _, _ | .nil, _, _, _ | .func _ _ _, _, _, _ | .do [], _, _, _
  | .variant _ [], _, _, _ =>
    .plain (by simp [compileNode, Compiler.loadConstant, Op.isJump])
  | .load name, _, dst, s => by
    simp only [compileNode, nodePatches]
    apply Patched.plain
    split
    next slot _ => by_cases hslot : slot = dst <;> split <;> simp [hslot, Op.isJump]
    next => simp [Compiler.loadConstant, Op.isJump]
  | .do (expr :: exprs), pos, dst, s => by
    simp only [compileNode, nodePatches]
    exact compileDo_patched (expr :: exprs) pos dst s
  | .list items, pos, dst, s => by
    simp only [compileNode, nodePatches]
    exact (compileArgs_patched items s).emit (by simp [Op.isJump])
  | .ite cond then_ else_, pos, dst, s => by
    simp only [compileNode, nodePatches]
    exact (compileNode_patched cond _ _ _).branch (compileNode_patched then_ _ _ _)
      (compileNode_patched else_ _ _ _) rfl rfl rfl rfl
  | .let bindings body, pos, dst, s => by
    simp only [compileNode, nodePatches]
    exact (compileBindings_patched bindings _).append (compileNode_patched body _ _ _)
  | .call name args, .value, dst, s => by
    simp only [compileNode, nodePatches]
    obtain ⟨code, hcode, hfree⟩ := finishCall_code name args dst s (compileArgs args s)
    rw [hcode]
    exact (compileArgs_patched args s).emit hfree
  | .call name args, .tail fnName, dst, s => by
    simp only [compileNode, nodePatches]
    split
    · simp only [finishTailCall, List.append_assoc]
      refine (compileArgs_patched args s).emit ?_
      simp [moveToSlots_jumpFree, Op.isJump]
    · obtain ⟨code, hcode, hfree⟩ := finishCall_code name args dst s (compileArgs args s)
      rw [hcode]
      exact (compileArgs_patched args s).emit hfree
  | .callExpr callee args, pos, dst, s => by
    simp only [compileNode, nodePatches, List.append_assoc]
    rw [← List.append_assoc]
    refine ((compileNode_patched callee _ _ _).append (compileArgs_patched args _)).emit ?_
    simp [moveToSlots_jumpFree, Op.isJump]
  | .variant tag [arg], pos, dst, s => by
    simp only [compileNode, nodePatches]
    exact (compileNode_patched arg _ _ _).emit (by simp [Op.isJump])
  | .variant tag (arg :: arg' :: args), pos, dst, s => by
    simp only [compileNode, nodePatches]
    exact (compileArgs_patched (arg :: arg' :: args) _).emit (by simp [Op.isJump])
  | .lambda params body, pos, dst, s => by
    simp only [compileNode, nodePatches, makeClosure]
    apply Patched.plain
    simp [moveCaptures_jumpFree, Op.isJump]
  | .match scrutinee arms, pos, dst, s => by
    simp only [compileNode, nodePatches]
    exact (compileNode_patched scrutinee _ _ _).append (compileArms_patched arms _ _ _ _)
  | .try expr, pos, dst, s => by
    simp only [compileNode, nodePatches]
    exact (compileNode_patched expr _ _ _).emit (by simp [Op.isJump])

theorem compileArgs_patched : ∀ (args : List IRNode) (s : Compiler),
    Patched (compileArgs args s).code (argsPatches args s)
  | [], _ => .plain (by simp [compileArgs])
  | arg :: args, s => by
    simp only [compileArgs, argsPatches]
    exact (compileNode_patched arg _ _ _).append (compileArgs_patched args _)

theorem compileDo_patched : ∀ (exprs : List IRNode) (pos : Position) (dst : Nat) (s : Compiler),
    Patched (compileDo exprs pos dst s).code (doPatches exprs pos dst s)
  | [], _, _, _ => .plain (by simp [compileDo])
  | [expr], pos, dst, s => by
    simp only [compileDo, doPatches]
    exact compileNode_patched expr pos dst s
  | expr :: expr' :: exprs, pos, dst, s => by
    simp only [compileDo, doPatches]
    exact (compileNode_patched expr _ _ _).append (compileDo_patched (expr' :: exprs) _ _ _)

/-- Bindings jump where their expressions do. -/
theorem compileBindings_patched : ∀ (bindings : List IRBinding) (s : Compiler),
    Patched (compileBindings bindings s).code (bindingsPatches bindings s)
  | [], _ => .plain (by simp [compileBindings])
  | ⟨name, expr⟩ :: bindings, s => by
    simp only [compileBindings, bindingsPatches]
    exact (compileNode_patched expr _ _ _).append (compileBindings_patched bindings _)

/-- Each arm jumps to the next one and to the end of the match. -/
theorem compileArms_patched : ∀ (arms : List IRArm) (pos : Position) (dst scrReg : Nat)
    (s : Compiler),
      Patched (compileArms arms pos dst scrReg s).code (armsPatches arms pos dst scrReg s)
  | [], _, _, _, _ => .plain (by simp [compileArms])
  | ⟨.wild, body⟩ :: arms, pos, dst, scrReg, s => by
    simp only [compileArms, armsPatches]
    have hbody := (compileNode_patched body pos dst s).after
      (show JumpFree [⟨.matchWild, dst, scrReg, 0⟩] by simp [Op.isJump])
    have harms := hbody.append (compileArms_patched arms pos dst scrReg
      (compileNode body pos dst s).state)
    rwa [List.length_append, List.length_singleton] at harms
  | ⟨.bind name, body⟩ :: arms, pos, dst, scrReg, s => by
    simp only [compileArms, armsPatches]
    exact (compileNode_patched body _ _ _).append (compileArms_patched arms _ _ _ _)
  | ⟨.lit val, body⟩ :: arms, pos, dst, scrReg, s => by
    simp only [compileArms, armsPatches]
    have htest : Patched [⟨.loadConst, s.nextReg, s.allocReg.constantIndex val, 0⟩,
        ⟨.eq, s.nextReg, scrReg, s.nextReg⟩] [] := .plain (by simp [Op.isJump])
    exact htest.branch (compileNode_patched body pos dst _)
      (compileArms_patched arms pos dst scrReg _) rfl rfl rfl rfl
  | ⟨.variant tag subPats, body⟩ :: arms, pos, dst, scrReg, s => by
    simp only [compileArms, armsPatches]
    have htest : Patched [⟨.matchTag, (s.addConstant (.str tag)).nextReg, scrReg,
        s.constantIndex (.str tag)⟩] [] := .plain (by simp [Op.isJump])
    have hfields := bindFields_jumpFree subPats (s.addConstant (.str tag)).nextReg
      (s.addConstant (.str tag)).allocReg
    generalize bindFields subPats _ _ = fields at hfields ⊢
    have hbody := (compileNode_patched body pos dst fields.state).after hfields
    generalize compileNode body pos dst fields.state = b at hbody ⊢
    have harms := compileArms_patched arms pos dst scrReg
      ((b.state.removeLocals (IRPattern.bindingsList subPats)).freeRegTo
        (max (s.addConstant (.str tag)).nextReg (dst + 1)))
    generalize compileArms arms pos dst scrReg _ = rest at harms ⊢
    have hskip : Op.isJump (Instruction.mk .jumpIfNoMatch 0
        (toU16 ((fields.code ++ b.code).length + 1 : Nat)) 0).op = true := rfl
    have hend : Op.isJump (Instruction.mk .jump 0 (toU16 rest.code.length) 0).op = true := rfl
    rw [show (fields.code.length + b.code.length + 1 : Int) =
      ((fields.code ++ b.code).length + 1 : Nat) by simp]
    convert htest.branch hbody harms hskip rfl hend rfl using 1
    · simp
    · simp [shiftPatches_shiftPatches, Nat.add_assoc, Nat.add_comm, Nat.add_left_comm]

end

end Airl
