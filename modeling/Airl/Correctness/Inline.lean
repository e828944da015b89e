import Airl.Correctness.Activations

/-! # Inline evaluation

A small closure does not get a frame: the machine evaluates it with registers of
its own. Where the operators agree the outcome is that of the frame it would
have got.
-/

namespace Airl

open Transition (Host Outcome)

variable {World : Type} {P : RefProgram World} {m : Machine World}

/-! ## Which closures are evaluated inline -/

/-- Only instructions that the inline evaluator knows. -/
def Simple (code : List Instruction) : Prop := ∀ instr ∈ code, isSimpleOp instr.op = true

namespace Simple

variable {code code' : List Instruction} {instr : Instruction}

theorem left (h : Simple (code ++ code')) : Simple code := fun instr hinstr =>
  h instr (List.mem_append_left _ hinstr)

theorem right (h : Simple (code ++ code')) : Simple code' := fun instr hinstr =>
  h instr (List.mem_append_right _ hinstr)

theorem tail (h : Simple (instr :: code)) : Simple code := fun instr hinstr =>
  h instr (List.mem_cons_of_mem _ hinstr)

theorem head (h : Simple (instr :: code)) : isSimpleOp instr.op = true := h instr List.mem_cons_self

end Simple

/-- A size that is computed and does not exceed a number of instructions. -/
def SizeAtMost (size : Option Nat) (count : Nat) : Prop := ∃ n, size = some n ∧ n ≤ count

/-- Sizes of parts add up. -/
theorem SizeAtMost.add {size size' : Option Nat} {count count' : Nat} (h : SizeAtMost size count)
    (h' : SizeAtMost size' count') :
    SizeAtMost (do return (← size) + (← size')) (count + count') := by
  obtain ⟨n, rfl, hn⟩ := h
  obtain ⟨n', rfl, hn'⟩ := h'
  exact ⟨n + n', rfl, Nat.add_le_add hn hn'⟩

/-- A general call cannot be run inline. -/
theorem generalCall_not_simple {name : String} {args : List IRNode} {dst : Nat} {s : Compiler}
    {all : EmittedArgs} (hs : Ready s) : ¬ Simple (generalCall name args dst s all).code := by
  intro h
  simp only [generalCall, hs.noOwnership, List.append_nil] at h
  have hcall := h.right
  unfold emitCall at hcall
  split at hcall <;> simpa [isSimpleOp] using hcall.head

/-- A call that can be run inline has the size of its arguments and one more. -/
theorem finishCall_size {name : String} {args : List IRNode} {dst : Nat} {s : Compiler}
    {all : EmittedArgs} (hs : Ready s) (hall : ArgsSpec args s all)
    (h : Simple (finishCall name args dst s all).code) :
    (finishCall name args dst s all).code.length = all.code.length + 1 ∧
      (((directOp name).isSome && args.length == 2) || (name == "not" && args.length == 1)) =
        true := by
  have hlength := hall.length
  unfold finishCall at h ⊢
  split at h
  · next op a b hop hregs =>
      rw [hregs] at hlength
      simp only [hop]
      exact ⟨by simp, by simp [← hlength]⟩
  · next a hop hregs =>
      rw [hregs] at hlength
      have hnot : name = "not" := by
        unfold directOp at hop
        split at hop <;> first | rfl | simp at hop
      simp only [hop]
      exact ⟨by simp, by simp [hnot, ← hlength]⟩
  · exact absurd h (generalCall_not_simple hs)

/-- Bindings keep off a register that no name has. -/
theorem compileBindings_apart (bindings : List IRBinding) {s : Compiler} {dst : Nat} (hs : Ready s)
    (hdst : dst < s.nextReg) (hapart : ∀ x, s.locals x ≠ some dst) (x : String) :
    (compileBindings bindings s).state.locals x ≠ some dst := by
  induction bindings generalizing s with
  | nil => exact hapart x
  | cons b bindings ih =>
    obtain ⟨name, expr⟩ := b
    simp only [compileBindings]
    have he := (compileNode_spec expr .value ((Spec.alloc s).ready hs).toTidy
      (Nat.lt_succ_self s.nextReg)).temp
    have hnext := he.nextReg
    have hname := Spec.insertLocal (he.ready hs).toTidy name (r := s.nextReg) (by omega)
    have hnextName := hname.nextReg
    exact ih (hname.ready (he.ready hs)) (by omega)
      (Compiler.insertLocal_apart (he.apart hapart) (by omega) name)

mutual

/-- A node whose code is simple has a size, and it bounds the code. -/
theorem inlineSize_of_simple : ∀ (node : IRNode) (pos : Position) {dst : Nat}
    {s : Compiler}, Ready s →
    dst < s.nextReg → (∀ x, s.locals x ≠ some dst) → Simple (compileNode node pos dst s).code →
    SizeAtMost (inlineSize node) (compileNode node pos dst s).code.length
  | .int _, _, _, _, _, _, _, _ => ⟨1, rfl, by simp [compileNode, Compiler.loadConstant]⟩
  | .float _, _, _, _, _, _, _, _ => ⟨1, rfl, by simp [compileNode, Compiler.loadConstant]⟩
  | .str _, _, _, _, _, _, _, _ => ⟨1, rfl, by simp [compileNode, Compiler.loadConstant]⟩
  | .bool true, _, _, _, _, _, _, _ => ⟨1, rfl, by simp [compileNode]⟩
  | .bool false, _, _, _, _, _, _, _ => ⟨1, rfl, by simp [compileNode]⟩
  | .nil, _, _, _, _, _, _, _ => ⟨1, rfl, by simp [compileNode]⟩
  | .func _ _ _, _, _, _, _, _, _, _ => ⟨1, rfl, by simp [compileNode]⟩
  | .do [], _, _, _, _, _, _, _ => ⟨1, rfl, by simp [compileNode]⟩
  | .load name, pos, dst, s, hs, hdst, hapart, h => by
    refine ⟨1, rfl, ?_⟩
    simp only [compileNode]
    cases hlocal : s.locals name with
    | none => simp [Compiler.loadConstant]
    | some slot =>
      have hne : slot ≠ dst := fun heq => hapart name (heq ▸ hlocal)
      simp [hs.noMoved, hne]
  | .do (expr :: exprs), pos, dst, s, hs, hdst, hapart, h => by
    simp only [compileNode, inlineSize] at h ⊢
    exact inlineSizeDo_of_simple (expr :: exprs) pos hs hdst hapart h
  | .list items, pos, dst, s, hs, hdst, hapart, h => by
    simp only [compileNode, inlineSize] at h ⊢
    obtain ⟨n, hn, hle⟩ := inlineSizeList_of_simple items hs h.left
    exact ⟨n + 1, by simp [hn], by simpa using hle⟩
  | .let bindings body, pos, dst, s, hs, hdst, hapart, h => by
    simp only [compileNode, inlineSize, raiseAbove_eq pos hdst] at h ⊢
    have hb := compileBindings_spec bindings hs.toTidy
    have hnext := hb.nextReg
    rw [List.length_append]
    exact (inlineSizeBindings_of_simple bindings hs h.left).add
      (inlineSize_of_simple body pos (hb.ready hs) (by omega)
        (compileBindings_apart bindings hs hdst hapart) h.right)
  | .call name args, pos, dst, s, hs, hdst, hapart, h => by
    have hall := compileArgs_spec args hs.toTidy
    by_cases htail : pos = .tail name
    · subst htail
      simp only [compileNode, if_true, finishTailCall] at h
      simpa [isSimpleOp] using h.right.head
    · have hcompile : compileNode (.call name args) pos dst s =
          finishCall name args dst s (compileArgs args s) := by
        cases pos with
        | value => simp only [compileNode]
        | tail fnName =>
          simp only [compileNode]
          exact if_neg fun heq => htail (by rw [heq])
      rw [hcompile] at h ⊢
      obtain ⟨hlength, hoperator⟩ := finishCall_size hs hall h
      rw [hlength, inlineSize, if_pos hoperator]
      obtain ⟨rest, hrest⟩ := (finishCall_rest name hs.toTidy hdst hall).args_initial
      rw [← hrest] at h
      obtain ⟨n, hn, hle⟩ := inlineSizeList_of_simple args hs h.left
      exact ⟨n + 1, by simp [hn], by simpa using hle⟩
  | .match scrutinee arms, pos, dst, s, hs, hdst, hapart, h => by
    simp only [compileNode, inlineSize] at h ⊢
    have hscr :=
      (compileNode_spec scrutinee .value ((Spec.alloc s).ready hs).toTidy
        (Nat.lt_succ_self s.nextReg)).temp
    have hnext := hscr.nextReg
    rw [List.length_append]
    exact (inlineSize_of_simple scrutinee .value ((Spec.alloc s).ready hs) (Nat.lt_succ_self _)
      (fun _ hx => lt_irrefl _ (hs.locals_lt hx)) h.left).add
        (inlineSizeArms_of_simple arms pos (hscr.ready hs) hdst (by omega)
          (hscr.apart hapart) h.right)
  | .ite cond then_ else_, pos, dst, s, hs, hdst, hapart, h => by
    simp only [compileNode] at h
    simpa [isSimpleOp] using h.left.right.head
  | .callExpr callee args, pos, dst, s, hs, hdst, hapart, h => by
    simp only [compileNode] at h
    simpa [isSimpleOp] using h.right.head
  | .variant tag [], pos, dst, s, hs, hdst, hapart, h => by
    simp only [compileNode] at h
    simpa [isSimpleOp] using h.head
  | .variant tag [arg], pos, dst, s, hs, hdst, hapart, h => by
    simp only [compileNode] at h
    simpa [isSimpleOp] using h.right.head
  | .variant tag (arg :: arg' :: args), pos, dst, s, hs, hdst, hapart, h => by
    simp only [compileNode] at h
    simpa [isSimpleOp] using h.right.tail.head
  | .lambda params body, pos, dst, s, hs, hdst, hapart, h => by
    simp only [compileNode, makeClosure] at h
    simpa [isSimpleOp] using h.right.head
  | .try expr, pos, dst, s, hs, hdst, hapart, h => by
    simp only [compileNode] at h
    simpa [isSimpleOp] using h.right.head

theorem inlineSizeList_of_simple : ∀ (nodes : List IRNode) {s : Compiler}, Ready s →
    Simple (compileArgs nodes s).code →
    SizeAtMost (inlineSizeList nodes) (compileArgs nodes s).code.length
  | [], s, hs, h => ⟨0, rfl, Nat.zero_le _⟩
  | node :: nodes, s, hs, h => by
    simp only [compileArgs, inlineSizeList] at h ⊢
    have hnode :=
      (compileNode_spec node .value ((Spec.alloc s).ready hs).toTidy
        (Nat.lt_succ_self s.nextReg)).temp
    rw [List.length_append]
    exact (inlineSize_of_simple node .value ((Spec.alloc s).ready hs) (Nat.lt_succ_self _)
      (fun _ hx => lt_irrefl _ (hs.locals_lt hx)) h.left).add
        (inlineSizeList_of_simple nodes (hnode.ready hs) h.right)

theorem inlineSizeDo_of_simple : ∀ (nodes : List IRNode) (pos : Position) {dst : Nat}
    {s : Compiler},
    Ready s → dst < s.nextReg → (∀ x, s.locals x ≠ some dst) →
      Simple (compileDo nodes pos dst s).code →
    SizeAtMost (inlineSizeList nodes) (compileDo nodes pos dst s).code.length
  | [], pos, dst, s, hs, hdst, hapart, h => ⟨0, rfl, Nat.zero_le _⟩
  | [node], pos, dst, s, hs, hdst, hapart, h => by
    simp only [compileDo, inlineSizeList] at h ⊢
    exact (inlineSize_of_simple node pos hs hdst hapart h).add ⟨0, rfl, le_rfl⟩
  | node :: node' :: nodes, pos, dst, s, hs, hdst, hapart, h => by
    simp only [compileDo] at h ⊢
    rw [inlineSizeList, List.length_append]
    have hnode :=
      (compileNode_spec node .value ((Spec.alloc s).ready hs).toTidy
        (Nat.lt_succ_self s.nextReg)).temp
    have hnext := hnode.nextReg
    exact (inlineSize_of_simple node .value ((Spec.alloc s).ready hs) (Nat.lt_succ_self _)
      (fun _ hx => lt_irrefl _ (hs.locals_lt hx)) h.left).add
        (inlineSizeDo_of_simple (node' :: nodes) pos (hnode.ready hs) (by omega)
          (hnode.apart hapart) h.right)

theorem inlineSizeBindings_of_simple : ∀ (bindings : List IRBinding) {s : Compiler}, Ready s →
    Simple (compileBindings bindings s).code →
    SizeAtMost (inlineSizeBindings bindings) (compileBindings bindings s).code.length
  | [], s, hs, h => ⟨0, rfl, Nat.zero_le _⟩
  | ⟨name, expr⟩ :: bindings, s, hs, h => by
    simp only [compileBindings, inlineSizeBindings] at h ⊢
    have he := (compileNode_spec expr .value ((Spec.alloc s).ready hs).toTidy
      (Nat.lt_succ_self s.nextReg)).temp
    have hnext := he.nextReg
    have hname := Spec.insertLocal (he.ready hs).toTidy name (r := s.nextReg) (by omega)
    rw [List.length_append]
    exact (inlineSize_of_simple expr .value ((Spec.alloc s).ready hs) (Nat.lt_succ_self _)
      (fun _ hx => lt_irrefl _ (hs.locals_lt hx)) h.left).add
        (inlineSizeBindings_of_simple bindings (hname.ready (he.ready hs)) h.right)

theorem inlineSizeArms_of_simple : ∀ (arms : List IRArm) (pos : Position) {dst scrReg : Nat}
    {s : Compiler}, Ready s → dst < scrReg → scrReg < s.nextReg → (∀ x, s.locals x ≠ some dst) →
    Simple (compileArms arms pos dst scrReg s).code →
    SizeAtMost (inlineSizeArms arms) (compileArms arms pos dst scrReg s).code.length
  | [], pos, dst, scrReg, s, hs, hdst, hscr, hapart, h => ⟨0, rfl, Nat.zero_le _⟩
  | ⟨.bind name, body⟩ :: arms, pos, dst, scrReg, s, hs, hdst, hscr, hapart, h => by
    simp only [compileArms, inlineSizeArms] at h ⊢
    have hname := Spec.insertLocal hs.toTidy name hscr
    have hsn := hname.ready hs
    have hnextName := hname.nextReg
    have hbody := compileNode_spec body pos hsn.toTidy (show dst < _ by omega)
    have hb := (hname.append hbody).remove [name] (by simp)
    have hnext := hb.nextReg
    rw [List.length_append]
    exact (inlineSize_of_simple body pos hsn (by omega)
      (Compiler.insertLocal_apart hapart hdst.ne' name) h.left).add
        (inlineSizeArms_of_simple arms pos (hb.ready hs) hdst (by omega) (hb.apart hapart) h.right)
  | ⟨.wild, body⟩ :: arms, pos, dst, scrReg, s, hs, hdst, hscr, hapart, h => by
    simp only [compileArms, List.cons_append] at h
    simpa [isSimpleOp] using h.head
  | ⟨.lit val, body⟩ :: arms, pos, dst, scrReg, s, hs, hdst, hscr, hapart, h => by
    simp only [compileArms] at h
    simpa [isSimpleOp] using h.left.tail.tail.head
  | ⟨.variant tag subPats, body⟩ :: arms, pos, dst, scrReg, s, hs, hdst, hscr, hapart, h => by
    simp only [compileArms] at h
    simpa [isSimpleOp] using h.left.left.head

end

/-- A closure that the machine runs inline is one the evaluator runs inline. -/
theorem Compiled.inlined {name : String} {code : Lambda} {func : BytecodeFunc}
    (h : Compiled m name (code.captureNames ++ code.params) {} code.body func)
    (hsimple : isSimpleClosure func = true) : code.inlined = true := by
  obtain ⟨base, idx, hbase, hlocals, hnext, hmax, -, -, hinstrs, -⟩ := h.code
  simp only [isSimpleClosure, Bool.and_eq_true, decide_eq_true_eq, List.all_eq_true] at hsimple
  obtain ⟨⟨hcount, harity⟩, hall⟩ := hsimple
  simp only [compileActivation, compileClauses, List.append_nil, List.nil_append] at hinstrs
  have hready := bindParams_ready (code.captureNames ++ code.params) hbase hnext hmax
  generalize Compiler.bindParams (code.captureNames ++ code.params) 0 base = inner at *
  rw [hinstrs] at hall hcount
  obtain ⟨n, hn, hle⟩ :=
    inlineSize_of_simple code.body (.tail name) ((Spec.alloc inner).ready hready)
    (Nat.lt_succ_self inner.nextReg) (fun _ hx => lt_irrefl _ (hready.locals_lt hx))
    (show Simple (_ ++ [⟨.ret, 0, inner.nextReg, 0⟩]) from hall).left
  rw [h.arity, List.length_append] at harity
  rw [List.length_append, List.length_singleton] at hcount
  simp only [Lambda.inlined, hn, Bool.and_eq_true, decide_eq_true_eq]
  exact ⟨harity, by omega⟩

/-! ## The two evaluators step by step -/

/-- The machine state that the inline evaluator's registers stand for. -/
structure Mirrors (func : BytecodeFunc) (regs : List VmValue) (fr : Frame) : Prop where
  code : fr.func = func
  registers : fr.registers = regs.map some

section Mirror

variable {func : BytecodeFunc} {regs : List VmValue} {fr : Frame} {world : World}

namespace Mirrors

/-- Both evaluators read the same register. -/
theorem read (h : Mirrors func regs fr) (r : Nat) : fr.read r = simpleRead regs r := by
  unfold Frame.read simpleRead
  rw [h.registers, List.getElem?_map]
  cases regs[r]? <;> rfl

theorem pointer (h : Mirrors func regs fr) (r : Nat) :
    fr.pointer r = (simpleRead regs r).map some := by
  unfold Frame.pointer simpleRead
  rw [h.registers, List.getElem?_map]
  cases regs[r]? <;> rfl

theorem window (h : Mirrors func regs fr) (start count : Nat) :
    fr.window start count = (simpleWindow regs start count).map (List.map some) := by
  induction count generalizing start with
  | zero => rfl
  | succ count ih =>
    simp only [Frame.window, simpleWindow, h.pointer, ih]
    cases simpleRead regs start with
    | error f => rfl
    | ok v => cases simpleWindow regs (start + 1) count <;> rfl

/-- Both fail to write or write the same. -/
theorem write (h : Mirrors func regs fr) (r : Nat) (v : VmValue) :
    (fr.write r v = .error .panic ∧ simpleWrite regs r v = .error .panic) ∨
      ∃ fr' regs', fr.write r v = .ok fr' ∧ simpleWrite regs r v = .ok regs' ∧
        Mirrors func regs' fr' ∧ fr'.ip = fr.ip ∧ fr'.returnReg = fr.returnReg := by
  unfold Frame.write Frame.setPointer simpleWrite
  rw [h.registers, List.length_map]
  split
  · exact Or.inr ⟨_, _, rfl, rfl, ⟨h.code, by simp [List.map_set]⟩, rfl, rfl⟩
  · exact Or.inl ⟨rfl, rfl⟩

end Mirrors

/-- A fault that is not a stack overflow. -/
def Fault.Shallow (f : Fault) : Prop := ∀ limit, f ≠ .error (.stackOverflow limit)

/-- One step of the machine and one instruction of the inline evaluator. -/
def StepAgrees (func : BytecodeFunc) (ip : Nat) (next : Except Fault (Next World))
    (r : Except Fault SimpleNext × World) : Prop :=
  match r with
  | (.ok (.running regs), world) =>
    ∃ fr, next = .ok (.running ⟨[fr], 0, world⟩) ∧ Mirrors func regs fr ∧ fr.ip = ip + 1
  | (.ok (.finished v), world) => next = .ok (.finished v world)
  | (.error f, _) => next = .error f ∧ f.Shallow

variable (world) in
/-- Both put the same result, or fail with it. -/
theorem StepAgrees.put (h : Mirrors func regs fr) {r : Except Fault VmValue}
    (hr : ∀ f, r = .error f → f.Shallow) (dst : Nat) :
    StepAgrees func fr.ip
      (r.bind fun v => (({ fr with ip := fr.ip + 1 } : Frame).write dst v).bind fun fr =>
        .ok (.running ⟨[fr], 0, world⟩))
      (r.bind fun v => (simpleWrite regs dst v).bind fun regs => .ok (.running regs), world) := by
  cases r with
  | error f => exact ⟨rfl, hr f rfl⟩
  | ok v =>
    have hmirror : Mirrors func regs { fr with ip := fr.ip + 1 } := ⟨h.code, h.registers⟩
    rcases hmirror.write dst v with ⟨hfr, hregs⟩ | ⟨fr', regs', hfr, hregs, hmirror', hip, -⟩
    · simp only [Except.bind, hfr, hregs]
      exact ⟨rfl, by simp [Fault.Shallow]⟩
    · simp only [Except.bind, hfr, hregs]
      exact ⟨fr', rfl, hmirror', hip⟩

/-- Reading fails with nothing that depends on the frames. -/
theorem simpleRead_shallow {r : Nat} {f : Fault} (h : simpleRead regs r = .error f) :
    f.Shallow := by
  unfold simpleRead at h
  split at h
  · simp at h
  · obtain rfl := Except.error.inj h
    simp [Fault.Shallow]

theorem simpleWindow_shallow {start count : Nat} {f : Fault}
    (h : simpleWindow regs start count = .error f) : f.Shallow := by
  induction count generalizing start with
  | zero => simp [simpleWindow] at h
  | succ count ih =>
    simp only [simpleWindow] at h
    cases hread : simpleRead regs start with
    | error f' =>
      rw [hread] at h
      obtain rfl := Except.error.inj h
      exact simpleRead_shallow hread
    | ok v =>
      cases hrest : simpleWindow regs (start + 1) count with
      | error f' =>
        rw [hread, hrest] at h
        obtain rfl := Except.error.inj h
        exact ih hrest
      | ok vs =>
        rw [hread, hrest] at h
        simp [bind, Except.bind] at h

/-- Arithmetic fails with a type error, a division by zero or a panic. -/
theorem simpleBinaryOp_shallow {op : Op} {x y : VmValue} {f : Fault}
    (h : simpleBinaryOp op x y = .error f) : f.Shallow := by
  unfold simpleBinaryOp at h
  split at h
  all_goals first
    | unfold Value.add at h
    | unfold Value.sub at h
    | unfold Value.mul at h
    | unfold Value.div at h
    | unfold Value.simpleMod at h
    | unfold Value.not at h
    | unfold Value.neg at h
    | skip
  all_goals repeat' split at h
  all_goals cases h
  all_goals simp [Fault.Shallow]

/-- A register that the inline evaluator reads holds its value. -/
theorem Mirrors.holds (h : Mirrors func regs fr) {r : Nat} {v : VmValue}
    (hv : simpleRead regs r = .ok v) : fr.Holds r v := by
  unfold simpleRead at hv
  unfold Frame.Holds
  rw [h.registers, List.getElem?_map]
  split at hv
  · next heq =>
      cases hv
      rw [heq]
      rfl
  · simp at hv

variable (world) in
/-- Where the instruction is safe, both sides compute the same operator. -/
theorem StepAgrees.binary (h : Mirrors func regs fr) {op : Op} {dst a b : Nat}
    (hsafe : fr.InlineSafe ⟨op, dst, a, b⟩) :
    StepAgrees func fr.ip
      ((simpleRead regs a).bind fun x => (simpleRead regs b).bind fun y =>
        (binaryOp op x y).bind fun v =>
          (({ fr with ip := fr.ip + 1 } : Frame).write dst v).bind fun fr =>
          .ok (.running ⟨[fr], 0, world⟩))
      ((simpleRead regs a).bind fun x => (simpleRead regs b).bind fun y =>
        (simpleBinaryOp op x y).bind fun v => (simpleWrite regs dst v).bind fun regs =>
          .ok (.running regs), world) := by
  cases hx : simpleRead regs a with
  | error f => exact ⟨rfl, simpleRead_shallow hx⟩
  | ok x =>
    cases hy : simpleRead regs b with
    | error f => exact ⟨rfl, simpleRead_shallow hy⟩
    | ok y =>
      have heq : simpleBinaryOp op x y = binaryOp op x y :=
        hsafe.operator (h.holds hx) (h.holds hy)
      have hput := StepAgrees.put world h (r := simpleBinaryOp op x y)
        (fun _ => simpleBinaryOp_shallow) dst
      conv at hput =>
        arg 3
        rw [heq]
      exact hput

/-- Every simple instruction that the guards admit ends alike on both sides. -/
theorem exec_agrees (h : Mirrors func regs fr) {instr : Instruction}
    (hsimple : isSimpleOp instr.op = true) (hsafe : fr.InlineSafe instr) :
    StepAgrees func fr.ip (m.exec instr { fr with ip := fr.ip + 1 } [] 0 world)
      (simpleStep m.builtins func instr regs world) := by
  have hmirror : Mirrors func regs { fr with ip := fr.ip + 1 } := ⟨h.code, h.registers⟩
  obtain ⟨op, dst, a, b⟩ := instr
  have hbinary := StepAgrees.binary world h hsafe
  cases op <;> simp only [isSimpleOp, Bool.false_eq_true] at hsimple
  case loadNil => exact StepAgrees.put _ h (r := .ok .nil) (by simp) dst
  case loadTrue => exact StepAgrees.put _ h (r := .ok (.bool true)) (by simp) dst
  case loadFalse => exact StepAgrees.put _ h (r := .ok (.bool false)) (by simp) dst
  case loadConst =>
    have hconst : fr.func.constants[a]? = func.constants[a]? := by rw [h.code]
    simp only [Machine.exec, simpleStep, Frame.constant, hconst]
    cases hc : func.constants[a]? with
    | none => exact ⟨rfl, by simp [Fault.Shallow]⟩
    | some v =>
      have hrt : v.toRt = v := hsafe.constant rfl v (hconst.trans hc)
      have hput := StepAgrees.put world h (r := .ok v) (by simp) dst
      conv at hput =>
        arg 3
        rw [← hrt]
      exact hput
  case add | sub | mul | div | mod | eq | ne | lt | le | gt | ge =>
    simp only [Machine.exec, simpleStep, hmirror.read]
    exact hbinary
  case not | neg =>
    simp only [Machine.exec, simpleStep, hmirror.read]
    cases hx : simpleRead regs a with
    | error f => exact ⟨rfl, simpleRead_shallow hx⟩
    | ok x => exact StepAgrees.put _ h (fun _ => simpleBinaryOp_shallow) dst
  case move =>
    simp only [Machine.exec, simpleStep, hmirror.pointer]
    cases hx : simpleRead regs a with
    | error f => exact ⟨rfl, simpleRead_shallow hx⟩
    | ok x => exact StepAgrees.put _ h (r := .ok x) (by simp) dst
  case makeList =>
    simp only [Machine.exec, simpleStep, hmirror.window]
    cases hx : simpleWindow regs a b with
    | error f => exact ⟨rfl, simpleWindow_shallow hx⟩
    | ok vals =>
      simp only [Except.map, bind, Except.bind, Machine.derefAll_some]
      exact StepAgrees.put _ h (r := .ok (.list vals)) (by simp) dst
  case ret =>
    simp only [Machine.exec, simpleStep, hmirror.pointer]
    cases hx : simpleRead regs a with
    | error f => exact ⟨rfl, simpleRead_shallow hx⟩
    | ok x => rfl
  case callBuiltin => exact absurd rfl hsafe.covered.1
  case markMoved => exact absurd rfl hsafe.covered.2.1
  case checkNotMoved => exact absurd rfl hsafe.covered.2.2.1
  case release => exact absurd rfl hsafe.covered.2.2.2

/-! ## Whole runs -/

/-- What a run of the frame says of the inline evaluator. -/
def RunAgrees (o : RunResult World) (r : Except Fault VmValue × World) : Prop :=
  match o with
  | .ok (v, world) => r = (.ok v, world)
  | .error f => r.1 = .error f ∧ f.Shallow

/-- The next instruction, in the main loop and in the inline evaluator. -/
theorem step_agrees {instr : Instruction} {instrs : List Instruction}
    (hmirror : Mirrors func regs fr)
    (hsimple : Simple func.instructions) (hrest : func.instructions.drop fr.ip = instr :: instrs)
    (hsafe : (⟨[fr], 0, world⟩ : Vm World).InlineSafe) :
    StepAgrees func fr.ip (m.step ⟨[fr], 0, world⟩)
      (simpleStep m.builtins func instr regs world) := by
  have hinstr : fr.func.instructions[fr.ip]? = some instr := by
    have h0 := congrArg (fun l => l[0]?) hrest
    rw [hmirror.code]
    simpa using h0
  rw [Machine.step_eq hinstr]
  exact exec_agrees hmirror (hsimple instr (hmirror.code ▸ List.mem_of_getElem? hinstr))
    (hsafe rfl hinstr)

theorem drop_succ_of_cons {α : Type} {xs rest : List α} {x : α} {i : Nat}
    (h : xs.drop i = x :: rest) : xs.drop (i + 1) = rest := by
  rw [← List.drop_drop, h]
  rfl

variable (world) in
/-- Behind the last instruction the activation returns nil. -/
theorem step_end (hmirror : Mirrors func regs fr) (hrest : func.instructions.drop fr.ip = []) :
    m.step ⟨[fr], 0, world⟩ = .ok (.finished .nil world) := by
  have hend : fr.func.instructions[fr.ip]? = none := by
    rw [hmirror.code]
    exact List.getElem?_eq_none (List.drop_eq_nil_iff.mp hrest)
  simp only [Machine.step, hend]
  rfl

/-- What the main loop yields from such code, the inline evaluator does. -/
theorem simpleLoop_of_yields {o : RunResult World} {instrs : List Instruction}
    (hmirror : Mirrors func regs fr) (hsimple : Simple func.instructions)
    (hrest : func.instructions.drop fr.ip = instrs)
    (h : (m.host true).Yields ⟨[fr], 0, world⟩ o) :
    RunAgrees o (simpleLoop m.builtins func instrs regs world) := by
  induction instrs generalizing fr regs world with
  | nil =>
    have hend := step_end world (m := m) hmirror hrest
    obtain ⟨t, hreach, hhalt, -⟩ := h
    rcases Relation.ReflTransGen.cases_head hreach with rfl | ⟨u, ⟨hstep, -⟩, -⟩
    · unfold Machine.halts at hhalt
      rw [hend] at hhalt
      subst hhalt
      rfl
    · simp [hend] at hstep
  | cons instr instrs ih =>
    obtain ⟨t, hreach, hhalt, hsafe⟩ := h
    rcases Relation.ReflTransGen.cases_head hreach with rfl | ⟨u, ⟨hstep, hsafe'⟩, hreach'⟩
    · have hagrees := step_agrees (m := m) hmirror hsimple hrest (hsafe rfl)
      unfold Machine.halts at hhalt
      simp only [simpleLoop]
      generalize simpleStep m.builtins func instr regs world = r at hagrees ⊢
      obtain ⟨f | ⟨regs' | v⟩, w⟩ := r
      · rw [hagrees.1] at hhalt
        subst hhalt
        exact ⟨rfl, hagrees.2⟩
      · obtain ⟨fr', hnext, -⟩ := hagrees
        rw [hnext] at hhalt
        exact hhalt.elim
      · have hnext : m.step ⟨[fr], 0, world⟩ = .ok (.finished v w) := hagrees
        rw [hnext] at hhalt
        subst hhalt
        rfl
    · have hagrees := step_agrees (m := m) hmirror hsimple hrest (hsafe' rfl)
      rw [hstep] at hagrees
      simp only [simpleLoop]
      generalize simpleStep m.builtins func instr regs world = r at hagrees ⊢
      obtain ⟨f | ⟨regs' | v⟩, w⟩ := r
      · exact absurd hagrees.1 (by simp)
      · obtain ⟨fr', hnext, hmirror', hip⟩ := hagrees
        obtain rfl : u = ⟨[fr'], 0, w⟩ := by simpa using hnext
        exact ih hmirror' (hip ▸ drop_succ_of_cons hrest) ⟨t, hreach', hhalt, hsafe⟩
      · exact absurd (show Except.ok (Next.running u) = .ok (.finished v w) from hagrees) (by simp)

/-- Such code ends: it is shorter than any run without end. -/
theorem not_runsFor {instrs : List Instruction} (hmirror : Mirrors func regs fr)
    (hsimple : Simple func.instructions) (hrest : func.instructions.drop fr.ip = instrs) :
    ¬ (m.host true).RunsFor (instrs.length + 1) ⟨[fr], 0, world⟩ := by
  induction instrs generalizing fr regs world with
  | nil =>
    rintro ⟨u, ⟨hstep, -⟩, -⟩
    simp [step_end world (m := m) hmirror hrest] at hstep
  | cons instr instrs ih =>
    rintro ⟨u, ⟨hstep, hsafe⟩, hruns⟩
    have hagrees := step_agrees (m := m) hmirror hsimple hrest (hsafe rfl)
    rw [hstep] at hagrees
    generalize simpleStep m.builtins func instr regs world = r at hagrees
    obtain ⟨f | ⟨regs' | v⟩, w⟩ := r
    · exact absurd hagrees.1 (by simp)
    · obtain ⟨fr', hnext, hmirror', hip⟩ := hagrees
      obtain rfl : u = ⟨[fr'], 0, w⟩ := by simpa using hnext
      exact ih hmirror' (hip ▸ drop_succ_of_cons hrest) hruns
    · exact absurd (show Except.ok (Next.running u) = .ok (.finished v w) from hagrees) (by simp)

end Mirror

/-! ## Closures -/

theorem fillRegisters_map {α β : Type} (f : α → β) (regs args : List α) :
    (fillRegisters regs args).map f = fillRegisters (regs.map f) (args.map f) := by
  induction regs generalizing args with
  | nil => cases args <;> rfl
  | cons r regs ih =>
    cases args with
    | nil => rfl
    | cons arg args => simp [fillRegisters, ih]

/-- The target of a closure that is run inline. -/
theorem TargetRel.inlined {code : Lambda} {captured : List RefValue} {caps : List VmValue}
    {func : BytecodeFunc} (h : TargetRel P m (.closure code captured) caps func)
    (hsimple : isSimpleClosure func = true) : code.inlined = true := by
  cases h with
  | closure hcompiled _ _ => exact hcompiled.inlined hsimple

/-- Inline code enters no function. -/
theorem simpleEnters (k : Nat) : Enters P m true k (fun _ _ _ _ => .departs) where
  call _ _ _ _ _ _ := trivial
  inlined _ htarget _ _ hsimple := ⟨htarget.inlined hsimple, trivial⟩

/-- The inline evaluator does what the body of the closure says. -/
theorem evalSimple_sim {k : Nat}
    {enter : Bool → Target → List RefValue → World → Res World RefValue}
    (hL : Linked P m) {code : Lambda} {captured : List RefValue} {caps : List VmValue}
    {func : BytecodeFunc} {args : List RefValue} {args' : List VmValue} (world : World)
    (htarget : TargetRel P m (.closure code captured) caps func) (hargs : ValuesRel m args args')
    (hcount : args.length = code.params.length) (hsimple : isSimpleClosure func = true) :
    InlineRel m k (P.guardedActivate enter true (.closure code captured) args world)
      (evalSimple m.builtins func (caps ++ args') world) := by
  have hall : Simple func.instructions := by
    simp only [isSimpleClosure, Bool.and_eq_true, List.all_eq_true] at hsimple
    exact hsimple.2
  have hentry : Entry func (caps ++ args') (Machine.newFrame func "" (caps ++ args') 0) := by
    refine newFrame_entry "" 0 ?_
    have hle := htarget.arity_le
    rw [List.length_append, ← hargs.length_eq, hcount]
    exact hle
  have hmirror :
      Mirrors func (fillRegisters (List.replicate func.registerCount .nil) (caps ++ args'))
      (Machine.newFrame func "" (caps ++ args') 0) :=
    ⟨rfl, by simp [Machine.newFrame, fillRegisters_map]⟩
  have hyields :
      ∀ o, (m.host true).Yields ⟨[Machine.newFrame func "" (caps ++ args') 0], 0, world⟩ o →
      RunAgrees o (evalSimple m.builtins func (caps ++ args') world) := fun o ho =>
    simpleLoop_of_yields hmirror hall rfl ho
  have hkeeps : ¬ (m.host true).GivesUp ⟨[Machine.newFrame func "" (caps ++ args') 0],
      0, world⟩ := by
    rintro ⟨o, ho, rfl⟩
    exact (hyields _ ho).2 _ rfl
  -- Compared through the main loop, where simple code enters nothing.
  have hsim := fun k => closure_sim [] 0 world (simpleEnters (P := P) k)
    hL true (fun _ => ⟨rfl, hall⟩) htarget hargs hcount hentry
  have hsame :
      P.guardedActivate (fun _ _ _ _ => .departs) true (.closure code captured) args world =
      P.guardedActivate enter true (.closure code captured) args world := rfl
  rw [hsame] at hsim
  generalize P.guardedActivate enter true (.closure code captured) args world = r at hsim
  cases r with
  | ok v world' =>
    rcases hsim 0 with ⟨t, hreach, fr, dst, a, b, v', rfl, -, hinstr, hv, hrel⟩ | hup
    · have hret := Machine.step_ret [] 0 world' (m := m) hinstr hv
      have hhalt : m.halts ⟨[fr], 0, world'⟩ (.ok (v', world')) := by
        unfold Machine.halts
        rw [hret]
        rfl
      exact ⟨v', hyields (.ok (v', world')) ⟨_, hreach, hhalt, fun _ =>
        Vm.inlineSafe_of_instr hinstr (Frame.inlineSafe_of_op rfl)⟩, hrel⟩
    · exact (hkeeps hup).elim
  | err f =>
    rcases hsim 0 with ⟨o, ho, f', rfl, hf⟩ | hup
    · exact ⟨f', (hyields _ ho).1, hf⟩
    · exact (hkeeps hup).elim
  | timeout =>
    rcases hsim (func.instructions.length + 1) with hruns | hup
    · exact (not_runsFor hmirror hall rfl hruns).elim
    · exact (hkeeps hup).elim
  | departs => trivial

/-- At every depth a call enters what the machine enters. -/
theorem guardedCall_enters (hL : Linked P m) (n : Nat) : Enters P m false n (P.guardedCall n) := by
  induction n with
  | zero => exact ⟨fun _ _ _ _ _ _ => Or.inl trivial, fun _ htarget _ _ hsimple =>
    ⟨htarget.inlined hsimple, rfl⟩⟩
  | succ n ih =>
    refine ⟨fun {target} => ?_, fun world htarget hargs hcount hsimple =>
      ⟨htarget.inlined hsimple, evalSimple_sim hL world htarget hargs hcount hsimple⟩⟩
    intro caps func args args' world fr rest depth vm htarget hargs hcount hentry hstep flag
    refine Host.Simulates.of_step_succ hstep ?_
    cases target with
    | named name fd => exact named_sim ih hL rfl flag htarget hargs hcount hentry
    | closure code captured =>
      exact closure_sim _ _ _ ih hL flag (by simp) htarget hargs hcount hentry

end Airl
