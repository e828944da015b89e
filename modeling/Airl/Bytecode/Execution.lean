import Airl.Bytecode.Vm
import Airl.Library.Ends

/-! # What one pass of the main loop can do

Whatever its opcode, a pass changes the innermost frame, enters a function or
leaves the innermost frame; and on operands that `validate_bytecode` accepts it
fails with a `RuntimeError` or by one of the mishaps listed here.
-/

namespace Airl

/-- A `RuntimeError`, the one way to fail that a caller can handle. -/
def Fault.IsError (f : Fault) : Prop := ∃ e, f = .error e

@[simp] theorem Fault.isError_error (e : RuntimeError) : (Fault.error e).IsError := ⟨e, rfl⟩

/-! ## Registers and constants -/

namespace Frame

variable (fr : Frame)

/-- Reading a pointer fails only outside the bank. -/
theorem pointer_ends (r : Nat) :
    Ends (fun _ => ¬ r < fr.registers.length) (fun p => fr.registers[r]? = some p)
      (fr.pointer r) := by
  unfold pointer
  split
  next p h => exact h
  next h => exact Nat.not_lt.mpr (List.getElem?_eq_none_iff.mp h)

/-- In the bank, reading a value fails only at an unset register. -/
theorem read_ends (r : Nat) :
    Ends (fun f => r < fr.registers.length → f = .nullPointer ∧ fr.registers[r]? = some none)
      (fun v => fr.registers[r]? = some (some v)) (fr.read r) := by
  unfold read
  split
  next v h => exact h
  next h => exact fun _ => ⟨rfl, h⟩
  next h => exact fun hlt => absurd hlt (Nat.not_lt.mpr (List.getElem?_eq_none_iff.mp h))

/-- Writing a pointer fails only outside the bank and changes one register. -/
theorem setPointer_ends (r : Nat) (p : Option VmValue) :
    Ends (fun _ => ¬ r < fr.registers.length)
      (fun fr' => fr' = { fr with registers := fr.registers.set r p }) (fr.setPointer r p) := by
  unfold setPointer
  split
  next => rfl
  next h => exact h

/-- A window fails only if it does not lie in the bank, and else holds its registers. -/
theorem window_ends (start count : Nat) :
    Ends (fun _ => ¬ (count = 0 ∨ start + count ≤ fr.registers.length))
      (fun ps => ps.length = count ∧ ∀ i < count, fr.registers[start + i]? = ps[i]?)
      (fr.window start count) := by
  induction count generalizing start with
  | zero => exact ⟨rfl, fun i hi => absurd hi (Nat.not_lt_zero i)⟩
  | succ count ih =>
    unfold window
    apply (fr.pointer_ends start).bind (fun _ h hfits => h (by omega))
    intro p hp
    apply (ih (start + 1)).bind (fun _ h hfits => h (by omega))
    intro ps hps
    refine ⟨by simp [hps.1], fun i hi => ?_⟩
    cases i with
    | zero => simpa using hp
    | succ i =>
      rw [show start + (i + 1) = start + 1 + i by omega, hps.2 i (by omega)]
      rfl

/-- Reading a constant fails only outside the pool. -/
theorem constant_ends (idx : Nat) :
    Ends (fun _ => ¬ idx < fr.func.constants.length) (fun c => fr.func.constants[idx]? = some c)
      (fr.constant idx) := by
  unfold constant
  split
  next c h => exact h
  next h => exact Nat.not_lt.mpr (List.getElem?_eq_none_iff.mp h)

/-- Inside the pool a constant that is no string is a `RuntimeError`. -/
theorem stringConstant_ends (idx : Nat) (message : String) :
    Ends (fun f => idx < fr.func.constants.length → f.IsError)
      (fun s => fr.func.constants[idx]? = some (.str s)) (fr.stringConstant idx message) := by
  unfold stringConstant
  split
  next s h => exact h
  next => exact fun _ => Fault.isError_error _
  next h => exact fun hlt => absurd hlt (Nat.not_lt.mpr (List.getElem?_eq_none_iff.mp h))

end Frame

/-- A list of pointers fails to be dereferenced only at an unset one. -/
theorem derefAll_ends (ps : List (Option VmValue)) :
    Ends (fun f => f = .nullPointer ∧ none ∈ ps) (fun vs => ps = vs.map some) (derefAll ps) := by
  induction ps with
  | nil => rfl
  | cons p ps ih =>
    cases p with
    | none => exact ⟨rfl, List.mem_cons_self⟩
    | some v =>
      unfold derefAll
      apply ih.bind (fun f h => ⟨h.1, List.mem_cons_of_mem _ h.2⟩)
      rintro vs rfl
      rfl

/-! ## Operators -/

/-- The one integer division whose quotient does not fit. -/
def QuotientOverflows (x y : VmValue) : Prop := x = .int Int64.minValue ∧ y = .int (-1)

/-- The opcodes of `binaryOp`. -/
def Op.isOperator : Op → Bool
  | .add | .sub | .mul | .div | .mod | .eq | .ne | .lt | .le | .gt | .ge | .not | .neg => true
  | _ => false

/-- An operator fails with a type error, on a zero divisor, or on the quotient that does not fit. -/
def OperatorFails (op : Op) (x y : VmValue) (f : Fault) : Prop :=
  f.IsError ∨ ((op = .div ∨ op = .mod) ∧ QuotientOverflows x y ∧ f = .panic)

/-- An operator fails by a `RuntimeError`, or because a quotient overflows. -/
theorem binaryOp_ends {op : Op} (hop : op.isOperator = true) (x y : VmValue) :
    Ends (OperatorFails op x y) (fun _ => True) (binaryOp op x y) := by
  cases op <;> cases hop <;>
    simp only [binaryOp, Value.add, Value.sub, Value.mul, Value.div, Value.mod,
      Value.not, Value.neg]
  all_goals first
    | trivial
    | split <;> first
      | trivial
      | exact Or.inl (Fault.isError_error _)
      | split_ifs with hzero hover
        · exact Or.inl (Fault.isError_error _)
        · exact Or.inr ⟨by simp, ⟨by rw [hover.1], by rw [hover.2]⟩, rfl⟩
        · trivial

/-- The inline evaluator divides as the main loop does, but its remainder wraps. -/
theorem simpleBinaryOp_ends {op : Op} (hop : op.isOperator = true) (x y : VmValue) :
    Ends (fun f => f.IsError ∨ (op = .div ∧ QuotientOverflows x y ∧ f = .panic)) (fun _ => True)
      (simpleBinaryOp op x y) := by
  by_cases hmod : op = .mod
  · subst hmod
    rw [show simpleBinaryOp .mod x y = x.simpleMod y from rfl]
    unfold Value.simpleMod
    split
    next =>
      split
      · exact Or.inl (Fault.isError_error _)
      · trivial
    next => exact Or.inl (Fault.isError_error _)
  · have h : Ends (OperatorFails op x y) (fun _ => True) (simpleBinaryOp op x y) := by
      have hmain := binaryOp_ends hop x y
      cases op <;> first | exact hmain | trivial
    refine h.mono (fun f hf => ?_) fun _ _ => trivial
    rcases hf with herror | ⟨hdiv | hrem, hover, hpanic⟩
    · exact Or.inl herror
    · exact Or.inr ⟨hdiv, hover, hpanic⟩
    · exact absurd hrem hmod

/-! ## The inline evaluator -/

section Inline

variable {World : Type}

/-- `eval_simple` reads no register outside its bank. -/
theorem simpleRead_ends (regs : List VmValue) (r : Nat) :
    Ends (fun _ => ¬ r < regs.length) (fun v => regs[r]? = some v) (simpleRead regs r) := by
  unfold simpleRead
  split
  next v h => exact h
  next h => exact Nat.not_lt.mpr (List.getElem?_eq_none_iff.mp h)

/-- A write of `eval_simple` keeps the size of the bank. -/
theorem simpleWrite_ends (regs : List VmValue) (r : Nat) (v : VmValue) :
    Ends (fun _ => ¬ r < regs.length) (fun regs' => regs'.length = regs.length)
      (simpleWrite regs r v) := by
  unfold simpleWrite
  split
  next => exact List.length_set
  next h => exact h

/-- A window of `eval_simple` fails only if it does not lie in the bank. -/
theorem simpleWindow_ends (regs : List VmValue) (start count : Nat) :
    Ends (fun _ => ¬ (count = 0 ∨ start + count ≤ regs.length)) (fun _ => True)
      (simpleWindow regs start count) := by
  induction count generalizing start with
  | zero => trivial
  | succ count ih =>
    unfold simpleWindow
    apply (simpleRead_ends regs start).bind (fun _ h hfits => h (by omega))
    intro v _
    apply (ih (start + 1)).bind (fun _ h hfits => h (by omega))
    intro vs _
    trivial

/-- What makes one instruction of the inline evaluator fail with anything but a `RuntimeError`:
the quotient that does not fit, or a builtin that fails so itself. -/
inductive SimpleMishap (b : Builtins String World) (func : BytecodeFunc) (instr : Instruction)
    (regs : List VmValue) (world : World) : Fault → Prop
  | overflow {x y : VmValue} (hop : instr.op = .div) (hx : regs[instr.a]? = some x)
      (hy : regs[instr.b]? = some y) (hover : QuotientOverflows x y) :
      SimpleMishap b func instr regs world .panic
  | builtin {name : String} {args : List VmValue} {f : Fault} (hop : instr.op = .callBuiltin)
      (hname : func.constants[instr.a]? = some (.str name))
      (hargs : simpleWindow regs (instr.dst + 1) instr.b = .ok args)
      (hfails : (b.dispatch name (args.map Value.toRt) world).1 = .error f) :
      SimpleMishap b func instr regs world f

/-- The inline evaluator comes to an instruction with a mishap. -/
def InlineMishap (b : Builtins String World) (func : BytecodeFunc) (f : Fault) :
    List Instruction → List VmValue → World → Prop
  | [], _, _ => False
  | instr :: instrs, regs, world =>
    SimpleMishap b func instr regs world f ∨
      ∃ regs' world', simpleStep b func instr regs world = (.ok (.running regs'), world') ∧
        InlineMishap b func f instrs regs' world'

/-- The instruction ends the evaluation or keeps the number of registers. -/
def SimpleNext.Keeps (regs : List VmValue) : SimpleNext → Prop
  | .running regs' => regs'.length = regs.length
  | .finished _ => True

variable {b : Builtins String World} {func : BytecodeFunc} {instr : Instruction}
  {regs : List VmValue} {world : World}

/-- Writing a result into the bank does not fail. -/
theorem simplePut_ends {dst : Nat} (hdst : dst < regs.length) (v : VmValue) {E : Fault → Prop} :
    Ends E (SimpleNext.Keeps regs) (do .ok (.running (← simpleWrite regs dst v))) := by
  apply (simpleWrite_ends regs dst v).bind (fun _ h => absurd hdst h)
  intro regs' hregs'
  exact hregs'

/-- An operator of `eval_simple` fails as the operator itself does. -/
theorem simpleOperator_ends {op : Op} {dst r s : Nat} (hop : op.isOperator = true)
    (hdst : dst < regs.length) (hr : r < regs.length) (hs : s < regs.length) :
    Ends (fun f => f.IsError ∨ SimpleMishap b func ⟨op, dst, r, s⟩ regs world f)
      (SimpleNext.Keeps regs) (do
        let x ← simpleRead regs r
        let y ← simpleRead regs s
        let v ← simpleBinaryOp op x y
        .ok (.running (← simpleWrite regs dst v))) := by
  apply (simpleRead_ends regs r).bind (fun _ h => absurd hr h)
  intro x hx
  apply (simpleRead_ends regs s).bind (fun _ h => absurd hs h)
  intro y hy
  refine Ends.bind (simpleBinaryOp_ends hop x y) (fun f hf => ?_) fun v _ => simplePut_ends hdst v
  rcases hf with herror | ⟨hdiv, hover, rfl⟩
  · exact Or.inl herror
  · exact Or.inr (.overflow hdiv hx hy hover)

/-- A valid instruction of `eval_simple` fails by an error or a mishap. -/
theorem simpleStep_ends (hvalid : validInstruction regs.length func.constants.length instr = true) :
    Ends (fun f => f.IsError ∨ SimpleMishap b func instr regs world f) (SimpleNext.Keeps regs)
      (simpleStep b func instr regs world).1 := by
  obtain ⟨op, dst, r, s⟩ := instr
  cases op with
  | loadConst =>
    simp only [validInstruction, Bool.and_eq_true, decide_eq_true_eq] at hvalid
    simp only [simpleStep]
    split
    next v hv => exact simplePut_ends hvalid.1 v
    next hnone => exact absurd hvalid.2 (Nat.not_lt.mpr (List.getElem?_eq_none_iff.mp hnone))
  | loadNil | loadTrue | loadFalse =>
    simp only [validInstruction, decide_eq_true_eq] at hvalid
    exact simplePut_ends hvalid _
  | move =>
    simp only [validInstruction, Bool.and_eq_true, decide_eq_true_eq] at hvalid
    apply (simpleRead_ends regs r).bind (fun _ h => absurd hvalid.2 h)
    intro v _
    exact simplePut_ends hvalid.1 v
  | not | neg =>
    simp only [validInstruction, Bool.and_eq_true, decide_eq_true_eq] at hvalid
    apply (simpleRead_ends regs r).bind (fun _ h => absurd hvalid.2 h)
    intro x _
    refine Ends.bind (simpleBinaryOp_ends rfl x x) (fun f hf => ?_) fun v _ =>
      simplePut_ends hvalid.1 v
    exact hf.elim Or.inl fun h => nomatch h.1
  | add | sub | mul | div | mod | eq | ne | lt | le | gt | ge =>
    simp only [validInstruction, Bool.and_eq_true, decide_eq_true_eq] at hvalid
    exact simpleOperator_ends rfl hvalid.1.1 hvalid.1.2 hvalid.2
  | callBuiltin =>
    simp only [validInstruction, Bool.and_eq_true, Bool.or_eq_true, beq_iff_eq,
      decide_eq_true_eq] at hvalid
    simp only [simpleStep]
    split
    next name hname =>
      split
      next args hargs =>
        split
        next =>
          cases hfails : (b.dispatch name (args.map Value.toRt) world).1 with
          | ok v => exact simplePut_ends hvalid.1.1 v
          | error f => exact Or.inr (.builtin rfl hname hargs hfails)
        next => exact Or.inl (Fault.isError_error _)
      next f hf => exact absurd hvalid.2 ((simpleWindow_ends regs _ s).of_eq_error hf)
    next => exact Or.inl (Fault.isError_error _)
    next hnone => exact absurd hvalid.1.2 (Nat.not_lt.mpr (List.getElem?_eq_none_iff.mp hnone))
  | makeList =>
    simp only [validInstruction, Bool.and_eq_true, Bool.or_eq_true, beq_iff_eq,
      decide_eq_true_eq] at hvalid
    apply (simpleWindow_ends regs r s).bind (fun _ h => absurd hvalid.2 h)
    intro vs _
    exact simplePut_ends hvalid.1 _
  | ret =>
    simp only [validInstruction, decide_eq_true_eq] at hvalid
    apply (simpleRead_ends regs r).bind (fun _ h => absurd hvalid h)
    intro v _
    trivial
  | markMoved | checkNotMoved => rfl
  | _ => exact Or.inl (Fault.isError_error _)

/-- So does a whole list of valid instructions: the bank keeps its size at every step. -/
theorem simpleLoop_ends (instrs : List Instruction) (regs : List VmValue) (world : World)
    (hvalid : ∀ instr ∈ instrs, validInstruction regs.length func.constants.length instr = true) :
    Ends (fun f => f.IsError ∨ InlineMishap b func f instrs regs world) (fun _ => True)
      (simpleLoop b func instrs regs world).1 := by
  induction instrs generalizing regs world with
  | nil => trivial
  | cons instr instrs ih =>
    have hstep : Ends _ _ (simpleStep b func instr regs world).1 :=
      simpleStep_ends (hvalid instr List.mem_cons_self)
    rcases hr : simpleStep b func instr regs world with ⟨r, world'⟩
    rw [hr] at hstep
    simp only [simpleLoop, hr]
    cases r with
    | error f => exact hstep.imp_right Or.inl
    | ok next =>
      cases next with
      | finished result => trivial
      | running regs' =>
        have hlength : regs'.length = regs.length := hstep
        refine (ih regs' world' ?_).mono (fun f hf => ?_) fun _ _ => trivial
        · rw [hlength]
          exact fun i hi => hvalid i (List.mem_cons_of_mem _ hi)
        · exact hf.imp_right fun h => Or.inr ⟨regs', world', hr, h⟩

/-- Putting the arguments into the bank keeps its size. -/
theorem fillRegisters_length {α : Type} (regs args : List α) :
    (fillRegisters regs args).length = regs.length := by
  induction regs generalizing args with
  | nil => cases args <;> rfl
  | cons reg regs ih =>
    cases args with
    | nil => rfl
    | cons arg args => exact congrArg (· + 1) (ih args)

/-- The registers with which the inline evaluator starts. -/
def simpleRegisters (func : BytecodeFunc) (args : List VmValue) : List VmValue :=
  fillRegisters (List.replicate func.registerCount .nil) args

variable (b world) in
/-- A valid function run by `eval_simple` fails by an error or a mishap. -/
theorem evalSimple_ends (args : List VmValue) (hvalid : func.valid = true) :
    Ends (fun f => f.IsError ∨
        InlineMishap b func f func.instructions (simpleRegisters func args) world)
      (fun _ => True) (evalSimple b func args world).1 := by
  apply simpleLoop_ends
  rw [simpleRegisters, fillRegisters_length, List.length_replicate]
  exact List.all_eq_true.mp hvalid

end Inline

/-! ## The main loop -/

/-- The registers that the instruction reads through their pointers. -/
def Instruction.Derefs (instr : Instruction) (r : Nat) : Prop :=
  match instr.op with
  | .not | .neg | .matchTag | .tryUnwrap => r = instr.a
  | .add | .sub | .mul | .div | .mod | .eq | .ne | .lt | .le | .gt | .ge =>
    r = instr.a ∨ r = instr.b
  | .makeVariant => r = instr.b
  | .makeList => instr.a ≤ r ∧ r < instr.a + instr.b
  | .call | .callBuiltin => instr.dst < r ∧ r ≤ instr.dst + instr.b
  | _ => False

/-- The instruction calls this name on these arguments, where it makes no partial application. -/
inductive Frame.Calls (fr : Frame) (instr : Instruction) : String → List VmValue → Prop
  | named {name : String} {args : List VmValue} (hop : instr.op = .call ∨ instr.op = .callBuiltin)
      (hname : fr.func.constants[instr.a]? = some (.str name))
      (hargs : fr.window (instr.dst + 1) instr.b = .ok (args.map some)) :
      fr.Calls instr name args
  | value {callee : Option VmValue} {ps : List (Option VmValue)} {name : String}
      {args : List VmValue} (hop : instr.op = .callReg) (hcallee : fr.pointer instr.a = .ok callee)
      (hargs : fr.window (instr.dst + 1) instr.b = .ok ps)
      (hresolved : Machine.resolveCallee (orNil callee) (ps.map orNil) = (.irFuncRef name, args) ∨
        Machine.resolveCallee (orNil callee) (ps.map orNil) = (.builtinFn name, args)) :
      fr.Calls instr name (args.map Value.toRt)

namespace Machine

variable {World : Type} (m : Machine World)

/-- What makes an instruction fail with anything but a `RuntimeError`, although its operands are
in range. -/
inductive Mishap (instr : Instruction) (fr : Frame) (world : World) : Fault → Prop
  | overflow {x y : VmValue} (hop : instr.op = .div ∨ instr.op = .mod)
      (hx : fr.registers[instr.a]? = some (some x)) (hy : fr.registers[instr.b]? = some (some y))
      (hover : QuotientOverflows x y) : Mishap instr fr world .panic
  | released {r : Nat} (hreads : instr.Derefs r) (hempty : fr.registers[r]? = some none) :
      Mishap instr fr world .nullPointer
  | builtin {name : String} {args : List VmValue} {r : Except Fault VmValue × World} {f : Fault}
      (hcalls : fr.Calls instr name args) (hdispatch : m.dispatchNamed name args world = some r)
      (hfails : r.1 = .error f) : Mishap instr fr world f
  | inline {callee : Option VmValue} {ps : List (Option VmValue)} {name : String}
      {captured args : List VmValue} {func : BytecodeFunc} {f : Fault} (hop : instr.op = .callReg)
      (hcallee : fr.pointer instr.a = .ok callee)
      (hargs : fr.window (instr.dst + 1) instr.b = .ok ps)
      (hresolved : resolveCallee (orNil callee) (ps.map orNil) =
        (.bytecodeClosure name captured, args))
      (hfunc : m.lookup name = some func) (hsimple : isSimpleClosure func = true)
      (hmishap : InlineMishap m.builtins func f func.instructions
        (simpleRegisters func (captured ++ args)) world) : Mishap instr fr world f

/-- What a pass does to the call stack. `code` is the instruction it executes, if there is one
left, and `fr` the innermost frame past it. -/
inductive Turn (code : Option Instruction) (fr : Frame) (rest : List Frame) (depth : Nat) :
    Next World → Prop
  | stays {fr' : Frame} {world : World} (hfunc : fr'.func = fr.func)
      (hname : fr'.funcName = fr.funcName) (hreturn : fr'.returnReg = fr.returnReg)
      (hlength : fr'.registers.length = fr.registers.length) :
      Turn code fr rest depth (.running ⟨fr' :: rest, depth, world⟩)
  | enters {instr : Instruction} {callee : Frame} {world : World} (hcode : code = some instr)
      (hop : instr.op = .call ∨ instr.op = .callReg) (hreturn : callee.returnReg = instr.dst)
      (hlookup : m.lookup callee.funcName = some callee.func)
      (hlength : callee.registers.length = callee.func.registerCount) :
      Turn code fr rest depth (.running ⟨callee :: fr :: rest, depth + 1, world⟩)
  | leaves {result : Option VmValue} {caller : Frame} {callers : List Frame} {world : World}
      (hrest : rest = caller :: callers) :
      Turn code fr rest depth (.running
        ⟨{ caller with registers := caller.registers.set fr.returnReg result } :: callers,
          depth - 1, world⟩)
  | finishes {result : VmValue} {world : World} (hrest : rest = []) :
      Turn code fr rest depth (.finished result world)

/-- The loaded functions are validated, the operands fit the frame, and the return register fits
the frame below. -/
structure Sound (instr : Instruction) (fr : Frame) (rest : List Frame) : Prop where
  loaded : ∀ func ∈ m.functions, func.valid = true
  operands : validInstruction fr.registers.length fr.func.constants.length instr = true
  returns : ∀ caller callers, rest = caller :: callers → fr.returnReg < caller.registers.length

/-- The pass makes a turn; or it fails, on a sound frame only so. -/
def Passes (instr : Instruction) (fr : Frame) (rest : List Frame) (depth : Nat) (world : World) :
    Except Fault (Next World) → Prop :=
  Ends (fun f => m.Sound instr fr rest → f.IsError ∨ m.Mishap instr fr world f)
    (m.Turn (some instr) fr rest depth)

section Passes

variable {m} {instr : Instruction} {fr fr' : Frame} {rest : List Frame} {depth : Nat}
  {world world' : World}

/-- A pass that stays in the frame and changes neither its function nor its size. -/
theorem passes_continue (hfunc : fr'.func = fr.func) (hname : fr'.funcName = fr.funcName)
    (hreturn : fr'.returnReg = fr.returnReg)
    (hlength : fr'.registers.length = fr.registers.length) :
    m.Passes instr fr rest depth world (.ok (.running ⟨fr' :: rest, depth, world'⟩)) :=
  .stays hfunc hname hreturn hlength

/-- A pass may always end in a `RuntimeError`. -/
theorem passes_error (e : RuntimeError) :
    m.Passes instr fr rest depth world (.error (.error e)) :=
  fun _ => Or.inl (Fault.isError_error e)

/-- A jump stays in the frame. -/
theorem passes_jumpBy (operand : Nat) :
    m.Passes instr fr rest depth world
      (.ok (.running ⟨fr.jumpBy operand :: rest, depth, world'⟩)) := by
  unfold Frame.jumpBy
  generalize jumpTarget fr.ip operand = target
  exact passes_continue rfl rfl rfl rfl

/-- The last write of an instruction, after which it may still touch the match flag. -/
theorem passes_setPointer {r : Nat} {p : Option VmValue} {k : Frame → Frame}
    (hk : ∀ fr, (k fr).func = fr.func ∧ (k fr).funcName = fr.funcName ∧
      (k fr).returnReg = fr.returnReg ∧ (k fr).registers = fr.registers)
    (hr : m.Sound instr fr rest → r < fr.registers.length) :
    m.Passes instr fr rest depth world
      (do let fr' ← fr.setPointer r p; .ok (.running ⟨k fr' :: rest, depth, world'⟩)) := by
  apply (fr.setPointer_ends r p).bind (fun _ h hs => absurd (hr hs) h)
  rintro fr' rfl
  obtain ⟨hfunc, hname, hreturn, hregisters⟩ := hk { fr with registers := fr.registers.set r p }
  exact passes_continue hfunc hname hreturn (by rw [hregisters, List.length_set])

/-- A pass that writes one register of the frame. -/
theorem passes_put {r : Nat} {v : VmValue} (hr : m.Sound instr fr rest → r < fr.registers.length) :
    m.Passes instr fr rest depth world
      (do let fr' ← fr.write r v; .ok (.running ⟨fr' :: rest, depth, world'⟩)) :=
  passes_setPointer (k := id) (fun _ => ⟨rfl, rfl, rfl, rfl⟩) hr

/-- A pass that stores its value in the destination. -/
theorem passes_store {v : VmValue}
    (hdst : m.Sound instr fr rest → instr.dst < fr.registers.length) :
    m.Passes instr fr rest depth world (store v instr.dst fr rest depth world') :=
  passes_put hdst

/-- A pass that stores what a builtin answers, or fails as it does. -/
theorem passes_answer {r : Except Fault VmValue × World}
    (hfails : ∀ f, r.1 = .error f → m.Sound instr fr rest →
      f.IsError ∨ m.Mishap instr fr world f)
    (hdst : m.Sound instr fr rest → instr.dst < fr.registers.length) :
    m.Passes instr fr rest depth world (answer r instr.dst fr rest depth) := by
  obtain ⟨r, world'⟩ := r
  cases r with
  | ok v => exact passes_put hdst
  | error f => exact hfails f rfl

/-- A pass that pushes a frame for the function it calls. -/
theorem passes_enter {name : String} {args : List (Option VmValue)}
    (hop : instr.op = .call ∨ instr.op = .callReg) :
    m.Passes instr fr rest depth world (m.enter name args instr.dst fr rest depth world) := by
  unfold enter pushFrame
  split
  next => exact passes_error _
  next func hlookup =>
    split_ifs
    · exact passes_error _
    · exact .enters rfl hop rfl hlookup (by simp [fillRegisters_length])

/-- A pass that pops the frame and hands its result to the caller. -/
theorem passes_popFrame {result : Option VmValue} :
    m.Passes instr fr rest depth world (popFrame result fr.returnReg rest depth world) := by
  unfold popFrame
  split
  next => exact .finishes rfl
  next caller callers =>
    apply Ends.bind (caller.setPointer_ends fr.returnReg result)
      (fun _ h hs => absurd (hs.returns caller callers rfl) h)
    rintro caller' rfl
    exact .leaves rfl

/-- Every name that is dispatched has an answer. -/
theorem dispatchNamed_ne_none {name : String} {args : List VmValue}
    (h : name = "thread-spawn" ∨ name = "fn-metadata" ∨ m.builtins.known name = true) :
    m.dispatchNamed name args world ≠ none := by
  unfold dispatchNamed
  split_ifs with hspawn hmeta hknown
  · exact Option.some_ne_none _
  · exact Option.some_ne_none _
  · exact Option.some_ne_none _
  · exact absurd h (by simp [hspawn, hmeta, hknown])

/-- An unset register in a window that the instruction reads is a mishap. -/
theorem mishap_of_window {ps : List (Option VmValue)} {start count : Nat}
    (hps : ps.length = count ∧ ∀ i < count, fr.registers[start + i]? = ps[i]?)
    (hreads : ∀ r, start ≤ r → r < start + count → instr.Derefs r) (hnone : none ∈ ps) :
    m.Mishap instr fr world .nullPointer := by
  obtain ⟨i, hi, hempty⟩ := List.getElem_of_mem hnone
  have hregister : fr.registers[start + i]? = some none := by
    rw [hps.2 i (hps.1 ▸ hi), List.getElem?_eq_getElem hi, hempty]
  exact .released (hreads _ (Nat.le_add_right _ _) (by omega)) hregister

/-- A call of a name passes. -/
theorem passes_callNamed {name : String} {ps : List (Option VmValue)} (hop : instr.op = .call)
    (hname : fr.func.constants[instr.a]? = some (.str name))
    (hps : fr.window (instr.dst + 1) instr.b = .ok ps)
    (hdst : m.Sound instr fr rest → instr.dst < fr.registers.length) :
    m.Passes instr fr rest depth world (m.callNamed name ps instr.dst fr rest depth world) := by
  unfold callNamed
  split
  next => exact passes_store hdst
  split
  next => exact passes_store hdst
  split
  next hdispatched =>
    apply (derefAll_ends ps).bind
    · rintro f ⟨rfl, hnone⟩ -
      refine Or.inr (mishap_of_window ((fr.window_ends _ _).of_eq_ok hps)
        (fun r hlow hhigh => ?_) hnone)
      simp only [Instruction.Derefs, hop]
      omega
    · rintro args rfl
      split
      next r hr =>
        exact passes_answer (fun f hf _ =>
          Or.inr (.builtin (.named (Or.inl hop) hname hps) hr hf)) hdst
      next hr => exact absurd hr (dispatchNamed_ne_none hdispatched)
  next => exact passes_enter (Or.inl hop)

/-- What is looked up is a function of the machine. -/
theorem lookup_mem {name : String} {func : BytecodeFunc} (h : m.lookup name = some func) :
    func ∈ m.functions :=
  List.mem_of_find?_eq_some h

/-- A call of a value passes. -/
theorem passes_callValue {callee : Option VmValue} {ps : List (Option VmValue)}
    (hop : instr.op = .callReg) (hcallee : fr.pointer instr.a = .ok callee)
    (hps : fr.window (instr.dst + 1) instr.b = .ok ps)
    (hdst : m.Sound instr fr rest → instr.dst < fr.registers.length) :
    m.Passes instr fr rest depth world
      (m.callValue (orNil callee) (ps.map orNil) instr.dst fr rest depth world) := by
  have hanswer :
      ∀ {name args}, (resolveCallee (orNil callee) (ps.map orNil) = (.irFuncRef name, args) ∨
      resolveCallee (orNil callee) (ps.map orNil) = (.builtinFn name, args)) →
      ∀ r, m.dispatchNamed name (args.map Value.toRt) world = some r →
        m.Passes instr fr rest depth world (answer r instr.dst fr rest depth) := by
    intro name args hresolved r hr
    exact passes_answer (fun f hf _ =>
      Or.inr (.builtin (.value hop hcallee hps hresolved) hr hf)) hdst
  unfold callValue
  split
  next name captured args hresolved =>
    cases hlookup : m.lookup name with
    | none =>
      dsimp only
      split_ifs
      · exact passes_store hdst
      · exact passes_error _
      · exact passes_enter (Or.inr hop)
    | some func =>
      dsimp only
      split_ifs with _ _ hsimple
      · exact passes_store hdst
      · exact passes_error _
      · refine passes_answer (fun f hf hs => ?_) hdst
        have hends := evalSimple_ends m.builtins world (captured ++ args)
          (hs.loaded func (lookup_mem hlookup))
        exact (hends.of_eq_error hf).imp_right (.inline hop hcallee hps hresolved hlookup hsimple)
      · exact passes_enter (Or.inr hop)
  next name args hresolved =>
    split
    next => exact passes_store hdst
    split
    next r hr => exact hanswer (Or.inl hresolved) r hr
    next => exact passes_enter (Or.inr hop)
  next name args hresolved =>
    split
    next => exact passes_store hdst
    split
    next r hr => exact hanswer (Or.inr hresolved) r hr
    next => exact passes_enter (Or.inr hop)
  next => exact passes_error _

/-- A pass that first reads a value may go on with any value the register can hold. -/
theorem passes_read {r : Nat} {k : VmValue → Except Fault (Next World)}
    (hreads : instr.Derefs r) (hr : m.Sound instr fr rest → r < fr.registers.length)
    (hk : ∀ v, fr.registers[r]? = some (some v) → m.Passes instr fr rest depth world (k v)) :
    m.Passes instr fr rest depth world (fr.read r >>= k) := by
  apply (fr.read_ends r).bind
  · intro f h hs
    obtain ⟨rfl, hempty⟩ := h (hr hs)
    exact Or.inr (.released hreads hempty)
  · exact hk

/-- A pass that first reads a pointer. -/
theorem passes_pointer {r : Nat} {k : Option VmValue → Except Fault (Next World)}
    (hr : m.Sound instr fr rest → r < fr.registers.length)
    (hk : ∀ p, fr.pointer r = .ok p → m.Passes instr fr rest depth world (k p)) :
    m.Passes instr fr rest depth world (fr.pointer r >>= k) := by
  cases hp : fr.pointer r with
  | ok p => exact hk p hp
  | error f => exact fun hs => absurd (hr hs) ((fr.pointer_ends r).of_eq_error hp)

/-- A pass that first reads a window. -/
theorem passes_window {start count : Nat} {k : List (Option VmValue) → Except Fault (Next World)}
    (hfits : m.Sound instr fr rest → count = 0 ∨ start + count ≤ fr.registers.length)
    (hk : ∀ ps, fr.window start count = .ok ps → m.Passes instr fr rest depth world (k ps)) :
    m.Passes instr fr rest depth world (fr.window start count >>= k) := by
  cases hps : fr.window start count with
  | ok ps => exact hk ps hps
  | error f => exact fun hs => absurd (hfits hs) ((fr.window_ends start count).of_eq_error hps)

/-- A pass that first reads the name of what it calls. -/
theorem passes_stringConstant {idx : Nat} {message : String}
    {k : String → Except Fault (Next World)}
    (hidx : m.Sound instr fr rest → idx < fr.func.constants.length)
    (hk : ∀ s, fr.func.constants[idx]? = some (.str s) → m.Passes instr fr rest depth world (k s)) :
    m.Passes instr fr rest depth world (fr.stringConstant idx message >>= k) :=
  (fr.stringConstant_ends idx message).bind (fun _ h hs => Or.inl (h (hidx hs))) hk

/-- An operator passes, its operands being read. -/
theorem passes_operator {op : Op} {dst a b : Nat} {x y : VmValue} (hop : op.isOperator = true)
    (hx : fr.registers[a]? = some (some x))
    (hy : op = .div ∨ op = .mod → fr.registers[b]? = some (some y))
    (hdst : m.Sound ⟨op, dst, a, b⟩ fr rest → dst < fr.registers.length) :
    m.Passes ⟨op, dst, a, b⟩ fr rest depth world (do
      let v ← binaryOp op x y
      let fr' ← fr.write dst v
      .ok (.running ⟨fr' :: rest, depth, world⟩)) := by
  apply (binaryOp_ends hop x y).bind
  · rintro f (herror | ⟨hdivides, hover, rfl⟩) -
    · exact Or.inl herror
    · exact Or.inr (.overflow hdivides hx (hy hdivides) hover)
  · intro v _
    exact passes_put hdst

variable (depth world) in
/-- Every instruction passes: one case for each opcode. -/
theorem passes_exec (instr : Instruction) (fr : Frame) (rest : List Frame) :
    m.Passes instr fr rest depth world (m.exec instr fr rest depth world) := by
  obtain ⟨op, dst, a, b⟩ := instr
  have hvalid : m.Sound ⟨op, dst, a, b⟩ fr rest →
      validInstruction fr.registers.length fr.func.constants.length ⟨op, dst, a, b⟩ = true :=
    Sound.operands
  -- An operand is out of bounds only where `hvalid` refuses the instruction.
  cases op with
  | loadConst =>
    simp only [validInstruction, Bool.and_eq_true, decide_eq_true_eq] at hvalid
    apply (fr.constant_ends a).bind (fun _ h hs => absurd (hvalid hs).2 h)
    intro c _
    exact passes_put fun hs => (hvalid hs).1
  | loadNil | loadTrue | loadFalse =>
    simp only [validInstruction, decide_eq_true_eq] at hvalid
    exact passes_put hvalid
  | move =>
    simp only [validInstruction, Bool.and_eq_true, decide_eq_true_eq] at hvalid
    apply passes_pointer (fun hs => (hvalid hs).2)
    intro p _
    exact passes_setPointer (k := id) (fun _ => ⟨rfl, rfl, rfl, rfl⟩) fun hs => (hvalid hs).1
  | not | neg =>
    simp only [validInstruction, Bool.and_eq_true, decide_eq_true_eq] at hvalid
    refine passes_read rfl (fun hs => (hvalid hs).2) fun x hx => ?_
    exact passes_operator rfl hx (fun h => by simp at h) fun hs => (hvalid hs).1
  | add | sub | mul | div | mod | eq | ne | lt | le | gt | ge =>
    simp only [validInstruction, Bool.and_eq_true, decide_eq_true_eq] at hvalid
    refine passes_read (Or.inl rfl) (fun hs => (hvalid hs).1.2) fun x hx => ?_
    refine passes_read (Or.inr rfl) (fun hs => (hvalid hs).2) fun y hy => ?_
    exact passes_operator rfl hx (fun _ => hy) fun hs => (hvalid hs).1.1
  | jump => exact passes_jumpBy a
  | jumpIfFalse | jumpIfTrue =>
    simp only [validInstruction, decide_eq_true_eq] at hvalid
    refine passes_pointer hvalid fun p _ => ?_
    dsimp only
    split
    · exact passes_jumpBy b
    · exact passes_continue rfl rfl rfl rfl
  | makeList =>
    simp only [validInstruction, Bool.and_eq_true, Bool.or_eq_true, beq_iff_eq,
      decide_eq_true_eq] at hvalid
    refine passes_window (fun hs => (hvalid hs).2) fun ps hps => ?_
    apply (derefAll_ends ps).bind
    · rintro f ⟨rfl, hnone⟩ -
      exact Or.inr (mishap_of_window ((fr.window_ends a b).of_eq_ok hps)
        (fun r hlow hhigh => ⟨hlow, hhigh⟩) hnone)
    · intro vs _
      exact passes_put fun hs => (hvalid hs).1
  | makeVariant =>
    simp only [validInstruction, Bool.and_eq_true, decide_eq_true_eq] at hvalid
    refine passes_stringConstant (fun hs => (hvalid hs).1.2) fun tag _ => ?_
    refine passes_read rfl (fun hs => (hvalid hs).2) fun v _ => ?_
    exact passes_put fun hs => (hvalid hs).1.1
  | makeVariant0 =>
    simp only [validInstruction, Bool.and_eq_true, decide_eq_true_eq] at hvalid
    refine passes_stringConstant (fun hs => (hvalid hs).2) fun tag _ => ?_
    exact passes_put fun hs => (hvalid hs).1
  | matchTag =>
    simp only [validInstruction, Bool.and_eq_true, decide_eq_true_eq] at hvalid
    refine passes_stringConstant (fun hs => (hvalid hs).2) fun tag _ => ?_
    refine passes_read rfl (fun hs => (hvalid hs).1.2) fun v _ => ?_
    split
    next =>
      split
      · exact passes_setPointer (fun _ => ⟨rfl, rfl, rfl, rfl⟩) fun hs => (hvalid hs).1.1
      · exact passes_continue rfl rfl rfl rfl
    next => exact passes_continue rfl rfl rfl rfl
  | jumpIfNoMatch =>
    simp only [exec]
    split
    · exact passes_continue rfl rfl rfl rfl
    · exact passes_jumpBy a
  | matchWild =>
    simp only [validInstruction, Bool.and_eq_true, decide_eq_true_eq] at hvalid
    refine passes_pointer (fun hs => (hvalid hs).2) fun p _ => ?_
    exact passes_setPointer (fun _ => ⟨rfl, rfl, rfl, rfl⟩) fun hs => (hvalid hs).1
  | tryUnwrap =>
    simp only [validInstruction, Bool.and_eq_true, decide_eq_true_eq] at hvalid
    refine passes_read rfl (fun hs => (hvalid hs).2) fun v _ => ?_
    split
    · exact passes_put fun hs => (hvalid hs).1
    · exact passes_error _
    · exact passes_error _
  | assertRequires | assertEnsures | assertInvariant =>
    simp only [validInstruction, Bool.and_eq_true, decide_eq_true_eq] at hvalid
    refine passes_pointer (fun hs => (hvalid hs).1.2) fun p _ => ?_
    split
    · exact passes_continue rfl rfl rfl rfl
    · exact passes_error _
  | markMoved => exact passes_continue rfl rfl rfl rfl
  | checkNotMoved =>
    simp only [exec]
    split
    · exact passes_error _
    · exact passes_continue rfl rfl rfl rfl
  | call =>
    simp only [validInstruction, Bool.and_eq_true, Bool.or_eq_true, beq_iff_eq,
      decide_eq_true_eq] at hvalid
    refine passes_stringConstant (fun hs => (hvalid hs).1.2) fun name hname => ?_
    refine passes_window (fun hs => (hvalid hs).2) fun ps hps => ?_
    exact passes_callNamed rfl hname hps fun hs => (hvalid hs).1.1
  | callBuiltin =>
    simp only [validInstruction, Bool.and_eq_true, Bool.or_eq_true, beq_iff_eq,
      decide_eq_true_eq] at hvalid
    refine passes_stringConstant (fun hs => (hvalid hs).1.2) fun name hname => ?_
    refine passes_window (fun hs => (hvalid hs).2) fun ps hps => ?_
    split
    next => exact passes_store fun hs => (hvalid hs).1.1
    next =>
      apply (derefAll_ends ps).bind
      · rintro f ⟨rfl, hnone⟩ -
        refine Or.inr (mishap_of_window ((fr.window_ends _ _).of_eq_ok hps)
          (fun r hlow hhigh => ?_) hnone)
        exact ⟨Nat.lt_of_succ_le hlow, by dsimp only at hhigh ⊢; omega⟩
      · rintro args rfl
        split
        next r hr =>
          exact passes_answer
            (fun f hf _ => Or.inr (.builtin (.named (Or.inr rfl) hname hps) hr hf))
            fun hs => (hvalid hs).1.1
        next => exact passes_error _
  | callReg =>
    simp only [validInstruction, Bool.and_eq_true, Bool.or_eq_true, beq_iff_eq,
      decide_eq_true_eq] at hvalid
    refine passes_pointer (fun hs => (hvalid hs).1.2) fun callee hcallee => ?_
    refine passes_window (fun hs => (hvalid hs).2) fun ps hps => ?_
    exact passes_callValue rfl hcallee hps fun hs => (hvalid hs).1.1
  | tailCall => exact passes_continue rfl rfl rfl rfl
  | ret =>
    simp only [validInstruction, decide_eq_true_eq] at hvalid
    refine passes_pointer hvalid fun p _ => ?_
    exact passes_popFrame
  | release => exact passes_continue rfl rfl rfl (List.length_set)
  | makeClosure =>
    simp only [validInstruction, Bool.and_eq_true, decide_eq_true_eq] at hvalid
    refine passes_stringConstant (fun hs => (hvalid hs).1.2) fun name _ => ?_
    cases m.lookup name <;> dsimp only <;> split_ifs with hfits <;> first
      | exact passes_error _
      | refine passes_window (fun _ => Or.inr (Nat.not_lt.mp hfits)) fun ps _ => ?_
        exact passes_put fun hs => (hvalid hs).1.1

end Passes

variable {m} {fr : Frame} {rest : List Frame} {depth : Nat} {world : World} {next : Next World}

/-- A step that succeeds turns the state as its instruction says. -/
theorem step_turn (h : m.step ⟨fr :: rest, depth, world⟩ = .ok next) :
    m.Turn fr.func.instructions[fr.ip]? { fr with ip := fr.ip + 1 } rest depth next := by
  unfold step at h
  cases hcode : fr.func.instructions[fr.ip]? with
  | some instr =>
    simp only [hcode] at h
    exact (passes_exec depth world instr { fr with ip := fr.ip + 1 } rest).of_eq_ok h
  | none =>
    -- past the last instruction the frame is left as by a return of nil
    simp only [hcode] at h
    unfold popFrame at h
    split at h
    next => exact Except.ok.inj h ▸ .finishes rfl
    next caller callers =>
      unfold Frame.setPointer at h
      split at h
      next => exact Except.ok.inj h ▸ .leaves rfl
      next => exact nomatch h

/-- A step fails by an error or by a mishap of its instruction. -/
theorem step_fails {f : Fault} (h : m.step ⟨fr :: rest, depth, world⟩ = .error f)
    (hsound : ∀ instr, fr.func.instructions[fr.ip]? = some instr →
      m.Sound instr { fr with ip := fr.ip + 1 } rest)
    (hreturns : ∀ caller callers, rest = caller :: callers →
      fr.returnReg < caller.registers.length) :
    f.IsError ∨ ∃ instr, fr.func.instructions[fr.ip]? = some instr ∧
      m.Mishap instr { fr with ip := fr.ip + 1 } world f := by
  unfold step at h
  cases hcode : fr.func.instructions[fr.ip]? with
  | some instr =>
    simp only [hcode] at h
    have hends := (passes_exec depth world instr { fr with ip := fr.ip + 1 } rest).of_eq_error h
    exact (hends (hsound instr hcode)).imp_right fun hmishap => ⟨instr, rfl, hmishap⟩
  | none =>
    simp only [hcode] at h
    unfold popFrame at h
    split at h
    next => exact nomatch h
    next caller callers =>
      unfold Frame.setPointer at h
      rw [if_pos (hreturns caller callers rfl)] at h
      exact nomatch h

end Machine

end Airl
