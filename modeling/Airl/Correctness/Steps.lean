import Airl.Bytecode.Execution
import Airl.Correctness.Values

/-! # Single steps of the machine

The machine as a host of simulations, and what each opcode does to a frame
whose operand registers hold values.
-/

namespace Airl

open Transition (Host Outcome)

variable {World : Type}

/-! ## Frames -/

namespace Frame

/-- The register holds the value. -/
def Holds (fr : Frame) (r : Nat) (v : VmValue) : Prop := fr.registers[r]? = some (some v)

/-- The registers from `start` on hold the values. -/
def HoldsFrom (fr : Frame) (start : Nat) (vals : List VmValue) : Prop :=
  ∀ ⦃i v⦄, vals[i]? = some v → fr.Holds (start + i) v

/-- Write a register and go on to the next instruction. -/
def put (fr : Frame) (dst : Nat) (v : VmValue) : Frame :=
  { fr with registers := fr.registers.set dst (some v), ip := fr.ip + 1 }

/-- Go on `distance` instructions further. -/
def advance (fr : Frame) (distance : Nat) : Frame := { fr with ip := fr.ip + distance }

@[simp] theorem put_func (fr : Frame) (dst : Nat) (v : VmValue) : (fr.put dst v).func =
    fr.func := rfl

@[simp] theorem put_ip (fr : Frame) (dst : Nat) (v : VmValue) : (fr.put dst v).ip = fr.ip + 1 := rfl

@[simp] theorem put_returnReg (fr : Frame) (dst : Nat) (v : VmValue) :
    (fr.put dst v).returnReg = fr.returnReg := rfl

@[simp] theorem advance_func (fr : Frame) (distance : Nat) :
    (fr.advance distance).func = fr.func := rfl

@[simp] theorem advance_ip (fr : Frame) (distance : Nat) :
    (fr.advance distance).ip = fr.ip + distance := rfl

@[simp] theorem advance_holds {fr : Frame} {distance r : Nat} {v : VmValue} :
    (fr.advance distance).Holds r v ↔ fr.Holds r v := Iff.rfl

/-- A register that holds a value is one of the frame. -/
theorem Holds.lt {fr : Frame} {r : Nat} {v : VmValue} (h : fr.Holds r v) :
    r < fr.registers.length :=
  (List.getElem?_eq_some_iff.mp h).1

/-- Such a register is read without fail. -/
theorem Holds.read {fr : Frame} {r : Nat} {v : VmValue} (h : fr.Holds r v) : fr.read r = .ok v := by
  unfold Frame.read
  rw [h]

theorem Holds.pointer {fr : Frame} {r : Nat} {v : VmValue} (h : fr.Holds r v) :
    fr.pointer r = .ok (some v) := by
  unfold Frame.pointer
  rw [h]

/-- The register that is put holds the value. -/
theorem put_holds_same {fr : Frame} {dst : Nat} (v : VmValue) (h : dst < fr.registers.length) :
    (fr.put dst v).Holds dst v := by
  simp [Holds, put, h]

/-- The others hold what they held. -/
theorem put_holds_of_ne {fr : Frame} {dst r : Nat} {v w : VmValue} (h : fr.Holds r w)
    (hne : r ≠ dst) : (fr.put dst v).Holds r w := by
  simpa [Holds, put, List.getElem?_set_ne hne.symm] using h

/-- A window over registers that hold values gives the values. -/
theorem HoldsFrom.window {fr : Frame} {start : Nat} {vals : List VmValue}
    (h : fr.HoldsFrom start vals) : fr.window start vals.length = .ok (vals.map some) := by
  induction vals generalizing start with
  | nil => rfl
  | cons v vals ih =>
    have hhead : fr.Holds start v := h (i := 0) rfl
    have htail : fr.HoldsFrom (start + 1) vals := fun i w hw => by
      have hnext := h (i := i + 1) hw
      rwa [show start + (i + 1) = start + 1 + i by omega] at hnext
    simp only [List.length_cons, Frame.window, hhead.pointer, ih htail]
    rfl

/-- The same frame up to its position and the registers from `lo` on. -/
structure Keeps (lo : Nat) (fr fr' : Frame) : Prop where
  func : fr'.func = fr.func
  returnReg : fr'.returnReg = fr.returnReg
  length : fr'.registers.length = fr.registers.length
  below : ∀ {r}, r < lo → fr'.registers[r]? = fr.registers[r]?

namespace Keeps

variable {lo lo' : Nat} {fr fr' fr'' : Frame}

theorem refl (lo : Nat) (fr : Frame) : Keeps lo fr fr := ⟨rfl, rfl, rfl, fun _ => rfl⟩

theorem trans (h : Keeps lo fr fr') (h' : Keeps lo fr' fr'') : Keeps lo fr fr'' :=
  ⟨h'.func.trans h.func, h'.returnReg.trans h.returnReg, h'.length.trans h.length,
    fun hr => (h'.below hr).trans (h.below hr)⟩

/-- What is kept below a register is kept below a smaller one. -/
theorem mono (h : Keeps lo fr fr') (hle : lo' ≤ lo) : Keeps lo' fr fr' :=
  ⟨h.func, h.returnReg, h.length, fun hr => h.below (hr.trans_le hle)⟩

/-- A register that is kept holds what it held. -/
theorem holds (h : Keeps lo fr fr') {r : Nat} {v : VmValue} (hr : r < lo) (hv : fr.Holds r v) :
    fr'.Holds r v :=
  (h.below hr).trans hv

/-- Putting a register keeps those below it. -/
theorem put (fr : Frame) (dst : Nat) (v : VmValue) : Keeps dst fr (fr.put dst v) :=
  ⟨rfl, rfl, by simp [Frame.put], fun hr => by
    simp [Frame.put, List.getElem?_set_ne (Nat.ne_of_gt hr)]⟩

theorem advance (lo : Nat) (fr : Frame) (distance : Nat) : Keeps lo fr (fr.advance distance) :=
  ⟨rfl, rfl, rfl, fun _ => rfl⟩

end Keeps

end Frame

/-! ## Code in a frame -/

/-- The code stands at the position. -/
def CodeAt (instrs : List Instruction) (pc : Nat) (code : List Instruction) : Prop :=
  ∀ ⦃i instr⦄, code[i]? = some instr → instrs[pc + i]? = some instr

namespace CodeAt

variable {instrs code code' : List Instruction} {pc : Nat} {instr : Instruction}

/-- Code that lies at a position begins there. -/
theorem head (h : CodeAt instrs pc (instr :: code)) : instrs[pc]? = some instr :=
  h (i := 0) rfl

/-- And goes on behind its first instruction. -/
theorem tail (h : CodeAt instrs pc (instr :: code)) : CodeAt instrs (pc + 1) code := by
  intro i instr' hi
  have hnext := h (i := i + 1) hi
  rwa [show pc + (i + 1) = pc + 1 + i by omega] at hnext

/-- The front of code that lies there lies there. -/
theorem left (h : CodeAt instrs pc (code ++ code')) : CodeAt instrs pc code := by
  intro i instr hi
  refine h ?_
  rw [List.getElem?_append_left (List.getElem?_eq_some_iff.mp hi).1]
  exact hi

theorem length_le (h : CodeAt instrs pc code) (hne : code ≠ []) :
    pc + code.length ≤ instrs.length := by
  have hpos := List.length_pos_iff.mpr hne
  have hlast := h (i := code.length - 1) (List.getElem?_eq_getElem (by omega))
  have hlt := (List.getElem?_eq_some_iff.mp hlast).1
  omega

/-- The back of it lies behind the front. -/
theorem right (h : CodeAt instrs pc (code ++ code')) : CodeAt instrs (pc + code.length) code' := by
  intro i instr hi
  have hnext := h (i := code.length + i)
    (by rw [List.getElem?_append_right (by omega)]; simpa using hi)
  rwa [show pc + (code.length + i) = pc + code.length + i by omega] at hnext

end CodeAt

/-! ## The machine as a host -/

/-- The same kind of failure; the texts of custom errors may differ. -/
def Fault.SameClass : Fault → Fault → Prop
  | .error (.custom _), .error (.custom _) => True
  | f, f' => f = f'

theorem Fault.SameClass.refl (f : Fault) : f.SameClass f := by
  unfold SameClass
  split <;> trivial

/-- The inline evaluator does what the main loop does with this instruction. -/
structure Frame.InlineSafe (fr : Frame) (instr : Instruction) : Prop where
  constant : instr.op = .loadConst → ∀ c, fr.func.constants[instr.a]? = some c → c.toRt = c
  covered : instr.op ≠ .callBuiltin ∧ instr.op ≠ .markMoved ∧ instr.op ≠ .checkNotMoved ∧
    instr.op ≠ .release
  operator : ∀ {x y}, fr.Holds instr.a x → fr.Holds instr.b y →
    simpleBinaryOp instr.op x y = binaryOp instr.op x y

/-- The next instruction is safe to evaluate inline. -/
def Vm.InlineSafe (vm : Vm World) : Prop :=
  ∀ {fr rest instr}, vm.callStack = fr :: rest → fr.func.instructions[fr.ip]? = some instr →
    fr.InlineSafe instr

/-- What a run of the machine ends with. -/
abbrev RunResult (World : Type) := Except Fault (VmValue × World)

def Machine.halts (m : Machine World) (vm : Vm World) (o : RunResult World) : Prop :=
  match m.step vm with
  | .error f => o = .error f
  | .ok (.finished v world) => o = .ok (v, world)
  | .ok (.running _) => False

/-- The machine; with `inline`, only as long as the inline evaluator could follow.
A stack overflow is excused: the reference evaluator has no call depth. -/
def Machine.host (m : Machine World) (inline : Bool) :
    Host (Vm World) (RunResult World) Fault where
  step vm vm' := m.step vm = .ok (.running vm') ∧ (inline = true → vm.InlineSafe)
  halt vm o := m.halts vm o ∧ (inline = true → vm.InlineSafe)
  reports f o := ∃ f', o = .error f' ∧ f.SameClass f'
  excused o := o = .error (.error (.stackOverflow m.maxCallDepth))

/-- From every state there is at most one step or one halt. -/
theorem Machine.host_deterministic (m : Machine World) (inline : Bool) :
    (m.host inline).Deterministic where
  step_unique := by
    rintro s t t' ⟨h, -⟩ ⟨h', -⟩
    have heq := h.symm.trans h'
    simpa using heq
  halt_unique := by
    rintro s o o' ⟨h, -⟩ ⟨h', -⟩
    unfold Machine.halts at h h'
    split at h <;> simp_all
  step_not_halt := by
    rintro s t o ⟨h, -⟩ ⟨h', -⟩
    unfold Machine.halts at h'
    rw [h] at h'
    exact h'

/-! ## One opcode at a time -/

namespace Machine

variable {m : Machine World} {fr : Frame} {rest : List Frame} {depth : Nat} {world : World}
  {dst a b : Nat} {x y v : VmValue}

theorem write_eq (hdst : dst < fr.registers.length) (v : VmValue) :
    ({ fr with ip := fr.ip + 1 } : Frame).write dst v = .ok (fr.put dst v) :=
  if_pos hdst

/-- A step executes the instruction at the counter, which has moved on. -/
theorem step_eq {instr : Instruction} (hinstr : fr.func.instructions[fr.ip]? = some instr) :
    m.step ⟨fr :: rest, depth, world⟩ =
      m.exec instr { fr with ip := fr.ip + 1 } rest depth world := by
  simp only [step, hinstr]

/-- A short forward distance is not changed by the operand's 16 bits. -/
theorem jumpTarget_eq {ip distance : Nat} (hfits : distance < 32768)
    (hshort : ip + distance < 2147483648) : jumpTarget ip (toU16 distance) = ip + distance := by
  have hdistance : asI16 (toU16 distance) = distance := asI16_toU16 (by omega) (by omega)
  have hip : asI32 ip = ip := asI32_eq (by omega) (by omega)
  simp only [jumpTarget, hdistance, hip]
  rw [asI32_eq (by omega) (by omega), if_neg (by omega)]
  omega

/-- So the jump goes where the compiler meant it to. -/
theorem jumpBy_eq {distance : Nat} (hfits : distance < 32768)
    (hshort : fr.ip + 1 + distance < 2147483648) :
    ({ fr with ip := fr.ip + 1 } : Frame).jumpBy (toU16 distance) = fr.advance (1 + distance) := by
  simp only [Frame.jumpBy, Frame.advance, jumpTarget_eq hfits hshort, Nat.add_assoc]

variable (rest depth world) in
/-- A constant is loaded as the runtime represents it. -/
theorem step_loadConst (hinstr : fr.func.instructions[fr.ip]? = some ⟨.loadConst, dst, a, b⟩)
    (hdst : dst < fr.registers.length) (hconst : fr.func.constants[a]? = some v) :
    m.step ⟨fr :: rest, depth, world⟩ =
      .ok (.running ⟨fr.put dst v.toRt :: rest, depth, world⟩) := by
  simp [step_eq hinstr, exec, Frame.constant, hconst, write_eq hdst]
  rfl

/-- The literals that have an opcode of their own. -/
theorem step_loadNil (hinstr : fr.func.instructions[fr.ip]? = some ⟨.loadNil, dst, a, b⟩)
    (hdst : dst < fr.registers.length) :
    m.step ⟨fr :: rest, depth, world⟩ = .ok (.running ⟨fr.put dst .nil :: rest, depth, world⟩) := by
  simp [step_eq hinstr, exec, write_eq hdst]
  rfl

theorem step_loadTrue (hinstr : fr.func.instructions[fr.ip]? = some ⟨.loadTrue, dst, a, b⟩)
    (hdst : dst < fr.registers.length) :
    m.step ⟨fr :: rest, depth, world⟩ =
      .ok (.running ⟨fr.put dst (.bool true) :: rest, depth, world⟩) := by
  simp [step_eq hinstr, exec, write_eq hdst]
  rfl

theorem step_loadFalse (hinstr : fr.func.instructions[fr.ip]? = some ⟨.loadFalse, dst, a, b⟩)
    (hdst : dst < fr.registers.length) :
    m.step ⟨fr :: rest, depth, world⟩ =
      .ok (.running ⟨fr.put dst (.bool false) :: rest, depth, world⟩) := by
  simp [step_eq hinstr, exec, write_eq hdst]
  rfl

variable (rest depth world) in
/-- A move copies a register. -/
theorem step_move (hinstr : fr.func.instructions[fr.ip]? = some ⟨.move, dst, a, b⟩)
    (hdst : dst < fr.registers.length) (hx : fr.Holds a x) :
    m.step ⟨fr :: rest, depth, world⟩ = .ok (.running ⟨fr.put dst x :: rest, depth, world⟩) := by
  have hpointer : ({ fr with ip := fr.ip + 1 } : Frame).pointer a = .ok (some x) := hx.pointer
  have hwrite := write_eq hdst x
  unfold Frame.write at hwrite
  simp [step_eq hinstr, exec, hpointer, hwrite, bind, Except.bind]

variable (rest depth world) in
/-- Storing what an operator answers, or failing as it does. -/
theorem put_result (hdst : dst < fr.registers.length) (r : Except Fault VmValue) :
    (r.bind fun v => (({ fr with ip := fr.ip + 1 } : Frame).write dst v).bind fun fr =>
      .ok (.running ⟨fr :: rest, depth, world⟩)) =
      r.map fun v => Next.running ⟨fr.put dst v :: rest, depth, world⟩ := by
  cases r with
  | error f => rfl
  | ok v => simp [Except.bind, Except.map, write_eq hdst]

variable (rest depth world) in
/-- An operator on two registers. -/
theorem step_directOp {name : String} {op : Op} (hop : directOp name = some op)
    (hinstr : fr.func.instructions[fr.ip]? = some ⟨op, dst, a, b⟩)
    (hdst : dst < fr.registers.length) (hx : fr.Holds a x) (hy : fr.Holds b y) :
    m.step ⟨fr :: rest, depth, world⟩ =
      (binaryOp op x y).map fun v => .running ⟨fr.put dst v :: rest, depth, world⟩ := by
  have hreadX : ({ fr with ip := fr.ip + 1 } : Frame).read a = .ok x := hx.read
  have hreadY : ({ fr with ip := fr.ip + 1 } : Frame).read b = .ok y := hy.read
  have hput := put_result rest depth world hdst (binaryOp op x y)
  rw [step_eq hinstr]
  unfold directOp at hop
  split at hop <;> cases hop <;> simp only [exec, hreadX, hreadY] <;> exact hput

/-- The operator on one register. -/
theorem step_not (hinstr : fr.func.instructions[fr.ip]? = some ⟨.not, dst, a, b⟩)
    (hdst : dst < fr.registers.length) (hx : fr.Holds a x) :
    m.step ⟨fr :: rest, depth, world⟩ =
      x.not.map fun v => .running ⟨fr.put dst v :: rest, depth, world⟩ := by
  have hreadX : ({ fr with ip := fr.ip + 1 } : Frame).read a = .ok x := hx.read
  simp only [step_eq hinstr, exec, hreadX]
  exact put_result _ _ _ hdst _

/-- A jump that fits its operand is taken. -/
theorem step_jump {distance : Nat} (hfits : distance < 32768)
    (hshort : fr.ip + 1 + distance < 2147483648)
    (hinstr : fr.func.instructions[fr.ip]? = some ⟨.jump, dst, toU16 distance, b⟩) :
    m.step ⟨fr :: rest, depth, world⟩ =
      .ok (.running ⟨fr.advance (1 + distance) :: rest, depth, world⟩) := by
  simp only [step_eq hinstr, exec, jumpBy_eq hfits hshort]

/-- The conditional jump is taken on `false` alone. -/
theorem step_jumpIfFalse_taken {distance : Nat} (hfits : distance < 32768)
    (hshort : fr.ip + 1 + distance < 2147483648)
    (hinstr : fr.func.instructions[fr.ip]? = some ⟨.jumpIfFalse, dst, a, toU16 distance⟩)
    (hx : fr.Holds a (.bool false)) :
    m.step ⟨fr :: rest, depth, world⟩ =
      .ok (.running ⟨fr.advance (1 + distance) :: rest, depth, world⟩) := by
  have hpointer : ({ fr with ip := fr.ip + 1 } : Frame).pointer a = .ok (some (.bool false)) :=
    hx.pointer
  simp only [step_eq hinstr, exec, hpointer, jumpBy_eq hfits hshort]
  rfl

/-- Every other value goes on behind it. -/
theorem step_jumpIfFalse_not_taken
    (hinstr : fr.func.instructions[fr.ip]? = some ⟨.jumpIfFalse, dst, a, b⟩)
    (hx : fr.Holds a x) (hne : x ≠ .bool false) :
    m.step ⟨fr :: rest, depth, world⟩ = .ok (.running ⟨fr.advance 1 :: rest, depth, world⟩) := by
  have hpointer : ({ fr with ip := fr.ip + 1 } : Frame).pointer a = .ok (some x) := hx.pointer
  simp only [step_eq hinstr, exec, hpointer, bind, Except.bind]
  split
  · next h => exact absurd (Option.some.inj h) hne
  · rfl

theorem derefAll_some (vals : List VmValue) : derefAll (vals.map some) = .ok vals := by
  induction vals with
  | nil => rfl
  | cons v vals ih =>
    simp only [List.map_cons, derefAll, ih]
    rfl

theorem window_eq {start : Nat} {vals : List VmValue} (h : fr.HoldsFrom start vals) :
    ({ fr with ip := fr.ip + 1 } : Frame).window start vals.length = .ok (vals.map some) :=
  Frame.HoldsFrom.window (show Frame.HoldsFrom { fr with ip := fr.ip + 1 } start vals from h)

/-- A list of the values of a window. -/
theorem step_makeList {vals : List VmValue}
    (hinstr : fr.func.instructions[fr.ip]? = some ⟨.makeList, dst, a, vals.length⟩)
    (hdst : dst < fr.registers.length) (hvals : fr.HoldsFrom a vals) :
    m.step ⟨fr :: rest, depth, world⟩ =
      .ok (.running ⟨fr.put dst (.list vals) :: rest, depth, world⟩) := by
  simp [step_eq hinstr, exec, window_eq hvals, derefAll_some, write_eq hdst, bind, Except.bind]

theorem stringConstant_eq {idx : Nat} {s : String} (message : String)
    (hconst : fr.func.constants[idx]? = some (.str s)) :
    ({ fr with ip := fr.ip + 1 } : Frame).stringConstant idx message = .ok s := by
  simp [Frame.stringConstant, hconst]

/-- A variant with one field. -/
theorem step_makeVariant {tag : String}
    (hinstr : fr.func.instructions[fr.ip]? = some ⟨.makeVariant, dst, a, b⟩)
    (hdst : dst < fr.registers.length) (hconst : fr.func.constants[a]? = some (.str tag))
    (hx : fr.Holds b x) :
    m.step ⟨fr :: rest, depth, world⟩ =
      .ok (.running ⟨fr.put dst (.variant tag x) :: rest, depth, world⟩) := by
  have hread : ({ fr with ip := fr.ip + 1 } : Frame).read b = .ok x := hx.read
  simp [step_eq hinstr, exec, stringConstant_eq _ hconst, hread, write_eq hdst, bind, Except.bind]

/-- A variant without fields carries nil. -/
theorem step_makeVariant0 {tag : String}
    (hinstr : fr.func.instructions[fr.ip]? = some ⟨.makeVariant0, dst, a, b⟩)
    (hdst : dst < fr.registers.length) (hconst : fr.func.constants[a]? = some (.str tag)) :
    m.step ⟨fr :: rest, depth, world⟩ =
      .ok (.running ⟨fr.put dst (.variant tag .nil) :: rest, depth, world⟩) := by
  simp [step_eq hinstr, exec, stringConstant_eq _ hconst, write_eq hdst, bind, Except.bind]

variable (rest depth world) in
/-- A variant of the tag puts its field and sets the flag. -/
theorem step_matchTag_hit {tag : String}
    (hinstr : fr.func.instructions[fr.ip]? = some ⟨.matchTag, dst, a, b⟩)
    (hdst : dst < fr.registers.length) (hconst : fr.func.constants[b]? = some (.str tag))
    (hx : fr.Holds a (.variant tag x)) :
    m.step ⟨fr :: rest, depth, world⟩ =
      .ok (.running ⟨{ fr.put dst x with matchFlag := true } :: rest, depth, world⟩) := by
  have hread : ({ fr with ip := fr.ip + 1 } : Frame).read a = .ok (.variant tag x) := hx.read
  simp [step_eq hinstr, exec, stringConstant_eq _ hconst, hread, write_eq hdst, bind, Except.bind]

/-- Every other value clears the flag and puts nothing. -/
theorem step_matchTag_miss {tag : String}
    (hinstr : fr.func.instructions[fr.ip]? = some ⟨.matchTag, dst, a, b⟩)
    (hconst : fr.func.constants[b]? = some (.str tag)) (hx : fr.Holds a x)
    (hne : ∀ inner, x ≠ .variant tag inner) :
    m.step ⟨fr :: rest, depth, world⟩ =
      .ok (.running ⟨{ fr.advance 1 with matchFlag := false } :: rest, depth, world⟩) := by
  have hread : ({ fr with ip := fr.ip + 1 } : Frame).read a = .ok x := hx.read
  simp only [step_eq hinstr, exec, stringConstant_eq _ hconst, hread, bind, Except.bind]
  split
  · next tagName inner =>
      rw [if_neg (by rintro rfl; exact hne inner rfl)]
      rfl
  · rfl

/-- The jump behind a pattern reads the flag. -/
theorem step_jumpIfNoMatch_taken {distance : Nat} (hfits : distance < 32768)
    (hshort : fr.ip + 1 + distance < 2147483648)
    (hinstr : fr.func.instructions[fr.ip]? = some ⟨.jumpIfNoMatch, dst, toU16 distance, b⟩)
    (hflag : fr.matchFlag = false) :
    m.step ⟨fr :: rest, depth, world⟩ =
      .ok (.running ⟨fr.advance (1 + distance) :: rest, depth, world⟩) := by
  simp only [step_eq hinstr, exec]
  rw [if_neg (by simp [hflag]), jumpBy_eq hfits hshort]

/-- A pattern that matched goes on. -/
theorem step_jumpIfNoMatch_not_taken
    (hinstr : fr.func.instructions[fr.ip]? = some ⟨.jumpIfNoMatch, dst, a, b⟩)
    (hflag : fr.matchFlag = true) :
    m.step ⟨fr :: rest, depth, world⟩ = .ok (.running ⟨fr.advance 1 :: rest, depth, world⟩) := by
  simp only [step_eq hinstr, exec]
  rw [if_pos hflag]
  rfl

/-- The wildcard matches every value. -/
theorem step_matchWild (hinstr : fr.func.instructions[fr.ip]? = some ⟨.matchWild, dst, a, b⟩)
    (hdst : dst < fr.registers.length) (hx : fr.Holds a x) :
    m.step ⟨fr :: rest, depth, world⟩ =
      .ok (.running ⟨{ fr.put dst x with matchFlag := true } :: rest, depth, world⟩) := by
  have hpointer : ({ fr with ip := fr.ip + 1 } : Frame).pointer a = .ok (some x) := hx.pointer
  have hwrite := write_eq hdst x
  unfold Frame.write at hwrite
  simp [step_eq hinstr, exec, hpointer, hwrite, bind, Except.bind]

/-- `TryUnwrap` on the machine's values. -/
def tryResult : VmValue → Except Fault VmValue
  | .variant "Ok" inner => .ok inner
  | .variant "Err" _ => .error (.error .tryErr)
  | _ => .error (.error .tryOnNonResult)

/-- `try` unwraps an `Ok` and fails on the rest. -/
theorem step_tryUnwrap (hinstr : fr.func.instructions[fr.ip]? = some ⟨.tryUnwrap, dst, a, b⟩)
    (hdst : dst < fr.registers.length) (hx : fr.Holds a x) :
    m.step ⟨fr :: rest, depth, world⟩ =
      (tryResult x).map fun v => .running ⟨fr.put dst v :: rest, depth, world⟩ := by
  have hread : ({ fr with ip := fr.ip + 1 } : Frame).read a = .ok x := hx.read
  simp only [step_eq hinstr, exec, hread, bind, Except.bind, tryResult]
  split <;> first | rfl | simp [write_eq hdst, Except.map]

variable (rest depth world) in
/-- A tail call starts the function again in its own frame. -/
theorem step_tailCall (hinstr : fr.func.instructions[fr.ip]? = some ⟨.tailCall, dst, a, b⟩) :
    m.step ⟨fr :: rest, depth, world⟩ =
      .ok (.running ⟨{ fr with ip := 0, moved := fr.moved.map fun _ => false } :: rest, depth,
        world⟩) := by
  simp only [step_eq hinstr, exec]

variable (rest depth world) in
/-- A return pops the frame. -/
theorem step_ret (hinstr : fr.func.instructions[fr.ip]? = some ⟨.ret, dst, a, b⟩)
    (hx : fr.Holds a x) :
    m.step ⟨fr :: rest, depth, world⟩ = popFrame (some x) fr.returnReg rest depth world := by
  have hpointer : ({ fr with ip := fr.ip + 1 } : Frame).pointer a = .ok (some x) := hx.pointer
  simp only [step_eq hinstr, exec, hpointer, bind, Except.bind]

/-- The assertions, each with its kind. -/
def assertKind : Op → Option ContractKind
  | .assertRequires => some .requires
  | .assertEnsures => some .ensures
  | .assertInvariant => some .invariant
  | _ => none

/-- A clause that is true goes on. -/
theorem step_assert_holds {op : Op} {kind : ContractKind} (hop : assertKind op = some kind)
    (hinstr : fr.func.instructions[fr.ip]? = some ⟨op, dst, a, b⟩) (hx : fr.Holds a (.bool true)) :
    m.step ⟨fr :: rest, depth, world⟩ = .ok (.running ⟨fr.advance 1 :: rest, depth, world⟩) := by
  have hpointer : ({ fr with ip := fr.ip + 1 } : Frame).pointer a = .ok (some (.bool true)) :=
    hx.pointer
  rw [step_eq hinstr]
  unfold assertKind at hop
  split at hop <;> cases hop <;> simp only [exec, hpointer] <;> rfl

/-- Every other value is a violation of the clause. -/
theorem step_assert_fails {op : Op} {kind : ContractKind} {name source : String}
    (hop : assertKind op = some kind)
    (hinstr : fr.func.instructions[fr.ip]? = some ⟨op, dst, a, b⟩) (hx : fr.Holds a x)
    (hne : x ≠ .bool true) (hname : fr.func.constants[dst]? = some (.str name))
    (hsource : fr.func.constants[b]? = some (.str source)) :
    m.step ⟨fr :: rest, depth, world⟩ =
      .error (.error (.contractViolation name kind source)) := by
  have hpointer : ({ fr with ip := fr.ip + 1 } : Frame).pointer a = .ok (some x) := hx.pointer
  rw [step_eq hinstr]
  unfold assertKind at hop
  split at hop <;> cases hop <;> simp only [exec, hpointer, bind, Except.bind, hname, hsource] <;>
    split <;> first | rfl | exact absurd (Option.some.inj ‹_›) hne

/-! ## Calls -/

theorem map_orNil_some (vals : List VmValue) : (vals.map some).map orNil = vals := by
  simp [Function.comp_def, orNil]

variable (rest depth world) in
/-- A call of a name passes the window behind its destination. -/
theorem step_call {name : String} {vals : List VmValue}
    (hinstr : fr.func.instructions[fr.ip]? = some ⟨.call, dst, a, vals.length⟩)
    (hconst : fr.func.constants[a]? = some (.str name)) (hvals : fr.HoldsFrom (dst + 1) vals) :
    m.step ⟨fr :: rest, depth, world⟩ =
      m.callNamed name (vals.map some) dst (fr.advance 1) rest depth world := by
  simp only [step_eq hinstr, exec, stringConstant_eq _ hconst, window_eq hvals]
  rfl

variable (rest depth world) in
/-- A call of a value does the same. -/
theorem step_callReg {callee : VmValue} {vals : List VmValue}
    (hinstr : fr.func.instructions[fr.ip]? = some ⟨.callReg, dst, a, vals.length⟩)
    (hcallee : fr.Holds a callee) (hvals : fr.HoldsFrom (dst + 1) vals) :
    m.step ⟨fr :: rest, depth, world⟩ =
      m.callValue callee vals dst (fr.advance 1) rest depth world := by
  have hpointer : ({ fr with ip := fr.ip + 1 } : Frame).pointer a = .ok (some callee) :=
    hcallee.pointer
  simp only [step_eq hinstr, exec, hpointer, window_eq hvals, bind, Except.bind, map_orNil_some]
  rfl

theorem store_eq (hdst : dst < fr.registers.length) (v : VmValue) :
    store v dst (fr.advance 1) rest depth world =
      .ok (.running ⟨fr.put dst v.toRt :: rest, depth, world⟩) := by
  have hwrite : (fr.advance 1).write dst v.toRt = .ok (fr.put dst v.toRt) := write_eq hdst _
  simp [store, hwrite, bind, Except.bind]

variable (rest depth) in
/-- An answer is put into the destination. -/
theorem answer_ok (hdst : dst < fr.registers.length) (v : VmValue) (world : World) :
    answer (.ok v, world) dst (fr.advance 1) rest depth =
      .ok (.running ⟨fr.put dst v.toRt :: rest, depth, world⟩) := by
  have hwrite : (fr.advance 1).write dst v.toRt = .ok (fr.put dst v.toRt) := write_eq hdst _
  simp [answer, hwrite, bind, Except.bind]

/-- The frame of a call. -/
def newFrame (func : BytecodeFunc) (name : String) (args : List VmValue) (returnReg : Nat) :
    Frame where
  registers := fillRegisters (List.replicate func.registerCount (some .nil)) (args.map some)
  funcName := name
  ip := 0
  returnReg := returnReg
  matchFlag := false
  moved := List.replicate func.registerCount false
  func := func

variable (fr rest depth world) in
/-- A function that is found is entered, or there are too many frames. -/
theorem enter_eq {name : String} {func : BytecodeFunc} (hlookup : m.lookup name = some func)
    (args : List VmValue) (dst : Nat) :
    m.enter name (args.map some) dst fr rest depth world =
        .ok (.running ⟨newFrame func name args dst :: fr :: rest, depth + 1, world⟩) ∨
      m.enter name (args.map some) dst fr rest depth world =
        .error (.error (.stackOverflow m.maxCallDepth)) := by
  simp only [enter, pushFrame, hlookup]
  split
  · exact Or.inr rfl
  · exact Or.inl rfl

/-- A name that no function has is an undefined symbol. -/
theorem enter_undefined {name : String} (hlookup : m.lookup name = none)
    (args : List (Option VmValue)) (dst : Nat) :
    m.enter name args dst fr rest depth world = .error (.error (.undefinedSymbol name)) := by
  simp only [enter, pushFrame, hlookup]
  rfl

/-- The arguments are the first registers of the new frame. -/
theorem fillRegisters_getElem? {α : Type} {regs args : List α} (hle : args.length ≤ regs.length)
    {i : Nat} {v : α} (hv : args[i]? = some v) : (fillRegisters regs args)[i]? = some v := by
  induction regs generalizing args i with
  | nil =>
    obtain rfl := List.length_eq_zero_iff.mp (Nat.le_zero.mp hle)
    simp at hv
  | cons r regs ih =>
    cases args with
    | nil => simp at hv
    | cons arg args =>
      cases i with
      | zero => simpa [fillRegisters] using hv
      | succ i => exact ih (Nat.le_of_succ_le_succ hle) hv

/-- A return puts its value where the caller wants it. -/
theorem step_ret_caller {caller : Frame}
    (hinstr : fr.func.instructions[fr.ip]? = some ⟨.ret, dst, a, b⟩) (hx : fr.Holds a x)
    (hreturn : fr.returnReg < caller.registers.length) :
    m.step ⟨fr :: caller.advance 1 :: rest, depth + 1, world⟩ =
      .ok (.running ⟨caller.put fr.returnReg x :: rest, depth, world⟩) := by
  have hwrite : (caller.advance 1).setPointer fr.returnReg (some x) =
      .ok (caller.put fr.returnReg x) :=
    write_eq hreturn _
  rw [step_ret _ _ _ hinstr hx]
  simp [popFrame, hwrite, bind, Except.bind]

variable (rest depth world) in
/-- The element that a list pattern reads. -/
theorem step_callBuiltin_at {items : List VmValue} {i : Nat}
    (hinstr : fr.func.instructions[fr.ip]? = some ⟨.callBuiltin, dst, a, 2⟩)
    (hconst : fr.func.constants[a]? = some (.str "at")) (hdst : dst < fr.registers.length)
    (hlist : fr.Holds (dst + 1) (.list items)) (hindex : fr.Holds (dst + 2) (.int (.ofNat i)))
    (hfits : i < 0x8000000000000000) (hitem : items[i]? = some x) :
    m.step ⟨fr :: rest, depth, world⟩ =
      .ok (.running ⟨fr.put dst x.toRt :: rest, depth, world⟩) := by
  have hargs : fr.HoldsFrom (dst + 1) [.list items, .int (.ofNat i)] := by
    intro j v hj
    match j with
    | 0 => simp only [List.getElem?_cons_zero, Option.some.injEq] at hj; exact hj ▸ hlist
    | 1 => simp only [List.getElem?_cons_succ, List.getElem?_cons_zero, Option.some.injEq] at hj
           exact hj ▸ hindex
    | j + 2 => simp at hj
  have hat : airlAt [(.list items : VmValue), .int (.ofNat i)] = .ok x := by
    have hint : (Int64.ofNat i).toInt = i := Int64.toInt_ofNat_of_lt hfits
    have hneg : ¬ (Int64.ofNat i < 0) := by
      rw [Int64.lt_iff_toInt_lt, hint]
      simp
    simp [airlAt, hneg, hint, hitem]
  have hpart : builtinPartial "at" [(.list items : VmValue), .int (.ofNat i)] = none := rfl
  have hdispatch : m.dispatchNamed "at" [.list items, .int (.ofNat i)] world =
      some (.ok x, world) := by
    simp [dispatchNamed, m.builtins.known_at, m.builtins.dispatch_at, hat]
  have hderef := derefAll_some [(.list items : VmValue), .int (.ofNat i)]
  have hanswer := answer_ok rest depth hdst x world
  have hwindow : ({ fr with ip := fr.ip + 1 } : Frame).window (dst + 1) 2 =
      .ok ([.list items, .int (.ofNat i)].map some) := window_eq hargs
  simp only [step_eq hinstr, exec, stringConstant_eq _ hconst, hwindow, bind, Except.bind,
    map_orNil_some, hpart, hderef, hdispatch]
  exact hanswer

variable (rest depth world) in
/-- A closure holds the values of its captures. -/
theorem step_makeClosure {name : String} {func : BytecodeFunc} {vals : List VmValue}
    (hinstr : fr.func.instructions[fr.ip]? = some ⟨.makeClosure, dst, a, b⟩)
    (hconst : fr.func.constants[a]? = some (.str name)) (hdst : dst < fr.registers.length)
    (hlookup : m.lookup name = some func) (hcount : func.captureCount = vals.length)
    (hrange : b + vals.length ≤ fr.registers.length) (hvals : fr.HoldsFrom b vals) :
    m.step ⟨fr :: rest, depth, world⟩ =
      .ok (.running ⟨fr.put dst (Value.bytecodeClosure name vals).toRt :: rest, depth, world⟩) := by
  simp only [step_eq hinstr, exec, stringConstant_eq _ hconst, hlookup, hcount, window_eq hvals,
    bind, Except.bind, map_orNil_some]
  rw [if_neg (by simpa using hrange)]
  simp [write_eq hdst]

end Machine

/-! ## Inline-safe instructions -/

/-- The opcodes on which the main loop and the inline evaluator cannot differ. -/
def sameInline (op : Op) : Bool :=
  match op with
  | .loadConst | .callBuiltin | .mod | .eq | .ne | .lt | .le | .gt | .ge => false
  | .markMoved | .checkNotMoved | .release => false
  | _ => true

/-- An operation that both evaluators share is safe inline. -/
theorem Frame.inlineSafe_of_op {fr : Frame} {instr : Instruction}
    (h : sameInline instr.op = true) : fr.InlineSafe instr := by
  refine ⟨fun hop => by simp [hop, sameInline] at h, ?_, fun {x y} _ _ => ?_⟩
  · refine ⟨?_, ?_, ?_, ?_⟩ <;> intro hop <;> simp [hop, sameInline] at h
  cases hop : instr.op <;> rw [hop] at h <;> first | rfl | simp [sameInline] at h

variable {m : Machine World} {inline : Bool} {fr : Frame} {rest : List Frame} {depth : Nat}
  {world : World} {vm : Vm World}

theorem Vm.inlineSafe_of_instr {instr : Instruction}
    (hinstr : fr.func.instructions[fr.ip]? = some instr) (h : fr.InlineSafe instr) :
    (⟨fr :: rest, depth, world⟩ : Vm World).InlineSafe := by
  intro fr' rest' instr' hstack hinstr'
  obtain ⟨rfl, rfl⟩ := List.cons.inj hstack
  obtain rfl : instr = instr' := Option.some.inj (hinstr.symm.trans hinstr')
  exact h

/-- A step of the machine is one of the host. -/
theorem Machine.host_step {op : Op} {dst a b : Nat}
    (hinstr : fr.func.instructions[fr.ip]? = some ⟨op, dst, a, b⟩) (hop : sameInline op = true)
    (hstep : m.step ⟨fr :: rest, depth, world⟩ = .ok (.running vm)) :
    (m.host inline).step ⟨fr :: rest, depth, world⟩ vm :=
  ⟨hstep, fun _ => Vm.inlineSafe_of_instr hinstr (Frame.inlineSafe_of_op hop)⟩

/-- A failure of the machine ends the host. -/
theorem Machine.host_halt {op : Op} {dst a b : Nat} {f : Fault}
    (hinstr : fr.func.instructions[fr.ip]? = some ⟨op, dst, a, b⟩) (hop : sameInline op = true)
    (hstep : m.step ⟨fr :: rest, depth, world⟩ = .error f) :
    (m.host inline).halt ⟨fr :: rest, depth, world⟩ (.error f) := by
  refine ⟨?_, fun _ => Vm.inlineSafe_of_instr hinstr (Frame.inlineSafe_of_op hop)⟩
  unfold Machine.halts
  rw [hstep]

end Airl
