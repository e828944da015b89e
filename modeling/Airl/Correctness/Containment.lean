import Airl.Correctness.Jumps
import Airl.Correctness.Output
import Airl.Correctness.Safety

/-! # A compiled program stays in its code

A pass goes on behind an instruction that is no return, at the target of a jump or at the
start of a function, and the compiler ends every function with its only return. So
wherever a run of a compiled program stands, every frame has a next instruction, and all
operands of that are in range.
-/

namespace Airl

open Relation (ReflTransGen)

variable {World : Type}

/-- The frame has a next instruction. -/
def Frame.InCode (fr : Frame) : Prop := fr.ip < fr.func.instructions.length

theorem Frame.inCode_jumpBy {fr : Frame} {operand : Nat} : (fr.jumpBy operand).InCode ↔
    jumpTarget fr.ip operand < fr.func.instructions.length := by
  rw [InCode, jumpBy]

def Vm.Contained (vm : Vm World) : Prop := ∀ fr ∈ vm.callStack, fr.InCode

def Next.Contained : Next World → Prop
  | .running vm => vm.Contained
  | .finished _ _ => True

/-- Only a return is last, and every jump lands inside. -/
structure BytecodeFunc.Closed (f : BytecodeFunc) : Prop where
  starts : 0 < f.instructions.length
  goesOn : ∀ i instr, f.instructions[i]? = some instr → instr.op ≠ .ret →
    i + 1 < f.instructions.length
  lands : ∀ i instr, f.instructions[i]? = some instr → instr.op.isJump = true →
    jumpTarget (i + 1) instr.jumpOperand < f.instructions.length

namespace Machine

/-- A pass that does not fail leaves every frame in its code. -/
def Contains (r : Except Fault (Next World)) : Prop := Ends (fun _ => True) Next.Contained r

section Passes

variable {m : Machine World} {fr : Frame} {rest : List Frame} {depth dst : Nat} {world : World}

theorem contains_bind {α : Type} {r : Except Fault α} {k : α → Except Fault (Next World)}
    (h : ∀ a, Contains (k a)) : Contains (r >>= k) := by
  cases r with
  | ok a => exact h a
  | error f => trivial

variable (hm : ∀ f ∈ m.functions, f.Closed) (hrest : ∀ g ∈ rest, g.InCode) (h : fr.InCode)

include hrest h

theorem contains_frame : @Contains World (.ok (.running ⟨fr :: rest, depth, world⟩)) :=
  List.forall_mem_cons.mpr ⟨h, hrest⟩

theorem contains_setPointer {p : Option VmValue} {k : Frame → Frame}
    (hk : ∀ fr, (k fr).func = fr.func ∧ (k fr).ip = fr.ip) : @Contains World
      (do let fr' ← fr.setPointer dst p; .ok (.running ⟨k fr' :: rest, depth, world⟩)) := by
  apply (fr.setPointer_ends dst p).bind (fun _ _ => trivial)
  rintro fr' rfl
  obtain ⟨hfunc, hip⟩ := hk { fr with registers := fr.registers.set dst p }
  refine contains_frame hrest ?_
  rw [Frame.InCode, hfunc, hip]
  exact h

theorem contains_put {v : VmValue} : @Contains World
    (do let fr' ← fr.write dst v; .ok (.running ⟨fr' :: rest, depth, world⟩)) :=
  contains_setPointer hrest h (k := id) fun _ => ⟨rfl, rfl⟩

theorem contains_answer {r : Except Fault VmValue × World} :
    Contains (answer r dst fr rest depth) :=
  contains_bind fun _ => contains_put hrest h

include hm

theorem contains_enter {name : String} {args : List (Option VmValue)} :
    Contains (m.enter name args dst fr rest depth world) := by
  unfold enter pushFrame
  split
  next => trivial
  next func hlookup =>
    have hstarts : 0 < func.instructions.length := (hm func (lookup_mem hlookup)).starts
    split_ifs
    · trivial
    · exact List.forall_mem_cons.mpr ⟨hstarts, List.forall_mem_cons.mpr ⟨h, hrest⟩⟩

theorem contains_callNamed {name : String} {ps : List (Option VmValue)} :
    Contains (m.callNamed name ps dst fr rest depth world) := by
  unfold callNamed
  split
  next => exact contains_put hrest h
  split
  next => exact contains_put hrest h
  split
  next =>
    refine contains_bind fun args => ?_
    split
    next => exact contains_answer hrest h
    next => trivial
  next => exact contains_enter hm hrest h

theorem contains_dispatch {name : String} {args : List VmValue} : Contains
    (match m.dispatchNamed name (args.map Value.toRt) world with
      | some r => answer r dst fr rest depth
      | none => m.enter name (args.map fun v => some v.toRt) dst fr rest depth world) := by
  split
  next => exact contains_answer hrest h
  next => exact contains_enter hm hrest h

theorem contains_callValue {callee : VmValue} {args : List VmValue} :
    Contains (m.callValue callee args dst fr rest depth world) := by
  unfold callValue
  split
  next name captured args _ =>
    cases hlookup : m.lookup name with
    | none =>
      dsimp only
      split_ifs
      · exact contains_put hrest h
      · trivial
      · exact contains_enter hm hrest h
    | some func =>
      dsimp only
      split_ifs
      · exact contains_put hrest h
      · trivial
      · exact contains_answer hrest h
      · exact contains_enter hm hrest h
  next =>
    split
    next => exact contains_put hrest h
    next => exact contains_dispatch hm hrest h
  next =>
    split
    next => exact contains_put hrest h
    next => exact contains_dispatch hm hrest h
  next => trivial

omit hm h

theorem contains_popFrame {result : Option VmValue} :
    Contains (popFrame result dst rest depth world) := by
  unfold popFrame
  split
  next => trivial
  next caller callers =>
    obtain ⟨hcaller, hcallers⟩ := List.forall_mem_cons.mp hrest
    exact contains_setPointer hcallers hcaller (k := id) fun _ => ⟨rfl, rfl⟩

/-- Every opcode, where `fr` is past it: behind a return nothing is asked of the frame. -/
theorem contains_exec (instr : Instruction) (hm : ∀ f ∈ m.functions, f.Closed)
    (h : instr.op ≠ .ret → fr.InCode) (hstart : 0 < fr.func.instructions.length)
    (hjump : instr.op.isJump = true → (fr.jumpBy instr.jumpOperand).InCode) :
    Contains (m.exec instr fr rest depth world) := by
  obtain ⟨op, dst, a, b⟩ := instr
  cases op with
  | loadConst => exact contains_bind fun _ => contains_put hrest (h (by simp))
  | loadNil | loadTrue | loadFalse => exact contains_put hrest (h (by simp))
  | move =>
    exact contains_bind fun _ =>
      contains_setPointer hrest (h (by simp)) (k := id) fun _ => ⟨rfl, rfl⟩
  | not | neg =>
    exact contains_bind fun _ => contains_bind fun _ => contains_put hrest (h (by simp))
  | add | sub | mul | div | mod | eq | ne | lt | le | gt | ge =>
    refine contains_bind fun x => contains_bind fun y => ?_
    exact contains_bind fun _ => contains_put hrest (h (by simp))
  | jump => exact contains_frame hrest (hjump rfl)
  | jumpIfFalse | jumpIfTrue =>
    refine contains_bind fun p => ?_
    dsimp only
    split
    · exact contains_frame hrest (hjump rfl)
    · exact contains_frame hrest (h (by simp))
  | makeList =>
    exact contains_bind fun _ => contains_bind fun _ => contains_put hrest (h (by simp))
  | makeVariant =>
    exact contains_bind fun _ => contains_bind fun _ => contains_put hrest (h (by simp))
  | makeVariant0 => exact contains_bind fun _ => contains_put hrest (h (by simp))
  | matchTag =>
    refine contains_bind fun tag => contains_bind fun v => ?_
    split
    next =>
      split
      · exact contains_setPointer hrest (h (by simp)) fun _ => ⟨rfl, rfl⟩
      · exact contains_frame hrest (h (by simp))
    next => exact contains_frame hrest (h (by simp))
  | jumpIfNoMatch =>
    simp only [exec]
    split
    · exact contains_frame hrest (h (by simp))
    · exact contains_frame hrest (hjump rfl)
  | matchWild =>
    exact contains_bind fun _ => contains_setPointer hrest (h (by simp)) fun _ => ⟨rfl, rfl⟩
  | tryUnwrap =>
    refine contains_bind fun v => ?_
    split
    · exact contains_put hrest (h (by simp))
    · trivial
    · trivial
  | assertRequires | assertEnsures | assertInvariant =>
    refine contains_bind fun p => ?_
    split
    · exact contains_frame hrest (h (by simp))
    · trivial
  | checkNotMoved =>
    simp only [exec]
    split
    · trivial
    · exact contains_frame hrest (h (by simp))
  | call =>
    exact contains_bind fun _ => contains_bind fun _ => contains_callNamed hm hrest (h (by simp))
  | callBuiltin =>
    refine contains_bind fun name => contains_bind fun ps => ?_
    split
    next => exact contains_put hrest (h (by simp))
    next =>
      refine contains_bind fun args => ?_
      split
      next => exact contains_answer hrest (h (by simp))
      next => trivial
  | callReg =>
    exact contains_bind fun _ => contains_bind fun _ => contains_callValue hm hrest (h (by simp))
  | tailCall => exact contains_frame hrest hstart
  | ret => exact contains_bind fun _ => contains_popFrame hrest
  | markMoved | release => exact contains_frame hrest (h (by simp))
  | makeClosure =>
    refine contains_bind fun name => ?_
    dsimp only
    split_ifs
    · trivial
    · exact contains_bind fun _ => contains_put hrest (h (by simp))

end Passes

variable {m : Machine World} {vm vm' : Vm World}

theorem advances_contained (hm : ∀ f ∈ m.functions, f.Closed) (hwf : vm.WellFormed m)
    (hvm : vm.Contained) (h : m.Advances vm vm') : vm'.Contained := by
  obtain ⟨_ | ⟨fr, rest⟩, depth, world⟩ := vm
  · exact nomatch h
  obtain ⟨hfr, hrest⟩ := List.forall_mem_cons.mp hvm
  have hclosed := hm fr.func (hwf.functions fr List.mem_cons_self).1
  obtain ⟨instr, hinstr⟩ : ∃ instr, fr.func.instructions[fr.ip]? = some instr :=
    ⟨_, List.getElem?_eq_getElem hfr⟩
  -- the frame is past `instr` already, so its jump starts one further on
  have hjump : instr.op.isJump = true →
      (({ fr with ip := fr.ip + 1 } : Frame).jumpBy instr.jumpOperand).InCode :=
    fun hop => Frame.inCode_jumpBy.mpr (hclosed.lands _ _ hinstr hop)
  have hexec : Contains (m.exec instr { fr with ip := fr.ip + 1 } rest depth world) :=
    contains_exec hrest instr hm (hclosed.goesOn _ _ hinstr) hclosed.starts hjump
  exact hexec.of_eq_ok ((step_eq hinstr).symm.trans h)

theorem Comes.contained (h : m.Comes vm) (hm : ∀ f ∈ m.functions, f.Closed)
    (hvalid : ∀ f ∈ m.functions, f.valid = true) : vm.Contained := by
  obtain ⟨name, args, world, vm₀, hstart, hreach⟩ := h
  induction hreach with
  | refl =>
    unfold start pushFrame at hstart
    split at hstart
    next => exact nomatch hstart
    next func hlookup =>
      split_ifs at hstart
      cases hstart
      exact List.forall_mem_singleton.mpr (hm func (lookup_mem hlookup)).starts
  | tail hreach hstep ih =>
    have hwf := reaches_wellFormed hvalid (start_wellFormed hstart) hreach
    exact advances_contained hm hwf ih hstep

end Machine

/-- What a source yields ends with its only return, and its jumps land inside if it is short. -/
theorem Source.Yields.closed {src : Source} {lambdas : List BytecodeFunc} {f : BytecodeFunc}
    (h : src.Yields lambdas f) (hshort : f.instructions.length ≤ 32768) : f.Closed := by
  obtain ⟨code, dst, hcode, hpatched⟩ := src.patched
  rw [← h.instructions] at hcode
  have hlength : f.instructions.length = code.length + 1 := by
    rw [hcode, List.length_append, List.length_singleton]
  refine ⟨by omega, fun i instr hinstr hret => ?_, (h.lands_iff (by omega)).mpr fun p hp => ?_⟩
  · have hi := (List.getElem?_eq_some_iff.mp hinstr).1
    rcases Nat.lt_or_ge i code.length with hlt | hge
    · omega
    -- behind `code` stands the return and nothing else
    · obtain rfl : i = code.length := by omega
      rw [hcode, List.getElem?_concat_length] at hinstr
      exact absurd (Option.some.inj hinstr ▸ rfl) hret
  · obtain ⟨hlt, hle, -⟩ := hpatched.patched p hp
    -- up to 32768 instructions an offset is its own 16-bit value
    unfold Patch.Inside Patch.distance asI16 toU16
    split_ifs <;> omega

section Programs

variable {s : Compiler} {nodes : List IRNode} {contracts : String → Option Contracts}
  {vmBuiltins : Builtins String World} {maxCallDepth : Nat} {vm : Vm World}

/-- In every run of every function of a compiled program none of whose functions is longer than
32768 instructions or needs more registers than a `u16` counts: the validator lets the program
pass, each frame has a next instruction with all operands in range, and a pass fails by a
`RuntimeError` or by a mishap. -/
theorem compiled_run_contained (hs : s.compiledLambdas = [])
    (hreturns : (compileProgramWithContracts s nodes contracts).panicked = false)
    (hshort : ∀ f ∈ (compileProgramWithContracts s nodes contracts).functions ++
      [(compileProgramWithContracts s nodes contracts).main],
        f.instructions.length ≤ 32768 ∧ f.registerCount ≤ 65535)
    (h : (compiledMachine s nodes contracts vmBuiltins maxCallDepth).Comes vm) :
    (compiledMachine s nodes contracts vmBuiltins maxCallDepth).functions.all
        BytecodeFunc.valid = true ∧
      vm.Contained ∧ vm.InRange ∧
        ∀ f, (compiledMachine s nodes contracts vmBuiltins maxCallDepth).step vm = .error f →
          f.IsError ∨
            (compiledMachine s nodes contracts vmBuiltins maxCallDepth).MeetsMishap vm f := by
  have hcompiled : ∀ f ∈ (compiledMachine s nodes contracts vmBuiltins maxCallDepth).functions,
      f.valid = true ∧ f.Closed := by
    intro f hf
    have hmem := mem_loaded hf
    obtain ⟨src, hsrc, -⟩ := compileProgram_sourced hs nodes contracts hreturns hmem
    exact ⟨hsrc.valid, hsrc.closed (hshort f hmem).1⟩
  have hvalid := fun f hf => (hcompiled f hf).1
  have hwf := h.wellFormed hvalid
  refine ⟨List.all_eq_true.mpr hvalid, h.contained (fun f hf => (hcompiled f hf).2) hvalid, ?_,
    fun f hf => Machine.wellFormed_fails hvalid hwf h.ne_nil hf⟩
  intro fr rest instr hstack hinstr
  exact Machine.wellFormed_operands hvalid hwf hstack hinstr

end Programs

/-- `(inc 41)` before its first instruction. -/
theorem increment_contained : ∃ vm : Vm Unit,
    (compiledMachine {} increment (fun _ => none) atBuiltins 100).Comes vm ∧ vm.Contained := by
  have hstart : ∃ vm, (compiledMachine {} increment (fun _ => none) atBuiltins 100).start
      "__main__" [] () = .ok vm := ⟨_, rfl⟩
  obtain ⟨vm, hstart⟩ := hstart
  have hcomes : (compiledMachine {} increment (fun _ => none) atBuiltins 100).Comes vm :=
    ⟨_, _, _, vm, hstart, .refl⟩
  exact ⟨vm, hcomes, (compiled_run_contained rfl (by decide) (by decide) hcomes).2.1⟩

end Airl
