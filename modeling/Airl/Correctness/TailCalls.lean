import Airl.Bytecode.Registers
import Airl.Correctness.Lifting

/-! # Self tail calls

`Op::TailCall` starts the body again in the frame it has. An ordinary call of
the same function starts it in a new frame above. The two activations are twins:
they know the arguments and differ in what the old frame left behind.
-/

namespace Airl

open Relation (ReflTransGen)

variable {World : Type}

/-! ## The two ways to call -/

section Moves

variable {m : Machine World} {stop : Vm World → Option VmValue → Prop} {rest : List Frame}
  {depth : Nat} {world : World}

/-- The frame with other registers, at another position. -/
def Frame.movedOn (fr : Frame) (registers : List (Option VmValue)) (ip : Nat) : Frame :=
  { fr with registers := registers, ip := ip }

variable (stop rest depth world) in
/-- Moving the arguments changes nothing outside the window. -/
theorem moveToSlots_quiet {slot hi : Nat} {regs : List Nat} {vals : List VmValue} {fr : Frame}
    (hasc : Ascending slot regs hi) (hhi : hi ≤ fr.registers.length)
    (hholds : fr.HoldsAll regs vals)
    (hcode : CodeAt fr.func.instructions fr.ip (moveToSlots slot regs))
    (hstop : ∀ (fr₁ : Frame) p, fr₁.func = fr.func → fr.ip ≤ fr₁.ip →
      fr₁.ip < fr.ip + (moveToSlots slot regs).length → ¬ stop ⟨fr₁ :: rest, depth, world⟩ p) :
    ∃ registers, ReflTransGen (m.Quiet stop) ⟨fr :: rest, depth, world⟩
        ⟨fr.movedOn registers (fr.ip + (moveToSlots slot regs).length) :: rest, depth, world⟩ ∧
      registers.length = fr.registers.length ∧
      (∀ r, r < slot ∨ slot + regs.length ≤ r → registers[r]? = fr.registers[r]?) ∧
      ∀ i v, vals[i]? = some v → registers[slot + i]? = some (some v) := by
  induction regs generalizing slot vals fr with
  | nil =>
    cases hholds
    exact ⟨fr.registers, .refl, rfl, fun _ _ => rfl, by simp⟩
  | cons r regs ih =>
    obtain ⟨hle, hrest⟩ := hasc
    have hbound := hrest.lo_le
    cases hholds with
    | @cons _ v _ vals hv hvals =>
    have hlt : slot < fr.registers.length := by omega
    have hset : (fr.registers.set slot (some v)).length = fr.registers.length := List.length_set
    -- the first value is in its slot after one move, or without
    have hfirst : ReflTransGen (m.Quiet stop) ⟨fr :: rest, depth, world⟩
        ⟨fr.movedOn (fr.registers.set slot (some v))
          (fr.ip + (if r ≠ slot then [(⟨.move, slot, r, 0⟩ : Instruction)] else []).length) :: rest,
          depth, world⟩ := by
      by_cases hne : r ≠ slot
      · rw [if_pos hne]
        have hinstr := hcode.left
        rw [if_pos hne] at hinstr
        refine .single ⟨fun p => hstop fr p rfl le_rfl ?_, ?_⟩
        · rw [moveToSlots, if_pos hne]
          simp
        · exact Machine.step_move rest depth world hinstr.head hlt hv
      · obtain rfl := not_not.mp hne
        have hsame : fr.registers.set r (some v) = fr.registers := by
          apply List.ext_getElem?
          intro i
          by_cases heq : r = i
          · rw [← heq, List.getElem?_set_self hlt, hv]
          · rw [List.getElem?_set_ne heq]
        rw [hsame]
        simp only [ne_eq, not_true_eq_false, if_false, List.length_nil, Nat.add_zero]
        exact .refl
    generalize hfr₁ : fr.movedOn (fr.registers.set slot (some v)) (fr.ip +
      (if r ≠ slot then [(⟨.move, slot, r, 0⟩ : Instruction)] else []).length) = fr₁ at hfirst
    have hregisters : fr₁.registers = fr.registers.set slot (some v) := hfr₁ ▸ rfl
    have hip : fr₁.ip + (moveToSlots (slot + 1) regs).length =
        fr.ip + (moveToSlots slot (r :: regs)).length := by
      rw [← hfr₁, moveToSlots, List.length_append, ← Nat.add_assoc]
      rfl
    have hholds₁ : fr₁.HoldsAll regs vals := by
      refine Frame.HoldsAll.imp hvals fun r' hr' v' h' => ?_
      have hge := hrest.le_of_mem r' hr'
      unfold Frame.Holds
      rw [hregisters, List.getElem?_set_ne (by omega)]
      exact h'
    have hcode₁ : CodeAt fr₁.func.instructions fr₁.ip (moveToSlots (slot + 1) regs) := by
      rw [moveToSlots] at hcode
      exact hfr₁ ▸ hcode.right
    have hfunc : fr₁.func = fr.func := hfr₁ ▸ rfl
    have hle₁ : fr.ip ≤ fr₁.ip := hfr₁ ▸ Nat.le_add_right _ _
    obtain ⟨registers, hreach, hlength, hothers, hslots⟩ := ih (hrest.lower (by omega))
      (by rw [hregisters, hset]; exact hhi) hholds₁ hcode₁ (fun fr₂ p hfunc₂ hlow hhigh =>
        hstop fr₂ p (hfunc₂.trans hfunc) (hle₁.trans hlow) (hip ▸ hhigh))
    refine ⟨registers, hfirst.trans ?_, by rw [hlength, hregisters, hset], fun r' hr' => ?_, ?_⟩
    · rw [hip, ← hfr₁] at hreach
      rw [← hfr₁]
      exact hreach
    · rw [List.length_cons] at hr'
      rw [hothers r' (by omega), hregisters, List.getElem?_set_ne (by omega)]
    · intro i w hw
      cases i with
      | zero =>
        obtain rfl : v = w := by simpa using hw
        rw [Nat.add_zero, hothers slot (by omega), hregisters, List.getElem?_set_self hlt]
      | succ i =>
        have hnext := hslots i w hw
        rwa [show slot + 1 + i = slot + (i + 1) by omega] at hnext

variable (stop rest depth world) in
/-- Checks of registers that were not moved pass. -/
theorem checks_quiet {code : List Instruction} {fr : Frame}
    (hcode : CodeAt fr.func.instructions fr.ip code)
    (hops : ∀ instr ∈ code, instr.op = .checkNotMoved ∧ fr.moved[instr.a]? ≠ some true)
    (hstop : ∀ (fr₁ : Frame) p, fr₁.func = fr.func → fr.ip ≤ fr₁.ip →
      fr₁.ip < fr.ip + code.length → ¬ stop ⟨fr₁ :: rest, depth, world⟩ p) :
    ReflTransGen (m.Quiet stop) ⟨fr :: rest, depth, world⟩
      ⟨fr.movedOn fr.registers (fr.ip + code.length) :: rest, depth, world⟩ := by
  induction code generalizing fr with
  | nil => exact .refl
  | cons instr code ih =>
    obtain ⟨hop, hmoved⟩ := hops instr List.mem_cons_self
    have hstep : m.Advances ⟨fr :: rest, depth, world⟩
        ⟨fr.movedOn fr.registers (fr.ip + 1) :: rest, depth, world⟩ := by
      refine (Machine.step_eq hcode.head).trans ?_
      simp only [Machine.exec, hop, if_neg hmoved]
      rfl
    have hrest := @ih (fr.movedOn fr.registers (fr.ip + 1)) hcode.tail
      (fun instr' h => hops instr' (List.mem_cons_of_mem _ h)) fun fr₁ p hfunc hlow hhigh =>
        hstop fr₁ p hfunc (Nat.le_of_succ_le hlow) (by
          simp only [Frame.movedOn, List.length_cons] at hhigh ⊢
          omega)
    have hquiet : m.Quiet stop ⟨fr :: rest, depth, world⟩
        ⟨fr.movedOn fr.registers (fr.ip + 1) :: rest, depth, world⟩ :=
      ⟨fun p => hstop fr p rfl le_rfl (by simp), hstep⟩
    refine .head hquiet ?_
    have hip : fr.ip + (instr :: code).length = fr.ip + 1 + code.length := by
      simp only [List.length_cons]
      omega
    rw [hip]
    exact hrest

variable (stop rest depth world) in
/-- Checks and moves together, up to the call. -/
theorem slots_quiet {dst hi : Nat} {regs : List Nat} {vals : List VmValue} {fr : Frame}
    {checks : List Instruction} (hasc : Ascending (dst + 1) regs hi)
    (hhi : hi ≤ fr.registers.length)
    (hholds : fr.HoldsAll regs vals)
    (hcode : CodeAt fr.func.instructions fr.ip (moveToSlots (dst + 1) regs ++ checks))
    (hops : ∀ instr ∈ checks, instr.op = .checkNotMoved ∧ fr.moved[instr.a]? ≠ some true)
    (hstop : ∀ (fr₁ : Frame) p, fr₁.ip < fr.ip + (moveToSlots (dst + 1) regs ++ checks).length →
      ¬ stop ⟨fr₁ :: rest, depth, world⟩ p) :
    ∃ fr', ReflTransGen (m.Quiet stop) ⟨fr :: rest, depth, world⟩ ⟨fr' :: rest, depth, world⟩ ∧
      fr'.func = fr.func ∧ fr'.ip = fr.ip + (moveToSlots (dst + 1) regs ++ checks).length ∧
      fr'.registers.length = fr.registers.length ∧ fr'.HoldsFrom (dst + 1) vals := by
  rw [List.length_append] at hstop ⊢
  obtain ⟨registers, hquiet, hlength, -, hslots⟩ := moveToSlots_quiet (m := m) stop rest depth world
    hasc hhi hholds hcode.left fun fr₁ p _ _ hhigh => hstop fr₁ p (by omega)
  obtain ⟨fr₁, hfr₁⟩ : ∃ fr₁, fr₁ = fr.movedOn registers
    (fr.ip + (moveToSlots (dst + 1) regs).length) := ⟨_, rfl⟩
  rw [← hfr₁] at hquiet
  have hip : fr₁.ip = fr.ip + (moveToSlots (dst + 1) regs).length := hfr₁ ▸ rfl
  have hchecks : CodeAt fr₁.func.instructions fr₁.ip checks := by
    rw [hip, hfr₁]
    exact hcode.right
  have hquiet' := checks_quiet (m := m) stop rest depth world hchecks (by rw [hfr₁]; exact hops)
    fun fr₂ p _ _ hhigh => hstop fr₂ p (by omega)
  refine ⟨_, hquiet.trans hquiet', by rw [hfr₁]; rfl, ?_, by rw [hfr₁]; exact hlength, ?_⟩
  · show fr₁.ip + checks.length = _
    omega
  · rw [hfr₁]
    exact fun i v hv => hslots i v hv

variable (stop rest depth world) in
/-- Marking moved registers changes nothing but the marks. -/
theorem marks_quiet {code : List Instruction} (fr : Frame)
    (hcode : CodeAt fr.func.instructions fr.ip code) (hops : ∀ instr ∈ code, instr.op = .markMoved)
    (hstop : ∀ (fr₁ : Frame) p, fr₁.func = fr.func → fr.ip ≤ fr₁.ip →
      fr₁.ip < fr.ip + code.length → ¬ stop ⟨fr₁ :: rest, depth, world⟩ p) :
    ∃ moved, ReflTransGen (m.Quiet stop) ⟨fr :: rest, depth, world⟩
      ⟨{ fr with moved := moved, ip := fr.ip + code.length } :: rest, depth, world⟩ := by
  induction code generalizing fr with
  | nil => exact ⟨fr.moved, .refl⟩
  | cons instr code ih =>
    have hstep : m.Advances ⟨fr :: rest, depth, world⟩
        ⟨{ fr with moved := fr.moved.set instr.a true, ip := fr.ip + 1 } :: rest,
          depth, world⟩ := by
      refine (Machine.step_eq hcode.head).trans ?_
      simp only [Machine.exec, hops instr List.mem_cons_self]
    obtain ⟨moved, hrest⟩ := @ih
      { fr with moved := fr.moved.set instr.a true, ip := fr.ip + 1 } hcode.tail
      (fun instr' h => hops instr' (List.mem_cons_of_mem _ h)) fun fr₁ p hfunc hlow hhigh =>
        hstop fr₁ p hfunc (Nat.le_of_succ_le hlow) (by
          simp only [List.length_cons] at hhigh ⊢
          omega)
    have hquiet : m.Quiet stop ⟨fr :: rest, depth, world⟩
        ⟨{ fr with moved := fr.moved.set instr.a true, ip := fr.ip + 1 } :: rest, depth, world⟩ :=
      ⟨fun p => hstop fr p rfl le_rfl (by simp), hstep⟩
    refine ⟨moved, .head hquiet ?_⟩
    have hip : fr.ip + (instr :: code).length = fr.ip + 1 + code.length := by
      simp only [List.length_cons]
      omega
    rw [hip]
    exact hrest

end Moves

/-! ## What the machine keeps in order -/

/-- Every frame has a move flag for each register of its function. -/
def Vm.Flagged (vm : Vm World) : Prop :=
  ∀ fr ∈ vm.callStack, fr.moved.length = fr.func.registerCount

namespace Machine

variable {m : Machine World} {vm vm' : Vm World}

/-- Every frame has a mark for each register at the start. -/
theorem start_flagged {name : String} {args : List VmValue} {world : World}
    (h : m.start name args world = .ok vm) : vm.Flagged := by
  unfold start pushFrame at h
  split at h
  next => exact nomatch h
  next func _ =>
    split_ifs at h
    cases h
    intro fr hfr
    obtain rfl := List.mem_singleton.mp hfr
    exact List.length_replicate

/-- And after every step. -/
theorem advances_flagged (hvm : vm.Flagged) (h : m.Advances vm vm') : vm'.Flagged := by
  obtain ⟨_ | ⟨fr, rest⟩, depth, world⟩ := vm
  · cases h
  have hfr := hvm fr List.mem_cons_self
  have hrest : ∀ g ∈ rest, g.moved.length = g.func.registerCount := fun g hg =>
    hvm g (List.mem_cons_of_mem _ hg)
  intro g hg
  cases passage h with
  | stays hfunc _ hmoved hstack =>
    rw [hstack] at hg
    rcases List.mem_cons.mp hg with rfl | hg
    · rw [hmoved, hfunc, hfr]
    · exact hrest g hg
  | enters hmoved hstack =>
    rw [hstack] at hg
    rcases List.mem_cons.mp hg with rfl | hg
    · exact hmoved
    · rcases List.mem_cons.mp hg with rfl | hg
      · exact hfr
      · exact hrest g hg
  | returns _ hpop =>
    cases rest with
    | nil => cases hpop
    | cons caller callers =>
      simp only [popFrame, Frame.setPointer] at hpop
      split at hpop
      next =>
        obtain rfl := Next.running.inj (Except.ok.inj hpop)
        rcases List.mem_cons.mp hg with rfl | hg
        · exact hrest caller List.mem_cons_self
        · exact hrest g (List.mem_cons_of_mem _ hg)
      next => cases hpop

/-- And in every state a run comes to. -/
theorem Comes.flagged (h : m.Comes vm) : vm.Flagged := by
  obtain ⟨name, args, world, vm₀, hstart, hreach⟩ := h
  induction hreach with
  | refl => exact start_flagged hstart
  | tail _ hstep ih => exact advances_flagged ih hstep

/-- In every state a run comes to, the depth counts the frames. -/
theorem Comes.balanced (h : m.Comes vm) : vm.Balanced := by
  obtain ⟨name, args, world, vm₀, hstart, hreach⟩ := h
  exact reaches_balanced (pushFrame_balanced (show Vm.Balanced ⟨[], 0, world⟩ from rfl)
    hstart) hreach

end Machine

/-! ## The code of the two calls -/

/-- The call takes over no argument that is moved already, or borrowed by the same call. -/
def Frame.MayMove (fr : Frame) (s : Compiler) (name : String) (args : List IRNode) : Prop :=
  ∀ flags, s.ownershipMap name = some flags →
    ∀ r ∈ regsWithFlag true flags (args.map (argSourceReg s)),
      fr.moved[r]? ≠ some true ∧ r ∉ regsWithFlag false flags (args.map (argSourceReg s))

/-- The checks of owned arguments are checks. -/
theorem ownChecks_checks (flags : List Bool) (sources : List (Option Nat)) (args : List IRNode)
    (s : Compiler) : ∀ instr ∈ (ownChecks flags sources args s).code,
      instr.op = .checkNotMoved ∧ instr.a ∈ regsWithFlag true flags sources := by
  intro instr h
  fun_induction ownChecks flags sources args s with
  | case1 flags reg sources arg args s name idx rest ih =>
    rw [regsWithFlag, if_pos rfl]
    rcases List.mem_cons.mp h with rfl | h
    · exact ⟨rfl, List.mem_cons_self⟩
    · exact (ih h).imp_right (List.mem_cons_of_mem _)
  | case2 flag flags source sources arg args s _ ih =>
    obtain ⟨hop, hmem⟩ := ih h
    refine ⟨hop, ?_⟩
    cases source with
    | none => exact hmem
    | some reg =>
      rw [regsWithFlag]
      split
      · exact List.mem_cons_of_mem _ hmem
      · exact hmem
  | case3 => cases h

theorem moveToSlots_op {slot : Nat} {regs : List Nat} :
    ∀ instr ∈ moveToSlots slot regs, instr.op = .move := by
  induction regs generalizing slot with
  | nil =>
    intro instr h
    cases h
  | cons r regs ih =>
    intro instr h
    rw [moveToSlots] at h
    rcases List.mem_append.mp h with h | h
    · split at h
      · rw [List.mem_singleton.mp h]
      · cases h
    · exact ih instr h

/-- What a general call consists of. -/
theorem generalCall_parts {name : String} {args : List IRNode} (dst : Nat) {s : Compiler}
    (all : EmittedArgs) {fr : Frame} (hlocal : s.locals name = none)
    (hown : fr.MayMove s name args) :
    ∃ checks marks idx, (generalCall name args dst s all).code =
        all.code ++ (moveToSlots (dst + 1) all.regs ++ checks ++
          ⟨.call, dst, idx, args.length⟩ :: marks) ∧
      (generalCall name args dst s all).state.constants[idx]? = some (.str name) ∧
      (∀ instr ∈ checks, instr.op = .checkNotMoved ∧ fr.moved[instr.a]? ≠ some true) ∧
      ∀ instr ∈ marks, instr.op = .markMoved := by
  cases hflags : s.ownershipMap name with
  | none =>
    refine ⟨[], [], (all.state.reserveSlots dst args.length).constantIndex (.str name), ?_, ?_,
      List.forall_mem_nil _, List.forall_mem_nil _⟩
    · simp [generalCall, hlocal, hflags, saveCallee, emitCall]
    · simp only [generalCall, hlocal, hflags, saveCallee, emitCall, Compiler.freeRegTo]
      exact Compiler.getElem?_addConstant_str _ name
  | some flags =>
    have hsources := hown flags hflags
    -- without a conflict the checks are those of the own arguments
    have hconflicts : (regsWithFlag true flags (args.map (argSourceReg s))).dedup.filter
        (· ∈ regsWithFlag false flags (args.map (argSourceReg s))) = [] := by
      rw [List.filter_eq_nil_iff]
      intro r hr
      simpa using (hsources r (List.mem_dedup.mp hr)).2
    obtain ⟨checked, hchecked⟩ : ∃ checked, checked = ownChecks flags (args.map (argSourceReg s))
        args (all.state.reserveSlots dst args.length) := ⟨_, rfl⟩
    have hchecks : ownershipChecks flags (args.map (argSourceReg s)) args
        (all.state.reserveSlots dst args.length) = checked := by
      unfold ownershipChecks
      dsimp only
      rw [hconflicts, hchecked]
    refine ⟨checked.code, (regsWithFlag true flags (args.map (argSourceReg s))).map fun reg =>
      ⟨.markMoved, 0, reg, 0⟩, checked.state.constantIndex (.str name), ?_, ?_, fun instr h => ?_,
      fun instr h => ?_⟩
    · simp only [generalCall, hlocal, hflags, saveCallee, emitCall, hchecks, List.append_nil,
        List.append_assoc, List.singleton_append]
      rfl
    · simp only [generalCall, hlocal, hflags, saveCallee, emitCall, hchecks, Compiler.freeRegTo,
        ownershipMarks]
      exact Compiler.getElem?_addConstant_str _ name
    · obtain ⟨hop, hmem⟩ := ownChecks_checks _ _ _ _ instr (hchecked ▸ h)
      exact ⟨hop, (hsources instr.a hmem).1⟩
    · obtain ⟨r, -, rfl⟩ := List.mem_map.mp h
      rfl

/-- A call of a function by its name is a general call. -/
theorem finishCall_general {name : String} {args : List IRNode} {dst : Nat} {s : Compiler}
    {all : EmittedArgs} (h : isGeneralCall name args.length = true)
    (hlength : all.regs.length = args.length) :
    finishCall name args dst s all = generalCall name args dst s all := by
  unfold finishCall
  split
  next hop hregs =>
    simp [← hlength, hregs, isGeneralCall, hop] at h
  next hop hregs =>
    simp [← hlength, hregs, isGeneralCall, hop] at h
  next => rfl

/-- An instruction inside the code is one of it. -/
theorem CodeAt.exists_mem {instrs code : List Instruction} {pc i : Nat} (h : CodeAt instrs pc code)
    (hlow : pc ≤ i) (hhigh : i < pc + code.length) : ∃ instr ∈ code, instrs[i]? = some instr := by
  have hlt : i - pc < code.length := by omega
  have hnext := h (List.getElem?_eq_getElem hlt)
  rw [Nat.add_sub_cancel' hlow] at hnext
  exact ⟨_, List.getElem_mem hlt, hnext⟩

/-! ## The two runs -/

/-- The frame contains the emitted call from `start` on, and has evaluated its arguments. -/
structure Frame.HasArgs (fr : Frame) (start : Nat) (e : Emitted) (all : EmittedArgs)
    (vals : List VmValue) : Prop where
  code : CodeAt fr.func.instructions start e.code
  constants : e.state.constants <+: fr.func.constants
  registers : e.state.maxReg ≤ fr.registers.length
  ip : fr.ip = start + all.code.length
  args : fr.HoldsAll all.regs vals

/-- The frame after a self tail call. -/
def Frame.restart (fr : Frame) (vals : List VmValue) : Frame :=
  { fr with
    registers := fillRegisters fr.registers (vals.map some)
    ip := 0
    moved := fr.moved.map fun _ => false }

theorem fillRegisters_getElem?_ge {α : Type} {regs args : List α} {i : Nat}
    (hi : args.length ≤ i) : (fillRegisters regs args)[i]? = regs[i]? := by
  induction regs generalizing args i with
  | nil =>
    cases args <;> rfl
  | cons r regs ih =>
    cases args with
    | nil => rfl
    | cons arg args =>
      cases i with
      | zero => exact absurd hi (Nat.not_succ_le_zero _)
      | succ i => exact ih (Nat.le_of_succ_le_succ hi)

namespace Machine

variable {m : Machine World} {fr : Frame} {rest : List Frame} {depth : Nat} {world : World}
  {name : String} {args : List IRNode} {s : Compiler} {all : EmittedArgs} {vals : List VmValue}
  {dst start : Nat} {o : Except Fault (Option VmValue × World)}

/-- No other instruction than a return returns. -/
theorem not_returning {instr : Instruction} {height : Nat}
    (hinstr : fr.func.instructions[fr.ip]? = some instr) (hop : instr.op ≠ .ret)
    (p : Option VmValue) : ¬ Vm.Returning height (⟨fr :: rest, depth, world⟩ : Vm World) p := by
  rintro ⟨fr', rest', hstack, -, hends⟩
  obtain ⟨rfl, rfl⟩ := List.cons.inj hstack
  rcases hends with ⟨hnone, -⟩ | ⟨instr', hcode, hret, -⟩
  · exact nomatch hinstr.symm.trans hnone
  · obtain rfl := Option.some.inj (hinstr.symm.trans hcode)
    exact hop hret

/-- A frame whose counter is elsewhere has not come there. -/
theorem not_at {height ip : Nat} (hip : fr.ip ≠ ip) (p : Option VmValue) :
    ¬ Vm.At height ip dst (⟨fr :: rest, depth, world⟩ : Vm World) p := by
  rintro ⟨fr', rest', hstack, -, hat, -⟩
  obtain ⟨rfl, rfl⟩ := List.cons.inj hstack
  exact hip hat

variable (rest depth world) in
/-- Once its arguments are evaluated, a self tail call starts the body again. -/
theorem until_restart (hs : Tidy s) (hall : ArgsSpec args s all)
    (hfr : fr.HasArgs start (finishTailCall name args s all) all vals) :
    m.Until (Vm.Returning rest.length) ⟨fr :: rest, depth, world⟩ o ↔
      m.Until (Vm.Returning rest.length) ⟨fr.restart vals :: rest, depth, world⟩ o := by
  have hcode := hfr.code
  simp only [finishTailCall, List.append_assoc] at hcode
  have hmoves := hcode.right.left
  have htail := hcode.right.right.head
  rw [← hfr.ip] at hmoves htail
  have hbank : all.state.maxReg ≤ fr.registers.length := by
    refine le_trans ?_ hfr.registers
    exact (Compiler.addConstant_maxReg (all.state.freeRegTo s.nextReg) (.str name)).ge
  have hlength := hfr.args.length_eq
  obtain ⟨registers, hquiet, hsame, hothers, hslots⟩ := moveToSlots_quiet (m := m)
    (Vm.Returning rest.length) rest depth world (hall.ascending.lower (Nat.zero_le _))
    ((hall.spec.tidy hs).nextReg_le.trans hbank) hfr.args hmoves fun fr₁ p hfunc hlow hhigh => by
      obtain ⟨instr, hmem, hinstr⟩ := hmoves.exists_mem hlow hhigh
      apply not_returning (hfunc ▸ hinstr)
      rw [moveToSlots_op instr hmem]
      exact Op.noConfusion
  -- the arguments take the first registers and leave the others
  have hregisters : registers = fillRegisters fr.registers (vals.map some) := by
    have hvals : vals.length ≤ fr.registers.length := by
      have hle := hall.ascending.add_length_le
      have hmax := (hall.spec.tidy hs).nextReg_le
      omega
    apply List.ext_getElem?
    intro r
    by_cases hr : r < vals.length
    · have hval := List.getElem?_eq_getElem hr
      rw [fillRegisters_getElem? (by simpa using hvals) (v := some vals[r])]
      · have hslot := hslots r _ hval
        rwa [Nat.zero_add] at hslot
      · rw [List.getElem?_map, hval]
        rfl
    · rw [fillRegisters_getElem?_ge (by simpa using hr), hothers r (by omega)]
  have hlast : m.Quiet (Vm.Returning rest.length)
      ⟨fr.movedOn registers (fr.ip + (moveToSlots 0 all.regs).length) :: rest, depth, world⟩
      ⟨fr.restart vals :: rest, depth, world⟩ := by
    refine ⟨not_returning htail Op.noConfusion, (step_eq htail).trans ?_⟩
    simp only [exec, Frame.movedOn, Frame.restart, hregisters]
  exact until_quiet (hquiet.tail hlast)

/-- The marks behind the call do not reach the stop. -/
theorem until_marks {marks : List Instruction} {dst : Nat} (hdst : dst < fr.registers.length)
    (hcode : CodeAt fr.func.instructions fr.ip marks)
    (hmarks : ∀ instr ∈ marks, instr.op = .markMoved)
    (p : Option VmValue) :
    m.Until (Vm.At rest.length (fr.ip + marks.length) dst)
        ⟨{ fr with registers := fr.registers.set dst p } :: rest, depth, world⟩ o ↔
      o = .ok (p, world) := by
  obtain ⟨moved, hquiet⟩ := marks_quiet (m := m) (Vm.At rest.length (fr.ip + marks.length) dst) rest
    depth world { fr with registers := fr.registers.set dst p } hcode hmarks
    fun fr₁ q _ _ hhigh => not_at (Nat.ne_of_lt hhigh) q
  rw [until_quiet hquiet]
  have hresult : (fr.registers.set dst p)[dst]? = some p := List.getElem?_set_self hdst
  apply until_stopped ⟨_, rest, rfl, rfl, rfl, hresult⟩
  rintro q ⟨fr', rest', hstack, -, -, hreg⟩
  obtain ⟨rfl, rfl⟩ := List.cons.inj hstack
  exact Option.some.inj (hreg.symm.trans hresult)

variable (rest depth world) in
/-- Up to the call nothing reaches the stop. -/
theorem until_call {func : BytecodeFunc} (hs : Tidy s) (hdst : dst < s.nextReg)
    (hall : ArgsSpec args s all) (hlocal : s.locals name = none)
    (hgeneral : isGeneralCall name args.length = true) (hlookup : m.lookup name = some func)
    (harity : func.arity ≤ args.length) (hbuiltin : builtinPartial name vals = none)
    (hdispatch : ¬ m.builtins.Dispatches name) (hown : fr.MayMove s name args)
    (hfr : fr.HasArgs start (finishCall name args dst s all) all vals) :
    (∃ caller : Frame, ∀ o, m.Until (Vm.At rest.length
        (start + (finishCall name args dst s all).code.length) dst) ⟨fr :: rest, depth, world⟩ o ↔
      m.Until (Vm.Returning (rest.length + 1))
        ⟨newFrame func name vals dst :: caller :: rest, depth + 1, world⟩ o) ∨
    ∀ o, m.Until (Vm.At rest.length
        (start + (finishCall name args dst s all).code.length) dst) ⟨fr :: rest, depth, world⟩ o ↔
      o = .error (.error (.stackOverflow m.maxCallDepth)) := by
  rw [finishCall_general hgeneral hall.length] at hfr ⊢
  obtain ⟨checks, marks, idx, hparts, hconst, hchecks, hmarks⟩ :=
    generalCall_parts dst all hlocal hown
  have hcode := hfr.code
  rw [hparts] at hcode
  generalize hend : start + (generalCall name args dst s all).code.length = stop
  rw [hparts, List.length_append, List.length_append, List.length_cons, ← Nat.add_assoc,
    ← hfr.ip] at hend
  have hslotted := hcode.right.left
  have hcall := hcode.right.right.head
  have hmarked := hcode.right.right.tail
  rw [← hfr.ip] at hslotted hcall hmarked
  have hbank : all.state.maxReg ≤ fr.registers.length :=
    (generalCall_rest name hs hdst hall).extends_args.maxReg.trans hfr.registers
  have hmax := (hall.spec.tidy hs).nextReg_le
  have hslots := hall.length_le
  have hlength : vals.length = args.length := by rw [← hfr.args.length_eq, hall.length]
  have hasc : Ascending (dst + 1) all.regs all.state.nextReg := hall.ascending.lower hdst
  obtain ⟨fr₁, hquiet, hfunc, hip, hregisters, hargs⟩ := slots_quiet (m := m)
    (Vm.At rest.length stop dst) rest depth world hasc (hmax.trans hbank) hfr.args hslotted hchecks
    fun fr₁ p hhigh => not_at (by omega) p
  -- the call enters the function of the name
  have hstep : m.step ⟨fr₁ :: rest, depth, world⟩ =
      m.enter name (vals.map some) dst (fr₁.advance 1) rest depth world := by
    have hidx : fr₁.func.constants[idx]? = some (.str name) := by
      obtain ⟨more, hmore⟩ := hfr.constants
      rw [hfunc, ← hmore, List.getElem?_append_left (List.getElem?_eq_some_iff.mp hconst).1, hconst]
    rw [← hlength, ← hip, ← hfunc] at hcall
    rw [step_call rest depth world hcall hidx hargs]
    simp only [callNamed, map_orNil_some, hbuiltin, userPartial, hlookup]
    rw [if_neg (by omega)]
    exact if_neg hdispatch
  have hgoes : ∀ p, ¬ Vm.At rest.length stop dst (⟨fr₁ :: rest, depth, world⟩ : Vm World) p :=
    not_at (by omega)
  rcases enter_eq (fr₁.advance 1) rest depth world hlookup vals dst with henter | hover
  · refine Or.inl ⟨fr₁.advance 1, fun o => ?_⟩
    have hbelow : dst < (fr₁.advance 1).registers.length := by
      show dst < fr₁.registers.length
      omega
    rw [until_quiet (hquiet.tail ⟨hgoes, hstep.trans henter⟩)]
    refine (until_above hbelow (fun p depth world o => ?_) (.mk [] rfl)).symm
    have hstop : (fr₁.advance 1).ip + marks.length = stop := by
      show fr₁.ip + 1 + marks.length = stop
      omega
    rw [← hstop]
    apply until_marks hbelow ?_ hmarks p
    show CodeAt fr₁.func.instructions (fr₁.ip + 1) marks
    rw [hfunc, hip]
    exact hmarked
  · refine Or.inr fun o => ?_
    rw [until_quiet hquiet, until_failed hgoes (hstep.trans hover)]

end Machine

/-! ## Self tail calls and ordinary calls -/

/-- The first state answers as the second, unless the second overflows the stack. -/
structure Machine.AnswersAs (m : Machine World) (stop stop' : Vm World → Option VmValue → Prop)
    (vm vm' : Vm World) : Prop where
  gives : ∀ o, m.Until stop vm o →
    m.Until stop' vm' o ∨ ∃ f, m.Overflows f ∧ m.Until stop' vm' (.error f)
  gets : ∀ o, m.Until stop' vm' o → m.Until stop vm o ∨ ∃ f, m.Overflows f ∧ o = .error f

/-- The first `count` registers. -/
def Place.parameters (count : Nat) : Set Place := {p | ∃ r < count, p = .register r}

/-- Where a self call in tail position is the ordinary call: the name is no local, operator or
builtin and gets all its arguments, `fr'` may take over the own arguments of the call, and what
the body that `fr` starts again reads, it has written since or got as an argument. -/
structure Machine.Restartable (m : Machine World) (s : Compiler) (args : List IRNode)
    (vals : List VmValue) (fr fr' : Frame) (rest : List Frame) (depth : Nat) (world : World) :
    Prop where
  scope : s.locals fr.funcName = none
  operator : isGeneralCall fr.funcName args.length = true
  arity : fr.func.arity ≤ args.length
  builtin : builtinPartial fr.funcName vals = none
  dispatch : ¬ m.builtins.Dispatches fr.funcName
  owned : fr'.MayMove s fr.funcName args
  fresh : m.ReadsKnown rest.length ⟨fr.restart vals :: rest, depth, world⟩
    (Place.parameters args.length)

/-- The frame that starts again and a new frame for the same call know the arguments. -/
theorem restart_twin {fr : Frame} {vals : List VmValue} (dst : Nat)
    (hregisters : fr.registers.length = fr.func.registerCount)
    (hmoved : fr.moved.length = fr.func.registerCount) (hvals : vals.length ≤ fr.registers.length) :
    Twin (Place.parameters vals.length) (fr.restart vals)
      (Machine.newFrame fr.func fr.funcName vals dst) where
  func := rfl
  funcName := rfl
  ip := rfl
  moved := by
    show List.replicate fr.func.registerCount false = fr.moved.map fun _ => false
    rw [List.map_const', hmoved]
  length := by
    show (fillRegisters _ _).length = (fillRegisters _ _).length
    rw [fillRegisters_length, fillRegisters_length, List.length_replicate, hregisters]
  register := by
    rintro r ⟨_, hr, heq⟩
    obtain rfl := Place.register.inj heq
    have hval : (vals.map some)[r]? = some (some vals[r]) := by
      rw [List.getElem?_map, List.getElem?_eq_getElem hr]
      rfl
    have hcount : (vals.map some).length ≤ fr.registers.length := by rwa [List.length_map]
    show (fillRegisters _ _)[r]? = (fillRegisters _ _)[r]?
    rw [Machine.fillRegisters_getElem? hcount hval, Machine.fillRegisters_getElem? _ hval]
    rwa [List.length_replicate, ← hregisters]
  flag := nofun

/-- A self call in tail position, compiled as such and as an ordinary call: both evaluate the same
arguments first, and from there on they answer alike in every run where the call is restartable. -/
theorem tailCall_answers {m : Machine World} {s : Compiler} {args : List IRNode}
    {dst start start' : Nat}
    {vals : List VmValue} {fr fr' : Frame} {rest : List Frame} {depth : Nat} {world : World}
    (hs : Tidy s) (hdst : dst < s.nextReg) (hvalid : m.functions.all BytecodeFunc.valid = true)
    (hcomes : m.Comes ⟨fr :: rest, depth, world⟩)
    (htail : fr.HasArgs start (compileNode (.call fr.funcName args) (.tail fr.funcName) dst s)
      (compileArgs args s) vals)
    (hcall : fr'.HasArgs start' (compileNode (.call fr.funcName args) .value dst s)
      (compileArgs args s) vals)
    (hrestartable : m.Restartable s args vals fr fr' rest depth world) :
    (compileArgs args s).code <+:
      (compileNode (.call fr.funcName args) (.tail fr.funcName) dst s).code ∧
    (compileArgs args s).code <+: (compileNode (.call fr.funcName args) .value dst s).code ∧
    m.AnswersAs (Vm.Returning rest.length)
      (Vm.At rest.length
        (start' + (compileNode (.call fr.funcName args) .value dst s).code.length) dst)
      ⟨fr :: rest, depth, world⟩ ⟨fr' :: rest, depth, world⟩ := by
  have hall := compileArgs_spec args hs
  rw [compileNode, if_pos rfl] at htail ⊢
  rw [compileNode] at hcall ⊢
  refine ⟨⟨_, (List.append_assoc _ _ _).symm⟩,
    (finishCall_rest fr.funcName hs hdst hall).args_initial, ?_⟩
  have hlookup := hcomes.named fr List.mem_cons_self
  have hlength : vals.length = args.length := by rw [← htail.args.length_eq, hall.length]
  -- the registers and the move flags of the old frame are as many as those of a new one
  have hregisters := ((hcomes.wellFormed (List.all_eq_true.mp hvalid)).functions fr
    List.mem_cons_self).2
  have hmoved := hcomes.flagged fr List.mem_cons_self
  have hdepth : 0 < depth := by
    have hbalanced : depth = rest.length + 1 := hcomes.balanced
    omega
  have hbound : vals.length ≤ fr.registers.length := by
    have hmax := (hall.spec.tidy hs).nextReg_le
    have hslots := hall.length_le
    have hbank : (compileArgs args s).state.maxReg ≤ fr.registers.length := by
      refine le_trans ?_ htail.registers
      exact (Compiler.addConstant_maxReg
        ((compileArgs args s).state.freeRegTo s.nextReg) (.str fr.funcName)).ge
    omega
  have htwin := restart_twin dst hregisters hmoved hbound
  rw [hlength] at htwin
  rcases Machine.until_call rest depth world hs hdst hall
    hrestartable.scope hrestartable.operator hlookup hrestartable.arity hrestartable.builtin
    hrestartable.dispatch hrestartable.owned hcall with ⟨caller, hcaller⟩ | hover
  · have hlifted : Lifted rest.length (Place.parameters args.length)
        ⟨fr.restart vals :: rest, depth, world⟩
        ⟨Machine.newFrame fr.func fr.funcName vals dst :: caller :: rest, depth + 1, world⟩ :=
      .mk [] rfl rfl htwin hdepth
    constructor
    · intro o ho
      rw [Machine.until_restart rest depth world hs hall htail] at ho
      simp only [hcaller]
      exact Machine.until_lifted ho hlifted hrestartable.fresh
    · intro o ho
      rw [Machine.until_restart rest depth world hs hall htail]
      rw [hcaller] at ho
      exact Machine.until_lowered ho hlifted hrestartable.fresh
  · constructor
    · exact fun o _ => Or.inr ⟨_, rfl, (hover _).mpr rfl⟩
    · exact fun o ho => Or.inr ⟨_, rfl, (hover o).mp ho⟩

/-! ## A name of its own, and a parameter of that name -/

/-- `(if x x (f true))`. -/
def retry (param : String) : IRNode := .ite (.load param) (.load param) (.call "f" [.bool true])

/-- The function `f` with that body. -/
def retrySelf : BytecodeFunc :=
  ⟨"f", 1, 3, 0,
    [⟨.move, 2, 0, 0⟩, ⟨.jumpIfFalse, 0, 2, 2⟩, ⟨.move, 1, 0, 0⟩, ⟨.jump, 0, 3, 0⟩,
      ⟨.loadTrue, 2, 0, 0⟩, ⟨.move, 0, 2, 0⟩, ⟨.tailCall, 0, 0, 1⟩, ⟨.ret, 0, 1, 0⟩],
    [.str "f"]⟩

/-- A function with that body and another name calls `f` by name, or through its parameter. -/
def retryOther (call : Instruction) (constants : List VmValue) : BytecodeFunc :=
  ⟨"g", 1, 3, 0,
    [⟨.move, 2, 0, 0⟩, ⟨.jumpIfFalse, 0, 2, 2⟩, ⟨.move, 1, 0, 0⟩, ⟨.jump, 0, 2, 0⟩,
      ⟨.loadTrue, 2, 0, 0⟩, call, ⟨.ret, 0, 1, 0⟩],
    constants⟩

theorem retry_compiled :
    (compileFunction "f" ["b"] (retry "b") {}).1 = retrySelf ∧
    (compileFunction "g" ["b"] (retry "b") {}).1 = retryOther ⟨.call, 1, 0, 1⟩ [.str "f"] ∧
    (compileFunction "f" ["f"] (retry "f") {}).1 = retrySelf ∧
    (compileFunction "g" ["f"] (retry "f") {}).1 = retryOther ⟨.callReg, 1, 0, 1⟩ [] :=
  ⟨rfl, rfl, rfl, rfl⟩

def retryMachine (other : BytecodeFunc) : Machine Unit := ⟨[retrySelf, other], atBuiltins, 100⟩

/-- The compiler at the call. -/
def retrySite (param : String) : Compiler :=
  (Compiler.enterFunction {} [param]).allocReg.allocReg.freeRegTo 2

theorem retrySite_tidy (param : String) : Tidy (retrySite param) := by
  have hentered := enterFunction_tidy {} [param]
  refine ⟨?_, fun {name r} hr => ?_⟩
  · show 2 ≤ 3
    decide
  · exact lt_trans (hentered.locals_lt hr) (Nat.lt_succ_self _)

/-- The argument of `f` was false, and the one of the call is true. -/
def retryFrame (func : BytecodeFunc) : Frame :=
  frameAt func 5 [some (.bool false), some .nil, some (.bool true)]

theorem CodeAt.middle (pre code post : List Instruction) :
    CodeAt (pre ++ (code ++ post)) pre.length code := by
  intro i instr hi
  have hlt := (List.getElem?_eq_some_iff.mp hi).1
  rw [List.getElem?_append_right (Nat.le_add_right _ _), Nat.add_sub_cancel_left,
    List.getElem?_append_left hlt, hi]

theorem retryFrame_tail {param : String} (hparam : param = "b" ∨ param = "f") :
    (retryFrame retrySelf).HasArgs 4
      (compileNode (.call "f" [.bool true]) (.tail "f") 1 (retrySite param))
      (compileArgs [.bool true] (retrySite param)) [.bool true] := by
  rcases hparam with rfl | rfl <;>
    exact ⟨CodeAt.middle (retrySelf.instructions.take 4) _ [⟨.ret, 0, 1, 0⟩],
      List.prefix_refl _, by decide, rfl, .cons rfl .nil⟩

theorem retryFrame_named : (retryFrame (retryOther ⟨.call, 1, 0, 1⟩ [.str "f"])).HasArgs 4
    (compileNode (.call "f" [.bool true]) .value 1 (retrySite "b"))
    (compileArgs [.bool true] (retrySite "b")) [.bool true] :=
  ⟨CodeAt.middle ((retryOther ⟨.call, 1, 0, 1⟩ []).instructions.take 4) _ [⟨.ret, 0, 1, 0⟩],
    List.prefix_refl _, by decide, rfl, .cons rfl .nil⟩

theorem retryFrame_local : (retryFrame (retryOther ⟨.callReg, 1, 0, 1⟩ [])).HasArgs 4
    (compileNode (.call "f" [.bool true]) .value 1 (retrySite "f"))
    (compileArgs [.bool true] (retrySite "f")) [.bool true] :=
  ⟨CodeAt.middle ((retryOther ⟨.call, 1, 0, 1⟩ []).instructions.take 4) _ [⟨.ret, 0, 1, 0⟩],
    List.prefix_refl _, by decide, rfl, .cons rfl .nil⟩

theorem retryFrame_comes (other : BytecodeFunc) :
    (retryMachine other).Comes ⟨[retryFrame retrySelf], 1, ()⟩ := by
  refine ⟨"f", [.bool false], (), _, rfl, ?_⟩
  have hcond : (retryMachine other).Advances
      ⟨[frameAt retrySelf 0 [some (.bool false), some .nil, some .nil]], 1, ()⟩
      ⟨[frameAt retrySelf 1 [some (.bool false), some .nil, some (.bool false)]], 1, ()⟩ := rfl
  have hjump : (retryMachine other).Advances
      ⟨[frameAt retrySelf 1 [some (.bool false), some .nil, some (.bool false)]], 1, ()⟩
      ⟨[frameAt retrySelf 4 [some (.bool false), some .nil, some (.bool false)]], 1, ()⟩ :=
    Machine.step_jumpIfFalse_taken (show 2 < 32768 by decide) (by decide) rfl rfl
  exact .head hcond (.head hjump (.single rfl))

/-- The body that starts again looks at its parameter and copies it. -/
theorem retry_passes (other : BytecodeFunc) :
    (retryMachine other).Advances ⟨[(retryFrame retrySelf).restart [.bool true]], 1, ()⟩
      ⟨[frameAt retrySelf 1 [some (.bool true), some .nil, some (.bool true)]], 1, ()⟩ ∧
    (retryMachine other).Advances
      ⟨[frameAt retrySelf 1 [some (.bool true), some .nil, some (.bool true)]], 1, ()⟩
      ⟨[frameAt retrySelf 2 [some (.bool true), some .nil, some (.bool true)]], 1, ()⟩ ∧
    (retryMachine other).Advances
      ⟨[frameAt retrySelf 2 [some (.bool true), some .nil, some (.bool true)]], 1, ()⟩
      ⟨[frameAt retrySelf 3 [some (.bool true), some (.bool true), some (.bool true)]], 1, ()⟩ ∧
    (retryMachine other).Advances
      ⟨[frameAt retrySelf 3 [some (.bool true), some (.bool true), some (.bool true)]], 1, ()⟩
      ⟨[frameAt retrySelf 7 [some (.bool true), some (.bool true), some (.bool true)]], 1, ()⟩ :=
  ⟨rfl, rfl, rfl, Machine.step_jump (show 3 < 32768 by decide) (by decide) rfl⟩

theorem retry_readsKnown (other : BytecodeFunc) : (retryMachine other).ReadsKnown 0
    ⟨[(retryFrame retrySelf).restart [.bool true]], 1, ()⟩ (Place.parameters 1) := by
  have hparam : Place.register 0 ∈ Place.parameters 1 := ⟨0, Nat.one_pos, rfl⟩
  obtain ⟨hcond, hstay, hcopy, hjump⟩ := retry_passes other
  refine .stays rfl ?_ hcond (.stays rfl ?_ hstay (.stays rfl ?_ hcopy (.stays rfl ?_ hjump
    (.returns rfl ?_ (Or.inr ⟨_, rfl, rfl, rfl⟩))))) <;> rintro (r | _) hr
  · obtain rfl : r = 0 := hr
    exact hparam
  · exact nomatch hr
  · exact Or.inr hr
  · exact nomatch hr
  · obtain rfl : r = 0 := hr
    exact Or.inl (Or.inl hparam)
  · exact nomatch hr
  · exact hr.elim
  · exact nomatch hr
  · exact Or.inl (Or.inr hr)
  · exact nomatch hr

theorem retry_restartable : (retryMachine (retryOther ⟨.call, 1, 0, 1⟩ [.str "f"])).Restartable
    (retrySite "b") [.bool true] [.bool true] (retryFrame retrySelf)
    (retryFrame (retryOther ⟨.call, 1, 0, 1⟩ [.str "f"])) [] 1 () where
  scope := rfl
  operator := rfl
  arity := le_rfl
  builtin := rfl
  dispatch := by
    rintro (h | h | h)
    · exact absurd h (by decide)
    · exact absurd h (by decide)
    · exact absurd h (by decide)
  owned := fun _ h => nomatch h
  fresh := retry_readsKnown _

theorem retry_answers : (retryMachine (retryOther ⟨.call, 1, 0, 1⟩ [.str "f"])).AnswersAs
    (Vm.Returning 0) (Vm.At 0 6 1) ⟨[retryFrame retrySelf], 1, ()⟩
    ⟨[retryFrame (retryOther ⟨.call, 1, 0, 1⟩ [.str "f"])], 1, ()⟩ :=
  (tailCall_answers (retrySite_tidy "b") (by decide) (by decide) (retryFrame_comes _)
    (retryFrame_tail (Or.inl rfl)) retryFrame_named retry_restartable).2.2

/-- With a parameter called `f`, the self call starts the function again and the ordinary call calls
the parameter, which is false. -/
theorem shadowed_self_call :
    (compileFunction "f" ["f"] (retry "f") {}).1 = retrySelf ∧
    (retryMachine (retryOther ⟨.callReg, 1, 0, 1⟩ [])).Comes ⟨[retryFrame retrySelf], 1, ()⟩ ∧
    (retryFrame retrySelf).HasArgs 4
      (compileNode (.call "f" [.bool true]) (.tail "f") 1 (retrySite "f"))
      (compileArgs [.bool true] (retrySite "f")) [.bool true] ∧
    (retryFrame (retryOther ⟨.callReg, 1, 0, 1⟩ [])).HasArgs 4
      (compileNode (.call "f" [.bool true]) .value 1 (retrySite "f"))
      (compileArgs [.bool true] (retrySite "f")) [.bool true] ∧
    ¬ (retryMachine (retryOther ⟨.callReg, 1, 0, 1⟩ [])).AnswersAs (Vm.Returning 0) (Vm.At 0 6 1)
      ⟨[retryFrame retrySelf], 1,
        ()⟩ ⟨[retryFrame (retryOther ⟨.callReg, 1, 0, 1⟩ [])], 1, ()⟩ := by
  refine ⟨retry_compiled.2.2.1, retryFrame_comes _, retryFrame_tail (Or.inr rfl), retryFrame_local,
    fun hanswers => ?_⟩
  have hs := retrySite_tidy "f"
  have hargs := retryFrame_tail (Or.inr (rfl : "f" = "f"))
  rw [compileNode, if_pos rfl] at hargs
  have htail : (retryMachine (retryOther ⟨.callReg, 1, 0, 1⟩ [])).Until (Vm.Returning 0)
      ⟨[retryFrame retrySelf], 1, ()⟩ (.ok (some (.bool true), ())) := by
    obtain ⟨hcond, hstay, hcopy, hjump⟩ := retry_passes (retryOther ⟨.callReg, 1, 0, 1⟩ [])
    apply (Machine.until_restart [] 1 () hs (compileArgs_spec [.bool true] hs) hargs).mpr
    refine .advances ?_ hcond (.advances ?_ hstay (.advances ?_ hcopy (.advances ?_ hjump
      (.stops ⟨_, [], rfl, rfl, Or.inr ⟨_, rfl, rfl, rfl⟩⟩)))) <;>
      exact Machine.not_returning rfl Op.noConfusion
  have hcall : ∀ o, (retryMachine (retryOther ⟨.callReg, 1, 0, 1⟩ [])).Until (Vm.At 0 6 1)
      ⟨[retryFrame (retryOther ⟨.callReg, 1, 0, 1⟩ [])], 1, ()⟩ o ↔
        o = .error (.error .notCallable) :=
    fun o => Machine.until_failed (Machine.not_at (by decide)) rfl
  rcases hanswers.gives _ htail with h | ⟨f, hf, h⟩
  · exact nomatch (hcall _).mp h
  · obtain rfl := Except.error.inj ((hcall _).mp h)
    exact nomatch hf

end Airl
