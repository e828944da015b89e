import Mathlib.Data.List.Chain
import Airl.Correctness.Sessions

/-! # What validation guarantees

On a table that `validate_bytecode` accepts, no pass of a run looks outside the
arrays of its frame, and a pass that fails raises a `RuntimeError` or meets one
of the listed mishaps.
-/

namespace Airl

open Relation (ReflTransGen)

variable {World : Type}

/-- The frames belong to loaded functions, and each finds its return register in the frame below. -/
structure Vm.WellFormed (m : Machine World) (vm : Vm World) : Prop where
  functions : ∀ fr ∈ vm.callStack, fr.func ∈ m.functions ∧
    fr.registers.length = fr.func.registerCount
  returns : vm.callStack.IsChain fun fr caller => fr.returnReg < caller.registers.length

/-- The operands of the next instruction lie in the arrays of the innermost frame. -/
def Vm.InRange (vm : Vm World) : Prop :=
  ∀ fr rest instr, vm.callStack = fr :: rest → fr.func.instructions[fr.ip]? = some instr →
    validInstruction fr.registers.length fr.func.constants.length instr = true

/-- The next instruction fails by a mishap. -/
def Machine.MeetsMishap (m : Machine World) (vm : Vm World) (f : Fault) : Prop :=
  ∃ fr rest instr, vm.callStack = fr :: rest ∧ fr.func.instructions[fr.ip]? = some instr ∧
    m.Mishap instr { fr with ip := fr.ip + 1 } vm.world f

namespace Machine

variable {m : Machine World} {vm vm' : Vm World}

theorem start_wellFormed {name : String} {args : List VmValue} {world : World}
    (h : m.start name args world = .ok vm) : vm.WellFormed m := by
  unfold start pushFrame at h
  split at h
  next => exact nomatch h
  next func hlookup =>
    split_ifs at h
    cases h
    refine ⟨fun fr hfr => ?_, List.isChain_singleton _⟩
    obtain rfl := List.mem_singleton.mp hfr
    exact ⟨lookup_mem hlookup, by simp [fillRegisters_length]⟩

theorem wellFormed_operands {fr : Frame} {rest : List Frame} {instr : Instruction}
    (hvalid : ∀ func ∈ m.functions, func.valid = true) (hvm : vm.WellFormed m)
    (hstack : vm.callStack = fr :: rest) (hinstr : fr.func.instructions[fr.ip]? = some instr) :
    validInstruction fr.registers.length fr.func.constants.length instr = true := by
  obtain ⟨hloaded, hlength⟩ := hvm.functions fr (by rw [hstack]; exact List.mem_cons_self)
  rw [hlength]
  exact List.all_eq_true.mp (hvalid fr.func hloaded) instr (List.mem_of_getElem? hinstr)

theorem advances_wellFormed (hvalid : ∀ func ∈ m.functions, func.valid = true)
    (hvm : vm.WellFormed m) (h : m.Advances vm vm') : vm'.WellFormed m := by
  obtain ⟨_ | ⟨fr, rest⟩, depth, world⟩ := vm
  · exact nomatch h
  have hfr := hvm.functions fr List.mem_cons_self
  have hrest : ∀ caller ∈ rest, _ := fun caller hcaller =>
    hvm.functions caller (List.mem_cons_of_mem _ hcaller)
  have hreturns := List.isChain_cons.mp hvm.returns
  cases step_turn h with
  | @stays fr' _ hfunc _ hreturn hlength =>
    refine ⟨fun g hg => ?_, List.isChain_cons.mpr ⟨?_, hreturns.2⟩⟩
    · rcases List.mem_cons.mp hg with rfl | hg
      · rw [hfunc, hlength]
        exact hfr
      · exact hrest g hg
    · rw [hreturn]
      exact hreturns.1
  | @enters instr callee _ hcode hop hreturn hlookup hlength =>
    refine ⟨fun g hg => ?_, List.isChain_cons.mpr ⟨?_, ?_⟩⟩
    · rcases List.mem_cons.mp hg with rfl | hg
      · exact ⟨lookup_mem hlookup, hlength⟩
      · rcases List.mem_cons.mp hg with rfl | hg
        · exact hfr
        · exact hrest g hg
    · -- the callee returns into the destination register of the call
      rintro caller hcaller
      obtain rfl := Option.some.inj hcaller
      have hoperands := wellFormed_operands hvalid hvm rfl hcode
      rw [hreturn]
      rcases hop with hop | hop <;> simp [validInstruction, hop] at hoperands
      · exact hoperands.1.1
      · exact hoperands.1.1
    · exact List.isChain_cons.mpr hreturns
  | @leaves result caller callers _ hrest' =>
    subst hrest'
    have hcallers := List.isChain_cons.mp hreturns.2
    refine ⟨fun g hg => ?_, List.isChain_cons.mpr hcallers⟩
    rcases List.mem_cons.mp hg with rfl | hg
    · simpa using hrest caller List.mem_cons_self
    · exact hrest g (List.mem_cons_of_mem _ hg)

theorem reaches_wellFormed (hvalid : ∀ func ∈ m.functions, func.valid = true)
    (hvm : vm.WellFormed m) (h : ReflTransGen m.Advances vm vm') : vm'.WellFormed m := by
  induction h with
  | refl => exact hvm
  | tail _ hstep ih => exact advances_wellFormed hvalid ih hstep

theorem wellFormed_fails {f : Fault} (hvalid : ∀ func ∈ m.functions, func.valid = true)
    (hvm : vm.WellFormed m) (hne : vm.callStack ≠ []) (h : m.step vm = .error f) :
    f.IsError ∨ m.MeetsMishap vm f := by
  obtain ⟨_ | ⟨fr, rest⟩, depth, world⟩ := vm
  · exact absurd rfl hne
  have hreturns : ∀ caller callers, rest = caller :: callers →
      fr.returnReg < caller.registers.length := by
    rintro caller callers rfl
    exact (List.isChain_cons.mp hvm.returns).1 caller rfl
  have hsound : ∀ instr, fr.func.instructions[fr.ip]? = some instr →
      m.Sound instr { fr with ip := fr.ip + 1 } rest := by
    intro instr hinstr
    have hoperands := wellFormed_operands hvalid hvm rfl hinstr
    exact ⟨hvalid, hoperands, hreturns⟩
  refine (step_fails h hsound hreturns).imp_right ?_
  rintro ⟨instr, hinstr, hmishap⟩
  exact ⟨fr, rest, instr, rfl, hinstr, hmishap⟩

theorem advances_ne_nil (h : m.Advances vm vm') : vm'.callStack ≠ [] := by
  obtain ⟨_ | ⟨fr, rest⟩, depth, world⟩ := vm
  · exact nomatch h
  · cases step_turn h <;> exact List.cons_ne_nil _ _

theorem start_ne_nil {name : String} {args : List VmValue} {world : World}
    (h : m.start name args world = .ok vm) : vm.callStack ≠ [] := by
  unfold start pushFrame at h
  split at h
  next => exact nomatch h
  next =>
    split_ifs at h
    exact Except.ok.inj h ▸ List.cons_ne_nil _ _

/-- A state of a run of a function of the table. -/
def Comes (m : Machine World) (vm : Vm World) : Prop :=
  ∃ name args world vm₀, m.start name args world = .ok vm₀ ∧ ReflTransGen m.Advances vm₀ vm

theorem Comes.wellFormed (h : m.Comes vm) (hvalid : ∀ func ∈ m.functions, func.valid = true) :
    vm.WellFormed m := by
  obtain ⟨name, args, world, vm₀, hstart, hreach⟩ := h
  exact reaches_wellFormed hvalid (start_wellFormed hstart) hreach

theorem Comes.ne_nil (h : m.Comes vm) : vm.callStack ≠ [] := by
  obtain ⟨name, args, world, vm₀, hstart, hreach⟩ := h
  rcases ReflTransGen.cases_tail hreach with heq | ⟨_, _, hstep⟩
  · exact heq ▸ start_ne_nil hstart
  · exact advances_ne_nil hstep

end Machine

/-- Takes the first item of an empty list. -/
def atEmpty : BytecodeFunc :=
  ⟨"at-empty", 0, 3, 0,
    [⟨.loadConst, 1, 0, 0⟩, ⟨.loadConst, 2, 1, 0⟩, ⟨.callBuiltin, 0, 2, 2⟩, ⟨.ret, 0, 0, 0⟩],
    [.list [], .int 0, .str "at"]⟩

/-- Divides the least integer by minus one. -/
def divLeast : BytecodeFunc :=
  ⟨"div-least", 0, 2, 0,
    [⟨.loadConst, 0, 0, 0⟩, ⟨.loadConst, 1, 1, 0⟩, ⟨.div, 0, 0, 1⟩, ⟨.ret, 0, 0, 0⟩],
    [.int Int64.minValue, .int (-1)]⟩

/-- Negates a register that it has released. -/
def notReleased : BytecodeFunc :=
  ⟨"not-released", 0, 1, 0, [⟨.release, 0, 0, 0⟩, ⟨.not, 0, 0, 0⟩, ⟨.ret, 0, 0, 0⟩], []⟩

def failingTable : Machine Unit := ⟨[atEmpty, divLeast, notReleased], atBuiltins, 100⟩

/-- The frame of a function without captures, at a position. -/
def frameAt (func : BytecodeFunc) (ip : Nat) (registers : List (Option VmValue)) : Frame :=
  ⟨registers, func.name, ip, 0, false, List.replicate func.registerCount false, func⟩

theorem atEmpty_comes : failingTable.Comes
    ⟨[frameAt atEmpty 2 [some .nil, some (.list []), some (.int 0)]], 1, ()⟩ := by
  refine ⟨"at-empty", [], (), _, rfl, ?_⟩
  have hlist : failingTable.Advances ⟨[frameAt atEmpty 0 [some .nil, some .nil, some .nil]], 1, ()⟩
      ⟨[frameAt atEmpty 1 [some .nil, some (.list []), some .nil]], 1, ()⟩ := rfl
  exact .head hlist (.single rfl)

theorem divLeast_comes : failingTable.Comes
    ⟨[frameAt divLeast 2 [some (.int Int64.minValue), some (.int (-1))]], 1, ()⟩ := by
  refine ⟨"div-least", [], (), _, rfl, ?_⟩
  have hleast : failingTable.Advances ⟨[frameAt divLeast 0 [some .nil, some .nil]], 1, ()⟩
      ⟨[frameAt divLeast 1 [some (.int Int64.minValue), some .nil]], 1, ()⟩ := rfl
  exact .head hleast (.single rfl)

theorem notReleased_comes :
    failingTable.Comes ⟨[frameAt notReleased 1 [none]], 1, ()⟩ :=
  ⟨"not-released", [], (), _, rfl, .single rfl⟩

end Airl
