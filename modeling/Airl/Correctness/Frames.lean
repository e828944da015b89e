import Airl.Correctness.Calls
import Mathlib.Data.List.Forall2

/-! # Frames that run compiled code

What ties a frame to the compiler that emitted its code: the constants and
lambdas it can rely on, and the registers in which the variables of the
environment live. Moving arguments and binding patterns keep the tie.
-/

namespace Airl

open Transition (Host Outcome)

variable {World : Type}

/-! ## Sites -/

namespace Site

variable (c : Site) (a b : List String)

@[simp] theorem temp_scope : c.temp.scope = c.scope := rfl

@[simp] theorem temp_gap : c.temp.gap = 0 := rfl

@[simp] theorem temp_self : c.temp.self = none := rfl

@[simp] theorem temp_inline : c.temp.inline = c.inline := rfl

theorem forget_append : c.forget (a ++ b) = (c.forget a).forget b := by
  unfold forget
  congr 1
  funext x
  simp [Bool.decide_or, Bool.and_assoc]

theorem forget_nil : c.forget [] = c := by simp [forget]

theorem grow_zero : c.grow 0 = c := rfl

end Site

/-! ## Frames and compilers -/

/-- The function of the frame contains what the compiler has produced so far. -/
structure Hosted (m : Machine World) (fr : Frame) (s : Compiler) : Prop where
  constants : s.constants <+: fr.func.constants
  registers : s.maxReg ≤ fr.registers.length
  bank : fr.registers.length = fr.func.registerCount
  jumps : s.longJump = false
  short : fr.func.Short
  shorts : m.Short
  lambdas : ∀ f ∈ s.compiledLambdas, m.lookup f.name = some f
  unitPrefix : s.lambdaPrefix = ""

/-- Every name in scope has a register, which holds its value. -/
structure Agree (m : Machine World) (scope : String → Bool) (s : Compiler) (env : Env)
    (fr : Frame) : Prop where
  scope : ∀ x, scope x = (s.locals x).isSome
  holds : ∀ {x r}, s.locals x = some r →
    ∃ v v', env.lookup x = some v ∧ fr.Holds r v' ∧ ValueRel m v v'

variable {m : Machine World} {fr fr' : Frame} {s s' : Compiler} {scope : String → Bool} {env : Env}

namespace Hosted

/-- A frame that hosts what comes later hosts what came before. -/
theorem of_extends (h : Hosted m fr s') (hext : Extends s s') : Hosted m fr s where
  constants := hext.constants.trans h.constants
  registers := hext.maxReg.trans h.registers
  bank := h.bank
  jumps := hext.longJump h.jumps
  short := h.short
  shorts := h.shorts
  lambdas f hf := h.lambdas f (hext.mem_lambdas hf)
  unitPrefix := hext.unitPrefix.symm.trans h.unitPrefix

/-- Hosting does not depend on the registers above. -/
theorem keeps (h : Hosted m fr s) {lo : Nat} (hk : fr.Keeps lo fr') : Hosted m fr' s where
  constants := hk.func ▸ h.constants
  registers := hk.length ▸ h.registers
  bank := by rw [hk.length, hk.func, h.bank]
  jumps := h.jumps
  short := hk.func ▸ h.short
  shorts := h.shorts
  lambdas := h.lambdas
  unitPrefix := h.unitPrefix

/-- A jump that is noted is short. -/
theorem noteJump {distance : Nat} (h : Hosted m fr (s.noteJump distance)) :
    distance < 32768 ∧ Hosted m fr s := by
  have hjumps := h.jumps
  simp only [Compiler.noteJump, Bool.or_eq_false_iff, decide_eq_false_iff_not] at hjumps
  exact ⟨by omega, h.of_extends (s.noteJump_extends distance)⟩

/-- The pool of the frame has the constant, or one with its key. -/
theorem constant {v : VmValue} (h : Hosted m fr (s.addConstant v)) :
    ∃ c, fr.func.constants[s.constantIndex v]? = some c ∧
      (c = v ∨ Compiler.sameKey v c = true) := by
  obtain ⟨c, hc, hkey⟩ := s.getElem?_addConstant v
  obtain ⟨rest, hrest⟩ := h.constants
  refine ⟨c, ?_, hkey⟩
  rw [← hrest, List.getElem?_append_left (List.getElem?_eq_some_iff.mp hc).1]
  exact hc

/-- A name is in the pool as it is. -/
theorem stringConstant {name : String} (h : Hosted m fr (s.addConstant (.str name))) :
    fr.func.constants[s.constantIndex (.str name)]? = some (.str name) := by
  obtain ⟨c, hc, rfl | hkey⟩ := h.constant
  · exact hc
  · cases c <;> simp [Compiler.sameKey, Value.valueEq] at hkey
    rw [hc, hkey]

end Hosted

namespace Agree

/-- Names keep their values while their registers do. -/
theorem keeps (h : Agree m scope s env fr) (hs : Ready s) (hk : fr.Keeps s.nextReg fr') :
    Agree m scope s env fr' := by
  refine ⟨h.scope, fun hx => ?_⟩
  obtain ⟨v, v', hlookup, hholds, hrel⟩ := h.holds hx
  exact ⟨v, v', hlookup, hk.holds (hs.locals_lt hx) hholds, hrel⟩

/-- Code that loses names loses them from what is known of the environment. -/
theorem spec {regs : Nat} {gone : List String} {code : List Instruction}
    (h : Agree m scope s env fr) (hspec : Spec regs gone [] s code s') :
    Agree m (fun x => scope x && !decide (x ∈ gone)) s' env fr := by
  constructor
  · intro x
    rw [hspec.locals (by simp), h.scope]
    by_cases hx : x ∈ gone <;> simp [hx]
  · intro x r hx
    rw [hspec.locals (by simp)] at hx
    split at hx
    · exact absurd hx (by simp)
    · exact h.holds hx

/-- A name is known by the register that it is bound to. -/
theorem bind (h : Agree m scope s env fr) (name : String) {r : Nat} {v : RefValue} {v' : VmValue}
    (hr : fr.Holds r v') (hv : ValueRel m v v') :
    Agree m (fun x => x == name || scope x) (s.insertLocal name r) ((name, v) :: env) fr := by
  constructor
  · intro x
    by_cases hx : x = name <;> simp [Compiler.insertLocal, hx, h.scope]
  · intro x r' hx
    simp only [Compiler.insertLocal] at hx
    split at hx
    · next heq =>
        obtain rfl := Option.some.inj hx
        exact ⟨v, v', by simp [heq], hr, hv⟩
    · next hne =>
        obtain ⟨w, w', hlookup, hholds, hrel⟩ := h.holds hx
        refine ⟨w, w', ?_, hholds, hrel⟩
        rw [List.lookup_cons, beq_false_of_ne hne]
        exact hlookup

theorem congr (h : Agree m scope s env fr) {scope' : String → Bool}
    (hscope : ∀ x, scope' x = scope x) (hlocals : s'.locals = s.locals) :
    Agree m scope' s' env fr :=
  ⟨fun x => by rw [hscope, h.scope, hlocals], fun hx => h.holds (hlocals ▸ hx)⟩

end Agree

/-! ## Before a node -/

/-- With inline evaluation, the function has simple instructions only and the
guards of inline evaluation are up. -/
def InlineOk (inline : Bool) (c : Site) (func : BytecodeFunc) : Prop :=
  inline = true → c.inline = true ∧ ∀ instr ∈ func.instructions, isSimpleOp instr.op = true

/-- The frame before an expression, whatever its destination. -/
structure Inside (m : Machine World) (inline : Bool) (c : Site) (s : Compiler) (env : Env)
    (fr : Frame) : Prop where
  ready : Ready s
  agree : Agree m c.scope s env fr
  inlineOk : InlineOk inline c fr.func

/-- A self call restarts the function of the frame. -/
def TailOk (P : RefProgram World) (m : Machine World) (c : Site) (pos : Position)
    (func : BytecodeFunc) : Prop :=
  match pos with
  | .value => c.self = none
  | .tail fnName =>
    (c.self = some fnName ∧ ∀ fd, reserved fnName = false → P.functions fnName = some fd →
      TargetRel P m (.named fnName fd) [] func) ∨
    (c.self = none ∧ reserved fnName = true)

/-- The frame before a node that is compiled to `dst`. -/
structure At (P : RefProgram World) (m : Machine World) (inline : Bool) (c : Site)
    (pos : Position) (dst : Nat) (s : Compiler) (env : Env) (fr : Frame) : Prop
    extends Inside m inline c s env fr where
  gap : s.nextReg = dst + 1 + c.gap
  apart : ∀ x, s.locals x ≠ some dst
  tail : TailOk P m c pos fr.func

section Before

variable {P : RefProgram World} {inline : Bool} {c : Site} {pos : Position} {dst : Nat}

theorem At.dst_lt (h : At P m inline c pos dst s env fr) : dst < s.nextReg := by
  have hgap := h.gap
  omega

/-- A node that is compiled into a register of its own. -/
theorem Inside.temp (h : Inside m inline c s env fr) (P : RefProgram World) :
    At P m inline c.temp .value s.nextReg s.allocReg env fr where
  ready := (Spec.alloc s).ready h.ready
  agree := h.agree.congr (fun _ => rfl) rfl
  inlineOk := h.inlineOk
  gap := rfl
  apart _ hx := lt_irrefl _ (h.ready.locals_lt hx)
  tail := rfl

/-- Behind a node one is still inside, with the names that it loses lost. -/
theorem Inside.after (h : Inside m inline c s env fr) {regs : Nat} {gone : List String}
    {code : List Instruction} (hspec : Spec regs gone [] s code s')
    (hk : fr.Keeps s.nextReg fr') : Inside m inline (c.forget gone) s' env fr' where
  ready := hspec.ready h.ready
  agree := (h.agree.keeps h.ready hk).spec hspec
  inlineOk := hk.func ▸ h.inlineOk

/-- The same at a position with a destination. -/
theorem At.after (h : At P m inline c pos dst s env fr) {regs : Nat} {gone : List String}
    {code : List Instruction} (hspec : Spec regs gone [] s code s')
    (hk : fr.Keeps s.nextReg fr') :
    At P m inline ((c.forget gone).grow regs) pos dst s' env fr' where
  ready := hspec.ready h.ready
  agree := (h.agree.keeps h.ready hk).spec hspec
  inlineOk := hk.func ▸ h.inlineOk
  gap := by
    have hnext := hspec.nextReg
    have hgap := h.gap
    simp only [Site.grow, Site.forget]
    omega
  apart := hspec.apart h.apart
  tail := hk.func ▸ h.tail

/-- Binding a name in a register that is not the destination. -/
theorem At.bind (h : At P m inline c pos dst s env fr) (name : String) {r : Nat} {v : RefValue}
    {v' : VmValue} (hr : fr.Holds r v') (hne : r ≠ dst) (hlt : r < s.nextReg)
    (hv : ValueRel m v v') :
    At P m inline (c.bind name) pos dst (s.insertLocal name r) ((name, v) :: env) fr where
  ready := (Spec.insertLocal h.ready.toTidy name hlt).ready h.ready
  agree := h.agree.bind name hr hv
  inlineOk := h.inlineOk
  gap := h.gap
  apart := Compiler.insertLocal_apart h.apart hne name
  tail := h.tail

/-- A constant changes nothing of the position. -/
theorem At.addConstant (h : At P m inline c pos dst s env fr) (v : VmValue) :
    At P m inline c pos dst (s.addConstant v) env fr := by
  have hafter := h.after (Spec.addConstant h.ready.toTidy v) (.refl s.nextReg fr)
  rwa [Site.forget_nil, Site.grow_zero] at hafter

/-- The destination may be written before its time: no variable lives there. -/
theorem At.overwrite (h : At P m inline c pos dst s env fr) (hfunc : fr'.func = fr.func)
    (hothers : ∀ r, r ≠ dst → fr'.registers[r]? = fr.registers[r]?) :
    At P m inline c pos dst s env fr' where
  ready := h.ready
  agree := by
    refine ⟨h.agree.scope, fun {x r} hx => ?_⟩
    obtain ⟨v, v', hlookup, hholds, hrel⟩ := h.agree.holds hx
    have hne : r ≠ dst := fun heq => h.apart x (heq ▸ hx)
    exact ⟨v, v', hlookup, (hothers r hne).trans hholds, hrel⟩
  inlineOk := hfunc ▸ h.inlineOk
  gap := h.gap
  apart := h.apart
  tail := hfunc ▸ h.tail

end Before

/-! ## Running straight through a frame -/

section Runs

variable {inline : Bool} {rest : List Frame} {depth : Nat} {world : World}

/-- The machine gets from one state of the innermost frame to another. -/
def Runs (m : Machine World) (inline : Bool) (rest : List Frame) (depth : Nat) (world : World)
    (fr fr' : Frame) : Prop :=
  (m.host inline).Reaches ⟨fr :: rest, depth, world⟩ ⟨fr' :: rest, depth, world⟩

theorem Runs.refl (fr : Frame) : Runs m inline rest depth world fr fr :=
  Relation.ReflTransGen.refl

/-- A first step, which both evaluators can take. -/
theorem Runs.head {fr'' : Frame} {op : Op} {dst a b : Nat}
    (hinstr : fr.func.instructions[fr.ip]? = some ⟨op, dst, a, b⟩) (hop : sameInline op = true)
    (hstep : m.step ⟨fr :: rest, depth, world⟩ = .ok (.running ⟨fr' :: rest, depth, world⟩))
    (h : Runs m inline rest depth world fr' fr'') : Runs m inline rest depth world fr fr'' :=
  Relation.ReflTransGen.head (Machine.host_step hinstr hop hstep) h

/-- A first step of the main loop. -/
theorem Runs.head_main {fr'' : Frame}
    (hstep : m.step ⟨fr :: rest, depth, world⟩ = .ok (.running ⟨fr' :: rest, depth, world⟩))
    (h : Runs m false rest depth world fr' fr'') : Runs m false rest depth world fr fr'' :=
  Relation.ReflTransGen.head ⟨hstep, by simp⟩ h

/-- One run after the other. -/
theorem Runs.trans {fr'' : Frame} (h : Runs m inline rest depth world fr fr')
    (h' : Runs m inline rest depth world fr' fr'') : Runs m inline rest depth world fr fr'' :=
  Relation.ReflTransGen.trans h h'

/-- The registers hold the values. -/
def Frame.HoldsAll (fr : Frame) (regs : List Nat) (vals : List VmValue) : Prop :=
  List.Forall₂ fr.Holds regs vals

theorem Frame.HoldsAll.imp {regs : List Nat} {vals : List VmValue} (h : fr.HoldsAll regs vals)
    (himp : ∀ r ∈ regs, ∀ v, fr.Holds r v → fr'.Holds r v) : fr'.HoldsAll regs vals := by
  induction h with
  | nil => exact .nil
  | cons hv _ ih =>
    exact .cons (himp _ List.mem_cons_self _ hv)
      (ih fun r hr => himp r (List.mem_cons_of_mem _ hr))

variable (inline rest depth world) in
/-- The moves of a call put the arguments into its window. -/
theorem moveToSlots_runs {slot hi : Nat} {regs : List Nat} {vals : List VmValue}
    (hasc : Ascending slot regs hi) (hhi : hi ≤ fr.registers.length)
    (hholds : fr.HoldsAll regs vals)
    (hcode : CodeAt fr.func.instructions fr.ip (moveToSlots slot regs)) :
    ∃ fr', Runs m inline rest depth world fr fr' ∧ fr.Keeps slot fr' ∧
      fr'.ip = fr.ip + (moveToSlots slot regs).length ∧ fr'.HoldsFrom slot vals ∧
      ∀ {r v}, slot + regs.length ≤ r → fr.Holds r v → fr'.Holds r v := by
  induction regs generalizing slot vals fr with
  | nil =>
    cases hholds
    exact ⟨fr, .refl fr, .refl slot fr, rfl, by simp [Frame.HoldsFrom], fun _ h => h⟩
  | cons r regs ih =>
    obtain ⟨hle, hrest⟩ := hasc
    have hbound := hrest.lo_le
    cases hholds with
    | @cons _ v _ vals hv hvals =>
    rw [moveToSlots] at hcode
    -- The first register is moved, unless it is its slot; what lies behind stays.
    obtain ⟨fr₁, hrun₁, hkeep₁, hip₁, hslot₁, hrest₁⟩ : ∃ fr₁,
        Runs m inline rest depth world fr fr₁ ∧ fr.Keeps slot fr₁ ∧
        fr₁.ip = fr.ip + (if r ≠ slot then [(⟨.move, slot, r, 0⟩ : Instruction)] else []).length ∧
        fr₁.Holds slot v ∧ ∀ {r' v'}, slot + 1 ≤ r' → fr.Holds r' v' → fr₁.Holds r' v' := by
      by_cases hne : r ≠ slot
      · have hinstr := hcode.left
        rw [if_pos hne] at hinstr
        have hlt : slot < fr.registers.length := by omega
        refine ⟨fr.put slot v, .head hinstr.head rfl (Machine.step_move _ _ _ hinstr.head hlt hv)
          (.refl _), .put fr slot v, ?_, Frame.put_holds_same v hlt, fun hr' h' => ?_⟩
        · rw [if_pos hne]
          rfl
        · exact Frame.put_holds_of_ne h' (by omega)
      · obtain rfl := not_not.mp hne
        exact ⟨fr, .refl fr, .refl _ fr, by simp, hv, fun _ h => h⟩
    have hholds₁ : fr₁.HoldsAll regs vals := Frame.HoldsAll.imp hvals fun r' hr' v' h' =>
      hrest₁ (by have hge := hrest.le_of_mem r' hr'; omega) h'
    have hcode₁ : CodeAt fr₁.func.instructions fr₁.ip (moveToSlots (slot + 1) regs) := by
      rw [hkeep₁.func, hip₁]
      exact hcode.right
    obtain ⟨fr₂, hrun₂, hkeep₂, hip₂, hslots₂, hrest₂⟩ := ih (hrest.lower (by omega))
      (hkeep₁.length ▸ hhi) hholds₁ hcode₁
    refine ⟨fr₂, hrun₁.trans hrun₂, hkeep₁.trans (hkeep₂.mono (by omega)), ?_, ?_, ?_⟩
    · rw [hip₂, hip₁, moveToSlots, List.length_append, Nat.add_assoc]
    · intro i w hw
      cases i with
      | zero =>
        obtain rfl : v = w := by simpa using hw
        exact hkeep₂.holds (by omega) hslot₁
      | succ i =>
        have hnext := hslots₂ (i := i) hw
        rwa [show slot + 1 + i = slot + (i + 1) by omega] at hnext
    · intro r' w hle' hw
      simp only [List.length_cons] at hle'
      exact hrest₂ (by omega) (hrest₁ (by omega) hw)

end Runs

/-! ## Binding patterns -/

section Patterns

variable {rest : List Frame} {depth : Nat} {world : World}

variable (rest depth world) in
/-- The field of a list is read into a fresh register. -/
theorem extractField_runs {i innerReg : Nat} {items : List VmValue} {x : VmValue} (hs : Ready s)
    (hinner : innerReg < s.nextReg) (hholds : fr.Holds innerReg (.list items))
    (hitem : items[i]? = some x) (hfits : i < 0x8000000000000000)
    (hhost : Hosted m fr (extractField s i innerReg).state)
    (hcode : CodeAt fr.func.instructions fr.ip (extractField s i innerReg).code) :
    ∃ fr', Runs m false rest depth world fr fr' ∧ fr.Keeps s.nextReg fr' ∧ fr'.ip = fr.ip + 3 ∧
      fr'.Holds s.nextReg x.toRt := by
  have hspec := extractField_spec hs.toTidy i hinner
  have hbank := hspec.nextReg_le.trans hhost.registers
  rw [hspec.nextReg] at hbank
  simp only [extractField] at hcode hhost
  have hidx :
      ∃ c, fr.func.constants[(s.addConstant (.str "at")).allocReg.allocReg.allocReg.constantIndex
      (.int (.ofNat i))]? = some c ∧ c = .int (.ofNat i) := by
    obtain ⟨c, hc, rfl | hkey⟩ := hhost.constant
    · exact ⟨_, hc, rfl⟩
    · refine ⟨c, hc, ?_⟩
      cases c <;> simp [Compiler.sameKey, Value.valueEq] at hkey
      rw [hkey]
  obtain ⟨_, hidx, rfl⟩ := hidx
  have hat : Hosted m fr (s.addConstant (.str "at")) := by
    refine hhost.of_extends (Extends.trans ?_ (Compiler.addConstant_extends _ _))
    exact (Spec.alloc _).ext.trans ((Spec.alloc _).ext.trans (Spec.alloc _).ext)
  have hlt₁ : s.nextReg + 1 < fr.registers.length := by omega
  have hlt₂ : s.nextReg + 2 < fr.registers.length := by omega
  -- the list goes to the first call slot, the index to the second
  let fr₁ := fr.put (s.nextReg + 1) (.list items)
  let fr₂ := fr₁.put (s.nextReg + 2) (.int (.ofNat i))
  have hlist₁ : fr₁.Holds (s.nextReg + 1) (.list items) := Frame.put_holds_same _ hlt₁
  have hlen₁ : fr₁.registers.length = fr.registers.length := (Frame.Keeps.put _ _ _).length
  have hlist₂ : fr₂.Holds (s.nextReg + 1) (.list items) := Frame.put_holds_of_ne hlist₁ (by omega)
  have hindex₂ : fr₂.Holds (s.nextReg + 2) (.int (.ofNat i)) :=
    Frame.put_holds_same _ (hlen₁ ▸ hlt₂)
  have hlen₂ : fr₂.registers.length = fr.registers.length :=
    (Frame.Keeps.put _ _ _).length.trans hlen₁
  have hlt₀ : s.nextReg < fr₂.registers.length := by omega
  have hstep₁ := Machine.step_move rest depth world (m := m)
    hcode.head hlt₁ hholds
  have hstep₂ := Machine.step_loadConst rest depth world (m := m)
    (show fr₁.func.instructions[fr₁.ip]? = _ from hcode.tail.head) (hlen₁ ▸ hlt₂) hidx
  have hstep₃ := Machine.step_callBuiltin_at rest depth world (m := m)
    (show fr₂.func.instructions[fr₂.ip]? = _ from hcode.tail.tail.head) hat.stringConstant hlt₀
      hlist₂ hindex₂ hfits
    hitem
  refine ⟨fr₂.put s.nextReg x.toRt,
    .head_main hstep₁ (.head_main hstep₂ (.head_main hstep₃ (.refl _))), ?_, rfl,
    Frame.put_holds_same _ hlt₀⟩
  exact ((Frame.Keeps.put fr _ _).mono (by omega)).trans
    (((Frame.Keeps.put fr₁ _ _).mono (by omega)).trans (Frame.Keeps.put fr₂ _ _))

/-- The frame binds the variables of a pattern and goes on behind its code. -/
def Binds (m : Machine World) (rest : List Frame) (depth : Nat) (world : World)
    (names : List String) (scope : String → Bool) (binds env : Env) (lo : Nat) (e : Emitted)
    (fr : Frame) : Prop :=
  ∃ fr', Runs m false rest depth world fr fr' ∧ fr.Keeps lo fr' ∧
    fr'.ip = fr.ip + e.code.length ∧
    Agree m (fun x => decide (x ∈ names) || scope x) e.state (binds ++ env) fr'

/-- No code binds no name. -/
theorem Binds.refl (h : Agree m scope s env fr) :
    Binds m rest depth world [] scope [] env s.nextReg ⟨[], s⟩ fr :=
  ⟨fr, .refl fr, .refl _ fr, rfl, h.congr (by simp) rfl⟩

/-- One binding after the other. -/
theorem Binds.append {names names' : List String} {binds binds' : Env} {e e' : Emitted} {lo : Nat}
    (h : Binds m rest depth world names scope binds env lo e fr)
    (hle : lo ≤ e.state.nextReg)
    (h' : ∀ fr', fr.Keeps lo fr' → fr'.ip = fr.ip + e.code.length →
      Agree m (fun x => decide (x ∈ names) || scope x) e.state (binds ++ env) fr' →
      Binds m rest depth world names' (fun x => decide (x ∈ names) || scope x) binds'
        (binds ++ env) e.state.nextReg e' fr') :
    Binds m rest depth world (names ++ names') scope (binds' ++ binds) env lo
      ⟨e.code ++ e'.code, e'.state⟩ fr := by
  obtain ⟨fr₁, hrun₁, hkeep₁, hip₁, hagree₁⟩ := h
  obtain ⟨fr₂, hrun₂, hkeep₂, hip₂, hagree₂⟩ := h' fr₁ hkeep₁ hip₁ hagree₁
  refine ⟨fr₂, hrun₁.trans hrun₂, hkeep₁.trans (hkeep₂.mono hle), ?_, ?_⟩
  · rw [hip₂, hip₁, List.length_append, Nat.add_assoc]
  · rw [List.append_assoc]
    refine hagree₂.congr (fun x => ?_) rfl
    by_cases hx : x ∈ names <;> by_cases hx' : x ∈ names' <;> simp [hx, hx']

variable (rest depth world) in
/-- A nested variant pattern that matches. -/
theorem Binds.matchTag {tag : String} {names : List String} {binds : Env} {x : VmValue}
    {valueReg : Nat} {e : Emitted} (hs : Ready s)
    (hhost : Hosted m fr (s.addConstant (.str tag)))
    (hbank : s.nextReg < fr.registers.length) (hholds : fr.Holds valueReg (.variant tag x))
    (hinstr : fr.func.instructions[fr.ip]? =
      some ⟨.matchTag, s.nextReg, valueReg, s.constantIndex (.str tag)⟩)
    (hagree : Agree m scope s env fr)
    (h : ∀ fr', fr.Keeps s.nextReg fr' → fr'.ip = fr.ip + 1 → fr'.Holds s.nextReg x →
      Agree m scope (s.addConstant (.str tag)).allocReg env fr' →
      Binds m rest depth world names scope binds env (s.nextReg + 1) e fr') :
    Binds m rest depth world names scope binds env s.nextReg
      ⟨⟨.matchTag, s.nextReg, valueReg, s.constantIndex (.str tag)⟩ :: e.code, e.state⟩ fr := by
  have hstep := Machine.step_matchTag_hit rest depth world (m := m)
    hinstr hbank hhost.stringConstant hholds
  have hkeep : fr.Keeps s.nextReg { fr.put s.nextReg x with matchFlag := true } :=
    ⟨rfl, rfl, (Frame.Keeps.put fr _ x).length, (Frame.Keeps.put fr _ x).below⟩
  obtain ⟨fr', hrun, hkeep', hip, hagree'⟩ := h { fr.put s.nextReg x with matchFlag := true } hkeep
    rfl (Frame.put_holds_same x hbank)
    ((hagree.keeps hs hkeep).congr (fun _ => rfl) (by simp [Compiler.allocReg]))
  refine ⟨fr', .head_main hstep hrun, hkeep.trans (hkeep'.mono (Nat.le_succ _)), ?_, hagree'⟩
  · rw [hip, List.length_cons]
    show fr.ip + 1 + e.code.length = _
    omega

section

variable (m rest depth world)

/-- The variables of the pattern are bound from a register. -/
def PatternBinds (pat : IRPattern) : Prop :=
  ∀ ⦃s : Compiler⦄ ⦃fr : Frame⦄ ⦃valueReg : Nat⦄ ⦃v : RefValue⦄ ⦃v' : VmValue⦄ ⦃binds env : Env⦄
    ⦃scope : String → Bool⦄, Ready s → valueReg < s.nextReg → fr.Holds valueReg v' →
    ValueRel m v v' → matchPattern pat v = some binds → indexable pat = true →
    CodeAt fr.func.instructions fr.ip (bindPattern pat valueReg s).code →
    Hosted m fr (bindPattern pat valueReg s).state → Agree m scope s env fr →
    Binds m rest depth world pat.bindings scope binds env s.nextReg
      (bindPattern pat valueReg s) fr

/-- The fields of a payload in a register are bound. -/
def FieldsBind (pats : List IRPattern) : Prop :=
  ∀ ⦃s : Compiler⦄ ⦃fr : Frame⦄ ⦃innerReg : Nat⦄ ⦃v : RefValue⦄ ⦃v' : VmValue⦄ ⦃binds env : Env⦄
    ⦃scope : String → Bool⦄, Ready s → innerReg < s.nextReg → fr.Holds innerReg v' →
    ValueRel m v v' → matchFields pats v = some binds → pats.length < 0x8000000000000000 →
    indexableList pats = true →
    CodeAt fr.func.instructions fr.ip (bindFields pats innerReg s).code →
    Hosted m fr (bindFields pats innerReg s).state → Agree m scope s env fr →
    Binds m rest depth world (IRPattern.bindingsList pats) scope binds env s.nextReg
      (bindFields pats innerReg s) fr

/-- The variables of the patterns are bound from the elements of a list, from a position on. -/
def MultiFieldBinds (pats : List IRPattern) : Prop :=
  ∀ (i : Nat) ⦃s : Compiler⦄ ⦃fr : Frame⦄ ⦃innerReg : Nat⦄ ⦃items : List RefValue⦄
    ⦃items' : List VmValue⦄ ⦃binds env : Env⦄ ⦃scope : String → Bool⦄, Ready s →
    innerReg < s.nextReg → fr.Holds innerReg (.list items') → ValuesRel m items items' →
    matchEach pats (items.drop i) = some binds → i + pats.length < 0x8000000000000000 →
    indexableList pats = true →
    CodeAt fr.func.instructions fr.ip (bindMultiField pats i innerReg s).code →
    Hosted m fr (bindMultiField pats i innerReg s).state → Agree m scope s env fr →
    Binds m rest depth world (IRPattern.bindingsList pats) scope binds env s.nextReg
      (bindMultiField pats i innerReg s) fr

/-- The variables of the pattern are bound from an element of a list. -/
def FieldBinds (pat : IRPattern) : Prop :=
  ∀ (i : Nat) ⦃s : Compiler⦄ ⦃fr : Frame⦄ ⦃innerReg : Nat⦄ ⦃items : List RefValue⦄
    ⦃items' : List VmValue⦄ ⦃item : RefValue⦄ ⦃binds env : Env⦄ ⦃scope : String → Bool⦄,
    Ready s → innerReg < s.nextReg → fr.Holds innerReg (.list items') →
    ValuesRel m items items' → items[i]? = some item → matchPattern pat item = some binds →
    i < 0x8000000000000000 → indexable pat = true →
    CodeAt fr.func.instructions fr.ip (bindField pat i innerReg s).code →
    Hosted m fr (bindField pat i innerReg s).state → Agree m scope s env fr →
    Binds m rest depth world pat.bindings scope binds env s.nextReg (bindField pat i innerReg s) fr

end

variable (rest depth world)

/-- A variant pattern binds what its fields do. -/
theorem variant_binds {tag : String} {subPats : List IRPattern}
    (hbind : FieldsBind m rest depth world subPats) {valueReg : Nat} {v : RefValue} {v' : VmValue}
    {binds : Env} (hs : Ready s) (hholds : fr.Holds valueReg v') (hv : ValueRel m v v')
    (hmatch : matchPattern (.variant tag subPats) v = some binds)
    (hidx : indexable (.variant tag subPats) = true)
    (hcode : CodeAt fr.func.instructions fr.ip (bindPattern (.variant tag subPats) valueReg s).code)
    (hhost : Hosted m fr (bindPattern (.variant tag subPats) valueReg s).state)
    (hagree : Agree m scope s env fr) :
    Binds m rest depth world (IRPattern.variant tag subPats).bindings scope binds env s.nextReg
      (bindPattern (.variant tag subPats) valueReg s) fr := by
  cases hv with
  | variant tagName hinner =>
    simp only [matchPattern] at hmatch
    split at hmatch
    · next heq =>
        obtain rfl := heq
        simp only [indexable, Bool.and_eq_true, decide_eq_true_eq] at hidx
        simp only [bindPattern, Compiler.addConstant_nextReg, IRPattern.bindings] at hcode hhost ⊢
        have htag := (Spec.addConstant hs.toTidy (.str tagName)).append (.alloc _)
        have hst := htag.ready hs
        have hnext := htag.nextReg
        have hfields := bindFields_spec subPats hst.toTidy (show s.nextReg < _ by omega)
        have hbank := hfields.nextReg_le.trans hhost.registers
        have hnextFields := hfields.nextReg
        refine .matchTag _ _ _ hs
          (hhost.of_extends ((Spec.alloc _).ext.trans hfields.ext)) (by omega)
          hholds hcode.head hagree fun fr' hkeep hip hinner' hagree' => ?_
        have hbinds := hbind hst (by omega) hinner' hinner hmatch hidx.1
          hidx.2 (by rw [hkeep.func, hip]; exact hcode.tail) (hhost.keeps hkeep) hagree'
        rwa [show (s.addConstant (.str tagName)).allocReg.nextReg = s.nextReg + 1 by
          simp [Compiler.allocReg]] at hbinds
    · exact absurd hmatch (by simp)
  | _ => simp [matchPattern] at hmatch

mutual

/-- A pattern that matches binds its names to related parts, by induction on it. -/
theorem bindPattern_binds : ∀ pat : IRPattern, PatternBinds m rest depth world pat
  | .wild => fun s fr valueReg v v' binds env scope hs hreg hholds hv hmatch hidx hcode hhost
      hagree => by
      obtain rfl : [] = binds := by simpa [matchPattern] using hmatch
      simp only [bindPattern, IRPattern.bindings]
      exact .refl hagree
  | .lit c => fun s fr valueReg v v' binds env scope hs hreg hholds hv hmatch hidx hcode hhost
      hagree => by
      simp only [matchPattern] at hmatch
      split at hmatch
      · obtain rfl := Option.some.inj hmatch
        simp only [bindPattern, IRPattern.bindings]
        exact .refl hagree
      · exact absurd hmatch (by simp)
  | .bind name => fun s fr valueReg v v' binds env scope hs hreg hholds hv hmatch hidx hcode hhost
      hagree => by
      obtain rfl : [(name, v)] = binds := by simpa [matchPattern] using hmatch
      simp only [bindPattern, IRPattern.bindings]
      refine ⟨fr, .refl fr, .refl _ fr, rfl, (hagree.bind name hholds hv).congr (fun x => ?_) rfl⟩
      by_cases hx : x = name <;> simp [hx]
  | .variant tag subPats => fun s fr valueReg v v' binds env scope hs hreg hholds hv hmatch hidx
      hcode hhost hagree =>
      variant_binds rest depth world (bindFields_binds subPats) hs hholds hv hmatch hidx hcode hhost
        hagree

theorem bindFields_binds : ∀ pats : List IRPattern, FieldsBind m rest depth world pats
  | [] => fun s fr innerReg v v' binds env scope hs hreg hholds hv hmatch hlen hidx hcode hhost
      hagree => by
      cases hv <;> simp only [matchFields, reduceCtorEq, Option.some.injEq] at hmatch
      subst hmatch
      simp only [bindFields, IRPattern.bindingsList]
      exact .refl hagree
  | [pat] => fun s fr innerReg v v' binds env scope hs hreg hholds hv hmatch hlen hidx hcode hhost
      hagree => by
      simp only [matchFields] at hmatch
      simp only [indexableList, Bool.and_true] at hidx
      simp only [bindFields, IRPattern.bindingsList, List.append_nil] at hcode hhost ⊢
      exact bindPattern_binds pat hs hreg hholds hv hmatch hidx hcode hhost hagree
  | pat :: pat' :: pats => fun s fr innerReg v v' binds env scope hs hreg hholds hv hmatch hlen
      hidx hcode hhost hagree => by
      cases hv with
      | @list items items' hitems =>
        simp only [matchFields] at hmatch
        simp only [bindFields] at hcode hhost ⊢
        have hat := Spec.addConstant hs.toTidy (.str "at")
        have hbinds :=
          bindMultiField_binds (pat :: pat' :: pats) 0 (hat.ready hs) (by simpa using hreg)
          hholds hitems (by simpa using hmatch) (by simpa using hlen) hidx
          (by simpa [bindMultiField] using hcode) (by simpa [bindMultiField] using hhost)
          (hagree.congr (fun _ => rfl) (by simp))
        simpa [bindMultiField] using hbinds
      | _ => simp [matchFields] at hmatch

theorem bindMultiField_binds : ∀ pats : List IRPattern, MultiFieldBinds m rest depth world pats
  | [] => fun i s fr innerReg items items' binds env scope hs hreg hholds hitems hmatch hlen hidx
      hcode hhost hagree => by
      cases hdrop : items.drop i with
      | nil =>
        rw [hdrop] at hmatch
        obtain rfl : [] = binds := by simpa [matchEach] using hmatch
        simp only [bindMultiField, IRPattern.bindingsList]
        exact .refl hagree
      | cons item items => simp [hdrop, matchEach] at hmatch
  | pat :: pats => fun i s fr innerReg items items' binds env scope hs hreg hholds hitems hmatch
      hlen hidx hcode hhost hagree => by
      cases hdrop : items.drop i with
      | nil => simp [hdrop, matchEach] at hmatch
      | cons item rest' =>
        rw [hdrop] at hmatch
        simp only [matchEach] at hmatch
        have hitem : items[i]? = some item := by
          have h0 := congrArg (fun l => l[0]?) hdrop
          simpa using h0
        have hrest : items.drop (i + 1) = rest' := by
          rw [← List.drop_drop, hdrop]
          rfl
        cases hfirst : matchPattern pat item with
        | none => simp [hfirst] at hmatch
        | some first =>
          cases hothers : matchEach pats rest' with
          | none => simp [hfirst, hothers] at hmatch
          | some others =>
            obtain rfl : others ++ first = binds := by simpa [hfirst, hothers] using hmatch
            simp only [indexableList, Bool.and_eq_true] at hidx
            simp only [List.length_cons] at hlen
            have hspec := bindField_spec pat i hs.toTidy hreg
            have hsf := hspec.ready hs
            have hnext := hspec.nextReg
            have hspecRest :=
              bindMultiField_spec pats (i + 1) hsf.toTidy (show innerReg < _ by omega)
            simp only [bindMultiField, IRPattern.bindingsList] at hcode hhost ⊢
            refine .append (bindField_binds pat i hs hreg hholds hitems hitem hfirst (by omega)
              hidx.1 hcode.left (hhost.of_extends hspecRest.ext) hagree) (by omega)
              fun fr' hkeep hip hagree' => ?_
            refine bindMultiField_binds pats (i + 1) hsf (by omega) (hkeep.holds hreg hholds)
              hitems (hrest ▸ hothers) (by omega) hidx.2 ?_ (hhost.keeps hkeep) hagree'
            rw [hkeep.func, hip]
            exact hcode.right

theorem bindField_binds : ∀ pat : IRPattern, FieldBinds m rest depth world pat
  | .wild => fun i s fr innerReg items items' item binds env scope hs hreg hholds hitems hitem
      hmatch hlen hidx hcode hhost hagree => by
      obtain rfl : [] = binds := by simpa [matchPattern] using hmatch
      simp only [bindField, IRPattern.bindings]
      exact .refl hagree
  | .lit c => fun i s fr innerReg items items' item binds env scope hs hreg hholds hitems hitem
      hmatch hlen hidx hcode hhost hagree => by
      simp only [matchPattern] at hmatch
      split at hmatch
      · obtain rfl := Option.some.inj hmatch
        simp only [bindField, IRPattern.bindings]
        exact .refl hagree
      · exact absurd hmatch (by simp)
  | .bind name => fun i s fr innerReg items items' item binds env scope hs hreg hholds hitems
      hitem hmatch hlen hidx hcode hhost hagree => by
      obtain rfl : [(name, item)] = binds := by simpa [matchPattern] using hmatch
      obtain ⟨x, hx, hrel⟩ := hitems.getElem?_left hitem
      simp only [bindField, IRPattern.bindings] at hcode hhost ⊢
      have hspec := extractField_spec hs.toTidy i hreg
      obtain ⟨fr', hrun, hkeep, hip, hx'⟩ :=
        extractField_runs rest depth world hs hreg hholds hx hlen
        (hhost.of_extends (Compiler.insertLocal_extends _ _ _)) hcode
      rw [hrel.toRt_eq] at hx'
      refine ⟨fr', hrun, hkeep, hip, (((hagree.keeps hs hkeep).spec hspec).bind name hx' hrel).congr
        (fun y => ?_) rfl⟩
      by_cases hy : y = name <;> simp [hy]
  | .variant tag nested => fun i s fr innerReg items items' item binds env scope hs hreg hholds
      hitems hitem hmatch hlen hidx hcode hhost hagree => by
      obtain ⟨x, hx, hrel⟩ := hitems.getElem?_left hitem
      have hspec := extractField_spec hs.toTidy i hreg
      have hsf := hspec.ready hs
      have hnext := hspec.nextReg
      -- behind the extraction stands the code of the variant in the register of the field
      have hfield : bindField (.variant tag nested) i innerReg s =
          ⟨(extractField s i innerReg).code ++
              (bindPattern (.variant tag nested) s.nextReg (extractField s i innerReg).state).code,
            (bindPattern (.variant tag nested) s.nextReg
              (extractField s i innerReg).state).state⟩ :=
        rfl
      rw [hfield] at hcode hhost ⊢
      have hnested := bindPattern_spec (.variant tag nested) hsf.toTidy
        (show s.nextReg < (extractField s i innerReg).state.nextReg by omega)
      obtain ⟨fr₁, hrun₁, hkeep₁, hip₁, hx₁⟩ :=
        extractField_runs rest depth world hs hreg hholds hx hlen
        (hhost.of_extends hnested.ext) hcode.left
      rw [hrel.toRt_eq] at hx₁
      have hcode₁ := hcode.right
      rw [show fr.ip + (extractField s i innerReg).code.length = fr₁.ip from hip₁.symm,
        ← hkeep₁.func] at hcode₁
      have hagree₁ : Agree m scope (extractField s i innerReg).state env fr₁ :=
        ((hagree.keeps hs hkeep₁).spec hspec).congr (by simp) rfl
      obtain ⟨fr₂, hrun₂, hkeep₂, hip₂, hagree₂⟩ := variant_binds rest depth world
        (bindFields_binds nested) hsf hx₁ hrel hmatch hidx hcode₁ (hhost.keeps hkeep₁) hagree₁
      refine ⟨fr₂, hrun₁.trans hrun₂, hkeep₁.trans (hkeep₂.mono (by omega)), ?_, hagree₂⟩
      rw [hip₂, hip₁, List.length_append, Nat.add_assoc]
      rfl

end

end Patterns

end Airl
