import Airl.Correctness.Frames

/-! # Compiled expressions simulate the guarded evaluator

The machine, started in front of the code of a node in a frame that agrees with
the environment, does what the guarded evaluator says of the node.
-/

namespace Airl

open Transition (Host Outcome)

variable {World : Type} {P : RefProgram World} {m : Machine World} {inline : Bool} {k : Nat}
  {fr fr' : Frame} {rest : List Frame} {depth : Nat} {world : World}

/-- The site is in tail position of a function without postconditions, so that
a self call may restart it. -/
def Site.Restarts (P : RefProgram World) (c : Site) : Prop :=
  ∃ name fd, c.self = some name ∧ reserved name = false ∧ P.functions name = some fd ∧
    fd.contracts.invariants = [] ∧ fd.contracts.ensures = []

/-- The node is done, or a self call in tail position has brought the whole
activation to its end. -/
def Post (P : RefProgram World) (m : Machine World) (c : Site) (dst count : Nat) (fr : Frame)
    (rest : List Frame)
    (depth : Nat) (v : RefValue) (world : World) (vm : Vm World) : Prop :=
  Done m dst count fr rest depth v world vm ∨
    (c.Restarts P ∧ AtReturn m rest depth fr.returnReg v world vm)

theorem Post.done {c : Site} {dst count : Nat} {v : RefValue} {vm : Vm World}
    (h : Post P m c dst count fr rest depth v world vm) (hself : c.self = none) :
    Done m dst count fr rest depth v world vm := by
  rcases h with h | ⟨⟨name, -, hname, -⟩, -⟩
  · exact h
  · simp [hself] at hname

/-- A simulation that begins later in the same code. -/
theorem simulates_from {c c' : Site} {dst count before total : Nat} {vm : Vm World}
    {r : Res World RefValue}
    (h : (m.host inline).Simulates k vm r (Post P m c' dst count fr' rest depth))
    (hkeep : fr.Keeps dst fr') (hip : fr'.ip = fr.ip + before) (hself : c'.self = c.self)
    (htotal : before + count = total) :
    (m.host inline).Simulates k vm r (Post P m c dst total fr rest depth) := by
  refine h.mono fun v w vm hpost => ?_
  rcases hpost with ⟨fr'', v', rfl, hkeep', hip', hholds, hrel⟩ | ⟨⟨name, fd, hname, hfd⟩, hreturn⟩
  · exact Or.inl ⟨fr'', v', rfl, hkeep.trans hkeep', by omega, hholds, hrel⟩
  · exact Or.inr ⟨⟨name, fd, hself ▸ hname, hfd⟩, hkeep.returnReg ▸ hreturn⟩

/-- One that begins behind a jump. -/
theorem simulates_jump {c : Site} {dst count distance total : Nat} {vm : Vm World}
    {r : Res World RefValue}
    (h : (m.host inline).Simulates k vm r (Post P m c dst count fr rest depth))
    (hfits : distance < 32768) (hshort : fr.ip + count + 1 + distance < 2147483648)
    (hinstr : fr.func.instructions[fr.ip + count]? = some ⟨.jump, 0, toU16 distance, 0⟩)
    (htotal : count + 1 + distance = total) :
    (m.host inline).Simulates k vm r (Post P m c dst total fr rest depth) := by
  refine h.and_then fun v w vm hpost => ?_
  rcases hpost with ⟨fr', v', rfl, hkeep, hip, hholds, hrel⟩ | hreturn
  · rw [← hkeep.func, ← hip] at hinstr
    refine ⟨_, .single (Machine.host_step hinstr rfl (Machine.step_jump hfits
      (hip ▸ hshort) hinstr)), Or.inl
      ⟨_, v', rfl, hkeep.trans (.advance dst fr' _), ?_, hholds, hrel⟩⟩
    rw [Frame.advance_ip, hip]
    omega
  · exact ⟨vm, .refl, Or.inr hreturn⟩

/-- What is done stays done. -/
theorem simulates_done {c : Site} {dst count : Nat} {vm : Vm World} {r : Res World RefValue}
    (h : (m.host inline).Simulates k vm r (Done m dst count fr rest depth)) :
    (m.host inline).Simulates k vm r (Post P m c dst count fr rest depth) :=
  h.mono fun _ _ _ hdone => Or.inl hdone

/-- A run that comes first. -/
theorem Runs.simulates {α : Type} {r : Res World α} {post : α → World → Vm World → Prop}
    (hrun : Runs m inline rest depth world fr fr')
    (h : (m.host inline).Simulates k ⟨fr' :: rest, depth, world⟩ r post) :
    (m.host inline).Simulates k ⟨fr :: rest, depth, world⟩ r post :=
  h.of_reaches hrun

theorem CodeAt.keeps {lo before : Nat} {code : List Instruction}
    (h : CodeAt fr.func.instructions (fr.ip + before) code) (hkeep : fr.Keeps lo fr')
    (hip : fr'.ip = fr.ip + before) : CodeAt fr'.func.instructions fr'.ip code := by
  rw [hkeep.func, hip]
  exact h

section Single

variable {c : Site} {dst : Nat} {s : Compiler}

/-- A literal is loaded from the pool. -/
theorem loadConstant_sim {v : RefValue} {val : VmValue} (hv : ValueRel m v val)
    (hpool : ∀ w, Compiler.sameKey val w = true → w = val)
    (hcode : CodeAt fr.func.instructions fr.ip (s.loadConstant val dst).code)
    (hhost : Hosted m fr (s.loadConstant val dst).state) (hdst : dst < fr.registers.length) :
    (m.host inline).Simulates k ⟨fr :: rest, depth, world⟩ (.ok v world)
      (Post P m c dst (s.loadConstant val dst).code.length fr rest depth) := by
  obtain ⟨w, hw, hkey⟩ := hhost.constant (v := val)
  obtain rfl : w = val := hkey.elim id (hpool w)
  have hstep := Machine.step_loadConst rest depth world (m := m)
    hcode.head hdst hw
  rw [hv.toRt_eq] at hstep
  refine (Host.simulates_ok (Or.inl (done_put hdst hv))).of_step ⟨hstep, fun _ => ?_⟩
  refine Vm.inlineSafe_of_instr hcode.head ⟨fun _ c hc => ?_, by simp, fun _ _ => rfl⟩
  obtain rfl : w = c := Option.some.inj (hw.symm.trans hc)
  exact hv.toRt_eq

/-- Only the same integer has its key. -/
theorem sameKey_int {n : Int64} : ∀ w, Compiler.sameKey (.int n) w = true → w = .int n := by
  intro w h
  cases w <;> simp [Compiler.sameKey, Value.valueEq] at h
  rw [h]

theorem sameKey_float {bits : UInt64} :
    ∀ w, Compiler.sameKey (.float bits) w = true → w = .float bits := by
  intro w h
  cases w <;> simp [Compiler.sameKey, Value.valueEq] at h
  rw [h]

theorem sameKey_str {x : String} : ∀ w, Compiler.sameKey (.str x) w = true → w = .str x := by
  intro w h
  cases w <;> simp [Compiler.sameKey, Value.valueEq] at h
  rw [h]

end Single

/-- The arguments are evaluated, each into its register. -/
def ArgsDone (m : Machine World) (lo : Nat) (regs : List Nat) (count : Nat) (fr : Frame)
    (rest : List Frame) (depth : Nat) (vals : List RefValue) (world : World)
    (vm : Vm World) : Prop :=
  ∃ fr' vals', vm = ⟨fr' :: rest, depth, world⟩ ∧ fr.Keeps lo fr' ∧ fr'.ip = fr.ip + count ∧
    fr'.HoldsAll regs vals' ∧ ValuesRel m vals vals'

theorem Frame.HoldsAll.length_eq {regs : List Nat} {vals : List VmValue}
    (h : fr.HoldsAll regs vals) : regs.length = vals.length :=
  List.Forall₂.length_eq h

/-- Registers in a row are a window. -/
theorem Frame.HoldsAll.holdsFrom {start count : Nat} {vals : List VmValue}
    (h : fr.HoldsAll (List.range' start count) vals) : fr.HoldsFrom start vals := by
  induction count generalizing start vals with
  | zero =>
    cases h
    intro i v hv
    simp at hv
  | succ count ih =>
    cases h with
    | cons hv hvals =>
      intro i v hi
      cases i with
      | zero =>
        obtain rfl := Option.some.inj hi
        exact hv
      | succ i =>
        have hnext := ih hvals (i := i) hi
        rwa [show start + 1 + i = start + (i + 1) by omega] at hnext

section Calls

variable {enter : Bool → Target → List RefValue → World → Res World RefValue} {c : Site}
  {dst : Nat} {s : Compiler} {env : Env}

variable (inline rest depth world) in
/-- An endangered callee is copied out of the way. -/
theorem saveCallee_runs {callee : Option Nat} {count : Nat} {f : VmValue}
    (hholds : ∀ r, callee = some r → fr.Holds r f)
    (hcode : CodeAt fr.func.instructions fr.ip (saveCallee callee dst count s).code)
    (hbank : (saveCallee callee dst count s).state.nextReg ≤ fr.registers.length) :
    ∃ fr', Runs m inline rest depth world fr fr' ∧ fr.Keeps s.nextReg fr' ∧
      fr'.ip = fr.ip + (saveCallee callee dst count s).code.length ∧
      (endangered callee dst count = true → fr'.Holds s.nextReg f) := by
  cases callee with
  | none => exact ⟨fr, .refl fr, .refl _ fr, rfl, by simp [endangered]⟩
  | some orig =>
    simp only [saveCallee] at hcode hbank ⊢
    split
    · next h =>
        rw [if_pos h] at hcode hbank
        have hlt : s.nextReg < fr.registers.length := hbank
        exact ⟨_, .head hcode.head rfl (Machine.step_move _ _ _ hcode.head hlt (hholds orig rfl))
          (.refl _), .put fr _ f, rfl, fun _ => Frame.put_holds_same f hlt⟩
    · next h => exact ⟨fr, .refl fr, .refl _ fr, rfl, fun h' => absurd h' h⟩

variable (rest depth world) in
/-- A call whose window is filled. -/
theorem emitCall_sim (safe : Nat) (hE : Enters P m inline k enter) (hL : Linked P m) {name : String}
    {args : List RefValue} {args' : List VmValue} (hname : reserved name = false)
    (hself : c.self ≠ some name) (hop : RefProgram.operator name args = none)
    (hscope : c.scope name = (s.locals name).isSome)
    (hcallee : ∀ r, s.locals name = some r → ∃ f f', env.lookup name = some f ∧
      fr.Holds (if endangered (some r) dst args'.length then safe else r) f' ∧ ValueRel m f f')
    (hdst : dst < fr.registers.length) (hargs : ValuesRel m args args')
    (hslots : fr.HoldsFrom (dst + 1) args') {s' : Compiler}
    (hcode : CodeAt fr.func.instructions fr.ip
      (emitCall name (s.locals name) safe dst args'.length s').code)
    (hhost : Hosted m fr (emitCall name (s.locals name) safe dst args'.length s').state) :
    (m.host inline).Simulates k ⟨fr :: rest, depth, world⟩
      (P.guardedCallName enter c name env args world) (Done m dst 1 fr rest depth) := by
  unfold RefProgram.guardedCallName
  rw [if_neg (by simp [hname]), if_neg hself, hop]
  simp only
  cases hlocal : s.locals name with
  | none =>
    rw [hlocal] at hscope hcode hhost
    simp only [emitCall] at hcode hhost
    rw [hscope]
    cases env.lookup name with
    | some f => trivial
    | none => exact guardedNamed_sim hE hL hcode.head hdst hhost.stringConstant hargs hslots
  | some r =>
    rw [hlocal] at hscope hcode hhost
    obtain ⟨f, f', hlookup, hholds, hrel⟩ := hcallee r hlocal
    simp only [emitCall] at hcode
    rw [hscope, hlookup]
    exact guardedValue_sim hE hL hcode.head hdst hholds hrel hargs hslots

/-- A call whose arguments are in registers. -/
theorem generalCall_sim (hE : Enters P m inline k enter) (hL : Linked P m) {name : String}
    {args : List IRNode} {all : EmittedArgs} {vals : List RefValue} {vals' : List VmValue}
    (hs : Ready s) (hdst : dst < s.nextReg) (hagree : Agree m c.scope s env fr)
    (hall : ArgsSpec args s all) (hname : reserved name = false) (hself : c.self ≠ some name)
    (hop : RefProgram.operator name vals = none) (hrel : ValuesRel m vals vals')
    {fr₀ : Frame} (hkeep : fr₀.Keeps s.nextReg fr) (hip : fr.ip = fr₀.ip + all.code.length)
    (hholds : fr.HoldsAll all.regs vals')
    (hcode : CodeAt fr₀.func.instructions fr₀.ip (generalCall name args dst s all).code)
    (hhost : Hosted m fr₀ (generalCall name args dst s all).state) :
    (m.host inline).Simulates k ⟨fr :: rest, depth, world⟩
      (P.guardedCallName enter c name env vals world)
      (Done m dst (generalCall name args dst s all).code.length fr₀ rest depth) := by
  have hsa := hall.spec.ready hs
  have hnext := hall.spec.nextReg
  have hcount : vals'.length = args.length := by rw [← hholds.length_eq, hall.length]
  have hlocals : ∀ r, s.locals name = some r → r < all.state.nextReg := fun r hr => by
    have hlt := hs.locals_lt hr
    omega
  have hsaved := saveCallee_spec hsa.toTidy dst args.length hlocals
  have hres := Spec.reserveSlots (hsaved.ready hsa).toTidy dst args.length
  have hsr := hres.ready (hsaved.ready hsa)
  have hnextSaved := hsaved.nextReg
  have hnextRes := hres.nextReg
  have hcallSpec :=
    emitCall_spec hsr.toTidy name (s.locals name) all.state.nextReg dst args.length (by omega)
    (fun r hr => by
      have hlt := hlocals r hr
      omega)
    (fun h => by
      rw [if_pos h] at hnextSaved
      omega)
    (reserveSlots_reserved _ dst args.length)
  simp only [generalCall, hs.noOwnership, List.append_nil, Nat.max_eq_left hdst] at hcode hhost ⊢
  have hhostCall := (hhost.of_extends (Compiler.freeRegTo_extends _ _) :
    Hosted m fr₀ (emitCall name (s.locals name) all.state.nextReg dst args.length
      ((saveCallee (s.locals name) dst args.length all.state).state.reserveSlots dst
        args.length)).state)
  have hhostSaved := (hhostCall.of_extends (hres.ext.trans hcallSpec.ext)).keeps hkeep
  have hbankSaved := hsaved.nextReg_le.trans hhostSaved.registers
  have hcodeSaved := CodeAt.keeps hcode.left.left.right hkeep hip
  obtain ⟨f', hf'⟩ : ∃ f', ∀ r, s.locals name = some r →
      ∃ f, env.lookup name = some f ∧ fr.Holds r f' ∧ ValueRel m f f' := by
    cases hlocal : s.locals name with
    | none => exact ⟨.nil, by simp⟩
    | some r =>
      obtain ⟨f, f', hlookup, hr, hrel⟩ := hagree.holds hlocal
      exact ⟨f', fun r' hr' => Option.some.inj hr' ▸ ⟨f, hlookup, hr, hrel⟩⟩
  -- the callee is saved, then the arguments move to their slots
  obtain ⟨fr₁, hrun₁, hkeep₁, hip₁, hsafe₁⟩ := saveCallee_runs inline rest depth world (m := m)
    (fun r hr => by
      obtain ⟨f, -, hholds, -⟩ := hf' r hr
      exact hholds) hcodeSaved hbankSaved
  have hkeepAll := hkeep.trans (hkeep₁.mono (show s.nextReg ≤ all.state.nextReg by omega))
  have hcodeMoves := CodeAt.keeps hcode.left.right hkeepAll (by
    rw [hip₁, hip, List.length_append]
    omega)
  have hholds₁ : fr₁.HoldsAll all.regs vals' := Frame.HoldsAll.imp hholds fun r hr v hv =>
    hkeep₁.holds (hall.ascending.lt_of_mem r hr) hv
  have hdst' : dst + 1 ≤ s.nextReg := hdst
  obtain ⟨fr₂, hrun₂, hkeep₂, hip₂, hslots₂, hrest₂⟩ :=
    moveToSlots_runs inline rest depth world (m := m) (hall.ascending.lower hdst')
    (by
      have hle := hsa.nextReg_le.trans (hsaved.ext.maxReg.trans hhostSaved.registers)
      rw [hkeep₁.length]
      exact hle) hholds₁ hcodeMoves
  have hkeep₀₂ : fr₀.Keeps (dst + 1) fr₂ := (hkeepAll.mono hdst).trans hkeep₂
  have hcodeCall := CodeAt.keeps hcode.right hkeep₀₂ (by
    rw [hip₂, hip₁, hip, List.length_append, List.length_append]
    omega)
  have hhostFr₂ := hhostCall.keeps hkeep₀₂
  have hbank : dst < fr₂.registers.length := by
    have hle := (hcallSpec.ready hsr).nextReg_le.trans hhostFr₂.registers
    have hnextCall := hcallSpec.nextReg
    omega
  have hlen := hall.ascending.add_length_le
  have hlength := hall.length
  rw [← hcount] at hcodeCall hhostFr₂
  have hsim := emitCall_sim rest depth world all.state.nextReg hE hL hname hself hop
    (hagree.scope name)
    (fun r hr => by
      obtain ⟨f, hlookup, hr', hfrel⟩ := hf' r hr
      refine ⟨f, f', hlookup, ?_, hfrel⟩
      split
      · next hdanger =>
          rw [hcount, ← hr] at hdanger
          exact hrest₂ (by omega) (hsafe₁ hdanger)
      · next hsafe =>
          have hr₁ := hkeep₁.holds (hlocals r hr) hr'
          rcases Nat.lt_or_ge r (dst + 1) with hlow | hhigh
          · exact hkeep₂.holds hlow hr₁
          · refine hrest₂ ?_ hr₁
            simp only [endangered, decide_eq_true_eq, not_and, Nat.not_lt] at hsafe
            have hge := hsafe hhigh
            omega)
    hbank hrel hslots₂ hcodeCall hhostFr₂
  refine (hrun₁.trans hrun₂).simulates (hsim.mono fun v w vm hdone => ?_)
  obtain ⟨fr', v', rfl, hkeep', hip', hv', hvrel⟩ := hdone
  refine ⟨fr', v', rfl, (hkeep₀₂.mono (Nat.le_succ _)).trans hkeep', ?_, hv', hvrel⟩
  have hone : (emitCall name (s.locals name) all.state.nextReg dst args.length
      ((saveCallee (s.locals name) dst args.length all.state).state.reserveSlots dst
        args.length)).code.length = 1 := by
    unfold emitCall
    split <;> rfl
  rw [hip', hip₂, hip₁, hip]
  simp only [List.length_append, hone]
  omega

/-- An operator, or a failure that is alike. -/
theorem operator_sim {instr : Instruction} {r : Except Fault RefValue} {r' : Except Fault VmValue}
    (hinstr : fr.func.instructions[fr.ip]? = some instr)
    (hsafe : inline = true → fr.InlineSafe instr) (hdst : dst < fr.registers.length)
    (hstep : m.step ⟨fr :: rest, depth, world⟩ =
      r'.map fun v => .running ⟨fr.put dst v :: rest, depth, world⟩)
    (hr : ResultRel m r r') :
    (m.host inline).Simulates k ⟨fr :: rest, depth, world⟩ (.lift r world)
      (Done m dst 1 fr rest depth) := by
  have hvm : inline = true → (⟨fr :: rest, depth, world⟩ : Vm World).InlineSafe :=
    fun h => Vm.inlineSafe_of_instr hinstr (hsafe h)
  cases r with
  | error f =>
    cases r' with
    | error f' =>
      obtain rfl : f = f' := hr
      refine Host.simulates_err (o := .error f) ⟨?_, hvm⟩ ⟨f, rfl, .refl f⟩
      unfold Machine.halts
      rw [hstep]
      rfl
    | ok v' => exact hr.elim
  | ok v =>
    cases r' with
    | error f' => exact hr.elim
    | ok v' => exact (Host.simulates_ok (done_put hdst hr)).of_step ⟨hstep, hvm⟩

/-- A call is an operator, a `not` or a general call. -/
theorem finishCall_cases (name : String) (args : List IRNode) (dst : Nat) (s : Compiler)
    (all : EmittedArgs) {vals : List RefValue} (hlen : all.regs.length = vals.length) :
    (∃ op a b x y, directOp name = some op ∧ all.regs = [a, b] ∧ vals = [x, y] ∧
        RefProgram.operator name vals = some (binaryOp op x y) ∧
        (finishCall name args dst s all).code = all.code ++ [⟨op, dst, a, b⟩] ∧
        (finishCall name args dst s all).state = all.state.freeRegTo (max a (dst + 1))) ∨
      (∃ a x, all.regs = [a] ∧ vals = [x] ∧ RefProgram.operator name vals = some x.not ∧
        (finishCall name args dst s all).code = all.code ++ [⟨.not, dst, a, 0⟩] ∧
        (finishCall name args dst s all).state = all.state.freeRegTo (max a (dst + 1))) ∨
      (RefProgram.operator name vals = none ∧
        finishCall name args dst s all = generalCall name args dst s all) := by
  unfold finishCall
  split
  · next op a b hop hregs =>
      rw [hregs] at hlen
      match vals, hlen with
      | [x, y], _ =>
        exact Or.inl ⟨op, a, b, x, y, hop, hregs, rfl, by simp [RefProgram.operator, hop], rfl, rfl⟩
  · next a hop hregs =>
      rw [hregs] at hlen
      have hnot : name = "not" := by
        unfold directOp at hop
        split at hop <;> first | rfl | simp at hop
      match vals, hlen with
      | [x], _ =>
          exact Or.inr (Or.inl ⟨a, x, hregs, rfl, by simp [RefProgram.operator, hnot], rfl, rfl⟩)
  · next hbinary hunary =>
      refine Or.inr (Or.inr ⟨?_, rfl⟩)
      unfold RefProgram.operator
      split
      · next x y =>
          cases hop : directOp name with
          | none => rfl
          | some op =>
            match hregs : all.regs, hlen with
            | [a, b], _ => exact (hbinary op a b hop hregs).elim
      · next x =>
          match hregs : all.regs, hlen with
          | [a], _ => exact (hunary a rfl hregs).elim
      · rfl

/-- In each case it does what the evaluator does. -/
theorem finishCall_sim (hE : Enters P m inline k enter) (hL : Linked P m) {name : String}
    {args : List IRNode} {all : EmittedArgs} {vals : List RefValue} {vals' : List VmValue}
    (hs : Ready s) (hdst : dst < s.nextReg) (hagree : Agree m c.scope s env fr)
    (hinline : InlineOk inline c fr.func) (hall : ArgsSpec args s all) (hself : c.self ≠ some name)
    (hrel : ValuesRel m vals vals') {fr₀ : Frame} (hkeep : fr₀.Keeps s.nextReg fr)
    (hip : fr.ip = fr₀.ip + all.code.length) (hholds : fr.HoldsAll all.regs vals')
    (hcode : CodeAt fr₀.func.instructions fr₀.ip (finishCall name args dst s all).code)
    (hhost : Hosted m fr₀ (finishCall name args dst s all).state) :
    (m.host inline).Simulates k ⟨fr :: rest, depth, world⟩
      (P.guardedCallName enter c name env vals world)
      (Done m dst (finishCall name args dst s all).code.length fr₀ rest depth) := by
  have hreserved : reserved name = true →
      P.guardedCallName enter c name env vals world = .departs := fun h => if_pos h
  cases hname : reserved name with
  | true =>
    rw [hreserved hname]
    trivial
  | false =>
  have hlen : all.regs.length = vals.length := by rw [hholds.length_eq, hrel.length_eq]
  have hbank : dst < fr.registers.length := by
    have hspec := finishCall_spec name hs.toTidy hdst hall
    have hle := (hspec.ready hs).nextReg_le.trans (hhost.keeps hkeep).registers
    have hnext := hspec.nextReg
    omega
  have hdone : ∀ {v w vm}, Done m dst 1 fr rest depth v w vm →
      Done m dst (all.code.length + 1) fr₀ rest depth v w vm := by
    rintro v w vm ⟨fr', v', rfl, hkeep', hip', hv, hvrel⟩
    exact ⟨fr', v', rfl, (hkeep.mono (Nat.le_of_lt hdst)).trans hkeep', by omega, hv, hvrel⟩
  -- An operator of two operands, of one, or a call.
  rcases finishCall_cases name args dst s all hlen with
    ⟨op, a, b, x, y, hop, hregs, rfl, hoperator, hcodeEq, -⟩ |
    ⟨a, x, hregs, rfl, hoperator, hcodeEq, -⟩ | ⟨hoperator, heq⟩
  · cases hrel with
    | @cons _ x' _ _ hx hrest =>
    cases hrest with
    | @cons _ y' _ _ hy hrest =>
    cases hrest
    rw [hregs] at hholds
    cases hholds with
    | cons hxr hrest =>
    cases hrest with
    | cons hyr hrest =>
    rw [hcodeEq] at hcode ⊢
    have hinstr := (CodeAt.keeps hcode.right hkeep hip).head
    simp only [RefProgram.guardedCallName, hname, hself, hoperator, if_false, Bool.false_eq_true]
    split
    · trivial
    · next hguard =>
        simp only [Bool.or_eq_true, not_or, Bool.and_eq_true, Bool.not_eq_true', not_and,
          Bool.not_eq_false] at hguard
        rw [List.length_append]
        refine (operator_sim hinstr (fun h => ⟨?_, ?_, fun {u w} hu hw => ?_⟩) hbank
          (Machine.step_directOp _ _ _ hop hinstr hbank hxr hyr) (hx.binaryOp_rel op hy)).mono
            fun _ _ _ => hdone
        · unfold directOp at hop
          split at hop <;> cases hop <;> simp
        · unfold directOp at hop
          split at hop <;> cases hop <;> simp
        · obtain rfl : x' = u := by simpa using hxr.symm.trans hu
          obtain rfl : y' = w := by simpa using hyr.symm.trans hw
          have hagrees := hguard.2 (hinline h).1
          simp only [operatorAgrees, hop] at hagrees
          exact hx.simpleBinaryOp_eq hy hagrees
  · cases hrel with
    | @cons _ x' _ _ hx hrest =>
    cases hrest
    rw [hregs] at hholds
    cases hholds with
    | cons hxr hrest =>
    rw [hcodeEq] at hcode ⊢
    have hinstr := (CodeAt.keeps hcode.right hkeep hip).head
    simp only [RefProgram.guardedCallName, hname, hself, hoperator, if_false, Bool.false_eq_true]
    split
    · trivial
    · rw [List.length_append]
      exact (operator_sim hinstr (fun _ => Frame.inlineSafe_of_op rfl) hbank
        (Machine.step_not hinstr hbank hxr) hx.not_rel).mono fun _ _ _ => hdone
  · rw [heq] at hcode hhost ⊢
    exact generalCall_sim hE hL hs hdst hagree hall hname hself hoperator hrel hkeep hip hholds
      hcode hhost

/-- A tail call enters the function with the new arguments. -/
theorem finishTailCall_sim (hE : Enters P m inline k enter) {name : String}
    {args : List IRNode} {all : EmittedArgs} {vals : List RefValue} {vals' : List VmValue}
    (hs : Ready s) (hall : ArgsSpec args s all) (hself : c.self = some name)
    (htarget : ∀ fd, reserved name = false → P.functions name = some fd →
      TargetRel P m (.named name fd) [] fr.func)
    (hrel : ValuesRel m vals vals') {fr₀ : Frame} (hkeep : fr₀.Keeps s.nextReg fr)
    (hip : fr.ip = fr₀.ip + all.code.length) (hholds : fr.HoldsAll all.regs vals')
    (hcode : CodeAt fr₀.func.instructions fr₀.ip (finishTailCall name args s all).code)
    (hhost : Hosted m fr₀ (finishTailCall name args s all).state) (count : Nat) :
    (m.host inline).Simulates k ⟨fr :: rest, depth, world⟩
      (P.guardedCallName enter c name env vals world) (Post P m c dst count fr₀ rest depth) := by
  unfold RefProgram.guardedCallName
  split
  · trivial
  next hname =>
  have hname : reserved name = false := by simpa using hname
  unfold RefProgram.guardedSelf
  split
  · trivial
  cases hfunc : P.functions name with
  | none => trivial
  | some fd =>
  simp only
  split
  · next hcond =>
      have hsa := hall.spec.ready hs
      have hhost' : Hosted m fr₀ all.state := hhost.of_extends
        ((all.state.freeRegTo_extends s.nextReg).trans (Compiler.addConstant_extends _ (.str name)))
      have hcodeMoves : CodeAt fr₀.func.instructions (fr₀.ip + all.code.length)
          (moveToSlots 0 all.regs) := hcode.left.right
      obtain ⟨fr₁, hrun₁, hkeep₁, hip₁, hslots₁, -⟩ :=
        moveToSlots_runs inline rest depth world (m := m)
        (hall.ascending.lower (Nat.zero_le s.nextReg))
        (hsa.nextReg_le.trans (hhost'.keeps hkeep).registers) hholds (hcodeMoves.keeps hkeep hip)
      have hkeep₀₁ := (hkeep.mono (Nat.zero_le _)).trans hkeep₁
      have hinstr := (CodeAt.keeps hcode.right hkeep₀₁ (by
        rw [hip₁, hip, List.length_append]
        omega)).head
      have hentry : Entry fr.func ([] ++ vals')
          { fr₁ with ip := 0, moved := fr₁.moved.map fun _ => false } :=
        { code := hkeep₁.func
          ip := rfl
          bank := by
            rw [hkeep.func, ← hhost'.bank]
            exact hkeep₀₁.length
          holds := hslots₁ }
      have hsim := hE.call
        (htarget fd hname hfunc) hrel hcond.1 hentry
        (Machine.host_step hinstr rfl (Machine.step_tailCall rest depth world hinstr)) false
      refine hrun₁.simulates (hsim.mono fun v w vm hreturn =>
        Or.inr ⟨⟨name, fd, hself, hname, hfunc, hcond.2.1, hcond.2.2⟩, ?_⟩)
      rw [← hkeep₀₁.returnReg]
      exact hreturn
  · trivial

end Calls

end Airl
