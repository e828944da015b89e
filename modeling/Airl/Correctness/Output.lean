import Airl.Bytecode.Registers
import Airl.Correctness.Jumps

/-! # Compiled output

What a program compiles to is what the validator and the machine take for granted,
as long as the registers and the jumps of a function fit their operands.
-/

namespace Airl

def clausesPeak : List Clause → Nat → Places → Nat
  | [], n, _ => n
  | clause :: clauses, n, Γ =>
    max (nodePeak clause.ir .value n (n + 1) Γ) (clausesPeak clauses n (Γ.forget (lost clause.ir)))

/-- The most registers in use at once in an activation, `n` of them for the parameters. -/
def activationPeak (name : String) (contracts : Contracts) (body : IRNode) (n : Nat) (Γ : Places) :
    Nat :=
  let Γb := Γ.forget (lostList (contracts.requires.map Clause.ir))
  let nc := n + (1 + leak body)
  let Γi := (Γb.forget (lost body)).bind "result" n
  let Γe := Γi.forget (lostList (contracts.invariants.map Clause.ir))
  max (clausesPeak contracts.requires n Γ)
    (max (nodePeak body (.tail name) n (n + 1) Γb)
      (max (clausesPeak contracts.invariants nc Γi) (clausesPeak contracts.ensures nc Γe)))

def Source.peak (src : Source) : Nat :=
  activationPeak src.name src.contracts src.body src.inner.nextReg src.inner.locals

theorem le_clausesPeak (clauses : List Clause) (n : Nat) (Γ : Places) :
    n ≤ clausesPeak clauses n Γ := by
  cases clauses with
  | nil => exact le_rfl
  | cons clause clauses =>
    exact le_max_of_le_left ((Nat.le_succ n).trans (le_nodePeak clause.ir .value n (n + 1) Γ))

/-- The registers of clauses are counted on the source. -/
theorem compileClauses_maxReg (op : Op) (fnNameIdx : Nat) (clauses : List Clause) {s : Compiler}
    (hs : Tidy s) : (compileClauses op fnNameIdx clauses s).state.maxReg =
      max s.maxReg (clausesPeak clauses s.nextReg s.locals) := by
  induction clauses generalizing s with
  | nil => exact (Nat.max_eq_left hs.nextReg_le).symm
  | cons clause clauses ih =>
    have hsource := Spec.addConstant hs (.str clause.source)
    have hsa := (Spec.alloc _).tidy (hsource.tidy hs)
    have hc := (compileNode_spec clause.ir .value hsa (Nat.lt_succ_self _)).temp
    have hmax := maxReg_temp (compileNode_maxReg clause.ir .value hsa (Nat.lt_succ_self _))
    simp only [compileClauses, clausesPeak, compileExpr]
    generalize compileNode clause.ir .value _ _ = c at hc hmax ⊢
    have hfree := (hsource.append hc).free hs
    rw [Compiler.addConstant_maxReg, Compiler.addConstant_locals,
      Compiler.addConstant_nextReg] at hmax
    rw [Compiler.addConstant_nextReg, ih (hfree.tidy hs), hfree.locals_eq, ← max_assoc, ← hmax]
    simp [Compiler.freeRegTo]

/-- So are those of an activation. -/
theorem compileActivation_maxReg (name : String) (fnNameIdx : Nat) (contracts : Contracts)
    (body : IRNode) {inner : Compiler} (hs : Tidy inner)
    (hidx : contracts.requires ++ contracts.invariants ++ contracts.ensures ≠ [] →
      fnNameIdx < inner.constants.length) :
    (compileActivation name fnNameIdx contracts body inner).state.maxReg =
      max inner.maxReg (activationPeak name contracts body inner.nextReg inner.locals) := by
  simp only [compileActivation, activationPeak]
  have hreq := compileClauses_spec (Or.inl rfl) contracts.requires hs fun hne =>
    hidx (by simp [hne])
  have hmaxReq := compileClauses_maxReg .assertRequires fnNameIdx contracts.requires hs
  generalize compileClauses .assertRequires fnNameIdx contracts.requires inner = req
    at hreq hmaxReq ⊢
  have hsr := hreq.tidy hs
  have hnextReq : req.state.nextReg = inner.nextReg := hreq.nextReg
  have hsa := (Spec.alloc req.state).tidy hsr
  have hb := (compileNode_spec body (.tail name) hsa (Nat.lt_succ_self req.state.nextReg)).temp
  have hmaxBody := compileNode_maxReg body (.tail name) hsa (Nat.lt_succ_self req.state.nextReg)
  generalize compileNode body (.tail name) req.state.nextReg req.state.allocReg = b
    at hb hmaxBody ⊢
  have hnext := hb.nextReg
  have hres := Spec.insertLocal (hb.tidy hsr) "result" (r := req.state.nextReg) (by omega)
  have hsres := hres.tidy (hb.tidy hsr)
  have hgrow := ((hreq.ext.trans hb.ext).trans hres.ext).constants.length_le
  have hinv := compileClauses_spec (Or.inr (Or.inr rfl)) contracts.invariants hsres fun hne =>
    (hidx (by simp [hne])).trans_le hgrow
  have hmaxInv := compileClauses_maxReg .assertInvariant fnNameIdx contracts.invariants hsres
  generalize compileClauses .assertInvariant fnNameIdx contracts.invariants
    (b.state.insertLocal "result" req.state.nextReg) = inv at hinv hmaxInv ⊢
  have hmaxEns := compileClauses_maxReg .assertEnsures fnNameIdx contracts.ensures (hinv.tidy hsres)
  have hplaces : (b.state.insertLocal "result" req.state.nextReg).locals =
      ((Places.forget inner.locals (lostList (contracts.requires.map Clause.ir))).forget
        (lost body)).bind "result" inner.nextReg := by
    rw [← hreq.locals_eq, ← hnextReq]
    exact congrArg (Places.bind · "result" req.state.nextReg) hb.locals_eq
  have hnextRes : (b.state.insertLocal "result" req.state.nextReg).nextReg =
      inner.nextReg + (1 + leak body) := by
    rw [← hnextReq]
    exact hnext
  have hmaxRes := maxReg_temp hmaxBody
  rw [hnextReq, hreq.locals_eq] at hmaxRes
  have hnextInv : inv.state.nextReg = inner.nextReg + (1 + leak body) := by
    rw [hinv.nextReg, hnextRes, Nat.add_zero]
  rw [hmaxEns, hinv.locals_eq, hplaces, hnextInv, hmaxInv, hplaces, hnextRes]
  rw [show (b.state.insertLocal "result" req.state.nextReg).maxReg = b.state.maxReg from rfl,
    hmaxRes, hmaxReq, max_assoc, max_assoc, max_assoc]

theorem le_activationPeak (name : String) (contracts : Contracts) (body : IRNode) (n : Nat)
    (Γ : Places) : n ≤ activationPeak name contracts body n Γ :=
  le_max_of_le_left (le_clausesPeak contracts.requires n Γ)

/-- And those of a function. -/
theorem Source.Yields.registers {src : Source} {lambdas : List BytecodeFunc} {f : BytecodeFunc}
    (h : src.Yields lambdas f) : f.registerCount = src.peak := by
  rw [h.registerCount, Source.emitted,
    compileActivation_maxReg src.name src.fnNameIdx src.contracts src.body h.tidy h.named,
      h.counted]
  exact max_eq_right (le_activationPeak _ _ _ _ _)

/-- The jumps that are patched in the code of clauses; asserting jumps nowhere. -/
def clausesPatches : List Clause → Compiler → List Patch
  | [], _ => []
  | clause :: clauses, s =>
    let s := s.addConstant (.str clause.source)
    let c := compileNode clause.ir .value s.nextReg s.allocReg
    nodePatches clause.ir .value s.nextReg s.allocReg ++
      shiftPatches (c.code.length + 1) (clausesPatches clauses (c.state.freeRegTo s.nextReg))

/-- The jumps that are patched in an activation. -/
def Source.patches (src : Source) : List Patch :=
  let req := compileClauses .assertRequires src.fnNameIdx src.contracts.requires src.inner
  let dst := req.state.nextReg
  let b := compileNode src.body (.tail src.name) dst req.state.allocReg
  let sInv := b.state.insertLocal "result" dst
  let inv := compileClauses .assertInvariant src.fnNameIdx src.contracts.invariants sInv
  clausesPatches src.contracts.requires src.inner ++
    shiftPatches req.code.length (nodePatches src.body (.tail src.name) dst req.state.allocReg) ++
    shiftPatches (req.code ++ b.code).length (clausesPatches src.contracts.invariants sInv) ++
    shiftPatches (req.code ++ b.code ++ inv.code).length
      (clausesPatches src.contracts.ensures inv.state)

/-- Asserting jumps nowhere. -/
theorem compileClauses_patched {op : Op} (hop : op.isJump = false) (fnNameIdx : Nat)
    (clauses : List Clause) (s : Compiler) :
    Patched (compileClauses op fnNameIdx clauses s).code (clausesPatches clauses s) := by
  induction clauses generalizing s with
  | nil => exact .plain jumpFree_nil
  | cons clause clauses ih =>
    simp only [compileClauses, clausesPatches, compileExpr]
    have hclause := compileNode_patched clause.ir .value
      (s.addConstant (.str clause.source)).nextReg (s.addConstant (.str clause.source)).allocReg
    generalize compileNode clause.ir .value _ _ = c at hclause ⊢
    have hassert : JumpFree [⟨op, fnNameIdx, (s.addConstant (.str clause.source)).nextReg,
        s.constantIndex (.str clause.source)⟩] := by simp [hop]
    have hall := (hclause.emit hassert).append
      (ih (c.state.freeRegTo (s.addConstant (.str clause.source)).nextReg))
    rwa [List.append_assoc, List.singleton_append, List.length_append, List.length_singleton]
      at hall

/-- The last instruction of an activation is its return; the jumps are those in front of it. -/
theorem Source.patched (src : Source) : ∃ code dst, src.emitted.code = code ++ [⟨.ret, 0, dst, 0⟩] ∧
    Patched code src.patches :=
  ⟨_, _, rfl, (((compileClauses_patched rfl _ _ _).append (compileNode_patched _ _ _ _)).append
    (compileClauses_patched rfl _ _ _)).append (compileClauses_patched rfl _ _ _)⟩

/-- The position behind the jump, moved by the low 16 bits of the distance as an `i16`, is one that
an `i32` counts. -/
def Patch.Inside (p : Patch) : Prop :=
  ((p.site + 1 : Nat) + asI16 (toU16 p.distance)) % 4294967296 < 2147483648

/-- A patched jump lands inside just if its 16 bits say so. -/
theorem Patch.inside_iff {p : Patch} {length : Nat} (hsite : p.site < p.target)
    (htarget : p.target < length) (hvec : length < 0x8000000000000000) :
    jumpTarget (p.site + 1) (toU16 p.distance) < length ↔ p.Inside := by
  obtain ⟨site, target⟩ := p
  unfold jumpTarget Patch.Inside Patch.distance asI32 asI16 toU16
  dsimp only at hsite htarget ⊢
  split_ifs <;> omega

/-- The function passes the validator and keeps what the validator does not ask for: every operand
is that of a register, constant or instruction of the function, and the numbers of registers and
constants are `u16`s. -/
structure BytecodeFunc.Sound (f : BytecodeFunc) (functions : List BytecodeFunc) : Prop where
  valid : f.valid = true
  grounded : ∀ instr ∈ f.instructions, Grounded f.registerCount f.constants functions instr
  lands : ∀ i instr, f.instructions[i]? = some instr → instr.op.isJump = true →
    jumpTarget (i + 1) instr.jumpOperand < f.instructions.length
  registers : f.registerCount ≤ 65535
  constants : f.constants.length ≤ 65535

/-- The registers that the source needs can be counted in a `u16`, and its jumps stay inside. -/
structure Source.Fits (src : Source) : Prop where
  registers : src.peak ≤ 65535
  jumps : ∀ p ∈ src.patches, p.Inside

/-- All jumps land inside just if the patches do. -/
theorem Source.Yields.lands_iff {src : Source} {lambdas : List BytecodeFunc} {f : BytecodeFunc}
    (h : src.Yields lambdas f) (hvec : f.instructions.length < 0x8000000000000000) :
    (∀ i instr, f.instructions[i]? = some instr → instr.op.isJump = true →
      jumpTarget (i + 1) instr.jumpOperand < f.instructions.length) ↔
        ∀ p ∈ src.patches, p.Inside := by
  obtain ⟨code, dst, hcode, hpatched⟩ := src.patched
  rw [← h.instructions] at hcode
  have hlength : f.instructions.length = code.length + 1 := by
    rw [hcode, List.length_append, List.length_singleton]
  have hinside {p : Patch} (hp : p ∈ src.patches) {instr : Instruction}
      (hoperand : instr.jumpOperand = toU16 p.distance) :
      jumpTarget (p.site + 1) instr.jumpOperand < f.instructions.length ↔ p.Inside := by
    obtain ⟨hlt, hle, -⟩ := hpatched.patched p hp
    rw [hoperand]
    exact Patch.inside_iff hlt (by omega) hvec
  constructor
  · intro hlands p hp
    obtain ⟨hlt, hle, instr, hinstr, hjump, hoperand⟩ := hpatched.patched p hp
    refine (hinside hp hoperand).mp (hlands p.site instr ?_ hjump)
    rw [hcode, List.getElem?_append_left (by omega)]
    exact hinstr
  · intro hpatches i instr hinstr hjump
    rw [hcode] at hinstr
    by_cases hlt : i < code.length
    · rw [List.getElem?_append_left hlt] at hinstr
      obtain ⟨p, hp, rfl⟩ := hpatched.complete i instr hinstr hjump
      obtain ⟨-, -, instr', hinstr', -, hoperand⟩ := hpatched.patched p hp
      obtain rfl := Option.some.inj (hinstr.symm.trans hinstr')
      exact (hinside hp hoperand).mpr (hpatches p hp)
    · -- the return is no jump
      rw [List.getElem?_append_right (Nat.not_lt.mp hlt)] at hinstr
      obtain rfl := List.mem_singleton.mp (List.mem_of_getElem? hinstr)
      exact nomatch hjump

/-- A function is sound just if its source fits. -/
theorem Source.Yields.sound_iff {src : Source} {lambdas : List BytecodeFunc} {f : BytecodeFunc}
    (h : src.Yields lambdas f) (hpool : f.constants.length ≤ 65535)
    (hvec : f.instructions.length < 0x8000000000000000) : f.Sound lambdas ↔ src.Fits := by
  constructor
  · intro hsound
    exact ⟨h.registers ▸ hsound.registers, (h.lands_iff hvec).mp hsound.lands⟩
  · intro hfits
    exact ⟨h.valid, fun instr hinstr => (h.validCode instr hinstr).2,
      (h.lands_iff hvec).mpr hfits.jumps, h.registers ▸ hfits.registers, hpool⟩

/-- What compiling a function or a program gives: functions with their sources. -/
structure Sourced (s : Compiler) (r : List BytecodeFunc × Compiler) : Prop where
  ext : Extends s r.2
  sources : ∀ f ∈ r.1, ∃ src : Source, src.Yields r.2.compiledLambdas f
  pools : r.2.panicked = false → ∀ f ∈ r.1, f.constants.length ≤ 65535

/-- Functions with sources, one list after the other. -/
theorem Sourced.append {s s' s'' : Compiler} {fs fs' : List BytecodeFunc}
    (h : Sourced s (fs, s')) (h' : Sourced s' (fs', s'')) : Sourced s (fs ++ fs', s'') where
  ext := h.ext.trans h'.ext
  sources f hf := by
    rcases List.mem_append.mp hf with hf | hf
    · obtain ⟨src, hsrc⟩ := h.sources f hf
      exact ⟨src, hsrc.mono fun _ => h'.ext.mem_lambdas⟩
    · exact h'.sources f hf
  pools hnone f hf := by
    rcases List.mem_append.mp hf with hf | hf
    · exact h.pools (h'.ext.panicked hnone) f hf
    · exact h'.pools hnone f hf

/-- A function that is compiled from a source has it. -/
theorem sourced_of_source (s base : Compiler) (src : Source) {params : List String}
    {f : BytecodeFunc} (hbase : src.inner = Compiler.bindParams params 0 base)
    (hlocals : base.locals = fun _ => none) (hnext : base.nextReg = 0) (hmax : base.maxReg = 0)
    (hlambdas : base.compiledLambdas = []) (hcounter : base.lambdaCounter = s.lambdaCounter)
    (hunit : base.lambdaPrefix = s.lambdaPrefix) (hconstants : base.constants.length ≤ 65535)
    (hnamed : src.contracts.requires ++ src.contracts.invariants ++ src.contracts.ensures ≠ [] →
      src.fnNameIdx < base.constants.length)
    (hcode : f.instructions = src.emitted.code) (hpool : f.constants = src.emitted.state.constants)
    (hcount : f.registerCount = src.emitted.state.maxReg) :
    Sourced s ([f], s.leaveFunction src.emitted.state) := by
  obtain ⟨hfieldLambdas, hfieldCounter, hfieldUnit, hfieldConstants, -⟩ :=
    bindParams_fields params 0 base
  have htidy : Tidy src.inner := hbase ▸ bindParams_tidy params
    ⟨by rw [hnext]; exact Nat.zero_le _, fun hr => by rw [hlocals] at hr; exact nomatch hr⟩
      hnext hmax
  have hcounted : src.inner.maxReg = src.inner.nextReg := by
    rw [hbase, bindParams_maxReg params hmax, bindParams_nextReg params hnext]
  have hfresh : src.inner.compiledLambdas = [] := by
    rw [hbase, hfieldLambdas, hlambdas]
  have hnamed' : src.contracts.requires ++ src.contracts.invariants ++ src.contracts.ensures ≠ [] →
      src.fnNameIdx < src.inner.constants.length := by
    rw [hbase, hfieldConstants]
    exact hnamed
  obtain ⟨regs, gone, hspec⟩ :=
    compileActivation_spec src.name src.fnNameIdx src.contracts src.body htidy hnamed'
  have hext : Extends s (s.leaveFunction src.emitted.state) := by
    refine leaveFunction_extends hfresh ?_ ?_ hspec.ext
    · rw [hbase, hfieldCounter, hcounter]
    · rw [hbase, hfieldUnit, hunit]
  refine ⟨hext, fun g hg => ?_, fun hnone g hg => ?_⟩
  · obtain rfl := List.mem_singleton.mp hg
    exact ⟨src, htidy, hcounted, hfresh, hnamed', hcode, hpool, hcount, fun _ hg =>
      List.mem_append_right _ hg⟩
  · obtain rfl := List.mem_singleton.mp hg
    simp only [Compiler.leaveFunction, Bool.or_eq_false_iff] at hnone
    rw [hpool]
    refine hspec.ext.pool hnone.2 ?_
    rw [hbase, hfieldConstants]
    exact hconstants

/-- A function without contracts. -/
theorem compileFunction_sourced (name : String) (params : List String) (body : IRNode)
    (s : Compiler) : Sourced s ([(compileFunction name params body s).1],
      (compileFunction name params body s).2) :=
  sourced_of_source s s.fresh ⟨name, 0, {}, body, s.enterFunction params⟩ rfl rfl rfl rfl rfl
    rfl rfl (by simp [Compiler.fresh]) (by simp)
    (by simp [compileFunction, Source.emitted, compileActivation, compileClauses, compileExprTail,
      Compiler.toFunc]) rfl rfl

/-- A function with contracts. -/
theorem compileFunctionWithContracts_sourced (name : String) (params : List String) (body : IRNode)
    (contracts : Contracts) (s : Compiler) :
    Sourced s ([(compileFunctionWithContracts name params body contracts s).1],
      (compileFunctionWithContracts name params body contracts s).2) := by
  obtain ⟨hinner, hidx⟩ := enterFunction_addConstant s params (.str name)
  have hpool : (s.fresh.addConstant (.str name)).constants.length = 1 := rfl
  simp only [compileFunctionWithContracts, hinner, hidx]
  split
  · exact sourced_of_source s (s.fresh.addConstant (.str name))
      ⟨name, 0, {}, body, Compiler.bindParams params 0 (s.fresh.addConstant (.str name))⟩
      rfl rfl rfl rfl rfl rfl rfl (by omega) (by simp)
      (by simp [Source.emitted, compileActivation, compileClauses, compileExprTail,
        Compiler.toFunc])
      rfl rfl
  · exact sourced_of_source s (s.fresh.addConstant (.str name))
      ⟨name, 0, ⟨contracts.requires, s.unproven name contracts.ensures,
        s.unproven name contracts.invariants⟩, body,
        Compiler.bindParams params 0 (s.fresh.addConstant (.str name))⟩
      rfl rfl rfl rfl rfl rfl rfl (by omega) (fun _ => by rw [hpool]; exact Nat.one_pos) rfl rfl rfl

theorem compileFunc_sourced (contracts : String → Option Contracts) (name : String)
    (params : List String) (body : IRNode) (s : Compiler) :
    Sourced s ([(compileFunc contracts name params body s).1],
      (compileFunc contracts name params body s).2) := by
  unfold compileFunc
  cases contracts name with
  | some clauses => exact compileFunctionWithContracts_sourced name params body clauses s
  | none => exact compileFunction_sourced name params body s

/-- All definitions of a program. -/
theorem compileFuncs_sourced (contracts : String → Option Contracts) (nodes : List IRNode)
    (s : Compiler) : Sourced s (compileFuncs contracts nodes s) := by
  induction nodes generalizing s with
  | nil => exact ⟨.refl s, by simp [compileFuncs], by simp [compileFuncs]⟩
  | cons node nodes ih =>
    cases node with
    | func name params body =>
      rw [compileFuncs_cons]
      exact (compileFunc_sourced contracts name params body s).append (ih _)
    | _ => exact ih s

/-- Every function of a compiled program, the lambdas included. -/
theorem compileProgram_sourced {s : Compiler} (hs : s.compiledLambdas = []) (nodes : List IRNode)
    (contracts : String → Option Contracts) {f : BytecodeFunc}
    (hreturns : (compileProgramWithContracts s nodes contracts).panicked = false)
    (hf : f ∈ (compileProgramWithContracts s nodes contracts).functions ++
      [(compileProgramWithContracts s nodes contracts).main]) :
    ∃ src : Source, src.Yields (compileProgramWithContracts s nodes contracts).functions f ∧
      f.constants.length ≤ 65535 := by
  have hall := (compileFuncs_sourced contracts nodes s).append
    (compileFunction_sourced "__main__" []
    (mainBody (nodes.filter (!isFunc ·))) (compileFuncs contracts nodes s).2)
  obtain ⟨new, hnew⟩ := hall.ext.lambdas
  have heq := hnew.eq
  rw [hs, List.nil_append] at heq
  have hsub : ∀ g ∈ (compileFunction "__main__" [] (mainBody (nodes.filter (!isFunc ·)))
      (compileFuncs contracts nodes s).2).2.compiledLambdas,
      g ∈ (compileProgramWithContracts s nodes contracts).functions :=
    fun g hg => List.mem_append_right _ hg
  have hcases : f ∈ (compileFuncs contracts nodes s).1 ++ [(compileFunction "__main__" []
      (mainBody (nodes.filter (!isFunc ·))) (compileFuncs contracts nodes s).2).1] ∨ f ∈ new := by
    rw [← heq]
    simp only [compileProgramWithContracts, List.mem_append, List.mem_singleton] at hf ⊢
    tauto
  rcases hcases with hf | hf
  · obtain ⟨src, hsrc⟩ := hall.sources f hf
    exact ⟨src, hsrc.mono hsub, hall.pools hreturns f hf⟩
  · obtain ⟨src, hsrc⟩ := hnew.sources f hf
    exact ⟨src, hsrc.mono hsub, hnew.pools hreturns f hf⟩

/-- Every function that a program compiles to is sound if and only if the registers that it needs
can be counted in a `u16` and its jumps stay inside it. (No vector has 2^63 entries.) -/
theorem compiled_sound_iff {s : Compiler} (hs : s.compiledLambdas = []) (nodes : List IRNode)
    (contracts : String → Option Contracts)
    (hreturns : (compileProgramWithContracts s nodes contracts).panicked = false)
    {f : BytecodeFunc} (hf : f ∈ (compileProgramWithContracts s nodes contracts).functions ++
      [(compileProgramWithContracts s nodes contracts).main])
    (hvec : f.instructions.length < 0x8000000000000000) :
    (∃ src : Source, src.Yields (compileProgramWithContracts s nodes contracts).functions f) ∧
      ∀ src : Source, src.Yields (compileProgramWithContracts s nodes contracts).functions f →
        (f.Sound (compileProgramWithContracts s nodes contracts).functions ↔ src.Fits) := by
  obtain ⟨src, hsrc, hpool⟩ := compileProgram_sourced hs nodes contracts hreturns hf
  exact ⟨⟨src, hsrc⟩, fun src' hsrc' => hsrc'.sound_iff hpool hvec⟩

/-- `(defn inc (x) (+ x 1))` and `(inc 41)`. -/
def increment : List IRNode :=
  [.func "inc" ["x"] (.call "+" [.load "x", .int 1]), .call "inc" [.int 41]]

/-- Its main function. -/
def incrementMain : Source where
  name := "__main__"
  fnNameIdx := 0
  contracts := {}
  body := .call "inc" [.int 41]
  inner := Compiler.enterFunction {} []

theorem incrementMain_yields : incrementMain.Yields (compileProgram {} increment).functions
    (compileProgram {} increment).main where
  tidy := enterFunction_tidy {} []
  counted := rfl
  fresh := rfl
  named h := absurd rfl h
  instructions := rfl
  constants := rfl
  registerCount := rfl
  nested g hg := by cases hg

theorem increment_sound_iff :
    (compileProgram {} increment).main.Sound (compileProgram {} increment).functions := by
  have hiff := (@compiled_sound_iff {} rfl increment (fun _ => none) (by decide)
    (compileProgram {} increment).main (List.mem_append_right _ (List.mem_singleton_self _))
    (by decide)).2
  exact (hiff incrementMain incrementMain_yields).mpr ⟨by decide, fun p hp => by cases hp⟩

/-- A list of `count` times `nil`. -/
def longList (count : Nat) : List IRNode := [.list (List.replicate count .nil)]

theorem argsPeak_replicate_nil (count n : Nat) (Γ : Places) :
    argsPeak (List.replicate count .nil) n Γ = n + count := by
  induction count generalizing n Γ with
  | zero => simp [argsPeak]
  | succ count ih =>
    rw [List.replicate_succ, argsPeak, ih]
    simp only [nodePeak, leak]
    omega

theorem compileArgs_replicate_nil_panicked (count : Nat) (s : Compiler) :
    (compileArgs (List.replicate count .nil) s).state.panicked = s.panicked := by
  induction count generalizing s with
  | zero => simp [compileArgs]
  | succ count ih =>
    rw [List.replicate_succ, compileArgs]
    exact ih _

theorem longList_panicked (count : Nat) :
    (compileProgram {} (longList count)).panicked = false := by
  refine (compileArgs_replicate_nil_panicked count _).trans ?_
  rfl

theorem longList_registerCount (count : Nat) :
    (compileProgram {} (longList count)).main.registerCount = count + 1 := by
  have hmax := compileNode_maxReg (.list (List.replicate count .nil)) (.tail "__main__")
    ((Spec.alloc _).tidy (enterFunction_tidy {} [])) (Nat.lt_succ_self 0)
  rw [nodePeak, argsPeak_replicate_nil, (Spec.alloc _).nextReg, allocReg_maxReg] at hmax
  have hcount : (compileProgram {} (longList count)).main.registerCount =
      max (max 0 (0 + 1)) (0 + 1 + count) := hmax
  omega

/-- The register count of such a function is no `u16`. -/
theorem longList_unsound : ¬ ∀ nodes : List IRNode,
    (compileProgram {} nodes).panicked = false →
      ∀ f ∈ (compileProgram {} nodes).functions ++ [(compileProgram {} nodes).main],
        f.Sound (compileProgram {} nodes).functions := by
  intro hsound
  have hlong := hsound (longList 65535) (longList_panicked 65535)
    (compileProgram {} (longList 65535)).main (List.mem_append_right _ (List.mem_singleton_self _))
  have hle := hlong.registers
  rw [longList_registerCount] at hle
  exact absurd hle (by decide)

end Airl
