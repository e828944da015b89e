import Airl.Bytecode.Compiler
import Airl.Bytecode.Vm
import Airl.Ir.Guarded
import Mathlib.Data.List.Dedup
import Mathlib.Order.Nat

/-! # What compiling does to the compiler

One specification serves every compilation step: the constant pool and the list
of compiled lambdas only grow, registers are given back up to a leak, the names
that were rebound are forgotten, and every emitted instruction passes the
validator.
-/

namespace Airl

/-! ## Lambdas -/

/-- Lambdas of different numbers have different names. -/
theorem lambdaName_injective (unitPrefix : String) {k l : Nat}
    (h : lambdaName unitPrefix k = lambdaName unitPrefix l) : k = l := by
  have hdigits : Nat.toDigits 10 k = Nat.toDigits 10 l := by
    have hlist := congrArg String.toList h
    simpa [lambdaName, toString] using hlist
  rw [← Nat.ofDigitChars_ten_toDigits (n := k), hdigits, Nat.ofDigitChars_ten_toDigits]

/-- The lambdas carry pairwise different names, numbered from `lo` up to `hi`. -/
structure Numbered (unitPrefix : String) (lo hi : Nat) (lambdas : List BytecodeFunc) : Prop where
  distinct : lambdas.Pairwise fun f g => f.name ≠ g.name
  number : ∀ f ∈ lambdas, ∃ k, lo ≤ k ∧ k < hi ∧ f.name = lambdaName unitPrefix k

theorem Numbered.nil (unitPrefix : String) (lo hi : Nat) : Numbered unitPrefix lo hi [] :=
  ⟨.nil, by simp⟩

theorem Numbered.single {unitPrefix : String} {lo : Nat} {f : BytecodeFunc}
    (h : f.name = lambdaName unitPrefix lo) : Numbered unitPrefix lo (lo + 1) [f] :=
  ⟨List.pairwise_singleton _ _, by
    intro g hg
    obtain rfl := List.mem_singleton.mp hg
    exact ⟨lo, le_rfl, Nat.lt_succ_self lo, h⟩⟩

/-- A range of numbers may be taken too wide. -/
theorem Numbered.widen {unitPrefix : String} {lo hi lo' hi' : Nat} {l : List BytecodeFunc}
    (h : Numbered unitPrefix lo hi l) (hlo : lo' ≤ lo) (hhi : hi ≤ hi') :
    Numbered unitPrefix lo' hi' l := by
  refine ⟨h.distinct, fun f hf => ?_⟩
  obtain ⟨k, hk, hk', hname⟩ := h.number f hf
  exact ⟨k, hlo.trans hk, hk'.trans_le hhi, hname⟩

/-- Two numbered lists without a common name. -/
theorem Numbered.append_disjoint {unitPrefix : String} {lo hi : Nat} {a b : List BytecodeFunc}
    (ha : Numbered unitPrefix lo hi a) (hb : Numbered unitPrefix lo hi b)
    (hdisjoint : ∀ f ∈ a, ∀ g ∈ b, f.name ≠ g.name) : Numbered unitPrefix lo hi (a ++ b) := by
  refine ⟨List.pairwise_append.mpr ⟨ha.distinct, hb.distinct, hdisjoint⟩, fun f hf => ?_⟩
  rcases List.mem_append.mp hf with hf | hf
  · exact ha.number f hf
  · exact hb.number f hf

/-- Two numbered lists, one after the other. -/
theorem Numbered.append {unitPrefix : String} {lo mid hi : Nat} {a b : List BytecodeFunc}
    (ha : Numbered unitPrefix lo mid a) (hb : Numbered unitPrefix mid hi b) (hlo : lo ≤ mid)
    (hhi : mid ≤ hi) : Numbered unitPrefix lo hi (a ++ b) := by
  refine (ha.widen le_rfl hhi).append_disjoint (hb.widen hlo le_rfl) fun f hf g hg hname => ?_
  obtain ⟨k, -, hk, hf⟩ := ha.number f hf
  obtain ⟨l, hl, -, hg⟩ := hb.number g hg
  have hkl := lambdaName_injective unitPrefix (hf.symm.trans (hname.trans hg))
  omega

/-! ## Sources -/

/-- A compiler between two steps: its registers are counted, its locals live in them. -/
structure Tidy (s : Compiler) : Prop where
  nextReg_le : s.nextReg ≤ s.maxReg
  locals_lt : ∀ {name r}, s.locals name = some r → r < s.nextReg

/-- The code of an activation: preconditions, body, invariants and
postconditions, the last two with `result` in scope. -/
def compileActivation (name : String) (fnNameIdx : Nat) (contracts : Contracts) (body : IRNode)
    (inner : Compiler) : Emitted :=
  let req := compileClauses .assertRequires fnNameIdx contracts.requires inner
  let dst := req.state.nextReg
  let b := compileNode body (.tail name) dst req.state.allocReg
  let inv := compileClauses .assertInvariant fnNameIdx contracts.invariants
    (b.state.insertLocal "result" dst)
  let ens := compileClauses .assertEnsures fnNameIdx contracts.ensures inv.state
  ⟨req.code ++ b.code ++ inv.code ++ ens.code ++ [⟨.ret, 0, dst, 0⟩], ens.state⟩

/-- What a function is compiled from: its text, and the compiler with its parameters bound. -/
structure Source where
  name : String
  fnNameIdx : Nat
  contracts : Contracts
  body : IRNode
  inner : Compiler

def Source.emitted (src : Source) : Emitted :=
  compileActivation src.name src.fnNameIdx src.contracts src.body src.inner

/-- The function is the compiled form of the source, its own lambdas among `lambdas`. -/
structure Source.Yields (src : Source) (lambdas : List BytecodeFunc) (f : BytecodeFunc) : Prop where
  tidy : Tidy src.inner
  counted : src.inner.maxReg = src.inner.nextReg
  fresh : src.inner.compiledLambdas = []
  named : src.contracts.requires ++ src.contracts.invariants ++ src.contracts.ensures ≠ [] →
    src.fnNameIdx < src.inner.constants.length
  instructions : f.instructions = src.emitted.code
  constants : f.constants = src.emitted.state.constants
  registerCount : f.registerCount = src.emitted.state.maxReg
  nested : ∀ g ∈ src.emitted.state.compiledLambdas, g ∈ lambdas

/-- A function keeps its source when more lambdas come. -/
theorem Source.Yields.mono {src : Source} {lambdas lambdas' : List BytecodeFunc} {f : BytecodeFunc}
    (h : src.Yields lambdas f) (hsub : ∀ g ∈ lambdas, g ∈ lambdas') : src.Yields lambdas' f :=
  { h with nested := fun g hg => hsub g (h.nested g hg) }

/-! ## Extension -/

/-- Further lambdas, each compiled from a source, and their pools full at most. -/
structure NewLambdas (s s' : Compiler) (new : List BytecodeFunc) : Prop where
  eq : s'.compiledLambdas = s.compiledLambdas ++ new
  numbered : Numbered s.lambdaPrefix s.lambdaCounter s'.lambdaCounter new
  sources : ∀ f ∈ new, ∃ src : Source, src.Yields s'.compiledLambdas f
  pools : s'.panicked = false → ∀ f ∈ new, f.constants.length ≤ 65535

/-- What every compilation step leaves as it was, up to growth. -/
structure Extends (s s' : Compiler) : Prop where
  constants : s.constants <+: s'.constants
  pool : s'.panicked = false → s.constants.length ≤ 65535 → s'.constants.length ≤ 65535
  maxReg : s.maxReg ≤ s'.maxReg
  lambdas : ∃ new, NewLambdas s s' new
  counter : s.lambdaCounter ≤ s'.lambdaCounter
  unitPrefix : s'.lambdaPrefix = s.lambdaPrefix
  ownership : s'.ownershipMap = s.ownershipMap
  moved : (∀ name, s.ownershipMap name = none) → s'.movedRegs = s.movedRegs
  panicked : s'.panicked = false → s.panicked = false
  longJump : s'.longJump = false → s.longJump = false

/-- Where the lambdas are the same, none is new. -/
theorem NewLambdas.nil {s s' : Compiler} (heq : s'.compiledLambdas = s.compiledLambdas) :
    NewLambdas s s' [] where
  eq := by rw [heq, List.append_nil]
  numbered := .nil _ _ _
  sources := by simp
  pools := by simp

namespace Extends

variable {s s' s'' : Compiler}

theorem refl (s : Compiler) : Extends s s where
  constants := List.prefix_refl _
  pool _ h := h
  maxReg := le_rfl
  lambdas := ⟨[], .nil rfl⟩
  counter := le_rfl
  unitPrefix := rfl
  ownership := rfl
  moved := fun _ => rfl
  panicked := id
  longJump := id

/-- What a compiler state only adds to, a later one adds to as well. -/
theorem trans (h : Extends s s') (h' : Extends s' s'') : Extends s s'' where
  constants := h.constants.trans h'.constants
  pool hnone hle := h'.pool hnone (h.pool (h'.panicked hnone) hle)
  maxReg := h.maxReg.trans h'.maxReg
  lambdas := by
    obtain ⟨new, hnew⟩ := h.lambdas
    obtain ⟨new', hnew'⟩ := h'.lambdas
    have hnumbered' := hnew'.numbered
    rw [h.unitPrefix] at hnumbered'
    refine ⟨new ++ new', by rw [hnew'.eq, hnew.eq, List.append_assoc],
      hnew.numbered.append hnumbered' h.counter h'.counter, fun f hf => ?_, fun hnone f hf => ?_⟩
    · rcases List.mem_append.mp hf with hf | hf
      · obtain ⟨src, hsrc⟩ := hnew.sources f hf
        refine ⟨src, hsrc.mono fun g hg => ?_⟩
        rw [hnew'.eq]
        exact List.mem_append_left _ hg
      · exact hnew'.sources f hf
    · rcases List.mem_append.mp hf with hf | hf
      · exact hnew.pools (h'.panicked hnone) f hf
      · exact hnew'.pools hnone f hf
  counter := h.counter.trans h'.counter
  unitPrefix := h'.unitPrefix.trans h.unitPrefix
  ownership := h'.ownership.trans h.ownership
  moved hnone := (h'.moved (by rwa [h.ownership])).trans (h.moved hnone)
  panicked := h.panicked ∘ h'.panicked
  longJump := h.longJump ∘ h'.longJump

/-- A compiled lambda stays. -/
theorem mem_lambdas (h : Extends s s') {f : BytecodeFunc} (hf : f ∈ s.compiledLambdas) :
    f ∈ s'.compiledLambdas := by
  obtain ⟨new, hnew⟩ := h.lambdas
  rw [hnew.eq]
  exact List.mem_append_left _ hf

/-- A step that compiles no lambda. -/
theorem of_eq (hconstants : s.constants <+: s'.constants)
    (hpool : s'.panicked = false → s.constants.length ≤ 65535 → s'.constants.length ≤ 65535)
    (hmax : s.maxReg ≤ s'.maxReg)
    (hlambdas : s'.compiledLambdas = s.compiledLambdas)
    (hcounter : s'.lambdaCounter = s.lambdaCounter)
    (hunit : s'.lambdaPrefix = s.lambdaPrefix) (hownership : s'.ownershipMap = s.ownershipMap)
    (hmoved : s'.movedRegs = s.movedRegs) (hpanicked : s'.panicked = false → s.panicked = false)
    (hlong : s'.longJump = false → s.longJump = false) : Extends s s' where
  constants := hconstants
  pool := hpool
  maxReg := hmax
  lambdas := ⟨[], .nil hlambdas⟩
  counter := hcounter.ge
  unitPrefix := hunit
  ownership := hownership
  moved := fun _ => hmoved
  panicked := hpanicked
  longJump := hlong

end Extends

/-! ## The constant pool -/

namespace Compiler

theorem freeRegTo_extends (s : Compiler) (r : Nat) : Extends s (s.freeRegTo r) :=
  .of_eq (List.prefix_refl _) (fun _ h => h) le_rfl rfl rfl rfl rfl rfl id id

theorem noteJump_extends (s : Compiler) (distance : Nat) : Extends s (s.noteJump distance) :=
  .of_eq (List.prefix_refl _) (fun _ h => h)
    le_rfl rfl rfl rfl rfl rfl id (by simp +contextual [noteJump])

theorem removeLocals_extends (s : Compiler) (names : List String) :
    Extends s (s.removeLocals names) :=
  .of_eq (List.prefix_refl _) (fun _ h => h) le_rfl rfl rfl rfl rfl rfl id id

theorem insertLocal_extends (s : Compiler) (name : String) (r : Nat) :
    Extends s (s.insertLocal name r) :=
  .of_eq (List.prefix_refl _) (fun _ h => h) le_rfl rfl rfl rfl rfl rfl id id

theorem allocReg_extends (s : Compiler) : Extends s s.allocReg :=
  .of_eq (List.prefix_refl _) (fun _ h => h) (le_max_left _ _) rfl rfl rfl rfl rfl id id

/-- A constant that is not there goes behind the others. -/
theorem addConstant_extends (s : Compiler) (v : VmValue) : Extends s (s.addConstant v) := by
  unfold addConstant
  split
  · exact .refl s
  · refine .of_eq (List.prefix_append _ _) ?_ le_rfl rfl rfl rfl rfl rfl ?_ id
    · intro hpanicked _
      have hshort := of_decide_eq_false (Bool.or_eq_false_iff.mp hpanicked).2
      rw [List.length_append, List.length_singleton]
      omega
    · exact fun hpanicked => (Bool.or_eq_false_iff.mp hpanicked).1

@[simp] theorem addConstant_nextReg (s : Compiler) (v : VmValue) :
    (s.addConstant v).nextReg = s.nextReg := by
  unfold addConstant; split <;> rfl

@[simp] theorem addConstant_maxReg (s : Compiler) (v : VmValue) :
    (s.addConstant v).maxReg = s.maxReg := by
  unfold addConstant; split <;> rfl

@[simp] theorem addConstant_locals (s : Compiler) (v : VmValue) :
    (s.addConstant v).locals = s.locals := by
  unfold addConstant; split <;> rfl

@[simp] theorem addConstant_movedRegs (s : Compiler) (v : VmValue) :
    (s.addConstant v).movedRegs = s.movedRegs := by
  unfold addConstant; split <;> rfl

@[simp] theorem addConstant_ownershipMap (s : Compiler) (v : VmValue) :
    (s.addConstant v).ownershipMap = s.ownershipMap := by
  unfold addConstant; split <;> rfl

/-- Its index is that of a constant with the same key. -/
theorem getElem?_addConstant (s : Compiler) (v : VmValue) :
    ∃ c, (s.addConstant v).constants[s.constantIndex v]? = some c ∧ (c = v ∨ sameKey v c) := by
  unfold addConstant constantIndex
  cases hfind : s.constants.findIdx? (sameKey v) with
  | none => exact ⟨v, by simp, Or.inl rfl⟩
  | some i =>
    obtain ⟨hlt, hkey, -⟩ := List.findIdx?_eq_some_iff_getElem.mp hfind
    exact ⟨s.constants[i], by simp [hlt], Or.inr hkey⟩

/-- For a text that is the text itself. -/
theorem getElem?_addConstant_str (s : Compiler) (text : String) :
    (s.addConstant (.str text)).constants[s.constantIndex (.str text)]? = some (.str text) := by
  obtain ⟨c, hc, rfl | hkey⟩ := s.getElem?_addConstant (.str text)
  · exact hc
  · cases c <;> simp [sameKey, Value.valueEq] at hkey
    rw [hc, hkey]

/-- The index is one of the pool. -/
theorem constantIndex_lt (s : Compiler) (v : VmValue) :
    s.constantIndex v < (s.addConstant v).constants.length := by
  obtain ⟨c, hc, -⟩ := s.getElem?_addConstant v
  exact (List.getElem?_eq_some_iff.mp hc).1

end Compiler

/-! ## Valid code -/

/-- The opcodes whose operands the validator checks completely. -/
def Op.covered : Op → Bool
  | .tailCall | .checkNotMoved | .makeClosure => false
  | _ => true

/-- What the validator leaves out: the arguments of a self call and the captured registers
exist, and so do the constants that hold names. -/
structure Grounded (registerCount : Nat) (constants : List VmValue) (lambdas : List BytecodeFunc)
    (instr : Instruction) : Prop where
  tailCall : instr.op = .tailCall → instr.a < constants.length ∧ instr.b ≤ registerCount
  checkNotMoved : instr.op = .checkNotMoved → instr.b < constants.length
  makeClosure : instr.op = .makeClosure → ∃ g ∈ lambdas,
    constants[instr.a]? = some (.str g.name) ∧ instr.b + g.captureCount ≤ registerCount

/-- What the validator asks for says all of the operands. -/
theorem Grounded.of_covered {registerCount : Nat} {constants : List VmValue}
    {lambdas : List BytecodeFunc} {instr : Instruction} (h : instr.op.covered = true) :
    Grounded registerCount constants lambdas instr where
  tailCall hop := absurd (hop ▸ h) (by simp [Op.covered])
  checkNotMoved hop := absurd (hop ▸ h) (by simp [Op.covered])
  makeClosure hop := absurd (hop ▸ h) (by simp [Op.covered])

/-- Operands stay grounded in larger banks and pools. -/
theorem Grounded.mono {registerCount registerCount' : Nat} {constants constants' : List VmValue}
    {lambdas lambdas' : List BytecodeFunc} {instr : Instruction}
    (h : Grounded registerCount constants lambdas instr) (hreg : registerCount ≤ registerCount')
    (hconst : constants <+: constants') (hlambdas : ∀ g ∈ lambdas, g ∈ lambdas') :
    Grounded registerCount' constants' lambdas' instr where
  tailCall hop :=
    ⟨(h.tailCall hop).1.trans_le hconst.length_le, (h.tailCall hop).2.trans hreg⟩
  checkNotMoved hop := (h.checkNotMoved hop).trans_le hconst.length_le
  makeClosure hop := by
    obtain ⟨g, hg, hname, hle⟩ := h.makeClosure hop
    obtain ⟨rest, hrest⟩ := hconst
    refine ⟨g, hlambdas g hg, ?_, hle.trans hreg⟩
    rw [← hrest, List.getElem?_append_left (List.getElem?_eq_some_iff.mp hname).1]
    exact hname

section

variable {registerCount dst a b : Nat} {constants : List VmValue} {lambdas : List BytecodeFunc}

theorem Grounded.of_tailCall (ha : a < constants.length) (hb : b ≤ registerCount) :
    Grounded registerCount constants lambdas ⟨.tailCall, dst, a, b⟩ :=
  ⟨fun _ => ⟨ha, hb⟩, nofun, nofun⟩

theorem Grounded.of_checkNotMoved (hb : b < constants.length) :
    Grounded registerCount constants lambdas ⟨.checkNotMoved, dst, a, b⟩ :=
  ⟨nofun, fun _ => hb, nofun⟩

theorem Grounded.of_makeClosure {g : BytecodeFunc} (hg : g ∈ lambdas)
    (hname : constants[a]? = some (.str g.name)) (hb : b + g.captureCount ≤ registerCount) :
    Grounded registerCount constants lambdas ⟨.makeClosure, dst, a, b⟩ :=
  ⟨nofun, nofun, fun _ => ⟨g, hg, hname, hb⟩⟩

end

/-- The instructions pass the validator of a function with these registers and constants, and
are grounded in it. -/
def ValidCode (s : Compiler) (code : List Instruction) : Prop :=
  ∀ instr ∈ code, validInstruction s.maxReg s.constants.length instr = true ∧
    Grounded s.maxReg s.constants s.compiledLambdas instr

/-- And instructions stay valid in them. -/
theorem validInstruction_mono {registerCount registerCount' constantCount constantCount' : Nat}
    (hreg : registerCount ≤ registerCount') (hconst : constantCount ≤ constantCount')
    {instr : Instruction} (h : validInstruction registerCount constantCount instr = true) :
    validInstruction registerCount' constantCount' instr = true := by
  unfold validInstruction at h ⊢
  cases hop : instr.op <;> rw [hop] at h <;>
    simp only [Bool.and_eq_true, Bool.or_eq_true, decide_eq_true_eq, beq_iff_eq] at h ⊢ <;> omega

namespace ValidCode

variable {s s' : Compiler} {code code' : List Instruction}

/-- Code stays valid as the state grows. -/
theorem mono (h : ValidCode s code) (hext : Extends s s') : ValidCode s' code :=
  fun instr hinstr =>
    ⟨validInstruction_mono hext.maxReg hext.constants.length_le (h instr hinstr).1,
      (h instr hinstr).2.mono hext.maxReg hext.constants fun _ => hext.mem_lambdas⟩

theorem nil (s : Compiler) : ValidCode s [] := by simp [ValidCode]

/-- Valid code behind valid code. -/
theorem append (h : ValidCode s code) (h' : ValidCode s code') : ValidCode s (code ++ code') := by
  intro instr hinstr
  rcases List.mem_append.mp hinstr with hinstr | hinstr
  · exact h instr hinstr
  · exact h' instr hinstr

/-- An instruction of which the validator does not ask everything. -/
theorem cons_grounded {instr : Instruction}
    (hinstr : validInstruction s.maxReg s.constants.length instr = true)
    (hground : Grounded s.maxReg s.constants s.compiledLambdas instr) (h : ValidCode s code) :
    ValidCode s (instr :: code) := by
  intro i hi
  rcases List.mem_cons.mp hi with rfl | hi
  · exact ⟨hinstr, hground⟩
  · exact h i hi

/-- An instruction of which it does. -/
theorem cons {instr : Instruction}
    (hinstr : validInstruction s.maxReg s.constants.length instr = true) (h : ValidCode s code)
    (hop : instr.op.covered = true := by rfl) : ValidCode s (instr :: code) :=
  h.cons_grounded hinstr (.of_covered hop)

end ValidCode

/-! ## The specification of a step -/

/-- Such a compiler of a program without ownership annotations. -/
structure Ready (s : Compiler) : Prop extends Tidy s where
  noOwnership : ∀ name, s.ownershipMap name = none
  noMoved : s.movedRegs = []

/-- A step from `s` to `s'` that emits `code`: it occupies `regs` registers,
rebinds the names in `fresh` and forgets the names in `gone`. -/
structure Spec (regs : Nat) (gone fresh : List String) (s : Compiler) (code : List Instruction)
    (s' : Compiler) : Prop where
  ext : Extends s s'
  nextReg : s'.nextReg = s.nextReg + regs
  nextReg_le : s'.nextReg ≤ s'.maxReg
  locals : ∀ {x}, x ∉ fresh → s'.locals x = if x ∈ gone then none else s.locals x
  fresh_lt : ∀ {x r}, x ∈ fresh → s'.locals x = some r → r < s'.nextReg
  valid : ValidCode s' code

/-- What keeps the specification keeps the state tidy. -/
theorem Spec.tidy {regs : Nat} {gone fresh : List String} {s s' : Compiler}
    {code : List Instruction} (h : Spec regs gone fresh s code s') (hs : Tidy s) : Tidy s' where
  nextReg_le := h.nextReg_le
  locals_lt := by
    intro name r hr
    by_cases hfresh : name ∈ fresh
    · exact h.fresh_lt hfresh hr
    · rw [h.locals hfresh] at hr
      split at hr
      · exact absurd hr (by simp)
      · have hlt := hs.locals_lt hr
        have hnext := h.nextReg
        omega

/-- And ready. -/
theorem Spec.ready {regs : Nat} {gone fresh : List String} {s s' : Compiler}
    {code : List Instruction} (h : Spec regs gone fresh s code s') (hs : Ready s) : Ready s' where
  toTidy := h.tidy hs.toTidy
  noOwnership name := by rw [h.ext.ownership, hs.noOwnership]
  noMoved := (h.ext.moved hs.noOwnership).trans hs.noMoved

namespace Spec

variable {regs regs' : Nat} {gone gone' fresh fresh' : List String} {s s' s'' : Compiler}
  {code code' : List Instruction}

theorem refl (hs : Tidy s) : Spec 0 [] [] s [] s where
  ext := .refl s
  nextReg := rfl
  nextReg_le := hs.nextReg_le
  locals := by simp
  fresh_lt := by simp
  valid := .nil s

/-- One after the other: registers, lost names and new names add up. -/
theorem append (h : Spec regs gone fresh s code s') (h' : Spec regs' gone' fresh' s' code' s'') :
    Spec (regs + regs') (gone ++ gone') (fresh ++ fresh') s (code ++ code') s'' where
  ext := h.ext.trans h'.ext
  nextReg := by rw [h'.nextReg, h.nextReg, Nat.add_assoc]
  nextReg_le := h'.nextReg_le
  locals := by
    intro x hx
    simp only [List.mem_append, not_or] at hx
    rw [h'.locals hx.2, h.locals hx.1]
    by_cases hgone' : x ∈ gone' <;> by_cases hgone : x ∈ gone <;> simp [hgone, hgone']
  fresh_lt := by
    intro x r hx hr
    by_cases hfresh' : x ∈ fresh'
    · exact h'.fresh_lt hfresh' hr
    · have hfresh : x ∈ fresh := (List.mem_append.mp hx).resolve_right hfresh'
      rw [h'.locals hfresh'] at hr
      split at hr
      · exact absurd hr (by simp)
      · have hlt := h.fresh_lt hfresh hr
        have hnext := h'.nextReg
        omega
  valid := (h.valid.mono h'.ext).append h'.valid

/-- The specification does not care how its parts are written. -/
theorem congr (h : Spec regs gone fresh s code s') (hregs : regs = regs')
    (hgone : ∀ x, x ∉ fresh → (x ∈ gone ↔ x ∈ gone')) (hfresh : ∀ x, x ∈ fresh ↔ x ∈ fresh')
    (hcode : code = code') : Spec regs' gone' fresh' s code' s' := by
  subst hregs hcode
  refine ⟨h.ext, h.nextReg, h.nextReg_le, fun {x} hx => ?_,
    fun hx => h.fresh_lt ((hfresh _).mpr hx), h.valid⟩
  have hx' := mt (hfresh x).mp hx
  simp only [h.locals hx', hgone x hx']

/-- More valid code behind it. -/
theorem emit (h : Spec regs gone fresh s code s') (hcode : ValidCode s' code') :
    Spec regs gone fresh s (code ++ code') s' :=
  ⟨h.ext, h.nextReg, h.nextReg_le, h.locals, h.fresh_lt, h.valid.append hcode⟩

/-- An instruction before it whose operands are grounded. -/
theorem push_grounded (h : Spec regs gone fresh s code s') (instr : Instruction)
    (hinstr : validInstruction s'.maxReg s'.constants.length instr = true)
    (hground : Grounded s'.maxReg s'.constants s'.compiledLambdas instr) :
    Spec regs gone fresh s (instr :: code) s' :=
  ⟨h.ext, h.nextReg, h.nextReg_le, h.locals, h.fresh_lt, h.valid.cons_grounded hinstr hground⟩

/-- An instruction before it that the validator covers. -/
theorem push (h : Spec regs gone fresh s code s') (instr : Instruction)
    (hinstr : validInstruction s'.maxReg s'.constants.length instr = true)
    (hop : instr.op.covered = true := by rfl) : Spec regs gone fresh s (instr :: code) s' :=
  h.push_grounded instr hinstr (.of_covered hop)

/-- Registers are given back down to where the step started. -/
theorem free (h : Spec regs gone [] s code s') (hs : Tidy s) :
    Spec 0 gone [] s code (s'.freeRegTo s.nextReg) where
  ext := h.ext.trans (s'.freeRegTo_extends _)
  nextReg := rfl
  nextReg_le := hs.nextReg_le.trans h.ext.maxReg
  locals := h.locals
  fresh_lt := by simp
  valid := h.valid

/-- The names are removed at the end. -/
theorem remove (h : Spec regs gone fresh s code s') (names : List String)
    (hnames : ∀ x ∈ fresh, x ∈ names) :
    Spec regs (gone ++ names) [] s code (s'.removeLocals names) where
  ext := h.ext.trans (s'.removeLocals_extends names)
  nextReg := h.nextReg
  nextReg_le := h.nextReg_le
  locals := by
    intro x _
    simp only [Compiler.removeLocals, List.mem_append]
    by_cases hx : x ∈ names
    · simp [hx]
    · simp [hx, h.locals (mt (hnames x) hx)]
  fresh_lt := by simp
  valid := h.valid

/-- A register is taken. -/
theorem alloc (s : Compiler) : Spec 1 [] [] s [] s.allocReg where
  ext := s.allocReg_extends
  nextReg := rfl
  nextReg_le := le_max_right _ _
  locals := by simp [Compiler.allocReg]
  fresh_lt := by simp
  valid := .nil _

/-- A constant takes no register. -/
theorem addConstant (hs : Tidy s) (v : VmValue) : Spec 0 [] [] s [] (s.addConstant v) where
  ext := s.addConstant_extends v
  nextReg := by simp
  nextReg_le := by simpa using hs.nextReg_le
  locals := by simp
  fresh_lt := by simp
  valid := .nil _

theorem noteJump (hs : Tidy s) (distance : Nat) : Spec 0 [] [] s [] (s.noteJump distance) where
  ext := s.noteJump_extends distance
  nextReg := rfl
  nextReg_le := hs.nextReg_le
  locals := by simp [Compiler.noteJump]
  fresh_lt := by simp
  valid := .nil _

theorem reserveSlots (hs : Tidy s) (dst count : Nat) :
    Spec 0 [] [] s [] (s.reserveSlots dst count) := by
  unfold Compiler.reserveSlots
  split
  · exact .refl hs
  · exact
      { ext := .of_eq (List.prefix_refl _) (fun _ h => h) (le_max_left _ _)
          rfl rfl rfl rfl rfl id id
        nextReg := rfl
        nextReg_le := hs.nextReg_le.trans (le_max_left _ _)
        locals := by simp
        fresh_lt := by simp
        valid := .nil _ }

/-- A name is bound to a register in use. -/
theorem insertLocal (hs : Tidy s) (name : String) {r : Nat} (hr : r < s.nextReg) :
    Spec 0 [] [name] s [] (s.insertLocal name r) where
  ext := s.insertLocal_extends name r
  nextReg := rfl
  nextReg_le := hs.nextReg_le
  locals := by simp +contextual [Compiler.insertLocal]
  fresh_lt := by
    intro x r' hx hr'
    simp only [List.mem_singleton] at hx
    simp only [Compiler.insertLocal, hx, if_true, Option.some.injEq] at hr'
    exact hr' ▸ hr
  valid := .nil _

theorem single {s : Compiler} (hs : Tidy s) {instr : Instruction}
    (hinstr : validInstruction s.maxReg s.constants.length instr = true)
    (hop : instr.op.covered = true := by rfl) : Spec 0 [] [] s [instr] s :=
  (refl hs).emit (.cons hinstr (.nil _) hop)

end Spec

/-! ## Patterns -/

/-- Reading a field takes three registers. -/
theorem extractField_spec {s : Compiler} (hs : Tidy s) (i : Nat) {innerReg : Nat}
    (hinner : innerReg < s.nextReg) :
    Spec 3 [] [] s (extractField s i innerReg).code (extractField s i innerReg).state := by
  have hat := Spec.addConstant hs (.str "at")
  have hregs := (((hat.append (.alloc _)).append (.alloc _)).append (.alloc _))
  have hall := hregs.append (.addConstant (hregs.tidy hs) (.int (.ofNat i)))
  have hconst := s.constantIndex_lt (.str "at")
  have hidx := Compiler.constantIndex_lt (s.addConstant (.str "at")).allocReg.allocReg.allocReg
    (.int (.ofNat i))
  have hgrow := (Compiler.addConstant_extends (s.addConstant (.str "at")).allocReg.allocReg.allocReg
    (.int (.ofNat i))).constants.length_le
  have hnext := hall.nextReg
  have hmax := hall.nextReg_le
  refine (hall.emit ?_).congr rfl (by simp) (by simp) rfl
  refine .cons ?_ (.cons ?_ (.cons ?_ (.nil _)))
  · simp only [validInstruction, Bool.and_eq_true, decide_eq_true_eq]
    omega
  · simp only [validInstruction, Bool.and_eq_true, decide_eq_true_eq]
    exact ⟨by omega, hidx⟩
  · simp only [validInstruction, Bool.and_eq_true, Bool.or_eq_true, decide_eq_true_eq]
    exact ⟨⟨by omega, lt_of_lt_of_le hconst hgrow⟩, Or.inr (by omega)⟩

theorem validInstruction_matchTag {s : Compiler} {dst a b : Nat} (hdst : dst < s.maxReg)
    (ha : a < s.maxReg) (hb : b < s.constants.length) :
    validInstruction s.maxReg s.constants.length ⟨.matchTag, dst, a, b⟩ = true := by
  simp [validInstruction, hdst, ha, hb]

/-- A variant pattern, by what its fields keep. -/
theorem variant_spec {tag : String} {subPats : List IRPattern}
    (hbind : ∀ {s : Compiler} {innerReg : Nat}, Tidy s → innerReg < s.nextReg →
      Spec (fieldsRegs subPats) [] (IRPattern.bindingsList subPats) s
        (bindFields subPats innerReg s).code (bindFields subPats innerReg s).state)
    {s : Compiler} {valueReg : Nat} (hs : Tidy s) (hreg : valueReg < s.nextReg) :
    Spec (patternRegs (.variant tag subPats)) [] (IRPattern.variant tag subPats).bindings s
      (bindPattern (.variant tag subPats) valueReg s).code
      (bindPattern (.variant tag subPats) valueReg s).state := by
  simp only [patternRegs, IRPattern.bindings, bindPattern, Compiler.addConstant_nextReg]
  have htag := (Spec.addConstant hs (.str tag)).append (.alloc _)
  have hfields := hbind (htag.tidy hs) (show s.nextReg < _ by
    have hnext := htag.nextReg
    omega)
  have hall := htag.append hfields
  have hlt := s.constantIndex_lt (.str tag)
  have hnext := hall.nextReg
  have hmax := hall.nextReg_le
  have hgrow := hfields.ext.constants.length_le
  refine (hall.push ⟨.matchTag, s.nextReg, valueReg, s.constantIndex (.str tag)⟩
    ?_).congr (by omega) (by simp) (by simp) (by simp)
  exact validInstruction_matchTag (by omega) (by omega)
    (lt_of_lt_of_le hlt hgrow)

mutual

/-- Binding a pattern takes its registers and binds its names. -/
theorem bindPattern_spec : ∀ (pat : IRPattern) {s : Compiler} {valueReg : Nat}, Tidy s →
    valueReg < s.nextReg →
    Spec (patternRegs pat) [] pat.bindings s (bindPattern pat valueReg s).code
      (bindPattern pat valueReg s).state
  | .wild, s, _, hs, _ => by
    simpa only [patternRegs, IRPattern.bindings, bindPattern] using Spec.refl hs
  | .lit _, s, _, hs, _ => by
    simpa only [patternRegs, IRPattern.bindings, bindPattern] using Spec.refl hs
  | .bind name, s, _, hs, hreg => by
    simpa only [patternRegs, IRPattern.bindings, bindPattern] using
      Spec.insertLocal hs name hreg
  | .variant _ subPats, _, _, hs, hreg => variant_spec (bindFields_spec subPats) hs hreg

theorem bindFields_spec : ∀ (pats : List IRPattern) {s : Compiler} {innerReg : Nat}, Tidy s →
    innerReg < s.nextReg →
    Spec (fieldsRegs pats) [] (IRPattern.bindingsList pats) s (bindFields pats innerReg s).code
      (bindFields pats innerReg s).state
  | [], _, _, hs, _ => by
    simpa only [fieldsRegs, IRPattern.bindingsList, bindFields] using Spec.refl hs
  | [pat], s, innerReg, hs, hreg => by
    simpa [IRPattern.bindingsList, fieldsRegs, bindFields] using bindPattern_spec pat hs hreg
  | pat :: pat' :: pats, s, innerReg, hs, hreg => by
    have hat := Spec.addConstant hs (.str "at")
    have hfirst := hat.append (bindField_spec pat 0 (hat.tidy hs) (show innerReg < _ by
      simpa using hreg))
    have hrest := bindMultiField_spec (pat' :: pats) 1 (hfirst.tidy hs) (show innerReg < _ by
      have hnext := hfirst.nextReg
      omega)
    exact (hfirst.append hrest).congr
      (by simp [fieldsRegs, multiFieldRegs]) (by simp)
      (by simp [IRPattern.bindingsList]) (by simp [bindFields])

theorem bindMultiField_spec : ∀ (pats : List IRPattern) (i : Nat) {s : Compiler} {innerReg : Nat},
    Tidy s → innerReg < s.nextReg →
    Spec (multiFieldRegs pats) [] (IRPattern.bindingsList pats) s
      (bindMultiField pats i innerReg s).code (bindMultiField pats i innerReg s).state
  | [], _, _, _, hs, _ => by
    simpa only [multiFieldRegs, IRPattern.bindingsList, bindMultiField] using Spec.refl hs
  | pat :: pats, i, s, innerReg, hs, hreg => by
    have hfirst := bindField_spec pat i hs hreg
    have hrest := bindMultiField_spec pats (i + 1) (hfirst.tidy hs) (show innerReg < _ by
      have hnext := hfirst.nextReg
      omega)
    exact (hfirst.append hrest).congr (by simp [multiFieldRegs]) (by simp)
      (by simp [IRPattern.bindingsList]) (by simp [bindMultiField])

theorem bindField_spec : ∀ (pat : IRPattern) (i : Nat) {s : Compiler} {innerReg : Nat}, Tidy s →
    innerReg < s.nextReg →
    Spec (fieldRegs pat) [] pat.bindings s (bindField pat i innerReg s).code
      (bindField pat i innerReg s).state
  | .wild, _, _, _, hs, _ => by
    simpa only [fieldRegs, IRPattern.bindings, bindField] using Spec.refl hs
  | .lit _, _, _, _, hs, _ => by
    simpa only [fieldRegs, IRPattern.bindings, bindField] using Spec.refl hs
  | .bind name, i, s, innerReg, hs, hreg => by
    have hfield := extractField_spec hs i hreg
    have hnext := hfield.nextReg
    exact (hfield.append (.insertLocal (hfield.tidy hs) name (r := s.nextReg) (by omega))).congr
      (by simp [fieldRegs]) (by simp) (by simp [IRPattern.bindings]) (by simp [bindField])
  | .variant tag nested, i, s, innerReg, hs, hreg => by
    have hfield := extractField_spec hs i hreg
    have hnext := hfield.nextReg
    have hnested := @variant_spec tag nested (bindFields_spec nested) _ _ (hfield.tidy hs)
      (show s.nextReg < _ by omega)
    exact (hfield.append hnested).congr (by simp only [fieldRegs, patternRegs]; omega) (by simp)
      (by simp) rfl

end

theorem Compiler.insertLocal_apart {s : Compiler} {d r : Nat} (h : ∀ x, s.locals x ≠ some d)
    (hne : r ≠ d) (name x : String) : (s.insertLocal name r).locals x ≠ some d := by
  simp only [insertLocal]
  split
  · exact fun heq => hne (Option.some.inj heq)
  · exact h x

/-- Reading a field that is a variant takes one more, for its tag. -/
theorem tagField_spec {s : Compiler} (hs : Tidy s) (i : Nat) {innerReg : Nat}
    (hinner : innerReg < s.nextReg) (tag : String) :
    Spec 4 [] [] s (extractField s i innerReg).code
      ((extractField s i innerReg).state.addConstant (.str tag)).allocReg := by
  have hfield := extractField_spec hs i hinner
  exact (hfield.append ((Spec.addConstant (hfield.tidy hs) (.str tag)).append (.alloc _))).congr
    (by simp) (by simp) (by simp) rfl

/-- A register that no name has stays so. -/
theorem Spec.apart {regs : Nat} {gone : List String} {s s' : Compiler} {code : List Instruction}
    (hspec : Spec regs gone [] s code s') {d : Nat} (h : ∀ x, s.locals x ≠ some d) (x : String) :
    s'.locals x ≠ some d := by
  rw [hspec.locals (by simp)]
  split
  · simp
  · exact h x

mutual

/-- A pattern binds no name to a register that it does not own. -/
theorem bindPattern_apart : ∀ (pat : IRPattern) {s : Compiler} {valueReg d : Nat}, Tidy s →
    valueReg < s.nextReg → valueReg ≠ d → d < s.nextReg → (∀ x, s.locals x ≠ some d) →
    ∀ x, (bindPattern pat valueReg s).state.locals x ≠ some d
  | .wild, _, _, _, _, _, _, _, h => by simpa only [bindPattern] using h
  | .lit _, _, _, _, _, _, _, _, h => by simpa only [bindPattern] using h
  | .bind name, _, _, _, _, _, hne, _, h => by
    simpa only [bindPattern] using Compiler.insertLocal_apart h hne name
  | .variant tag subPats, s, valueReg, d, hs, hreg, hne, hd, h => by
    simp only [bindPattern, Compiler.addConstant_nextReg]
    have htag := (Spec.addConstant hs (.str tag)).append (.alloc _)
    have hnext := htag.nextReg
    exact bindFields_apart subPats (htag.tidy hs) (by omega) hd.ne' (by omega) (htag.apart h)

theorem bindFields_apart : ∀ (pats : List IRPattern) {s : Compiler} {innerReg d : Nat}, Tidy s →
    innerReg < s.nextReg → innerReg ≠ d → d < s.nextReg → (∀ x, s.locals x ≠ some d) →
    ∀ x, (bindFields pats innerReg s).state.locals x ≠ some d
  | [], _, _, _, _, _, _, _, h => by simpa only [bindFields] using h
  | [pat], _, _, _, hs, hreg, hne, hd, h => by
    simpa only [bindFields] using bindPattern_apart pat hs hreg hne hd h
  | pat :: pat' :: pats, s, innerReg, d, hs, hreg, hne, hd, h => by
    simp only [bindFields]
    have hat := Spec.addConstant hs (.str "at")
    have hfirst := bindField_spec pat 0 (hat.tidy hs) (show innerReg < _ by simpa using hreg)
    have hnext := (hat.append hfirst).nextReg
    exact bindMultiField_apart (pat' :: pats) 1 (hfirst.tidy (hat.tidy hs)) (by omega) hne
      (by omega) (bindField_apart pat 0 (hat.tidy hs) (by simpa using hreg) (by simpa using hd)
        (hat.apart h))

theorem bindMultiField_apart : ∀ (pats : List IRPattern) (i : Nat) {s : Compiler}
    {innerReg d : Nat}, Tidy s → innerReg < s.nextReg → innerReg ≠ d → d < s.nextReg →
    (∀ x, s.locals x ≠ some d) → ∀ x, (bindMultiField pats i innerReg s).state.locals x ≠ some d
  | [], _, _, _, _, _, _, _, _, h => by simpa only [bindMultiField] using h
  | pat :: pats, i, s, innerReg, d, hs, hreg, hne, hd, h => by
    simp only [bindMultiField]
    have hfirst := bindField_spec pat i hs hreg
    have hnext := hfirst.nextReg
    exact bindMultiField_apart pats (i + 1) (hfirst.tidy hs) (by omega) hne (by omega)
      (bindField_apart pat i hs hreg hd h)

theorem bindField_apart : ∀ (pat : IRPattern) (i : Nat) {s : Compiler} {innerReg d : Nat}, Tidy s →
    innerReg < s.nextReg → d < s.nextReg → (∀ x, s.locals x ≠ some d) →
    ∀ x, (bindField pat i innerReg s).state.locals x ≠ some d
  | .wild, _, _, _, _, _, _, _, h => by simpa only [bindField] using h
  | .lit _, _, _, _, _, _, _, _, h => by simpa only [bindField] using h
  | .bind name, i, s, innerReg, d, hs, hreg, hd, h => by
    simpa only [bindField] using
      Compiler.insertLocal_apart ((extractField_spec hs i hreg).apart h) hd.ne' name
  | .variant tag nested, i, s, innerReg, d, hs, hreg, hd, h => by
    simp only [bindField, Compiler.addConstant_nextReg]
    have hfield := extractField_spec hs i hreg
    have htag := tagField_spec hs i hreg tag
    have hnext := hfield.nextReg
    have hnextTag := htag.nextReg
    exact bindFields_apart nested (htag.tidy hs) (by omega) (by omega) (by omega) (htag.apart h)

end

/-! ## Call slots -/

/-- Registers in ascending order from `lo` on and below `hi`. -/
def Ascending (lo : Nat) : List Nat → Nat → Prop
  | [], hi => lo ≤ hi
  | r :: rs, hi => lo ≤ r ∧ Ascending (r + 1) rs hi

theorem Ascending.lo_le {lo hi : Nat} {regs : List Nat} (h : Ascending lo regs hi) : lo ≤ hi := by
  induction regs generalizing lo with
  | nil => exact h
  | cons r rs ih =>
    have hrest := ih h.2
    have hle := h.1
    omega

theorem Ascending.le_of_mem {lo hi : Nat} {regs : List Nat} (h : Ascending lo regs hi) :
    ∀ r ∈ regs, lo ≤ r := by
  induction regs generalizing lo with
  | nil => simp
  | cons r rs ih =>
    intro r' hr'
    have hle := h.1
    rcases List.mem_cons.mp hr' with rfl | hr'
    · exact hle
    · have hrest := ih h.2 r' hr'
      omega

theorem Ascending.lt_of_mem {lo hi : Nat} {regs : List Nat} (h : Ascending lo regs hi) :
    ∀ r ∈ regs, r < hi := by
  induction regs generalizing lo with
  | nil => simp
  | cons r rs ih =>
    intro r' hr'
    rcases List.mem_cons.mp hr' with rfl | hr'
    · exact h.2.lo_le
    · exact ih h.2 r' hr'

/-- The bound below an ascending list may be taken lower. -/
theorem Ascending.lower {lo lo' hi : Nat} {regs : List Nat} (h : Ascending lo regs hi)
    (hle : lo' ≤ lo) : Ascending lo' regs hi := by
  cases regs with
  | nil => exact hle.trans h
  | cons r rs => exact ⟨hle.trans h.1, h.2⟩

/-- An ascending list has room for its length. -/
theorem Ascending.add_length_le {lo hi : Nat} {regs : List Nat} (h : Ascending lo regs hi) :
    lo + regs.length ≤ hi := by
  induction regs generalizing lo with
  | nil => exact h
  | cons r rs ih =>
    have hrest := ih h.2
    have hle := h.1
    simp only [List.length_cons]
    omega

/-- Moving temporaries down to their slots. -/
theorem moveToSlots_valid {s : Compiler} {slot hi : Nat} {regs : List Nat}
    (h : Ascending slot regs hi) (hhi : hi ≤ s.maxReg) : ValidCode s (moveToSlots slot regs) := by
  induction regs generalizing slot with
  | nil => exact .nil s
  | cons r rs ih =>
    obtain ⟨hle, hrest⟩ := h
    have hlt := hrest.lo_le
    rw [moveToSlots]
    refine .append ?_ (ih (hrest.lower (by omega)))
    split
    · refine .cons ?_ (.nil s)
      simp only [validInstruction, Bool.and_eq_true, decide_eq_true_eq]
      omega
    · exact .nil s

/-! ## Entering and leaving functions -/

/-- Parameters are the first registers. -/
theorem bindParams_tidy {s : Compiler} (params : List String) {i : Nat} (hs : Tidy s)
    (hnext : s.nextReg = i) (hmax : s.maxReg = i) : Tidy (Compiler.bindParams params i s) := by
  induction params generalizing i s with
  | nil => exact hs
  | cons param params ih =>
    refine ih ⟨le_rfl, fun {name r} hr => ?_⟩ rfl rfl
    simp only [Compiler.insertLocal] at hr ⊢
    split at hr
    · obtain rfl := Option.some.inj hr
      exact Nat.lt_succ_self _
    · have hlt := hs.locals_lt hr
      omega

theorem bindParams_nextReg (params : List String) {i : Nat} {s : Compiler} (hnext : s.nextReg = i) :
    (Compiler.bindParams params i s).nextReg = i + params.length := by
  induction params generalizing i s with
  | nil => exact hnext
  | cons param params ih =>
    refine (ih (i := i + 1) rfl).trans ?_
    rw [List.length_cons]
    omega

theorem bindParams_maxReg (params : List String) {i : Nat} {s : Compiler} (hmax : s.maxReg = i) :
    (Compiler.bindParams params i s).maxReg = i + params.length := by
  induction params generalizing i s with
  | nil => exact hmax
  | cons param params ih =>
    refine (ih (i := i + 1) rfl).trans ?_
    rw [List.length_cons]
    omega

/-- At the start of a body the registers in use are the parameters. -/
theorem enterFunction_counted (s : Compiler) (params : List String) :
    (s.enterFunction params).maxReg = (s.enterFunction params).nextReg :=
  (bindParams_maxReg params (i := 0) rfl).trans (bindParams_nextReg params (i := 0) rfl).symm

theorem enterFunction_tidy (s : Compiler) (params : List String) : Tidy (s.enterFunction params) :=
  bindParams_tidy params ⟨le_rfl, by simp⟩ rfl rfl

/-- Binding them changes neither lambdas nor constants. -/
theorem bindParams_fields (params : List String) (i : Nat) (s : Compiler) :
    (Compiler.bindParams params i s).compiledLambdas = s.compiledLambdas ∧
      (Compiler.bindParams params i s).lambdaCounter = s.lambdaCounter ∧
      (Compiler.bindParams params i s).lambdaPrefix = s.lambdaPrefix ∧
      (Compiler.bindParams params i s).constants = s.constants ∧
      (Compiler.bindParams params i s).panicked = s.panicked ∧
      (Compiler.bindParams params i s).longJump = s.longJump ∧
      (Compiler.bindParams params i s).ownershipMap = s.ownershipMap ∧
      (Compiler.bindParams params i s).movedRegs = s.movedRegs := by
  induction params generalizing i s with
  | nil => exact ⟨rfl, rfl, rfl, rfl, rfl, rfl, rfl, rfl⟩
  | cons param params ih => exact ih _ _

theorem bindParams_ready {s : Compiler} (params : List String) {i : Nat} (hs : Ready s)
    (hnext : s.nextReg = i) (hmax : s.maxReg = i) : Ready (Compiler.bindParams params i s) := by
  obtain ⟨-, -, -, -, -, -, hown, hmoved⟩ := bindParams_fields params i s
  refine ⟨bindParams_tidy params hs.toTidy hnext hmax, ?_, hmoved.trans hs.noMoved⟩
  rw [hown]
  exact hs.noOwnership

@[simp] theorem enterFunction_compiledLambdas (s : Compiler) (params : List String) :
    (s.enterFunction params).compiledLambdas = [] := (bindParams_fields _ _ _).1

@[simp] theorem enterFunction_lambdaCounter (s : Compiler) (params : List String) :
    (s.enterFunction params).lambdaCounter = s.lambdaCounter := (bindParams_fields _ _ _).2.1

@[simp] theorem enterFunction_lambdaPrefix (s : Compiler) (params : List String) :
    (s.enterFunction params).lambdaPrefix = s.lambdaPrefix := (bindParams_fields _ _ _).2.2.1

/-- Leaving a function brings its lambdas out. -/
theorem leaveFunction_extends {s inner final : Compiler}
    (hlambdas : inner.compiledLambdas = []) (hcounter : s.lambdaCounter ≤ inner.lambdaCounter)
    (hunit : inner.lambdaPrefix = s.lambdaPrefix) (hext : Extends inner final) :
    Extends s (s.leaveFunction final) where
  constants := List.prefix_refl _
  pool _ h := h
  maxReg := le_rfl
  lambdas := by
    obtain ⟨new, hnew⟩ := hext.lambdas
    have heq := hnew.eq
    have hnumbered := hnew.numbered
    rw [hlambdas, List.nil_append] at heq
    rw [hunit] at hnumbered
    refine ⟨new, by simp [Compiler.leaveFunction, heq], hnumbered.widen hcounter le_rfl,
      fun f hf => ?_, fun hnone => hnew.pools ?_⟩
    · obtain ⟨src, hsrc⟩ := hnew.sources f hf
      exact ⟨src, hsrc.mono fun g hg => List.mem_append_right _ hg⟩
    · simp only [Compiler.leaveFunction, Bool.or_eq_false_iff] at hnone
      exact hnone.2
  counter := hcounter.trans hext.counter
  unitPrefix := rfl
  ownership := rfl
  moved := fun _ => rfl
  panicked := by simp +contextual [Compiler.leaveFunction]
  longJump := by simp +contextual [Compiler.leaveFunction]

/-! ## Calls -/

/-- The registers that compiled arguments occupy. -/
def argsRegs : List IRNode → Nat
  | [] => 0
  | arg :: args => 1 + leak arg + argsRegs args

/-- The specification of compiled arguments. -/
structure ArgsSpec (args : List IRNode) (s : Compiler) (all : EmittedArgs) : Prop where
  spec : Spec (argsRegs args) (lostList args) [] s all.code all.state
  ascending : Ascending s.nextReg all.regs all.state.nextReg
  length : all.regs.length = args.length
  head : ∀ {r rs}, all.regs = r :: rs → r = s.nextReg
  adjacent : scattered args = false → all.regs = List.range' s.nextReg args.length

/-- A call needs its window. -/
theorem validInstruction_call {s : Compiler} {dst a count : Nat} (hdst : dst < s.maxReg)
    (ha : a < s.constants.length) (hcount : count = 0 ∨ dst + 1 + count ≤ s.maxReg) :
    validInstruction s.maxReg s.constants.length ⟨.call, dst, a, count⟩ = true := by
  simp [validInstruction, hdst, ha]
  tauto

theorem validInstruction_callReg {s : Compiler} {dst a count : Nat} (hdst : dst < s.maxReg)
    (ha : a < s.maxReg) (hcount : count = 0 ∨ dst + 1 + count ≤ s.maxReg) :
    validInstruction s.maxReg s.constants.length ⟨.callReg, dst, a, count⟩ = true := by
  simp [validInstruction, hdst, ha]
  tauto

/-- The window is reserved before the call. -/
theorem reserveSlots_reserved (s : Compiler) (dst count : Nat) :
    count = 0 ∨ dst + 1 + count ≤ (s.reserveSlots dst count).maxReg := by
  unfold Compiler.reserveSlots
  split
  · exact Or.inl ‹_›
  · exact Or.inr (le_max_right _ _)

/-- An operator has opcodes with three registers. -/
theorem directOp_valid {name : String} {op : Op} (h : directOp name = some op) {s : Compiler}
    {dst a b : Nat} (hdst : dst < s.maxReg) (ha : a < s.maxReg) (hb : b < s.maxReg) :
    validInstruction s.maxReg s.constants.length ⟨op, dst, a, b⟩ = true := by
  unfold directOp at h
  split at h <;> first | (obtain rfl := Option.some.inj h; simp [validInstruction, hdst, ha, hb]) |
    exact absurd h (by simp)

theorem directOp_covered {name : String} {op : Op} (h : directOp name = some op) :
    op.covered = true := by
  unfold directOp at h
  split at h <;> first | (obtain rfl := Option.some.inj h; rfl) | exact absurd h (by simp)

/-- A callee that the window would overwrite is copied behind it. -/
theorem saveCallee_spec {s : Compiler} (hs : Tidy s) {callee : Option Nat} (dst count : Nat)
    (hcallee : ∀ r, callee = some r → r < s.nextReg) :
    Spec (if endangered callee dst count then 1 else 0) [] [] s
      (saveCallee callee dst count s).code (saveCallee callee dst count s).state := by
  cases callee with
  | none => exact .refl hs
  | some orig =>
    simp only [saveCallee]
    split
    · refine (Spec.alloc s).emit (.cons ?_ (.nil _))
      have hlt := hcallee orig rfl
      have hmax := (Spec.alloc s).nextReg_le
      have hnext := (Spec.alloc s).nextReg
      simp only [validInstruction, Bool.and_eq_true, decide_eq_true_eq]
      omega
    · exact .refl hs

/-- The call itself takes no register. -/
theorem emitCall_spec {s : Compiler} (hs : Tidy s) (name : String) (callee : Option Nat)
    (safe dst count : Nat) (hdst : dst < s.nextReg)
    (hcallee : ∀ r, callee = some r → r < s.nextReg)
    (hsafe : endangered callee dst count = true → safe < s.nextReg)
    (hcount : count = 0 ∨ dst + 1 + count ≤ s.maxReg) :
    Spec 0 [] [] s (emitCall name callee safe dst count s).code
      (emitCall name callee safe dst count s).state := by
  have hmax := hs.nextReg_le
  cases callee with
  | none =>
    refine (Spec.addConstant hs (.str name)).emit (.cons ?_ (.nil _))
    exact validInstruction_call (by simp; omega) (s.constantIndex_lt _) (by simpa using hcount)
  | some orig =>
    refine (Spec.refl hs).emit (.cons (validInstruction_callReg (by omega) ?_ hcount) (.nil _))
    split
    · have hlt := hsafe ‹_›
      omega
    · have hlt := hcallee orig rfl
      omega

/-- What a call emits behind its arguments. -/
structure CallSpec (s : Compiler) (all : EmittedArgs) (e : Emitted) : Prop where
  parts : ∃ code regs s', e = ⟨all.code ++ code, s'.freeRegTo s.nextReg⟩ ∧
    Spec regs [] [] all.state code s'

/-- A call keeps the specification of its arguments. -/
theorem CallSpec.spec {args : List IRNode} {s : Compiler} {all : EmittedArgs} {e : Emitted}
    (h : CallSpec s all e) (hs : Tidy s) (hall : ArgsSpec args s all) :
    Spec 0 (lostList args) [] s e.code e.state := by
  obtain ⟨code, regs, s', rfl, hspec⟩ := h.parts
  exact ((hall.spec.append hspec).free hs).congr rfl (by simp) (by simp) rfl

theorem CallSpec.extends_args {s : Compiler} {all : EmittedArgs} {e : Emitted}
    (h : CallSpec s all e) : Extends all.state e.state := by
  obtain ⟨code, regs, s', rfl, hspec⟩ := h.parts
  exact hspec.ext.trans (s'.freeRegTo_extends _)

theorem CallSpec.args_initial {s : Compiler} {all : EmittedArgs} {e : Emitted}
    (h : CallSpec s all e) : all.code <+: e.code := by
  obtain ⟨code, regs, s', rfl, -⟩ := h.parts
  exact List.prefix_append _ _

/-! ### Ownership -/

theorem mem_of_regsWithFlag {flag : Bool} {flags : List Bool} {sources : List (Option Nat)}
    {r : Nat} (h : r ∈ regsWithFlag flag flags sources) : some r ∈ sources := by
  fun_induction regsWithFlag flag flags sources with
  | case1 flags reg sources ih =>
    rcases List.mem_cons.mp h with rfl | h
    · exact List.mem_cons_self
    · exact List.mem_cons_of_mem _ (ih h)
  | case2 isOwn flags reg sources hflag ih => exact List.mem_cons_of_mem _ (ih h)
  | case3 isOwn flags sources ih => exact List.mem_cons_of_mem _ (ih h)
  | case4 => exact nomatch h

/-- An argument that is a variable is in a register. -/
theorem argSourceReg_lt {s : Compiler} (hs : Tidy s) {args : List IRNode} {r : Nat}
    (h : some r ∈ args.map (argSourceReg s)) : r < s.nextReg := by
  obtain ⟨arg, -, harg⟩ := List.mem_map.mp h
  unfold argSourceReg at harg
  split at harg
  · exact hs.locals_lt harg
  · exact nomatch harg

/-- The checks of one call against another. -/
theorem conflictChecks_spec {s : Compiler} (hs : Tidy s) (args : List IRNode) {regs : List Nat}
    (hregs : ∀ r ∈ regs, r < s.nextReg) :
    Spec 0 [] [] s (conflictChecks args regs s).code (conflictChecks args regs s).state := by
  induction regs generalizing s with
  | nil => exact .refl hs
  | cons reg regs ih =>
    have hmessage := Spec.addConstant hs
      (.str s!"cannot move `{varNameOf s reg args}` while it is borrowed in the same call")
    have hrest := ih (hmessage.tidy hs) fun r hr => by
      rw [hmessage.nextReg]
      exact hregs r (List.mem_cons_of_mem _ hr)
    have hlt : reg < _ := lt_of_lt_of_le (hregs reg List.mem_cons_self)
      (hs.nextReg_le.trans (hmessage.append hrest).ext.maxReg)
    have hidx := (s.constantIndex_lt _).trans_le hrest.ext.constants.length_le
    exact ((hmessage.append hrest).push_grounded ⟨.checkNotMoved, 0, reg, _⟩ (decide_eq_true hlt)
      (.of_checkNotMoved hidx)).push ⟨.markMoved, 0, reg, 0⟩ (decide_eq_true hlt)

/-- The checks of the owned arguments. -/
theorem ownChecks_spec {s : Compiler} (hs : Tidy s) (flags : List Bool)
    {sources : List (Option Nat)} (args : List IRNode)
    (hregs : ∀ r, some r ∈ sources → r < s.nextReg) :
    Spec 0 [] [] s (ownChecks flags sources args s).code
      (ownChecks flags sources args s).state := by
  fun_induction ownChecks flags sources args s with
  | case1 flags reg sources arg args s name idx rest ih =>
    have hname := Spec.addConstant hs name
    have hrest := ih (hname.tidy hs) fun r hr => by
      rw [hname.nextReg]
      exact hregs r (List.mem_cons_of_mem _ hr)
    have hlt : reg < _ := lt_of_lt_of_le (hregs reg List.mem_cons_self)
      (hs.nextReg_le.trans (hname.append hrest).ext.maxReg)
    exact (hname.append hrest).push_grounded ⟨.checkNotMoved, 0, reg, idx⟩ (decide_eq_true hlt)
      (.of_checkNotMoved ((s.constantIndex_lt name).trans_le hrest.ext.constants.length_le))
  | case2 flag flags source sources arg args s h ih =>
    exact ih hs fun r hr => hregs r (List.mem_cons_of_mem _ hr)
  | case3 => exact .refl hs

/-- All checks of a call: they take no register. -/
theorem ownershipChecks_spec {s : Compiler} (hs : Tidy s) (flags : List Bool)
    {sources : List (Option Nat)} (args : List IRNode)
    (hregs : ∀ r, some r ∈ sources → r < s.nextReg) :
    Spec 0 [] [] s (ownershipChecks flags sources args s).code
      (ownershipChecks flags sources args s).state := by
  unfold ownershipChecks
  dsimp only
  split
  · exact ownChecks_spec hs flags args hregs
  · next hconflicts =>
      refine conflictChecks_spec hs args fun r hr => hregs r ?_
      exact mem_of_regsWithFlag (List.mem_dedup.mp (List.mem_filter.mp hr).1)

/-- The marks behind it, of what it moves. -/
theorem ownershipMarks_spec {s : Compiler} (hs : Tidy s) {name : String} {flags : List Bool}
    (hflags : s.ownershipMap name = some flags) {sources : List (Option Nat)}
    (hregs : ∀ r, some r ∈ sources → r < s.nextReg) :
    Spec 0 [] [] s (ownershipMarks flags sources s).code
      (ownershipMarks flags sources s).state where
  ext :=
    { Extends.refl s with
      lambdas := ⟨[], .nil rfl⟩
      moved := fun hnone => absurd (hnone name) (by simp [hflags]) }
  nextReg := rfl
  nextReg_le := hs.nextReg_le
  locals := by simp [ownershipMarks]
  fresh_lt := by simp
  valid := by
    intro instr hinstr
    obtain ⟨r, hr, rfl⟩ := List.mem_map.mp hinstr
    exact ⟨decide_eq_true (lt_of_lt_of_le (hregs r (mem_of_regsWithFlag hr)) hs.nextReg_le),
      .of_covered rfl⟩

/-- A call by its window. -/
theorem generalCall_rest (name : String) {args : List IRNode} {dst : Nat} {s : Compiler}
    {all : EmittedArgs} (hs : Tidy s) (hdst : dst < s.nextReg) (hall : ArgsSpec args s all) :
    CallSpec s all (generalCall name args dst s all) := by
  have hsa := hall.spec.tidy hs
  have hnext := hall.spec.nextReg
  have hlocals : ∀ r, s.locals name = some r → r < all.state.nextReg := fun r hr => by
    have hlt := hs.locals_lt hr
    omega
  have hsaved := saveCallee_spec hsa dst args.length hlocals
  have hnextSaved := hsaved.nextReg
  have hss := hsaved.tidy hsa
  have hreserved := hsaved.append (.reserveSlots hss dst args.length)
  have hsr := hreserved.tidy hsa
  have hmoves : ValidCode ((saveCallee (s.locals name) dst args.length all.state).state.reserveSlots
      dst args.length) (moveToSlots (dst + 1) all.regs) :=
    moveToSlots_valid (hall.ascending.lower hdst) (hsa.nextReg_le.trans hreserved.ext.maxReg)
  have hnextReserved := hreserved.nextReg
  have hown : ((saveCallee (s.locals name) dst args.length all.state).state.reserveSlots dst
      args.length).ownershipMap = s.ownershipMap :=
    hreserved.ext.ownership.trans hall.spec.ext.ownership
  have hslots := reserveSlots_reserved (saveCallee (s.locals name) dst args.length all.state).state
    dst args.length
  have hsources : ∀ r, some r ∈ args.map (argSourceReg s) → r < ((saveCallee (s.locals name) dst
      args.length all.state).state.reserveSlots dst args.length).nextReg := fun r hr => by
    have hlt := argSourceReg_lt hs hr
    omega
  have hmoved := hreserved.emit hmoves
  -- the call itself, behind whatever checks the ownership of the arguments asks for
  have hcall (checks : Emitted) (hchecks : Spec 0 [] [] ((saveCallee (s.locals name) dst args.length
      all.state).state.reserveSlots dst args.length) checks.code checks.state) :=
    emitCall_spec (hchecks.tidy hsr) name (s.locals name) all.state.nextReg dst args.length
      (by rw [hchecks.nextReg]; omega)
      (fun r hr => by
        have hlt := hlocals r hr
        rw [hchecks.nextReg]
        omega)
      (fun h => by
        rw [if_pos h] at hnextReserved
        rw [hchecks.nextReg]
        omega)
      (hslots.imp_right fun hle => hle.trans hchecks.ext.maxReg)
  cases hflags : s.ownershipMap name with
  | none =>
    refine ⟨_, _, _, ?_,
      (hmoved.append (hcall ⟨[], _⟩ (.refl hsr))).congr rfl (by simp) (by simp) rfl⟩
    simp only [generalCall, hflags, List.append_nil, Nat.max_eq_left hdst, List.append_assoc]
    rfl
  | some flags =>
    have hchecks := ownershipChecks_spec hsr flags args hsources
    have hemit := hchecks.append (hcall _ hchecks)
    have hmarks := hemit.append (ownershipMarks_spec (hemit.tidy hsr)
      (show _ = some flags by rw [hemit.ext.ownership, hown, hflags])
      fun r (hr : some r ∈ args.map (argSourceReg s)) => by
        rw [hemit.nextReg]
        exact hsources r hr)
    refine ⟨_, _, _, ?_, (hmoved.append hmarks).congr rfl (by simp) (by simp) rfl⟩
    simp only [generalCall, hflags, Nat.max_eq_left hdst, List.append_assoc]
    rfl

/-- A call of any kind emits its arguments first. -/
theorem finishCall_rest (name : String) {args : List IRNode} {dst : Nat} {s : Compiler}
    {all : EmittedArgs} (hs : Tidy s) (hdst : dst < s.nextReg) (hall : ArgsSpec args s all) :
    CallSpec s all (finishCall name args dst s all) := by
  have hsa := hall.spec.tidy hs
  have hmax := hsa.nextReg_le
  have hasc := hall.ascending
  unfold finishCall
  split
  · next op aReg bReg hop hregs =>
      obtain rfl := hall.head hregs
      rw [hregs] at hasc
      obtain ⟨h1, h2, h3⟩ := hasc
      have hlt : bReg + 1 ≤ all.state.nextReg := h3
      rw [Nat.max_eq_left hdst]
      exact ⟨_, _, _, rfl, .single hsa (directOp_valid hop (by omega) (by omega) (by omega))
        (directOp_covered hop)⟩
  · next aReg hop hregs =>
      obtain rfl := hall.head hregs
      rw [hregs] at hasc
      obtain ⟨h1, h2⟩ := hasc
      have hlt : s.nextReg + 1 ≤ all.state.nextReg := h2
      rw [Nat.max_eq_left hdst]
      refine ⟨_, _, _, rfl, .single hsa ?_⟩
      simp only [validInstruction, Bool.and_eq_true, decide_eq_true_eq]
      omega
  · exact generalCall_rest name hs hdst hall

/-- A call loses what its arguments lose. -/
theorem finishCall_spec (name : String) {args : List IRNode} {dst : Nat} {s : Compiler}
    {all : EmittedArgs} (hs : Tidy s) (hdst : dst < s.nextReg) (hall : ArgsSpec args s all) :
    Spec 0 (lostList args) [] s (finishCall name args dst s all).code
      (finishCall name args dst s all).state :=
  (finishCall_rest name hs hdst hall).spec hs hall

/-- A tail call as well. -/
theorem finishTailCall_spec (fnName : String) {args : List IRNode} {s : Compiler}
    {all : EmittedArgs} (hs : Tidy s) (hall : ArgsSpec args s all) :
    Spec 0 (lostList args) [] s (finishTailCall fnName args s all).code
      (finishTailCall fnName args s all).state := by
  have hmax := (hall.spec.tidy hs).nextReg_le
  have hmoved :=
    (hall.spec.emit (moveToSlots_valid (hall.ascending.lower (Nat.zero_le _)) hmax)).free hs
  have hconst := Spec.addConstant (hmoved.tidy hs) (.str fnName)
  have hcall : ValidCode ((all.state.freeRegTo s.nextReg).addConstant (.str fnName))
      [⟨.tailCall, 0, (all.state.freeRegTo s.nextReg).constantIndex (.str fnName), args.length⟩] :=
    .cons_grounded (by simp [validInstruction]) (.of_tailCall (Compiler.constantIndex_lt _ _) (by
      have hlen := hall.ascending.add_length_le
      rw [hall.length] at hlen
      rw [Compiler.addConstant_maxReg]
      exact (Nat.le_add_left _ _).trans (hlen.trans hmax))) (.nil _)
  exact ((hmoved.append hconst).emit hcall).congr rfl (by simp) (by simp) (by simp [finishTailCall])

/-! ## Lambdas -/

/-- A captured name is in a register. -/
theorem capturedNames_lt {s : Compiler} (hs : Tidy s) (params : List String) (body : IRNode) :
    ∀ c ∈ capturedNames s params body, c.2 < s.nextReg := by
  intro c hc
  obtain ⟨name, -, hname⟩ := List.mem_filterMap.mp hc
  obtain ⟨r, hr, rfl⟩ := Option.map_eq_some_iff.mp hname
  exact hs.locals_lt hr

theorem allocRegs_spec {s : Compiler} (hs : Tidy s) (count : Nat) :
    Spec count [] [] s [] (s.allocRegs count) := by
  induction count generalizing s with
  | zero => exact .refl hs
  | succ count ih =>
    have hfirst := Spec.alloc s
    exact (hfirst.append (ih (hfirst.tidy hs))).congr (by omega) (by simp) (by simp) (by simp)

/-- Captures are moved into one window. -/
theorem moveCaptures_valid {s : Compiler} {captures : List (String × Nat)} {r : Nat}
    (hcaptures : ∀ c ∈ captures, c.2 < s.maxReg) (hr : r + captures.length ≤ s.maxReg) :
    ValidCode s (moveCaptures captures r) := by
  induction captures generalizing r with
  | nil => exact .nil s
  | cons c captures ih =>
    have hc := hcaptures c List.mem_cons_self
    simp only [List.length_cons] at hr
    refine .cons ?_ (ih (fun c hc => hcaptures c (List.mem_cons_of_mem _ hc)) (by omega))
    simp only [validInstruction, Bool.and_eq_true, decide_eq_true_eq]
    omega

/-- A lambda is compiled in a state of its own and joins the others. -/
theorem addLambda_spec {s : Compiler} (hs : Tidy s) (src : Source) (func : BytecodeFunc)
    {allParams : List String} (hinner : src.inner = s.nextLambda.enterFunction allParams)
    (hext : Extends src.inner src.emitted.state)
    (hname : func.name = lambdaName s.lambdaPrefix s.lambdaCounter)
    (hyields : src.Yields src.emitted.state.compiledLambdas func) :
    Spec 0 [] [] s [] ((s.nextLambda.leaveFunction src.emitted.state).addLambda func) := by
  obtain ⟨new, hnew⟩ := hext.lambdas
  have hcounter := hext.counter
  have hpool := hext.pool
  have heq := hnew.eq
  have hnumbered := hnew.numbered
  rw [hinner, enterFunction_compiledLambdas, List.nil_append] at heq
  rw [hinner, enterFunction_lambdaCounter] at hcounter
  rw [hinner, enterFunction_lambdaPrefix, enterFunction_lambdaCounter] at hnumbered
  rw [hinner, show (s.nextLambda.enterFunction allParams).constants = [] from
    (bindParams_fields _ _ _).2.2.2.1] at hpool
  have hlambdas : ((s.nextLambda.leaveFunction src.emitted.state).addLambda func).compiledLambdas =
      s.compiledLambdas ++ (new ++ [func]) := by
    simp [Compiler.addLambda, Compiler.leaveFunction, heq, Compiler.nextLambda]
  refine ⟨⟨List.prefix_refl _, fun _ h => h, le_rfl, ⟨new ++ [func], hlambdas, ?_, ?_, ?_⟩,
    (Nat.le_succ _).trans hcounter, rfl, rfl, fun _ => rfl, ?_, ?_⟩, rfl, hs.nextReg_le,
    by simp [Compiler.addLambda, Compiler.leaveFunction, Compiler.nextLambda], by simp, .nil _⟩
  · have hfunc := Numbered.single hname
    refine (hnumbered.widen (Nat.le_succ _) le_rfl).append_disjoint
      (hfunc.widen le_rfl hcounter) fun f hf g hg hfg => ?_
    obtain ⟨k, hk, -, hfname⟩ := hnumbered.number f hf
    obtain ⟨l, -, hl, hgname⟩ := hfunc.number g hg
    have hkl := lambdaName_injective s.lambdaPrefix (hfname.symm.trans (hfg.trans hgname))
    have hk : s.lambdaCounter + 1 ≤ k := hk
    omega
  · have hsub : ∀ g ∈ src.emitted.state.compiledLambdas,
        g ∈ ((s.nextLambda.leaveFunction src.emitted.state).addLambda func).compiledLambdas := by
      intro g hg
      rw [hlambdas, ← heq]
      exact List.mem_append_right _ (List.mem_append_left _ hg)
    intro f hf
    rcases List.mem_append.mp hf with hf | hf
    · obtain ⟨src', hsrc⟩ := hnew.sources f hf
      exact ⟨src', hsrc.mono hsub⟩
    · obtain rfl := List.mem_singleton.mp hf
      exact ⟨src, hyields.mono hsub⟩
  · intro hpanicked f hf
    have hnone : src.emitted.state.panicked = false := by
      simp only [Compiler.addLambda, Compiler.leaveFunction, Bool.or_eq_false_iff] at hpanicked
      exact hpanicked.2
    rcases List.mem_append.mp hf with hf | hf
    · exact hnew.pools hnone f hf
    · obtain rfl := List.mem_singleton.mp hf
      rw [hyields.constants]
      exact hpool hnone (by simp)
  · simp +contextual [Compiler.addLambda, Compiler.leaveFunction, Compiler.nextLambda]
  · simp +contextual [Compiler.addLambda, Compiler.leaveFunction, Compiler.nextLambda]

theorem makeClosure_extends {s : Compiler} (hs : Tidy s) (name : String)
    (captures : List (String × Nat)) (dst : Nat) :
    Extends s (makeClosure name captures dst s).state :=
  (allocRegs_spec hs captures.length).ext.trans
    ((Compiler.addConstant_extends _ _).trans (Compiler.freeRegTo_extends _ _))

/-- A closure takes the window of its captures. -/
theorem makeClosure_spec {s : Compiler} (hs : Tidy s) {func : BytecodeFunc}
    (hfunc : func ∈ s.compiledLambdas) {captures : List (String × Nat)}
    (hcount : func.captureCount = captures.length) {dst : Nat} (hdst : dst < s.nextReg)
    (hcaptures : ∀ c ∈ captures, c.2 < s.nextReg) :
    Spec 0 [] [] s (makeClosure func.name captures dst s).code
      (makeClosure func.name captures dst s).state := by
  simp only [makeClosure, Nat.max_eq_left hdst]
  have halloc := allocRegs_spec hs captures.length
  generalize s.allocRegs captures.length = s' at halloc ⊢
  have hall := halloc.append (.addConstant (halloc.tidy hs) (.str func.name))
  have hidx := s'.getElem?_addConstant_str func.name
  have hnext := hall.nextReg
  have hmax := hall.nextReg_le
  have hcode : ValidCode (s'.addConstant (.str func.name)) (moveCaptures captures s.nextReg ++
      [⟨.makeClosure, dst, s'.constantIndex (.str func.name), s.nextReg⟩]) := by
    refine .append (moveCaptures_valid (fun c hc => ?_) (by omega)) (.cons_grounded ?_
      (.of_makeClosure (hall.ext.mem_lambdas hfunc) hidx (by omega)) (.nil _))
    · have hlt := hcaptures c hc
      omega
    · simp only [validInstruction, Bool.and_eq_true, decide_eq_true_eq]
      exact ⟨⟨by omega, s'.constantIndex_lt _⟩, by omega⟩
  exact ((hall.emit hcode).free hs).congr rfl (by simp) (by simp) (by simp)

/-! ## Nodes -/

/-- The registers in use after the expressions of a `Do`. -/
def doRegs : List IRNode → Nat
  | [] => 0
  | [expr] => leak expr
  | expr :: exprs => 1 + leak expr + doRegs exprs

def bindingsRegs : List IRBinding → Nat
  | [] => 0
  | ⟨_, expr⟩ :: bindings => 1 + leak expr + bindingsRegs bindings

/-- The registers in use after the arms of a `Match`. -/
def armsRegs : List IRArm → Nat
  | [] => 0
  | ⟨.variant _ _, _⟩ :: arms => armsRegs arms
  | ⟨_, body⟩ :: arms => leak body + armsRegs arms

theorem mem_lostBindings_of_name {bindings : List IRBinding} {x : String}
    (h : x ∈ bindings.map IRBinding.name) : x ∈ lostBindings bindings := by
  induction bindings with
  | nil => simp at h
  | cons b bindings ih =>
    obtain ⟨name, expr⟩ := b
    simp only [List.map_cons, List.mem_cons, IRBinding.name] at h
    rcases h with rfl | h
    · simp [lostBindings]
    · simp [lostBindings, ih h]

/-- Loading a literal. -/
theorem Spec.loadConstant {s : Compiler} (hs : Tidy s) {dst : Nat} (hdst : dst < s.nextReg)
    (v : VmValue) : Spec 0 [] [] s (s.loadConstant v dst).code (s.loadConstant v dst).state := by
  refine (Spec.addConstant hs v).emit (.cons ?_ (.nil _))
  have hmax := hs.nextReg_le
  have hidx := s.constantIndex_lt v
  simp only [validInstruction, Bool.and_eq_true, decide_eq_true_eq, Compiler.addConstant_maxReg]
  exact ⟨by omega, hidx⟩

theorem validInstruction_load {s : Compiler} (hs : Tidy s) {op : Op} {dst : Nat}
    (hop : op = .loadNil ∨ op = .loadTrue ∨ op = .loadFalse) (hdst : dst < s.nextReg) :
    validInstruction s.maxReg s.constants.length ⟨op, dst, 0, 0⟩ = true := by
  have hlt := lt_of_lt_of_le hdst hs.nextReg_le
  rcases hop with rfl | rfl | rfl <;> simp [validInstruction, hlt]

/-- A node that is compiled into a register of its own. -/
theorem Spec.temp {node : IRNode} {s : Compiler} {e : Emitted}
    (h : Spec (leak node) (lost node) [] s.allocReg e.code e.state) :
    Spec (1 + leak node) (lost node) [] s e.code e.state :=
  ((Spec.alloc s).append h).congr rfl (by simp) (by simp) (by simp)

/-- A destination in use is not raised. -/
theorem raiseAbove_eq {s : Compiler} {dst : Nat} (pos : Position) (hdst : dst < s.nextReg) :
    s.raiseAbove pos dst = s := by
  cases pos with
  | value => exact if_neg (by omega)
  | tail fnName => rfl

mutual

/-- What compiling a node does to the state; the induction is on the node. -/
theorem compileNode_spec : ∀ (node : IRNode) (pos : Position) {dst : Nat} {s : Compiler}, Tidy s →
    dst < s.nextReg →
    Spec (leak node) (lost node) [] s (compileNode node pos dst s).code
      (compileNode node pos dst s).state
  | .int v, pos, dst, s, hs, hdst => by
    simpa only [compileNode, leak, lost] using Spec.loadConstant hs hdst _
  | .float bits, pos, dst, s, hs, hdst => by
    simpa only [compileNode, leak, lost] using Spec.loadConstant hs hdst _
  | .str v, pos, dst, s, hs, hdst => by
    simpa only [compileNode, leak, lost] using Spec.loadConstant hs hdst _
  | .bool true, pos, dst, s, hs, hdst => by
    simpa only [compileNode, leak, lost] using
      Spec.single hs (validInstruction_load hs (by simp) hdst)
  | .bool false, pos, dst, s, hs, hdst => by
    simpa only [compileNode, leak, lost] using
      Spec.single hs (validInstruction_load hs (by simp) hdst)
  | .nil, pos, dst, s, hs, hdst => by
    simpa only [compileNode, leak, lost] using
      Spec.single hs (validInstruction_load hs (by simp) hdst)
  | .func _ _ _, pos, dst, s, hs, hdst => by
    simpa only [compileNode, leak, lost] using
      Spec.single hs (validInstruction_load hs (by simp) hdst)
  | .load name, pos, dst, s, hs, hdst => by
    simp only [compileNode, leak, lost]
    cases hslot : s.locals name with
    | none => exact Spec.loadConstant hs hdst _
    | some slot =>
      have hlt := hs.locals_lt hslot
      have hmax := hs.nextReg_le
      have hmove : ValidCode s (if slot ≠ dst then [⟨.move, dst, slot, 0⟩] else []) := by
        split
        · refine .cons ?_ (.nil _)
          simp only [validInstruction, Bool.and_eq_true, decide_eq_true_eq]
          omega
        · exact .nil _
      dsimp only
      split
      · have hname := Spec.addConstant hs (.str name)
        refine hname.emit (.cons_grounded ?_ (.of_checkNotMoved (s.constantIndex_lt _))
          (hmove.mono hname.ext))
        simp only [validInstruction, decide_eq_true_eq, Compiler.addConstant_maxReg]
        omega
      · exact (Spec.refl hs).emit hmove
  | .do [], pos, dst, s, hs, hdst => by
    simpa only [compileNode, leak, lost, lostList] using
      Spec.single hs (validInstruction_load hs (by simp) hdst)
  | .do (expr :: exprs), pos, dst, s, hs, hdst => by
    simp only [compileNode, leak, lost, Nat.max_eq_left hdst]
    exact (compileDo_spec (expr :: exprs) pos hs hdst).free hs
  | .list items, pos, dst, s, hs, hdst => by
    simp only [compileNode, leak, lost, Nat.max_eq_left hdst]
    have hall := compileArgs_spec items hs
    refine (hall.spec.emit (.cons ?_ (.nil _))).free hs
    have hmax := (hall.spec.tidy hs).nextReg_le
    have hlen := hall.ascending.add_length_le
    rw [hall.length] at hlen
    simp only [validInstruction, Bool.and_eq_true, Bool.or_eq_true, decide_eq_true_eq]
    exact ⟨by omega, Or.inr (by omega)⟩
  | .ite cond then_ else_, pos, dst, s, hs, hdst => by
    simp only [compileNode, leak, lost, Nat.max_eq_left hdst]
    have hc := (compileNode_spec cond .value ((Spec.alloc s).tidy hs)
      (Nat.lt_succ_self s.nextReg)).temp
    generalize compileNode cond .value s.nextReg s.allocReg = c at hc ⊢
    have hcond : s.nextReg < c.state.maxReg := by
      have hnext := hc.nextReg
      have hmax := hc.nextReg_le
      omega
    have hfreed := hc.free hs
    have hsf := hfreed.tidy hs
    have ht := compileNode_spec then_ pos hsf hdst
    generalize compileNode then_ pos dst (c.state.freeRegTo s.nextReg) = t at ht ⊢
    have hst := ht.tidy hsf
    have he := compileNode_spec else_ pos hst (show dst < _ by
      have hnext : t.state.nextReg = s.nextReg + leak then_ := ht.nextReg
      omega)
    generalize compileNode else_ pos dst t.state = e at he ⊢
    have hse := he.tidy hst
    have hnote := Spec.noteJump hse (t.code.length + 1)
    have ht' := ht.push ⟨.jumpIfFalse, 0, s.nextReg, toU16 (t.code.length + 1)⟩ (by
      simp only [validInstruction, decide_eq_true_eq]
      exact lt_of_lt_of_le hcond ht.ext.maxReg)
    have he' := he.push ⟨.jump, 0, toU16 e.code.length, 0⟩ (by simp [validInstruction])
    exact ((((hfreed.append ht').append he').append hnote).append
      (.noteJump (hnote.tidy hse) e.code.length)).congr (by omega) (by simp) (by simp) (by simp)
  | .let bindings body, pos, dst, s, hs, hdst => by
    simp only [compileNode, leak, lost, raiseAbove_eq pos hdst, Nat.max_eq_left hdst]
    have hb := compileBindings_spec bindings hs
    have hsb := hb.tidy hs
    have hbody := compileNode_spec body pos hsb (show dst < _ by
      have hnext := hb.nextReg
      omega)
    have hall := ((hb.append hbody).remove (bindings.map IRBinding.name) (by simp)).free hs
    refine hall.congr rfl (fun x _ => ?_) (by simp) rfl
    have hname := @mem_lostBindings_of_name bindings x
    simp only [List.mem_append]
    tauto
  | .call name args, .value, dst, s, hs, hdst => by
    simp only [compileNode, leak, lost]
    exact finishCall_spec name hs hdst (compileArgs_spec args hs)
  | .call name args, .tail fnName, dst, s, hs, hdst => by
    simp only [compileNode, leak, lost]
    split
    · exact finishTailCall_spec fnName hs (compileArgs_spec args hs)
    · exact finishCall_spec name hs hdst (compileArgs_spec args hs)
  | .callExpr callee args, pos, dst, s, hs, hdst => by
    simp only [compileNode, leak, lost]
    have hc := (compileNode_spec callee .value ((Spec.alloc s).tidy hs)
      (Nat.lt_succ_self s.nextReg)).temp
    generalize compileNode callee .value s.nextReg s.allocReg = c at hc ⊢
    have hsc := hc.tidy hs
    have hall := compileArgs_spec args hsc
    generalize compileArgs args c.state = all at hall ⊢
    have hsa := hall.spec.tidy hsc
    have hnext := hc.nextReg
    have hnextArgs := hall.spec.nextReg
    rw [Nat.max_eq_left (by omega)]
    have hres := Spec.reserveSlots hsa dst args.length
    have hmax := hsa.nextReg_le.trans hres.ext.maxReg
    have hcode : ValidCode (all.state.reserveSlots dst args.length)
        (moveToSlots (dst + 1) all.regs ++ [⟨.callReg, dst, s.nextReg, args.length⟩]) :=
      .append (moveToSlots_valid (hall.ascending.lower (by omega)) hmax)
        (.cons (validInstruction_callReg (by omega) (by omega)
          (reserveSlots_reserved _ dst args.length)) (.nil _))
    exact (hc.append (((hall.spec.append hres).emit hcode).free hsc)).congr (by omega) (by simp)
      (by simp) (by simp)
  | .variant tag [], pos, dst, s, hs, hdst => by
    simp only [compileNode, leak, lost, lostList]
    refine (Spec.addConstant hs (.str tag)).emit (.cons ?_ (.nil _))
    have hidx := s.constantIndex_lt (.str tag)
    have hmax := hs.nextReg_le
    simp only [validInstruction, Bool.and_eq_true, decide_eq_true_eq, Compiler.addConstant_maxReg]
    exact ⟨by omega, hidx⟩
  | .variant tag [arg], pos, dst, s, hs, hdst => by
    simp only [compileNode, leak, lost, lostList, List.append_nil, Compiler.addConstant_nextReg,
      Nat.max_eq_left hdst]
    have htag := Spec.addConstant hs (.str tag)
    have hst := htag.tidy hs
    have ha := (compileNode_spec arg .value ((Spec.alloc _).tidy hst) (show s.nextReg < _ by
      simp [Compiler.allocReg])).temp
    have hall := htag.append ha
    have hidx := s.constantIndex_lt (.str tag)
    have hgrow := ha.ext.constants.length_le
    have hnext := hall.nextReg
    have hmax := hall.nextReg_le
    refine ((hall.emit (.cons ?_ (.nil _) ?_)).free hs).congr rfl (by simp) (by simp)
      (by simp; rfl)
    · simp only [validInstruction, Bool.and_eq_true, decide_eq_true_eq]
      exact ⟨⟨by omega, lt_of_lt_of_le hidx hgrow⟩, by omega⟩
    · rfl
  | .variant tag (arg :: arg' :: args), pos, dst, s, hs, hdst => by
    simp only [compileNode, leak, lost, Compiler.addConstant_nextReg, Nat.max_eq_left hdst]
    have htag := Spec.addConstant hs (.str tag)
    have hst := htag.tidy hs
    have hargs := compileArgs_spec (arg :: arg' :: args) hst
    have hall := (htag.append hargs.spec).append (.alloc _)
    have hidx := s.constantIndex_lt (.str tag)
    have hgrow := hargs.spec.ext.constants.length_le
    have hnext := hall.nextReg
    have hmax := hall.nextReg_le
    have hlen := hargs.ascending.add_length_le
    have hregs := hargs.spec.nextReg
    have hmaxArgs := (Spec.alloc (compileArgs (arg :: arg' :: args)
      (s.addConstant (.str tag))).state).ext.maxReg
    rw [hargs.length] at hlen
    simp only [Compiler.addConstant_nextReg, List.length_cons] at hlen hregs
    refine ((hall.emit (.cons ?_ (.cons ?_ (.nil _) ?_) ?_)).free hs).congr rfl (by simp)
      (by simp) (by simp; constructor <;> rfl)
    · simp only [validInstruction, Bool.and_eq_true, Bool.or_eq_true, decide_eq_true_eq]
      exact ⟨by omega, Or.inr (by omega)⟩
    · simp only [validInstruction, Bool.and_eq_true, decide_eq_true_eq]
      exact ⟨⟨by omega, lt_of_lt_of_le hidx hgrow⟩, by omega⟩
    · rfl
    · rfl
  | .lambda params body, pos, dst, s, hs, hdst => by
    simp only [compileNode, leak, lost]
    have hcap := capturedNames_lt hs params body
    generalize capturedNames s params body = captures at hcap ⊢
    have hinner := enterFunction_tidy s.nextLambda (captures.map Prod.fst ++ params)
    have halloc := Spec.alloc (s.nextLambda.enterFunction (captures.map Prod.fst ++ params))
    have hb := halloc.append (compileNode_spec body
      (.tail (lambdaName s.lambdaPrefix s.lambdaCounter)) (halloc.tidy hinner)
      (Nat.lt_succ_self ((s.nextLambda.enterFunction (captures.map Prod.fst ++ params)).nextReg)))
    have hnext := hb.nextReg
    have hmax := hb.nextReg_le
    -- a lambda is an activation without contracts
    let src : Source := ⟨lambdaName s.lambdaPrefix s.lambdaCounter, 0, {}, body,
      s.nextLambda.enterFunction (captures.map Prod.fst ++ params)⟩
    have hext : Extends src.inner src.emitted.state :=
      hb.ext.trans (Compiler.insertLocal_extends _ "result" src.inner.nextReg)
    generalize hcode : compileNode body (.tail (lambdaName s.lambdaPrefix s.lambdaCounter)) _ _ = b
      at hb hnext hmax ⊢
    have hemitted : src.emitted = ⟨b.code ++ [⟨.ret, 0, src.inner.nextReg, 0⟩],
        b.state.insertLocal "result" src.inner.nextReg⟩ := by
      simp only [Source.emitted, compileActivation, compileClauses, src, List.nil_append,
        List.append_nil, hcode]
    have hfunc := addLambda_spec hs src { b.state.toFunc
      (lambdaName s.lambdaPrefix s.lambdaCounter) (captures.map Prod.fst ++ params)
      (b.code ++ [⟨.ret, 0, (s.nextLambda.enterFunction
        (captures.map Prod.fst ++ params)).nextReg, 0⟩]) with
      captureCount := captures.length } rfl hext rfl
      ⟨hinner, enterFunction_counted _ _,
        enterFunction_compiledLambdas _ _, by simp [src], by rw [hemitted]; rfl,
        by rw [hemitted]; rfl, by rw [hemitted]; rfl, fun _ hg => hg⟩
    rw [hemitted] at hfunc
    exact (hfunc.append (makeClosure_spec (hfunc.tidy hs)
      (List.mem_append_right _ (List.mem_singleton_self _)) rfl hdst hcap)).congr rfl (by simp)
      (by simp) rfl
  | .match scrutinee arms, pos, dst, s, hs, hdst => by
    simp only [compileNode, leak, lost, Nat.max_eq_left hdst]
    have hscr :=
      (compileNode_spec scrutinee .value ((Spec.alloc s).tidy hs) (Nat.lt_succ_self s.nextReg)).temp
    have hnext := hscr.nextReg
    have harms := compileArms_spec arms pos (hscr.tidy hs) (show dst < _ by omega)
      (show s.nextReg < _ by omega)
    exact (hscr.append harms).free hs
  | .try expr, pos, dst, s, hs, hdst => by
    simp only [compileNode, leak, lost, Nat.max_eq_left hdst]
    have he := (compileNode_spec expr .value ((Spec.alloc s).tidy hs)
      (Nat.lt_succ_self s.nextReg)).temp
    have hnext := he.nextReg
    have hmax := he.nextReg_le
    refine (he.emit (.cons ?_ (.nil _))).free hs
    simp only [validInstruction, Bool.and_eq_true, decide_eq_true_eq]
    omega

/-- Arguments are compiled one by one, into ascending registers. -/
theorem compileArgs_spec : ∀ (args : List IRNode) {s : Compiler}, Tidy s →
    ArgsSpec args s (compileArgs args s)
  | [], s, hs => by
    simp only [compileArgs]
    exact ⟨by simpa only [lostList, argsRegs] using Spec.refl hs, le_rfl, rfl,
      by simp, by simp⟩
  | arg :: args, s, hs => by
    simp only [compileArgs]
    have ha := (compileNode_spec arg .value ((Spec.alloc s).tidy hs)
      (Nat.lt_succ_self s.nextReg)).temp
    have hrest := compileArgs_spec args (ha.tidy hs)
    have hnext := ha.nextReg
    refine ⟨(ha.append hrest.spec).congr rfl (by simp [lostList]) (by simp) rfl,
      ⟨le_rfl, hrest.ascending.lower (by omega)⟩, by simp [hrest.length], ?_, ?_⟩
    · intro r rs hregs
      exact (List.cons.inj hregs).1.symm
    · intro hadj
      cases args with
      | nil => simp [compileArgs]
      | cons arg' args =>
        simp only [scattered, List.dropLast_cons_cons, List.any_cons, Bool.or_eq_false_iff,
          bne_eq_false_iff_eq] at hadj
        rw [hrest.adjacent hadj.2, hnext, hadj.1]
        rfl

/-- Of a sequence the last expression has the destination. -/
theorem compileDo_spec : ∀ (exprs : List IRNode) (pos : Position) {dst : Nat} {s : Compiler},
    Tidy s → dst < s.nextReg →
    Spec (doRegs exprs) (lostList exprs) [] s (compileDo exprs pos dst s).code
      (compileDo exprs pos dst s).state
  | [], pos, dst, s, hs, hdst => by
    simpa only [compileDo, doRegs, lostList] using Spec.refl hs
  | [expr], pos, dst, s, hs, hdst => by
    simpa only [compileDo, doRegs, lostList, List.append_nil] using
      compileNode_spec expr pos hs hdst
  | expr :: expr' :: exprs, pos, dst, s, hs, hdst => by
    simp only [compileDo, doRegs]
    have he := (compileNode_spec expr .value ((Spec.alloc s).tidy hs)
      (Nat.lt_succ_self s.nextReg)).temp
    have hnext := he.nextReg
    have hrest := compileDo_spec (expr' :: exprs) pos (he.tidy hs) (show dst < _ by omega)
    exact (he.append hrest).congr (by simp) (by simp [lostList]) (by simp) rfl

/-- Bindings stay in scope. -/
theorem compileBindings_spec : ∀ (bindings : List IRBinding) {s : Compiler}, Tidy s →
    Spec (bindingsRegs bindings) (lostBindings bindings) (bindings.map IRBinding.name) s
      (compileBindings bindings s).code (compileBindings bindings s).state
  | [], s, hs => by
    simpa only [compileBindings, bindingsRegs, lostBindings, List.map_nil] using Spec.refl hs
  | ⟨name, expr⟩ :: bindings, s, hs => by
    simp only [compileBindings, bindingsRegs, lostBindings]
    have he := (compileNode_spec expr .value ((Spec.alloc s).tidy hs)
      (Nat.lt_succ_self s.nextReg)).temp
    have hse := he.tidy hs
    have hnext := he.nextReg
    have hname := Spec.insertLocal hse name (r := s.nextReg) (by omega)
    have hrest := compileBindings_spec bindings (hname.tidy hse)
    refine ((he.append hname).append hrest).congr (by omega) (fun x hx => ?_) ?_ (by simp)
    · simp only [List.nil_append, List.mem_append, List.mem_singleton, not_or] at hx
      simp [hx.1]
    · simp [IRBinding.name]

/-- Arms are compiled one by one, the names of each removed behind it. -/
theorem compileArms_spec : ∀ (arms : List IRArm) (pos : Position) {dst scrReg : Nat}
    {s : Compiler}, Tidy s → dst < scrReg → scrReg < s.nextReg →
    Spec (armsRegs arms) (lostArms arms) [] s (compileArms arms pos dst scrReg s).code
      (compileArms arms pos dst scrReg s).state
  | [], pos, dst, scrReg, s, hs, hdst, hscr => by
    simpa only [compileArms, armsRegs, lostArms] using Spec.refl hs
  | ⟨.wild, body⟩ :: arms, pos, dst, scrReg, s, hs, hdst, hscr => by
    simp only [compileArms, armsRegs, lostArms, IRPattern.bindings]
    have hb := compileNode_spec body pos hs (show dst < _ by omega)
    have hsb := hb.tidy hs
    have hnext := hb.nextReg
    have hrest := compileArms_spec arms pos hsb hdst (by omega)
    have hall := hb.append hrest
    have hmax := hall.nextReg_le
    have hnextAll := hall.nextReg
    refine (hall.push ⟨.matchWild, dst, scrReg, 0⟩ ?_).congr rfl (by simp) (by simp) (by simp)
    simp only [validInstruction, Bool.and_eq_true, decide_eq_true_eq]
    omega
  | ⟨.bind name, body⟩ :: arms, pos, dst, scrReg, s, hs, hdst, hscr => by
    simp only [compileArms, armsRegs, lostArms, IRPattern.bindings]
    have hname := Spec.insertLocal hs name hscr
    have hsn := hname.tidy hs
    have hb := (hname.append (compileNode_spec body pos hsn (show dst < _ by
      have hnext := hname.nextReg
      omega))).remove [name] (by simp)
    have hsb := hb.tidy hs
    have hnext := hb.nextReg
    have hrest := compileArms_spec arms pos hsb hdst (by omega)
    refine (hb.append hrest).congr (by omega) (fun x _ => ?_) (by simp) (by simp)
    simp only [List.mem_append, List.mem_singleton]
    tauto
  -- The registers of the test are free again before the body is compiled.
  | ⟨.lit val, body⟩ :: arms, pos, dst, scrReg, s, hs, hdst, hscr => by
    have htest := ((Spec.alloc s).append (.addConstant ((Spec.alloc s).tidy hs) val)).free hs
    have hst := htest.tidy hs
    have hnextTest := htest.nextReg
    have hb := compileNode_spec body pos hst (show dst < _ by omega)
    simp only [compileArms, armsRegs, lostArms, IRPattern.bindings,
      Nat.max_eq_left (show dst + 1 ≤ s.nextReg by omega)]
    have hidx := s.allocReg.constantIndex_lt val
    have hgrow := hb.ext.constants.length_le
    have hgrowMax := hb.ext.maxReg
    generalize compileNode body pos dst ((s.allocReg.addConstant val).freeRegTo s.nextReg) = b
      at hb hgrow hgrowMax ⊢
    have hsb := hb.tidy hst
    have hnext := hb.nextReg
    have hrest := compileArms_spec arms pos hsb hdst (by omega)
    generalize compileArms arms pos dst scrReg b.state = rest at hrest ⊢
    have hsr := hrest.tidy hsb
    have hnote := Spec.noteJump hsr (b.code.length + 1)
    have hmaxTest : s.nextReg + 1 ≤ (s.allocReg.addConstant val).maxReg := by
      rw [Compiler.addConstant_maxReg]
      exact le_max_right _ _
    have hb' := ((hb.push ⟨.jumpIfFalse, 0, s.nextReg, toU16 (b.code.length + 1)⟩ (by
      simp only [validInstruction, decide_eq_true_eq]
      exact lt_of_lt_of_le hmaxTest hgrowMax)).push ⟨.eq, s.nextReg, scrReg, s.nextReg⟩
        (by
          have hlt := lt_of_lt_of_le hmaxTest hgrowMax
          simp only [validInstruction, Bool.and_eq_true, decide_eq_true_eq]
          omega)).push
        ⟨.loadConst, s.nextReg, s.allocReg.constantIndex val, 0⟩ (by
          simp only [validInstruction, Bool.and_eq_true, decide_eq_true_eq]
          exact ⟨lt_of_lt_of_le hmaxTest hgrowMax, lt_of_lt_of_le hidx hgrow⟩)
    have hrest' := hrest.push ⟨.jump, 0, toU16 rest.code.length, 0⟩ (by
      simp [validInstruction])
    exact ((((htest.append hb').append hrest').append hnote).append
      (.noteJump (hnote.tidy hsr) rest.code.length)).congr (by omega) (by simp) (by simp)
        (by simp)
  | ⟨.variant tag subPats, body⟩ :: arms, pos, dst, scrReg, s, hs, hdst, hscr => by
    simp only [compileArms, armsRegs, lostArms, IRPattern.bindings, Compiler.addConstant_nextReg,
      Nat.max_eq_left (show dst + 1 ≤ s.nextReg by omega)]
    have htag := (Spec.addConstant hs (.str tag)).append (.alloc _)
    have hst := htag.tidy hs
    have hnextTag := htag.nextReg
    have hfields := bindFields_spec subPats hst (show s.nextReg < _ by omega)
    have hidx := s.constantIndex_lt (.str tag)
    have hgrow := hfields.ext.constants.length_le
    generalize bindFields subPats s.nextReg (s.addConstant (.str tag)).allocReg = fields
      at hfields hgrow ⊢
    have hsf := hfields.tidy hst
    have hnextFields := hfields.nextReg
    have hb := compileNode_spec body pos hsf (show dst < _ by omega)
    generalize compileNode body pos dst fields.state = b at hb ⊢
    have hgrowBody := hb.ext.constants.length_le
    have hnextBody := hb.nextReg
    have hmax := hb.nextReg_le
    have hjump := (hfields.append hb).push ⟨.jumpIfNoMatch, 0,
      toU16 (fields.code.length + b.code.length + 1), 0⟩ (by simp [validInstruction])
    have hmatch := hjump.push ⟨.matchTag, s.nextReg, scrReg, s.constantIndex (.str tag)⟩
      (validInstruction_matchTag (by omega) (by omega)
        (lt_of_lt_of_le (lt_of_lt_of_le hidx hgrow) hgrowBody))
    have harm := ((htag.append hmatch).remove (IRPattern.bindingsList subPats)
      (by simp)).free hs
    have hsa := harm.tidy hs
    have hrest := compileArms_spec arms pos hsa hdst hscr
    generalize compileArms arms pos dst scrReg ((b.state.removeLocals
      (IRPattern.bindingsList subPats)).freeRegTo s.nextReg) = rest at hrest ⊢
    have hsr := hrest.tidy hsa
    have hnote := Spec.noteJump hsr (fields.code.length + b.code.length + 1)
    have hrest' := hrest.push ⟨.jump, 0, toU16 rest.code.length, 0⟩ (by
      simp [validInstruction])
    refine (((harm.append hrest').append hnote).append
      (.noteJump (hnote.tidy hsr) rest.code.length)).congr (by omega) (fun x _ => ?_) (by simp)
        (by simp)
    simp only [List.mem_append]
    tauto

end

/-! ## Activations -/

theorem validInstruction_assert {s : Compiler} {op : Op} {dst a b : Nat}
    (hop : op = .assertRequires ∨ op = .assertEnsures ∨ op = .assertInvariant)
    (hdst : dst < s.constants.length) (ha : a < s.maxReg) (hb : b < s.constants.length) :
    validInstruction s.maxReg s.constants.length ⟨op, dst, a, b⟩ = true := by
  rcases hop with rfl | rfl | rfl <;> simp [validInstruction, hdst, ha, hb]

/-- Clauses take a register at a time. -/
theorem compileClauses_spec {op : Op} {fnNameIdx : Nat}
    (hop : op = .assertRequires ∨ op = .assertEnsures ∨ op = .assertInvariant)
    (clauses : List Clause) {s : Compiler} (hs : Tidy s)
    (hidx : clauses ≠ [] → fnNameIdx < s.constants.length) :
    Spec 0 (lostList (clauses.map Clause.ir)) [] s (compileClauses op fnNameIdx clauses s).code
      (compileClauses op fnNameIdx clauses s).state := by
  induction clauses generalizing s with
  | nil => simpa only [compileClauses, List.map_nil, lostList] using Spec.refl hs
  | cons clause clauses ih =>
    simp only [compileClauses, List.map_cons, lostList, Compiler.addConstant_nextReg]
    have hsource := Spec.addConstant hs (.str clause.source)
    have hss := hsource.tidy hs
    have hc := (compileNode_spec clause.ir .value ((Spec.alloc _).tidy hss) (show s.nextReg < _ by
      simp [Compiler.allocReg])).temp
    rw [compileExpr]
    generalize compileNode clause.ir .value s.nextReg (s.addConstant (.str clause.source)).allocReg
      = c at hc ⊢
    have hfree := (hsource.append hc).free hs
    have hsrc := s.constantIndex_lt (.str clause.source)
    have hgrowSource := hsource.ext.constants.length_le
    have hgrow := hc.ext.constants.length_le
    have hnext := (hsource.append hc).nextReg
    have hmax := hc.nextReg_le
    have hname := hidx (by simp)
    have hrest := ih (hfree.tidy hs) fun _ =>
      lt_of_lt_of_le hname (hgrowSource.trans hgrow)
    have hassert : ValidCode (c.state.freeRegTo s.nextReg)
        [⟨op, fnNameIdx, s.nextReg, s.constantIndex (.str clause.source)⟩] := by
      refine .cons (validInstruction_assert hop ?_ ?_ ?_) (.nil _) ?_
      · exact lt_of_lt_of_le hname (hgrowSource.trans hgrow)
      · exact lt_of_lt_of_le (by omega : s.nextReg < c.state.nextReg) hmax
      · exact lt_of_lt_of_le hsrc hgrow
      · rcases hop with rfl | rfl | rfl <;> rfl
    exact ((hfree.emit hassert).append hrest).congr rfl (by simp) (by simp) (by simp)

/-- A whole body with its contracts. -/
theorem compileActivation_spec (name : String) (fnNameIdx : Nat) (contracts : Contracts)
    (body : IRNode) {inner : Compiler} (hs : Tidy inner)
    (hidx : contracts.requires ++ contracts.invariants ++ contracts.ensures ≠ [] →
      fnNameIdx < inner.constants.length) :
    ∃ regs gone, Spec regs gone ["result"] inner
      (compileActivation name fnNameIdx contracts body inner).code
      (compileActivation name fnNameIdx contracts body inner).state := by
  have hidx' {s : Compiler} (hext : Extends inner s) {clauses : List Clause}
      (hclauses : clauses ≠ [] →
        contracts.requires ++ contracts.invariants ++ contracts.ensures ≠ []) :
      clauses ≠ [] → fnNameIdx < s.constants.length :=
    fun h => lt_of_lt_of_le (hidx (hclauses h)) hext.constants.length_le
  have hreq := compileClauses_spec (Or.inl rfl) contracts.requires hs
    (hidx' (.refl _) (by simp +contextual))
  have hsr := hreq.tidy hs
  have hb := (compileNode_spec body (.tail name) ((Spec.alloc _).tidy hsr)
    (Nat.lt_succ_self
      ((compileClauses .assertRequires fnNameIdx contracts.requires inner).state.nextReg))).temp
  have hnext := hb.nextReg
  have hres := (hreq.append hb).append (.insertLocal (hb.tidy hsr) "result" (r :=
    (compileClauses .assertRequires fnNameIdx contracts.requires inner).state.nextReg) (by omega))
  have hinv := hres.append (compileClauses_spec (Or.inr (Or.inr rfl))
    contracts.invariants (hres.tidy hs) (hidx' hres.ext (by simp +contextual)))
  have hens := hinv.append (compileClauses_spec (Or.inr (Or.inl rfl))
    contracts.ensures (hinv.tidy hs) (hidx' hinv.ext (by simp +contextual)))
  have hnextAll := hens.nextReg
  have hnextReq := hreq.nextReg
  have hmax := hens.nextReg_le
  have hret : ValidCode (compileActivation name fnNameIdx contracts body inner).state [⟨.ret, 0,
      (compileClauses .assertRequires fnNameIdx contracts.requires inner).state.nextReg, 0⟩] := by
    refine .cons (decide_eq_true ?_) (.nil _)
    simp only [compileActivation]
    omega
  exact ⟨_, _, (hens.emit hret).congr rfl (fun _ _ => Iff.rfl) (by simp) (by
    simp [compileActivation])⟩

/-- Every instruction of a compiled function is valid and grounded. -/
theorem Source.Yields.validCode {src : Source} {lambdas : List BytecodeFunc} {f : BytecodeFunc}
    (h : src.Yields lambdas f) : ∀ instr ∈ f.instructions,
      validInstruction f.registerCount f.constants.length instr = true ∧
        Grounded f.registerCount f.constants lambdas instr := by
  obtain ⟨regs, gone, hspec⟩ :=
    compileActivation_spec src.name src.fnNameIdx src.contracts src.body h.tidy h.named
  intro instr hinstr
  rw [h.instructions] at hinstr
  rw [h.registerCount, h.constants]
  obtain ⟨hvalid, hground⟩ := hspec.valid instr hinstr
  exact ⟨hvalid, hground.mono le_rfl (List.prefix_refl _) h.nested⟩

/-- So the validator accepts the function. -/
theorem Source.Yields.valid {src : Source} {lambdas : List BytecodeFunc} {f : BytecodeFunc}
    (h : src.Yields lambdas f) : f.valid = true :=
  List.all_eq_true.mpr fun instr hinstr => (h.validCode instr hinstr).1

end Airl
