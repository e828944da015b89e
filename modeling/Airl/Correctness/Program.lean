import Airl.Bytecode.Marshal
import Airl.Correctness.Inline
import Mathlib.Data.List.Induction
import Mathlib.Data.List.Pairwise

/-! # Whole programs

The machine that has loaded a compiled program finds under every name what the
reference program means by it. From there on the simulation of calls says what
the program does.
-/

namespace Airl

open Transition (Host Outcome)

variable {World : Type} {m : Machine World}

/-! ## Loading -/

/-- A function that is loaded replaces the one of its name. -/
theorem find?_loadFunction (loaded : List BytecodeFunc) (func : BytecodeFunc) (name : String) :
    (loadFunction loaded func).find? (fun f => f.name == name) =
      if func.name = name then some func else loaded.find? (fun f => f.name == name) := by
  unfold loadFunction
  by_cases hname : func.name = name
  · subst hname
    rw [if_pos rfl, List.find?_append]
    have hnone : (loaded.filter fun f => f.name != func.name).find? (fun f => f.name == func.name) =
        none := by
      simp [List.find?_eq_none]
    rw [hnone]
    simp
  · rw [if_neg hname, List.find?_append]
    have hlast : [func].find? (fun f => f.name == name) = none := by simp [hname]
    rw [hlast, Option.or_none, List.find?_filter]
    congr 1
    funext f
    by_cases hf : f.name = name
    · simp [hf, Ne.symm hname]
    · simp [hf]

/-- Of the functions of one name the last that was loaded is found. -/
theorem find?_loaded (fs : List BytecodeFunc) (name : String) :
    (fs.foldl loadFunction []).find? (fun f => f.name == name) =
      fs.reverse.find? (fun f => f.name == name) := by
  induction fs using List.reverseRecOn with
  | nil => rfl
  | append_singleton fs f ih =>
    rw [List.foldl_append, List.foldl_cons, List.foldl_nil, find?_loadFunction, ih,
      List.reverse_append, List.reverse_singleton, List.singleton_append, List.find?_cons]
    by_cases hname : f.name = name
    · simp [hname]
    · rw [if_neg hname, beq_eq_false_iff_ne.mpr hname]

/-- Nothing is found but what was loaded. -/
theorem mem_loaded {fs : List BytecodeFunc} {f : BytecodeFunc} (h : f ∈ fs.foldl loadFunction []) :
    f ∈ fs := by
  induction fs using List.reverseRecOn with
  | nil => exact h
  | append_singleton fs g ih =>
    rw [List.foldl_append, List.foldl_cons, List.foldl_nil, loadFunction] at h
    rcases List.mem_append.mp h with h | h
    · exact List.mem_append_left _ (ih (List.mem_of_mem_filter h))
    · exact List.mem_append_right _ h

/-! ## Functions -/

theorem bindParams_addConstant (params : List String) (i : Nat) (s : Compiler) (v : VmValue) :
    (Compiler.bindParams params i s).addConstant v =
      Compiler.bindParams params i (s.addConstant v) := by
  induction params generalizing i s with
  | nil => rfl
  | cons param params ih =>
    rw [Compiler.bindParams, ih, Compiler.bindParams]
    congr 1
    unfold Compiler.addConstant Compiler.insertLocal
    split <;> rfl

/-- What compiling one function gives. -/
structure FunctionSpec (s : Compiler) (name : String) (params : List String)
    (contracts : Contracts) (body : IRNode) (r : BytecodeFunc × Compiler) : Prop where
  ext : Extends s r.2
  same : r.2.provenClauses = s.provenClauses ∧ r.2.trustedFns = s.trustedFns ∧
    r.2.nextReg = s.nextReg ∧
    r.2.maxReg = s.maxReg ∧ r.2.locals = s.locals
  name_eq : r.1.name = name
  valid : r.1.valid = true
  compiled : ∀ {World : Type} {m : Machine World},
    (∀ f ∈ r.2.compiledLambdas, m.lookup f.name = some f) → r.2.longJump = false →
      s.lambdaPrefix = "" → r.1.Short → m.Short → Compiled m name params contracts body r.1

/-- What compiling a function gives, by what compiling its activation does. -/
theorem functionSpec_of_activation {s : Compiler} (base : Compiler) (idx : Nat)
    (contracts : Contracts) {name : String} {params : List String} {body : IRNode}
    {func : BytecodeFunc} {final : Compiler}
    (hbase : Ready base) (hlocals : base.locals = fun _ => none)
    (hnext : base.nextReg = 0) (hmax : base.maxReg = 0)
    (hlambdas : base.compiledLambdas = []) (hcounter : base.lambdaCounter = s.lambdaCounter)
    (hunitBase : base.lambdaPrefix = s.lambdaPrefix)
    (hname : contracts.requires ++ contracts.invariants ++ contracts.ensures ≠ [] →
      base.constants[idx]? = some (.str name))
    (hinstrs : func.instructions =
      (compileActivation name idx contracts body (Compiler.bindParams params 0 base)).code)
    (hconsts : func.constants =
      (compileActivation name idx contracts body
        (Compiler.bindParams params 0 base)).state.constants)
    (hcount : func.registerCount =
      (compileActivation name idx contracts body (Compiler.bindParams params 0 base)).state.maxReg)
    (hfunc : func.name = name) (harity : func.arity = params.length)
    (hfinal : s.leaveFunction
      (compileActivation name idx contracts body (Compiler.bindParams params 0 base)).state =
        final) :
    FunctionSpec s name params contracts body (func, final) := by
  have hready := bindParams_ready params hbase hnext hmax
  have hfields := bindParams_fields params 0 base
  have hname' : contracts.requires ++ contracts.invariants ++ contracts.ensures ≠ [] →
      idx < (Compiler.bindParams params 0 base).constants.length := fun hne => by
    rw [hfields.2.2.2.1]
    exact (List.getElem?_eq_some_iff.mp (hname hne)).1
  obtain ⟨regs, gone, hspec⟩ := compileActivation_spec name idx contracts body hready.toTidy hname'
  have hext : Extends s final := by
    rw [← hfinal]
    exact leaveFunction_extends (hfields.1.trans hlambdas) (by rw [hfields.2.1, hcounter])
      (hfields.2.2.1.trans hunitBase) hspec.ext
  subst hfinal
  refine ⟨hext, ⟨rfl, rfl, rfl, rfl, rfl⟩, hfunc, ?_, fun hfound hjumps hunit hshort hshorts =>
    ⟨?_, harity, hshort, hshorts⟩⟩
  · refine List.all_eq_true.mpr fun instr hinstr => ?_
    rw [hcount, hconsts]
    exact (hspec.valid instr (hinstrs ▸ hinstr)).1
  · refine ⟨base, idx, hbase, hlocals, hnext, hmax, hunitBase.trans hunit, hname, hinstrs, hconsts,
      hcount, ?_, fun f hf => hfound f ?_⟩
    · simp only [Compiler.leaveFunction, Bool.or_eq_false_iff] at hjumps
      exact hjumps.2
    · simp only [Compiler.leaveFunction]
      exact List.mem_append_right _ hf

/-- The compiler in which the body of a function is compiled, before its parameters. -/
def Compiler.fresh (s : Compiler) : Compiler :=
  { lambdaCounter := s.lambdaCounter
    lambdaPrefix := s.lambdaPrefix
    ownershipMap := s.ownershipMap
    provenClauses := s.provenClauses }

theorem fresh_ready {s : Compiler} (hs : Ready s) : Ready s.fresh :=
  ⟨⟨le_rfl, by simp [Compiler.fresh]⟩, hs.noOwnership, rfl⟩

/-- A function without contracts. -/
theorem compileFunction_spec {s : Compiler} (hs : Ready s) (name : String) (params : List String)
    (body : IRNode) : FunctionSpec s name params {} body (compileFunction name params body s) :=
  functionSpec_of_activation s.fresh 0 {} (fresh_ready hs)
    rfl rfl rfl rfl rfl rfl (by simp) (by simp [compileActivation, compileClauses,
      compileExprTail, Compiler.toFunc, Compiler.enterFunction, Compiler.fresh]) rfl rfl rfl rfl rfl

/-- A constant put first in the pool of a function has index 0. -/
theorem enterFunction_addConstant (s : Compiler) (params : List String) (v : VmValue) :
    (s.enterFunction params).addConstant v =
        Compiler.bindParams params 0 (s.fresh.addConstant v) ∧
      (s.enterFunction params).constantIndex v = 0 := by
  refine ⟨bindParams_addConstant params 0 s.fresh v, ?_⟩
  unfold Compiler.constantIndex
  rw [show (s.enterFunction params).constants = [] from
    (bindParams_fields params 0 s.fresh).2.2.2.1]
  rfl

/-- A function with contracts: the proven clauses are left out. -/
theorem compileFunctionWithContracts_spec {s : Compiler} (hs : Ready s) (name : String)
    (params : List String) (body : IRNode) (contracts : Contracts) :
    FunctionSpec s name params
      (checkedContracts contracts (s.provenClauses name) (s.trustedFns name)) body
      (compileFunctionWithContracts name params body contracts s) := by
  have hbase : Ready (s.fresh.addConstant (.str name)) :=
    (Spec.addConstant (fresh_ready hs).toTidy (.str name)).ready (fresh_ready hs)
  obtain ⟨hinner, hidx⟩ := enterFunction_addConstant s params (.str name)
  simp only [compileFunctionWithContracts, checkedContracts, hinner, hidx]
  split
  · exact functionSpec_of_activation (s.fresh.addConstant (.str name)) 0 {}
      hbase rfl rfl rfl rfl rfl rfl (by simp)
      (by simp [compileActivation, compileClauses, compileExprTail, Compiler.toFunc]) rfl rfl rfl
      rfl rfl
  · exact functionSpec_of_activation (s.fresh.addConstant (.str name)) 0 _ hbase rfl rfl
      rfl rfl rfl rfl (fun _ => rfl) rfl rfl rfl rfl rfl rfl

/-- Compiling a function leaves the state ready for the next. -/
theorem FunctionSpec.ready {s : Compiler} {name : String} {params : List String}
    {contracts : Contracts} {body : IRNode} {r : BytecodeFunc × Compiler}
    (h : FunctionSpec s name params contracts body r) (hs : Ready s) : Ready r.2 := by
  obtain ⟨-, -, hnext, hmax, hlocals⟩ := h.same
  refine ⟨⟨?_, fun {x r} hx => ?_⟩, fun x => by rw [h.ext.ownership, hs.noOwnership x],
    (h.ext.moved hs.noOwnership).trans hs.noMoved⟩
  · rw [hnext, hmax]
    exact hs.nextReg_le
  · rw [hnext]
    exact hs.locals_lt (hlocals ▸ hx)

/-! ## Programs -/

/-- The function that a name denotes and the one that is found for it. -/
def Defines (m : Machine World) (name : String) : Option FuncDef → Option BytecodeFunc → Prop
  | some fd, some func => Compiled m name fd.params fd.contracts fd.body func
  | none, none => True
  | _, _ => False

/-- A name is looked up in one part and then in the other, on both sides. -/
theorem Defines.or {name : String} {fd fd' : Option FuncDef} {func func' : Option BytecodeFunc}
    (h : Defines m name fd func) (h' : Defines m name fd' func') :
    Defines m name (fd.or fd') (func.or func') := by
  cases fd with
  | some fd => cases func with
    | some func => exact h
    | none => exact h.elim
  | none => cases func with
    | some func => exact h.elim
    | none => exact h'

section Funcs

variable {contracts : String → Option Contracts}

/-- The contracts that the compiled function of a name checks. -/
def contractsOf (contracts : String → Option Contracts) (s : Compiler)
    (name : String) : Contracts :=
  match contracts name with
  | some clauses => checkedContracts clauses (s.provenClauses name) (s.trustedFns name)
  | none => {}

/-- One function of a program. -/
def compileFunc (contracts : String → Option Contracts) (name : String) (params : List String)
    (body : IRNode) (s : Compiler) : BytecodeFunc × Compiler :=
  match contracts name with
  | some clauses => compileFunctionWithContracts name params body clauses s
  | none => compileFunction name params body s

variable (contracts) in
/-- A definition, with the contracts that are known of it. -/
theorem compileFunc_spec {s : Compiler} (hs : Ready s) (name : String) (params : List String)
    (body : IRNode) : FunctionSpec s name params (contractsOf contracts s name) body
      (compileFunc contracts name params body s) := by
  unfold contractsOf compileFunc
  cases contracts name with
  | some clauses => exact compileFunctionWithContracts_spec hs name params body clauses
  | none => exact compileFunction_spec hs name params body

/-- What compiling the functions of a program gives. -/
structure FuncsSpec (s : Compiler) (r : List BytecodeFunc × Compiler) : Prop where
  ext : Extends s r.2
  ready : Ready r.2
  valid : ∀ f ∈ r.1, f.valid = true

theorem compileFuncs_cons (name : String) (params : List String) (body : IRNode)
    (nodes : List IRNode) (s : Compiler) :
    compileFuncs contracts (.func name params body :: nodes) s =
      ((compileFunc contracts name params body s).1 ::
          (compileFuncs contracts nodes (compileFunc contracts name params body s).2).1,
        (compileFuncs contracts nodes (compileFunc contracts name params body s).2).2) := rfl

variable (contracts) in
/-- All definitions of a program, one after the other. -/
theorem compileFuncs_spec (nodes : List IRNode) {s : Compiler} (hs : Ready s) :
    FuncsSpec s (compileFuncs contracts nodes s) := by
  induction nodes generalizing s with
  | nil => exact ⟨.refl s, hs, by simp [compileFuncs]⟩
  | cons node nodes ih =>
    cases node with
    | func name params body =>
      rw [compileFuncs_cons]
      have hfunc := compileFunc_spec contracts hs name params body
      have hrest := ih (hfunc.ready hs)
      refine ⟨hfunc.ext.trans hrest.ext, hrest.ready, fun f hf => ?_⟩
      rcases List.mem_cons.mp hf with rfl | hf
      · exact hfunc.valid
      · exact hrest.valid f hf
    | _ => exact ih hs

theorem refProgram_cons (builtins : Builtins Lambda World) (alike : String → List RefValue → Bool)
    (s : Compiler) (name name' : String) (params : List String) (body : IRNode)
    (nodes : List IRNode) :
    (refProgram (.func name' params body :: nodes) contracts s.provenClauses s.trustedFns
        builtins alike).functions name =
      ((refProgram nodes contracts s.provenClauses s.trustedFns builtins alike).functions name).or
        (if name' = name then some ⟨params, body, contractsOf contracts s name'⟩ else none) := by
  simp only [refProgram, lastDef]
  cases lastDef name nodes with
  | some d => rfl
  | none =>
    by_cases hname : name' = name
    · subst hname
      simp only [Option.orElse_eq_or, Option.none_or, if_true, Option.map_some]
      rfl
    · simp [hname]

/-- The last definition of a name is what both sides find. -/
theorem compileFuncs_defines (builtins : Builtins Lambda World)
    (alike : String → List RefValue → Bool) (name : String) (nodes : List IRNode) {s : Compiler}
    (hs : Ready s) (hunit : s.lambdaPrefix = "")
    (hfound : ∀ f ∈ (compileFuncs contracts nodes s).2.compiledLambdas, m.lookup f.name = some f)
    (hjumps : (compileFuncs contracts nodes s).2.longJump = false)
    (hshort : ∀ f ∈ (compileFuncs contracts nodes s).1, f.Short) (hshorts : m.Short) :
    Defines m name
      ((refProgram nodes contracts s.provenClauses s.trustedFns builtins alike).functions name)
      ((compileFuncs contracts nodes s).1.reverse.find? fun f => f.name == name) := by
  induction nodes generalizing s with
  | nil => trivial
  | cons node nodes ih =>
    cases node with
    | func name' params body =>
      rw [compileFuncs_cons] at hfound hjumps hshort ⊢
      have hfunc := compileFunc_spec contracts hs name' params body
      generalize compileFunc contracts name' params body s = f at hfunc hfound hjumps hshort ⊢
      have hready := hfunc.ready hs
      have hrest := compileFuncs_spec contracts nodes hready
      have hdefs := ih hready (hfunc.ext.unitPrefix.trans hunit) hfound hjumps
        fun g hg => hshort g (List.mem_cons_of_mem _ hg)
      rw [hfunc.same.1, hfunc.same.2.1] at hdefs
      have hself : Defines m name
          (if name' = name then some ⟨params, body, contractsOf contracts s name'⟩ else none)
          ([f.1].find? fun f => f.name == name) := by
        rw [List.find?_singleton, hfunc.name_eq]
        by_cases hname : name' = name
        · rw [if_pos hname, if_pos (beq_iff_eq.mpr hname)]
          rw [← hname]
          exact hfunc.compiled (fun f hf => hfound f (hrest.ext.mem_lambdas hf))
            (hrest.ext.longJump hjumps) hunit (hshort _ List.mem_cons_self) hshorts
        · rw [if_neg hname, if_neg (by simp [hname])]
          trivial
      rw [List.reverse_cons, List.find?_append, refProgram_cons]
      exact hdefs.or hself
    | _ => exact ih hs hunit hfound hjumps hshort

end Funcs

/-- A compiler at the start of a program. -/
structure Initial (s : Compiler) : Prop where
  ready : Ready s
  lambdas : s.compiledLambdas = []
  unitPrefix : s.lambdaPrefix = ""

/-- The reference form of `__main__`. -/
def mainFunc (nodes : List IRNode) : FuncDef where
  params := []
  body := mainBody (nodes.filter (!isFunc ·))
  contracts := {}

section Link

variable {s : Compiler} {nodes : List IRNode} {contracts : String → Option Contracts}
  {vmBuiltins : Builtins String World} {maxCallDepth : Nat}

/-- The machine that has loaded the compiled program. -/
def compiledMachine (s : Compiler) (nodes : List IRNode) (contracts : String → Option Contracts)
    (vmBuiltins : Builtins String World) (maxCallDepth : Nat) : Machine World :=
  let p := compileProgramWithContracts s nodes contracts
  loadProgram p.functions p.main vmBuiltins maxCallDepth

variable (nodes contracts) in
/-- A program is its definitions and a function for the rest. -/
theorem compileProgram_parts (hs : Initial s) :
    FuncsSpec s (compileFuncs contracts nodes s) ∧
      FunctionSpec (compileFuncs contracts nodes s).2 "__main__" [] {} (mainFunc nodes).body
        (compileFunction "__main__" [] (mainFunc nodes).body (compileFuncs contracts nodes s).2) :=
  ⟨compileFuncs_spec _ nodes hs.ready,
    compileFunction_spec (compileFuncs_spec _ nodes hs.ready).ready "__main__" [] _⟩

/-- Where the loaded machine finds a name. -/
theorem lookup_compiledMachine (name : String) :
    (compiledMachine s nodes contracts vmBuiltins maxCallDepth).lookup name =
      (([(compileProgramWithContracts s nodes contracts).main].find? fun f => f.name == name).or
        (((compileFunction "__main__" [] (mainFunc nodes).body
          (compileFuncs contracts nodes s).2).2.compiledLambdas.reverse.find?
            fun f => f.name == name).or
          ((compileFuncs contracts nodes s).1.reverse.find? fun f => f.name == name))) := by
  unfold compiledMachine loadProgram Machine.lookup
  rw [find?_loaded]
  simp only [compileProgramWithContracts, List.reverse_append, List.reverse_singleton,
    List.find?_append, mainFunc]

/-- A lambda is found under its own name. -/
theorem find?_lambda {lambdas : List BytecodeFunc} {lo hi : Nat} (h : Numbered "" lo hi lambdas)
    {f : BytecodeFunc} (hf : f ∈ lambdas) :
    (lambdas.reverse.find? fun g => g.name == f.name) = some f := by
  cases hfind : lambdas.reverse.find? fun g => g.name == f.name with
  | none =>
    have hnone := List.find?_eq_none.mp hfind f (List.mem_reverse.mpr hf)
    simp at hnone
  | some g =>
    have hname := List.find?_some hfind
    simp only [beq_iff_eq] at hname
    have hg := List.mem_reverse.mp (List.mem_of_find?_eq_some hfind)
    by_cases hne : g = f
    · rw [hne]
    · have hsymm : Std.Symm fun f g : BytecodeFunc => f.name ≠ g.name := ⟨fun _ _ h => h.symm⟩
      exact absurd hname (h.distinct.forall hg hf hne)

/-- And under no name that a program can write. -/
theorem find?_lambda_of_not_reserved {lambdas : List BytecodeFunc} {lo hi : Nat}
    (h : Numbered "" lo hi lambdas) {name : String} (hname : reserved name = false) :
    (lambdas.reverse.find? fun g => g.name == name) = none := by
  refine List.find?_eq_none.mpr fun g hg hfound => ?_
  obtain ⟨k, -, -, hk⟩ := h.number g (List.mem_reverse.mp hg)
  simp only [beq_iff_eq] at hfound
  rw [← hfound, hk, reserved_lambdaName] at hname
  exact absurd hname (by simp)

variable (nodes contracts) in
/-- The lambdas of a program are numbered, each name once. -/
theorem numbered_lambdas (hs : Initial s) : ∃ lo hi, Numbered "" lo hi
    (compileFunction "__main__" [] (mainFunc nodes).body
      (compileFuncs contracts nodes s).2).2.compiledLambdas := by
  obtain ⟨hfuncs, hmain⟩ := compileProgram_parts nodes contracts hs
  obtain ⟨new, hnew⟩ := (hfuncs.ext.trans hmain.ext).lambdas
  have heq := hnew.eq
  have hnumbered := hnew.numbered
  rw [hs.lambdas, List.nil_append] at heq
  rw [hs.unitPrefix, ← heq] at hnumbered
  exact ⟨_, _, hnumbered⟩

/-- The machine finds every lambda. -/
theorem lookup_lambda (hs : Initial s) {f : BytecodeFunc}
    (hf : f ∈ (compileFunction "__main__" [] (mainFunc nodes).body
      (compileFuncs contracts nodes s).2).2.compiledLambdas) :
    (compiledMachine s nodes contracts vmBuiltins maxCallDepth).lookup f.name = some f := by
  obtain ⟨-, hmain⟩ := compileProgram_parts nodes contracts hs
  obtain ⟨lo, hi, hnumbered⟩ := numbered_lambdas nodes contracts hs
  obtain ⟨k, -, -, hk⟩ := hnumbered.number f hf
  have hne : ("__main__" == f.name) = false := by
    rw [hk]
    simp [lambdaName, String.ext_iff, toString]
  rw [lookup_compiledMachine, List.find?_singleton, find?_lambda hnumbered hf]
  rw [show (compileProgramWithContracts s nodes contracts).main.name =
    "__main__" from hmain.name_eq, hne]
  rfl

/-- And the main function. -/
theorem lookup_main (hs : Initial s) :
    (compiledMachine s nodes contracts vmBuiltins maxCallDepth).lookup "__main__" =
      some (compileProgramWithContracts s nodes contracts).main := by
  obtain ⟨hfuncs, hmain⟩ := compileProgram_parts nodes contracts hs
  rw [lookup_compiledMachine, List.find?_singleton,
    show (compileProgramWithContracts s nodes contracts).main.name = "__main__" from hmain.name_eq]
  rfl

/-- Registers, constants, jumps and positions fit their operands. -/
structure CompiledProgram.Fits (p : CompiledProgram) : Prop where
  registers : ∀ f ∈ p.functions ++ [p.main], f.registerCount ≤ 65535
  constants : p.panicked = false
  jumps : p.longJump = false
  lengths : ∀ f ∈ p.functions ++ [p.main], f.Short

/-- No function of a program that fits is too long. -/
theorem compiledMachine_short (hfits : (compileProgramWithContracts s nodes contracts).Fits) :
    (compiledMachine s nodes contracts vmBuiltins maxCallDepth).Short :=
  fun func hfunc => hfits.lengths func (mem_loaded hfunc)

/-- The loaded machine and the program find the same definitions. -/
theorem compiledMachine_linked (hs : Initial s) {refBuiltins : Builtins Lambda World}
    {alike : String → List RefValue → Bool}
    (hbuiltins : BuiltinsAgree refBuiltins alike
      (compiledMachine s nodes contracts vmBuiltins maxCallDepth))
    (hfits : (compileProgramWithContracts s nodes contracts).Fits) :
    Linked (refProgram nodes contracts s.provenClauses s.trustedFns refBuiltins alike)
      (compiledMachine s nodes contracts vmBuiltins maxCallDepth) := by
  obtain ⟨hfuncs, hmain⟩ := compileProgram_parts nodes contracts hs
  have hdefines (name : String) := compileFuncs_defines
    (m := compiledMachine s nodes contracts vmBuiltins maxCallDepth) refBuiltins alike name nodes
    hs.ready
    hs.unitPrefix (fun f hf => lookup_lambda hs (hmain.ext.mem_lambdas hf))
    (hmain.ext.longJump hfits.jumps)
    (fun f hf => hfits.lengths f (List.mem_append_left _ (List.mem_append_left _ hf)))
    (compiledMachine_short hfits)
  have hlookup {name : String} (hname : reserved name = false) :
      (compiledMachine s nodes contracts vmBuiltins maxCallDepth).lookup name =
        (compileFuncs contracts nodes s).1.reverse.find? fun f => f.name == name := by
    obtain ⟨lo, hi, hnumbered⟩ := numbered_lambdas nodes contracts hs
    have hne : "__main__" ≠ name := fun h => by
      rw [← h] at hname
      exact absurd hname (by decide)
    rw [lookup_compiledMachine, find?_lambda_of_not_reserved hnumbered hname, List.find?_singleton,
      show (compileProgramWithContracts s nodes contracts).main.name =
          "__main__" from hmain.name_eq,
      if_neg (by simpa using hne)]
    rfl
  refine ⟨hbuiltins, fun {name fd} hname hfd => ?_, fun {name} hname hfd => ?_⟩
  · have h := hdefines name
    rw [hfd, ← hlookup hname] at h
    cases hfunc : (compiledMachine s nodes contracts vmBuiltins maxCallDepth).lookup name with
    | none => simp [hfunc, Defines] at h
    | some func => exact ⟨func, rfl, by simpa [hfunc, Defines] using h⟩
  · have h := hdefines name
    rw [hfd, ← hlookup hname] at h
    cases hfunc : (compiledMachine s nodes contracts vmBuiltins maxCallDepth).lookup name with
    | none => rfl
    | some func => simp [hfunc, Defines] at h

end Link

/-! ## Runs of a program -/

/-- What `exec_program` ends with on a loaded program, if it ends. -/
def Machine.Yields (m : Machine World) (world : World) (o : RunResult World) : Prop :=
  match m.startMain world with
  | .ok vm => (m.host false).Yields vm o
  | .error f => o = .error f

/-- The outcome of a run of at most `n` passes of the main loop. -/
def Machine.runFor (m : Machine World) : Nat → Vm World → Option (RunResult World)
  | 0, _ => none
  | n + 1, vm =>
    match m.step vm with
    | .ok (.running vm') => m.runFor n vm'
    | .ok (.finished v world) => some (.ok (v, world))
    | .error f => some (.error f)

/-- A run that ends within a number of steps ends. -/
theorem Machine.yields_of_runFor {n : Nat} {vm : Vm World} {o : RunResult World}
    (h : m.runFor n vm = some o) : (m.host false).Yields vm o := by
  induction n generalizing vm with
  | zero => simp [runFor] at h
  | succ n ih =>
    unfold runFor at h
    have hhalts : m.halts vm o → (m.host false).Yields vm o := fun hhalt =>
      ⟨vm, .refl, hhalt, by simp⟩
    split at h
    · next vm' hstep => exact (ih h).of_reaches (.single ⟨hstep, by simp⟩)
    · next v world hstep =>
        refine hhalts ?_
        unfold halts
        rw [hstep]
        exact (Option.some.inj h).symm
    · next f hstep =>
        refine hhalts ?_
        unfold halts
        rw [hstep]
        exact (Option.some.inj h).symm

/-- A run of the reference program with at most `depth` nested calls. -/
def RefProgram.runMain (P : RefProgram World) (nodes : List IRNode) (depth : Nat) (world : World) :
    Res World RefValue :=
  P.call depth (.named "__main__" (mainFunc nodes)) [] world

/-- No guard fires in a run of the program, however many calls it may nest. -/
def RefProgram.Guards (P : RefProgram World) (nodes : List IRNode) (world : World) : Prop :=
  ∀ depth, P.guardedCall depth false (.named "__main__" (mainFunc nodes)) [] world ≠ .departs

/-- The machine ended as the reference evaluation did: related values in the
same world, or errors of the same class. -/
def Agrees (m : Machine World) : Res World RefValue → RunResult World → Prop
  | .ok v world, .ok (v', world') => ValueRel m v v' ∧ world' = world
  | .err f, .error f' => f.SameClass f'
  | _, _ => False

/-- The machine ran out of call frames, of which the reference evaluation has no limit. -/
def Overflows (m : Machine World) (o : RunResult World) : Prop :=
  o = .error (.error (.stackOverflow m.maxCallDepth))

/-- A reference run that ends is followed by the machine, and a machine run that
ends follows a reference run; or the machine runs out of call frames. -/
def Machine.Follows (m : Machine World) (P : RefProgram World) (nodes : List IRNode)
    (world : World) : Prop :=
  (∀ depth, P.runMain nodes depth world ≠ .timeout →
    ∃ o, m.Yields world o ∧ (Agrees m (P.runMain nodes depth world) o ∨ Overflows m o)) ∧
  ∀ o, m.Yields world o → Overflows m o ∨ ∃ depth, Agrees m (P.runMain nodes depth world) o

section Run

variable {P : RefProgram World} {nodes : List IRNode} {func : BytecodeFunc} {world : World}

/-- The frame in which main starts. -/
def mainVm (func : BytecodeFunc) (world : World) : Vm World :=
  ⟨[Machine.newFrame func "__main__" [] 0], 1, world⟩

variable (world) in
/-- The run of the main function is simulated at every depth of calls. -/
theorem main_sim (hL : Linked P m)
    (htarget : TargetRel P m (.named "__main__" (mainFunc nodes)) [] func)
    (n : Nat) : (m.host false).Simulates n (mainVm func world)
      (P.guardedCall (n + 1) false (.named "__main__" (mainFunc nodes)) [] world)
      (AtReturn m [] 1 0) :=
  named_sim (guardedCall_enters hL n) hL rfl false htarget .nil rfl
    (newFrame_entry "__main__" 0 (Nat.zero_le _))

/-- What the evaluator answers within the guards, the machine answers. -/
theorem yields_of_guarded (hL : Linked P m)
    (htarget : TargetRel P m (.named "__main__" (mainFunc nodes)) [] func) {n : Nat}
    {r : Res World RefValue}
    (hr : P.guardedCall (n + 1) false (.named "__main__" (mainFunc nodes)) []
      world = r) (hdeparts : r ≠ .departs) (htimeout : r ≠ .timeout) :
    ∃ o, (m.host false).Yields (mainVm func world) o ∧ (Agrees m r o ∨ Overflows m o) := by
  have hsim := main_sim world hL htarget n
  rw [hr] at hsim
  cases r with
  | ok v w =>
    rcases hsim with ⟨t, hreach, fr, dst, a, b, v', rfl, -, hinstr, hv, hrel⟩ | ⟨o, ho, hover⟩
    · refine ⟨.ok (v', w), ⟨_, hreach, ?_, by simp⟩, Or.inl ⟨hrel, rfl⟩⟩
      unfold Machine.halts
      rw [Machine.step_ret [] 1 w hinstr hv]
      rfl
    · exact ⟨o, ho, Or.inr hover⟩
  | err f =>
    rcases hsim with ⟨o, ho, f', rfl, hf⟩ | ⟨o, ho, hover⟩
    · exact ⟨_, ho, Or.inl hf⟩
    · exact ⟨o, ho, Or.inr hover⟩
  | timeout => exact absurd rfl htimeout
  | departs => exact absurd rfl hdeparts

/-- And what the machine answers, the evaluator answers at some depth. -/
theorem guarded_of_yields (hL : Linked P m)
    (htarget : TargetRel P m (.named "__main__" (mainFunc nodes)) [] func)
    (hguards : P.Guards nodes world) {o : RunResult World}
    (ho : (m.host false).Yields (mainVm func world) o) :
    Overflows m o ∨ ∃ n, Agrees m (P.runMain nodes n world) o := by
  obtain ⟨n, hn⟩ := (m.host_deterministic false).exists_not_runsFor ho
  have hrefines := P.guardedCall_refines (n + 1) false (.named "__main__" (mainFunc nodes)) [] world
  have heq := hrefines.eq_of_ne (hguards (n + 1))
  by_cases htimeout :
    P.guardedCall (n + 1) false (.named "__main__" (mainFunc nodes)) [] world = .timeout
  · have hsim := main_sim world hL htarget n
    rw [htimeout] at hsim
    rcases hsim with hruns | ⟨o', ho', hover⟩
    · exact absurd hruns hn
    · exact Or.inl ((m.host_deterministic false).yields_unique ho ho' ▸ hover)
  · obtain ⟨o', ho', hagrees⟩ := yields_of_guarded hL htarget rfl (hguards (n + 1)) htimeout
    obtain rfl := (m.host_deterministic false).yields_unique ho ho'
    rcases hagrees with hagrees | hover
    · refine Or.inr ⟨n + 1, ?_⟩
      rw [RefProgram.runMain, ← heq]
      exact hagrees
    · exact Or.inl hover

end Run

/-! ## Compiler correctness -/

section Correct

variable {s : Compiler} {nodes : List IRNode} {contracts : String → Option Contracts}
  {vmBuiltins : Builtins String World} {refBuiltins : Builtins Lambda World}
  {alike : String → List RefValue → Bool} {maxCallDepth : Nat}

/-- The validator accepts the loaded machine. -/
theorem compiledMachine_valid (hs : Initial s) :
    (compiledMachine s nodes contracts vmBuiltins maxCallDepth).functions.all BytecodeFunc.valid =
      true := by
  obtain ⟨hfuncs, hmain⟩ := compileProgram_parts nodes contracts hs
  refine List.all_eq_true.mpr fun f hf => ?_
  have hmem : f ∈ (compileProgramWithContracts s nodes contracts).functions ++
      [(compileProgramWithContracts s nodes contracts).main] := mem_loaded hf
  simp only [compileProgramWithContracts, List.mem_append, List.mem_singleton] at hmem
  obtain ⟨new, hnew⟩ := (hfuncs.ext.trans hmain.ext).lambdas
  have heq := hnew.eq
  rw [hs.lambdas, List.nil_append] at heq
  rcases hmem with (hf | hf) | rfl
  · exact hfuncs.valid f hf
  · obtain ⟨src, hsrc⟩ := hnew.sources f (heq ▸ hf)
    exact hsrc.valid
  · exact hmain.valid

variable (vmBuiltins maxCallDepth) in
/-- The compiled main function is that of the program. -/
theorem main_target (hs : Initial s)
    (hfits : (compileProgramWithContracts s nodes contracts).Fits) (P : RefProgram World) :
    TargetRel P (compiledMachine s nodes contracts vmBuiltins maxCallDepth)
      (.named "__main__" (mainFunc nodes)) []
        (compileProgramWithContracts s nodes contracts).main := by
  obtain ⟨hfuncs, hmain⟩ := compileProgram_parts nodes contracts hs
  refine .named (hmain.compiled (fun f hf => lookup_lambda hs hf) hfits.jumps
    (hfuncs.ext.unitPrefix.trans hs.unitPrefix)
    (hfits.lengths _ (List.mem_append_right _ List.mem_cons_self))
      (compiledMachine_short hfits)) fun hreserved => ?_
  exact absurd hreserved (by decide)

variable (nodes contracts vmBuiltins maxCallDepth) in
/-- The machine starts in the main function. -/
theorem startMain_eq (hs : Initial s) (world : World) :
    (compiledMachine s nodes contracts vmBuiltins maxCallDepth).startMain world =
        .ok (mainVm (compileProgramWithContracts s nodes contracts).main world) ∨
      (compiledMachine s nodes contracts vmBuiltins maxCallDepth).startMain world =
        .error (.error (.stackOverflow
          (compiledMachine s nodes contracts vmBuiltins maxCallDepth).maxCallDepth)) := by
  simp only [Machine.startMain, Machine.start, Machine.pushFrame, compiledMachine_valid hs,
    lookup_main hs, if_true]
  split
  · exact Or.inr rfl
  · exact Or.inl rfl

/-- Assembled: both sides answer the same, or an excused thing happened. -/
theorem compileProgramWithContracts_follows (hs : Initial s)
    (hfits : (compileProgramWithContracts s nodes contracts).Fits)
    (hbuiltins : BuiltinsAgree refBuiltins alike
      (compiledMachine s nodes contracts vmBuiltins maxCallDepth)) (world : World)
    (hguards : (refProgram nodes contracts s.provenClauses s.trustedFns refBuiltins alike).Guards
      nodes world) :
    (compiledMachine s nodes contracts vmBuiltins maxCallDepth).Follows
      (refProgram nodes contracts s.provenClauses s.trustedFns refBuiltins alike) nodes world := by
  have hL := compiledMachine_linked hs hbuiltins hfits
  have htarget := main_target vmBuiltins maxCallDepth hs hfits
    (refProgram nodes contracts s.provenClauses s.trustedFns refBuiltins alike)
  generalize hP : refProgram nodes contracts s.provenClauses s.trustedFns refBuiltins alike = P at *
  rcases startMain_eq nodes contracts vmBuiltins maxCallDepth hs world with hstart | hstart
  · simp only [Machine.Follows, Machine.Yields, hstart]
    refine ⟨fun depth htimeout => ?_, fun o ho => guarded_of_yields hL htarget hguards ho⟩
    cases depth with
    | zero => exact absurd rfl htimeout
    | succ n =>
      have heq := (P.guardedCall_refines (n + 1) false (.named "__main__" (mainFunc nodes)) []
        world).eq_of_ne (hguards (n + 1))
      exact yields_of_guarded hL htarget heq (fun h => hguards (n + 1) (heq.trans h)) htimeout
  · simp only [Machine.Follows, Machine.Yields, hstart]
    exact ⟨fun depth _ => ⟨_, rfl, Or.inr rfl⟩, fun o ho => Or.inl ho⟩

/-- The machine that has loaded a program compiled without contracts. -/
def programMachine (nodes : List IRNode) (vmBuiltins : Builtins String World) (maxCallDepth : Nat) :
    Machine World :=
  loadProgram (compileProgram {} nodes).functions (compileProgram {} nodes).main vmBuiltins
    maxCallDepth

theorem initial_new : Initial {} := ⟨⟨⟨le_rfl, by simp⟩, fun _ => rfl, rfl⟩, rfl, rfl⟩

end Correct

/-! ## A rebound variable -/

mutual

/-- A value in which no function occurs, as the runtime library has it. -/
def Value.data? {Code : Type} : Value Code → Option RtValue
  | .nil => some .nil
  | .unit => some .unit
  | .int n => some (.int n)
  | .float bits => some (.float bits)
  | .bool b => some (.bool b)
  | .str s => some (.str s)
  | .bytes data => some (.bytes data)
  | .list items => (dataList? items).map .list
  | .variant tag inner => inner.data?.map (.variant tag)
  | _ => none

def Value.dataList? {Code : Type} : List (Value Code) → Option (List RtValue)
  | [] => some []
  | v :: vs => do return (← v.data?) :: (← dataList? vs)

end

/-- `bc-func-from` on data. The world counts the native functions that were made. -/
def nativeFrom {Code : Type} (args : List (Value Code)) (made : Nat) :
    Except Fault (Value Code) × Nat :=
  match Value.dataList? args with
  | some [name, arity, regCount, captureCount, constants, instructions] =>
    match airlBcFuncFrom made name arity regCount captureCount constants instructions with
    | .ok (.bcFuncNative copy name arity regCount captureCount constants instructions) =>
      (.ok (.bcFuncNative copy name arity regCount captureCount constants instructions), made + 1)
    | .ok _ => (.ok .nil, made)
    | .error f => (.error f, made)
  | _ => (.error .exit, made)

/-- Builtins of which only `at` is known. -/
def atBuiltins {Code : Type} : Builtins Code Unit where
  known name := name == "at"
  dispatch name args world :=
    (if name = "at" then airlAt args else .error (.error (.undefinedSymbol name)), world)
  threadSpawn _ world := (.error (.error (.custom "thread-spawn: no function")), world)
  fnMetadata _ world := (.error (.error (.custom "fn-metadata: no function")), world)
  known_at := rfl
  dispatch_at _ _ := rfl

/-- `at` and `bc-func-from`, on a host without threads and metadata. -/
def someBuiltins {Code : Type} : Builtins Code Nat where
  known name := name == "at" || name == "bc-func-from"
  dispatch name args made :=
    if name = "at" then (airlAt args, made)
    else if name = "bc-func-from" then nativeFrom args made
    else (.error (.error (.undefinedSymbol name)), made)
  threadSpawn _ made := (.error (.error (.custom "thread-spawn: no function")), made)
  fnMetadata _ made := (.error (.error (.custom "fn-metadata: no function")), made)
  known_at := rfl
  dispatch_at _ _ := rfl

/-- Constants of a native function are data: a lambda among them would be its compiled function. -/
def dataToNative (name : String) (args : List RefValue) : Bool :=
  name != "bc-func-from" || (Value.dataList? args).isSome

theorem builtinRel_error (m : Machine World) (f : Fault) (world : World) :
    BuiltinRel m (.error f, world) (.error f, world) := Fault.SameClass.refl f

/-- Reading an element respects related values. -/
theorem airlAt_rel {args : List RefValue} {args' : List VmValue} (h : ValuesRel m args args')
    (world : World) : BuiltinRel m (airlAt args, world) (airlAt args', world) := by
  cases h with
  | nil => exact builtinRel_error m .exit world
  | cons hv hvs =>
    cases hvs with
    | nil => cases hv <;> exact builtinRel_error m .exit world
    | cons hw _ =>
      cases hv with
      | list hitems =>
        cases hw with
        | int n =>
          simp only [airlAt]
          split
          · exact builtinRel_error m .exit world
          · split
            · next item hitem =>
                obtain ⟨item', hitem', hrel⟩ := hitems.getElem?_left hitem
                rw [hitem']
                exact ⟨hrel.toRt_eq.symm ▸ hrel, rfl⟩
            · next hnone =>
                rw [List.getElem?_eq_none_iff, hitems.length_eq,
                  ← List.getElem?_eq_none_iff] at hnone
                rw [hnone]
                exact builtinRel_error m .exit world
        | _ => exact builtinRel_error m .exit world
      | bytes data =>
        cases hw with
        | int n =>
          simp only [airlAt]
          split
          · exact builtinRel_error m .exit world
          · split
            · exact ⟨.int _, rfl⟩
            · exact builtinRel_error m .exit world
        | _ => exact builtinRel_error m .exit world
      | _ => exact builtinRel_error m .exit world

mutual

theorem ValueRel.data?_eq {m : Machine World} {v : RefValue} {v' : VmValue} :
    ValueRel m v v' → v.data? = v'.data?
  | .list h => by simp only [Value.data?, h.dataList?_eq]
  | .variant _ h => by simp only [Value.data?, h.data?_eq]
  | .int _ | .float _ | .bool _ | .str _ | .nil | .unit | .bytes _ | .map _
  | .native _ _ _ _ _ _ _ | .closure _ _ _ _ _ | .partialNamed _ _ _ | .partialBuiltin _ _ _
  | .partialClosure _ _ _ => by simp only [Value.data?]

theorem ValuesRel.dataList?_eq {m : Machine World} {xs : List RefValue} {ys : List VmValue} :
    ValuesRel m xs ys → Value.dataList? xs = Value.dataList? ys
  | .nil => rfl
  | .cons h hs => by simp only [Value.dataList?, h.data?_eq, hs.dataList?_eq]

end

/-- So does making a native value of data. -/
theorem nativeFrom_rel {m : Machine Nat} {args : List RefValue} {args' : List VmValue}
    (h : ValuesRel m args args') (made : Nat) :
    BuiltinRel m (nativeFrom args made) (nativeFrom args' made) := by
  unfold nativeFrom
  rw [← h.dataList?_eq]
  split
  · split
    · exact ⟨.native _ _ _ _ _ _ _, rfl⟩
    · exact ⟨.nil, rfl⟩
    · exact builtinRel_error m _ made
  · exact builtinRel_error m _ made

/-- The sample table of builtins agrees with itself. -/
theorem someBuiltins_agree (m : Machine Nat) (hm : m.builtins = someBuiltins) :
    BuiltinsAgree someBuiltins dataToNative m where
  known name := by rw [hm]; rfl
  reserved name hname := by
    rw [hm]
    have hat := ne_of_reserved hname (show reserved "at" = false by decide)
    have hnative := ne_of_reserved hname (show reserved "bc-func-from" = false by decide)
    simp [someBuiltins, hat, hnative]
  dispatch name args args' made _ h := by
    rw [hm]
    simp only [someBuiltins]
    split
    · exact airlAt_rel h made
    · split
      · exact nativeFrom_rel h made
      · exact builtinRel_error m _ made
  threadSpawn made _ _ := by rw [hm]; exact builtinRel_error m _ made
  fnMetadata made _ _ := by rw [hm]; exact builtinRel_error m _ made

/-- `(let (x 1) (do (let (x 2) x) x))`. -/
def rebound : List IRNode :=
  [.let [⟨"x", .int 1⟩] (.do [.let [⟨"x", .int 2⟩] (.load "x"), .load "x"])]

/-- The reference program of nodes without contracts, over `someBuiltins`. -/
def someProgram (nodes : List IRNode) : RefProgram Nat :=
  refProgram nodes (fun _ => none) (fun _ _ => false) (fun _ => false) someBuiltins dataToNative

/-- `(let (f (bc-func-from "f" 0 1 0 [] [[25 0 0 0]])) (if (= f f) (let (x 1) (+ x 2)) nil))`. -/
def sum : List IRNode :=
  [.let [⟨"f", .call "bc-func-from" [.str "f", .int 0, .int 1, .int 0, .list [],
      .list [.list [.int 25, .int 0, .int 0, .int 0]]]⟩]
    (.ite (.call "=" [.load "f", .load "f"]) (.let [⟨"x", .int 1⟩] (.call "+" [.load "x", .int 2]))
      .nil)]

end Airl
