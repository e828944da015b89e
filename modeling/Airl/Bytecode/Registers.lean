import Airl.Bytecode.CompilerSpec
import Mathlib.Order.MinMax

/-! # The registers that an expression needs

How many registers are in use at once while an expression is compiled, from the
expression, the registers in use around it and the places of the variables in scope.
-/

namespace Airl

/-- Where the variables in scope are kept. -/
abbrev Places : Type := String → Option Nat

def Places.forget (Γ : Places) (names : List String) : Places :=
  fun x => if x ∈ names then none else Γ x

def Places.bind (Γ : Places) (name : String) (r : Nat) : Places :=
  fun x => if x = name then some r else Γ x

/-! ## Patterns -/

mutual

/-- The variables of a pattern for the value in `valueReg`, the next free register being `n`. -/
def patternPlaces : IRPattern → Nat → Nat → Places → Places
  | .bind name, valueReg, _, Γ => Γ.bind name valueReg
  | .wild, _, _, Γ => Γ
  | .lit _, _, _, Γ => Γ
  | .variant _ subPats, _, n, Γ => fieldsPlaces subPats n (n + 1) Γ

def fieldsPlaces : List IRPattern → Nat → Nat → Places → Places
  | [], _, _, Γ => Γ
  | [pat], innerReg, n, Γ => patternPlaces pat innerReg n Γ
  | pat :: pat' :: pats, _, n, Γ =>
    multiFieldPlaces (pat' :: pats) (n + fieldRegs pat) (fieldPlaces pat n Γ)

def multiFieldPlaces : List IRPattern → Nat → Places → Places
  | [], _, Γ => Γ
  | pat :: pats, n, Γ => multiFieldPlaces pats (n + fieldRegs pat) (fieldPlaces pat n Γ)

/-- A field that is used is extracted by a call, which occupies three registers. -/
def fieldPlaces : IRPattern → Nat → Places → Places
  | .bind name, n, Γ => Γ.bind name n
  | .wild, _, Γ => Γ
  | .lit _, _, Γ => Γ
  | .variant _ nested, n, Γ => fieldsPlaces nested (n + 3) (n + 4) Γ

end

/-! ## Expressions -/

/-- A call that no opcode of its own replaces. -/
def isGeneralCall (name : String) (count : Nat) : Bool :=
  match directOp name, count with
  | some _, 2 => false
  | some .not, 1 => false
  | _, _ => true

/-- The register for a callee that moving the arguments would overwrite. -/
def calleeRegs (name : String) (count dst : Nat) (Γ : Places) : Nat :=
  if isGeneralCall name count && endangered (Γ name) dst count then 1 else 0

/-- The variables that a lambda captures. -/
def captureRegs (params : List String) (body : IRNode) (Γ : Places) : Nat :=
  ((freeVars body params []).filterMap Γ).length

mutual

/-- The most registers in use at once while `node` is compiled for `dst`, `n` of them around it. -/
def nodePeak : IRNode → Position → Nat → Nat → Places → Nat
  | .int _, _, _, n, _ | .float _, _, _, n, _ | .str _, _, _, n, _ | .bool _, _, _, n, _
  | .nil, _, _, n, _ | .load _, _, _, n, _ | .func _ _ _, _, _, n, _ | .do [], _, _, n, _
  | .variant _ [], _, _, n, _ => n
  | .do (expr :: exprs), pos, dst, n, Γ => doPeak (expr :: exprs) pos dst n Γ
  | .list items, _, _, n, Γ => argsPeak items n Γ
  | .ite cond then_ else_, pos, dst, n, Γ =>
    let Γt := Γ.forget (lost cond)
    let Γe := Γt.forget (lost then_)
    max (nodePeak cond .value n (n + 1) Γ)
      (max (nodePeak then_ pos dst n Γt) (nodePeak else_ pos dst (n + leak then_) Γe))
  | .let bindings body, pos, dst, n, Γ =>
    max (bindingsPeak bindings n Γ)
      (nodePeak body pos dst (n + bindingsRegs bindings) (bindingsPlaces bindings n Γ))
  | .call name args, .value, dst, n, Γ =>
    max (argsPeak args n Γ) (n + argsRegs args + calleeRegs name args.length dst Γ)
  | .call name args, .tail fnName, dst, n, Γ =>
    if name = fnName then argsPeak args n Γ
    else max (argsPeak args n Γ) (n + argsRegs args + calleeRegs name args.length dst Γ)
  | .callExpr callee args, _, _, n, Γ =>
    max (nodePeak callee .value n (n + 1) Γ)
      (argsPeak args (n + (1 + leak callee)) (Γ.forget (lost callee)))
  | .variant _ [arg], _, _, n, Γ => nodePeak arg .value n (n + 1) Γ
  | .variant _ (arg :: arg' :: args), _, _, n, Γ =>
    max (argsPeak (arg :: arg' :: args) n Γ) (n + argsRegs (arg :: arg' :: args) + 1)
  | .lambda params body, _, _, n, Γ => n + captureRegs params body Γ
  | .match scrutinee arms, pos, dst, n, Γ =>
    max (nodePeak scrutinee .value n (n + 1) Γ)
      (armsPeak arms pos dst n (n + (1 + leak scrutinee)) (Γ.forget (lost scrutinee)))
  | .try expr, _, _, n, Γ => nodePeak expr .value n (n + 1) Γ

def argsPeak : List IRNode → Nat → Places → Nat
  | [], n, _ => n
  | arg :: args, n, Γ =>
    max (nodePeak arg .value n (n + 1) Γ)
      (argsPeak args (n + (1 + leak arg)) (Γ.forget (lost arg)))

def doPeak : List IRNode → Position → Nat → Nat → Places → Nat
  | [], _, _, n, _ => n
  | [expr], pos, dst, n, Γ => nodePeak expr pos dst n Γ
  | expr :: exprs, pos, dst, n, Γ =>
    max (nodePeak expr .value n (n + 1) Γ)
      (doPeak exprs pos dst (n + (1 + leak expr)) (Γ.forget (lost expr)))

def bindingsPeak : List IRBinding → Nat → Places → Nat
  | [], n, _ => n
  | ⟨name, expr⟩ :: bindings, n, Γ =>
    max (nodePeak expr .value n (n + 1) Γ)
      (bindingsPeak bindings (n + (1 + leak expr)) ((Γ.forget (lost expr)).bind name n))

/-- The variables in scope of the body of a `Let`. -/
def bindingsPlaces : List IRBinding → Nat → Places → Places
  | [], _, Γ => Γ
  | ⟨name, expr⟩ :: bindings, n, Γ =>
    bindingsPlaces bindings (n + (1 + leak expr)) ((Γ.forget (lost expr)).bind name n)

/-- A variant arm gives its registers back, the others keep what their bodies leave. -/
def armsPeak : List IRArm → Position → Nat → Nat → Nat → Places → Nat
  | [], _, _, _, n, _ => n
  | ⟨.wild, body⟩ :: arms, pos, dst, scrReg, n, Γ =>
    max (nodePeak body pos dst n Γ)
      (armsPeak arms pos dst scrReg (n + leak body) (Γ.forget (lost body)))
  | ⟨.bind name, body⟩ :: arms, pos, dst, scrReg, n, Γ =>
    max (nodePeak body pos dst n (Γ.bind name scrReg))
      (armsPeak arms pos dst scrReg (n + leak body) (Γ.forget (lost body ++ [name])))
  | ⟨.lit _, body⟩ :: arms, pos, dst, scrReg, n, Γ =>
    max (n + 1) (max (nodePeak body pos dst n Γ)
      (armsPeak arms pos dst scrReg (n + leak body) (Γ.forget (lost body))))
  | ⟨.variant _ subPats, body⟩ :: arms, pos, dst, scrReg, n, Γ =>
    let inner := n + (1 + fieldsRegs subPats)
    max inner (max (nodePeak body pos dst inner (fieldsPlaces subPats n (n + 1) Γ))
      (armsPeak arms pos dst scrReg n
        (Γ.forget (lost body ++ IRPattern.bindingsList subPats))))

end

/-! ## The registers of the compiler -/

/-- Behind a node the names are those before it, less the ones it loses. -/
theorem Spec.locals_eq {regs : Nat} {gone : List String} {s s' : Compiler}
    {code : List Instruction} (h : Spec regs gone [] s code s') :
    s'.locals = Places.forget s.locals gone :=
  funext fun _ => h.locals (by simp)

@[simp] theorem Places.forget_nil (Γ : Places) : Γ.forget [] = Γ := by
  funext x
  simp [Places.forget]

@[simp] theorem allocReg_maxReg (s : Compiler) :
    s.allocReg.maxReg = max s.maxReg (s.nextReg + 1) := rfl

theorem extractField_maxReg (s : Compiler) (i innerReg : Nat) :
    (extractField s i innerReg).state.maxReg = max s.maxReg (s.nextReg + 3) := by
  simp [extractField, Compiler.allocReg]

mutual

/-- Where a pattern puts its names. -/
theorem bindPattern_places : ∀ (pat : IRPattern) {valueReg : Nat} {s : Compiler}, Tidy s →
    valueReg < s.nextReg → (bindPattern pat valueReg s).state.locals =
      patternPlaces pat valueReg s.nextReg s.locals
  | .bind name, _, s, _, _ => by simp only [bindPattern, patternPlaces]; rfl
  | .wild, _, s, _, _ => by simp only [bindPattern, patternPlaces]
  | .lit _, _, s, _, _ => by simp only [bindPattern, patternPlaces]
  | .variant tag subPats, valueReg, s, hs, hreg => by
    have htag := (Spec.addConstant hs (.str tag)).append (.alloc _)
    have hfields := bindFields_places subPats (htag.tidy hs) (show s.nextReg < _ by
      rw [htag.nextReg]
      omega)
    simp only [bindPattern, patternPlaces, Compiler.addConstant_nextReg]
    rw [hfields, htag.nextReg, htag.locals_eq, List.append_nil, Places.forget_nil, Nat.zero_add]

theorem bindFields_places : ∀ (pats : List IRPattern) {innerReg : Nat} {s : Compiler}, Tidy s →
    innerReg < s.nextReg → (bindFields pats innerReg s).state.locals =
      fieldsPlaces pats innerReg s.nextReg s.locals
  | [], _, s, _, _ => by simp only [bindFields, fieldsPlaces]
  | [pat], innerReg, s, hs, hreg => by
    simp only [bindFields, fieldsPlaces]
    exact bindPattern_places pat hs hreg
  | pat :: pat' :: pats, innerReg, s, hs, hreg => by
    have hat := Spec.addConstant hs (.str "at")
    have hreg' : innerReg < (s.addConstant (.str "at")).nextReg := by simpa using hreg
    have hfirst := bindField_spec pat 0 (hat.tidy hs) hreg'
    have hnext := hfirst.nextReg
    simp only [bindFields, fieldsPlaces]
    rw [bindMultiField_places (pat' :: pats) 1 (hfirst.tidy (hat.tidy hs)) (by omega), hnext,
      bindField_places pat 0 (hat.tidy hs) hreg', Compiler.addConstant_nextReg,
      Compiler.addConstant_locals]

theorem bindMultiField_places : ∀ (pats : List IRPattern) (i : Nat) {innerReg : Nat}
    {s : Compiler}, Tidy s → innerReg < s.nextReg →
    (bindMultiField pats i innerReg s).state.locals = multiFieldPlaces pats s.nextReg s.locals
  | [], _, _, s, _, _ => by simp only [bindMultiField, multiFieldPlaces]
  | pat :: pats, i, innerReg, s, hs, hreg => by
    have hfirst := bindField_spec pat i hs hreg
    have hnext := hfirst.nextReg
    simp only [bindMultiField, multiFieldPlaces]
    rw [bindMultiField_places pats (i + 1) (hfirst.tidy hs) (by omega), hnext,
      bindField_places pat i hs hreg]

theorem bindField_places : ∀ (pat : IRPattern) (i : Nat) {innerReg : Nat} {s : Compiler}, Tidy s →
    innerReg < s.nextReg → (bindField pat i innerReg s).state.locals =
      fieldPlaces pat s.nextReg s.locals
  | .bind name, i, innerReg, s, hs, hreg => by
    have hfield := (extractField_spec hs i hreg).locals_eq
    simp only [bindField, fieldPlaces]
    rw [Places.forget_nil] at hfield
    rw [← hfield]
    rfl
  | .wild, _, _, s, _, _ => by simp only [bindField, fieldPlaces]
  | .lit _, _, _, s, _, _ => by simp only [bindField, fieldPlaces]
  | .variant tag nested, i, innerReg, s, hs, hreg => by
    have hfield := extractField_spec hs i hreg
    have htag := tagField_spec hs i hreg tag
    have hnext := hfield.nextReg
    have hnextTag := htag.nextReg
    simp only [bindField, fieldPlaces, Compiler.addConstant_nextReg]
    rw [bindFields_places nested (htag.tidy hs) (by omega), htag.locals_eq, hnext, hnextTag]
    simp

end

mutual

/-- The registers that binding a pattern takes. -/
theorem bindPattern_maxReg : ∀ (pat : IRPattern) {valueReg : Nat} {s : Compiler}, Tidy s →
    valueReg < s.nextReg → (bindPattern pat valueReg s).state.maxReg =
      max s.maxReg (s.nextReg + patternRegs pat)
  | .bind name, _, s, hs, _ => by
    simp only [bindPattern, patternRegs]
    exact (Nat.max_eq_left hs.nextReg_le).symm
  | .wild, _, s, hs, _ => by
    simp only [bindPattern, patternRegs]
    exact (Nat.max_eq_left hs.nextReg_le).symm
  | .lit _, _, s, hs, _ => by
    simp only [bindPattern, patternRegs]
    exact (Nat.max_eq_left hs.nextReg_le).symm
  | .variant tag subPats, valueReg, s, hs, hreg => by
    have htag := (Spec.addConstant hs (.str tag)).append (.alloc _)
    have hnext := htag.nextReg
    simp only [bindPattern, patternRegs, Compiler.addConstant_nextReg]
    rw [bindFields_maxReg subPats (htag.tidy hs) (by omega), hnext, allocReg_maxReg,
      Compiler.addConstant_maxReg, Compiler.addConstant_nextReg]
    omega

theorem bindFields_maxReg : ∀ (pats : List IRPattern) {innerReg : Nat} {s : Compiler}, Tidy s →
    innerReg < s.nextReg → (bindFields pats innerReg s).state.maxReg =
      max s.maxReg (s.nextReg + fieldsRegs pats)
  | [], _, s, hs, _ => by
    simp only [bindFields, fieldsRegs]
    exact (Nat.max_eq_left hs.nextReg_le).symm
  | [pat], innerReg, s, hs, hreg => by
    simp only [bindFields, fieldsRegs]
    exact bindPattern_maxReg pat hs hreg
  | pat :: pat' :: pats, innerReg, s, hs, hreg => by
    have hat := Spec.addConstant hs (.str "at")
    have hreg' : innerReg < (s.addConstant (.str "at")).nextReg := by simpa using hreg
    have hfirst := bindField_spec pat 0 (hat.tidy hs) hreg'
    have hnext := hfirst.nextReg
    rw [Compiler.addConstant_nextReg] at hnext
    simp only [bindFields, fieldsRegs, multiFieldRegs]
    rw [bindMultiField_maxReg (pat' :: pats) 1 (hfirst.tidy (hat.tidy hs)) (by omega), hnext,
      bindField_maxReg pat 0 (hat.tidy hs) hreg', Compiler.addConstant_nextReg,
      Compiler.addConstant_maxReg, multiFieldRegs]
    omega

theorem bindMultiField_maxReg : ∀ (pats : List IRPattern) (i : Nat) {innerReg : Nat}
    {s : Compiler}, Tidy s → innerReg < s.nextReg →
    (bindMultiField pats i innerReg s).state.maxReg = max s.maxReg (s.nextReg + multiFieldRegs pats)
  | [], _, _, s, hs, _ => by
    simp only [bindMultiField, multiFieldRegs]
    exact (Nat.max_eq_left hs.nextReg_le).symm
  | pat :: pats, i, innerReg, s, hs, hreg => by
    have hfirst := bindField_spec pat i hs hreg
    have hnext := hfirst.nextReg
    simp only [bindMultiField, multiFieldRegs]
    rw [bindMultiField_maxReg pats (i + 1) (hfirst.tidy hs) (by omega), hnext,
      bindField_maxReg pat i hs hreg]
    omega

theorem bindField_maxReg : ∀ (pat : IRPattern) (i : Nat) {innerReg : Nat} {s : Compiler}, Tidy s →
    innerReg < s.nextReg → (bindField pat i innerReg s).state.maxReg =
      max s.maxReg (s.nextReg + fieldRegs pat)
  | .bind name, i, innerReg, s, hs, hreg => by
    simp only [bindField, fieldRegs]
    exact extractField_maxReg s i innerReg
  | .wild, _, _, s, hs, _ => by
    simp only [bindField, fieldRegs]
    exact (Nat.max_eq_left hs.nextReg_le).symm
  | .lit _, _, _, s, hs, _ => by
    simp only [bindField, fieldRegs]
    exact (Nat.max_eq_left hs.nextReg_le).symm
  | .variant tag nested, i, innerReg, s, hs, hreg => by
    have hfield := extractField_spec hs i hreg
    have htag := tagField_spec hs i hreg tag
    have hnext := hfield.nextReg
    have hnextTag := htag.nextReg
    simp only [bindField, fieldRegs, Compiler.addConstant_nextReg]
    rw [bindFields_maxReg nested (htag.tidy hs) (by omega), hnextTag, allocReg_maxReg,
      Compiler.addConstant_maxReg, Compiler.addConstant_nextReg, extractField_maxReg, hnext]
    omega

end

/-! ## Calls -/

theorem conflictChecks_maxReg (args : List IRNode) (regs : List Nat) (s : Compiler) :
    (conflictChecks args regs s).state.maxReg = s.maxReg := by
  induction regs generalizing s with
  | nil => rfl
  | cons reg regs ih => exact (ih _).trans (s.addConstant_maxReg _)

theorem ownChecks_maxReg (flags : List Bool) (sources : List (Option Nat)) (args : List IRNode)
    (s : Compiler) : (ownChecks flags sources args s).state.maxReg = s.maxReg := by
  fun_induction ownChecks flags sources args s with
  | case1 flags reg sources arg args s name idx rest ih => exact ih.trans (s.addConstant_maxReg _)
  | case2 flag flags source sources arg args s h ih => exact ih
  | case3 => rfl

theorem ownershipChecks_maxReg (flags : List Bool) (sources : List (Option Nat))
    (args : List IRNode) (s : Compiler) :
    (ownershipChecks flags sources args s).state.maxReg = s.maxReg := by
  rw [ownershipChecks]
  split
  · exact ownChecks_maxReg flags sources args s
  · exact conflictChecks_maxReg args _ s

theorem saveCallee_maxReg (callee : Option Nat) (dst count : Nat) {s : Compiler} (hs : Tidy s) :
    (saveCallee callee dst count s).state.maxReg =
      max s.maxReg (s.nextReg + if endangered callee dst count then 1 else 0) := by
  have hmax := hs.nextReg_le
  cases callee with
  | none =>
    simp only [saveCallee, endangered]
    exact (Nat.max_eq_left hmax).symm
  | some orig =>
    simp only [saveCallee]
    split
    · rfl
    · exact (Nat.max_eq_left hmax).symm

theorem emitCall_maxReg (name : String) (callee : Option Nat) (safe dst count : Nat)
    (s : Compiler) : (emitCall name callee safe dst count s).state.maxReg = s.maxReg := by
  cases callee with
  | none => exact s.addConstant_maxReg _
  | some orig => rfl

theorem reserveSlots_maxReg {s : Compiler} {dst count : Nat} (h : dst + 1 + count ≤ s.maxReg) :
    (s.reserveSlots dst count).maxReg = s.maxReg := by
  unfold Compiler.reserveSlots
  split
  · rfl
  · exact Nat.max_eq_left h

/-- Each argument has a register of its own. -/
theorem ArgsSpec.length_le {args : List IRNode} {s : Compiler} {all : EmittedArgs}
    (h : ArgsSpec args s all) : s.nextReg + args.length ≤ all.state.nextReg := by
  have hlen := h.ascending.add_length_le
  rwa [h.length] at hlen

/-- A general call takes its window and, where it is endangered, the callee's copy. -/
theorem generalCall_maxReg (name : String) {args : List IRNode} {dst : Nat} {s : Compiler}
    {all : EmittedArgs} (hs : Tidy s) (hdst : dst < s.nextReg) (hall : ArgsSpec args s all) :
    (generalCall name args dst s all).state.maxReg = max all.state.maxReg
      (s.nextReg + argsRegs args +
        if endangered (s.locals name) dst args.length then 1 else 0) := by
  have hsa := hall.spec.tidy hs
  have hsaved := saveCallee_maxReg (s.locals name) dst args.length hsa
  have hlen := hall.length_le
  have hmax := hsa.nextReg_le
  have hreserved : ((saveCallee (s.locals name) dst args.length all.state).state.reserveSlots dst
      args.length).maxReg = _ := (reserveSlots_maxReg (by omega)).trans hsaved
  rw [← hall.spec.nextReg, ← hreserved]
  -- neither the checks nor the marks of moved arguments take a register
  cases hflags : s.ownershipMap name with
  | none =>
    simp only [generalCall, hflags, Compiler.freeRegTo]
    rw [emitCall_maxReg]
  | some flags =>
    simp only [generalCall, hflags, Compiler.freeRegTo, ownershipMarks]
    rw [emitCall_maxReg, ownershipChecks_maxReg]

/-- A call takes what its kind needs. -/
theorem finishCall_maxReg (name : String) {args : List IRNode} {dst : Nat} {s : Compiler}
    {all : EmittedArgs} (hs : Tidy s) (hdst : dst < s.nextReg) (hall : ArgsSpec args s all) :
    (finishCall name args dst s all).state.maxReg = max all.state.maxReg
      (s.nextReg + argsRegs args + calleeRegs name args.length dst s.locals) := by
  have hsa := hall.spec.tidy hs
  have hmax : max all.state.maxReg (s.nextReg + argsRegs args + 0) = all.state.maxReg := by
    rw [Nat.add_zero, ← hall.spec.nextReg]
    exact Nat.max_eq_left hsa.nextReg_le
  unfold finishCall
  split
  next op aReg bReg hop hregs =>
    have hlen : args.length = 2 := by rw [← hall.length, hregs]; rfl
    rw [calleeRegs, hlen, show isGeneralCall name 2 = false by simp [isGeneralCall, hop]]
    exact hmax.symm
  next aReg hop hregs =>
    have hlen : args.length = 1 := by rw [← hall.length, hregs]; rfl
    rw [calleeRegs, hlen, show isGeneralCall name 1 = false by simp [isGeneralCall, hop]]
    exact hmax.symm
  next htwo hone =>
    have hgeneral : isGeneralCall name args.length = true := by
      unfold isGeneralCall
      rw [← hall.length]
      split
      next op hop hlen =>
        obtain ⟨a, b, hregs⟩ := List.length_eq_two.mp hlen
        exact (htwo op a b hop hregs).elim
      next hop hlen =>
        obtain ⟨a, hregs⟩ := List.length_eq_one_iff.mp hlen
        exact (hone a hop hregs).elim
      next => rfl
    rw [generalCall_maxReg name hs hdst hall, calleeRegs, hgeneral, Bool.true_and]

theorem allocRegs_maxReg {s : Compiler} (hs : Tidy s) (count : Nat) :
    (s.allocRegs count).maxReg = max s.maxReg (s.nextReg + count) := by
  induction count generalizing s with
  | zero => exact (Nat.max_eq_left hs.nextReg_le).symm
  | succ count ih =>
    rw [Compiler.allocRegs, ih ((Spec.alloc s).tidy hs), allocReg_maxReg, (Spec.alloc s).nextReg]
    omega

/-- A closure has a register for each name that it captures. -/
theorem capturedNames_length (s : Compiler) (params : List String) (body : IRNode) :
    (capturedNames s params body).length = captureRegs params body s.locals := by
  unfold capturedNames captureRegs
  generalize freeVars body params [] = names
  induction names with
  | nil => rfl
  | cons name names ih =>
    rw [List.filterMap_cons, List.filterMap_cons]
    cases s.locals name with
    | none => exact ih
    | some r => exact congrArg (· + 1) ih

/-! ## Expressions -/

mutual

/-- The peak of a node is not below where it begins. -/
theorem le_nodePeak : ∀ (node : IRNode) (pos : Position) (dst n : Nat) (Γ : Places),
    n ≤ nodePeak node pos dst n Γ
  | .int _, _, _, _, _ | .float _, _, _, _, _ | .str _, _, _, _, _ | .bool _, _, _, _, _
  | .nil, _, _, _, _ | .load _, _, _, _, _ | .func _ _ _, _, _, _, _ | .do [], _, _, _, _
  | .variant _ [], _, _, _, _ => by simp only [nodePeak, le_rfl]
  | .do (expr :: exprs), pos, dst, n, Γ => by
    simp only [nodePeak]
    exact le_doPeak (expr :: exprs) pos dst n Γ
  | .list items, _, _, n, Γ => by
    simp only [nodePeak]
    exact le_argsPeak items n Γ
  | .ite cond _ _, _, _, n, Γ => by
    simp only [nodePeak]
    exact le_max_of_le_left ((Nat.le_succ n).trans (le_nodePeak cond .value n (n + 1) Γ))
  | .let bindings _, _, _, n, Γ => by
    simp only [nodePeak]
    exact le_max_of_le_left (le_bindingsPeak bindings n Γ)
  | .call _ args, .value, _, n, Γ => by
    simp only [nodePeak]
    exact le_max_of_le_left (le_argsPeak args n Γ)
  | .call _ args, .tail _, _, n, Γ => by
    simp only [nodePeak]
    split
    · exact le_argsPeak args n Γ
    · exact le_max_of_le_left (le_argsPeak args n Γ)
  | .callExpr callee _, _, _, n, Γ => by
    simp only [nodePeak]
    exact le_max_of_le_left ((Nat.le_succ n).trans (le_nodePeak callee .value n (n + 1) Γ))
  | .variant _ [arg], _, _, n, Γ => by
    simp only [nodePeak]
    exact (Nat.le_succ n).trans (le_nodePeak arg .value n (n + 1) Γ)
  | .variant _ (arg :: arg' :: args), _, _, n, Γ => by
    simp only [nodePeak]
    exact le_max_of_le_left (le_argsPeak (arg :: arg' :: args) n Γ)
  | .lambda _ _, _, _, n, _ => by
    simp only [nodePeak]
    exact Nat.le_add_right _ _
  | .match scrutinee _, _, _, n, Γ => by
    simp only [nodePeak]
    exact le_max_of_le_left ((Nat.le_succ n).trans (le_nodePeak scrutinee .value n (n + 1) Γ))
  | .try expr, _, _, n, Γ => by
    simp only [nodePeak]
    exact (Nat.le_succ n).trans (le_nodePeak expr .value n (n + 1) Γ)

theorem le_argsPeak : ∀ (args : List IRNode) (n : Nat) (Γ : Places), n ≤ argsPeak args n Γ
  | [], _, _ => le_rfl
  | arg :: _, n, Γ =>
    le_max_of_le_left ((Nat.le_succ n).trans (le_nodePeak arg .value n (n + 1) Γ))

theorem le_doPeak : ∀ (exprs : List IRNode) (pos : Position) (dst n : Nat) (Γ : Places),
    n ≤ doPeak exprs pos dst n Γ
  | [], _, _, _, _ => le_rfl
  | [expr], pos, dst, n, Γ => by
    simp only [doPeak]
    exact le_nodePeak expr pos dst n Γ
  | expr :: _ :: _, _, _, n, Γ => by
    simp only [doPeak]
    exact le_max_of_le_left ((Nat.le_succ n).trans (le_nodePeak expr .value n (n + 1) Γ))

theorem le_bindingsPeak : ∀ (bindings : List IRBinding) (n : Nat) (Γ : Places),
    n ≤ bindingsPeak bindings n Γ
  | [], _, _ => le_rfl
  | ⟨_, expr⟩ :: _, n, Γ =>
    le_max_of_le_left ((Nat.le_succ n).trans (le_nodePeak expr .value n (n + 1) Γ))

end

theorem maxReg_temp {node : IRNode} {pos : Position} {s : Compiler} {e : Emitted}
    (h : e.state.maxReg = max s.allocReg.maxReg
      (nodePeak node pos s.nextReg s.allocReg.nextReg s.allocReg.locals)) :
    e.state.maxReg = max s.maxReg (nodePeak node pos s.nextReg (s.nextReg + 1) s.locals) := by
  have hle := le_nodePeak node pos s.nextReg (s.nextReg + 1) s.locals
  rw [h, allocReg_maxReg, max_assoc]
  exact congrArg (max s.maxReg) (max_eq_right hle)

theorem loadConstant_maxReg {s : Compiler} (hs : Tidy s) (v : VmValue) (dst : Nat) :
    (s.loadConstant v dst).state.maxReg = max s.maxReg s.nextReg := by
  rw [Nat.max_eq_left hs.nextReg_le]
  exact s.addConstant_maxReg v

mutual

/-- The registers of compiled code are counted on the source, by induction on the node. -/
theorem compileNode_maxReg : ∀ (node : IRNode) (pos : Position) {dst : Nat} {s : Compiler}, Tidy s →
    dst < s.nextReg → (compileNode node pos dst s).state.maxReg =
      max s.maxReg (nodePeak node pos dst s.nextReg s.locals)
  | .int _, pos, dst, s, hs, hdst | .float _, pos, dst, s, hs, hdst
  | .str _, pos, dst, s, hs, hdst => by
    simp only [compileNode, nodePeak]
    exact loadConstant_maxReg hs _ dst
  | .bool true, pos, dst, s, hs, hdst | .bool false, pos, dst, s, hs, hdst
  | .nil, pos, dst, s, hs, hdst | .func _ _ _, pos, dst, s, hs, hdst
  | .do [], pos, dst, s, hs, hdst => by
    simp only [compileNode, nodePeak]
    exact (Nat.max_eq_left hs.nextReg_le).symm
  | .variant _ [], pos, dst, s, hs, hdst => by
    simp only [compileNode, nodePeak]
    rw [Compiler.addConstant_maxReg]
    exact (Nat.max_eq_left hs.nextReg_le).symm
  | .load name, pos, dst, s, hs, hdst => by
    simp only [compileNode, nodePeak]
    cases s.locals name with
    | none => exact loadConstant_maxReg hs _ dst
    | some slot =>
      dsimp only
      split
      · rw [Compiler.addConstant_maxReg]
        exact (Nat.max_eq_left hs.nextReg_le).symm
      · exact (Nat.max_eq_left hs.nextReg_le).symm
  | .do (expr :: exprs), pos, dst, s, hs, hdst => by
    simp only [compileNode, nodePeak]
    exact compileDo_maxReg (expr :: exprs) pos hs hdst
  | .list items, pos, dst, s, hs, hdst => by
    simp only [compileNode, nodePeak]
    exact compileArgs_maxReg items hs
  -- The condition's register is free again before the branches are compiled.
  | .ite cond then_ else_, pos, dst, s, hs, hdst => by
    simp only [compileNode, nodePeak, Nat.max_eq_left hdst]
    have hsa := (Spec.alloc s).tidy hs
    have hc := (compileNode_spec cond .value hsa (Nat.lt_succ_self s.nextReg)).temp
    have hmax := maxReg_temp (compileNode_maxReg cond .value hsa (Nat.lt_succ_self s.nextReg))
    generalize compileNode cond .value s.nextReg s.allocReg = c at hc hmax ⊢
    have hfreed := hc.free hs
    have hsf := hfreed.tidy hs
    have ht := compileNode_spec then_ pos hsf hdst
    have hmaxThen := compileNode_maxReg then_ pos hsf hdst
    generalize compileNode then_ pos dst (c.state.freeRegTo s.nextReg) = t at ht hmaxThen ⊢
    have hnext : t.state.nextReg = s.nextReg + leak then_ := ht.nextReg
    have hmaxElse := compileNode_maxReg else_ pos (ht.tidy hsf) (show dst < _ by omega)
    rw [ht.locals_eq, hfreed.locals_eq, hnext, hmaxThen, hfreed.locals_eq] at hmaxElse
    refine hmaxElse.trans ?_
    rw [show (c.state.freeRegTo s.nextReg).maxReg = c.state.maxReg from rfl, hmax, max_assoc,
      max_assoc]
    rfl
  | .let bindings body, pos, dst, s, hs, hdst => by
    simp only [compileNode, nodePeak, raiseAbove_eq pos hdst, Nat.max_eq_left hdst]
    have hb := compileBindings_spec bindings hs
    obtain ⟨hmax, hplaces⟩ := compileBindings_maxReg bindings hs
    have hnext := hb.nextReg
    have hbody := compileNode_maxReg body pos (hb.tidy hs) (show dst < _ by omega)
    rw [hmax, hplaces, hnext, max_assoc] at hbody
    exact hbody
  | .call name args, .value, dst, s, hs, hdst => by
    simp only [compileNode, nodePeak]
    have hall := compileArgs_spec args hs
    rw [finishCall_maxReg name hs hdst hall, compileArgs_maxReg args hs, max_assoc]
  | .call name args, .tail fnName, dst, s, hs, hdst => by
    simp only [compileNode, nodePeak]
    have hall := compileArgs_spec args hs
    split
    · simp only [finishTailCall, Compiler.addConstant_maxReg]
      exact compileArgs_maxReg args hs
    · rw [finishCall_maxReg name hs hdst hall, compileArgs_maxReg args hs, max_assoc]
  | .callExpr callee args, pos, dst, s, hs, hdst => by
    simp only [compileNode, nodePeak]
    have hsa := (Spec.alloc s).tidy hs
    have hc := (compileNode_spec callee .value hsa (Nat.lt_succ_self s.nextReg)).temp
    have hmax := maxReg_temp (compileNode_maxReg callee .value hsa (Nat.lt_succ_self s.nextReg))
    generalize compileNode callee .value s.nextReg s.allocReg = c at hc hmax ⊢
    have hsc := hc.tidy hs
    have hall := compileArgs_spec args hsc
    have hmaxArgs := compileArgs_maxReg args hsc
    have hnext := hc.nextReg
    have hlen := hall.length_le
    have hle := (hall.spec.tidy hsc).nextReg_le
    rw [hc.locals_eq, hnext, hmax, max_assoc] at hmaxArgs
    exact (reserveSlots_maxReg (by omega)).trans hmaxArgs
  | .variant tag [arg], pos, dst, s, hs, hdst => by
    simp only [compileNode, nodePeak]
    have hst := (Spec.addConstant hs (.str tag)).tidy hs
    have harg := maxReg_temp (compileNode_maxReg arg .value ((Spec.alloc _).tidy hst)
      (Nat.lt_succ_self (s.addConstant (.str tag)).nextReg))
    rw [Compiler.addConstant_maxReg, Compiler.addConstant_locals] at harg
    rw [Compiler.addConstant_nextReg] at harg ⊢
    exact harg
  | .variant tag (arg :: arg' :: args), pos, dst, s, hs, hdst => by
    simp only [compileNode, nodePeak]
    have hst := (Spec.addConstant hs (.str tag)).tidy hs
    have hargs := compileArgs_spec (arg :: arg' :: args) hst
    have hmax := compileArgs_maxReg (arg :: arg' :: args) hst
    have hnext := hargs.spec.nextReg
    generalize compileArgs (arg :: arg' :: args) (s.addConstant (.str tag)) = all at hmax hnext ⊢
    rw [Compiler.addConstant_nextReg] at hmax hnext
    rw [Compiler.addConstant_maxReg, Compiler.addConstant_locals] at hmax
    refine (allocReg_maxReg all.state).trans ?_
    rw [hmax, hnext, max_assoc]
  | .lambda params body, pos, dst, s, hs, hdst => by
    simp only [compileNode, nodePeak, makeClosure]
    rw [← capturedNames_length]
    refine (Compiler.addConstant_maxReg _ _).trans ((allocRegs_maxReg ?_ _).trans rfl)
    exact ⟨hs.nextReg_le, hs.locals_lt⟩
  | .match scrutinee arms, pos, dst, s, hs, hdst => by
    simp only [compileNode, nodePeak]
    have hsa := (Spec.alloc s).tidy hs
    have hscr := (compileNode_spec scrutinee .value hsa (Nat.lt_succ_self s.nextReg)).temp
    have hmax := maxReg_temp
      (compileNode_maxReg scrutinee .value hsa (Nat.lt_succ_self s.nextReg))
    have hnext := hscr.nextReg
    have harms := compileArms_maxReg arms pos (hscr.tidy hs) hdst
      (show s.nextReg < _ by omega)
    rw [hscr.locals_eq, hnext, hmax, max_assoc] at harms
    exact harms
  | .try expr, pos, dst, s, hs, hdst => by
    simp only [compileNode, nodePeak]
    exact maxReg_temp (compileNode_maxReg expr .value ((Spec.alloc s).tidy hs)
      (Nat.lt_succ_self s.nextReg))

theorem compileArgs_maxReg : ∀ (args : List IRNode) {s : Compiler}, Tidy s →
    (compileArgs args s).state.maxReg = max s.maxReg (argsPeak args s.nextReg s.locals)
  | [], s, hs => by
    simp only [compileArgs, argsPeak]
    exact (Nat.max_eq_left hs.nextReg_le).symm
  | arg :: args, s, hs => by
    simp only [compileArgs, argsPeak]
    have hsa := (Spec.alloc s).tidy hs
    have ha := (compileNode_spec arg .value hsa (Nat.lt_succ_self s.nextReg)).temp
    rw [compileArgs_maxReg args (ha.tidy hs), ha.locals_eq, ha.nextReg,
      maxReg_temp (compileNode_maxReg arg .value hsa (Nat.lt_succ_self s.nextReg)), max_assoc]

theorem compileDo_maxReg : ∀ (exprs : List IRNode) (pos : Position) {dst : Nat} {s : Compiler},
    Tidy s → dst < s.nextReg → (compileDo exprs pos dst s).state.maxReg =
      max s.maxReg (doPeak exprs pos dst s.nextReg s.locals)
  | [], pos, dst, s, hs, hdst => by
    simp only [compileDo, doPeak]
    exact (Nat.max_eq_left hs.nextReg_le).symm
  | [expr], pos, dst, s, hs, hdst => by
    simp only [compileDo, doPeak]
    exact compileNode_maxReg expr pos hs hdst
  | expr :: expr' :: exprs, pos, dst, s, hs, hdst => by
    simp only [compileDo, doPeak]
    have hsa := (Spec.alloc s).tidy hs
    have he := (compileNode_spec expr .value hsa (Nat.lt_succ_self s.nextReg)).temp
    have hnext := he.nextReg
    rw [compileDo_maxReg (expr' :: exprs) pos (he.tidy hs) (by omega), he.locals_eq, hnext,
      maxReg_temp (compileNode_maxReg expr .value hsa (Nat.lt_succ_self s.nextReg)), max_assoc]

/-- Bindings are counted with the names that the ones before them bind. -/
theorem compileBindings_maxReg : ∀ (bindings : List IRBinding) {s : Compiler}, Tidy s →
    (compileBindings bindings s).state.maxReg =
        max s.maxReg (bindingsPeak bindings s.nextReg s.locals) ∧
      (compileBindings bindings s).state.locals = bindingsPlaces bindings s.nextReg s.locals
  | [], s, hs => by
    simp only [compileBindings, bindingsPeak, bindingsPlaces]
    exact ⟨(Nat.max_eq_left hs.nextReg_le).symm, trivial⟩
  | ⟨name, expr⟩ :: bindings, s, hs => by
    simp only [compileBindings, bindingsPeak, bindingsPlaces]
    have hsa := (Spec.alloc s).tidy hs
    have he := (compileNode_spec expr .value hsa (Nat.lt_succ_self s.nextReg)).temp
    have hmax := maxReg_temp (compileNode_maxReg expr .value hsa (Nat.lt_succ_self s.nextReg))
    generalize compileNode expr .value s.nextReg s.allocReg = e at he hmax ⊢
    have hnext := he.nextReg
    have hname := Spec.insertLocal (he.tidy hs) name (r := s.nextReg) (by omega)
    have hlocals : (e.state.insertLocal name s.nextReg).locals =
        (Places.forget s.locals (lost expr)).bind name s.nextReg := by
      rw [← he.locals_eq]
      rfl
    obtain ⟨hmaxRest, hplaces⟩ := compileBindings_maxReg bindings (hname.tidy (he.tidy hs))
    rw [hlocals, hname.nextReg, Nat.add_zero, hnext] at hmaxRest hplaces
    refine ⟨hmaxRest.trans ?_, hplaces⟩
    rw [← max_assoc, ← hmax]
    rfl

/-- Arms are counted one by one: each begins where the match does. -/
theorem compileArms_maxReg : ∀ (arms : List IRArm) (pos : Position) {dst scrReg : Nat}
    {s : Compiler}, Tidy s → dst < scrReg → scrReg < s.nextReg →
    (compileArms arms pos dst scrReg s).state.maxReg =
      max s.maxReg (armsPeak arms pos dst scrReg s.nextReg s.locals)
  | [], pos, dst, scrReg, s, hs, hdst, hscr => by
    simp only [compileArms, armsPeak]
    exact (Nat.max_eq_left hs.nextReg_le).symm
  | ⟨.wild, body⟩ :: arms, pos, dst, scrReg, s, hs, hdst, hscr => by
    simp only [compileArms, armsPeak]
    have hb := compileNode_spec body pos hs (show dst < _ by omega)
    have hnext := hb.nextReg
    rw [compileArms_maxReg arms pos (hb.tidy hs) hdst (by omega), hb.locals_eq, hnext,
      compileNode_maxReg body pos hs (show dst < _ by omega), max_assoc]
  | ⟨.bind name, body⟩ :: arms, pos, dst, scrReg, s, hs, hdst, hscr => by
    simp only [compileArms, armsPeak]
    have hname := Spec.insertLocal hs name hscr
    have hsn := hname.tidy hs
    have hdst' : dst < (s.insertLocal name scrReg).nextReg := hdst.trans hscr
    have hb := (hname.append (compileNode_spec body pos hsn hdst')).remove [name] (by simp)
    have hmax := compileNode_maxReg body pos hsn hdst'
    have hnext := hb.nextReg
    rw [compileArms_maxReg arms pos (hb.tidy hs) hdst (by omega), hb.locals_eq, hnext]
    rw [show ((compileNode body pos dst (s.insertLocal name scrReg)).state.removeLocals
      [name]).maxReg = _ from hmax, max_assoc, Nat.zero_add, List.nil_append]
    rfl
  | ⟨.lit val, body⟩ :: arms, pos, dst, scrReg, s, hs, hdst, hscr => by
    have htest := ((Spec.alloc s).append (.addConstant ((Spec.alloc s).tidy hs) val)).free hs
    have hst := htest.tidy hs
    have hdst' : dst < ((s.allocReg.addConstant val).freeRegTo s.nextReg).nextReg :=
      hdst.trans hscr
    simp only [compileArms, armsPeak, Nat.max_eq_left (show dst + 1 ≤ s.nextReg by omega)]
    have hb := compileNode_spec body pos hst hdst'
    have hmax := compileNode_maxReg body pos hst hdst'
    generalize compileNode body pos dst ((s.allocReg.addConstant val).freeRegTo s.nextReg) = b
      at hb hmax ⊢
    have hnext : b.state.nextReg = s.nextReg + leak body := hb.nextReg
    have hrest := compileArms_maxReg arms pos (hb.tidy hst) hdst (by omega)
    rw [hb.locals_eq, htest.locals_eq, hnext, hmax, htest.locals_eq] at hrest
    refine hrest.trans ?_
    rw [show ((s.allocReg.addConstant val).freeRegTo s.nextReg).maxReg = max s.maxReg
      (s.nextReg + 1) from s.allocReg.addConstant_maxReg val, List.append_nil, Places.forget_nil,
      max_assoc, max_assoc]
    rfl
  | ⟨.variant tag subPats, body⟩ :: arms, pos, dst, scrReg, s, hs, hdst, hscr => by
    simp only [compileArms, armsPeak, Compiler.addConstant_nextReg,
      Nat.max_eq_left (show dst + 1 ≤ s.nextReg by omega)]
    have htag := (Spec.addConstant hs (.str tag)).append (.alloc _)
    have hst := htag.tidy hs
    have hnextTag := htag.nextReg
    have hinner : s.nextReg < ((s.addConstant (.str tag)).allocReg).nextReg := by omega
    have hfields := bindFields_spec subPats hst hinner
    have hplaces := bindFields_places subPats hst hinner
    have hmaxFields := bindFields_maxReg subPats hst hinner
    generalize bindFields subPats s.nextReg (s.addConstant (.str tag)).allocReg = fields
      at hfields hplaces hmaxFields ⊢
    have hsf := hfields.tidy hst
    have hnextFields := hfields.nextReg
    have hb := compileNode_spec body pos hsf (show dst < _ by omega)
    have hmax := compileNode_maxReg body pos hsf (show dst < _ by omega)
    generalize compileNode body pos dst fields.state = b at hb hmax ⊢
    have harm := ((htag.append (hfields.append hb)).remove (IRPattern.bindingsList subPats)
      (by simp)).free hs
    have hrest := compileArms_maxReg arms pos (harm.tidy hs) hdst hscr
    rw [harm.locals_eq] at hrest
    refine hrest.trans ?_
    rw [show ((b.state.removeLocals (IRPattern.bindingsList subPats)).freeRegTo s.nextReg).maxReg
      = b.state.maxReg from rfl, hmax, hplaces, hmaxFields, hnextFields, hnextTag,
      htag.locals_eq]
    simp [max_assoc, Nat.add_assoc]
    rfl

end

end Airl
