import Airl.Correctness.Program

/-! # The inline evaluator beside the main loop

A closure that `is_simple_closure` admits, run by `eval_simple` and run in a
frame of its own. The registers of the frame hold what `value_to_rt` makes of the
inline evaluator's; an instruction on which the two part is not clear.
-/

namespace Airl

open Transition (Host)

variable {World : Type}

namespace Value

/-- The kinds that arithmetic and the orderings are defined on. -/
def scalar : VmValue → Bool
  | .int _ | .float _ | .bool _ | .str _ => true
  | _ => false

/-- A scalar is represented by itself. -/
theorem toRt_of_scalar {v : VmValue} (h : v.scalar = true) : v.toRt = v := by
  cases v <;> first | rfl | simp [scalar] at h

/-- The representation of a value is a scalar just if the value is. -/
theorem scalar_toRt (v : VmValue) : v.toRt.scalar = v.scalar := by
  cases v with
  | partialApp func capturedArgs remainingArity =>
    simp only [toRt]
    split <;> rfl
  | _ => rfl

/-- A function that treats all operands alike of which one is no scalar. -/
def ScalarOnly {α : Type} (f : VmValue → VmValue → α) : Prop :=
  ∃ other, ∀ x y, (x.scalar && y.scalar) = false → f x y = other

/-- Conversion does not change what such a function computes. -/
theorem ScalarOnly.toRt {α : Type} {f : VmValue → VmValue → α} (h : ScalarOnly f) (x y : VmValue) :
    f x.toRt y.toRt = f x y := by
  obtain ⟨other, hother⟩ := h
  cases hxy : x.scalar && y.scalar with
  | false =>
    rw [hother x y hxy]
    exact hother _ _ (by rw [scalar_toRt, scalar_toRt, hxy])
  | true =>
    rw [Bool.and_eq_true] at hxy
    rw [toRt_of_scalar hxy.1, toRt_of_scalar hxy.2]

/-- Addition succeeds on scalars alone, as the other operators do. -/
theorem add_scalarOnly : ScalarOnly add := by
  refine ⟨.error (.error (.typeError "add: incompatible types")), fun x y h => ?_⟩
  cases x <;> first | rfl | cases y <;> first | rfl | simp [scalar] at h

theorem sub_scalarOnly : ScalarOnly sub := by
  refine ⟨.error (.error (.typeError "sub: incompatible types")), fun x y h => ?_⟩
  cases x <;> first | rfl | cases y <;> first | rfl | simp [scalar] at h

theorem mul_scalarOnly : ScalarOnly mul := by
  refine ⟨.error (.error (.typeError "mul: incompatible types")), fun x y h => ?_⟩
  cases x <;> first | rfl | cases y <;> first | rfl | simp [scalar] at h

theorem div_scalarOnly : ScalarOnly div := by
  refine ⟨.error (.error (.typeError "div: incompatible types")), fun x y h => ?_⟩
  cases x <;> first | rfl | cases y <;> first | rfl | simp [scalar] at h

theorem mod_scalarOnly : ScalarOnly mod := by
  refine ⟨.error (.error (.typeError "mod: incompatible types")), fun x y h => ?_⟩
  cases x <;> first | rfl | cases y <;> first | rfl | simp [scalar] at h

theorem compareWith_scalarOnly (ints : Int64 → Int64 → Bool) (floats : Float → Float → Bool)
    (strs : String → String → Bool) : ScalarOnly (compareWith ints floats strs) := by
  refine ⟨.bool false, fun x y h => ?_⟩
  cases x <;> first | rfl | cases y <;> first | rfl | simp [scalar] at h

theorem not_toRt (x : VmValue) : x.toRt.not = x.not := by
  cases x with
  | partialApp func capturedArgs remainingArity =>
    simp only [toRt]
    split <;> rfl
  | _ => rfl

theorem neg_toRt (x : VmValue) : x.toRt.neg = x.neg := by
  cases x with
  | partialApp func capturedArgs remainingArity =>
    simp only [toRt]
    split <;> rfl
  | _ => rfl

end Value

/-- The opcodes of two operands. -/
def isBinaryOp : Op → Bool
  | .add | .sub | .mul | .div | .mod | .eq | .ne | .lt | .le | .gt | .ge => true
  | _ => false

/-- Conversion does not change what an operator other than an equality computes. -/
theorem binaryOp_toRt {op : Op} (hbinary : isBinaryOp op = true) (hne : op ≠ .eq ∧ op ≠ .ne)
    (x y : VmValue) : binaryOp op x.toRt y.toRt = binaryOp op x y := by
  cases op <;> simp only [isBinaryOp, Bool.false_eq_true] at hbinary
  case add => exact Value.add_scalarOnly.toRt x y
  case sub => exact Value.sub_scalarOnly.toRt x y
  case mul => exact Value.mul_scalarOnly.toRt x y
  case div => exact Value.div_scalarOnly.toRt x y
  case mod => exact Value.mod_scalarOnly.toRt x y
  case eq => exact absurd rfl hne.1
  case ne => exact absurd rfl hne.2
  case lt => exact congrArg Except.ok ((Value.compareWith_scalarOnly _ _ _).toRt x y)
  case le => exact congrArg Except.ok ((Value.compareWith_scalarOnly _ _ _).toRt x y)
  case gt => exact congrArg Except.ok ((Value.compareWith_scalarOnly _ _ _).toRt x y)
  case ge => exact congrArg Except.ok ((Value.compareWith_scalarOnly _ _ _).toRt x y)

/-- An operator of the inline evaluator gives a scalar. -/
theorem simpleBinaryOp_scalar {op : Op} {x y v : VmValue} (h : simpleBinaryOp op x y = .ok v) :
    v.scalar = true := by
  unfold simpleBinaryOp at h
  split at h
  all_goals first
    | unfold Value.add at h
    | unfold Value.sub at h
    | unfold Value.mul at h
    | unfold Value.div at h
    | unfold Value.simpleMod at h
    | unfold Value.simpleCompare Value.compareWith at h
    | unfold Value.not at h
    | unfold Value.neg at h
    | skip
  all_goals repeat' split at h
  all_goals cases h
  all_goals rfl

/-- Two strings in the relation. -/
def stringsIn (strs : String → String → Bool) : VmValue → VmValue → Bool
  | .str s, .str t => strs s t
  | _, _ => false

/-- The operands on which the two evaluators compute the same: not the least integer's remainder
by minus one, not two strings in an order that holds, not two values that the two equalities
judge differently. -/
def sameOperator : Op → VmValue → VmValue → Bool
  | .mod, .int x, .int y => !(x == Int64.minValue && y == -1)
  | .eq, x, y | .ne, x, y => x.valueEq y == x.toRt.rtValuesEqual y.toRt
  | .lt, x, y => !stringsIn (fun s t => decide (s < t)) x y
  | .le, x, y => !stringsIn (fun s t => !decide (t < s)) x y
  | .gt, x, y => !stringsIn (fun s t => decide (t < s)) x y
  | .ge, x, y => !stringsIn (fun s t => !decide (s < t)) x y
  | _, _, _ => true

/-- Where both remainders are the same. -/
theorem mod_eq_simpleMod_iff (x y : VmValue) :
    x.mod y = x.simpleMod y ↔ sameOperator .mod x y = true := by
  cases x
  case int x =>
    cases y
    case int y =>
      simp only [Value.mod, Value.simpleMod, sameOperator]
      by_cases hzero : y = 0
      · simp [hzero]
      · by_cases hmin : x = Int64.minValue ∧ y = -1
        · simp [hmin]
        · simpa [hzero, hmin] using not_and_or.mp hmin
    all_goals exact iff_of_true rfl rfl
  all_goals exact iff_of_true rfl rfl

/-- Where both comparisons are the same. -/
theorem compareWith_eq_simpleCompare_iff (ints : Int64 → Int64 → Bool)
    (floats : Float → Float → Bool) (strs : String → String → Bool) (x y : VmValue) :
    (.ok (Value.compareWith ints floats strs x y) : Except Fault VmValue) =
        .ok (Value.simpleCompare ints floats x y) ↔ (!stringsIn strs x y) = true := by
  cases x
  case str s =>
    cases y
    case str t => simp [Value.compareWith, Value.simpleCompare, stringsIn]
    all_goals exact iff_of_true rfl rfl
  case int | float => cases y <;> exact iff_of_true rfl rfl
  all_goals exact iff_of_true rfl rfl

theorem equality_iff (a b : Bool) : (.ok (.bool a) : Except Fault VmValue) = .ok (.bool b) ↔
    (b == a) = true := by
  constructor
  · intro h
    cases h
    exact beq_self_eq_true a
  · intro h
    rw [beq_iff_eq.mp h]

/-- An operator is the same in both just where the table says so. -/
theorem sameOperator_iff {op : Op} (hbinary : isBinaryOp op = true) (x y : VmValue) :
    binaryOp op x.toRt y.toRt = simpleBinaryOp op x y ↔ sameOperator op x y = true := by
  by_cases hequality : op = .eq ∨ op = .ne
  · rcases hequality with rfl | rfl
    · exact equality_iff _ _
    · exact (equality_iff _ _).trans (by simp only [sameOperator]; simp)
  · rw [not_or] at hequality
    rw [binaryOp_toRt hbinary hequality]
    cases op <;> simp only [isBinaryOp, Bool.false_eq_true] at hbinary
    case add | sub | mul | div => exact iff_of_true rfl rfl
    case eq => exact absurd rfl hequality.1
    case ne => exact absurd rfl hequality.2
    case mod => exact mod_eq_simpleMod_iff x y
    case lt => exact compareWith_eq_simpleCompare_iff _ _ _ x y
    case le => exact compareWith_eq_simpleCompare_iff _ _ _ x y
    case gt => exact compareWith_eq_simpleCompare_iff _ _ _ x y
    case ge => exact compareWith_eq_simpleCompare_iff _ _ _ x y

/-- The instruction does the same in both evaluators. `moved` are the registers that
`Op::MarkMoved` has named so far, which `eval_simple` does not record. -/
def clear (func : BytecodeFunc) (moved : List Bool) (regs : List VmValue) (instr : Instruction) :
    Bool :=
  match instr.op with
  | .release => false
  | .checkNotMoved => moved[instr.a]? != some true
  | .callBuiltin =>
    match func.constants[instr.a]? with
    | some (.str name) =>
      name != "thread-spawn" && name != "fn-metadata" &&
        (match builtinArity name with
        | some expected => decide (expected ≤ instr.b)
        | none => true)
    | _ => true
  | op =>
    match regs[instr.a]?, regs[instr.b]? with
    | some x, some y => !isBinaryOp op || sameOperator op x y
    | _, _ => true

/-- What the main loop records of moves at an instruction. -/
def markMoved (moved : List Bool) (instr : Instruction) : List Bool :=
  match instr.op with
  | .markMoved => moved.set instr.a true
  | _ => moved

/-- Every instruction that `eval_simple` comes to is clear. -/
def clearRun (b : Builtins String World) (func : BytecodeFunc) :
    List Instruction → List Bool → List VmValue → World → Bool
  | [], _, _, _ => true
  | instr :: instrs, moved, regs, world =>
    clear func moved regs instr &&
      match simpleStep b func instr regs world with
      | (.ok (.running regs), world) => clearRun b func instrs (markMoved moved instr) regs world
      | _ => true

/-- Every instruction that `eval_simple` comes to on these arguments is clear. -/
def runsClear (b : Builtins String World) (func : BytecodeFunc) (args : List VmValue)
    (world : World) : Bool :=
  clearRun b func func.instructions (List.replicate func.registerCount false)
    (fillRegisters (List.replicate func.registerCount .nil) args) world

/-- The banks differ in the representation of their values alone. -/
theorem simpleRead_toRt (regs : List VmValue) (r : Nat) :
    simpleRead (regs.map Value.toRt) r = (simpleRead regs r).map Value.toRt := by
  unfold simpleRead
  rw [List.getElem?_map]
  cases regs[r]? <;> rfl

theorem simpleWindow_toRt (regs : List VmValue) (start count : Nat) :
    simpleWindow (regs.map Value.toRt) start count =
      (simpleWindow regs start count).map (List.map Value.toRt) := by
  induction count generalizing start with
  | zero => rfl
  | succ count ih =>
    simp only [simpleWindow, simpleRead_toRt, ih]
    cases simpleRead regs start with
    | error f => rfl
    | ok v => cases simpleWindow regs (start + 1) count <;> rfl

/-- The frame is where the inline evaluator is: at the same instruction, with its registers
converted. -/
structure Beside (func : BytecodeFunc) (ip : Nat) (moved : List Bool) (regs : List VmValue)
    (fr : Frame) : Prop where
  mirrors : Mirrors func (regs.map Value.toRt) fr
  ip : fr.ip = ip
  moved : fr.moved = moved

/-- A pass of the main loop does what an instruction of `eval_simple` does. -/
def Follows (func : BytecodeFunc) (ip depth : Nat) (moved : List Bool)
    (next : Except Fault (Next World)) (r : Except Fault SimpleNext × World) : Prop :=
  match r with
  | (.ok (.running regs), world) =>
    ∃ fr, next = .ok (.running ⟨[fr], depth, world⟩) ∧ Beside func ip moved regs fr
  | (.ok (.finished v), world) => next = .ok (.finished v.toRt world)
  | (.error f, _) => next = .error f

section Beside

variable {m : Machine World} {func : BytecodeFunc} {ip : Nat} {moved : List Bool}
  {regs : List VmValue} {fr : Frame}

variable (depth : Nat) (world : World) in
/-- Both store the same result up to representation. -/
theorem Follows.put (h : Beside func ip moved regs fr) {r c : Except Fault VmValue}
    (hr : r = c.map Value.toRt) (dst : Nat) :
    Follows func ip depth moved
      (r.bind fun v => (fr.write dst v).bind fun fr => .ok (.running ⟨[fr], depth, world⟩))
      (c.bind fun v => (simpleWrite regs dst v).bind fun regs => .ok (.running regs), world) := by
  subst hr
  cases c with
  | error f => rfl
  | ok v =>
    simp only [Except.map, Except.bind, Frame.write, Frame.setPointer, simpleWrite,
      h.mirrors.registers, List.length_map]
    by_cases hdst : dst < regs.length
    · simp only [if_pos hdst]
      exact ⟨_, rfl, ⟨h.mirrors.code, by simp [List.map_set]⟩, h.ip, h.moved⟩
    · simp only [if_neg hdst]
      rfl

theorem Beside.read (h : Beside func ip moved regs fr) (r : Nat) :
    fr.read r = (simpleRead regs r).map Value.toRt := by
  rw [h.mirrors.read, simpleRead_toRt]

theorem Beside.pointer (h : Beside func ip moved regs fr) (r : Nat) :
    fr.pointer r = (simpleRead regs r).map fun v => some v.toRt := by
  rw [h.mirrors.pointer, simpleRead_toRt]
  cases simpleRead regs r <;> rfl

theorem Beside.window (h : Beside func ip moved regs fr) (start count : Nat) :
    fr.window start count =
      (simpleWindow regs start count).map fun vs => (vs.map Value.toRt).map some := by
  rw [h.mirrors.window, simpleWindow_toRt]
  cases simpleWindow regs start count <;> rfl

theorem simpleRead_eq_some {r : Nat} {v : VmValue} (h : simpleRead regs r = .ok v) :
    regs[r]? = some v := by
  unfold simpleRead at h
  split at h
  · next heq => exact heq.trans (congrArg some (Except.ok.inj h))
  · cases h

theorem simpleWindow_length {start count : Nat} {vs : List VmValue}
    (h : simpleWindow regs start count = .ok vs) : vs.length = count := by
  induction count generalizing start vs with
  | zero =>
    cases h
    rfl
  | succ count ih =>
    simp only [simpleWindow] at h
    cases hread : simpleRead regs start with
    | error f => simp [hread, bind, Except.bind] at h
    | ok v =>
      cases hrest : simpleWindow regs (start + 1) count with
      | error f => simp [hread, hrest, bind, Except.bind] at h
      | ok rest =>
        simp only [hread, hrest, bind, Except.bind] at h
        cases h
        simp [ih hrest]

theorem builtinPartial_eq_none {name : String} {args : List VmValue}
    (h : ∀ expected, builtinArity name = some expected → expected ≤ args.length) :
    builtinPartial name args = none := by
  unfold builtinPartial
  split
  · next expected hexpected => exact if_neg (Nat.not_lt.mpr (h expected hexpected))
  · rfl

variable (depth : Nat) (world : World)

/-- An operator on two registers, where the check lets it pass. -/
theorem exec_binary_follows (h : Beside func ip moved regs fr) {op : Op} {dst a b : Nat}
    (hbinary : isBinaryOp op = true) (hclear : clear func moved regs ⟨op, dst, a, b⟩ = true) :
    Follows func ip depth moved
      ((fr.read a).bind fun x => (fr.read b).bind fun y => (binaryOp op x y).bind fun v =>
        (fr.write dst v).bind fun fr => .ok (.running ⟨[fr], depth, world⟩))
      ((simpleRead regs a).bind fun x => (simpleRead regs b).bind fun y =>
        (simpleBinaryOp op x y).bind fun v => (simpleWrite regs dst v).bind fun regs =>
          .ok (.running regs), world) := by
  rw [h.read, h.read]
  cases hx : simpleRead regs a with
  | error f => rfl
  | ok x =>
    cases hy : simpleRead regs b with
    | error f => rfl
    | ok y =>
      have hsame : sameOperator op x y = true := by
        cases op <;> simp only [isBinaryOp, Bool.false_eq_true] at hbinary <;>
          simpa [clear, simpleRead_eq_some hx, simpleRead_eq_some hy, isBinaryOp] using hclear
      refine Follows.put depth world h ?_ dst
      rw [(sameOperator_iff hbinary x y).mpr hsame]
      cases hv : simpleBinaryOp op x y with
      | error f => rfl
      | ok v => exact congrArg Except.ok (Value.toRt_of_scalar (simpleBinaryOp_scalar hv)).symm

/-- An operator on one register. -/
theorem exec_unary_follows (h : Beside func ip moved regs fr) {op : Op} {dst a : Nat}
    (hunary : op = .not ∨ op = .neg) :
    Follows func ip depth moved
      ((fr.read a).bind fun x => (binaryOp op x x).bind fun v =>
        (fr.write dst v).bind fun fr => .ok (.running ⟨[fr], depth, world⟩))
      ((simpleRead regs a).bind fun x => (simpleBinaryOp op x x).bind fun v =>
        (simpleWrite regs dst v).bind fun regs => .ok (.running regs), world) := by
  rw [h.read]
  cases hx : simpleRead regs a with
  | error f => rfl
  | ok x =>
    refine Follows.put depth world h ?_ dst
    have hsame : binaryOp op x.toRt x.toRt = simpleBinaryOp op x x := by
      rcases hunary with rfl | rfl
      · exact x.not_toRt
      · exact x.neg_toRt
    rw [hsame]
    cases hv : simpleBinaryOp op x x with
    | error f => rfl
    | ok v => exact congrArg Except.ok (Value.toRt_of_scalar (simpleBinaryOp_scalar hv)).symm

theorem answer_eq (r : Except Fault VmValue × World) (dst : Nat) :
    Machine.answer r dst fr [] depth =
      ((r.1.map Value.toRt).bind fun v => (fr.write dst v).bind fun fr =>
        .ok (.running ⟨[fr], depth, r.2⟩)) := by
  obtain ⟨f | v, world⟩ := r <;> rfl

variable (m) in
/-- A builtin is called with the same arguments. -/
theorem exec_callBuiltin_follows (h : Beside func ip moved regs fr) {dst a b : Nat}
    (hclear : clear func moved regs ⟨.callBuiltin, dst, a, b⟩ = true) :
    Follows func ip depth moved (m.exec ⟨.callBuiltin, dst, a, b⟩ fr [] depth world)
      (simpleStep m.builtins func ⟨.callBuiltin, dst, a, b⟩ regs world) := by
  simp only [clear] at hclear
  simp only [Machine.exec, simpleStep, Frame.stringConstant, h.mirrors.code, h.window]
  cases hname : func.constants[a]? with
  | none => rfl
  | some c =>
    cases c
    case str name =>
      simp only [hname, Bool.and_eq_true, bne_iff_ne] at hclear
      obtain ⟨⟨hspawn, hmetadata⟩, harity⟩ := hclear
      cases hargs : simpleWindow regs (dst + 1) b with
      | error f => rfl
      | ok args =>
        have hcount := simpleWindow_length hargs
        have hpartial : builtinPartial name (args.map Value.toRt) = none :=
          builtinPartial_eq_none fun expected hexpected => by
            rw [List.length_map, hcount]
            simpa [hexpected] using harity
        simp only [Except.map, bind, Except.bind, Machine.map_orNil_some, hpartial,
          Machine.derefAll_some, Machine.dispatchNamed, if_neg hspawn, if_neg hmetadata]
        by_cases hknown : m.builtins.known name = true
        · simp only [if_pos hknown, answer_eq]
          exact Follows.put depth _ h rfl dst
        · simp only [if_neg hknown]
          rfl
    all_goals rfl

variable (m) in
/-- Every instruction that is simple and clear is followed. -/
theorem exec_follows (h : Beside func ip moved regs fr) {instr : Instruction}
    (hsimple : isSimpleOp instr.op = true) (hclear : clear func moved regs instr = true) :
    Follows func ip depth (markMoved moved instr) (m.exec instr fr [] depth world)
      (simpleStep m.builtins func instr regs world) := by
  obtain ⟨op, dst, a, b⟩ := instr
  have hbinary := fun hop => exec_binary_follows depth world h hop hclear
  cases op <;> simp only [isSimpleOp, Bool.false_eq_true] at hsimple
  case loadNil => exact Follows.put depth world h (c := .ok .nil) rfl dst
  case loadTrue => exact Follows.put depth world h (c := .ok (.bool true)) rfl dst
  case loadFalse => exact Follows.put depth world h (c := .ok (.bool false)) rfl dst
  case loadConst =>
    simp only [Machine.exec, simpleStep, Frame.constant, h.mirrors.code]
    cases func.constants[a]? with
    | none => rfl
    | some v => exact Follows.put depth world h (c := .ok v) rfl dst
  case add | sub | mul | div | mod | eq | ne | lt | le | gt | ge => exact hbinary rfl
  case not => exact exec_unary_follows depth world h (Or.inl rfl)
  case neg => exact exec_unary_follows depth world h (Or.inr rfl)
  case move =>
    simp only [Machine.exec, simpleStep, h.pointer]
    cases simpleRead regs a with
    | error f => rfl
    | ok x => exact Follows.put depth world h (c := .ok x) rfl dst
  case makeList =>
    simp only [Machine.exec, simpleStep, h.window]
    cases simpleWindow regs a b with
    | error f => rfl
    | ok vals =>
      simp only [Except.map, bind, Except.bind, Machine.derefAll_some]
      exact Follows.put depth world h (r := .ok (.list (vals.map Value.toRt)))
        (c := .ok (.list vals)) (by simp [Except.map, Value.toRt, Value.toRtList_eq_map]) dst
  case ret =>
    simp only [Machine.exec, simpleStep, h.pointer]
    cases simpleRead regs a with
    | error f => rfl
    | ok x => rfl
  case callBuiltin => exact exec_callBuiltin_follows m depth world h hclear
  case markMoved =>
    exact ⟨_, rfl, ⟨h.mirrors.code, h.mirrors.registers⟩, h.ip, by simp [markMoved, h.moved]⟩
  case checkNotMoved =>
    have hmoved : ¬ fr.moved[a]? = some true := by
      rw [h.moved]
      simpa [clear] using hclear
    simp only [Machine.exec, if_neg hmoved]
    exact ⟨fr, rfl, h⟩
  case release => simp [clear] at hclear

end Beside

/-- The result of `eval_simple` as its caller stores it. -/
def stored (r : Except Fault VmValue × World) : RunResult World :=
  match r with
  | (.ok v, world) => .ok (v.toRt, world)
  | (.error f, _) => .error f

/-- So is all code that is. -/
theorem simpleLoop_followed {m : Machine World} {func : BytecodeFunc} {ip : Nat} {moved : List Bool}
    {regs : List VmValue} {fr : Frame} {instrs : List Instruction} {world : World} (depth : Nat)
    (h : Beside func ip moved regs fr) (hsimple : Simple func.instructions)
    (hrest : func.instructions.drop ip = instrs)
    (hclear : clearRun m.builtins func instrs moved regs world = true) :
    (m.host false).Yields ⟨[fr], depth, world⟩
      (stored (simpleLoop m.builtins func instrs regs world)) := by
  have hhalts : ∀ {o}, m.halts ⟨[fr], depth, world⟩ o →
      (m.host false).Yields ⟨[fr], depth, world⟩ o := fun hhalt => ⟨_, .refl, hhalt, by simp⟩
  induction instrs generalizing ip moved regs fr world with
  | nil =>
    refine hhalts ?_
    have hend : fr.func.instructions[fr.ip]? = none := by
      rw [h.mirrors.code, h.ip]
      exact List.getElem?_eq_none (List.drop_eq_nil_iff.mp hrest)
    simp only [Machine.halts, Machine.step, hend]
    rfl
  | cons instr instrs ih =>
    simp only [clearRun, Bool.and_eq_true] at hclear
    have hinstr : fr.func.instructions[fr.ip]? = some instr := by
      have h0 := congrArg (fun l => l[0]?) hrest
      rw [h.mirrors.code, h.ip]
      simpa using h0
    have hnext : Beside func (ip + 1) moved regs { fr with ip := fr.ip + 1 } :=
      ⟨⟨h.mirrors.code, h.mirrors.registers⟩, congrArg (· + 1) h.ip, h.moved⟩
    have hmem : instr ∈ func.instructions := List.mem_of_mem_drop (hrest ▸ List.mem_cons_self)
    have hfollows := exec_follows m depth world hnext (hsimple instr hmem) hclear.1
    rw [← Machine.step_eq hinstr] at hfollows
    have hclear' := hclear.2
    simp only [simpleLoop]
    generalize simpleStep m.builtins func instr regs world = r at hfollows hclear' ⊢
    obtain ⟨f | ⟨regs' | v⟩, world'⟩ := r
    · have hstep : m.step ⟨[fr], depth, world⟩ = .error f := hfollows
      refine hhalts ?_
      simp only [Machine.halts, hstep]
      rfl
    · obtain ⟨fr', hstep, hbeside⟩ := hfollows
      have hyields := ih hbeside (drop_succ_of_cons hrest) hclear'
        fun hhalt => ⟨_, .refl, hhalt, by simp⟩
      exact hyields.of_reaches (.single ⟨hstep, by simp⟩)
    · have hstep : m.step ⟨[fr], depth, world⟩ = .ok (.finished v.toRt world') := hfollows
      refine hhalts ?_
      simp only [Machine.halts, hstep]
      rfl

/-- The machine with one function. -/
def machineOf (func : BytecodeFunc) : Machine Unit := ⟨[func], atBuiltins, 100⟩

/-- `(fn [a b] (< a b))`. -/
def less : BytecodeFunc where
  name := "less"
  arity := 2
  registerCount := 5
  captureCount := 0
  instructions := [⟨.move, 3, 0, 0⟩, ⟨.move, 4, 1, 0⟩, ⟨.lt, 2, 3, 4⟩, ⟨.ret, 0, 2, 0⟩]
  constants := []

end Airl
