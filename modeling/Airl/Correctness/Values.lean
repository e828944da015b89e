import Airl.Bytecode.CompilerSpec

/-! # Reference values and machine values

A reference closure keeps its lambda and its whole environment, a machine
closure a compiled function and the values it captures. The relation between
the two follows the values everywhere else, and every operation of the machine
respects it.
-/

namespace Airl

variable {World : Type}

/-- Every position in the function fits an `i32`, as a jump needs it. -/
def BytecodeFunc.Short (func : BytecodeFunc) : Prop := func.instructions.length < 2147483648

instance (func : BytecodeFunc) : Decidable func.Short := inferInstanceAs (Decidable (_ < _))

def Machine.Short (m : Machine World) : Prop := ∀ func ∈ m.functions, func.Short

/-- The function is the compiled form of an activation, and the machine finds
every lambda in it. -/
structure Compiled (m : Machine World) (name : String) (params : List String)
    (contracts : Contracts) (body : IRNode) (func : BytecodeFunc) : Prop where
  code : ∃ (base : Compiler) (fnNameIdx : Nat),
    let inner := Compiler.bindParams params 0 base
    let e := compileActivation name fnNameIdx contracts body inner
    Ready base ∧ base.locals = (fun _ => none) ∧ base.nextReg = 0 ∧ base.maxReg = 0 ∧
      base.lambdaPrefix = "" ∧
      (contracts.requires ++ contracts.invariants ++ contracts.ensures ≠ [] →
        base.constants[fnNameIdx]? = some (.str name)) ∧
      func.instructions = e.code ∧ func.constants = e.state.constants ∧
      func.registerCount = e.state.maxReg ∧ e.state.longJump = false ∧
      ∀ f ∈ e.state.compiledLambdas, m.lookup f.name = some f
  arity : func.arity = params.length
  short : func.Short
  shorts : m.Short

mutual

inductive ValueRel (m : Machine World) : RefValue → VmValue → Prop
  | int (n : Int64) : ValueRel m (.int n) (.int n)
  | float (bits : UInt64) : ValueRel m (.float bits) (.float bits)
  | bool (b : Bool) : ValueRel m (.bool b) (.bool b)
  | str (s : String) : ValueRel m (.str s) (.str s)
  | nil : ValueRel m .nil .nil
  | unit : ValueRel m .unit .unit
  | bytes (data : List UInt8) : ValueRel m (.bytes data) (.bytes data)
  | list {xs ys} (h : ValuesRel m xs ys) : ValueRel m (.list xs) (.list ys)
  | variant (tag : String) {x y} (h : ValueRel m x y) : ValueRel m (.variant tag x) (.variant tag y)
  | map {xs ys} (h : EntriesRel m xs ys) : ValueRel m (.map xs) (.map ys)
  | native (copy : Nat) (name : String) (arity regCount captureCount : Nat)
      (constants : List RtValue) (instructions : List BcInstr) :
      ValueRel m (.bcFuncNative copy name arity regCount captureCount constants instructions)
        (.bcFuncNative copy name arity regCount captureCount constants instructions)
  | closure {code captured k caps func vals}
      (hlookup : m.lookup (lambdaName "" k) = some func)
      (hcompiled :
        Compiled m (lambdaName "" k) (code.captureNames ++ code.params) {} code.body func)
      (hcaptures : func.captureCount = code.captureNames.length)
      (hvals : code.captureNames.map (fun x => (code.env captured).lookup x) = vals.map some)
      (hcaps : ValuesRel m vals caps) :
      ValueRel m (.bytecodeClosure code captured) (.bytecodeClosure (lambdaName "" k) caps)
  | partialNamed (name : String) {args args'} (remaining : Nat) (h : ValuesRel m args args') :
      ValueRel m (.partialApp (.irFuncRef name) args remaining)
        (.partialApp (.builtinFn name) args' remaining)
  | partialBuiltin (name : String) {args args'} (remaining : Nat) (h : ValuesRel m args args') :
      ValueRel m (.partialApp (.builtinFn name) args remaining)
        (.partialApp (.builtinFn name) args' remaining)
  | partialClosure {code captured name caps args args'} (remaining : Nat)
      (hclosure : ValueRel m (.bytecodeClosure code captured) (.bytecodeClosure name caps))
      (h : ValuesRel m args args') :
      ValueRel m (.partialApp (.bytecodeClosure code captured) args remaining)
        (.partialApp (.builtinFn name) (caps ++ args') remaining)

inductive ValuesRel (m : Machine World) : List RefValue → List VmValue → Prop
  | nil : ValuesRel m [] []
  | cons {x y xs ys} (h : ValueRel m x y) (hs : ValuesRel m xs ys) :
      ValuesRel m (x :: xs) (y :: ys)

inductive EntriesRel (m : Machine World) :
    List (String × RefValue) → List (String × VmValue) → Prop
  | nil : EntriesRel m [] []
  | cons (key : String) {x y xs ys} (h : ValueRel m x y) (hs : EntriesRel m xs ys) :
      EntriesRel m ((key, x) :: xs) ((key, y) :: ys)

end

variable {m : Machine World}

namespace ValuesRel

variable {xs xs₂ : List RefValue} {ys ys₂ : List VmValue}

/-- Related lists are of one length. -/
theorem length_eq (h : ValuesRel m xs ys) : xs.length = ys.length := by
  induction xs generalizing ys with
  | nil => cases h; rfl
  | cons x xs ih =>
    cases h with
    | cons _ hs => simp [ih hs]

theorem append (h : ValuesRel m xs ys) (h₂ : ValuesRel m xs₂ ys₂) :
    ValuesRel m (xs ++ xs₂) (ys ++ ys₂) := by
  induction xs generalizing ys with
  | nil => cases h; exact h₂
  | cons x xs ih =>
    cases h with
    | cons hx hs => exact .cons hx (ih hs)

/-- And related element by element. -/
theorem getElem? (h : ValuesRel m xs ys) {i : Nat} {y : VmValue} (hy : ys[i]? = some y) :
    ∃ x, xs[i]? = some x ∧ ValueRel m x y := by
  induction xs generalizing ys i with
  | nil => cases h; simp at hy
  | cons x xs ih =>
    cases h with
    | cons hx hs =>
      cases i with
      | zero =>
        simp only [List.getElem?_cons_zero, Option.some.injEq] at hy
        exact ⟨x, rfl, hy ▸ hx⟩
      | succ i => exact ih hs hy

theorem getElem?_left (h : ValuesRel m xs ys) {i : Nat} {x : RefValue} (hx : xs[i]? = some x) :
    ∃ y, ys[i]? = some y ∧ ValueRel m x y := by
  have hlt : i < ys.length := by
    rw [← h.length_eq]
    exact (List.getElem?_eq_some_iff.mp hx).1
  obtain ⟨x', hx', hrel⟩ := h.getElem? (List.getElem?_eq_getElem hlt)
  obtain rfl : x' = x := Option.some.inj (hx'.symm.trans hx)
  exact ⟨_, List.getElem?_eq_getElem hlt, hrel⟩

end ValuesRel

mutual

/-- A related machine value is what a register holds: storing it changes nothing. -/
theorem ValueRel.toRt_eq {v : RefValue} {v' : VmValue} : ValueRel m v v' → v'.toRt = v'
  | .int _ => by simp [Value.toRt]
  | .float _ => by simp [Value.toRt]
  | .bool _ => by simp [Value.toRt]
  | .str _ => by simp [Value.toRt]
  | .nil => by simp [Value.toRt]
  | .unit => by simp [Value.toRt]
  | .bytes _ => by simp [Value.toRt]
  | .native _ _ _ _ _ _ _ => by simp [Value.toRt]
  | .list h => by rw [Value.toRt, h.toRtList_eq]
  | .variant _ h => by rw [Value.toRt, h.toRt_eq]
  | .map h => by rw [Value.toRt, h.toRtEntries_eq]
  | .closure _ _ _ _ h => by rw [Value.toRt, h.toRtList_eq]
  | .partialNamed _ _ h => by simp [Value.toRt, Value.partialName, h.toRtList_eq]
  | .partialBuiltin _ _ h => by simp [Value.toRt, Value.partialName, h.toRtList_eq]
  | .partialClosure _ hclosure h => by
    have hcaps := hclosure.toRt_eq
    have hargs := h.toRtList_eq
    simp only [Value.toRt, Value.bytecodeClosure.injEq, true_and] at hcaps
    rw [Value.toRtList_eq_map] at hcaps hargs
    simp [Value.toRt, Value.partialName, Value.toRtList_eq_map, hcaps, hargs]

theorem ValuesRel.toRtList_eq {xs : List RefValue} {ys : List VmValue} :
    ValuesRel m xs ys → Value.toRtList ys = ys
  | .nil => by simp [Value.toRtList]
  | .cons h hs => by rw [Value.toRtList, h.toRt_eq, hs.toRtList_eq]

theorem EntriesRel.toRtEntries_eq {xs : List (String × RefValue)} {ys : List (String × VmValue)} :
    EntriesRel m xs ys → Value.toRtEntries ys = ys
  | .nil => by simp [Value.toRtEntries]
  | .cons _ h hs => by rw [Value.toRtEntries, h.toRt_eq, hs.toRtEntries_eq]

end

theorem ValuesRel.map_toRt {xs : List RefValue} {ys : List VmValue} (h : ValuesRel m xs ys) :
    ys.map Value.toRt = ys := by
  rw [← Value.toRtList_eq_map, h.toRtList_eq]

theorem ValuesRel.map_some_toRt {xs : List RefValue} {ys : List VmValue} (h : ValuesRel m xs ys) :
    ys.map (fun v => some v.toRt) = ys.map some := by
  conv_rhs => rw [← h.map_toRt]
  rw [List.map_map]
  rfl

mutual

/-- The equality of represented values does not tell related values apart. -/
theorem ValueRel.rtValuesEqual_left {Code : Type} {x : RefValue} {x' : VmValue} :
    ValueRel m x x' → ∀ y : Value Code, x.rtValuesEqual y = x'.rtValuesEqual y
  | .int _, y => by cases y <;> simp [Value.rtValuesEqual]
  | .float _, y => by cases y <;> simp [Value.rtValuesEqual]
  | .bool _, y => by cases y <;> simp [Value.rtValuesEqual]
  | .str _, y => by cases y <;> simp [Value.rtValuesEqual]
  | .nil, y => by cases y <;> simp [Value.rtValuesEqual]
  | .unit, y => by cases y <;> simp [Value.rtValuesEqual]
  | .bytes _, y => by cases y <;> simp [Value.rtValuesEqual]
  | .native _ _ _ _ _ _ _, y => by cases y <;> simp [Value.rtValuesEqual]
  | .list h, y => by
    cases y with
    | list ys => simpa only [Value.rtValuesEqual] using h.rtValuesEqual_left ys
    | _ => simp [Value.rtValuesEqual]
  | .variant _ h, y => by
    cases y with
    | variant tag y => simp only [Value.rtValuesEqual, h.rtValuesEqual_left y]
    | _ => simp [Value.rtValuesEqual]
  | .map _, y => by cases y <;> simp [Value.rtValuesEqual]
  | .closure _ _ _ _ _, y => by cases y <;> simp [Value.rtValuesEqual]
  | .partialNamed _ _ _, y => by cases y <;> simp [Value.rtValuesEqual]
  | .partialBuiltin _ _ _, y => by cases y <;> simp [Value.rtValuesEqual]
  | .partialClosure _ _ _, y => by cases y <;> simp [Value.rtValuesEqual]

theorem ValuesRel.rtValuesEqual_left {Code : Type} {xs : List RefValue} {xs' : List VmValue} :
    ValuesRel m xs xs' →
      ∀ ys : List (Value Code), Value.rtValuesEqualList xs ys = Value.rtValuesEqualList xs' ys
  | .nil, ys => by cases ys <;> simp [Value.rtValuesEqualList]
  | .cons h hs, ys => by
    cases ys with
    | nil => simp [Value.rtValuesEqualList]
    | cons y ys =>
      simp only [Value.rtValuesEqualList, h.rtValuesEqual_left y, hs.rtValuesEqual_left ys]

end

mutual

/-- That equality is symmetric. -/
theorem Value.rtValuesEqual_comm {Code Code' : Type} : ∀ (x : Value Code) (y : Value Code'),
    x.rtValuesEqual y = y.rtValuesEqual x
  | .list xs, y => by
    cases y with
    | list ys => simp only [Value.rtValuesEqual, rtValuesEqualList_comm xs ys]
    | _ => simp [Value.rtValuesEqual]
  | .variant ta a, y => by
    cases y with
    | variant tb b => simp only [Value.rtValuesEqual, rtValuesEqual_comm a b, Bool.beq_comm]
    | _ => simp [Value.rtValuesEqual]
  | .int _, y => by cases y <;> simp [Value.rtValuesEqual, Bool.beq_comm]
  | .float _, y => by cases y <;> simp [Value.rtValuesEqual, Bool.beq_comm]
  | .bool _, y => by cases y <;> simp [Value.rtValuesEqual, Bool.beq_comm]
  | .str _, y => by cases y <;> simp [Value.rtValuesEqual, Bool.beq_comm]
  | .builtinFn _, y => by cases y <;> simp [Value.rtValuesEqual]
  | .irFuncRef _, y => by cases y <;> simp [Value.rtValuesEqual]
  | .bytes _, y => by cases y <;> simp [Value.rtValuesEqual, Bool.beq_comm]
  | .map _, y => by cases y <;> simp [Value.rtValuesEqual]
  | .tuple _, y => by cases y <;> simp [Value.rtValuesEqual]
  | .intList _, y => by cases y <;> simp [Value.rtValuesEqual]
  | .nil, y => by cases y <;> simp [Value.rtValuesEqual]
  | .unit, y => by cases y <;> simp [Value.rtValuesEqual]
  | .bytecodeClosure _ _, y => by cases y <;> simp [Value.rtValuesEqual]
  | .partialApp _ _ _, y => by cases y <;> simp [Value.rtValuesEqual]
  | .bcFuncNative _ _ _ _ _ constants _, y => by
    cases y with
    | bcFuncNative _ _ _ _ _ constants' _ =>
      simp only [Value.rtValuesEqual, RtValue.valuesEqualList_comm constants constants',
        RtValue.sameList_comm constants constants', Bool.beq_comm]
    | _ => simp [Value.rtValuesEqual]

theorem Value.rtValuesEqualList_comm {Code Code' : Type} :
    ∀ (xs : List (Value Code)) (ys : List (Value Code')),
      Value.rtValuesEqualList xs ys = Value.rtValuesEqualList ys xs
  | [], [] => rfl
  | [], _ :: _ => rfl
  | _ :: _, [] => rfl
  | x :: xs, y :: ys => by
    simp only [Value.rtValuesEqualList, rtValuesEqual_comm x y, rtValuesEqualList_comm xs ys]

end

/-- It respects relatedness on both sides. -/
theorem ValueRel.rtValuesEqual_eq {x y : RefValue} {x' y' : VmValue} (hx : ValueRel m x x')
    (hy : ValueRel m y y') : x.rtValuesEqual y = x'.rtValuesEqual y' := by
  rw [hx.rtValuesEqual_left, Value.rtValuesEqual_comm, hy.rtValuesEqual_left,
    Value.rtValuesEqual_comm]

/-- Equal values are partial applications of one builtin. -/
theorem Value.partialName_eq {a b : VmValue} (h : a.valueEq b = true) :
    a.partialName = b.partialName := by
  cases a <;> cases b <;> simp_all [Value.valueEq, Value.partialName]

/-- A list that equals an integer list consists of its integers. -/
theorem Value.toRtList_of_intListEq : ∀ {xs : List Int64} {ys : List VmValue},
    Value.intListEq xs ys = true → Value.toRtList ys = xs.map .int
  | [], [], _ => rfl
  | [], _ :: _, h => by simp [Value.intListEq] at h
  | _ :: _, [], h => by simp [Value.intListEq] at h
  | x :: xs, y :: ys, h => by
    cases y with
    | int n =>
      simp only [Value.intListEq, Bool.and_eq_true, beq_iff_eq] at h
      simp [Value.toRtList, Value.toRt, h.1, toRtList_of_intListEq h.2]
    | _ => simp [Value.intListEq] at h

mutual

/-- Constants that the pool does not tell apart compare alike once loaded. -/
theorem Value.rtValuesEqual_of_valueEq {Code : Type} : ∀ {a b : VmValue}, a.valueEq b = true →
    ∀ x : Value Code, x.rtValuesEqual a.toRt = x.rtValuesEqual b.toRt
  | .list as, b, h, x => by
    cases b with
    | list bs =>
      simp only [Value.valueEq] at h
      cases x with
      | list xs =>
          simpa only [Value.toRt, Value.rtValuesEqual] using rtValuesEqualList_of_valueEq h xs
      | _ => simp [Value.toRt, Value.rtValuesEqual]
    | intList ys =>
      simp only [Value.valueEq] at h
      simp only [Value.toRt, toRtList_of_intListEq h]
    | _ => simp [Value.valueEq] at h
  | .tuple as, b, h, x => by
    cases b with
    | tuple bs =>
      simp only [Value.valueEq] at h
      cases x with
      | list xs =>
          simpa only [Value.toRt, Value.rtValuesEqual] using rtValuesEqualList_of_valueEq h xs
      | _ => simp [Value.toRt, Value.rtValuesEqual]
    | _ => simp [Value.valueEq] at h
  | .variant tag a, b, h, x => by
    cases b with
    | variant tag' b =>
      simp only [Value.valueEq, Bool.and_eq_true, beq_iff_eq] at h
      cases x with
      | variant tagX x =>
        simp only [Value.toRt, Value.rtValuesEqual, h.1, rtValuesEqual_of_valueEq h.2 x]
      | _ => simp [Value.toRt, Value.rtValuesEqual]
    | _ => simp [Value.valueEq] at h
  | .map as, b, h, x => by
    cases b with
    | map bs => cases x <;> simp [Value.toRt, Value.rtValuesEqual]
    | _ => simp [Value.valueEq] at h
  | .partialApp func args remaining, b, h, x => by
    cases b with
    | partialApp func' args' remaining' =>
      simp only [Value.valueEq, Bool.and_eq_true] at h
      simp only [Value.toRt, ← partialName_eq h.1.2]
      cases func.partialName with
      | none => rfl
      | some name => cases x <;> simp [Value.rtValuesEqual]
    | _ => simp [Value.valueEq] at h
  | .intList xs, b, h, x => by
    cases b with
    | intList ys =>
      simp only [Value.valueEq, beq_iff_eq] at h
      rw [h]
    | list ys =>
      simp only [Value.valueEq] at h
      simp only [Value.toRt, toRtList_of_intListEq h]
    | _ => simp [Value.valueEq] at h
  | .int a, b, h, x => by cases b <;> simp_all [Value.valueEq]
  | .float a, b, h, x => by cases b <;> simp_all [Value.valueEq]
  | .bool a, b, h, x => by cases b <;> simp_all [Value.valueEq]
  | .str a, b, h, x => by cases b <;> simp_all [Value.valueEq]
  | .bytes a, b, h, x => by cases b <;> simp_all [Value.valueEq]
  | .builtinFn a, b, h, x => by cases b <;> simp_all [Value.valueEq]
  | .irFuncRef a, b, h, x => by cases b <;> simp_all [Value.valueEq]
  | .nil, b, h, x => by cases b <;> simp_all [Value.valueEq]
  | .unit, b, h, x => by cases b <;> simp_all [Value.valueEq]
  | .bytecodeClosure _ _, b, h, x => by cases b <;> simp [Value.valueEq] at h
  | .bcFuncNative _ _ _ _ _ _ _, b, h, x => by cases b <;> simp [Value.valueEq] at h

/-- Values that the machine calls equal are not told apart. -/
theorem Value.rtValuesEqualList_of_valueEq {Code : Type} : ∀ {as bs : List VmValue},
    Value.valueEqList as bs = true → ∀ xs : List (Value Code),
      Value.rtValuesEqualList xs (Value.toRtList as) =
        Value.rtValuesEqualList xs (Value.toRtList bs)
  | [], [], _, _ => rfl
  | [], _ :: _, h, _ => by simp [Value.valueEqList] at h
  | _ :: _, [], h, _ => by simp [Value.valueEqList] at h
  | a :: as, b :: bs, h, xs => by
    simp only [Value.valueEqList, Bool.and_eq_true] at h
    cases xs with
    | nil => simp [Value.toRtList, Value.rtValuesEqualList]
    | cons x xs =>
      simp only [Value.toRtList, Value.rtValuesEqualList, rtValuesEqual_of_valueEq h.1 x,
        rtValuesEqualList_of_valueEq h.2 xs]

end

/-- Both computations fail alike, or both succeed with related results. -/
def ResultRel (m : Machine World) (r : Except Fault RefValue) (r' : Except Fault VmValue) : Prop :=
  match r, r' with
  | .ok v, .ok v' => ValueRel m v v'
  | .error f, .error f' => f = f'
  | _, _ => False

section Operators

variable {x y : RefValue} {x' y' : VmValue}

/-- The operators fail alike on related values or give related results. -/
theorem ValueRel.add_rel (hx : ValueRel m x x') (hy : ValueRel m y y') :
    ResultRel m (x.add y) (x'.add y') := by
  cases hx <;> first | rfl | (cases hy <;> first | rfl | constructor)

theorem ValueRel.sub_rel (hx : ValueRel m x x') (hy : ValueRel m y y') :
    ResultRel m (x.sub y) (x'.sub y') := by
  cases hx <;> first | rfl | (cases hy <;> first | rfl | constructor)

theorem ValueRel.mul_rel (hx : ValueRel m x x') (hy : ValueRel m y y') :
    ResultRel m (x.mul y) (x'.mul y') := by
  cases hx <;> first | rfl | (cases hy <;> first | rfl | constructor)

theorem ValueRel.div_rel (hx : ValueRel m x x') (hy : ValueRel m y y') :
    ResultRel m (x.div y) (x'.div y') := by
  cases hx <;> try first | rfl | (cases hy <;> try first | rfl | constructor)
  simp only [Value.div]
  split
  · rfl
  split
  · rfl
  · exact .int _

theorem ValueRel.mod_rel (hx : ValueRel m x x') (hy : ValueRel m y y') :
    ResultRel m (x.mod y) (x'.mod y') := by
  cases hx <;> try first | rfl | (cases hy <;> try rfl)
  simp only [Value.mod]
  split
  · rfl
  split
  · rfl
  · exact .int _

theorem ValueRel.compareWith_rel (ints : Int64 → Int64 → Bool) (floats : Float → Float → Bool)
    (strs : String → String → Bool) (hx : ValueRel m x x') (hy : ValueRel m y y') :
    ValueRel m (x.compareWith ints floats strs y) (x'.compareWith ints floats strs y') := by
  cases hx <;> first | exact .bool _ | (cases hy <;> exact .bool _)

theorem ValueRel.not_rel (hx : ValueRel m x x') : ResultRel m x.not x'.not := by
  cases hx <;> first | rfl | exact .bool _

theorem ValueRel.neg_rel (hx : ValueRel m x x') : ResultRel m x.neg x'.neg := by
  cases hx <;> first | rfl | exact .int _ | exact .float _

/-- So does every operator with an opcode. -/
theorem ValueRel.binaryOp_rel (op : Op) (hx : ValueRel m x x') (hy : ValueRel m y y') :
    ResultRel m (binaryOp op x y) (binaryOp op x' y') := by
  cases op with
  | add => exact hx.add_rel hy
  | sub => exact hx.sub_rel hy
  | mul => exact hx.mul_rel hy
  | div => exact hx.div_rel hy
  | mod => exact hx.mod_rel hy
  | eq => simp only [binaryOp, hx.rtValuesEqual_eq hy]; exact .bool _
  | ne => simp only [binaryOp, hx.rtValuesEqual_eq hy]; exact .bool _
  | lt => exact hx.compareWith_rel _ _ _ hy
  | le => exact hx.compareWith_rel _ _ _ hy
  | gt => exact hx.compareWith_rel _ _ _ hy
  | ge => exact hx.compareWith_rel _ _ _ hy
  | not => exact hx.not_rel
  | neg => exact hx.neg_rel
  | _ => rfl

end Operators

mutual

/-- Where one side is plain, both equalities are one. -/
theorem ValueRel.valueEq_eq {x : RefValue} {x' : VmValue} : ValueRel m x x' →
    ∀ {y : RefValue} {y' : VmValue}, ValueRel m y y' → (plain x || plain y) = true →
      x'.valueEq y' = x'.rtValuesEqual y'
  | .int _, _, _, hy, _ => by cases hy <;> simp [Value.valueEq, Value.rtValuesEqual]
  | .float _, _, _, hy, _ => by cases hy <;> simp [Value.valueEq, Value.rtValuesEqual]
  | .bool _, _, _, hy, _ => by cases hy <;> simp [Value.valueEq, Value.rtValuesEqual]
  | .str _, _, _, hy, _ => by cases hy <;> simp [Value.valueEq, Value.rtValuesEqual]
  | .nil, _, _, hy, _ => by cases hy <;> simp [Value.valueEq, Value.rtValuesEqual]
  | .unit, _, _, hy, _ => by cases hy <;> simp [Value.valueEq, Value.rtValuesEqual]
  | .bytes _, _, _, hy, _ => by cases hy <;> simp [Value.valueEq, Value.rtValuesEqual]
  | .native _ _ _ _ _ _ _, _, _, hy, hplain => by
    cases hy <;> simp [Value.valueEq, Value.rtValuesEqual]
    simp [plain] at hplain
  | .list h, _, _, hy, hplain => by
    cases hy with
    | list hys =>
      simp only [plain] at hplain
      simpa only [Value.valueEq, Value.rtValuesEqual] using h.valueEqList_eq hys hplain
    | _ => simp [Value.valueEq, Value.rtValuesEqual]
  | .variant _ h, _, _, hy, hplain => by
    cases hy with
    | variant tag hy =>
      simp only [plain] at hplain
      simp only [Value.valueEq, Value.rtValuesEqual, h.valueEq_eq hy hplain]
    | _ => simp [Value.valueEq, Value.rtValuesEqual]
  | .map h, _, _, hy, hplain => by
    cases hy with
    | map => simp [plain] at hplain
    | _ => simp [Value.valueEq, Value.rtValuesEqual]
  | .closure _ _ _ _ _, _, _, hy, _ => by
    cases hy <;> simp [Value.valueEq, Value.rtValuesEqual]
  | .partialNamed _ _ _, _, _, hy, hplain => by
    cases hy <;> simp [Value.valueEq, Value.rtValuesEqual] <;> simp [plain] at hplain
  | .partialBuiltin _ _ _, _, _, hy, hplain => by
    cases hy <;> simp [Value.valueEq, Value.rtValuesEqual] <;> simp [plain] at hplain
  | .partialClosure _ _ _, _, _, hy, hplain => by
    cases hy <;> simp [Value.valueEq, Value.rtValuesEqual] <;> simp [plain] at hplain

theorem ValuesRel.valueEqList_eq {xs : List RefValue} {xs' : List VmValue} : ValuesRel m xs xs' →
    ∀ {ys : List RefValue} {ys' : List VmValue}, ValuesRel m ys ys' →
      (plainList xs || plainList ys) = true →
      Value.valueEqList xs' ys' = Value.rtValuesEqualList xs' ys'
  | .nil, _, _, hys, _ => by cases hys <;> simp [Value.valueEqList, Value.rtValuesEqualList]
  | .cons h hs, _, _, hys, hplain => by
    cases hys with
    | nil => simp [Value.valueEqList, Value.rtValuesEqualList]
    | cons hy hys =>
      simp only [plainList, Bool.or_eq_true, Bool.and_eq_true] at hplain
      have hhead := h.valueEq_eq hy (by simp only [Bool.or_eq_true]; tauto)
      have htail := hs.valueEqList_eq hys (by simp only [Bool.or_eq_true]; tauto)
      simp only [Value.valueEqList, Value.rtValuesEqualList, hhead, htail]

end

/-- Where `opAgrees` holds, the inline evaluator computes what the main loop computes. -/
theorem ValueRel.simpleBinaryOp_eq {x y : RefValue} {x' y' : VmValue} {op : Op}
    (hx : ValueRel m x x') (hy : ValueRel m y y') (h : opAgrees op x y = true) :
    simpleBinaryOp op x' y' = binaryOp op x' y' := by
  cases op with
  | eq => simp only [simpleBinaryOp, binaryOp, hx.valueEq_eq hy h]
  | ne => simp only [simpleBinaryOp, binaryOp, hx.valueEq_eq hy h]
  | lt => cases hx <;> first | rfl | (cases hy <;> first | rfl | simp [opAgrees] at h)
  | le => cases hx <;> first | rfl | (cases hy <;> first | rfl | simp [opAgrees] at h)
  | gt => cases hx <;> first | rfl | (cases hy <;> first | rfl | simp [opAgrees] at h)
  | ge => cases hx <;> first | rfl | (cases hy <;> first | rfl | simp [opAgrees] at h)
  | mod =>
    cases hx <;> try first | rfl | (cases hy <;> try rfl)
    next m n =>
      have hsafe : ¬ (m = Int64.minValue ∧ n = -1) := by
        rintro ⟨rfl, rfl⟩
        simp [opAgrees] at h
      simp only [simpleBinaryOp, binaryOp, Value.simpleMod, Value.mod, if_neg hsafe]
  | _ => rfl

end Airl
