import Airl.Bytecode.Vm

/-! # The boundary between the machine and the runtime

`value_to_rt` and `rt_to_value_no_release` as functions between the two value types.
Their composition is what a register makes of a value; a value crosses whole exactly
if nothing in it refers to a function by name.
-/

namespace Airl

/-- `{:p}` of an address. -/
def pointerText (address : Nat) : String := "0x" ++ String.ofList (Nat.toDigits 16 address)

mutual

/-- `value_to_rt`. -/
def valueToRt : VmValue → RtValue
  | .int n => .int n
  | .float bits => .float bits
  | .bool b => .bool b
  | .str s => .str s
  | .nil => .nil
  | .unit => .unit
  | .list items => .list (valueToRtList items)
  | .intList ints => .list (ints.map .int)
  | .tuple items => .list (valueToRtList items)
  | .variant tag inner => .variant tag (valueToRt inner)
  | .map entries => .map (valueToRtEntries entries)
  | .bytecodeClosure name captured => .closure 0 (.str name :: valueToRtList captured)
  | .bytes data => .bytes data
  | .builtinFn _ => .nil
  | .irFuncRef _ => .nil
  | .partialApp func capturedArgs remainingArity =>
    match Value.partialName func with
    | some name => .partialApp name (valueToRtList capturedArgs) remainingArity
    | none => .nil
  | .bcFuncNative copy name arity regCount captureCount constants instructions =>
    .bcFuncNative copy name arity regCount captureCount constants instructions

def valueToRtList : List VmValue → List RtValue
  | [] => []
  | v :: vs => valueToRt v :: valueToRtList vs

def valueToRtEntries : List (String × VmValue) → List (String × RtValue)
  | [] => []
  | (key, v) :: rest => (key, valueToRt v) :: valueToRtEntries rest

end

mutual

/-- `rt_to_value_no_release`. A closure whose first capture is no text, as compiled code makes
them, becomes a name that denotes nothing. -/
def rtToValue : RtValue → VmValue
  | .nil => .nil
  | .unit => .unit
  | .int n => .int n
  | .float bits => .float bits
  | .bool b => .bool b
  | .str s => .str s
  | .list items => .list (rtToValueList items)
  | .map entries => .map (rtToValueEntries entries)
  | .variant tagName inner => .variant tagName (rtToValue inner)
  | .closure funcPtr captures =>
    match captures with
    | .str name :: captured => .bytecodeClosure name (rtToValueList captured)
    | _ => .builtinFn s!"<closure@{pointerText funcPtr}>"
  | .bytes data => .bytes data
  | .partialApp funcName capturedArgs remainingArity =>
    .partialApp (.builtinFn funcName) (rtToValueList capturedArgs) remainingArity
  | .bcFuncNative copy name arity regCount captureCount constants instructions =>
    .bcFuncNative copy name arity regCount captureCount constants instructions

def rtToValueList : List RtValue → List VmValue
  | [] => []
  | v :: vs => rtToValue v :: rtToValueList vs

def rtToValueEntries : List (String × RtValue) → List (String × VmValue)
  | [] => []
  | (key, v) :: rest => (key, rtToValue v) :: rtToValueEntries rest

end

theorem rtToValueList_ints : ∀ ints : List Int64,
    rtToValueList (ints.map .int) = ints.map .int
  | [] => rfl
  | n :: ints => congrArg (Value.int n :: ·) (rtToValueList_ints ints)

mutual

theorem rtToValue_valueToRt : ∀ v : VmValue, rtToValue (valueToRt v) = v.toRt
  | .list items => congrArg Value.list (rtToValueList_valueToRtList items)
  | .tuple items => congrArg Value.list (rtToValueList_valueToRtList items)
  | .intList ints => congrArg Value.list (rtToValueList_ints ints)
  | .variant tag inner => congrArg (Value.variant tag) (rtToValue_valueToRt inner)
  | .map entries => congrArg Value.map (rtToValueEntries_valueToRtEntries entries)
  | .bytecodeClosure name captured => by
    simp only [valueToRt, rtToValue, Value.toRt, rtToValueList_valueToRtList captured]
  | .partialApp func capturedArgs remainingArity => by
    simp only [valueToRt, Value.toRt]
    cases Value.partialName func with
    | none => rfl
    | some name => simp only [rtToValue, rtToValueList_valueToRtList capturedArgs]
  | .int _ | .float _ | .bool _ | .str _ | .nil | .unit | .bytes _ => rfl
  | .builtinFn _ | .irFuncRef _ => rfl
  | .bcFuncNative _ _ _ _ _ _ _ => rfl

theorem rtToValueList_valueToRtList : ∀ vs : List VmValue,
    rtToValueList (valueToRtList vs) = Value.toRtList vs
  | [] => rfl
  | v :: vs => by
    simp only [valueToRtList, rtToValueList, Value.toRtList, rtToValue_valueToRt v,
      rtToValueList_valueToRtList vs]

theorem rtToValueEntries_valueToRtEntries : ∀ entries : List (String × VmValue),
    rtToValueEntries (valueToRtEntries entries) = Value.toRtEntries entries
  | [] => rfl
  | (key, v) :: rest => by
    simp only [valueToRtEntries, rtToValueEntries, Value.toRtEntries, rtToValue_valueToRt v,
      rtToValueEntries_valueToRtEntries rest]

end

namespace Value

mutual

/-- Tuples and integer lists as lists, everything else as it is. -/
def lists : VmValue → VmValue
  | .list items => .list (listsOf items)
  | .intList ints => .list (ints.map .int)
  | .tuple items => .list (listsOf items)
  | .variant tag inner => .variant tag inner.lists
  | .map entries => .map (listsEntries entries)
  | .bytecodeClosure name captured => .bytecodeClosure name (listsOf captured)
  | .partialApp func capturedArgs remainingArity =>
    .partialApp func.lists (listsOf capturedArgs) remainingArity
  | v => v

def listsOf : List VmValue → List VmValue
  | [] => []
  | v :: vs => v.lists :: listsOf vs

def listsEntries : List (String × VmValue) → List (String × VmValue)
  | [] => []
  | (key, v) :: rest => (key, v.lists) :: listsEntries rest

end

mutual

/-- Nothing refers to a function by name, but for the function of a partial application,
which is a builtin's name. -/
def crosses : VmValue → Bool
  | .builtinFn _ | .irFuncRef _ => false
  | .partialApp (.builtinFn _) capturedArgs _ => crossesList capturedArgs
  | .partialApp _ _ _ => false
  | .list items | .tuple items => crossesList items
  | .variant _ inner => inner.crosses
  | .map entries => crossesEntries entries
  | .bytecodeClosure _ captured => crossesList captured
  | _ => true

def crossesList : List VmValue → Bool
  | [] => true
  | v :: vs => v.crosses && crossesList vs

def crossesEntries : List (String × VmValue) → Bool
  | [] => true
  | (_, v) :: rest => v.crosses && crossesEntries rest

end

theorem toRt_partialApp_iff (func : VmValue) (capturedArgs : List VmValue) (remainingArity : Nat) :
    (partialApp func capturedArgs remainingArity : VmValue).toRt =
        (partialApp func capturedArgs remainingArity : VmValue).lists ↔
      (∃ name, func = .builtinFn name) ∧ toRtList capturedArgs = listsOf capturedArgs := by
  cases func <;> simp [toRt, partialName, lists]

mutual

theorem toRt_eq_lists_iff : ∀ v : VmValue, v.toRt = v.lists ↔ v.crosses = true
  | .list items => by simp only [toRt, lists, crosses, list.injEq, toRtList_eq_listsOf_iff items]
  | .tuple items => by simp only [toRt, lists, crosses, list.injEq, toRtList_eq_listsOf_iff items]
  | .variant tag inner => by
    simp only [toRt, lists, crosses, variant.injEq, true_and, toRt_eq_lists_iff inner]
  | .map entries => by
    simp only [toRt, lists, crosses, map.injEq, toRtEntries_eq_listsEntries_iff entries]
  | .bytecodeClosure name captured => by
    simp only [toRt, lists, crosses, bytecodeClosure.injEq, true_and,
      toRtList_eq_listsOf_iff captured]
  | .partialApp func capturedArgs remainingArity => by
    rw [toRt_partialApp_iff, toRtList_eq_listsOf_iff capturedArgs]
    cases func <;> simp [crosses]
  | .builtinFn _ => by simp [toRt, lists, crosses]
  | .irFuncRef _ => by simp [toRt, lists, crosses]
  | .intList _ => by simp [toRt, lists, crosses]
  | .int _ | .float _ | .bool _ | .str _ | .nil | .unit | .bytes _ => by simp [toRt, lists, crosses]
  | .bcFuncNative _ _ _ _ _ _ _ => by simp [toRt, lists, crosses]

theorem toRtList_eq_listsOf_iff : ∀ vs : List VmValue,
    toRtList vs = listsOf vs ↔ crossesList vs = true
  | [] => by simp [toRtList, listsOf, crossesList]
  | v :: vs => by
    simp only [toRtList, listsOf, crossesList, List.cons.injEq, Bool.and_eq_true,
      toRt_eq_lists_iff v, toRtList_eq_listsOf_iff vs]

theorem toRtEntries_eq_listsEntries_iff : ∀ entries : List (String × VmValue),
    toRtEntries entries = listsEntries entries ↔ crossesEntries entries = true
  | [] => by simp [toRtEntries, listsEntries, crossesEntries]
  | (key, v) :: rest => by
    simp only [toRtEntries, listsEntries, crossesEntries, List.cons.injEq, Prod.mk.injEq,
      true_and, Bool.and_eq_true, toRt_eq_lists_iff v, toRtEntries_eq_listsEntries_iff rest]

end

theorem partialName_lists (func : VmValue) : partialName func.lists = partialName func := by
  cases func <;> rfl

theorem toRtList_ints (ints : List Int64) :
    toRtList (ints.map .int) = ints.map (.int : Int64 → VmValue) := by
  rw [toRtList_eq_map, List.map_map]
  rfl

mutual

/-- A register holds the same of a value and of the value with its tuples as lists. -/
theorem toRt_lists : ∀ v : VmValue, v.lists.toRt = v.toRt
  | .list items => by simp only [lists, toRt, toRtList_listsOf items]
  | .tuple items => by simp only [lists, toRt, toRtList_listsOf items]
  | .intList ints => by simp only [lists, toRt, toRtList_ints]
  | .variant _ inner => by simp only [lists, toRt, toRt_lists inner]
  | .map entries => by simp only [lists, toRt, toRtEntries_listsEntries entries]
  | .bytecodeClosure _ captured => by simp only [lists, toRt, toRtList_listsOf captured]
  | .partialApp func capturedArgs _ => by
    simp only [lists, toRt, partialName_lists, toRtList_listsOf capturedArgs]
  | .int _ | .float _ | .bool _ | .str _ | .nil | .unit | .bytes _ => rfl
  | .builtinFn _ | .irFuncRef _ => rfl
  | .bcFuncNative _ _ _ _ _ _ _ => rfl

theorem toRtList_listsOf : ∀ vs : List VmValue, toRtList (listsOf vs) = toRtList vs
  | [] => rfl
  | v :: vs => by simp only [listsOf, toRtList, toRt_lists v, toRtList_listsOf vs]

theorem toRtEntries_listsEntries : ∀ entries : List (String × VmValue),
    toRtEntries (listsEntries entries) = toRtEntries entries
  | [] => rfl
  | (_, v) :: rest => by
    simp only [listsEntries, toRtEntries, toRt_lists v, toRtEntries_listsEntries rest]

end

theorem length_listsOf : ∀ vs : List VmValue, (listsOf vs).length = vs.length
  | [] => rfl
  | _ :: vs => congrArg (· + 1) (length_listsOf vs)

end Value

def callable : VmValue → Bool
  | .bytecodeClosure _ _ | .builtinFn _ | .irFuncRef _ | .partialApp _ _ _ => true
  | _ => false

/-- A call of the value pushes a frame: no inline code sees what it has captured. -/
def Machine.Enters {World : Type} (m : Machine World) (v : VmValue) : Prop :=
  ∀ name captured func, v = .bytecodeClosure name captured → m.lookup name = some func →
    isSimpleClosure func = false

/-- A call of what comes back does what a call of the value does, its tuples being lists; and where
no inline code sees the difference, what a call of the value itself does. -/
def CallsAlike (v : VmValue) : Prop :=
  callable v = true → ∀ {World : Type} (m : Machine World) (args : List VmValue) (dst : Nat)
    (fr : Frame) (rest : List Frame) (depth : Nat) (world : World),
    m.callValue (rtToValue (valueToRt v)) args dst fr rest depth world =
        m.callValue v.lists args dst fr rest depth world ∧
      (m.Enters v → m.callValue (rtToValue (valueToRt v)) args dst fr rest depth world =
        m.callValue v args dst fr rest depth world)

/-- What is captured is converted when a frame is pushed, so tuples and lists are the same to it. -/
theorem Machine.callValue_lists {World : Type} {m : Machine World} {v : VmValue}
    (hcallable : callable v = true) (hcrosses : v.crosses = true) (henters : m.Enters v)
    (args : List VmValue) (dst : Nat) (fr : Frame) (rest : List Frame) (depth : Nat)
    (world : World) : m.callValue v.lists args dst fr rest depth world =
      m.callValue v args dst fr rest depth world := by
  have htoRt : ∀ captured : List VmValue,
      Value.toRtList (Value.listsOf captured ++ args) = Value.toRtList (captured ++ args) := by
    intro captured
    rw [Value.toRtList_eq_map, Value.toRtList_eq_map, List.map_append, List.map_append,
      ← Value.toRtList_eq_map, Value.toRtList_listsOf, Value.toRtList_eq_map]
  have hsome : ∀ captured : List VmValue,
      (Value.listsOf captured ++ args).map (fun v => some v.toRt) =
        (captured ++ args).map fun v => some v.toRt := by
    intro captured
    have heq := congrArg (List.map some) (htoRt captured)
    rwa [Value.toRtList_eq_map, Value.toRtList_eq_map, List.map_map, List.map_map] at heq
  cases v with
  | bytecodeClosure name captured =>
    simp only [Value.lists, callValue, resolveCallee, store, Value.toRt, Value.partialName, htoRt,
      hsome, List.length_append, Value.length_listsOf]
    cases hlookup : m.lookup name with
    | none => rfl
    | some func => simp only [henters name captured func rfl hlookup, Bool.false_eq_true, if_false]
  | partialApp func capturedArgs remainingArity =>
    cases func with
    | builtinFn name =>
      have hmap := htoRt capturedArgs
      rw [Value.toRtList_eq_map, Value.toRtList_eq_map] at hmap
      simp only [Value.lists, callValue, resolveCallee, builtinPartial, List.length_append,
        Value.length_listsOf, hmap, hsome]
      cases builtinArity name with
      | none => rfl
      | some expected =>
        by_cases hfew : capturedArgs.length + args.length < expected
        · simp only [hfew, if_true, store, Value.toRt, Value.partialName, htoRt]
        · simp only [hfew, if_false]
    | _ => cases hcrosses
  | builtinFn name => cases hcrosses
  | irFuncRef name => cases hcrosses
  | _ => cases hcallable

/-- A value comes back whole, and if it is callable with the same calls, exactly if it crosses. -/
theorem boundary_iff (v : VmValue) :
    (rtToValue (valueToRt v) = v.lists ∧ CallsAlike v) ↔ v.crosses = true := by
  rw [← Value.toRt_eq_lists_iff, rtToValue_valueToRt]
  constructor
  · intro h
    exact h.1
  · intro h
    refine ⟨h, ?_⟩
    intro hcallable World m args dst fr rest depth world
    rw [rtToValue_valueToRt, h]
    exact ⟨rfl, fun henters => Machine.callValue_lists hcallable
      (v.toRt_eq_lists_iff.mp h) henters args dst fr rest depth world⟩

/-- The builtin `+` as a value comes back as nil. -/
theorem not_boundary : ¬ ∀ v : VmValue, rtToValue (valueToRt v) = v.lists ∧ CallsAlike v := by
  intro h
  have hplus := (h (.builtinFn "+")).1
  simp [valueToRt, rtToValue, Value.lists] at hplus

end Airl
