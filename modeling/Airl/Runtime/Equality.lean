import Airl.Runtime.Value

/-! # What the two equalities compare

`Value`'s `==` tells an integer list from no list of the same integers and refuses
closures and native functions. `rt_values_equal` is equality of what crossed the
runtime boundary, refused to maps, closures and partial applications; a native
function is equal to itself whatever it holds.
-/

namespace Airl

namespace Value

variable {Code : Type}

mutual

/-- Integer lists as lists. -/
def flat : Value Code → Value Code
  | .list items => .list (flatList items)
  | .intList ints => .list (ints.map .int)
  | .tuple items => .tuple (flatList items)
  | .variant tag inner => .variant tag inner.flat
  | .map entries => .map (flatEntries entries)
  | .partialApp func capturedArgs remainingArity =>
    .partialApp func.flat (flatList capturedArgs) remainingArity
  | v => v

def flatList : List (Value Code) → List (Value Code)
  | [] => []
  | v :: vs => v.flat :: flatList vs

def flatEntries : List (String × Value Code) → List (String × Value Code)
  | [] => []
  | (key, v) :: rest => (key, v.flat) :: flatEntries rest

end

mutual

/-- Without a closure and a native function, and so equal to itself under `==`. -/
def equatable : Value Code → Bool
  | .list items => equatableList items
  | .tuple items => equatableList items
  | .variant _ inner => inner.equatable
  | .map entries => equatableEntries entries
  | .partialApp func capturedArgs _ => func.equatable && equatableList capturedArgs
  | .bytecodeClosure _ _ => false
  | .bcFuncNative _ _ _ _ _ _ _ => false
  | _ => true

def equatableList : List (Value Code) → Bool
  | [] => true
  | v :: vs => v.equatable && equatableList vs

def equatableEntries : List (String × Value Code) → Bool
  | [] => true
  | (_, v) :: rest => v.equatable && equatableEntries rest

end

mutual

/-- What `rt_values_equal` finds equal to itself. -/
def comparable : Value Code → Bool
  | .nil | .unit | .int _ | .float _ | .bool _ | .str _ | .bytes _ => true
  | .list items => comparableList items
  | .variant _ inner => inner.comparable
  | .bcFuncNative _ _ _ _ _ _ _ => true
  | _ => false

def comparableList : List (Value Code) → Bool
  | [] => true
  | v :: vs => v.comparable && comparableList vs

end

mutual

/-- Native functions as `rt_values_equal` sees them. -/
def seen : Value Code → Value Code
  | .list items => .list (seenList items)
  | .variant tag inner => .variant tag inner.seen
  | .bcFuncNative copy name arity regCount captureCount constants instructions =>
    .bcFuncNative (if RtValue.comparableList constants then 0 else copy) name arity regCount
      captureCount
      (if RtValue.comparableList constants then RtValue.seenList constants else constants)
      instructions
  | v => v

def seenList : List (Value Code) → List (Value Code)
  | [] => []
  | v :: vs => v.seen :: seenList vs

end

theorem intListEq_iff : ∀ {xs : List Int64} {ys : List VmValue},
    intListEq xs ys = true ↔ xs.map .int = flatList ys
  | [], [] => by simp [intListEq, flatList]
  | [], _ :: _ => by simp [intListEq, flatList]
  | _ :: _, [] => by simp [intListEq, flatList]
  | x :: xs, y :: ys => by
    cases y with
    | int n =>
      simp only [intListEq, flatList, flat, Bool.and_eq_true, beq_iff_eq, List.map_cons,
        List.cons.injEq, int.injEq, @intListEq_iff xs ys]
      exact and_congr_left' eq_comm
    | _ => simp [intListEq, flatList, flat]

theorem equatableList_of_intListEq : ∀ {xs : List Int64} {ys : List VmValue},
    intListEq xs ys = true → equatableList ys = true
  | [], [], _ => rfl
  | [], _ :: _, h => by simp [intListEq] at h
  | _ :: _, [], h => by simp [intListEq] at h
  | x :: xs, y :: ys, h => by
    cases y with
    | int n =>
      simp only [intListEq, Bool.and_eq_true] at h
      simp [equatableList, equatable, equatableList_of_intListEq h.2]
    | _ => simp [intListEq] at h

theorem intList_injective {xs ys : List Int64} :
    xs.map (.int : Int64 → VmValue) = ys.map .int ↔ xs = ys :=
  (List.map_injective_iff.mpr fun _ _ h => by simpa using h).eq_iff

mutual

/-- `==` is equality up to integer lists, where nothing refuses it. -/
theorem valueEq_iff : ∀ (x y : VmValue),
    x.valueEq y = true ↔ x.flat = y.flat ∧ x.equatable = true
  | .list xs, y => by
    cases y with
    | list ys => simp only [valueEq, flat, equatable, valueEqList_iff xs ys, list.injEq]
    | intList ys =>
      simp only [valueEq, flat, equatable, intListEq_iff, list.injEq]
      constructor
      · intro h
        exact ⟨h.symm, equatableList_of_intListEq (intListEq_iff.mpr h)⟩
      · intro h
        exact h.1.symm
    | _ => simp [valueEq, flat]
  | .intList xs, y => by
    cases y with
    | list ys => simp [valueEq, flat, equatable, intListEq_iff]
    | intList ys =>
      simp only [valueEq, flat, equatable, list.injEq, intList_injective, beq_iff_eq, and_true]
    | _ => simp [valueEq, flat]
  | .tuple xs, y => by
    cases y with
    | tuple ys => simp only [valueEq, flat, equatable, valueEqList_iff xs ys, tuple.injEq]
    | _ => simp [valueEq, flat]
  | .variant tag x, y => by
    cases y with
    | variant tag' y =>
      simp only [valueEq, flat, equatable, Bool.and_eq_true, beq_iff_eq, valueEq_iff x y,
        variant.injEq, and_assoc]
    | _ => simp [valueEq, flat]
  | .map xs, y => by
    cases y with
    | map ys => simp only [valueEq, flat, equatable, valueEqEntries_iff xs ys, map.injEq]
    | _ => simp [valueEq, flat]
  | .partialApp func args remaining, y => by
    cases y with
    | partialApp func' args' remaining' =>
      simp only [valueEq, flat, equatable, Bool.and_eq_true, beq_iff_eq, valueEq_iff func func',
        valueEqList_iff args args', partialApp.injEq]
      tauto
    | _ => simp [valueEq, flat]
  | .bytecodeClosure _ _, y => by cases y <;> simp [valueEq, equatable]
  | .bcFuncNative _ _ _ _ _ _ _, y => by cases y <;> simp [valueEq, equatable]
  | .int _, y => by cases y <;> simp [valueEq, flat, equatable]
  | .float _, y => by cases y <;> simp [valueEq, flat, equatable]
  | .bool _, y => by cases y <;> simp [valueEq, flat, equatable]
  | .str _, y => by cases y <;> simp [valueEq, flat, equatable]
  | .nil, y => by cases y <;> simp [valueEq, flat, equatable]
  | .unit, y => by cases y <;> simp [valueEq, flat, equatable]
  | .builtinFn _, y => by cases y <;> simp [valueEq, flat, equatable]
  | .irFuncRef _, y => by cases y <;> simp [valueEq, flat, equatable]
  | .bytes _, y => by cases y <;> simp [valueEq, flat, equatable]

theorem valueEqList_iff : ∀ (xs ys : List VmValue),
    valueEqList xs ys = true ↔ flatList xs = flatList ys ∧ equatableList xs = true
  | [], [] => by simp [valueEqList, flatList, equatableList]
  | [], _ :: _ => by simp [valueEqList, flatList]
  | _ :: _, [] => by simp [valueEqList, flatList]
  | x :: xs, y :: ys => by
    simp only [valueEqList, flatList, equatableList, Bool.and_eq_true, valueEq_iff x y,
      valueEqList_iff xs ys, List.cons.injEq]
    tauto

theorem valueEqEntries_iff : ∀ (xs ys : List (String × VmValue)),
    valueEqEntries xs ys = true ↔ flatEntries xs = flatEntries ys ∧ equatableEntries xs = true
  | [], [] => by simp [valueEqEntries, flatEntries, equatableEntries]
  | [], _ :: _ => by simp [valueEqEntries, flatEntries]
  | _ :: _, [] => by simp [valueEqEntries, flatEntries]
  | (key, x) :: xs, (key', y) :: ys => by
    simp only [valueEqEntries, flatEntries, equatableEntries, Bool.and_eq_true, beq_iff_eq,
      valueEq_iff x y, valueEqEntries_iff xs ys, List.cons.injEq, Prod.mk.injEq]
    tauto

end

mutual

theorem rtValuesEqual_iff : ∀ (x y : Value Code),
    x.rtValuesEqual y = true ↔ x.seen = y.seen ∧ x.comparable = true
  | .list xs, y => by
    cases y with
    | list ys =>
      simp only [rtValuesEqual, seen, comparable, rtValuesEqualList_iff xs ys, list.injEq]
    | _ => simp [rtValuesEqual, seen]
  | .variant tag x, y => by
    cases y with
    | variant tag' y =>
      simp only [rtValuesEqual, seen, comparable, Bool.and_eq_true, beq_iff_eq,
        rtValuesEqual_iff x y, variant.injEq, and_assoc]
    | _ => simp [rtValuesEqual, seen]
  | .bcFuncNative pa na aa ra ca ka ia, y => by
    cases y with
    | bcFuncNative pb nb ab rb cb kb ib =>
      simp only [rtValuesEqual, comparable, and_true, Bool.and_eq_true, beq_iff_eq]
      have hcontents := @RtValue.seen_contents_iff pa pb ka kb na aa ra ca ia
        (RtValue.valuesEqualList_iff ka kb)
      simp only [RtValue.seen, RtValue.bcFuncNative.injEq, true_and, and_true] at hcontents
      rw [hcontents]
      simp only [seen, bcFuncNative.injEq]
      tauto
    | _ => simp [rtValuesEqual, seen]
  | .nil, y => by cases y <;> simp [rtValuesEqual, seen, comparable]
  | .unit, y => by cases y <;> simp [rtValuesEqual, seen, comparable]
  | .int _, y => by cases y <;> simp [rtValuesEqual, seen, comparable]
  | .float _, y => by cases y <;> simp [rtValuesEqual, seen, comparable]
  | .bool _, y => by cases y <;> simp [rtValuesEqual, seen, comparable]
  | .str _, y => by cases y <;> simp [rtValuesEqual, seen, comparable]
  | .bytes _, y => by cases y <;> simp [rtValuesEqual, seen, comparable]
  | .intList _, y => by cases y <;> simp [rtValuesEqual, comparable]
  | .tuple _, y => by cases y <;> simp [rtValuesEqual, comparable]
  | .map _, y => by cases y <;> simp [rtValuesEqual, comparable]
  | .builtinFn _, y => by cases y <;> simp [rtValuesEqual, comparable]
  | .irFuncRef _, y => by cases y <;> simp [rtValuesEqual, comparable]
  | .bytecodeClosure _ _, y => by cases y <;> simp [rtValuesEqual, comparable]
  | .partialApp _ _ _, y => by cases y <;> simp [rtValuesEqual, comparable]

theorem rtValuesEqualList_iff : ∀ (xs ys : List (Value Code)),
    rtValuesEqualList xs ys = true ↔ seenList xs = seenList ys ∧ comparableList xs = true
  | [], [] => by simp [rtValuesEqualList, seenList, comparableList]
  | [], _ :: _ => by simp [rtValuesEqualList, seenList]
  | _ :: _, [] => by simp [rtValuesEqualList, seenList]
  | x :: xs, y :: ys => by
    simp only [rtValuesEqualList, seenList, comparableList, Bool.and_eq_true,
      rtValuesEqual_iff x y, rtValuesEqualList_iff xs ys, List.cons.injEq]
    tauto

end

end Value

end Airl
