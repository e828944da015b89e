import Mathlib.Data.List.Basic

/-! # Values of the runtime library

`airl_rt::value::RtData`, which registers, lists and maps point to. A closure keeps its
function pointer as an address; the machine's own closures have the null pointer and
the name of their function as first capture.
-/

namespace Airl

/-- `bc_func::BcInstr`. -/
structure BcInstr where
  op : UInt8
  dst : Nat
  a : Nat
  b : Nat
  deriving Repr, DecidableEq

/-- `RtData`. The functions behind the `Arc`s of native functions are told apart by their contents
and, among those with the same contents, by `copy`: two `Arc`s are one function exactly if the
values are the same. -/
inductive RtValue where
  | nil
  | unit
  | int (n : Int64)
  | float (bits : UInt64)
  | bool (b : Bool)
  | str (s : String)
  | list (items : List RtValue)
  | map (entries : List (String × RtValue))
  | variant (tagName : String) (inner : RtValue)
  | closure (funcPtr : Nat) (captures : List RtValue)
  | bytes (data : List UInt8)
  | partialApp (funcName : String) (capturedArgs : List RtValue) (remainingArity : Nat)
  | bcFuncNative (copy : Nat) (name : String) (arity regCount captureCount : Nat)
      (constants : List RtValue) (instructions : List BcInstr)
  deriving Repr, Inhabited

namespace RtValue

mutual

/-- The same value, down to the native functions that are shared. -/
def same : RtValue → RtValue → Bool
  | .nil, .nil => true
  | .unit, .unit => true
  | .int x, .int y => x == y
  | .float x, .float y => x == y
  | .bool x, .bool y => x == y
  | .str x, .str y => x == y
  | .list xs, .list ys => sameList xs ys
  | .map xs, .map ys => sameEntries xs ys
  | .variant ta a, .variant tb b => ta == tb && same a b
  | .closure pa ca, .closure pb cb => pa == pb && sameList ca cb
  | .bytes a, .bytes b => a == b
  | .partialApp fa xs ra, .partialApp fb ys rb => fa == fb && ra == rb && sameList xs ys
  | .bcFuncNative pa na aa ra ca ka ia, .bcFuncNative pb nb ab rb cb kb ib =>
    pa == pb && na == nb && aa == ab && ra == rb && ca == cb && ia == ib && sameList ka kb
  | _, _ => false

def sameList : List RtValue → List RtValue → Bool
  | [], [] => true
  | x :: xs, y :: ys => same x y && sameList xs ys
  | _, _ => false

def sameEntries : List (String × RtValue) → List (String × RtValue) → Bool
  | [], [] => true
  | (ka, x) :: xs, (kb, y) :: ys => ka == kb && same x y && sameEntries xs ys
  | _, _ => false

end

mutual

/-- `comparison::rt_values_equal`. Maps, closures and partial applications are
equal to nothing, not even to themselves. -/
def valuesEqual : RtValue → RtValue → Bool
  | .nil, .nil => true
  | .unit, .unit => true
  | .int x, .int y => x == y
  | .float x, .float y => x == y
  | .bool x, .bool y => x == y
  | .str x, .str y => x == y
  | .list xs, .list ys => valuesEqualList xs ys
  | .variant ta a, .variant tb b => ta == tb && valuesEqual a b
  | .bytes a, .bytes b => a == b
  | .bcFuncNative pa na aa ra ca ka ia, .bcFuncNative pb nb ab rb cb kb ib =>
    na == nb && aa == ab && ra == rb && ca == cb && ia == ib &&
      -- `Arc::ptr_eq` comes first, whatever the constants are
      (pa == pb && sameList ka kb || valuesEqualList ka kb)
  | _, _ => false

def valuesEqualList : List RtValue → List RtValue → Bool
  | [], [] => true
  | x :: xs, y :: ys => valuesEqual x y && valuesEqualList xs ys
  | _, _ => false

end

mutual

/-- What `rt_values_equal` finds equal to itself. -/
def comparable : RtValue → Bool
  | .nil | .unit | .int _ | .float _ | .bool _ | .str _ | .bytes _ => true
  | .list items => comparableList items
  | .variant _ inner => inner.comparable
  | .bcFuncNative _ _ _ _ _ _ _ => true
  | .map _ | .closure _ _ | .partialApp _ _ _ => false

def comparableList : List RtValue → Bool
  | [] => true
  | v :: vs => v.comparable && comparableList vs

end

mutual

/-- A native function as the comparison sees it: by its contents if these are comparable, and as
the function it is if not. -/
def seen : RtValue → RtValue
  | .list items => .list (seenList items)
  | .variant tagName inner => .variant tagName inner.seen
  | .bcFuncNative copy name arity regCount captureCount constants instructions =>
    .bcFuncNative (if comparableList constants then 0 else copy) name arity regCount captureCount
      (if comparableList constants then seenList constants else constants) instructions
  | v => v

def seenList : List RtValue → List RtValue
  | [] => []
  | v :: vs => v.seen :: seenList vs

end

mutual

theorem same_iff : ∀ x y : RtValue, x.same y = true ↔ x = y
  | .list xs, y => by
    cases y with
    | list ys => simp only [same, list.injEq, sameList_iff xs ys]
    | _ => simp [same]
  | .map xs, y => by
    cases y with
    | map ys => simp only [same, map.injEq, sameEntries_iff xs ys]
    | _ => simp [same]
  | .variant tag x, y => by
    cases y with
    | variant tag' y =>
      simp only [same, Bool.and_eq_true, beq_iff_eq, variant.injEq, same_iff x y]
    | _ => simp [same]
  | .closure funcPtr captures, y => by
    cases y with
    | closure funcPtr' captures' =>
      simp only [same, Bool.and_eq_true, beq_iff_eq, closure.injEq,
        sameList_iff captures captures']
    | _ => simp [same]
  | .partialApp name args remaining, y => by
    cases y with
    | partialApp name' args' remaining' =>
      simp only [same, Bool.and_eq_true, beq_iff_eq, partialApp.injEq, sameList_iff args args']
      tauto
    | _ => simp [same]
  | .bcFuncNative _ _ _ _ _ constants _, y => by
    cases y with
    | bcFuncNative _ _ _ _ _ constants' _ =>
      simp only [same, Bool.and_eq_true, beq_iff_eq, bcFuncNative.injEq,
        sameList_iff constants constants']
      tauto
    | _ => simp [same]
  | .nil, y => by cases y <;> simp [same]
  | .unit, y => by cases y <;> simp [same]
  | .int _, y => by cases y <;> simp [same]
  | .float _, y => by cases y <;> simp [same]
  | .bool _, y => by cases y <;> simp [same]
  | .str _, y => by cases y <;> simp [same]
  | .bytes _, y => by cases y <;> simp [same]

theorem sameList_iff : ∀ xs ys : List RtValue, sameList xs ys = true ↔ xs = ys
  | [], [] => by simp [sameList]
  | [], _ :: _ => by simp [sameList]
  | _ :: _, [] => by simp [sameList]
  | x :: xs, y :: ys => by
    simp only [sameList, Bool.and_eq_true, List.cons.injEq, same_iff x y, sameList_iff xs ys]

theorem sameEntries_iff : ∀ xs ys : List (String × RtValue), sameEntries xs ys = true ↔ xs = ys
  | [], [] => by simp [sameEntries]
  | [], _ :: _ => by simp [sameEntries]
  | _ :: _, [] => by simp [sameEntries]
  | (_, x) :: xs, (_, y) :: ys => by
    simp only [sameEntries, Bool.and_eq_true, beq_iff_eq, List.cons.injEq, Prod.mk.injEq,
      same_iff x y, sameEntries_iff xs ys]

end

mutual

theorem comparable_seen : ∀ x : RtValue, x.seen.comparable = x.comparable
  | .list items => by simp only [seen, comparable, comparableList_seenList items]
  | .variant _ inner => by simp only [seen, comparable, comparable_seen inner]
  | .bcFuncNative _ _ _ _ _ _ _ => rfl
  | .nil | .unit | .int _ | .float _ | .bool _ | .str _ | .bytes _ | .map _ | .closure _ _
  | .partialApp _ _ _ => rfl

theorem comparableList_seenList : ∀ xs : List RtValue,
    comparableList (seenList xs) = comparableList xs
  | [] => rfl
  | x :: xs => by
    simp only [seenList, comparableList, comparable_seen x, comparableList_seenList xs]

end

/-- The contents of two native functions are seen alike exactly if the comparison, which looks for
the shared function first, finds no difference. -/
theorem seen_contents_iff {pa pb : Nat} {ka kb : List RtValue} (name : String)
    (arity regCount captureCount : Nat) (instructions : List BcInstr)
    (hequal : valuesEqualList ka kb = true ↔ seenList ka = seenList kb ∧ comparableList ka = true) :
    (pa == pb && sameList ka kb || valuesEqualList ka kb) = true ↔
      (bcFuncNative pa name arity regCount captureCount ka instructions).seen =
        (bcFuncNative pb name arity regCount captureCount kb instructions).seen := by
  have hsame : (pa == pb && sameList ka kb) = true ↔ pa = pb ∧ ka = kb := by
    rw [Bool.and_eq_true, beq_iff_eq, sameList_iff]
  rw [Bool.or_eq_true, hsame, hequal, seen, seen]
  by_cases ha : comparableList ka = true
  · by_cases hb : comparableList kb = true
    · simp only [ha, hb, if_true, and_true, bcFuncNative.injEq, true_and]
      constructor
      · rintro (⟨-, rfl⟩ | h)
        · rfl
        · exact h
      · exact .inr
    · have hne : seenList ka ≠ seenList kb := by
        intro h
        rw [← comparableList_seenList, ← h, comparableList_seenList] at hb
        exact hb ha
      have hkb : seenList ka ≠ kb := by
        intro h
        rw [← h, comparableList_seenList] at hb
        exact hb ha
      have hkeep : ka ≠ kb := fun h => hb (h ▸ ha)
      simp [ha, hb, hne, hkb, hkeep]
  · by_cases hb : comparableList kb = true
    · have hkb : ka ≠ seenList kb := by
        intro h
        rw [h, comparableList_seenList] at ha
        exact ha hb
      have hkeep : ka ≠ kb := fun h => ha (h ▸ hb)
      simp [ha, hb, hkb, hkeep]
    · simp [ha, hb]

mutual

/-- The comparison is equality of what it sees, where nothing refuses it. -/
theorem valuesEqual_iff : ∀ (x y : RtValue),
    x.valuesEqual y = true ↔ x.seen = y.seen ∧ x.comparable = true
  | .list xs, y => by
    cases y with
    | list ys => simp only [valuesEqual, seen, comparable, valuesEqualList_iff xs ys, list.injEq]
    | _ => simp [valuesEqual, seen]
  | .variant tag x, y => by
    cases y with
    | variant tag' y =>
      simp only [valuesEqual, seen, comparable, Bool.and_eq_true, beq_iff_eq, valuesEqual_iff x y,
        variant.injEq, and_assoc]
    | _ => simp [valuesEqual, seen]
  | .bcFuncNative pa na aa ra ca ka ia, y => by
    cases y with
    | bcFuncNative pb nb ab rb cb kb ib =>
      simp only [valuesEqual, comparable, and_true, Bool.and_eq_true, beq_iff_eq]
      constructor
      · rintro ⟨⟨⟨⟨⟨rfl, rfl⟩, rfl⟩, rfl⟩, rfl⟩, h⟩
        exact (seen_contents_iff na aa ra ca ia (valuesEqualList_iff ka kb)).mp h
      · intro h
        have hfields := h
        simp only [seen, bcFuncNative.injEq] at hfields
        obtain ⟨-, rfl, rfl, rfl, rfl, -, rfl⟩ := hfields
        refine ⟨by simp, ?_⟩
        exact (seen_contents_iff na aa ra ca ia (valuesEqualList_iff ka kb)).mpr h
    | _ => simp [valuesEqual, seen]
  | .nil, y => by cases y <;> simp [valuesEqual, seen, comparable]
  | .unit, y => by cases y <;> simp [valuesEqual, seen, comparable]
  | .int _, y => by cases y <;> simp [valuesEqual, seen, comparable]
  | .float _, y => by cases y <;> simp [valuesEqual, seen, comparable]
  | .bool _, y => by cases y <;> simp [valuesEqual, seen, comparable]
  | .str _, y => by cases y <;> simp [valuesEqual, seen, comparable]
  | .bytes _, y => by cases y <;> simp [valuesEqual, seen, comparable]
  | .map _, y => by cases y <;> simp [valuesEqual, comparable]
  | .closure _ _, y => by cases y <;> simp [valuesEqual, comparable]
  | .partialApp _ _ _, y => by cases y <;> simp [valuesEqual, comparable]

theorem valuesEqualList_iff : ∀ (xs ys : List RtValue),
    valuesEqualList xs ys = true ↔ seenList xs = seenList ys ∧ comparableList xs = true
  | [], [] => by simp [valuesEqualList, seenList, comparableList]
  | [], _ :: _ => by simp [valuesEqualList, seenList]
  | _ :: _, [] => by simp [valuesEqualList, seenList]
  | x :: xs, y :: ys => by
    simp only [valuesEqualList, seenList, comparableList, Bool.and_eq_true, valuesEqual_iff x y,
      valuesEqualList_iff xs ys, List.cons.injEq]
    tauto

end

theorem sameList_comm (xs ys : List RtValue) : sameList xs ys = sameList ys xs := by
  rw [Bool.eq_iff_iff, sameList_iff, sameList_iff]
  exact eq_comm

theorem valuesEqualList_comm (xs ys : List RtValue) :
    valuesEqualList xs ys = valuesEqualList ys xs := by
  rw [Bool.eq_iff_iff, valuesEqualList_iff, valuesEqualList_iff]
  constructor
  · rintro ⟨heq, h⟩
    rw [← comparableList_seenList, heq, comparableList_seenList] at h
    exact ⟨heq.symm, h⟩
  · rintro ⟨heq, h⟩
    rw [← comparableList_seenList, heq, comparableList_seenList] at h
    exact ⟨heq.symm, h⟩

end RtValue

end Airl
