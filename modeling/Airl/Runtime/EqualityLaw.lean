import Airl.Bytecode.Marshal
import Airl.Runtime.Equality

/-! # One equality for two runtimes

`rt_values_equal` on values as they are stored: a list owns its items or is a view into the items
of another. It is equality of the contents wherever no map occurs, and to a map nothing is equal,
while `Value`'s `==` compares maps entry by entry.
-/

namespace Airl

/-- `RtData`, as far as data goes. A list skips the first `offset` of its items; a view skips them
in the items of its parent. The entries of a map stand in key order. -/
inductive Stored where
  | nil
  | unit
  | int (n : Int64)
  | float (bits : UInt64)
  | bool (b : Bool)
  | str (s : String)
  | list (items : List Stored) (offset : Nat)
  | view (parent : List Stored) (offset : Nat)
  | map (entries : List (String × Stored))
  | variant (tagName : String) (inner : Stored)
  | bytes (data : List UInt8)

namespace Stored

/-- `list_items`. -/
def listItems : Stored → Option (List Stored)
  | .list items offset => some (items.drop offset)
  | .view parent offset => some (parent.drop offset)
  | _ => none

theorem sizeOf_drop_le (items : List Stored) (n : Nat) : sizeOf (items.drop n) ≤ sizeOf items := by
  induction n generalizing items with
  | zero => exact Nat.le_refl _
  | succ n ih =>
    cases items with
    | nil => exact Nat.le_refl _
    | cons v items =>
      have hless : sizeOf items ≤ sizeOf (v :: items) := by
        rw [List.cons.sizeOf_spec]
        omega
      exact Nat.le_trans (ih items) hless

theorem sizeOf_listItems {v : Stored} {items : List Stored} (h : v.listItems = some items) :
    sizeOf items < sizeOf v := by
  cases v with
  | list all offset =>
    cases h
    have hle := sizeOf_drop_le all offset
    rw [Stored.list.sizeOf_spec]
    omega
  | view all offset =>
    cases h
    have hle := sizeOf_drop_le all offset
    rw [Stored.view.sizeOf_spec]
    omega
  | _ => cases h

mutual

/-- `rt_values_equal`. -/
def rtValuesEqual : Stored → Stored → Bool
  | .nil, .nil => true
  | .unit, .unit => true
  | .int x, .int y => x == y
  | .float x, .float y => x == y
  | .bool x, .bool y => x == y
  | .str x, .str y => x == y
  | .variant tagA a, .variant tagB b => tagA == tagB && rtValuesEqual a b
  | .bytes a, .bytes b => a == b
  | a, b =>
    match _h : a.listItems, b.listItems with
    | some xs, some ys => xs.length == ys.length && zipEqual xs ys
    -- values of two types, and maps
    | _, _ => false
termination_by a => sizeOf a
decreasing_by
  · decreasing_tactic
  · exact sizeOf_listItems _h

/-- `xs.iter().zip(ys.iter()).all(..)`. -/
def zipEqual : List Stored → List Stored → Bool
  | x :: xs, y :: ys => rtValuesEqual x y && zipEqual xs ys
  | _, _ => true
termination_by xs => sizeOf xs

end

mutual

/-- The value that is stored, whoever owns the items of its lists. -/
def contents : Stored → RtValue
  | .nil => .nil
  | .unit => .unit
  | .int n => .int n
  | .float bits => .float bits
  | .bool b => .bool b
  | .str s => .str s
  | .list items offset => .list ((contentsList items).drop offset)
  | .view parent offset => .list ((contentsList parent).drop offset)
  | .map entries => .map (contentsEntries entries)
  | .variant tagName inner => .variant tagName inner.contents
  | .bytes data => .bytes data

def contentsList : List Stored → List RtValue
  | [] => []
  | v :: vs => v.contents :: contentsList vs

def contentsEntries : List (String × Stored) → List (String × RtValue)
  | [] => []
  | (key, v) :: rest => (key, v.contents) :: contentsEntries rest

end

theorem contentsList_drop (items : List Stored) (n : Nat) :
    contentsList (items.drop n) = (contentsList items).drop n := by
  induction n generalizing items with
  | zero => rfl
  | succ n ih =>
    cases items with
    | nil => rfl
    | cons v items => exact ih items

theorem contents_of_listItems {v : Stored} {items : List Stored} (h : v.listItems = some items) :
    v.contents = .list (contentsList items) := by
  cases v with
  | list all offset =>
    cases h
    rw [contents, contentsList_drop]
  | view all offset =>
    cases h
    rw [contents, contentsList_drop]
  | _ => cases h

theorem rtValuesEqual_lists {a b : Stored} {xs ys : List Stored} (ha : a.listItems = some xs)
    (hb : b.listItems = some ys) :
    rtValuesEqual a b = (xs.length == ys.length && zipEqual xs ys) := by
  cases a with
  | list all offset | view all offset =>
    cases b with
    | list _ _ | view _ _ =>
      cases ha
      cases hb
      simp only [rtValuesEqual, listItems]
    | _ => cases hb
  | _ => cases ha

theorem rtValuesEqual_list {a b : Stored} {xs : List Stored} (ha : a.listItems = some xs)
    (hb : b.listItems = none) : rtValuesEqual a b = false := by
  cases a with
  | list _ _ | view _ _ =>
    cases b with
    | list _ _ | view _ _ => cases hb
    | _ => simp [rtValuesEqual, listItems]
  | _ => cases ha

theorem valuesEqual_list {items : List RtValue} {b : Stored} (hb : b.listItems = none) :
    (RtValue.list items).valuesEqual b.contents = false := by
  cases b with
  | list _ _ | view _ _ => cases hb
  | _ => rfl

mutual

/-- Where the items of a list are kept makes no difference. -/
theorem rtValuesEqual_eq (a b : Stored) :
    rtValuesEqual a b = a.contents.valuesEqual b.contents := by
  cases ha : a.listItems with
  | some xs =>
    cases hb : b.listItems with
    | some ys =>
      rw [rtValuesEqual_lists ha hb, contents_of_listItems ha, contents_of_listItems hb,
        zipEqual_eq xs ys]
      rfl
    | none =>
      rw [rtValuesEqual_list ha hb, contents_of_listItems ha, valuesEqual_list hb]
  | none =>
    cases a with
    | variant tagName inner =>
      cases b with
      | variant tagName' inner' =>
        rw [rtValuesEqual, contents, contents, RtValue.valuesEqual,
          rtValuesEqual_eq inner inner']
      | _ => simp [rtValuesEqual, listItems, contents, RtValue.valuesEqual]
    | list _ _ | view _ _ => cases ha
    | _ => cases b <;> simp [rtValuesEqual, listItems, contents, RtValue.valuesEqual]
termination_by sizeOf a
decreasing_by
  · decreasing_tactic
  · exact sizeOf_listItems ha

theorem zipEqual_eq (xs ys : List Stored) :
    (xs.length == ys.length && zipEqual xs ys) =
      RtValue.valuesEqualList (contentsList xs) (contentsList ys) := by
  cases xs with
  | nil =>
    cases ys with
    | nil => simp [zipEqual, contentsList, RtValue.valuesEqualList]
    | cons y ys => simp [contentsList, RtValue.valuesEqualList]
  | cons x xs =>
    cases ys with
    | nil => simp [contentsList, RtValue.valuesEqualList]
    | cons y ys =>
      rw [zipEqual, contentsList, contentsList, RtValue.valuesEqualList,
        ← rtValuesEqual_eq x y, ← zipEqual_eq xs ys, List.length_cons, List.length_cons]
      have hlength : (xs.length + 1 == ys.length + 1) = (xs.length == ys.length) := by
        rw [Bool.eq_iff_iff, beq_iff_eq, beq_iff_eq, Nat.add_right_cancel_iff]
      rw [hlength, Bool.and_left_comm]
termination_by sizeOf xs

end

end Stored

mutual

/-- No map occurs in the value. -/
def RtValue.mapFree : RtValue → Bool
  | .list items => mapFreeList items
  | .map _ => false
  | .variant _ inner => inner.mapFree
  | _ => true

def mapFreeList : List RtValue → Bool
  | [] => true
  | v :: vs => v.mapFree && mapFreeList vs

end

mutual

/-- A value of the machine that is data: no function, and no tuple. -/
def Value.data : VmValue → Bool
  | .nil | .unit | .int _ | .float _ | .bool _ | .str _ | .bytes _ | .intList _ => true
  | .list items => dataList items
  | .map entries => dataEntries entries
  | .variant _ inner => inner.data
  | _ => false

def dataList : List VmValue → Bool
  | [] => true
  | v :: vs => v.data && dataList vs

def dataEntries : List (String × VmValue) → Bool
  | [] => true
  | (_, v) :: rest => v.data && dataEntries rest

end

namespace Stored

/-- What a data value is to the equalities and to the conversions. -/
structure IsData (v : RtValue) : Prop where
  comparable : v.comparable = v.mapFree
  seen : v.seen = v
  interpreted : v.interpreted = true
  plain : (rtToValue v).data = true

theorem isData_lists {items : List RtValue} (h : ∀ v ∈ items, IsData v) :
    RtValue.comparableList items = mapFreeList items ∧ RtValue.seenList items = items ∧
      interpretedList items = true ∧ dataList (rtToValueList items) = true := by
  induction items with
  | nil => exact ⟨rfl, rfl, rfl, rfl⟩
  | cons v items ih =>
    obtain ⟨hcomparable, hseen, hinterpreted, hplain⟩ :=
      ih fun w hw => h w (List.mem_cons_of_mem v hw)
    have hv := h v List.mem_cons_self
    refine ⟨?_, ?_, ?_, ?_⟩
    · rw [RtValue.comparableList, mapFreeList, hv.comparable, hcomparable]
    · rw [RtValue.seenList, hv.seen, hseen]
    · rw [interpretedList, hv.interpreted, hinterpreted]
      rfl
    · rw [rtToValueList, dataList, hv.plain, hplain]
      rfl

theorem IsData.list {items : List RtValue} (h : ∀ v ∈ items, IsData v) : IsData (.list items) := by
  obtain ⟨hcomparable, hseen, hinterpreted, hplain⟩ := isData_lists h
  exact ⟨hcomparable, congrArg RtValue.list hseen, hinterpreted, hplain⟩

mutual

theorem isData_contents : ∀ v : Stored, IsData v.contents
  | .nil | .unit | .int _ | .float _ | .bool _ | .str _ | .bytes _ => ⟨rfl, rfl, rfl, rfl⟩
  | .list items offset => by
    apply IsData.list
    intro v hv
    exact isData_contentsList items v (List.mem_of_mem_drop hv)
  | .view parent offset => by
    apply IsData.list
    intro v hv
    exact isData_contentsList parent v (List.mem_of_mem_drop hv)
  | .map entries => by
    obtain ⟨hinterpreted, hplain⟩ := isData_contentsEntries entries
    exact ⟨rfl, rfl, hinterpreted, hplain⟩
  | .variant tagName inner => by
    obtain ⟨hcomparable, hseen, hinterpreted, hplain⟩ := isData_contents inner
    exact ⟨hcomparable, congrArg (RtValue.variant tagName) hseen, hinterpreted, hplain⟩

theorem isData_contentsList : ∀ items : List Stored, ∀ v ∈ contentsList items, IsData v
  | [] => by
    intro v hv
    cases hv
  | v :: items => by
    intro w hw
    rcases List.mem_cons.mp hw with rfl | hw
    · exact isData_contents v
    · exact isData_contentsList items w hw

theorem isData_contentsEntries : ∀ entries : List (String × Stored),
    interpretedEntries (contentsEntries entries) = true ∧
      dataEntries (rtToValueEntries (contentsEntries entries)) = true
  | [] => ⟨rfl, rfl⟩
  | (key, v) :: rest => by
    have hv := isData_contents v
    obtain ⟨hinterpreted, hplain⟩ := isData_contentsEntries rest
    constructor
    · rw [contentsEntries, interpretedEntries, hv.interpreted, hinterpreted]
      rfl
    · rw [contentsEntries, rtToValueEntries, dataEntries, hv.plain, hplain]
      rfl

end

end Stored

namespace Value

mutual

theorem data_facts : ∀ v : VmValue, v.data = true → v.toRt = v.flat ∧ v.equatable = true
  | .list items => by
    intro h
    obtain ⟨hflat, hequatable⟩ := dataList_facts items h
    exact ⟨congrArg Value.list hflat, hequatable⟩
  | .map entries => by
    intro h
    obtain ⟨hflat, hequatable⟩ := dataEntries_facts entries h
    exact ⟨congrArg Value.map hflat, hequatable⟩
  | .variant tag inner => by
    intro h
    obtain ⟨hflat, hequatable⟩ := data_facts inner h
    exact ⟨congrArg (Value.variant tag) hflat, hequatable⟩
  | .nil | .unit | .int _ | .float _ | .bool _ | .str _ | .bytes _ | .intList _ =>
    fun _ => ⟨rfl, rfl⟩
  | .tuple _ | .builtinFn _ | .irFuncRef _ | .bytecodeClosure _ _ | .partialApp _ _ _
  | .bcFuncNative _ _ _ _ _ _ _ => by
    intro h
    cases h

theorem dataList_facts : ∀ vs : List VmValue, dataList vs = true →
    toRtList vs = flatList vs ∧ equatableList vs = true
  | [] => fun _ => ⟨rfl, rfl⟩
  | v :: vs => by
    intro h
    rw [dataList, Bool.and_eq_true] at h
    obtain ⟨hflat, hequatable⟩ := data_facts v h.1
    obtain ⟨hflats, hequatables⟩ := dataList_facts vs h.2
    rw [toRtList, flatList, hflat, hflats, equatableList, hequatable, hequatables]
    exact ⟨rfl, rfl⟩

theorem dataEntries_facts : ∀ entries : List (String × VmValue), dataEntries entries = true →
    toRtEntries entries = flatEntries entries ∧ equatableEntries entries = true
  | [] => fun _ => ⟨rfl, rfl⟩
  | (key, v) :: rest => by
    intro h
    rw [dataEntries, Bool.and_eq_true] at h
    obtain ⟨hflat, hequatable⟩ := data_facts v h.1
    obtain ⟨hflats, hequatables⟩ := dataEntries_facts rest h.2
    rw [toRtEntries, flatEntries, hflat, hflats, equatableEntries, hequatable, hequatables]
    exact ⟨rfl, rfl⟩

end

end Value

namespace Stored

theorem valueEq_data {x y : VmValue} {a b : Stored} (hx : x.data = true) (hy : y.data = true)
    (ha : valueToRt x = a.contents) (hb : valueToRt y = b.contents) :
    x.valueEq y = true ↔ a.contents = b.contents := by
  obtain ⟨hflatx, hequatable⟩ := Value.data_facts x hx
  obtain ⟨hflaty, -⟩ := Value.data_facts y hy
  have hback (v : Stored) : valueToRt (rtToValue v.contents) = v.contents :=
    (valueToRt_rtToValue_iff v.contents).mpr (isData_contents v).interpreted
  rw [Value.valueEq_iff, ← hflatx, ← hflaty, ← rtToValue_valueToRt, ← rtToValue_valueToRt, ha, hb]
  constructor
  · intro h
    have hsame := congrArg valueToRt h.1
    rwa [hback, hback] at hsame
  · intro h
    rw [h]
    exact ⟨rfl, hequatable⟩

theorem rtValuesEqual_iff {a b : Stored} :
    rtValuesEqual a b = true ↔ a.contents = b.contents ∧ a.contents.mapFree = true := by
  rw [rtValuesEqual_eq, RtValue.valuesEqual_iff, (isData_contents a).comparable,
    (isData_contents a).seen, (isData_contents b).seen]

/-- What one equality for both runtimes would be, at a value: an equivalence that looks at the
contents only, and which the machine shares, also where it has an integer list. -/
structure EqualityLaw (a : Stored) : Prop where
  refl : rtValuesEqual a a = true
  symm : ∀ b, rtValuesEqual a b = rtValuesEqual b a
  trans : ∀ b c, rtValuesEqual a b = true → rtValuesEqual b c = true → rtValuesEqual a c = true
  storage : ∀ a' b, a'.contents = a.contents → rtValuesEqual a' b = rtValuesEqual a b
  toValue : ∀ b, rtValuesEqual a b = (rtToValue a.contents).valueEq (rtToValue b.contents)
  fromValue : ∀ (x y : VmValue) (b : Stored), x.data = true → y.data = true →
    valueToRt x = a.contents → valueToRt y = b.contents → x.valueEq y = rtValuesEqual a b

theorem fromValue_of_mapFree {a : Stored} (h : a.contents.mapFree = true) (x y : VmValue)
    (b : Stored) (hx : x.data = true) (hy : y.data = true) (ha : valueToRt x = a.contents)
    (hb : valueToRt y = b.contents) : x.valueEq y = rtValuesEqual a b := by
  rw [Bool.eq_iff_iff, valueEq_data hx hy ha hb, rtValuesEqual_iff]
  exact ⟨fun heq => ⟨heq, h⟩, And.left⟩

theorem equalityLaw_of_mapFree {a : Stored} (h : a.contents.mapFree = true) : EqualityLaw a where
  refl := rtValuesEqual_iff.mpr ⟨rfl, h⟩
  symm := by
    intro b
    rw [Bool.eq_iff_iff, rtValuesEqual_iff, rtValuesEqual_iff]
    constructor
    · intro heq
      rw [← heq.1]
      exact ⟨rfl, h⟩
    · intro heq
      exact ⟨heq.1.symm, h⟩
  trans := by
    intro b c hab hbc
    obtain ⟨hab, -⟩ := rtValuesEqual_iff.mp hab
    obtain ⟨hbc, -⟩ := rtValuesEqual_iff.mp hbc
    exact rtValuesEqual_iff.mpr ⟨hab.trans hbc, h⟩
  storage := by
    intro a' b ha
    rw [rtValuesEqual_eq, rtValuesEqual_eq, ha]
  toValue := by
    intro b
    have hback (v : Stored) : valueToRt (rtToValue v.contents) = v.contents :=
      (valueToRt_rtToValue_iff v.contents).mpr (isData_contents v).interpreted
    exact (fromValue_of_mapFree h _ _ b (isData_contents a).plain (isData_contents b).plain
      (hback a) (hback b)).symm
  fromValue := fromValue_of_mapFree h

/-- The two runtimes have one equality at the values in which no map occurs. -/
theorem equality_exact (a : Stored) : EqualityLaw a ↔ a.contents.mapFree = true := by
  constructor
  · intro h
    exact (rtValuesEqual_iff.mp h.refl).2
  · exact equalityLaw_of_mapFree

/-- A list of one empty map is not equal to itself, which the machine finds equal. -/
theorem equality_of_maps :
    let a : Stored := .list [.map []] 0
    rtValuesEqual a a = false ∧
      (rtToValue a.contents).valueEq (rtToValue a.contents) = true ∧ ¬ EqualityLaw a := by
  intro a
  have hnot : rtValuesEqual a a = false := by
    rw [rtValuesEqual_eq]
    rfl
  refine ⟨hnot, rfl, ?_⟩
  intro h
  rw [h.refl] at hnot
  cases hnot

end Stored

end Airl
