import Mathlib.Data.List.Sort
import Mathlib.Data.List.TakeWhile
import Mathlib.Data.String.Basic
import Airl.Library.Returns
import Airl.Library.StableSort
import Airl.Runtime.Arithmetic
import Airl.Runtime.Equality
import Airl.Stdlib.Maps

/-! # Sorting and grouping in `airq`

`sort_by`, `group_by` and `unique_by` of `builtins.airl`. The key of an element is the first output
of a filter, or nil.
-/

namespace Airl.Airq

open Stdlib (Run Engine)

/-- `<=` on values, for an `if`. -/
def le (engine : Engine) (x y : VmValue) : Run Bool := do
  let answer ← match engine with
    | .machine => .ok (Value.le x y)
    | .compiled => Value.airlLe x y
  return match answer with
    | .bool b => b
    | _ => false

/-- `=` on values. -/
def eq (engine : Engine) (x y : VmValue) : Bool :=
  match engine with
  | .machine => x.valueEq y
  | .compiled => x.rtValuesEqual y

/-- `(if (empty? results) nil (head results))`. -/
def firstOr : List VmValue → VmValue
  | [] => .nil
  | v :: _ => v

section Functions

variable (engine : Engine) (f : VmValue → Run (List VmValue))

def biInsertBy (elem : VmValue) : List VmValue → Run (List VmValue)
  | [] => return [elem]
  | s :: sorted => do
    let elemKey ← f elem
    let headKey ← f s
    if ← le engine (firstOr elemKey) (firstOr headKey) then return elem :: s :: sorted
    else return s :: (← biInsertBy elem sorted)

def biSortByImpl (lst : List VmValue) : Run (List VmValue) :=
  if lst = [] then return [] else Stdlib.fold (fun acc x => biInsertBy engine f x acc) [] lst

/-- The group and what remains. -/
def biSplitGroup (key : VmValue) : List VmValue → List VmValue → Run (List VmValue × List VmValue)
  | [], acc => return (acc, [])
  | elem :: lst, acc => do
    let elemKey ← f elem
    if eq engine (firstOr elemKey) key then biSplitGroup key lst (acc ++ [elem])
    else return (acc, elem :: lst)

theorem length_le_of_biSplitGroup {key : VmValue} {lst acc group remaining : List VmValue}
    (h : biSplitGroup engine f key lst acc = .ok (group, remaining)) :
    remaining.length ≤ lst.length := by
  induction lst generalizing acc with
  | nil =>
    cases h
    exact Nat.le_refl 0
  | cons elem lst ih =>
    rw [biSplitGroup] at h
    obtain ⟨elemKey, -, h⟩ := except_bind_eq_ok.mp h
    split at h
    · exact Nat.le_succ_of_le (ih h)
    · cases h
      exact Nat.le_refl _

def biGroupSorted : List VmValue → Run (List (List VmValue))
  | [] => return []
  | first :: sorted => do
    let firstKey ← f first
    match h : biSplitGroup engine f (firstOr firstKey) sorted [first] with
    | .error fault => .error fault
    | .ok (group, remaining) =>
      have := length_le_of_biSplitGroup engine f h
      return group :: (← biGroupSorted remaining)
termination_by sorted => sorted.length

def biGroupByImpl (lst : List VmValue) : Run (List (List VmValue)) := do
  biGroupSorted engine f (← biSortByImpl engine f lst)

def biUniqueByImpl : List VmValue → List VmValue → List VmValue → Run (List VmValue)
  | [], _, acc => return acc
  | elem :: lst, seenKeys, acc => do
    let key := firstOr (← f elem)
    if seenKeys.any (eq engine · key) then biUniqueByImpl lst seenKeys acc
    else biUniqueByImpl lst (seenKeys ++ [key]) (acc ++ [elem])

end Functions

section Builtins

variable {Filter : Type} (engine : Engine) (jqEval : Filter → VmValue → Run (List VmValue))

def biSortBy : List Filter → VmValue → Run (List VmValue)
  | f :: _, .list input => return [.list (← biSortByImpl engine (jqEval f) input)]
  | _, input => return [input]

def biGroupBy : List Filter → VmValue → Run (List VmValue)
  | f :: _, .list input => return [.list ((← biGroupByImpl engine (jqEval f) input).map .list)]
  | _, input => return [input]

def biUniqueBy : List Filter → VmValue → Run (List VmValue)
  | f :: _, .list input => return [.list (← biUniqueByImpl engine (jqEval f) input [] [])]
  | _, input => return [input]

end Builtins

/-- Values that stand for the elements of an order, and that `<=` and `=` compare as these. -/
structure Ordered {κ : Type} [LinearOrder κ] (engine : Engine) (code : VmValue → κ → Prop) :
    Prop where
  le_eq : ∀ {v w a b}, code v a → code w b → le engine v w = .ok (decide (a ≤ b))
  eq_eq : ∀ {v w a b}, code v a → code w b → eq engine v w = decide (a = b)

def IntKey (v : VmValue) (i : Int) : Prop := ∃ n : Int64, v = .int n ∧ n.toInt = i

def StringKey (v : VmValue) (s : String) : Prop := v = .str s

theorem ordered_intKey (engine : Engine) : Ordered engine IntKey where
  le_eq := by
    rintro _ _ _ _ ⟨m, rfl, rfl⟩ ⟨n, rfl, rfl⟩
    have hle : (m ≤ n) = (m.toInt ≤ n.toInt) := propext Int64.le_iff_toInt_le
    cases engine with
    | machine => simp [le, Value.le, Value.compareWith, hle, bind, Except.bind, pure, Except.pure]
    | compiled =>
      simp [le, Value.airlLe, Value.airlOrder, hle, bind, Except.bind, pure, Except.pure]
  eq_eq := by
    rintro _ _ _ _ ⟨m, rfl, rfl⟩ ⟨n, rfl, rfl⟩
    have heq : (m = n) = (m.toInt = n.toInt) := propext Int64.toInt_inj.symm
    cases engine with
    | machine => simp [eq, Value.valueEq, heq, beq_eq_decide]
    | compiled => simp [eq, Value.rtValuesEqual, heq, beq_eq_decide]

theorem ordered_stringKey (engine : Engine) : Ordered engine StringKey where
  le_eq := by
    rintro _ _ a b rfl rfl
    have hle : (!decide (b < a)) = decide (a ≤ b) := by
      rw [← decide_not]
      exact decide_eq_decide.mpr not_lt
    cases engine with
    | machine => simp [le, Value.le, Value.compareWith, ← hle, bind, Except.bind, pure, Except.pure]
    | compiled =>
      simp [le, Value.airlLe, Value.airlOrder, ← hle, bind, Except.bind, pure, Except.pure]
  eq_eq := by
    rintro _ _ a b rfl rfl
    cases engine with
    | machine => simp [eq, Value.valueEq, beq_eq_decide]
    | compiled => simp [eq, Value.rtValuesEqual, beq_eq_decide]

section Computed

variable {κ : Type} [LinearOrder κ] {code : VmValue → κ → Prop} {engine : Engine}
variable {f : VmValue → Run (List VmValue)} {key : VmValue → κ}

/-- The first output of `f` on `x` is the key of `x`. -/
def KeyedBy (code : VmValue → κ → Prop) (f : VmValue → Run (List VmValue)) (key : VmValue → κ)
    (x : VmValue) : Prop :=
  ∃ v rest, f x = .ok (v :: rest) ∧ code v (key x)

theorem biInsertBy_eq (hord : Ordered engine code) {elem : VmValue} {sorted : List VmValue}
    (helem : KeyedBy code f key elem) (hsorted : ∀ x ∈ sorted, KeyedBy code f key x) :
    biInsertBy engine f elem sorted =
      .ok (sorted.orderedInsert (fun a b => key a ≤ key b) elem) := by
  induction sorted with
  | nil => rfl
  | cons s sorted ih =>
    have hrest := ih fun x hx => hsorted x (List.mem_cons_of_mem _ hx)
    obtain ⟨v, rest, hv, hvkey⟩ := helem
    obtain ⟨w, rest', hw, hwkey⟩ := hsorted s List.mem_cons_self
    rw [biInsertBy, hv, hw, List.orderedInsert_cons]
    show (le engine v w >>= fun b => if b = true then _ else _) = _
    rw [hord.le_eq hvkey hwkey]
    show (if decide (key elem ≤ key s) = true then _ else _) = _
    by_cases hle : key elem ≤ key s
    · rw [if_pos hle, decide_eq_true hle]
      rfl
    · rw [if_neg hle, decide_eq_false hle, if_neg Bool.false_ne_true, hrest]
      rfl

theorem fold_biInsertBy (hord : Ordered engine code) {xs acc : List VmValue}
    (hxs : ∀ x ∈ xs, KeyedBy code f key x) (hacc : ∀ x ∈ acc, KeyedBy code f key x) :
    Stdlib.fold (fun acc x => biInsertBy engine f x acc) acc xs =
      .ok (xs.foldl (fun acc x => acc.orderedInsert (fun a b => key a ≤ key b) x) acc) := by
  induction xs generalizing acc with
  | nil => rfl
  | cons x xs ih =>
    have hx := hxs x List.mem_cons_self
    rw [Stdlib.fold, biInsertBy_eq hord hx hacc]
    apply ih fun y hy => hxs y (List.mem_cons_of_mem _ hy)
    intro y hy
    rcases (List.mem_orderedInsert _).mp hy with rfl | hy
    · exact hx
    · exact hacc y hy

theorem biSortByImpl_eq (hord : Ordered engine code) {xs : List VmValue}
    (hxs : ∀ x ∈ xs, KeyedBy code f key x) : biSortByImpl engine f xs =
      .ok (xs.reverse.insertionSort fun a b => key a ≤ key b) := by
  have hfold := fold_biInsertBy hord hxs (List.forall_mem_nil _)
  rw [biSortByImpl]
  split
  · next hnil =>
    rw [hnil]
    rfl
  · rw [hfold, List.insertionSort, List.foldr_reverse]

theorem biSplitGroup_eq (hord : Ordered engine code) {v : VmValue} {c : κ} (hv : code v c)
    {lst : List VmValue} (hlst : ∀ x ∈ lst, KeyedBy code f key x) (acc : List VmValue) :
    biSplitGroup engine f v lst acc =
      .ok (acc ++ lst.takeWhile (key · = c), lst.dropWhile (key · = c)) := by
  induction lst generalizing acc with
  | nil => rw [List.takeWhile_nil, List.append_nil]; rfl
  | cons elem lst ih =>
    obtain ⟨w, rest, hw, hwkey⟩ := hlst elem List.mem_cons_self
    rw [biSplitGroup, hw]
    show (if eq engine w v = true then _ else _) = _
    rw [hord.eq_eq hwkey hv]
    by_cases hkey : key elem = c
    · rw [if_pos (decide_eq_true hkey), ih fun x hx => hlst x (List.mem_cons_of_mem _ hx)]
      simp only [List.takeWhile_cons, List.dropWhile_cons, hkey, decide_true, if_true,
        List.append_assoc, List.singleton_append]
    · simp only [List.takeWhile_cons, List.dropWhile_cons, hkey, decide_false,
        Bool.false_eq_true, if_false, List.append_nil]
      rfl

theorem biGroupSorted_cons {first v : VmValue} {rest sorted group remaining : List VmValue}
    (hf : f first = .ok (v :: rest))
    (hsplit : biSplitGroup engine f v sorted [first] = .ok (group, remaining)) :
    biGroupSorted engine f (first :: sorted) =
      (biGroupSorted engine f remaining >>= fun groups => .ok (group :: groups)) := by
  rw [biGroupSorted, hf]
  dsimp only [bind, Except.bind, firstOr]
  split
  · next hfail =>
    rw [hsplit] at hfail
    cases hfail
  · next hdone =>
    rw [hsplit] at hdone
    cases hdone
    rfl

def byKey (key : VmValue → κ) (a b : VmValue) : Bool := decide (key a ≤ key b)

/-- The maximal classes of equal key, in the order of their keys, with their elements as they
stood. -/
structure Grouped (key : VmValue → κ) (xs : List VmValue) (groups : List (List VmValue)) :
    Prop where
  sorted : IsStableSort (fun _ => True) (byKey key) xs groups.flatten
  classes : ∀ g ∈ groups, g ≠ [] ∧ ∃ c, ∀ a ∈ g, key a = c
  maximal : groups.Pairwise fun g h => ∀ a ∈ g, ∀ b ∈ h, key a < key b

/-- The first element of every class. -/
structure HoldsFirsts (key : VmValue → κ) (xs ys : List VmValue) : Prop where
  firsts : ∀ y, y ∈ ys ↔ xs.find? (key · = key y) = some y
  apart : ys.Pairwise fun a b => key a ≠ key b

/-- What `sort_by`, `group_by` and `unique_by` promise. -/
structure SortingLaws (engine : Engine) (f : VmValue → Run (List VmValue)) (key : VmValue → κ)
    (xs : List VmValue) : Prop where
  sortBy : ∃ ys, biSortBy engine id [f] (.list xs) = .ok [.list ys] ∧
    IsStableSort (fun _ => True) (byKey key) xs ys
  groupBy : ∃ groups, biGroupBy engine id [f] (.list xs) = .ok [.list (groups.map .list)] ∧
    Grouped key xs groups
  uniqueBy : ∃ ys, biUniqueBy engine id [f] (.list xs) = .ok [.list ys] ∧ HoldsFirsts key xs ys

/-- In every class the elements read the same from behind. -/
def ClassesReversible (key : VmValue → κ) (xs : List VmValue) : Prop :=
  ∀ c, (xs.filter (key · = c)).reverse = xs.filter (key · = c)

theorem filter_orderedInsert (a : VmValue) (l : List VmValue) (c : κ) :
    (l.orderedInsert (fun a b => key a ≤ key b) a).filter (key · = c) =
      (a :: l).filter (key · = c) := by
  induction l with
  | nil => rfl
  | cons b l ih =>
    rw [List.orderedInsert_cons]
    split
    · rfl
    · next hle =>
      rw [List.filter_cons, ih]
      by_cases ha : key a = c
      · -- what stands in front has a smaller key
        have hb : ¬ key b = c := by
          rintro rfl
          exact hle (le_of_eq ha)
        simp [ha, hb]
      · simp [List.filter_cons, ha]

theorem filter_insertionSort (l : List VmValue) (c : κ) :
    (l.insertionSort fun a b => key a ≤ key b).filter (key · = c) = l.filter (key · = c) := by
  induction l with
  | nil => rfl
  | cons a l ih =>
    rw [List.insertionSort_cons, filter_orderedInsert, List.filter_cons, List.filter_cons, ih]

theorem pairwise_insertionSort (l : List VmValue) :
    (l.insertionSort fun a b => key a ≤ key b).Pairwise fun a b => key a ≤ key b := by
  have : Std.Total fun a b : VmValue => key a ≤ key b := ⟨fun a b => le_total (key a) (key b)⟩
  have : IsTrans VmValue fun a b => key a ≤ key b := ⟨fun _ _ _ => le_trans⟩
  exact List.pairwise_insertionSort _ l

theorem tied_byKey (a : VmValue) : tied (byKey key) a = fun b => decide (key b = key a) := by
  funext b
  rw [tied, byKey, byKey, Bool.eq_iff_iff, Bool.and_eq_true, decide_eq_true_iff,
    decide_eq_true_iff, decide_eq_true_iff]
  exact ⟨fun h => le_antisymm h.2 h.1, fun h => ⟨le_of_eq h.symm, le_of_eq h⟩⟩

theorem isStableSort_iff (xs : List VmValue) :
    IsStableSort (fun _ => True) (byKey key) xs
      (xs.reverse.insertionSort fun a b => key a ≤ key b) ↔ ClassesReversible key xs := by
  have hclass : ∀ c, (xs.reverse.insertionSort fun a b => key a ≤ key b).filter (key · = c) =
      (xs.filter (key · = c)).reverse := by
    intro c
    rw [filter_insertionSort, List.filter_reverse]
  constructor
  · intro h c
    by_cases hc : ∃ x ∈ xs, key x = c
    · obtain ⟨x, -, rfl⟩ := hc
      have hstable := h.stable x trivial
      rwa [tied_byKey, hclass] at hstable
    · have hnil : xs.filter (key · = c) = [] := by
        rw [List.filter_eq_nil_iff]
        intro x hx hkey
        exact hc ⟨x, hx, of_decide_eq_true hkey⟩
      rw [hnil]
      rfl
  · intro h
    refine ⟨(List.perm_insertionSort _ _).trans (List.reverse_perm xs), ?_, fun a _ => ?_⟩
    · refine (pairwise_insertionSort xs.reverse).imp ?_
      intro a b hle
      exact decide_eq_true hle
    · rw [tied_byKey, hclass]
      exact h (key a)

theorem lt_of_mem_dropWhile {c : κ} {l : List VmValue} (hle : ∀ x ∈ l, c ≤ key x)
    (hsorted : l.Pairwise fun a b => key a ≤ key b) {b : VmValue}
    (hb : b ∈ l.dropWhile (key · = c)) : c < key b := by
  induction l with
  | nil => cases hb
  | cons x l ih =>
    rw [List.pairwise_cons] at hsorted
    by_cases hx : key x = c
    · simp only [List.dropWhile_cons, hx, decide_true, if_true] at hb
      exact ih (fun y hy => hle y (List.mem_cons_of_mem _ hy)) hsorted.2 hb
    · simp only [List.dropWhile_cons, hx, decide_false, Bool.false_eq_true, if_false] at hb
      have hlt : c < key x := lt_of_le_of_ne (hle x List.mem_cons_self) (Ne.symm hx)
      rcases List.mem_cons.mp hb with rfl | hb
      · exact hlt
      · exact lt_of_lt_of_le hlt (hsorted.1 b hb)

theorem biGroupSorted_eq (hord : Ordered engine code) {l : List VmValue}
    (hl : ∀ x ∈ l, KeyedBy code f key x) (hsorted : l.Pairwise fun a b => key a ≤ key b) :
    ∃ groups, biGroupSorted engine f l = .ok groups ∧ groups.flatten = l ∧
      (∀ g ∈ groups, g ≠ [] ∧ ∃ c, ∀ a ∈ g, key a = c) ∧
      groups.Pairwise fun g h => ∀ a ∈ g, ∀ b ∈ h, key a < key b := by
  induction hlen : l.length using Nat.strongRecOn generalizing l with
  | _ n ih =>
    subst hlen
    cases l with
    | nil =>
      refine ⟨[], ?_, rfl, List.forall_mem_nil _, List.Pairwise.nil⟩
      rw [biGroupSorted]
      rfl
    | cons first sorted =>
      obtain ⟨v, rest, hf, hv⟩ := hl first List.mem_cons_self
      have hkeyed : ∀ x ∈ sorted, KeyedBy code f key x :=
        fun x hx => hl x (List.mem_cons_of_mem _ hx)
      rw [List.pairwise_cons] at hsorted
      have hsub : List.Sublist (sorted.dropWhile (key · = key first)) sorted :=
        List.dropWhile_sublist _
      obtain ⟨groups, hgroups, hflatten, hclasses, hmaximal⟩ :=
        ih _ (Nat.lt_succ_of_le hsub.length_le) (fun x hx => hkeyed x (hsub.subset hx))
          (hsorted.2.sublist hsub) rfl
      have hgroup : ∀ a ∈ [first] ++ sorted.takeWhile (key · = key first), key a = key first := by
        intro a ha
        rcases List.mem_append.mp ha with ha | ha
        · rw [List.mem_singleton.mp ha]
        · have hkey := List.mem_takeWhile_imp ha
          exact of_decide_eq_true hkey
      refine ⟨([first] ++ sorted.takeWhile (key · = key first)) :: groups, ?_, ?_, ?_, ?_⟩
      · rw [biGroupSorted_cons hf (biSplitGroup_eq hord hv hkeyed [first]), hgroups]
        rfl
      · rw [List.flatten_cons, hflatten, List.append_assoc, List.takeWhile_append_dropWhile]
        rfl
      · rw [List.forall_mem_cons]
        exact ⟨⟨List.cons_ne_nil _ _, key first, hgroup⟩, hclasses⟩
      · rw [List.pairwise_cons]
        refine ⟨?_, hmaximal⟩
        intro h hh a ha b hb
        have hbrest : b ∈ sorted.dropWhile (key · = key first) := by
          rw [← hflatten]
          exact List.mem_flatten.mpr ⟨h, hh, hb⟩
        have hlt := lt_of_mem_dropWhile hsorted.1 hsorted.2 hbrest
        rwa [hgroup a ha]

/-- The elements with a key that no earlier one has. -/
def firstsFrom (key : VmValue → κ) (earlier : List VmValue) : List VmValue → List VmValue
  | [] => []
  | x :: xs =>
    if earlier.any (key · = key x) then firstsFrom key (earlier ++ [x]) xs
    else x :: firstsFrom key (earlier ++ [x]) xs

/-- The values seen stand for the keys of the earlier elements. -/
def SeenKeys (code : VmValue → κ → Prop) (key : VmValue → κ) (seen earlier : List VmValue) :
    Prop :=
  (∀ v ∈ seen, ∃ x ∈ earlier, code v (key x)) ∧ ∀ x ∈ earlier, ∃ v ∈ seen, code v (key x)

theorem SeenKeys.any_eq (hord : Ordered engine code) {seen earlier : List VmValue}
    (hseen : SeenKeys code key seen earlier) {v : VmValue} {c : κ} (hv : code v c) :
    seen.any (eq engine · v) = earlier.any (key · = c) := by
  rw [Bool.eq_iff_iff, List.any_eq_true, List.any_eq_true]
  constructor
  · rintro ⟨w, hw, heq⟩
    obtain ⟨x, hx, hwkey⟩ := hseen.1 w hw
    rw [hord.eq_eq hwkey hv] at heq
    exact ⟨x, hx, heq⟩
  · rintro ⟨x, hx, heq⟩
    obtain ⟨w, hw, hwkey⟩ := hseen.2 x hx
    exact ⟨w, hw, by rwa [hord.eq_eq hwkey hv]⟩

omit [LinearOrder κ] in
theorem SeenKeys.push {seen earlier : List VmValue} (hseen : SeenKeys code key seen earlier)
    {v x : VmValue} (hv : code v (key x)) : SeenKeys code key (seen ++ [v]) (earlier ++ [x]) := by
  refine ⟨fun w hw => ?_, fun y hy => ?_⟩
  · rcases List.mem_append.mp hw with hw | hw
    · obtain ⟨y, hy, hwkey⟩ := hseen.1 w hw
      exact ⟨y, List.mem_append_left _ hy, hwkey⟩
    · rw [List.mem_singleton.mp hw]
      exact ⟨x, List.mem_append_right _ (List.mem_singleton_self x), hv⟩
  · rcases List.mem_append.mp hy with hy | hy
    · obtain ⟨w, hw, hwkey⟩ := hseen.2 y hy
      exact ⟨w, List.mem_append_left _ hw, hwkey⟩
    · rw [List.mem_singleton.mp hy]
      exact ⟨v, List.mem_append_right _ (List.mem_singleton_self v), hv⟩

theorem SeenKeys.pass {seen earlier : List VmValue} (hseen : SeenKeys code key seen earlier)
    {x : VmValue} (hx : earlier.any (key · = key x) = true) :
    SeenKeys code key seen (earlier ++ [x]) := by
  refine ⟨fun w hw => ?_, fun y hy => ?_⟩
  · obtain ⟨y, hy, hwkey⟩ := hseen.1 w hw
    exact ⟨y, List.mem_append_left _ hy, hwkey⟩
  · rcases List.mem_append.mp hy with hy | hy
    · exact hseen.2 y hy
    · obtain ⟨z, hz, heq⟩ := List.any_eq_true.mp hx
      obtain ⟨w, hw, hwkey⟩ := hseen.2 z hz
      rw [List.mem_singleton.mp hy, ← of_decide_eq_true heq]
      exact ⟨w, hw, hwkey⟩

theorem biUniqueByImpl_eq (hord : Ordered engine code) {xs seen earlier : List VmValue}
    (hxs : ∀ x ∈ xs, KeyedBy code f key x) (hseen : SeenKeys code key seen earlier)
    (acc : List VmValue) :
    biUniqueByImpl engine f xs seen acc = .ok (acc ++ firstsFrom key earlier xs) := by
  induction xs generalizing seen earlier acc with
  | nil => rw [firstsFrom, List.append_nil]; rfl
  | cons x xs ih =>
    obtain ⟨v, rest, hv, hvkey⟩ := hxs x List.mem_cons_self
    have hrest : ∀ y ∈ xs, KeyedBy code f key y := fun y hy => hxs y (List.mem_cons_of_mem _ hy)
    rw [biUniqueByImpl, hv, firstsFrom]
    show (if seen.any (eq engine · v) = true then _ else _) = _
    rw [hseen.any_eq hord hvkey]
    split
    · next hany => exact ih hrest (hseen.pass hany) acc
    · show biUniqueByImpl engine f xs (seen ++ [v]) (acc ++ [x]) = _
      rw [ih hrest (hseen.push hvkey), List.append_assoc]
      rfl

theorem mem_firstsFrom (earlier xs : List VmValue) (y : VmValue) :
    y ∈ firstsFrom key earlier xs ↔
      (∀ x ∈ earlier, key x ≠ key y) ∧ xs.find? (key · = key y) = some y := by
  induction xs generalizing earlier with
  | nil => simp [firstsFrom]
  | cons x xs ih =>
    rw [firstsFrom, List.find?_cons]
    by_cases hxy : key x = key y
    · have hlater : y ∉ firstsFrom key (earlier ++ [x]) xs := by
        rw [ih]
        rintro ⟨hno, -⟩
        exact hno x (List.mem_append_right _ (List.mem_singleton_self x)) hxy
      rw [decide_eq_true hxy]
      split
      · next hany =>
        obtain ⟨z, hz, heq⟩ := List.any_eq_true.mp hany
        refine ⟨fun hy => absurd hy hlater, ?_⟩
        rintro ⟨hno, -⟩
        exact absurd ((of_decide_eq_true heq).trans hxy) (hno z hz)
      · next hany =>
        rw [List.mem_cons, or_iff_left hlater]
        constructor
        · rintro rfl
          refine ⟨fun z hz heq => hany ?_, rfl⟩
          exact List.any_eq_true.mpr ⟨z, hz, decide_eq_true heq⟩
        · rintro ⟨-, hfind⟩
          exact (Option.some.inj hfind).symm
    · have hne : y ≠ x := by
        rintro rfl
        exact hxy rfl
      have hlater := ih (earlier ++ [x])
      have hboth : (∀ z ∈ earlier ++ [x], key z ≠ key y) ↔ ∀ z ∈ earlier, key z ≠ key y := by
        rw [List.forall_mem_append, List.forall_mem_singleton, and_iff_left hxy]
      rw [hboth] at hlater
      rw [decide_eq_false hxy]
      split
      · exact hlater
      · rw [List.mem_cons, or_iff_right hne]
        exact hlater

theorem holdsFirsts_firstsFrom (xs : List VmValue) : HoldsFirsts key xs (firstsFrom key [] xs) := by
  have hapart : ∀ earlier, (firstsFrom key earlier xs).Pairwise fun a b => key a ≠ key b := by
    induction xs with
    | nil => exact fun _ => List.Pairwise.nil
    | cons x xs ih =>
      intro earlier
      rw [firstsFrom]
      split
      · exact ih _
      · rw [List.pairwise_cons]
        refine ⟨fun y hy => ?_, ih _⟩
        exact ((mem_firstsFrom _ _ y).mp hy).1 x
          (List.mem_append_right _ (List.mem_singleton_self x))
  refine ⟨fun y => ?_, hapart []⟩
  rw [mem_firstsFrom, and_iff_right (List.forall_mem_nil _)]

theorem sortingLaws_iff (hord : Ordered engine code) {xs : List VmValue}
    (hxs : ∀ x ∈ xs, KeyedBy code f key x) :
    SortingLaws engine f key xs ↔ ClassesReversible key xs := by
  have hsort := biSortByImpl_eq hord hxs
  have hbuiltin : biSortBy engine id [f] (.list xs) =
      .ok [.list (xs.reverse.insertionSort fun a b => key a ≤ key b)] := by
    show (biSortByImpl engine f xs >>= _) = _
    rw [hsort]
    rfl
  constructor
  · rintro ⟨⟨ys, hys, hstable⟩, -, -⟩
    rw [hbuiltin] at hys
    cases hys
    exact (isStableSort_iff xs).mp hstable
  · intro h
    have hstable := (isStableSort_iff xs).mpr h
    have hkeyed : ∀ x ∈ xs.reverse.insertionSort fun a b => key a ≤ key b,
        KeyedBy code f key x := by
      intro x hx
      exact hxs x (List.mem_reverse.mp ((List.mem_insertionSort _).mp hx))
    obtain ⟨groups, hgroups, hflatten, hclasses, hmaximal⟩ :=
      biGroupSorted_eq hord hkeyed (pairwise_insertionSort xs.reverse)
    refine ⟨⟨_, hbuiltin, hstable⟩, ⟨groups, ?_, ?_, hclasses, hmaximal⟩,
      firstsFrom key [] xs, ?_, holdsFirsts_firstsFrom xs⟩
    · show ((biSortByImpl engine f xs >>= biGroupSorted engine f) >>= _) = _
      rw [hsort]
      show (biGroupSorted engine f _ >>= _) = _
      rw [hgroups]
      rfl
    · rwa [hflatten]
    · show (biUniqueByImpl engine f xs [] [] >>= _) = _
      rw [biUniqueByImpl_eq hord hxs ⟨List.forall_mem_nil _, List.forall_mem_nil _⟩]
      rfl

end Computed

/-- On keys that are integers, and on keys that are strings, the laws hold exactly where in every
class of equal key the elements read the same from behind. -/
theorem sorting_iff (engine : Engine) (f : VmValue → Run (List VmValue)) (xs : List VmValue) :
    (∀ key : VmValue → Int, (∀ x ∈ xs, KeyedBy IntKey f key x) →
      (SortingLaws engine f key xs ↔ ClassesReversible key xs)) ∧
    ∀ key : VmValue → String, (∀ x ∈ xs, KeyedBy StringKey f key x) →
      (SortingLaws engine f key xs ↔ ClassesReversible key xs) :=
  ⟨fun _ => sortingLaws_iff (ordered_intKey engine),
    fun _ => sortingLaws_iff (ordered_stringKey engine)⟩

/-- The filter `.[0]` on lists. -/
def headOf : VmValue → Run (List VmValue)
  | .list (k :: _) => return [k]
  | _ => return [.nil]

def headInt : VmValue → Int
  | .list (.int n :: _) => n.toInt
  | _ => 0

theorem sorting_iff_numbers :
    SortingLaws .compiled headOf headInt [.list [.int 2], .list [.int 1, .nil]] := by
  apply ((sorting_iff .compiled headOf [.list [.int 2], .list [.int 1, .nil]]).1 headInt ?_).mpr
  · intro c
    have hone : headInt (.list [.int 1, .nil]) = 1 := rfl
    have htwo : headInt (.list [.int 2]) = 2 := rfl
    simp only [List.filter_cons, List.filter_nil, hone, htwo]
    by_cases hc : (2 : Int) = c
    · subst hc
      rfl
    · simp only [hc, decide_false, Bool.false_eq_true, if_false]
      split
      · rfl
      · rfl
  · rw [List.forall_mem_cons, List.forall_mem_singleton]
    exact ⟨⟨.int 2, [], rfl, 2, rfl, rfl⟩, ⟨.int 1, [], rfl, 1, rfl, rfl⟩⟩

/-- Two elements of equal key change places. -/
theorem sortBy_unstable :
    biSortBy .machine id [headOf]
        (.list [.list [.int 1, .str "a"], .list [.int 1, .str "b"]]) =
      .ok [.list [.list [.int 1, .str "b"], .list [.int 1, .str "a"]]] ∧
    ¬ SortingLaws .machine headOf headInt
      [.list [.int 1, .str "a"], .list [.int 1, .str "b"]] := by
  have hrun : biSortBy .machine id [headOf]
        (.list [.list [.int 1, .str "a"], .list [.int 1, .str "b"]]) =
      .ok [.list [.list [.int 1, .str "b"], .list [.int 1, .str "a"]]] := by rfl
  refine ⟨hrun, ?_⟩
  rintro ⟨⟨ys, hys, hstable⟩, -, -⟩
  rw [hrun] at hys
  cases hys
  have hclass := hstable.stable (.list [.int 1]) trivial
  have hfirst := congrArg List.head? hclass
  rw [tied_byKey] at hfirst
  have hone : decide (headInt (.list [.int 1, .str "a"]) = headInt (.list [.int 1])) = true := rfl
  have hone' : decide (headInt (.list [.int 1, .str "b"]) = headInt (.list [.int 1])) = true := rfl
  simp only [List.filter_cons, hone, hone', if_true, List.head?_cons] at hfirst
  injection hfirst with heq
  injection heq with heq
  injection heq with _ heq
  injection heq with heq
  injection heq with heq
  exact absurd heq (by decide)

end Airl.Airq
