import Mathlib.Data.Finmap
import Mathlib.Data.Finset.Sort
import Airl.Stdlib.Maps

/-! # Maps are finite maps

Whatever order the hash map keeps, its operations are those of a finite map from texts to values,
and sets are finite sets of texts. Runs of any operations on any maps obtained so far agree.
-/

namespace Airl.Stdlib

/-- A finite map from texts to values. -/
abbrev FinMap := Finmap fun _ : String => RtValue

namespace FinMap

def sortedKeys (f : FinMap) : List String := f.keys.sort (· ≤ ·)

def value (f : FinMap) (k : String) : RtValue := (f.lookup k).getD .nil

/-- The set as a map to `true`. -/
def ofSet (s : Finset String) : FinMap :=
  ((s.sort (· ≤ ·)).map fun x => (⟨x, .bool true⟩ : Sigma fun _ : String => RtValue)).toFinmap

end FinMap

namespace HashMap

variable (H : Hasher) {m : HashMap} {k : String} {v : RtValue}

/-- What the hash map stands for. -/
def toFinmap (m : HashMap) : FinMap :=
  (m.entries.map fun e => (⟨e.1, e.2⟩ : Sigma fun _ : String => RtValue)).toFinmap

theorem dlookup_map (l : List (String × RtValue)) (k : String) :
    (l.map fun e => (⟨e.1, e.2⟩ : Sigma fun _ : String => RtValue)).dlookup k = l.lookup k := by
  induction l with
  | nil => rfl
  | cons e l ih =>
    obtain ⟨k', v⟩ := e
    rw [List.map_cons, List.lookup_cons]
    by_cases hk : k = k'
    · subst hk
      simp
    · rw [beq_eq_false_iff_ne.mpr hk, List.dlookup_cons_ne _ _ hk]
      exact ih

/-- The finite map of a hash map has the values that `get` finds. -/
@[simp] theorem lookup_toFinmap (m : HashMap) (k : String) : m.toFinmap.lookup k = m.get k := by
  rw [toFinmap, Finmap.dlookup_list_toFinmap, dlookup_map, get]

theorem mem_toFinmap : k ∈ m.toFinmap ↔ m.containsKey k = true := by
  rw [← Finmap.lookup_isSome, lookup_toFinmap, containsKey]

theorem toFinmap_empty : empty.toFinmap = ∅ := rfl

theorem mem_replaced (h : m.containsKey k = true) {e : String × RtValue} :
    e ∈ m.replaced k v ↔ e = (k, v) ∨ e ∈ m.entries ∧ e.1 ≠ k := by
  rw [replaced, List.mem_map]
  constructor
  · intro hmem
    obtain ⟨e', he', rfl⟩ := hmem
    by_cases hk : e'.1 = k
    · rw [if_pos hk]
      exact Or.inl rfl
    · rw [if_neg hk]
      exact Or.inr ⟨he', hk⟩
  · intro hmem
    rcases hmem with rfl | ⟨he, hk⟩
    · obtain ⟨e', he', hk⟩ := List.mem_map.mp (containsKey_iff.mp h)
      exact ⟨e', he', if_pos hk⟩
    · exact ⟨e, he, if_neg hk⟩

theorem mem_insert {e : String × RtValue} :
    e ∈ (m.insert H k v).entries ↔ e = (k, v) ∨ e ∈ m.entries ∧ e.1 ≠ k := by
  unfold insert
  split
  · next h => exact mem_replaced h
  · next h =>
    rw [(H.perm _).mem_iff, List.mem_append, List.mem_singleton, or_comm]
    -- no entry has the new key
    have hne : e ∈ m.entries → e.1 ≠ k := by
      intro he hk
      exact h (containsKey_iff.mpr (List.mem_map.mpr ⟨e, he, hk⟩))
    exact or_congr_right ⟨fun he => ⟨he, hne he⟩, fun he => he.1⟩

/-- An insertion changes the value of its own key and of no other. -/
theorem get_insert (m : HashMap) (k k' : String) (v : RtValue) :
    (m.insert H k v).get k' = if k' = k then some v else m.get k' := by
  apply Option.ext
  intro w
  rw [get_eq_some_iff, mem_insert]
  by_cases hk : k' = k
  · subst hk
    simp [eq_comm]
  · rw [if_neg hk, get_eq_some_iff]
    simp [hk]

/-- Insertion refines insertion, on a repeated key too. -/
@[simp] theorem toFinmap_insert (m : HashMap) (k : String) (v : RtValue) :
    (m.insert H k v).toFinmap = m.toFinmap.insert k v := by
  apply Finmap.ext_lookup
  intro k'
  rw [lookup_toFinmap, get_insert]
  by_cases hk : k' = k
  · subst hk
    rw [if_pos rfl, Finmap.lookup_insert]
  · rw [if_neg hk, Finmap.lookup_insert_of_ne _ hk, lookup_toFinmap]

/-- Putting entries with different keys into a map, one after another. -/
theorem get_foldl_insert (l : List (String × RtValue)) (h : (l.map Prod.fst).Nodup)
    (m : HashMap) (k : String) :
    (l.foldl (fun new e => new.insert H e.1 e.2) m).get k = (l.lookup k).or (m.get k) := by
  induction l generalizing m with
  | nil => rfl
  | cons e l ih =>
    obtain ⟨k', v⟩ := e
    rw [List.map_cons, List.nodup_cons] at h
    rw [List.foldl_cons, ih h.2, get_insert, List.lookup_cons]
    by_cases hk : k = k'
    · subst hk
      have hnone : l.lookup k = none := by
        rw [Option.eq_none_iff_forall_ne_some]
        intro w hw
        exact h.1 (List.mem_map.mpr ⟨_, (lookup_eq_some_iff_mem h.2).mp hw, rfl⟩)
      simp [hnone]
    · rw [if_neg hk, beq_eq_false_iff_ne.mpr hk]

/-- Copying a map entry by entry gives a map of the same values. -/
theorem toFinmap_copy (m : HashMap) :
    (m.entries.foldl (fun new e => new.insert H e.1 e.2) empty).toFinmap = m.toFinmap := by
  apply Finmap.ext_lookup
  intro k
  rw [lookup_toFinmap, lookup_toFinmap, get_foldl_insert H m.entries m.nodup, ← get]
  exact Option.or_none

theorem foldl_skip (l : List (String × RtValue)) (k : String) (m : HashMap) :
    l.foldl (fun new e => if e.1 = k then new else new.insert H e.1 e.2) m =
      (l.filter fun e => e.1 ≠ k).foldl (fun new e => new.insert H e.1 e.2) m := by
  induction l generalizing m with
  | nil => rfl
  | cons e l ih =>
    rw [List.foldl_cons, ih, List.filter_cons]
    by_cases hk : e.1 = k
    · simp [hk]
    · simp [hk]

/-- Copying all but one key refines erasing it. -/
theorem toFinmap_copy_without (m : HashMap) (k : String) :
    (m.entries.foldl (fun new e => if e.1 = k then new else new.insert H e.1 e.2)
      empty).toFinmap = m.toFinmap.erase k := by
  have hnodup : ((m.entries.filter fun e => e.1 ≠ k).map Prod.fst).Nodup :=
    (List.filter_sublist.map Prod.fst).nodup m.nodup
  apply Finmap.ext_lookup
  intro k'
  rw [lookup_toFinmap, foldl_skip, get_foldl_insert H _ hnodup]
  apply Option.ext
  intro v
  have hget : empty.get k' = none := rfl
  rw [hget, Option.or_none, lookup_eq_some_iff_mem hnodup, List.mem_filter]
  by_cases hk : k' = k
  · subst hk
    simp
  · rw [Finmap.lookup_erase_ne hk, lookup_toFinmap, get_eq_some_iff]
    simp [hk]

theorem mem_keys {m : HashMap} {k : String} : k ∈ m.entries.map Prod.fst ↔ k ∈ m.toFinmap.keys := by
  rw [Finmap.mem_keys, mem_toFinmap, containsKey_iff]

/-- The keys in sorted order depend on the finite map alone. -/
theorem sortedKeys_eq (m : HashMap) : sortedKeys m = m.toFinmap.sortedKeys := by
  have hperm : (sortedKeys m).Perm m.toFinmap.sortedKeys := by
    apply (List.mergeSort_perm _ _).trans
    rw [FinMap.sortedKeys, List.perm_ext_iff_of_nodup m.nodup (Finset.sort_nodup _ _)]
    intro k
    rw [mem_keys, Finset.mem_sort]
  have hsorted : (sortedKeys m).Pairwise (· ≤ ·) := List.pairwise_mergeSort' (· ≤ ·) _
  exact List.Perm.eq_of_pairwise' hsorted (Finset.pairwise_sort _ _) hperm

end HashMap

/-! ## One operation -/

/-- The computation returns a hash map that stands for `f`. -/
def Gives (x : Run HashMap) (f : FinMap) : Prop := ∃ m, x = .ok m ∧ m.toFinmap = f

/-- It does with so many frames, and with fewer it overflows the stack. -/
def GivesOn (stack : Stack Fault) (need : Nat) (x : Run HashMap) (f : FinMap) : Prop :=
  ∃ y, x = stack.within need y ∧ Gives y f

section Operations

variable (H : Hasher) {m a b : HashMap}

/-- `map-get` reads the finite map, with nil for a key that is missing. -/
theorem airlMapGet_str (m : HashMap) (k : String) :
    airlMapGet m (.str k) = .ok (m.toFinmap.value k) := by
  rw [FinMap.value, HashMap.lookup_toFinmap]
  rfl

theorem airlMapHas_str (m : HashMap) (k : String) :
    airlMapHas m (.str k) = .ok (decide (k ∈ m.toFinmap)) := by
  have hhas : decide (k ∈ m.toFinmap) = m.containsKey k := by
    rw [Bool.eq_iff_iff, decide_eq_true_iff, HashMap.mem_toFinmap]
  rw [hhas]
  rfl

/-- `map-set` refines insertion. -/
theorem airlMapSet_gives (m : HashMap) (k : String) (v : RtValue) :
    Gives (airlMapSet H m (.str k) v) (m.toFinmap.insert k v) := by
  refine ⟨_, rfl, ?_⟩
  rw [HashMap.toFinmap_insert, HashMap.toFinmap_copy]

/-- `map-remove` refines erasure. -/
theorem airlMapRemove_gives (m : HashMap) (k : String) :
    Gives (airlMapRemove H m (.str k)) (m.toFinmap.erase k) :=
  ⟨_, rfl, HashMap.toFinmap_copy_without H m k⟩

/-- `map-keys` lists the keys in order. -/
theorem airlMapKeys_eq (m : HashMap) : airlMapKeys m = m.toFinmap.sortedKeys.map .str := by
  rw [airlMapKeys, HashMap.sortedKeys_eq]

variable (stack : Stack Fault)

theorem length_airlMapKeys (m : HashMap) : (airlMapKeys m).length = m.toFinmap.keys.card := by
  rw [airlMapKeys_eq, List.length_map, FinMap.sortedKeys, Finset.length_sort]

theorem mapSize_eq (m : HashMap) : mapSize stack m = stack.within 1 (.ok m.toFinmap.keys.card) := by
  rw [mapSize, Stack.enter_eq, length_airlMapKeys]
  rfl

/-! ### Loops -/

/-- A loop by index is a fold over what is behind the index. -/
theorem indexLoop_eq_fold {α β : Type} (step : β → α → Run β) (xs : List α) (i : Nat) (acc : β) :
    indexLoop step xs i xs.length acc = fold step acc (xs.drop i) := by
  induction h : xs.length - i generalizing i acc with
  | zero =>
    have hi : xs.length ≤ i := Nat.sub_eq_zero_iff_le.mp h
    rw [indexLoop, if_pos hi, List.drop_of_length_le hi, fold]
  | succ n ih =>
    have hi : i < xs.length := by omega
    rw [indexLoop, if_neg (Nat.not_le.mpr hi), List.drop_eq_getElem_cons hi, fold]
    have hget : listAt xs i = .ok xs[i] := by rw [listAt, List.getElem?_eq_getElem hi]
    rw [hget]
    have hnext : ∀ acc, indexLoop step xs (i + 1) xs.length acc = fold step acc (xs.drop (i + 1)) :=
      fun acc => ih (i + 1) acc (by omega)
    simp only [hnext]
    rfl

theorem fold_map {α β γ : Type} (step : β → γ → Run β) (g : α → γ) (xs : List α) (acc : β) :
    fold step acc (xs.map g) = fold (fun acc x => step acc (g x)) acc xs := by
  induction xs generalizing acc with
  | nil => rfl
  | cons x xs ih =>
    rw [List.map_cons, fold, fold]
    congr 1
    funext acc'
    exact ih acc'

/-- The prelude's `concat` takes a frame for each element of its first list and one more. -/
theorem concatOn_eq {α : Type} (xs ys : List α) :
    concatOn stack xs ys = stack.within (xs.length + 1) (.ok (xs ++ ys)) := by
  induction xs generalizing stack with
  | nil => rw [concatOn, Stack.enter_eq]; rfl
  | cons x xs ih =>
    have hbody : (stack.enter fun below => do return x :: (← concatOn below xs ys)) =
        stack.enter fun below => below.within (xs.length + 1) (.ok (x :: (xs ++ ys))) := by
      congr 1
      funext below
      rw [ih, Stack.within_bind]
      rfl
    rw [concatOn, hbody, Stack.enter_within]
    rfl

/-- Appending in a loop takes as many frames as the list has elements at last. -/
theorem fold_append {α β : Type} {f : α → Run β} {g : α → β} (xs : List α)
    (h : ∀ x, f x = .ok (g x)) (acc : List β) :
    fold (fun acc x => do concatOn stack acc [← f x]) acc xs =
      stack.within (if xs = [] then 0 else acc.length + xs.length) (.ok (acc ++ xs.map g)) := by
  induction xs generalizing acc with
  | nil =>
    rw [if_pos rfl, Stack.within_zero, List.map_nil, List.append_nil]
    rfl
  | cons x xs ih =>
    have hstep : (do concatOn stack acc [← f x] : Run (List β)) =
        stack.within (acc.length + 1) (.ok (acc ++ [g x])) := by
      rw [h x, ← concatOn_eq]
      rfl
    have hneed : max (acc.length + 1) (if xs = [] then 0 else (acc ++ [g x]).length + xs.length) =
        acc.length + (x :: xs).length := by
      rw [List.length_append, List.length_singleton, List.length_cons]
      split
      next hnil =>
        rw [hnil]
        exact Nat.max_eq_left (Nat.zero_le _)
      next => omega
    have hrest := ih (acc ++ [g x])
    rw [fold, hstep, Stack.within_bind]
    show stack.within (acc.length + 1) (fold _ (acc ++ [g x]) xs) = _
    rw [hrest, Stack.within_within, hneed, if_neg (List.cons_ne_nil x xs), List.append_assoc]
    rfl

/-- A lambda called at each element needs one frame, if there is an element. -/
theorem fold_enter {α β : Type} (f : β → α → Run β) (init : β) (xs : List α) :
    fold (fun acc x => stack.enter fun _ => f acc x) init xs =
      stack.within (min xs.length 1) (fold f init xs) := by
  induction xs generalizing init with
  | nil => exact Stack.within_zero.symm
  | cons x xs ih =>
    have hone : min (x :: xs).length 1 = 1 := Nat.min_eq_right (Nat.le_add_left 1 xs.length)
    rw [fold, Stack.enter_eq, Stack.within_bind, hone, fold]
    simp only [ih]
    exact Stack.within_bind_within (Nat.min_le_right _ 1) _

/-- The frames of a fold, and of its lambda if that is called. -/
def foldNeed (n : Nat) : Nat := min n 1 + 1

/-- `fold` with a lambda needs a fixed number of frames, however long the list. -/
theorem foldLambda_eq {α β : Type} (f : β → α → Run β) (init : β) (xs : List α) :
    foldLambda stack f init xs = stack.within (foldNeed xs.length) (fold f init xs) := by
  rw [foldLambda]
  simp only [fold_enter]
  exact Stack.enter_within

/-- A loop whose steps do to the hash map what `spec` does to the finite map. -/
theorem fold_gives {α : Type} {step : HashMap → α → Run HashMap} {spec : FinMap → α → FinMap}
    (xs : List α) (h : ∀ m, ∀ x ∈ xs, Gives (step m x) (spec m.toFinmap x)) (m : HashMap) :
    Gives (fold step m xs) (xs.foldl spec m.toFinmap) := by
  induction xs generalizing m with
  | nil => exact ⟨m, rfl, rfl⟩
  | cons x xs ih =>
    obtain ⟨m', hstep, hspec⟩ := h m x List.mem_cons_self
    have hrest := ih (fun m x hx => h m x (List.mem_cons_of_mem _ hx)) m'
    rw [fold, hstep, List.foldl_cons, ← hspec]
    exact hrest

/-- Inserting keys in turn gives each of them its value. -/
theorem lookup_foldl_insert (ks : List String) (g : String → RtValue) (f : FinMap) (k : String) :
    (ks.foldl (fun f k => f.insert k (g k)) f).lookup k =
      if k ∈ ks then some (g k) else f.lookup k := by
  induction ks generalizing f with
  | nil => rfl
  | cons k' ks ih =>
    rw [List.foldl_cons, ih]
    by_cases hmem : k ∈ ks
    · rw [if_pos hmem, if_pos (List.mem_cons_of_mem _ hmem)]
    · rw [if_neg hmem]
      by_cases hk : k = k'
      · subst hk
        rw [Finmap.lookup_insert, if_pos List.mem_cons_self]
      · rw [Finmap.lookup_insert_of_ne _ hk, if_neg]
        rw [List.mem_cons]
        exact fun hor => hor.elim hk hmem

theorem FinMap.mem_sortedKeys {f : FinMap} {k : String} : k ∈ f.sortedKeys ↔ k ∈ f := by
  rw [FinMap.sortedKeys, Finset.mem_sort, Finmap.mem_keys]

/-- A set as a map has `true` at its members. -/
theorem FinMap.lookup_ofSet (s : Finset String) (k : String) :
    (FinMap.ofSet s).lookup k = if k ∈ s then some (.bool true) else none := by
  have hmap : (s.sort (· ≤ ·)).map (fun x => (⟨x, .bool true⟩ : Sigma fun _ : String => RtValue)) =
      ((s.sort (· ≤ ·)).map fun x => (x, RtValue.bool true)).map fun e => ⟨e.1, e.2⟩ := by
    rw [List.map_map]
    rfl
  have hnodup : (((s.sort (· ≤ ·)).map fun x => (x, RtValue.bool true)).map Prod.fst).Nodup := by
    have hid : ((fun e : String × RtValue => e.1) ∘ fun x => (x, RtValue.bool true)) = id := rfl
    rw [List.map_map, hid, List.map_id]
    exact Finset.sort_nodup _ _
  apply Option.ext
  intro v
  rw [FinMap.ofSet, Finmap.dlookup_list_toFinmap, hmap, HashMap.dlookup_map,
    lookup_eq_some_iff_mem hnodup, List.mem_map]
  by_cases hk : k ∈ s
  · simp [hk, eq_comm]
  · simp [hk]

theorem foldl_insert_true (ks : List String) (f : FinMap) :
    ks.foldl (fun f k => f.insert k (.bool true)) f = FinMap.ofSet ks.toFinset ∪ f := by
  apply Finmap.ext_lookup
  intro k
  rw [lookup_foldl_insert ks fun _ => .bool true]
  have hset := FinMap.lookup_ofSet ks.toFinset k
  by_cases hk : k ∈ ks
  · rw [if_pos (List.mem_toFinset.mpr hk)] at hset
    rw [if_pos hk, Finmap.lookup_union_left (Finmap.mem_of_lookup_eq_some hset), hset]
  · rw [if_neg fun h => hk (List.mem_toFinset.mp h)] at hset
    rw [if_neg hk, Finmap.lookup_union_right (Finmap.lookup_eq_none.mp hset)]

/-! ### The functions of `map.airl` -/

theorem enter_enter_within {α : Type} (need : Nat) (x : Run α) :
    (stack.enter fun below => below.enter fun below => below.within need x) =
      stack.within (need + 2) x := by
  simp only [Stack.enter_within]

theorem sortedKeys_need (m : HashMap) {need : Nat}
    (h : need = if m.toFinmap.sortedKeys = [] then 0 else m.toFinmap.sortedKeys.length) :
    need = m.toFinmap.keys.card := by
  have hcard : m.toFinmap.sortedKeys.length = m.toFinmap.keys.card := by
    rw [FinMap.sortedKeys, Finset.length_sort]
  rw [h, ← hcard]
  split
  next hnil => rw [hnil, List.length_nil]
  next => rfl

/-- `map-values` needs a frame for each key, through `concat`. -/
theorem mapValues_eq (m : HashMap) :
    mapValues stack m = stack.within (m.toFinmap.keys.card + 2)
      (.ok (m.toFinmap.sortedKeys.map m.toFinmap.value)) := by
  have hloop : ∀ below : Stack Fault,
      mapValuesLoop below m (airlMapKeys m) 0 (airlMapKeys m).length [] =
        below.within m.toFinmap.keys.card (.ok (m.toFinmap.sortedKeys.map m.toFinmap.value)) := by
    intro below
    rw [mapValuesLoop, indexLoop_eq_fold, List.drop_zero, airlMapKeys_eq, fold_map,
      fold_append below _ (airlMapGet_str m) []]
    congr 1
    apply sortedKeys_need
    rw [List.length_nil, Nat.zero_add]
  rw [mapValues]
  simp only [hloop]
  exact enter_enter_within stack _ _

/-- `map-entries` needs a frame for each key, through `concat`. -/
theorem mapEntries_eq (m : HashMap) :
    mapEntries stack m = stack.within (m.toFinmap.keys.card + 2)
      (.ok (m.toFinmap.sortedKeys.map fun k => .list [.str k, m.toFinmap.value k])) := by
  have hentry : ∀ k, (do return RtValue.list [.str k, ← airlMapGet m (.str k)] : Run RtValue) =
      .ok (.list [.str k, m.toFinmap.value k]) := by
    intro k
    rw [airlMapGet_str]
    rfl
  have hloop : ∀ below : Stack Fault,
      mapEntriesLoop below m (airlMapKeys m) 0 (airlMapKeys m).length [] =
        below.within m.toFinmap.keys.card
          (.ok (m.toFinmap.sortedKeys.map fun k => .list [.str k, m.toFinmap.value k])) := by
    intro below
    have hfold := fold_append below m.toFinmap.sortedKeys hentry []
    simp only [bind_assoc, pure_bind, List.nil_append] at hfold
    rw [mapEntriesLoop, indexLoop_eq_fold, List.drop_zero, airlMapKeys_eq, fold_map, hfold]
    congr 1
    apply sortedKeys_need
    rw [List.length_nil, Nat.zero_add]
  rw [mapEntries]
  simp only [hloop]
  exact enter_enter_within stack _ _

/-- `map-get-or` reads the finite map, with the default for a missing key. -/
theorem mapGetOr_eq (m : HashMap) (k : String) (default : RtValue) :
    mapGetOr stack m (.str k) default =
      stack.within 1 (.ok ((m.toFinmap.lookup k).getD default)) := by
  rw [mapGetOr, Stack.enter_eq, airlMapHas_str, airlMapGet_str]
  congr 1
  by_cases hk : k ∈ m.toFinmap
  · obtain ⟨v, hv⟩ := Finmap.mem_iff.mp hk
    simp [hk, FinMap.value, hv, bind, Except.bind]
  · simp [hk, Finmap.lookup_eq_none.mpr hk, bind, Except.bind, pure, Except.pure]

/-- A flat list of keys and values. -/
def flat (pairs : List (String × RtValue)) : List RtValue :=
  pairs.flatMap fun e => [.str e.1, e.2]

/-- The loop of `map-from` inserts the pairs that are left, the later over the earlier. -/
theorem mapFromPairsLoop_gives (before : List RtValue) (pairs : List (String × RtValue))
    (m : HashMap) :
    Gives (mapFromPairsLoop H (before ++ flat pairs) before.length
        (before ++ flat pairs).length m)
      (pairs.foldl (fun f e => f.insert e.1 e.2) m.toFinmap) := by
  induction pairs generalizing before m with
  | nil =>
    refine ⟨m, ?_, rfl⟩
    rw [mapFromPairsLoop, if_pos (by simp [flat])]
    rfl
  | cons e pairs ih =>
    obtain ⟨k, v⟩ := e
    obtain ⟨m', hset, hspec⟩ := airlMapSet_gives H m k v
    have hflat : before ++ flat ((k, v) :: pairs) = (before ++ [.str k, v]) ++ flat pairs := by
      simp [flat]
    have hrest := ih (before ++ [.str k, v]) m'
    rw [List.foldl_cons, ← hspec, hflat, mapFromPairsLoop, if_neg (by simp)]
    have hkey : listAt (before ++ [.str k, v] ++ flat pairs) before.length = .ok (.str k) := by
      simp [listAt]
    have hval : listAt (before ++ [.str k, v] ++ flat pairs) (before.length + 1) = .ok v := by
      simp [listAt]
    have hlength : (before ++ [RtValue.str k, v]).length = before.length + 2 := by simp
    rw [hkey, hval, ← hlength]
    show Gives (airlMapSet H m (.str k) v >>= _) _
    rw [hset]
    exact hrest

/-- A builtin called in one frame needs that frame. -/
theorem Gives.enter {x : Run HashMap} {f : FinMap} (h : Gives x f) :
    GivesOn stack 1 (stack.enter fun _ => x) f := ⟨x, Stack.enter_eq _, h⟩

/-- `map-from` refines inserting its pairs in turn. -/
theorem mapFrom_gives (pairs : List (String × RtValue)) :
    GivesOn stack 2 (mapFrom H stack (flat pairs))
      (pairs.foldl (fun f e => f.insert e.1 e.2) ∅) := by
  refine ⟨_, ?_, mapFromPairsLoop_gives H [] pairs airlMapNew⟩
  have hcalls := enter_enter_within stack 0
    (mapFromPairsLoop H (flat pairs) 0 (flat pairs).length airlMapNew)
  simp only [Stack.within_zero] at hcalls
  exact hcalls

/-- The loop over the entries of a map overlays that map on the accumulator. -/
theorem mapFromEntriesLoop_gives (m₁ m₂ : HashMap) :
    Gives (mapFromEntriesLoop H
        (m₂.toFinmap.sortedKeys.map fun k => .list [.str k, m₂.toFinmap.value k]) 0
        m₂.toFinmap.keys.card m₁)
      (m₂.toFinmap ∪ m₁.toFinmap) := by
  have hunion : m₂.toFinmap.sortedKeys.foldl (fun f k => f.insert k (m₂.toFinmap.value k))
      m₁.toFinmap = m₂.toFinmap ∪ m₁.toFinmap := by
    apply Finmap.ext_lookup
    intro k
    rw [lookup_foldl_insert]
    by_cases hk : k ∈ m₂.toFinmap
    · obtain ⟨v, hv⟩ := Finmap.mem_iff.mp hk
      rw [if_pos (FinMap.mem_sortedKeys.mpr hk), Finmap.lookup_union_left hk, FinMap.value, hv]
      rfl
    · rw [if_neg fun h => hk (FinMap.mem_sortedKeys.mp h), Finmap.lookup_union_right hk]
  have hlength : m₂.toFinmap.keys.card =
      (m₂.toFinmap.sortedKeys.map fun k => RtValue.list [.str k, m₂.toFinmap.value k]).length := by
    rw [List.length_map, FinMap.sortedKeys, Finset.length_sort]
  have hloop : Gives (fold (fun acc k => airlMapSet H acc (.str k) (m₂.toFinmap.value k)) m₁
      m₂.toFinmap.sortedKeys) (m₂.toFinmap ∪ m₁.toFinmap) := by
    rw [← hunion]
    exact fold_gives _ (fun m k _ => airlMapSet_gives H m k _) m₁
  rw [hlength, mapFromEntriesLoop, indexLoop_eq_fold, List.drop_zero, fold_map]
  exact hloop

/-- The entries of the second map are listed on the frames below the call. -/
theorem mapMerge_gives (m₁ m₂ : HashMap) :
    GivesOn stack (m₂.toFinmap.keys.card + 3) (mapMerge H stack m₁ m₂)
      (m₂.toFinmap ∪ m₁.toFinmap) := by
  refine ⟨_, ?_, mapFromEntriesLoop_gives H m₁ m₂⟩
  rw [mapMerge, ← Stack.enter_within]
  congr 1
  funext below
  rw [mapEntries_eq, mapSize_eq, Stack.within_bind]
  show below.within _ (below.within 1 (.ok _) >>= fun size => below.enter fun _ =>
    mapFromEntriesLoop H _ 0 size m₁) = _
  rw [Stack.within_bind, Stack.within_within]
  show below.within _ (below.enter fun _ => mapFromEntriesLoop H _ 0 _ m₁) = _
  rw [Stack.enter_eq, Stack.within_within]
  congr 1

/-- `map-update` calls the updater on the value of a present key and else changes nothing. -/
theorem mapUpdate_run (m : HashMap) (k : String) (updater : Stack Fault → RtValue → Run RtValue) :
    (mapUpdate H stack m (.str k) updater).map HashMap.toFinmap =
      stack.within 1 (if k ∈ m.toFinmap then
        (updater stack.below (m.toFinmap.value k)).map fun v => m.toFinmap.insert k v
      else .ok m.toFinmap) := by
  rw [mapUpdate, Stack.enter_eq, Stack.within_map, airlMapHas_str, airlMapGet_str]
  congr 1
  by_cases hk : k ∈ m.toFinmap
  · rw [if_pos hk]
    simp only [bind, Except.bind, hk, decide_true, if_true]
    cases updater stack.below (m.toFinmap.value k) with
    | error fault => rfl
    | ok v =>
      obtain ⟨m', hset, hspec⟩ := airlMapSet_gives H m k v
      simp only [hset, Except.map, hspec]
  · rw [if_neg hk]
    simp [hk, bind, Except.bind, pure, Except.pure, Except.map]

/-! ### The functions of `set.airl` -/

/-- `set-add` refines insertion of a member. -/
theorem setAdd_gives (s : HashMap) (x : String) :
    GivesOn stack 1 (setAdd H stack s (.str x)) (s.toFinmap.insert x (.bool true)) :=
  (airlMapSet_gives H s x (.bool true)).enter stack

/-- `set-remove` refines erasure of a member. -/
theorem setRemove_gives (s : HashMap) (x : String) :
    GivesOn stack 1 (setRemove H stack s (.str x)) (s.toFinmap.erase x) :=
  (airlMapRemove_gives H s x).enter stack

/-- Adding members in turn refines the union with them. -/
theorem fold_true_gives (m : HashMap) (ks : List String) :
    Gives (fold (fun s x => airlMapSet H s x (.bool true)) m (ks.map .str))
      (FinMap.ofSet ks.toFinset ∪ m.toFinmap) := by
  rw [fold_map, ← foldl_insert_true]
  exact fold_gives ks (fun m k _ => airlMapSet_gives H m k (.bool true)) m

/-- A fold in a function's own frame needs one frame more than the fold. -/
theorem enter_foldLambda_gives {f : HashMap → RtValue → Run HashMap} {m : HashMap}
    {xs : List RtValue} {g : FinMap} (h : Gives (fold f m xs) g) :
    GivesOn stack (foldNeed xs.length + 1)
      (stack.enter fun below => foldLambda below f m xs) g := by
  refine ⟨_, ?_, h⟩
  simp only [foldLambda_eq, Stack.enter_within]

/-- `set-from` gives the set of its list. -/
theorem setFrom_gives (xs : List String) :
    GivesOn stack (foldNeed xs.length + 1) (setFrom H stack (xs.map .str))
      (FinMap.ofSet xs.toFinset) := by
  have h := fold_true_gives H airlMapNew xs
  rw [airlMapNew, HashMap.toFinmap_empty, Finmap.union_empty] at h
  have hon := enter_foldLambda_gives stack h
  rwa [List.length_map] at hon

/-- `set-union` refines the union. -/
theorem setUnion_gives (a b : HashMap) :
    GivesOn stack (foldNeed b.toFinmap.keys.card + 1) (setUnion H stack a b)
      (FinMap.ofSet b.toFinmap.keys ∪ a.toFinmap) := by
  have h := fold_true_gives H a b.toFinmap.sortedKeys
  rw [FinMap.sortedKeys, Finset.sort_toFinset] at h
  rw [setUnion, ← length_airlMapKeys, airlMapKeys_eq]
  exact enter_foldLambda_gives stack h

/-- Adding the keys that pass a test refines the filter. -/
theorem fold_kept_gives (a : HashMap) (keep : String → Bool)
    {step : HashMap → RtValue → Run HashMap}
    (hstep : ∀ s k, step s (.str k) =
      if keep k then airlMapSet H s (.str k) (.bool true) else .ok s) :
    Gives (fold step airlMapNew (airlMapKeys a))
      (FinMap.ofSet (a.toFinmap.keys.filter fun k => keep k = true)) := by
  rw [airlMapKeys_eq, fold_map]
  have hkept : (a.toFinmap.sortedKeys.filter keep).toFinset =
      a.toFinmap.keys.filter fun k => keep k = true := by
    rw [List.toFinset_filter, FinMap.sortedKeys, Finset.sort_toFinset]
  have hspec := foldl_insert_true (a.toFinmap.sortedKeys.filter keep) ∅
  rw [List.foldl_filter, hkept, Finmap.union_empty] at hspec
  rw [← hspec]
  apply fold_gives
  intro m k _
  rw [hstep]
  split
  · exact airlMapSet_gives H m k (.bool true)
  · exact ⟨m, rfl, rfl⟩

/-- `set-intersection` refines the intersection. -/
theorem setIntersection_gives (a b : HashMap) :
    GivesOn stack (foldNeed a.toFinmap.keys.card + 1) (setIntersection H stack a b)
      (FinMap.ofSet (a.toFinmap.keys ∩ b.toFinmap.keys)) := by
  have hset : a.toFinmap.keys ∩ b.toFinmap.keys =
      a.toFinmap.keys.filter fun k => decide (k ∈ b.toFinmap) = true := by
    ext k
    simp [Finmap.mem_keys]
  rw [hset, setIntersection, ← length_airlMapKeys]
  apply enter_foldLambda_gives
  apply fold_kept_gives H a fun k => decide (k ∈ b.toFinmap)
  intro s k
  rw [airlMapHas_str]
  rfl

/-- `set-difference` refines the difference. -/
theorem setDifference_gives (a b : HashMap) :
    GivesOn stack (foldNeed a.toFinmap.keys.card + 1) (setDifference H stack a b)
      (FinMap.ofSet (a.toFinmap.keys \ b.toFinmap.keys)) := by
  have hset : a.toFinmap.keys \ b.toFinmap.keys =
      a.toFinmap.keys.filter fun k => (!decide (k ∈ b.toFinmap)) = true := by
    ext k
    simp [Finmap.mem_keys]
  rw [hset, setDifference, ← length_airlMapKeys]
  apply enter_foldLambda_gives
  apply fold_kept_gives H a fun k => !decide (k ∈ b.toFinmap)
  intro s k
  rw [airlMapHas_str]
  by_cases hk : k ∈ b.toFinmap
  · simp [hk, bind, Except.bind, pure, Except.pure]
  · simp [hk, bind, Except.bind]

/-- The first element is looked at in any case. -/
theorem all_enter (p : RtValue → Run Bool) (xs : List RtValue) :
    all id (fun x => stack.enter fun _ => p x) xs =
      stack.within (min xs.length 1) (all id p xs) := by
  induction xs with
  | nil => exact Stack.within_zero.symm
  | cons x xs ih =>
    have hone : min (x :: xs).length 1 = 1 := Nat.min_eq_right (Nat.le_add_left 1 xs.length)
    have hrest : (fun b : Bool => if id b then all id (fun x => stack.enter fun _ => p x) xs
        else return false) =
        fun b => stack.within (if b then min xs.length 1 else 0)
          (if id b then all id p xs else return false) := by
      funext b
      cases b with
      | true => exact ih
      | false => exact Stack.within_zero.symm
    rw [all, Stack.enter_eq, Stack.within_bind, hone, all, hrest]
    cases p x with
    | error fault => rfl
    | ok b =>
      show stack.within 1 (stack.within _ _) = stack.within 1 _
      rw [Stack.within_within]
      congr 1
      split
      next => exact Nat.max_eq_left (Nat.min_le_right _ 1)
      next => rfl

theorem all_keys {p : RtValue → Run Bool} {q : String → Bool} (hp : ∀ k, p (.str k) = .ok (q k))
    (ks : List String) : all id p (ks.map .str) = .ok (ks.all q) := by
  induction ks with
  | nil => rfl
  | cons k ks ih =>
    rw [List.map_cons, all, hp, List.all_cons]
    cases hk : q k with
    | true => exact ih
    | false => rfl

/-- `set-subset?` decides inclusion of the keys. -/
theorem setSubset_eq (a b : HashMap) :
    setSubset stack a b = stack.within (foldNeed a.toFinmap.keys.card + 1)
      (.ok (decide (a.toFinmap.keys ⊆ b.toFinmap.keys))) := by
  have hall : a.toFinmap.sortedKeys.all (fun k => decide (k ∈ b.toFinmap)) =
      decide (a.toFinmap.keys ⊆ b.toFinmap.keys) := by
    rw [Bool.eq_iff_iff, List.all_eq_true, decide_eq_true_iff]
    simp only [FinMap.mem_sortedKeys, decide_eq_true_iff, Finset.subset_iff, Finmap.mem_keys]
  rw [setSubset, ← length_airlMapKeys]
  simp only [all_enter, Stack.enter_within]
  rw [airlMapKeys_eq, all_keys (airlMapHas_str b), hall]
  rfl

/-- `set-equal?` decides equality of the keys. -/
theorem setEqual_eq (a b : HashMap) :
    setEqual stack a b = stack.within (foldNeed a.toFinmap.keys.card + 2)
      (.ok (decide (a.toFinmap.keys = b.toFinmap.keys))) := by
  have hboth : (a.toFinmap.keys.card == b.toFinmap.keys.card &&
      decide (a.toFinmap.keys ⊆ b.toFinmap.keys)) =
      decide (a.toFinmap.keys = b.toFinmap.keys) := by
    rw [Bool.eq_iff_iff, Bool.and_eq_true, beq_iff_eq, decide_eq_true_iff, decide_eq_true_iff]
    constructor
    · intro h
      exact Finset.eq_of_subset_of_card_le h.2 h.1.symm.le
    · intro h
      rw [h]
      exact ⟨rfl, Finset.Subset.refl _⟩
  rw [setEqual, ← Stack.enter_within]
  congr 1
  funext below
  rw [mapSize_eq, mapSize_eq, setSubset_eq, Stack.within_bind]
  show below.within 1 (below.within 1 (.ok _) >>= _) = _
  rw [Stack.within_bind, Stack.within_within]
  show below.within _ (below.within _ (.ok _) >>= _) = _
  rw [Stack.within_bind, Stack.within_within, ← hboth]
  congr 1

end Operations

/-! ## Any sequence of operations -/

/-- An operation on maps obtained before; it makes a map or a value. -/
inductive MapOp where
  | mapNew
  | mapSet (key : String) (val : RtValue)
  | mapRemove (key : String)
  | mapFrom (pairs : List (String × RtValue))
  | mapMerge
  | mapUpdate (key : String) (updater : Stack Fault → RtValue → Run RtValue)
  | mapGetOr (key : String) (default : RtValue)
  | mapKeys
  | mapValues
  | mapEntries
  | mapSize
  | mapHas (key : String)
  | setFrom (xs : List String)
  | setAdd (x : String)
  | setRemove (x : String)
  | setUnion
  | setIntersection
  | setDifference
  | setSubset
  | setEqual

namespace MapOp

/-- What the library does. Wrong numbers of operands do not compile. -/
def eval (H : Hasher) (stack : Stack Fault) :
    MapOp → List HashMap → Run (HashMap ⊕ RtValue)
  | .mapNew, [] => return .inl airlMapNew
  | .mapSet key val, [m] => Sum.inl <$> airlMapSet H m (.str key) val
  | .mapRemove key, [m] => Sum.inl <$> airlMapRemove H m (.str key)
  | .mapFrom pairs, [] => Sum.inl <$> Stdlib.mapFrom H stack (flat pairs)
  | .mapMerge, [m₁, m₂] => Sum.inl <$> Stdlib.mapMerge H stack m₁ m₂
  | .mapUpdate key updater, [m] => Sum.inl <$> Stdlib.mapUpdate H stack m (.str key) updater
  | .mapGetOr key default, [m] => Sum.inr <$> Stdlib.mapGetOr stack m (.str key) default
  | .mapKeys, [m] => return .inr (.list (airlMapKeys m))
  | .mapValues, [m] => (.inr <| .list ·) <$> Stdlib.mapValues stack m
  | .mapEntries, [m] => (.inr <| .list ·) <$> Stdlib.mapEntries stack m
  | .mapSize, [m] => (.inr <| .int <| Int64.ofNat ·) <$> Stdlib.mapSize stack m
  | .mapHas key, [m] => (.inr <| .bool ·) <$> airlMapHas m (.str key)
  | .setFrom xs, [] => Sum.inl <$> Stdlib.setFrom H stack (xs.map .str)
  | .setAdd x, [s] => Sum.inl <$> Stdlib.setAdd H stack s (.str x)
  | .setRemove x, [s] => Sum.inl <$> Stdlib.setRemove H stack s (.str x)
  | .setUnion, [a, b] => Sum.inl <$> Stdlib.setUnion H stack a b
  | .setIntersection, [a, b] => Sum.inl <$> Stdlib.setIntersection H stack a b
  | .setDifference, [a, b] => Sum.inl <$> Stdlib.setDifference H stack a b
  | .setSubset, [a, b] => (.inr <| .bool ·) <$> Stdlib.setSubset stack a b
  | .setEqual, [a, b] => (.inr <| .bool ·) <$> Stdlib.setEqual stack a b
  | _, _ => .error .panic

/-- The frames it takes, without those of an updater. -/
def need : MapOp → List FinMap → Nat
  | .mapFrom _, [] => 2
  | .mapMerge, [_, f₂] => f₂.keys.card + 3
  | .mapUpdate _ _, [_] => 1
  | .mapGetOr _ _, [_] => 1
  | .mapValues, [f] => f.keys.card + 2
  | .mapEntries, [f] => f.keys.card + 2
  | .mapSize, [_] => 1
  | .setFrom xs, [] => foldNeed xs.length + 1
  | .setAdd _, [_] => 1
  | .setRemove _, [_] => 1
  | .setUnion, [_, g] => foldNeed g.keys.card + 1
  | .setIntersection, [f, _] => foldNeed f.keys.card + 1
  | .setDifference, [f, _] => foldNeed f.keys.card + 1
  | .setSubset, [f, _] => foldNeed f.keys.card + 1
  | .setEqual, [f, _] => foldNeed f.keys.card + 2
  | _, _ => 0

/-- What it says on finite maps and finite sets of texts. -/
def result (stack : Stack Fault) : MapOp → List FinMap → Run (FinMap ⊕ RtValue)
  | .mapNew, [] => return .inl ∅
  | .mapSet key val, [f] => return .inl (f.insert key val)
  | .mapRemove key, [f] => return .inl (f.erase key)
  | .mapFrom pairs, [] => return .inl (pairs.foldl (fun f e => f.insert e.1 e.2) ∅)
  | .mapMerge, [f₁, f₂] => return .inl (f₂ ∪ f₁)
  | .mapUpdate key updater, [f] => do
    if key ∈ f then return .inl (f.insert key (← updater stack.below (f.value key)))
    else return .inl f
  | .mapGetOr key default, [f] => return .inr ((f.lookup key).getD default)
  | .mapKeys, [f] => return .inr (.list (f.sortedKeys.map .str))
  | .mapValues, [f] => return .inr (.list (f.sortedKeys.map f.value))
  | .mapEntries, [f] =>
    return .inr (.list (f.sortedKeys.map fun k => .list [.str k, f.value k]))
  | .mapSize, [f] => return .inr (.int (Int64.ofNat f.keys.card))
  | .mapHas key, [f] => return .inr (.bool (decide (key ∈ f)))
  | .setFrom xs, [] => return .inl (FinMap.ofSet xs.toFinset)
  | .setAdd x, [f] => return .inl (f.insert x (.bool true))
  | .setRemove x, [f] => return .inl (f.erase x)
  | .setUnion, [f, g] => return .inl (FinMap.ofSet g.keys ∪ f)
  | .setIntersection, [f, g] => return .inl (FinMap.ofSet (f.keys ∩ g.keys))
  | .setDifference, [f, g] => return .inl (FinMap.ofSet (f.keys \ g.keys))
  | .setSubset, [f, g] => return .inr (.bool (decide (f.keys ⊆ g.keys)))
  | .setEqual, [f, g] => return .inr (.bool (decide (f.keys = g.keys)))
  | _, _ => .error .panic

/-- The operation on finite maps, where there are frames enough. -/
def spec (stack : Stack Fault) (op : MapOp) (fs : List FinMap) : Run (FinMap ⊕ RtValue) :=
  stack.within (op.need fs) (op.result stack fs)

variable {H : Hasher} {stack : Stack Fault} {need : Nat}

/-- What came back, on finite maps. -/
def abstract : HashMap ⊕ RtValue → FinMap ⊕ RtValue := Sum.map HashMap.toFinmap id

theorem inl_of_gives {x : Run HashMap} {f : FinMap} (h : Gives x f) :
    (Sum.inl <$> x : Run (HashMap ⊕ RtValue)).map abstract = .ok (.inl f) := by
  obtain ⟨m, rfl, rfl⟩ := h
  rfl

theorem inl_of_givesOn {x : Run HashMap} {f : FinMap} (h : GivesOn stack need x f) :
    (Sum.inl <$> x : Run (HashMap ⊕ RtValue)).map abstract = stack.within need (.ok (.inl f)) := by
  obtain ⟨y, rfl, hy⟩ := h
  rw [← inl_of_gives hy, ← Stack.within_map]
  congr 1
  exact Stack.within_map _

theorem inr_of_eq {α : Type} {x : Run α} {a : α} (h : x = stack.within need (.ok a))
    (g : α → RtValue) :
    ((fun a => Sum.inr (g a)) <$> x : Run (HashMap ⊕ RtValue)).map abstract =
      stack.within need (.ok (.inr (g a))) := by
  rw [h]
  show ((stack.within need (.ok a)).map _).map abstract = _
  rw [Stack.within_map, Stack.within_map]
  rfl

theorem inr_of_ok {α : Type} {x : Run α} {a : α} (h : x = .ok a) (g : α → RtValue) :
    ((fun a => Sum.inr (g a)) <$> x : Run (HashMap ⊕ RtValue)).map abstract = .ok (.inr (g a)) := by
  rw [h]
  rfl

theorem map_inl (x : Run HashMap) :
    (Sum.inl <$> x : Run (HashMap ⊕ RtValue)).map abstract =
      Sum.inl <$> x.map HashMap.toFinmap := by
  cases x <;> rfl

/-- `map-update` answers as its specification, whatever the updater does. -/
theorem eval_mapUpdate (m : HashMap) (key : String)
    (updater : Stack Fault → RtValue → Run RtValue) :
    (eval H stack (.mapUpdate key updater) [m]).map abstract =
      spec stack (.mapUpdate key updater) [m.toFinmap] := by
  rw [eval, map_inl, mapUpdate_run]
  show Except.map Sum.inl (stack.within 1 _) = stack.within 1 _
  rw [Stack.within_map, result]
  congr 1
  split
  · cases updater stack.below (m.toFinmap.value key) <;> rfl
  · rfl

section Arity

variable {motive : List HashMap → Prop}

@[elab_as_elim] theorem nullary (h : motive []) (hmore : ∀ a rest, motive (a :: rest))
    (args : List HashMap) : motive args := by
  cases args with
  | nil => exact h
  | cons a rest => exact hmore a rest

@[elab_as_elim] theorem unary (h : ∀ a, motive [a]) (hnone : motive [])
    (hmore : ∀ a b rest, motive (a :: b :: rest)) (args : List HashMap) : motive args := by
  rcases args with _ | ⟨a, _ | ⟨b, rest⟩⟩
  · exact hnone
  · exact h a
  · exact hmore a b rest

@[elab_as_elim] theorem binary (h : ∀ a b, motive [a, b]) (hnone : motive [])
    (hone : ∀ a, motive [a]) (hmore : ∀ a b c rest, motive (a :: b :: c :: rest))
    (args : List HashMap) : motive args := by
  rcases args with _ | ⟨a, _ | ⟨b, _ | ⟨c, rest⟩⟩⟩
  · exact hnone
  · exact hone a
  · exact h a b
  · exact hmore a b c rest

end Arity

/-- One operation on hash maps is the operation on the finite maps they stand for. -/
theorem eval_abstract (op : MapOp) (args : List HashMap) :
    (op.eval H stack args).map abstract = op.spec stack (args.map HashMap.toFinmap) := by
  have hzero {α : Type} {x : Run α} : x = stack.within 0 x := Stack.within_zero.symm
  -- Called with another number of maps both sides answer the same, in no frame.
  cases op with
  | mapNew => exact nullary hzero (fun _ _ => hzero) args
  | mapSet key val =>
    exact unary (fun m => (inl_of_gives (airlMapSet_gives H m key val)).trans hzero) hzero
      (fun _ _ _ => hzero) args
  | mapRemove key =>
    exact unary (fun m => (inl_of_gives (airlMapRemove_gives H m key)).trans hzero) hzero
      (fun _ _ _ => hzero) args
  | mapFrom pairs =>
    exact nullary (inl_of_givesOn (mapFrom_gives H stack pairs)) (fun _ _ => hzero) args
  | mapMerge =>
    exact binary (fun a b => inl_of_givesOn (mapMerge_gives H stack a b)) hzero (fun _ => hzero)
      (fun _ _ _ _ => hzero) args
  | mapUpdate key updater =>
    exact unary (fun m => eval_mapUpdate m key updater) hzero (fun _ _ _ => hzero) args
  | mapGetOr key default =>
    exact unary (fun m => inr_of_eq (mapGetOr_eq stack m key default) id) hzero
      (fun _ _ _ => hzero) args
  | mapKeys =>
    refine unary (fun m => ?_) hzero (fun _ _ _ => hzero) args
    rw [eval, airlMapKeys_eq]
    exact hzero
  | mapValues =>
    exact unary (fun m => inr_of_eq (mapValues_eq stack m) .list) hzero (fun _ _ _ => hzero) args
  | mapEntries =>
    exact unary (fun m => inr_of_eq (mapEntries_eq stack m) .list) hzero (fun _ _ _ => hzero) args
  | mapSize =>
    exact unary (fun m => inr_of_eq (mapSize_eq stack m) fun n => .int (Int64.ofNat n)) hzero
      (fun _ _ _ => hzero) args
  | mapHas key =>
    exact unary (fun m => (inr_of_ok (airlMapHas_str m key) .bool).trans hzero) hzero
      (fun _ _ _ => hzero) args
  | setFrom xs =>
    exact nullary (inl_of_givesOn (setFrom_gives H stack xs)) (fun _ _ => hzero) args
  | setAdd x =>
    exact unary (fun m => inl_of_givesOn (setAdd_gives H stack m x)) hzero
      (fun _ _ _ => hzero) args
  | setRemove x =>
    exact unary (fun m => inl_of_givesOn (setRemove_gives H stack m x)) hzero
      (fun _ _ _ => hzero) args
  | setUnion =>
    exact binary (fun a b => inl_of_givesOn (setUnion_gives H stack a b)) hzero (fun _ => hzero)
      (fun _ _ _ _ => hzero) args
  | setIntersection =>
    exact binary (fun a b => inl_of_givesOn (setIntersection_gives H stack a b)) hzero
      (fun _ => hzero) (fun _ _ _ _ => hzero) args
  | setDifference =>
    exact binary (fun a b => inl_of_givesOn (setDifference_gives H stack a b)) hzero
      (fun _ => hzero) (fun _ _ _ _ => hzero) args
  | setSubset =>
    exact binary (fun a b => inr_of_eq (setSubset_eq stack a b) .bool) hzero (fun _ => hzero)
      (fun _ _ _ _ => hzero) args
  | setEqual =>
    exact binary (fun a b => inr_of_eq (setEqual_eq stack a b) .bool) hzero (fun _ => hzero)
      (fun _ _ _ _ => hzero) args

end MapOp

/-- The maps obtained so far, and the values. -/
abbrev Session (M : Type) := List M × List RtValue

section Sessions

variable {M : Type}

/-- An operation with the places of its operands among the maps obtained so far. -/
def sessionStep (eval : MapOp → List M → Run (M ⊕ RtValue)) (s : Session M)
    (call : MapOp × List Nat) : Run (Session M) := do
  match ← eval call.1 (← call.2.mapM (listAt s.1)) with
  | .inl m => return (s.1 ++ [m], s.2)
  | .inr v => return (s.1, s.2 ++ [v])

def sessionRun (eval : MapOp → List M → Run (M ⊕ RtValue)) (s : Session M)
    (calls : List (MapOp × List Nat)) : Run (Session M) :=
  calls.foldlM (sessionStep eval) s

/-- The session on finite maps. -/
def Session.abstract (s : Session HashMap) : Session FinMap := (s.1.map HashMap.toFinmap, s.2)

theorem listAt_map {α β : Type} (f : α → β) (xs : List α) (i : Nat) :
    listAt (xs.map f) i = (listAt xs i).map f := by
  rw [listAt, listAt, List.getElem?_map]
  cases xs[i]? <;> rfl

theorem mapM_listAt_map {α β : Type} (f : α → β) (xs : List α) (is : List Nat) :
    is.mapM (listAt (xs.map f)) = (is.mapM (listAt xs)).map (List.map f) := by
  induction is with
  | nil => rfl
  | cons i is ih =>
    rw [List.mapM_cons, List.mapM_cons, listAt_map, ih]
    cases listAt xs i with
    | error fault => rfl
    | ok x => cases is.mapM (listAt xs) <;> rfl

/-- One call of a session refines the call on finite maps. -/
theorem sessionStep_abstract (H : Hasher) (stack : Stack Fault) (s : Session HashMap)
    (call : MapOp × List Nat) :
    (sessionStep (MapOp.eval H stack) s call).map Session.abstract =
      sessionStep (MapOp.spec stack) s.abstract call := by
  rw [sessionStep, sessionStep, Session.abstract, mapM_listAt_map]
  cases call.2.mapM (listAt s.1) with
  | error fault => rfl
  | ok args =>
    have hop : (call.1.eval H stack args).map MapOp.abstract = _ := MapOp.eval_abstract call.1 args
    show Except.map Session.abstract (call.1.eval H stack args >>= _) =
      (call.1.spec stack (args.map _) >>= _)
    rw [← hop]
    cases call.1.eval H stack args with
    | error fault => rfl
    | ok result =>
      cases result with
      | inl m =>
        simp [MapOp.abstract, Session.abstract, bind, Except.bind, Except.map, pure, Except.pure]
      | inr v => rfl

/-- A session of calls refines the session on finite maps. -/
theorem sessionRun_abstract (H : Hasher) (stack : Stack Fault) (s : Session HashMap)
    (calls : List (MapOp × List Nat)) :
    (sessionRun (MapOp.eval H stack) s calls).map Session.abstract =
      sessionRun (MapOp.spec stack) s.abstract calls := by
  induction calls generalizing s with
  | nil => rfl
  | cons call calls ih =>
    have hstep := sessionStep_abstract H stack s call
    rw [sessionRun, sessionRun, List.foldlM_cons, List.foldlM_cons, ← hstep]
    cases sessionStep (MapOp.eval H stack) s call with
    | error fault => rfl
    | ok s' => exact ih s'

/-- A call leaves the maps made before it as they are. -/
theorem prefix_of_sessionStep {eval : MapOp → List M → Run (M ⊕ RtValue)} {s s' : Session M}
    {call : MapOp × List Nat} (h : sessionStep eval s call = .ok s') : s.1 <+: s'.1 := by
  unfold sessionStep at h
  cases hargs : call.2.mapM (listAt s.1) with
  | error fault =>
    rw [hargs] at h
    cases h
  | ok args =>
    rw [hargs] at h
    change (eval call.1 args >>= _) = _ at h
    cases hresult : eval call.1 args with
    | error fault =>
      rw [hresult] at h
      cases h
    | ok result =>
      rw [hresult] at h
      cases result with
      | inl m =>
        cases h
        exact List.prefix_append _ _
      | inr v =>
        cases h
        exact List.prefix_refl _

/-- A session leaves the maps it starts from as they are. -/
theorem prefix_of_sessionRun {eval : MapOp → List M → Run (M ⊕ RtValue)} {s s' : Session M}
    {calls : List (MapOp × List Nat)} (h : sessionRun eval s calls = .ok s') : s.1 <+: s'.1 := by
  induction calls generalizing s with
  | nil =>
    cases h
    exact List.prefix_refl _
  | cons call calls ih =>
    rw [sessionRun, List.foldlM_cons] at h
    cases hstep : sessionStep eval s call with
    | error fault =>
      rw [hstep] at h
      cases h
    | ok mid =>
      rw [hstep] at h
      exact (prefix_of_sessionStep hstep).trans (ih h)

end Sessions

/-! ## Keys in order, last values and members -/

theorem FinMap.sortedKeys_lt (f : FinMap) : f.sortedKeys.Pairwise (· < ·) := by
  have hle : f.sortedKeys.Pairwise (· ≤ ·) := Finset.pairwise_sort _ _
  have hne : f.sortedKeys.Pairwise (· ≠ ·) := Finset.sort_nodup _ _
  exact (hle.and hne).imp fun h => lt_of_le_of_ne h.1 h.2

/-- Of pairs with one key the last is kept. -/
theorem lookup_foldl_last (pairs : List (String × RtValue)) (k : String) :
    (pairs.foldl (fun f e => f.insert e.1 e.2) (∅ : FinMap)).lookup k =
      pairs.reverse.lookup k := by
  induction pairs using List.reverseRecOn with
  | nil => exact Finmap.lookup_empty k
  | append_singleton pairs e ih =>
    obtain ⟨k', v⟩ := e
    rw [List.foldl_append, List.reverse_append, List.foldl_cons, List.foldl_nil,
      List.reverse_singleton, List.singleton_append, List.lookup_cons]
    by_cases hk : k = k'
    · subst hk
      rw [Finmap.lookup_insert, BEq.rfl]
    · rw [Finmap.lookup_insert_of_ne _ hk, beq_eq_false_iff_ne.mpr hk]
      exact ih

/-- The set a map is used as. -/
def members (m : HashMap) : Finset String := m.toFinmap.keys

/-- The computation returns a set of these members. -/
def HasMembers (x : Run HashMap) (s : Finset String) : Prop := ∃ m, x = .ok m ∧ members m = s

theorem FinMap.keys_ofSet (s : Finset String) : (FinMap.ofSet s).keys = s := by
  ext k
  rw [Finmap.mem_keys, ← Finmap.lookup_isSome, FinMap.lookup_ofSet]
  by_cases hk : k ∈ s
  · simp [hk]
  · simp [hk]

theorem Gives.hasMembers {x : Run HashMap} {f : FinMap} (h : Gives x f) : HasMembers x f.keys := by
  obtain ⟨m, hm, rfl⟩ := h
  exact ⟨m, hm, rfl⟩

theorem keys_insert (f : FinMap) (k : String) (v : RtValue) :
    (f.insert k v).keys = insert k f.keys := by
  ext k'
  rw [Finmap.mem_keys, Finmap.mem_insert, Finset.mem_insert, Finmap.mem_keys]

/-- With so many frames the computation returns a set of these members. -/
theorem GivesOn.hasMembers {stack : Stack Fault} {need : Nat} {x : Run HashMap} {f : FinMap}
    (h : GivesOn stack need x f) (hstack : stack.Holds need) : HasMembers x f.keys := by
  obtain ⟨y, rfl, hy⟩ := h
  rw [Stack.within_of_holds hstack]
  exact hy.hasMembers

/-- Four frames are enough for every fold. -/
theorem holds_foldNeed {stack : Stack Fault} (h : stack.Holds 4) (n : Nat) :
    stack.Holds (foldNeed n + 2) := by
  cases stack with
  | uncounted => trivial
  | counted full left =>
    have hone : min n 1 ≤ 1 := Nat.min_le_right n 1
    show min n 1 + 1 + 2 ≤ left
    have hfour : 4 ≤ left := h
    omega

/-- On any call stack every session on hash maps is the session on finite maps, where each operation
asks for its own frames, and leaves the maps and values obtained before it; keys come in order,
values and entries with them where there are two frames more than keys; of one key's values the
last counts; and with four frames the sets are finite sets. -/
theorem maps_refine (H : Hasher) (stack : Stack Fault) :
    (∀ (s : Session HashMap) (calls : List (MapOp × List Nat)),
      (sessionRun (MapOp.eval H stack) s calls).map Session.abstract =
          sessionRun (MapOp.spec stack) s.abstract calls ∧
        ∀ s', sessionRun (MapOp.eval H stack) s calls = .ok s' → s.1 <+: s'.1) ∧
    (∀ m : HashMap, ∃ ks : List String, ks.Pairwise (· < ·) ∧ ks.toFinset = members m ∧
      airlMapKeys m = ks.map .str ∧
      mapValues stack m = stack.within (ks.length + 2) (.ok (ks.map m.toFinmap.value)) ∧
      mapEntries stack m = stack.within (ks.length + 2)
        (.ok (ks.map fun k => .list [.str k, m.toFinmap.value k]))) ∧
    (∀ pairs : List (String × RtValue), ∃ m, mapFrom H stack (flat pairs) = stack.within 2 (.ok m) ∧
      ∀ k, m.get k = pairs.reverse.lookup k) ∧
    (stack.Holds 4 → ∀ (a b : HashMap) (x : String) (xs : List String),
      HasMembers (setFrom H stack (xs.map .str)) xs.toFinset ∧
      HasMembers (setAdd H stack a (.str x)) (insert x (members a)) ∧
      HasMembers (setRemove H stack a (.str x)) ((members a).erase x) ∧
      HasMembers (setUnion H stack a b) (members a ∪ members b) ∧
      HasMembers (setIntersection H stack a b) (members a ∩ members b) ∧
      HasMembers (setDifference H stack a b) (members a \ members b) ∧
      setSubset stack a b = .ok (decide (members a ⊆ members b)) ∧
      setEqual stack a b = .ok (decide (members a = members b))) := by
  refine ⟨?_, ?_, ?_, ?_⟩
  · intro s calls
    exact ⟨sessionRun_abstract H stack s calls, fun s' => prefix_of_sessionRun⟩
  · intro m
    have hlength : m.toFinmap.sortedKeys.length = m.toFinmap.keys.card := by
      rw [FinMap.sortedKeys, Finset.length_sort]
    refine ⟨m.toFinmap.sortedKeys, m.toFinmap.sortedKeys_lt, ?_, airlMapKeys_eq m, ?_, ?_⟩
    · rw [FinMap.sortedKeys, Finset.sort_toFinset, members]
    · rw [hlength, mapValues_eq]
    · rw [hlength, mapEntries_eq]
  · intro pairs
    obtain ⟨x, hx, m, hm, hspec⟩ := mapFrom_gives H stack pairs
    refine ⟨m, by rw [hx, hm], ?_⟩
    intro k
    rw [← HashMap.lookup_toFinmap, hspec, lookup_foldl_last]
  · intro hstack a b x xs
    have hone : stack.Holds 1 := hstack.mono (by decide)
    have hfold (n : Nat) : stack.Holds (foldNeed n + 1) :=
      (holds_foldNeed hstack n).mono (Nat.le_succ _)
    refine ⟨?_, ?_, ?_, ?_, ?_, ?_, ?_, ?_⟩
    · have h := (setFrom_gives H stack xs).hasMembers (hfold _)
      rwa [FinMap.keys_ofSet] at h
    · have h := (setAdd_gives H stack a x).hasMembers hone
      rwa [keys_insert] at h
    · have h := (setRemove_gives H stack a x).hasMembers hone
      rwa [Finmap.keys_erase] at h
    · have h := (setUnion_gives H stack a b).hasMembers (hfold _)
      rwa [Finmap.keys_union, FinMap.keys_ofSet, Finset.union_comm] at h
    · have h := (setIntersection_gives H stack a b).hasMembers (hfold _)
      rwa [FinMap.keys_ofSet] at h
    · have h := (setDifference_gives H stack a b).hasMembers (hfold _)
      rwa [FinMap.keys_ofSet] at h
    · rw [setSubset_eq, Stack.within_of_holds (hfold _)]
      rfl
    · rw [setEqual_eq, Stack.within_of_holds (holds_foldNeed hstack _)]
      rfl

/-- A map that adds new entries at the end. -/
def inOrder : Hasher := ⟨id, fun _ => List.Perm.refl _⟩

/-- The stack of the machine, from the top of a program. -/
def machineStack : Stack Fault := .counted (.error (.stackOverflow 10000)) 9999

/-- `(map-set (map-new) "a" 7)` -/
def sevenAtA : HashMap := HashMap.empty.insert inOrder "a" (.int 7)

/-- A repeated key, a key with no value and `(map-update m "c" (fn [v] [v]))` on a union. -/
def mergedCalls : List (MapOp × List Nat) :=
  [(.mapFrom [("b", .nil), ("a", .int 1), ("b", .int 2)], []), (.mapSet "c" .nil, [0]),
    (.mapMerge, [1, 2]), (.mapUpdate "c" fun _ v => .ok (.list [v]), [3]), (.setUnion, [1, 2]),
    (.mapGetOr "a" .nil, [3]), (.mapGetOr "b" .nil, [3]), (.mapGetOr "c" (.int 5), [3]),
    (.mapGetOr "c" (.int 5), [4]), (.mapSize, [4]), (.mapHas "b", [2]), (.setSubset, [2, 3])]

/-- The session leaves the map it starts from and answers as the finite maps do; a set has each
member once. -/
theorem maps_refine_mergedCalls :
    (∃ s', sessionRun (MapOp.eval inOrder machineStack) ([sevenAtA], []) mergedCalls = .ok s' ∧
      [sevenAtA] <+: s'.1 ∧
      s'.2 = [.int 7, .int 2, .nil, .list [.nil], .int 3, .bool false, .bool true]) ∧
    HasMembers (setFrom inOrder machineStack [.str "b", .str "a", .str "b"]) {"a", "b"} := by
  constructor
  · have h := (maps_refine inOrder machineStack).1 ([sevenAtA], []) mergedCalls
    have hspec : (sessionRun (MapOp.spec machineStack) (Session.abstract ([sevenAtA], []))
        mergedCalls).map Prod.snd =
          .ok [.int 7, .int 2, .nil, .list [.nil], .int 3, .bool false, .bool true] := rfl
    rw [← h.1] at hspec
    cases hrun : sessionRun (MapOp.eval inOrder machineStack) ([sevenAtA], []) mergedCalls with
    | error fault =>
      rw [hrun] at hspec
      cases hspec
    | ok s' =>
      rw [hrun] at hspec
      exact ⟨s', rfl, h.2 s' hrun, Except.ok.inj hspec⟩
  · have hset := (((maps_refine inOrder machineStack).2.2.2 (by decide)) .empty .empty ""
      ["b", "a", "b"]).1
    exact hset

/-- `(map-values (map-from pairs))` -/
def valuesOf (ks : List String) : List (MapOp × List Nat) :=
  [(.mapFrom (ks.map fun k => (k, .bool true)), []), (.mapValues, [0])]

/-- More keys than there are frames. -/
theorem valuesOf_overflow {ks : List String} (hks : ks.Nodup) {full : Fault} {left : Nat}
    (htwo : 2 ≤ left) (hleft : left < ks.length + 2) :
    sessionRun (MapOp.spec (.counted full left)) ([], []) (valuesOf ks) = .error full := by
  obtain ⟨f, hf⟩ : ∃ f : FinMap, (ks.map fun k => (k, RtValue.bool true)).foldl
    (fun f e => f.insert e.1 e.2) (∅ : FinMap) = f := ⟨_, rfl⟩
  have hcard : f.keys.card = ks.length := by
    rw [← hf, List.foldl_map, foldl_insert_true, Finmap.union_empty, FinMap.keys_ofSet,
      List.toFinset_card_of_nodup hks]
  have hfrom : MapOp.spec (.counted full left)
      (.mapFrom (ks.map fun k => (k, RtValue.bool true))) [] = .ok (.inl f) := by
    rw [← hf]
    exact if_pos htwo
  have hvalues : MapOp.spec (.counted full left) .mapValues [f] = .error full := by
    apply if_neg
    rw [MapOp.need, hcard]
    exact Nat.not_le.mpr hleft
  rw [sessionRun, valuesOf, List.foldlM_cons]
  show (MapOp.spec _ _ [] >>= _) >>= _ = _
  rw [hfrom]
  show (MapOp.spec _ .mapValues [f] >>= _) >>= _ = _
  rw [hvalues]
  rfl

/-- As many keys, each one letter longer. -/
def letterKeys (n : Nat) : List String :=
  (List.range n).map fun n => String.ofList (List.replicate n 'a')

theorem nodup_letterKeys (n : Nat) : (letterKeys n).Nodup := by
  apply List.nodup_range.map
  intro n m h
  have hlength := congrArg (fun s : String => s.toList.length) h
  simpa using hlength

/-- `map-values` of ten thousand keys overflows the machine's stack. -/
theorem maps_not_total :
    sessionRun (MapOp.eval inOrder machineStack) ([], []) (valuesOf (letterKeys 10000)) =
        .error (.error (.stackOverflow 10000)) ∧
      ¬ ∀ (H : Hasher) (s : Session HashMap) (calls : List (MapOp × List Nat)),
        (sessionRun (MapOp.eval H machineStack) s calls).map Session.abstract =
          sessionRun (MapOp.spec .uncounted) s.abstract calls := by
  have hlength : (letterKeys 10000).length = 10000 := by
    rw [letterKeys, List.length_map, List.length_range]
  have hspec := (maps_refine inOrder machineStack).1 ([], []) (valuesOf (letterKeys 10000)) |>.1
  have hfull : sessionRun (MapOp.spec machineStack) ([], []) (valuesOf (letterKeys 10000)) =
      .error (.error (.stackOverflow 10000)) :=
    valuesOf_overflow (nodup_letterKeys 10000) (by decide) (by rw [hlength]; decide)
  have hrun : sessionRun (MapOp.eval inOrder machineStack) ([], [])
      (valuesOf (letterKeys 10000)) = .error (.error (.stackOverflow 10000)) := by
    cases hcase : sessionRun (MapOp.eval inOrder machineStack) ([], [])
        (valuesOf (letterKeys 10000)) with
    | error fault =>
      rw [hcase, Session.abstract] at hspec
      have hfault := hspec.trans hfull
      cases hfault
      rfl
    | ok s' =>
      rw [hcase] at hspec
      exact absurd (hspec.trans hfull) (by simp [Except.map])
  refine ⟨hrun, ?_⟩
  intro h
  have hmany := h inOrder ([], []) (valuesOf (letterKeys 10000))
  rw [hrun] at hmany
  -- on a stack that nobody counts the values come back
  cases hmany

end Airl.Stdlib
