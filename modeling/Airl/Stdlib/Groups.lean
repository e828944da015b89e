import Airl.Runtime.Display
import Airl.Stdlib.MapsLaw

/-! # Duplicates and groups

`unique` and `group-by` of `prelude.airl` keep what they have seen in a map whose keys are texts.
`unique` takes two elements with one text for duplicates. `group-by` makes a text of the key where
it writes to the map, but not where it reads.
-/

namespace Airl.Stdlib

section Functions

variable (floatText : UInt64 → List Char) (H : Hasher)

/-- `(str x)`. -/
def strOf (x : RtValue) : String := String.ofList (RtValue.strVariadic floatText [x])

/-- The closure of `unique`: the map of seen texts and the elements kept, last first. -/
def uniqueStep (acc : HashMap × List RtValue) (x : RtValue) : Run (HashMap × List RtValue) := do
  if ← airlMapHas acc.1 (.str (strOf floatText x)) then return acc
  else return (← airlMapSet H acc.1 (.str (strOf floatText x)) (.bool true), x :: acc.2)

def unique (xs : List RtValue) : Run (List RtValue) := do
  let pair ← fold (uniqueStep floatText H) (airlMapNew, []) xs
  reverse pair.2

/-- `(cons x xs)` on a value. -/
def rtCons (x : RtValue) : RtValue → Run RtValue
  | .list items => return .list (x :: items)
  | _ => .error .exit

/-- `(fn [v] (reverse v))`. -/
def rtReverse : RtValue → Run RtValue
  | .list items => do return .list (← reverse items)
  | _ => .error .exit

def groupStep (f : RtValue → Run RtValue) (acc : HashMap) (x : RtValue) : Run HashMap := do
  let k ← f x
  let existing ← mapGetOr .uncounted acc k (.list [])
  airlMapSet H acc (.str (strOf floatText k)) (← rtCons x existing)

def groupBy (f : RtValue → Run RtValue) (xs : List RtValue) : Run HashMap := do
  mapMapValues H .uncounted (fun _ => rtReverse) (← fold (groupStep floatText H f) airlMapNew xs)

end Functions

variable {floatText : UInt64 → List Char} {H : Hasher}

/-- The elements that are the same as no earlier one. -/
def firstsFrom (same : RtValue → RtValue → Bool) (earlier : List RtValue) :
    List RtValue → List RtValue
  | [] => []
  | x :: xs =>
    if earlier.any (same · x) then firstsFrom same (x :: earlier) xs
    else x :: firstsFrom same (x :: earlier) xs

section Firsts

variable {same same' : RtValue → RtValue → Bool} {earlier xs : List RtValue}

theorem firstsFrom_subset : firstsFrom same earlier xs ⊆ xs := by
  induction xs generalizing earlier with
  | nil => exact List.Subset.refl _
  | cons x xs ih =>
    rw [firstsFrom]
    split
    · exact fun y hy => List.mem_cons_of_mem _ (ih hy)
    · exact List.cons_subset_cons x ih

theorem firstsFrom_congr (h : ∀ x ∈ earlier ++ xs, ∀ y ∈ earlier ++ xs, same x y = same' x y) :
    firstsFrom same earlier xs = firstsFrom same' earlier xs := by
  induction xs generalizing earlier with
  | nil => rfl
  | cons x xs ih =>
    have hany : earlier.any (same · x) = earlier.any (same' · x) := by
      rw [Bool.eq_iff_iff, List.any_eq_true, List.any_eq_true]
      have hx : x ∈ earlier ++ x :: xs := by simp
      constructor
      · intro hsame
        obtain ⟨y, hy, hyx⟩ := hsame
        exact ⟨y, hy, by rw [← h y (List.mem_append_left _ hy) x hx]; exact hyx⟩
      · intro hsame
        obtain ⟨y, hy, hyx⟩ := hsame
        exact ⟨y, hy, by rw [h y (List.mem_append_left _ hy) x hx]; exact hyx⟩
    have hrest : firstsFrom same (x :: earlier) xs = firstsFrom same' (x :: earlier) xs := by
      apply ih
      intro y hy z hz
      apply h
      · simpa [or_left_comm] using hy
      · simpa [or_left_comm] using hz
    rw [firstsFrom, firstsFrom, hany, hrest]

theorem firstsFrom_apart {y : RtValue} (hy : y ∈ firstsFrom same earlier xs) :
    ∀ x ∈ earlier, same x y = false := by
  induction xs generalizing earlier with
  | nil => cases hy
  | cons x xs ih =>
    rw [firstsFrom] at hy
    split at hy
    · exact fun z hz => ih hy z (List.mem_cons_of_mem _ hz)
    · next hnone =>
      rcases List.mem_cons.mp hy with rfl | hy
      · intro z hz
        rw [Bool.not_eq_true, List.any_eq_false] at hnone
        simpa using hnone z hz
      · exact fun z hz => ih hy z (List.mem_cons_of_mem _ hz)

theorem firstsFrom_pairwise :
    (firstsFrom same earlier xs).Pairwise fun x y => same x y = false := by
  induction xs generalizing earlier with
  | nil => exact List.Pairwise.nil
  | cons x xs ih =>
    rw [firstsFrom]
    split
    · exact ih
    · rw [List.pairwise_cons]
      exact ⟨fun y hy => firstsFrom_apart hy x List.mem_cons_self, ih⟩

end Firsts

def sameText (floatText : UInt64 → List Char) (x y : RtValue) : Bool :=
  strOf floatText x == strOf floatText y

theorem uniqueStep_eq {seen : HashMap} {lst : List RtValue} {x : RtValue} :
    uniqueStep floatText H (seen, lst) x =
      if strOf floatText x ∈ seen.toFinmap then .ok (seen, lst)
      else (airlMapSet H seen (.str (strOf floatText x)) (.bool true)).map fun m =>
        (m, x :: lst) := by
  unfold uniqueStep
  rw [airlMapHas_str]
  by_cases hx : strOf floatText x ∈ seen.toFinmap
  · simp [hx, bind, Except.bind, pure, Except.pure]
  · rw [if_neg hx]
    simp only [bind, Except.bind, hx, decide_false, Bool.false_eq_true, if_false]
    cases airlMapSet H seen (.str (strOf floatText x)) (.bool true) <;> rfl

theorem fold_uniqueStep {earlier : List RtValue} (xs : List RtValue) (seen : HashMap)
    (lst : List RtValue)
    (hseen : ∀ k, k ∈ seen.toFinmap ↔ ∃ y ∈ earlier, strOf floatText y = k) :
    ∃ seen', fold (uniqueStep floatText H) (seen, lst) xs =
      .ok (seen', (firstsFrom (sameText floatText) earlier xs).reverse ++ lst) := by
  induction xs generalizing earlier seen lst with
  | nil => exact ⟨seen, rfl⟩
  | cons x xs ih =>
    have hany : earlier.any (sameText floatText · x) = true ↔
        strOf floatText x ∈ seen.toFinmap := by
      rw [hseen, List.any_eq_true]
      simp [sameText]
    rw [fold, firstsFrom, uniqueStep_eq]
    by_cases hx : strOf floatText x ∈ seen.toFinmap
    · rw [if_pos hx, if_pos (hany.mpr hx)]
      apply ih
      intro k
      rw [hseen]
      constructor
      · intro h
        obtain ⟨y, hy, hk⟩ := h
        exact ⟨y, List.mem_cons_of_mem _ hy, hk⟩
      · intro h
        obtain ⟨y, hy, hk⟩ := h
        rcases List.mem_cons.mp hy with rfl | hy
        · exact (hseen k).mp (hk ▸ hx)
        · exact ⟨y, hy, hk⟩
    · rw [if_neg hx, if_neg fun h => hx (hany.mp h)]
      obtain ⟨m, hset, hspec⟩ := airlMapSet_gives H seen (strOf floatText x) (.bool true)
      have hnext : ∀ k, k ∈ m.toFinmap ↔ ∃ y ∈ x :: earlier, strOf floatText y = k := by
        intro k
        rw [hspec, Finmap.mem_insert, hseen, List.exists_mem_cons_iff, eq_comm]
      obtain ⟨seen', hrest⟩ := ih m (x :: lst) hnext
      refine ⟨seen', ?_⟩
      rw [hset, List.reverse_cons, List.append_assoc]
      exact hrest

theorem unique_eq (xs : List RtValue) :
    unique floatText H xs = .ok (firstsFrom (sameText floatText) [] xs) := by
  obtain ⟨seen, hfold⟩ := @fold_uniqueStep floatText H [] xs airlMapNew [] (by
    intro k
    constructor
    · intro h
      cases h
    · intro h
      obtain ⟨y, hy, -⟩ := h
      cases hy)
  rw [unique, hfold, List.append_nil]
  show (reverse (firstsFrom (sameText floatText) [] xs).reverse : Run (List RtValue)) = _
  rw [reverse_pure, List.reverse_reverse]
  rfl

/-- `ys` has the first occurrences of `xs` up to `=`: no two are equal, and every element equals
one of them. -/
structure FirstOccurrences (xs ys : List RtValue) : Prop where
  firsts : ys = firstsFrom RtValue.valuesEqual [] xs
  apart : ys.Pairwise fun x y => x.valuesEqual y = false
  found : ∀ x ∈ xs, ∃ y ∈ ys, x.valuesEqual y = true

theorem exists_kept {earlier xs : List RtValue} {x : RtValue} (hx : x ∈ xs) :
    (∃ y ∈ earlier, strOf floatText y = strOf floatText x) ∨
      ∃ y ∈ firstsFrom (sameText floatText) earlier xs, strOf floatText y = strOf floatText x := by
  induction xs generalizing earlier with
  | nil => cases hx
  | cons x' xs ih =>
    have hany : earlier.any (sameText floatText · x') = true ↔
        ∃ y ∈ earlier, strOf floatText y = strOf floatText x' := by
      rw [List.any_eq_true]
      simp [sameText]
    rw [firstsFrom]
    rcases List.mem_cons.mp hx with rfl | hx
    · split
      · next hseen => exact Or.inl (hany.mp hseen)
      · exact Or.inr ⟨x, List.mem_cons_self, rfl⟩
    · rcases @ih (x' :: earlier) hx with ⟨y, hy, htext⟩ | ⟨y, hy, htext⟩
      · rcases List.mem_cons.mp hy with rfl | hy
        · split
          · next hseen =>
            obtain ⟨z, hz, hzy⟩ := hany.mp hseen
            exact Or.inl ⟨z, hz, hzy.trans htext⟩
          · exact Or.inr ⟨y, List.mem_cons_self, htext⟩
        · exact Or.inl ⟨y, hy, htext⟩
      · right
        split
        · exact ⟨y, hy, htext⟩
        · exact ⟨y, List.mem_cons_of_mem _ hy, htext⟩

mutual

/-- A native function is printed by its name and sizes, which the comparison sees too. -/
theorem display_seen : ∀ x : RtValue, x.seen.display floatText = x.display floatText
  | .list items => congrArg (fun text => '[' :: text ++ [']']) (displayItems_seenList items)
  | .variant tagName inner =>
    congrArg (fun text => '(' :: tagName.toList ++ ' ' :: text ++ [')']) (display_seen inner)
  | .nil | .unit | .int _ | .float _ | .bool _ | .str _ | .bytes _ | .map _ | .closure _ _
  | .partialApp _ _ _ | .bcFuncNative _ _ _ _ _ _ _ => rfl

theorem displayItems_seenList : ∀ xs : List RtValue,
    RtValue.displayItems floatText (RtValue.seenList xs) = RtValue.displayItems floatText xs
  | [] => rfl
  | x :: xs => by
    have hrest := displayItems_seenList xs
    cases xs with
    | nil => simp only [RtValue.seenList, RtValue.displayItems, display_seen x]
    | cons y ys =>
      simp only [RtValue.seenList, RtValue.displayItems, display_seen x] at hrest ⊢
      rw [hrest]

end

theorem strOf_seen (x : RtValue) : strOf floatText x.seen = strOf floatText x := by
  have hdisplay : x.seen.display floatText = x.display floatText := display_seen x
  cases x with
  | str s => rfl
  | _ =>
    simp only [RtValue.seen] at hdisplay
    simp only [strOf, RtValue.seen, RtValue.strVariadic, hdisplay]

theorem sameText_of_valuesEqual {x y : RtValue} (h : x.valuesEqual y = true) :
    strOf floatText x = strOf floatText y := by
  have hseen := ((RtValue.valuesEqual_iff x y).mp h).1
  rw [← strOf_seen, hseen, strOf_seen]

/-- `unique` is exact on the lists in which one text means equal values. -/
theorem unique_exact_iff (floatText : UInt64 → List Char) (H : Hasher) (xs : List RtValue) :
    (∃ ys, unique floatText H xs = .ok ys ∧ FirstOccurrences xs ys) ↔
      ∀ x ∈ xs, ∀ y ∈ xs, strOf floatText x = strOf floatText y → x.valuesEqual y = true := by
  rw [unique_eq]
  constructor
  · intro h x hx y hy htext
    obtain ⟨ys, hys, hexact⟩ := h
    cases hys
    -- both are kept, and no two kept elements share their text
    obtain ⟨x', hx', hxeq⟩ := hexact.found x hx
    obtain ⟨y', hy', hyeq⟩ := hexact.found y hy
    have htext' : strOf floatText x' = strOf floatText y' := by
      rw [← sameText_of_valuesEqual hxeq, htext, sameText_of_valuesEqual hyeq]
    by_contra hnot
    have hne : x' ≠ y' := by
      rintro rfl
      rw [RtValue.valuesEqual_iff] at hxeq hyeq hnot
      exact hnot ⟨hxeq.1.trans hyeq.1.symm, hxeq.2⟩
    have hsymm : Std.Symm fun x y => sameText floatText x y = false :=
      ⟨fun a b hab => by rw [sameText, Bool.beq_comm]; exact hab⟩
    have hpairwise := @firstsFrom_pairwise (sameText floatText) [] xs
    have hapart := hpairwise.forall hx' hy' hne
    rw [sameText, htext', BEq.rfl] at hapart
    cases hapart
  · intro h
    have hsame : ∀ x ∈ xs, ∀ y ∈ xs, sameText floatText x y = x.valuesEqual y := by
      intro x hx y hy
      rw [sameText, Bool.eq_iff_iff, beq_iff_eq]
      exact ⟨h x hx y hy, sameText_of_valuesEqual⟩
    refine ⟨_, rfl, ?_, ?_, ?_⟩
    · exact firstsFrom_congr hsame
    · apply firstsFrom_pairwise.imp_of_mem
      intro x y hx hy hapart
      rw [← hsame x (firstsFrom_subset hx) y (firstsFrom_subset hy)]
      exact hapart
    · intro x hx
      rcases @exists_kept floatText [] xs x hx with ⟨y, hy, -⟩ | ⟨y, hy, htext⟩
      · cases hy
      · exact ⟨y, hy, h x hx y (firstsFrom_subset hy) htext.symm⟩

/-- `(unique [1 "1"])` is `[1]`. -/
theorem unique_number_text :
    unique (fun _ => []) inOrder [.int 1, .str "1"] = .ok [.int 1] ∧
      ¬ FirstOccurrences [.int 1, .str "1"] [.int 1] := by
  constructor
  · rw [unique_eq]
    rfl
  · intro h
    obtain ⟨y, hy, heq⟩ := h.found (.str "1") (by simp)
    rw [List.mem_singleton.mp hy] at heq
    cases heq

/-- Whether the key of `x` is `k`. -/
def hasKey (floatText : UInt64 → List Char) (key : RtValue → RtValue) (k : String) (x : RtValue) :
    Bool :=
  strOf floatText (key x) == k

/-- A map of lists: under every key that occurs, the elements with that key in order. -/
def Partitions (floatText : UInt64 → List Char) (key : RtValue → RtValue) (xs : List RtValue)
    (m : HashMap) : Prop :=
  ∀ k, m.get k =
    if xs.any (hasKey floatText key k) then some (.list (xs.filter (hasKey floatText key k)))
    else none

section GroupBy

variable {key : RtValue → RtValue} {earlier xs : List RtValue} {x : RtValue} {acc m : HashMap}

theorem strOf_str (s : String) : strOf floatText (.str s) = s := by
  rw [strOf, RtValue.strVariadic, RtValue.strVariadic, List.append_nil, String.ofList_toList]

/-- What the fold keeps: the groups of the elements passed, each reversed. -/
def GroupsReversed (floatText : UInt64 → List Char) (key : RtValue → RtValue)
    (earlier : List RtValue) (acc : HashMap) : Prop :=
  ∀ k, acc.get k =
    if earlier.any (hasKey floatText key k) then
      some (.list (earlier.filter (hasKey floatText key k)).reverse)
    else none

theorem groupStep_reversed {s : String} (hkey : key x = .str s)
    (hacc : GroupsReversed floatText key earlier acc) :
    ∃ m, groupStep floatText H (fun x => .ok (key x)) acc x = .ok m ∧
      GroupsReversed floatText key (earlier ++ [x]) m := by
  have hx : ∀ k, hasKey floatText key k x = (s == k) := by
    intro k
    rw [hasKey, hkey, strOf_str]
  have hexisting : mapGetOr .uncounted acc (.str s) (.list []) =
      .ok (.list (earlier.filter (hasKey floatText key s)).reverse) := by
    rw [mapGetOr_eq, HashMap.lookup_toFinmap, hacc s]
    cases hany : earlier.any (hasKey floatText key s) with
    | true => rfl
    | false =>
      have hnone : earlier.filter (hasKey floatText key s) = [] := by
        rw [List.any_eq_false] at hany
        exact List.filter_eq_nil_iff.mpr hany
      rw [hnone]
      rfl
  obtain ⟨m, hset, hspec⟩ := airlMapSet_gives H acc s
    (.list (x :: (earlier.filter (hasKey floatText key s)).reverse))
  refine ⟨m, ?_, ?_⟩
  · rw [groupStep, hkey]
    show (mapGetOr .uncounted acc (.str s) (.list []) >>= _) = _
    rw [hexisting, strOf_str]
    exact hset
  · intro k
    rw [← HashMap.lookup_toFinmap, hspec, List.any_append, List.filter_append, List.any_cons,
      List.any_nil, Bool.or_false, List.filter_cons, List.filter_nil, hx]
    by_cases hk : s = k
    · subst hk
      simp [Finmap.lookup_insert]
    · rw [Finmap.lookup_insert_of_ne _ (Ne.symm hk), HashMap.lookup_toFinmap, hacc k,
        beq_eq_false_iff_ne.mpr hk]
      simp

theorem fold_groupStep (hkeys : ∀ x ∈ xs, ∃ s, key x = .str s)
    (hacc : GroupsReversed floatText key earlier acc) :
    ∃ m, fold (groupStep floatText H (fun x => .ok (key x))) acc xs = .ok m ∧
      GroupsReversed floatText key (earlier ++ xs) m := by
  induction xs generalizing earlier acc with
  | nil => exact ⟨acc, rfl, by rwa [List.append_nil]⟩
  | cons x xs ih =>
    obtain ⟨s, hs⟩ := hkeys x List.mem_cons_self
    obtain ⟨m, hstep, hm⟩ := groupStep_reversed (H := H) hs hacc
    obtain ⟨m', hrest, hm'⟩ := ih (fun y hy => hkeys y (List.mem_cons_of_mem _ hy)) hm
    refine ⟨m', ?_, ?_⟩
    · rw [fold, hstep]
      exact hrest
    · rwa [List.append_assoc, List.singleton_append] at hm'

theorem keys_of_fold (h : fold (groupStep floatText H (fun x => .ok (key x))) acc xs = .ok m) :
    ∀ x ∈ xs, ∃ s, key x = .str s := by
  induction xs generalizing acc with
  | nil =>
    intro x hx
    cases hx
  | cons x xs ih =>
    rw [fold] at h
    cases hstep : groupStep floatText H (fun x => .ok (key x)) acc x with
    | error fault =>
      rw [hstep] at h
      cases h
    | ok m' =>
      rw [hstep] at h
      have hrest := ih h
      intro y hy
      rcases List.mem_cons.mp hy with rfl | hy
      · cases hkey : key y with
        | str s => exact ⟨s, rfl⟩
        | _ =>
          rw [groupStep, hkey] at hstep
          cases hstep
      · exact hrest y hy

theorem mapMapValues_get {transform : RtValue → Run RtValue} {t : String → RtValue}
    (h : ∀ k v, m.get k = some v → transform v = .ok (t k)) :
    ∃ m', mapMapValues H .uncounted (fun _ => transform) m = .ok m' ∧
      ∀ k, m'.get k = if m.containsKey k then some (t k) else none := by
  have hstep : ∀ acc : HashMap, ∀ k ∈ m.toFinmap.sortedKeys,
      Gives (pairOf (.list [.str k, m.toFinmap.value k]) >>= fun pair =>
        transform pair.2 >>= fun v => airlMapSet H acc pair.1 v) (acc.toFinmap.insert k (t k)) := by
    intro acc k hk
    rw [FinMap.mem_sortedKeys, Finmap.mem_iff] at hk
    obtain ⟨v, hv⟩ := hk
    have hvalue : m.toFinmap.value k = v := by
      rw [FinMap.value, hv]
      rfl
    have htransform := h k v (by rw [← HashMap.lookup_toFinmap, hv])
    show Gives (transform (m.toFinmap.value k) >>= fun v => airlMapSet H acc (.str k) v) _
    rw [hvalue, htransform]
    exact airlMapSet_gives H acc k (t k)
  have hfold : Gives (fold (fun acc k => pairOf (.list [.str k, m.toFinmap.value k]) >>=
        fun pair => transform pair.2 >>= fun v => airlMapSet H acc pair.1 v) airlMapNew
          m.toFinmap.sortedKeys)
      (m.toFinmap.sortedKeys.foldl (fun f k => f.insert k (t k)) airlMapNew.toFinmap) :=
    fold_gives _ hstep airlMapNew
  obtain ⟨m', hloop, hspec⟩ := hfold
  refine ⟨m', ?_, ?_⟩
  · show (mapEntries .uncounted m >>= fun entries =>
      mapMapValuesLoop H .uncounted (fun _ => transform) entries 0 entries.length airlMapNew) = _
    rw [mapEntries_eq]
    show mapMapValuesLoop H .uncounted (fun _ => transform) _ 0 _ airlMapNew = _
    rw [mapMapValuesLoop, indexLoop_eq_fold, List.drop_zero, fold_map]
    exact hloop
  · intro k
    rw [← HashMap.lookup_toFinmap, hspec, lookup_foldl_insert]
    by_cases hk : m.containsKey k = true
    · rw [if_pos hk, if_pos (FinMap.mem_sortedKeys.mpr (HashMap.mem_toFinmap.mpr hk))]
    · rw [if_neg hk, if_neg fun h => hk (HashMap.mem_toFinmap.mp (FinMap.mem_sortedKeys.mp h))]
      rfl

theorem groupBy_eq (hkeys : ∀ x ∈ xs, ∃ s, key x = .str s) :
    ∃ m, groupBy floatText H (fun x => .ok (key x)) xs = .ok m ∧
      Partitions floatText key xs m := by
  obtain ⟨acc, hfold, hacc⟩ := @fold_groupStep floatText H key [] xs airlMapNew hkeys fun _ => rfl
  rw [List.nil_append] at hacc
  have htransform : ∀ k v, acc.get k = some v →
      rtReverse v = .ok (.list (xs.filter (hasKey floatText key k))) := by
    intro k v hv
    rw [hacc k] at hv
    split at hv
    · cases hv
      rw [rtReverse, reverse_pure, List.reverse_reverse]
      rfl
    · cases hv
  obtain ⟨m, hm, hget⟩ := mapMapValues_get (H := H) htransform
  refine ⟨m, ?_, ?_⟩
  · rw [groupBy, hfold]
    exact hm
  · intro k
    rw [hget, HashMap.containsKey, hacc k]
    cases xs.any (hasKey floatText key k) <;> rfl

end GroupBy

/-- `group-by` partitions the list exactly where every key is a text. -/
theorem groupBy_partitions_iff (floatText : UInt64 → List Char) (H : Hasher)
    (key : RtValue → RtValue) (xs : List RtValue) :
    (∃ m, groupBy floatText H (fun x => .ok (key x)) xs = .ok m ∧
        Partitions floatText key xs m) ↔
      ∀ x ∈ xs, ∃ s, key x = .str s := by
  constructor
  · intro h
    obtain ⟨m, hm, -⟩ := h
    rw [groupBy] at hm
    cases hfold : fold (groupStep floatText H fun x => .ok (key x)) airlMapNew xs with
    | error fault =>
      rw [hfold] at hm
      cases hm
    | ok acc => exact keys_of_fold hfold
  · exact groupBy_eq

/-- `(group-by (fn [x] x) [1])` stops. -/
theorem groupBy_number :
    groupBy (fun _ => []) inOrder (fun x => .ok (id x)) [.int 1] = .error .exit ∧
      ¬ ∃ m, groupBy (fun _ => []) inOrder (fun x => .ok (id x)) [.int 1] = .ok m ∧
        Partitions (fun _ => []) id [.int 1] m := by
  have hstops : groupBy (fun _ => []) inOrder (fun x => .ok (id x)) [.int 1] = .error .exit := rfl
  refine ⟨hstops, ?_⟩
  intro h
  obtain ⟨m, hm, -⟩ := h
  rw [hstops] at hm
  cases hm

end Airl.Stdlib
