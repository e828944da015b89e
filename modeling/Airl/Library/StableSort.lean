import Mathlib.Data.List.Basic
import Mathlib.Data.Bool.Basic

/-! # Stable sorting

What it is to sort a list without moving tied elements past each other, for a comparison
that orders the elements in question, and what merging two sorted lists does to it. A strict
comparison merges the other way round.
-/

namespace Airl

variable {α : Type} {P : α → Prop} {le lt : α → α → Bool} {xs ys xs' ys' zs : List α}

/-- On the values that satisfy `P` the comparison is a total preorder. -/
structure TotalPreorderOn (P : α → Prop) (le : α → α → Bool) : Prop where
  total : ∀ a b, P a → P b → le a b = true ∨ le b a = true
  trans : ∀ a b c, P a → P b → P c → le a b = true → le b c = true → le a c = true

/-- On the values that satisfy `P` the comparison is a strict weak order. -/
structure StrictWeakOrderOn (P : α → Prop) (lt : α → α → Bool) : Prop where
  asymm : ∀ a b, P a → P b → lt a b = true → lt b a = false
  cotrans : ∀ a b c, P a → P b → P c → lt a c = true → lt a b = true ∨ lt b c = true

/-- The non-strict comparison of a strict one. -/
def notAfter (lt : α → α → Bool) (a b : α) : Bool := !lt b a

def tied (le : α → α → Bool) (a b : α) : Bool := le a b && le b a

/-- `ys` is `xs` in order, and the elements tied to any one stand as they stood. -/
structure IsStableSort (P : α → Prop) (le : α → α → Bool) (xs ys : List α) : Prop where
  perm : ys.Perm xs
  ordered : ys.Pairwise fun a b => le a b = true
  stable : ∀ a, P a → ys.filter (tied le a) = xs.filter (tied le a)

theorem tied_iff {a b : α} : tied le a b = true ↔ le a b = true ∧ le b a = true := by
  rw [tied, Bool.and_eq_true]

theorem TotalPreorderOn.refl (h : TotalPreorderOn P le) {a : α} (ha : P a) : le a a = true :=
  (h.total a a ha ha).elim id id

theorem TotalPreorderOn.tied_self (h : TotalPreorderOn P le) {a : α} (ha : P a) :
    tied le a a = true :=
  tied_iff.mpr ⟨h.refl ha, h.refl ha⟩

theorem StrictWeakOrderOn.notAfter (h : StrictWeakOrderOn P lt) :
    TotalPreorderOn P (notAfter lt) where
  total a b ha hb := by
    cases hba : lt b a with
    | false => exact Or.inl (by simp [Airl.notAfter, hba])
    | true => exact Or.inr (by simp [Airl.notAfter, h.asymm b a hb ha hba])
  trans a b c ha hb hc := by
    simp only [Airl.notAfter, Bool.not_eq_true']
    intro hab hbc
    cases hca : lt c a with
    | false => rfl
    | true =>
      rcases h.cotrans c b a hc hb ha hca with hcb | hba
      · rw [hbc] at hcb
        cases hcb
      · rw [hab] at hba
        cases hba

section Merge

variable (h : TotalPreorderOn P le)

include h

theorem ordered_merge (hx : ∀ x ∈ xs, P x) (hy : ∀ y ∈ ys, P y)
    (hxs : xs.Pairwise fun a b => le a b = true) (hys : ys.Pairwise fun a b => le a b = true) :
    (xs.merge ys le).Pairwise fun a b => le a b = true := by
  induction xs generalizing ys with
  | nil => simpa using hys
  | cons x xs ihx =>
    induction ys with
    | nil => simpa using hxs
    | cons y ys ihy =>
      have hPx : P x := hx x List.mem_cons_self
      have hPy : P y := hy y List.mem_cons_self
      rw [List.pairwise_cons] at hxs hys
      rw [List.cons_merge_cons]
      cases hle : le x y with
      | true =>
        rw [if_pos rfl, List.pairwise_cons]
        constructor
        · intro z hz
          rcases List.mem_merge.mp hz with hz | hz
          · exact hxs.1 z hz
          · rcases List.mem_cons.mp hz with rfl | hz'
            · exact hle
            · exact h.trans x y z hPx hPy (hy z hz) hle (hys.1 z hz')
        · exact ihx (fun z hz => hx z (List.mem_cons_of_mem _ hz)) hy hxs.2
            (List.pairwise_cons.mpr hys)
      | false =>
        have hyx : le y x = true := by
          rcases h.total x y hPx hPy with hxy | hyx
          · rw [hle] at hxy
            cases hxy
          · exact hyx
        rw [if_neg Bool.false_ne_true, List.pairwise_cons]
        constructor
        · intro z hz
          rcases List.mem_merge.mp hz with hz | hz
          · rcases List.mem_cons.mp hz with rfl | hz'
            · exact hyx
            · exact h.trans y x z hPy hPx (hx z hz) hyx (hxs.1 z hz')
          · exact hys.1 z hz
        · exact ihy (fun z hz => hy z (List.mem_cons_of_mem _ hz)) hys.2

theorem filter_tied_eq_nil {a x y : α} (ha : P a) (hPy : P y) (hx : ∀ z ∈ x :: xs, P z)
    (hxs : (x :: xs).Pairwise fun a b => le a b = true) (hxy : le x y = false)
    (hy : tied le a y = true) : (x :: xs).filter (tied le a) = [] := by
  rw [List.filter_eq_nil_iff]
  intro z hz htied
  have hPx := hx x List.mem_cons_self
  have hxz : le x z = true := by
    rcases List.mem_cons.mp hz with rfl | hz
    · exact h.refl hPx
    · exact (List.pairwise_cons.mp hxs).1 z hz
  have hxa := h.trans x z a hPx (hx z hz) ha hxz (tied_iff.mp htied).2
  have hle := h.trans x a y hPx ha hPy hxa (tied_iff.mp hy).1
  rw [hxy] at hle
  cases hle

theorem filter_tied_merge {a : α} (ha : P a) (hx : ∀ x ∈ xs, P x) (hy : ∀ y ∈ ys, P y)
    (hxs : xs.Pairwise fun a b => le a b = true) :
    (xs.merge ys le).filter (tied le a) =
      xs.filter (tied le a) ++ ys.filter (tied le a) := by
  induction xs generalizing ys with
  | nil => simp
  | cons x xs ihx =>
    induction ys with
    | nil => simp
    | cons y ys ihy =>
      have hx' : ∀ z ∈ xs, P z := fun z hz => hx z (List.mem_cons_of_mem _ hz)
      have hy' : ∀ z ∈ ys, P z := fun z hz => hy z (List.mem_cons_of_mem _ hz)
      rw [List.cons_merge_cons]
      cases hle : le x y with
      | true =>
        rw [if_pos rfl, List.filter_cons, ihx hx' hy (List.pairwise_cons.mp hxs).2,
          List.filter_cons (x := x)]
        split
        · rfl
        · rfl
      | false =>
        rw [if_neg Bool.false_ne_true, List.filter_cons, ihy hy', List.filter_cons (x := y)]
        split
        · next htied =>
          rw [filter_tied_eq_nil h ha (hy y List.mem_cons_self) hx hxs hle htied]
          rfl
        · rfl

theorem IsStableSort.merge (hx : ∀ x ∈ xs, P x) (hy : ∀ y ∈ ys, P y)
    (hxs : IsStableSort P le xs xs') (hys : IsStableSort P le ys ys') :
    IsStableSort P le (xs ++ ys) (xs'.merge ys' le) := by
  have hx' : ∀ x ∈ xs', P x := fun x hmem => hx x (hxs.perm.mem_iff.mp hmem)
  have hy' : ∀ y ∈ ys', P y := fun y hmem => hy y (hys.perm.mem_iff.mp hmem)
  constructor
  · exact (List.merge_perm_append le).trans (hxs.perm.append hys.perm)
  · exact ordered_merge h hx' hy' hxs.ordered hys.ordered
  · intro a ha
    rw [filter_tied_merge h ha hx' hy' hxs.ordered, hxs.stable a ha, hys.stable a ha,
      List.filter_append]

theorem mem_iff_of_classes {z : α} (hz : P z)
    (hclasses : ∀ a, P a → xs.filter (tied le a) = ys.filter (tied le a)) : z ∈ xs ↔ z ∈ ys := by
  have hself := h.tied_self hz
  have hfilter : z ∈ xs.filter (tied le z) ↔ z ∈ ys.filter (tied le z) := by
    rw [hclasses z hz]
  simpa [List.mem_filter, hself] using hfilter

theorem eq_of_ordered (hx : ∀ x ∈ xs, P x) (hy : ∀ y ∈ ys, P y)
    (hxs : xs.Pairwise fun a b => le a b = true) (hys : ys.Pairwise fun a b => le a b = true)
    (hclasses : ∀ a, P a → xs.filter (tied le a) = ys.filter (tied le a)) : xs = ys := by
  have hmem := fun (z : α) (hz : P z) => mem_iff_of_classes h hz hclasses
  induction xs generalizing ys with
  | nil =>
    cases ys with
    | nil => rfl
    | cons y ys =>
        exact absurd ((hmem y (hy y List.mem_cons_self)).mpr List.mem_cons_self) (by simp)
  | cons x xs ih =>
    cases ys with
    | nil => exact absurd ((hmem x (hx x List.mem_cons_self)).mp List.mem_cons_self) (by simp)
    | cons y ys =>
      have hPx := hx x List.mem_cons_self
      have hPy := hy y List.mem_cons_self
      -- the heads are both least, so they are tied and lead the same class
      have hle : ∀ {z zs}, (z :: zs).Pairwise (fun a b => le a b = true) → P z →
          ∀ w ∈ z :: zs, le z w = true := by
        intro z zs hordered hPz w hw
        rcases List.mem_cons.mp hw with rfl | hw
        · exact h.refl hPz
        · exact (List.pairwise_cons.mp hordered).1 w hw
      have hxy : le x y = true := hle hxs hPx y ((hmem y hPy).mpr List.mem_cons_self)
      have hyx : le y x = true := hle hys hPy x ((hmem x hPx).mp List.mem_cons_self)
      have hheads := hclasses x hPx
      rw [List.filter_cons_of_pos (h.tied_self hPx),
        List.filter_cons_of_pos (tied_iff.mpr ⟨hxy, hyx⟩)] at hheads
      obtain ⟨rfl, -⟩ := List.cons.inj hheads
      have hrest : ∀ a, P a → xs.filter (tied le a) = ys.filter (tied le a) := by
        intro a ha
        have hclass := hclasses a ha
        rw [List.filter_cons, List.filter_cons] at hclass
        split at hclass
        · exact (List.cons.inj hclass).2
        · exact hclass
      have hx' : ∀ z ∈ xs, P z := fun z hz => hx z (List.mem_cons_of_mem _ hz)
      have hy' : ∀ z ∈ ys, P z := fun z hz => hy z (List.mem_cons_of_mem _ hz)
      congr 1
      exact ih hx' hy' (List.pairwise_cons.mp hxs).2 (List.pairwise_cons.mp hys).2 hrest
        (fun z hz => mem_iff_of_classes h hz hrest)

theorem IsStableSort.unique (hx : ∀ x ∈ xs, P x) (hys : IsStableSort P le xs ys)
    (hzs : IsStableSort P le xs zs) : ys = zs := by
  apply eq_of_ordered h (fun y hy => hx y (hys.perm.mem_iff.mp hy))
    (fun z hz => hx z (hzs.perm.mem_iff.mp hz)) hys.ordered hzs.ordered
  intro a ha
  rw [hys.stable a ha, hzs.stable a ha]

end Merge

theorem IsStableSort.reverse_iff (hys : IsStableSort P le xs.reverse ys) :
    IsStableSort P le xs ys ↔
      ∀ a, P a → (xs.filter (tied le a)).reverse = xs.filter (tied le a) := by
  constructor
  · intro hsorts a ha
    rw [← hsorts.stable a ha, hys.stable a ha, List.filter_reverse, List.reverse_reverse,
      ← List.filter_reverse, ← hys.stable a ha, hsorts.stable a ha]
  · intro hclasses
    refine ⟨hys.perm.trans (List.reverse_perm xs), hys.ordered, ?_⟩
    intro a ha
    rw [hys.stable a ha, List.filter_reverse, hclasses a ha]

theorem isStableSort_of_length_le_one (hlength : xs.length ≤ 1) : IsStableSort P le xs xs := by
  refine ⟨List.Perm.refl xs, ?_, fun _ _ => rfl⟩
  cases xs with
  | nil => exact List.Pairwise.nil
  | cons x xs =>
    rw [List.length_eq_zero_iff.mp (Nat.le_zero.mp (Nat.le_of_succ_le_succ hlength))]
    exact List.pairwise_singleton _ x

theorem merge_strict (lt : α → α → Bool) (xs ys : List α) :
    xs.merge ys lt = ys.merge xs (notAfter lt) := by
  induction xs generalizing ys with
  | nil => simp
  | cons x xs ihx =>
    induction ys with
    | nil => simp
    | cons y ys ihy =>
      rw [List.cons_merge_cons, List.cons_merge_cons, notAfter]
      cases lt x y with
      | true => simp [ihx]
      | false => simp [ihy]

end Airl
