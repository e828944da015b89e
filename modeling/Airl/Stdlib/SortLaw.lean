import Airl.Library.StableSort
import Airl.Stdlib.Prelude

/-! # The order `sort` leaves

`sort` splits, sorts the halves and merges. With a comparison that holds of tied elements the
left half wins ties and the sort is stable. With a strict comparison the right half wins every tie,
and what comes out is the stable sort of the reversed list.
-/

namespace Airl.Stdlib

variable {σ : Type} {e : Engine} {cmp : RtValue → RtValue → Exec σ RtValue}
  {r le lt : RtValue → RtValue → Bool} {P : RtValue → Prop} {xs ys : List RtValue}

/-- The comparison function answers `r` on the values that satisfy `P`, in every world. -/
def Compares (P : RtValue → Prop) (cmp : RtValue → RtValue → Exec σ RtValue)
    (r : RtValue → RtValue → Bool) : Prop :=
  ∀ a b, P a → P b → Yields (cmp a b) (.bool (r a b))

/-- `sort` returns the elements in order, ties as they stood. -/
def Sorts (e : Engine) (cmp : RtValue → RtValue → Exec σ RtValue) (le : RtValue → RtValue → Bool)
    (xs : List RtValue) : Prop :=
  ∃ ys, Yields (sort e.truthy cmp xs) ys ∧ IsStableSort (· ∈ xs) le xs ys

section Halves

variable {α γ : Type} {holds : γ → Bool} {f : α → α → Exec σ γ} {p : α → α → Bool}
  {Q : α → Prop} {us vs : List α}

/-- The test takes what the function returns for `a` and `b` as it takes `p a b`. -/
def Answers (holds : γ → Bool) (f : α → α → Exec σ γ) (p : α → α → Bool) (a b : α) : Prop :=
  ∃ v, Yields (f a b) v ∧ holds v = p a b

theorem merge_yields (hf : ∀ x ∈ us, ∀ y ∈ vs, Answers holds f p x y) :
    Yields (merge holds f us vs) (us.merge vs p) := by
  induction us generalizing vs with
  | nil =>
    rw [merge, List.nil_merge]
    exact Yields.pure vs
  | cons x us ihx =>
    induction vs with
    | nil =>
      rw [merge, List.merge_right]
      exact Yields.pure (x :: us)
    | cons y vs ihy =>
      obtain ⟨v, hv, hholds⟩ := hf x List.mem_cons_self y List.mem_cons_self
      rw [merge, List.cons_merge_cons]
      apply hv.bind
      rw [hholds]
      cases hp : p x y with
      | true =>
        have hrest := ihx fun z hz => hf z (List.mem_cons_of_mem _ hz)
        exact hrest.bind (Yields.pure _)
      | false =>
        have hrest := ihy fun z hz w hw => hf z hz w (List.mem_cons_of_mem _ hw)
        exact hrest.bind (Yields.pure _)

theorem take_append_drop_half (us : List α) :
    take (us.length / 2 : Nat) us ++ drop (us.length / 2 : Nat) us = us := by
  rw [take_natCast, drop_natCast, List.take_append_drop]

theorem pairwise_halves {R : α → α → Prop} (h : us.Pairwise R) :
    (take (us.length / 2 : Nat) us).Pairwise R ∧ (drop (us.length / 2 : Nat) us).Pairwise R ∧
      ∀ x ∈ take (us.length / 2 : Nat) us, ∀ y ∈ drop (us.length / 2 : Nat) us, R x y := by
  rw [← take_append_drop_half us] at h
  exact List.pairwise_append.mp h

theorem forall_halves (hx : ∀ x ∈ us, Q x) :
    (∀ x ∈ take (us.length / 2 : Nat) us, Q x) ∧ ∀ x ∈ drop (us.length / 2 : Nat) us, Q x := by
  rw [← take_append_drop_half us] at hx
  exact List.forall_mem_append.mp hx

theorem sort_yields_total (hf : us.Pairwise (Answers holds f p)) (hp : TotalPreorderOn Q p)
    (hx : ∀ x ∈ us, Q x) :
    ∃ zs, Yields (sort holds f us) zs ∧ IsStableSort Q p us zs := by
  induction us using sort.induct with
  | case1 us hshort =>
    refine ⟨us, ?_, isStableSort_of_length_le_one hshort⟩
    rw [sort, dif_pos hshort]
    exact Yields.pure us
  | case2 us hlong ihleft ihright =>
    obtain ⟨hfl, hfr, hcross⟩ := pairwise_halves hf
    obtain ⟨hl, hr⟩ := forall_halves hx
    obtain ⟨left, hleft, hsleft⟩ := ihleft hfl hl
    obtain ⟨right, hright, hsright⟩ := ihright hfr hr
    have hmerged := hsleft.merge hp hl hr hsright
    rw [take_append_drop_half] at hmerged
    refine ⟨left.merge right p, ?_, hmerged⟩
    rw [sort, dif_neg hlong]
    refine hleft.bind (hright.bind (merge_yields ?_))
    intro x hxmem y hymem
    exact hcross x (hsleft.perm.mem_iff.mp hxmem) y (hsright.perm.mem_iff.mp hymem)

theorem sort_yields_strict (hf : us.Pairwise (Answers holds f p)) (hp : StrictWeakOrderOn Q p)
    (hx : ∀ x ∈ us, Q x) :
    ∃ zs, Yields (sort holds f us) zs ∧ IsStableSort Q (notAfter p) us.reverse zs := by
  induction us using sort.induct with
  | case1 us hshort =>
    have hself : us.reverse = us := by
      cases us with
      | nil => rfl
      | cons x us =>
        rw [List.length_eq_zero_iff.mp (Nat.le_zero.mp (Nat.le_of_succ_le_succ hshort))]
        rfl
    refine ⟨us, ?_, ?_⟩
    · rw [sort, dif_pos hshort]
      exact Yields.pure us
    · rw [hself]
      exact isStableSort_of_length_le_one hshort
  | case2 us hlong ihleft ihright =>
    obtain ⟨hfl, hfr, hcross⟩ := pairwise_halves hf
    obtain ⟨hl, hr⟩ := forall_halves hx
    obtain ⟨left, hleft, hsleft⟩ := ihleft hfl hl
    obtain ⟨right, hright, hsright⟩ := ihright hfr hr
    have hmerged := hsright.merge hp.notAfter (fun x hmem => hr x (List.mem_reverse.mp hmem))
      (fun x hmem => hl x (List.mem_reverse.mp hmem)) hsleft
    rw [← List.reverse_append, take_append_drop_half, ← merge_strict] at hmerged
    refine ⟨left.merge right p, ?_, hmerged⟩
    rw [sort, dif_neg hlong]
    refine hleft.bind (hright.bind (merge_yields ?_))
    intro x hxmem y hymem
    exact hcross x (List.mem_reverse.mp (hsleft.perm.mem_iff.mp hxmem)) y
      (List.mem_reverse.mp (hsright.perm.mem_iff.mp hymem))

end Halves

theorem Compares.pairwise (hcmp : Compares (· ∈ xs) cmp r) :
    xs.Pairwise (Answers e.truthy cmp r) :=
  List.pairwise_of_forall_mem_list fun a ha b hb => ⟨.bool (r a b), hcmp a b ha hb, rfl⟩

section Stability

variable [Inhabited σ]

theorem Yields.unique {α : Type} {x : Exec σ α} {a b : α} (ha : Yields x a) (hb : Yields x b) :
    a = b := by
  have hab := (ha default).symm.trans (hb default)
  injection hab

theorem sorts_strict_iff (hcmp : Compares (· ∈ xs) cmp lt) (hlt : StrictWeakOrderOn (· ∈ xs) lt) :
    Sorts e cmp (notAfter lt) xs ↔ ∀ a ∈ xs,
      (xs.filter (tied (notAfter lt) a)).reverse = xs.filter (tied (notAfter lt) a) := by
  obtain ⟨ys, hyields, hys⟩ :=
    sort_yields_strict (hcmp.pairwise : xs.Pairwise (Answers e.truthy cmp lt)) hlt
    fun _ hx => hx
  constructor
  · intro hsorts
    obtain ⟨zs, hzs, hsorts⟩ := hsorts
    obtain rfl := hyields.unique hzs
    exact hys.reverse_iff.mp hsorts
  · intro hclasses
    exact ⟨ys, hyields, hys.reverse_iff.mpr hclasses⟩

/-- With a total preorder `sort` is a stable sort. With a strict order it is one exactly where
every class of tied elements reads the same from both ends. -/
theorem sort_stable_iff (e : Engine) (cmp : RtValue → RtValue → Exec σ RtValue)
    (r : RtValue → RtValue → Bool) (xs : List RtValue) (hcmp : Compares (· ∈ xs) cmp r) :
    (TotalPreorderOn (· ∈ xs) r → Sorts e cmp r xs) ∧
      (StrictWeakOrderOn (· ∈ xs) r →
        (Sorts e cmp (notAfter r) xs ↔ ∀ a ∈ xs,
          (xs.filter (tied (notAfter r) a)).reverse = xs.filter (tied (notAfter r) a))) := by
  constructor
  · intro hle
    exact sort_yields_total hcmp.pairwise hle fun _ hx => hx
  · intro hlt
    exact sorts_strict_iff hcmp hlt

end Stability

/-- `(fn [a b] (< (head a) (head b)))` on lists of integers and texts. -/
def headLess : RtValue → RtValue → Bool
  | .list (.int a :: _), .list (.int b :: _) => a < b
  | _, _ => false

/-- `[[1 "a"] [1 "b"]]`. -/
def tagged : List RtValue := [.list [.int 1, .str "a"], .list [.int 1, .str "b"]]

theorem headLess_tagged {a b : RtValue} (ha : a ∈ tagged) (hb : b ∈ tagged) :
    headLess a b = false := by
  simp only [tagged, List.mem_cons, List.not_mem_nil, or_false] at ha hb
  rcases ha with rfl | rfl
  · rcases hb with rfl | rfl <;> rfl
  · rcases hb with rfl | rfl <;> rfl

theorem headLess_strict : StrictWeakOrderOn (· ∈ tagged) headLess where
  asymm a b ha hb _ := headLess_tagged hb ha
  cotrans a _ c ha _ hc hac := by
    rw [headLess_tagged ha hc] at hac
    cases hac

/-- The comparison as a closure without effects. -/
def byHead (r : RtValue → RtValue → Bool) (a b : RtValue) : Exec Unit RtValue :=
  return .bool (r a b)

theorem byHead_compares (r : RtValue → RtValue → Bool) (P : RtValue → Prop) :
    Compares P (byHead r) r := fun _ _ _ _ => Yields.pure _

theorem tagged_classes : ¬ ∀ a ∈ tagged,
    (tagged.filter (tied (notAfter headLess) a)).reverse =
      tagged.filter (tied (notAfter headLess) a) := by
  intro h
  have hfirst := h (.list [.int 1, .str "a"]) (by simp [tagged])
  have hall : tagged.filter (tied (notAfter headLess) (.list [.int 1, .str "a"])) = tagged := rfl
  rw [hall] at hfirst
  simp [tagged] at hfirst

/-- By `<` the pairs come out the other way round, by `<=` as they went in. -/
theorem sort_stable_iff_tagged :
    Sorts .machine (byHead (notAfter headLess)) (notAfter headLess) tagged ∧
      ¬ Sorts .machine (byHead headLess) (notAfter headLess) tagged := by
  constructor
  · exact (sort_stable_iff .machine _ _ tagged (byHead_compares _ _)).1 headLess_strict.notAfter
  · rw [(sort_stable_iff .machine _ _ tagged (byHead_compares _ _)).2 headLess_strict]
    exact tagged_classes

/-- Sorting `[[1 "a"] [1 "b"]]` with `(< (head a) (head b))` turns the pairs round. -/
theorem sort_not_stable :
    Compares (· ∈ tagged) (byHead headLess) headLess ∧
      StrictWeakOrderOn (· ∈ tagged) headLess ∧
      Yields (sort Engine.machine.truthy (byHead headLess) tagged) tagged.reverse ∧
      ¬ Sorts .machine (byHead headLess) (notAfter headLess) tagged := by
  refine ⟨byHead_compares _ _, headLess_strict, ?_, ?_⟩
  · obtain ⟨ys, hyields, hys⟩ := sort_yields_strict
      ((byHead_compares headLess _).pairwise :
        tagged.Pairwise (Answers Engine.machine.truthy (byHead headLess) headLess))
      headLess_strict fun _ hx => hx
    have hordered : tagged.reverse.Pairwise fun a b => notAfter headLess a b = true :=
      List.Pairwise.cons (fun b hb => by rw [List.mem_singleton.mp hb]; rfl)
        (List.pairwise_singleton _ _)
    have hreversed : IsStableSort (· ∈ tagged) (notAfter headLess) tagged.reverse tagged.reverse :=
      ⟨List.Perm.refl _, hordered, fun _ _ => rfl⟩
    rwa [hys.unique headLess_strict.notAfter (fun _ hx => List.mem_reverse.mp hx) hreversed]
      at hyields
  · rw [sorts_strict_iff (byHead_compares _ _) headLess_strict]
    exact tagged_classes

end Airl.Stdlib
