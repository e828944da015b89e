import Mathlib.Logic.Relation
import Mathlib.Data.List.Nodup

/-! # Dependency orders

Lists in which everything stands once, behind all it depends on. What a member depends on, directly
or not, is a member, and nothing depends on itself.
-/

namespace Dependencies

variable {α : Type}

/-- Each element is added behind all it depends on. -/
inductive Ordered (R : α → α → Prop) : List α → Prop
  | nil : Ordered R []
  | snoc {order : List α} {v : α} : Ordered R order → v ∉ order → (∀ w, R v w → w ∈ order) →
      Ordered R (order ++ [v])

namespace Ordered

variable {R : α → α → Prop} {order front back : List α} {v w : α}

theorem nodup (h : Ordered R order) : order.Nodup := by
  induction h with
  | nil => exact List.nodup_nil
  | snoc _ hnot _ ih =>
    rw [List.nodup_append_comm]
    exact List.nodup_cons.mpr ⟨hnot, ih⟩

theorem closed (h : Ordered R order) (hv : v ∈ order) (hR : R v w) : w ∈ order := by
  induction h with
  | nil => cases hv
  | snoc _ _ hdepends ih =>
    apply List.mem_append_left
    rcases List.mem_append.mp hv with hv | hv
    · exact ih hv
    · rw [List.mem_singleton.mp hv] at hR
      exact hdepends w hR

theorem reaches (h : Ordered R order) (hv : v ∈ order) (hR : Relation.ReflTransGen R v w) :
    w ∈ order := by
  induction hR with
  | refl => exact hv
  | tail _ hstep ih => exact h.closed ih hstep

theorem acyclic (h : Ordered R order) (hv : v ∈ order) : ¬ Relation.TransGen R v v := by
  induction h with
  | nil => cases hv
  | @snoc order x hrest hnot hdepends ih =>
    intro hcycle
    rcases List.mem_append.mp hv with hv | hv
    · exact ih hv hcycle
    · rw [List.mem_singleton.mp hv] at hcycle
      obtain ⟨w, hstep, hback⟩ := Relation.TransGen.head'_iff.mp hcycle
      exact hnot (hrest.reaches (hdepends w hstep) hback)

theorem before (h : Ordered R order) (hsplit : order = front ++ v :: back) (hR : R v w) :
    w ∈ front := by
  induction h generalizing back with
  | nil =>
    have hnil := congrArg List.length hsplit
    rw [List.length_append] at hnil
    cases hnil
  | @snoc order x hrest hnot hdepends ih =>
    rcases List.eq_nil_or_concat back with rfl | ⟨back', y, rfl⟩
    · obtain ⟨rfl, hx⟩ := List.append_inj' hsplit rfl
      rw [(List.cons.inj hx).1] at hdepends
      exact hdepends w hR
    · rw [List.concat_eq_append, ← List.cons_append, ← List.append_assoc] at hsplit
      exact ih (List.append_inj' hsplit rfl).1

end Ordered

end Dependencies
