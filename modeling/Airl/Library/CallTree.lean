import Mathlib.Order.Basic

/-! # Calls, tail calls and a bounded stack

A program is seen as its calls: which calls a call makes in frames of their own,
which it goes on with in its own frame, and what each needs of its arguments. If
one call completes exactly when its own need is met and what it makes and goes on
with completes, then it completes exactly when every call reached from it meets
its need and lies within the stack.
-/

namespace CallTree

/-- The calls of a program. -/
structure System (Call : Type) where
  /-- A call in a new frame. -/
  makes : Call → Call → Prop
  /-- A call in the same frame. -/
  continues : Call → Call → Prop
  /-- What a call needs of its arguments. -/
  meets : Call → Prop

/-- `d` is reached from `c` with `n` frames above that of `c`. -/
inductive Reaches {Call : Type} (S : System Call) : Call → Nat → Call → Prop
  | here (c : Call) : Reaches S c 0 c
  | call {c d e : Call} {n : Nat} : S.makes c d → Reaches S d n e → Reaches S c (n + 1) e
  | tail {c d e : Call} {n : Nat} : S.continues c d → Reaches S d n e → Reaches S c n e

variable {Call : Type} {S : System Call} {c d : Call} {frames : Nat}

/-- Every call reached from `c` meets its need and fits into `frames` frames. -/
def Supports (S : System Call) (frames : Nat) (c : Call) : Prop :=
  ∀ n d, Reaches S c n d → n < frames ∧ S.meets d

/-- `completes frames c`: the call `c` comes to an end with `frames` frames left. -/
structure Describes (S : System Call) (completes : Nat → Call → Prop) : Prop where
  no_frame : ∀ c, ¬ completes 0 c
  frame : ∀ frames c, completes (frames + 1) c ↔
    S.meets c ∧ (∀ d, S.makes c d → completes frames d) ∧
      ∀ d, S.continues c d → completes (frames + 1) d

theorem Supports.meets (h : Supports S frames c) : S.meets c := (h 0 c (.here c)).2

theorem Supports.call (h : Supports S (frames + 1) c) (hd : S.makes c d) :
    Supports S frames d := by
  intro n e he
  obtain ⟨hlt, hmeets⟩ := h (n + 1) e (.call hd he)
  exact ⟨Nat.lt_of_succ_lt_succ hlt, hmeets⟩

theorem Supports.tail (h : Supports S frames c) (hd : S.continues c d) : Supports S frames d :=
  fun n e he => h n e (.tail hd he)

variable {completes : Nat → Call → Prop}

theorem Describes.supports (hS : Describes S completes) (h : completes frames c) :
    Supports S frames c := by
  intro n d hd
  induction hd generalizing frames with
  | here c =>
    cases frames with
    | zero => exact absurd h (hS.no_frame c)
    | succ frames => exact ⟨Nat.succ_pos _, ((hS.frame frames c).mp h).1⟩
  | @call c d n e hcd _ ih =>
    cases frames with
    | zero => exact absurd h (hS.no_frame c)
    | succ frames =>
      obtain ⟨hlt, hmeets⟩ := ih (((hS.frame frames c).mp h).2.1 d hcd)
      exact ⟨Nat.succ_lt_succ hlt, hmeets⟩
  | @tail c d n e hcd _ ih =>
    cases frames with
    | zero => exact absurd h (hS.no_frame c)
    | succ frames => exact ih (((hS.frame frames c).mp h).2.2 d hcd)

/-- The induction is on the frames, and within one frame on a size that the tail
calls decrease. -/
theorem Describes.completes_of_supports (hS : Describes S completes) (size : Call → Nat)
    (hsize : ∀ c d, S.continues c d → size d < size c) (h : Supports S frames c) :
    completes frames c := by
  induction frames generalizing c with
  | zero => exact absurd (h 0 c (.here c)).1 (Nat.lt_irrefl 0)
  | succ frames ih =>
    induction hk : size c using Nat.strongRecOn generalizing c with
    | ind k ihk =>
      rw [hS.frame]
      refine ⟨h.meets, fun d hd => ih (h.call hd), fun d hd => ?_⟩
      exact ihk (size d) (hk ▸ hsize c d hd) (h.tail hd) rfl

theorem Describes.completes_iff (hS : Describes S completes) (size : Call → Nat)
    (hsize : ∀ c d, S.continues c d → size d < size c) :
    completes frames c ↔ Supports S frames c :=
  ⟨hS.supports, hS.completes_of_supports size hsize⟩

end CallTree
