import Mathlib.Order.MinMax

/-! # Call stacks

A call takes a frame of a stack that may be bounded. `Stack.within` says of a computation on how
many frames it runs at all: with fewer it ends in the stack's overflow, whatever it would do. Its
rules give the frames of a computation from those of its parts.
-/

namespace Airl

/-- The frames that are left, and the error of a call without one; or frames that nobody counts. -/
inductive Stack (ε : Type) where
  | uncounted
  | counted (full : ε) (left : Nat)

namespace Stack

variable {ε α β : Type}

/-- A call: the body runs on one frame fewer. -/
def enter (stack : Stack ε) (body : Stack ε → Except ε α) : Except ε α :=
  match stack with
  | .uncounted => body .uncounted
  | .counted full 0 => .error full
  | .counted full (left + 1) => body (.counted full left)

/-- The stack as the body of a call sees it. -/
def below : Stack ε → Stack ε
  | .uncounted => .uncounted
  | .counted full left => .counted full (left - 1)

/-- There are so many frames. -/
def Holds (need : Nat) : Stack ε → Prop
  | .uncounted => True
  | .counted _ left => need ≤ left

instance (need : Nat) : (stack : Stack ε) → Decidable (stack.Holds need)
  | .uncounted => .isTrue trivial
  | .counted _ left => inferInstanceAs (Decidable (need ≤ left))

theorem Holds.mono {stack : Stack ε} {need more : Nat} (h : stack.Holds more) (hle : need ≤ more) :
    stack.Holds need := by
  cases stack with
  | uncounted => trivial
  | counted full left => exact Nat.le_trans hle h

/-- The computation where there are so many frames. -/
def within (stack : Stack ε) (need : Nat) (x : Except ε α) : Except ε α :=
  match stack with
  | .uncounted => x
  | .counted full left => if need ≤ left then x else .error full

variable {stack : Stack ε} {need more : Nat} {x : Except ε α}

theorem within_of_holds (h : stack.Holds need) : stack.within need x = x := by
  cases stack with
  | uncounted => rfl
  | counted full left => exact if_pos h

@[simp] theorem within_uncounted : (uncounted : Stack ε).within need x = x := rfl

@[simp] theorem within_zero : stack.within 0 x = x := by
  cases stack with
  | uncounted => rfl
  | counted full left => rw [within, if_pos (Nat.zero_le left)]

/-- A computation that needs more frames inside decides. -/
theorem within_within :
    stack.within need (stack.within more x) = stack.within (max need more) x := by
  cases stack with
  | uncounted => rfl
  | counted full left =>
    simp only [within, Nat.max_le]
    by_cases hneed : need ≤ left
    · rw [if_pos hneed]
      by_cases hmore : more ≤ left
      · rw [if_pos hmore, if_pos ⟨hneed, hmore⟩]
      · rw [if_neg hmore, if_neg fun h => hmore h.2]
    · rw [if_neg hneed, if_neg fun h => hneed h.1]

theorem within_bind (f : α → Except ε β) :
    stack.within need x >>= f = stack.within need (x >>= f) := by
  cases stack with
  | uncounted => rfl
  | counted full left =>
    rw [within, within]
    split <;> rfl

/-- What the rest needs does not count where the first part has needed as much. -/
theorem within_bind_within (h : more ≤ need) (f : α → Except ε β) :
    stack.within need (x >>= fun a => stack.within more (f a)) = stack.within need (x >>= f) := by
  cases stack with
  | uncounted => rfl
  | counted full left =>
    simp only [within]
    split
    next hneed => simp only [if_pos (Nat.le_trans h hneed)]
    next => rfl

theorem within_map (f : α → β) : (stack.within need x).map f = stack.within need (x.map f) := by
  cases stack with
  | uncounted => rfl
  | counted full left =>
    rw [within, within]
    split <;> rfl

theorem enter_eq (body : Stack ε → Except ε α) :
    stack.enter body = stack.within 1 (body stack.below) := by
  cases stack with
  | uncounted => rfl
  | counted full left =>
    cases left with
    | zero => rfl
    | succ left =>
      have hone : (counted full (left + 1)).Holds 1 := Nat.le_add_left 1 left
      rw [within_of_holds hone]
      rfl

/-- What the body needs, and a frame for the call. -/
theorem enter_within :
    (stack.enter fun below => below.within need x) = stack.within (need + 1) x := by
  cases stack with
  | uncounted => rfl
  | counted full left =>
    cases left with
    | zero => rfl
    | succ left =>
      show (if need ≤ left then x else _) = if need + 1 ≤ left + 1 then x else _
      simp only [Nat.add_le_add_iff_right]

/-! ## Computations in a world -/

section Worlds

variable {σ : Type}

/-- A call of a body that changes the world. -/
def call (stack : Stack ε) (body : Stack ε → ExceptT ε (StateM σ) α) : ExceptT ε (StateM σ) α :=
  match stack with
  | .uncounted => body .uncounted
  | .counted full 0 => throw full
  | .counted full (left + 1) => body (.counted full left)

end Worlds

end Stack

section Takes

variable {ε σ α β : Type}

/-- With the frames that the world asks for the computation is `y`, with fewer it overflows. -/
structure Takes (x : Stack ε → ExceptT ε (StateM σ) α) (frames : σ → Nat)
    (y : ExceptT ε (StateM σ) α) : Prop where
  returns : ∀ stack w, stack.Holds (frames w) → (x stack).run.run w = y.run.run w
  overflows : ∀ full left w, left < frames w →
    ((x (.counted full left)).run.run w).1 = .error full

/-- The frames of what comes after a computation, if it returns. -/
def framesAfter (y : ExceptT ε (StateM σ) α) (frames : α → σ → Nat) (w : σ) : Nat :=
  match y.run.run w with
  | (.ok a, w') => frames a w'
  | (.error _, _) => 0

@[simp] theorem framesAfter_pure (a : α) (frames : α → σ → Nat) (w : σ) :
    framesAfter (pure a : ExceptT ε (StateM σ) α) frames w = frames a w := rfl

namespace Takes

variable {x : Stack ε → ExceptT ε (StateM σ) α} {y : ExceptT ε (StateM σ) α} {frames : σ → Nat}

theorem pure (a : α) : Takes (fun _ : Stack ε => pure a) (fun _ : σ => 0) (pure a) where
  returns _ _ _ := rfl
  overflows _ _ _ h := absurd h (Nat.not_lt_zero _)

theorem of_frames_eq {frames' : σ → Nat} (h : Takes x frames y) (heq : ∀ w, frames w = frames' w) :
    Takes x frames' y := by
  have hframes : frames = frames' := funext heq
  exact hframes ▸ h

/-- One after the other: the frames are used again. -/
theorem bind {f : α → Stack ε → ExceptT ε (StateM σ) β} {g : α → ExceptT ε (StateM σ) β}
    {more : α → σ → Nat} (hx : Takes x frames y) (hf : ∀ a, Takes (f a) (more a) (g a)) :
    Takes (fun stack => x stack >>= fun a => f a stack)
      (fun w => max (frames w) (framesAfter y more w)) (y >>= g) where
  returns stack w h := by
    rw [ExceptT.run_bind, ExceptT.run_bind, StateT.run_bind, StateT.run_bind,
      hx.returns stack w (h.mono (Nat.le_max_left _ _))]
    have hmore := h.mono (Nat.le_max_right (frames w) (framesAfter y more w))
    rw [framesAfter] at hmore
    cases hrun : y.run.run w with
    | mk r w' =>
      rw [hrun] at hmore
      cases r with
      | ok a => exact (hf a).returns stack w' hmore
      | error e => rfl
  overflows full left w h := by
    rw [ExceptT.run_bind, StateT.run_bind]
    by_cases hfirst : frames w ≤ left
    · have hrest : left < framesAfter y more w :=
        (lt_max_iff.mp h).resolve_left (Nat.not_lt.mpr hfirst)
      rw [hx.returns (.counted full left) w hfirst]
      rw [framesAfter] at hrest
      cases hrun : y.run.run w with
      | mk r w' =>
        rw [hrun] at hrest
        cases r with
        | ok a => exact (hf a).overflows full left w' hrest
        | error e => exact absurd hrest (Nat.not_lt_zero _)
    · have hover := hx.overflows full left w (Nat.not_le.mp hfirst)
      cases hrun : (x (.counted full left)).run.run w with
      | mk r w' =>
        rw [hrun] at hover
        cases hover
        rfl

/-- What is returned may be changed without a call. -/
theorem returned (h : Takes x frames y) (f : α → β) :
    Takes (fun stack => x stack >>= fun a => Pure.pure (f a)) frames
      (y >>= fun a => Pure.pure (f a)) := by
  have hbind := h.bind fun a => (Takes.pure (f a) : Takes (fun _ : Stack ε => _) (fun _ : σ => 0) _)
  have hzero : (fun w => max (frames w) (framesAfter y (fun _ _ => 0) w)) = frames := by
    funext w
    rw [framesAfter]
    split <;> exact Nat.max_eq_left (Nat.zero_le _)
  rwa [hzero] at hbind

/-- A call takes a frame more than its body. -/
theorem call (h : Takes x frames y) :
    Takes (fun stack => stack.call x) (fun w => frames w + 1) y where
  returns stack w hstack := by
    cases stack with
    | uncounted => exact h.returns .uncounted w trivial
    | counted full left =>
      cases left with
      | zero => exact absurd hstack (Nat.not_succ_le_zero _)
      | succ left => exact h.returns (.counted full left) w (Nat.le_of_succ_le_succ hstack)
  overflows full left w hleft := by
    cases left with
    | zero => rfl
    | succ left => exact h.overflows full left w (Nat.lt_of_succ_lt_succ hleft)

end Takes

end Takes

end Airl
