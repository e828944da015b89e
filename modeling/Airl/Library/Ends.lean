import Mathlib.Logic.Basic

/-! # How a computation that may stop ends

`Ends E P r` says that `r` is a value in `P` or an error in `E`. The rules follow
the binds of the computation, each step under its own pair of predicates.
-/

namespace Airl

variable {ε α β : Type}

/-- The computation returns a value in `P` or stops with an error in `E`. -/
def Ends (E : ε → Prop) (P : α → Prop) : Except ε α → Prop
  | .ok a => P a
  | .error e => E e

namespace Ends

variable {E E' : ε → Prop} {P P' : α → Prop} {Q : β → Prop} {r : Except ε α}
  {f : α → Except ε β}

theorem mono (h : Ends E P r) (hE : ∀ e, E e → E' e) (hP : ∀ a, P a → P' a) : Ends E' P' r := by
  cases r with
  | ok a => exact hP a h
  | error e => exact hE e h

theorem bind (h : Ends E P r) (hE : ∀ e, E e → E' e) (hf : ∀ a, P a → Ends E' Q (f a)) :
    Ends E' Q (r >>= f) := by
  cases r with
  | ok a => exact hf a h
  | error e => exact hE e h

theorem of_eq_ok {a : α} (h : Ends E P r) (hr : r = .ok a) : P a := by
  subst hr
  exact h

theorem of_eq_error {e : ε} (h : Ends E P r) (hr : r = .error e) : E e := by
  subst hr
  exact h

end Ends

end Airl
