import Mathlib.Data.List.Forall2
import Mathlib.Logic.Basic

/-! # What a computation returns, and when

A computation that can stop returns a value under a condition. `Returns m p x` says
that `m` returns `x` exactly under `p`; the rules compose such facts along `>>=`.
-/

namespace Airl

variable {ε α β : Type}

theorem except_bind_eq_ok {m : Except ε α} {f : α → Except ε β} {y : β} :
    (m >>= f) = .ok y ↔ ∃ x, m = .ok x ∧ f x = .ok y := by
  cases m <;> simp [bind, Except.bind]

/-- A list of computations returns what each of them does. -/
theorem mapM_eq_ok {f : α → Except ε β} {xs : List α} {ys : List β} :
    xs.mapM f = .ok ys ↔ List.Forall₂ (fun x y => f x = .ok y) xs ys := by
  induction xs generalizing ys with
  | nil =>
    rw [List.mapM_nil, List.forall₂_nil_left_iff]
    constructor
    · intro h
      cases h
      rfl
    · rintro rfl
      rfl
  | cons x xs ih =>
    rw [List.mapM_cons, List.forall₂_cons_left_iff]
    simp only [except_bind_eq_ok, ih]
    constructor
    · intro h
      obtain ⟨y, hy, rest, hrest, heq⟩ := h
      cases heq
      exact ⟨y, rest, hy, hrest, rfl⟩
    · intro h
      obtain ⟨y, rest, hy, hrest, rfl⟩ := h
      exact ⟨y, hy, rest, hrest, rfl⟩

/-- Whatever is in the list that is returned was returned for an element. -/
theorem exists_of_mem_mapM {f : α → Except ε β} {xs : List α} {ys : List β}
    (h : xs.mapM f = .ok ys) {y : β} (hy : y ∈ ys) : ∃ x ∈ xs, f x = .ok y := by
  have hall := mapM_eq_ok.mp h
  clear h
  induction hall with
  | nil => cases hy
  | @cons x y' xs ys hx _ ih =>
    rcases List.mem_cons.mp hy with rfl | hy
    · exact ⟨x, List.mem_cons_self, hx⟩
    · obtain ⟨x', hx', hreturns⟩ := ih hy
      exact ⟨x', List.mem_cons_of_mem _ hx', hreturns⟩

/-- `m` returns `x` where `p` holds and nothing where it does not. -/
def Returns (m : Except ε α) (p : Prop) (x : α) : Prop := ∀ y, m = .ok y ↔ p ∧ y = x

namespace Returns

variable {m : Except ε α} {f : α → Except ε β} {p q : Prop} {x : α} {y : β}

theorem ok (x : α) : Returns (.ok x : Except ε α) True x := by
  intro y
  simp [eq_comm]

theorem pure (x : α) : Returns (Pure.pure x : Except ε α) True x := ok x

theorem error (e : ε) (x : α) : Returns (.error e) False x := by
  intro y
  simp

theorem congr (h : Returns m p x) (hpq : p ↔ q) : Returns m q x := by
  intro y
  rw [h y, hpq]

theorem eq_ok (h : Returns m p x) (hp : p) : m = .ok x := (h x).mpr ⟨hp, rfl⟩

theorem bind (h : Returns m p x) (hf : Returns (f x) q y) : Returns (m >>= f) (p ∧ q) y := by
  intro z
  cases hm : m with
  | error e =>
    have hnot : ¬ p := fun hp => by
      rw [h.eq_ok hp] at hm
      cases hm
    constructor
    · intro hz
      cases hz
    · intro hz
      exact absurd hz.1.1 hnot
  | ok a =>
    obtain ⟨hp, rfl⟩ := (h a).mp hm
    rw [show (Except.ok a >>= f) = f a from rfl, hf z, and_iff_right hp]

theorem seq {r : Prop} (h : Returns m p x) (hf : Returns (f x) q y) (hr : p ∧ q ↔ r) :
    Returns (m >>= f) r y :=
  (h.bind hf).congr hr

theorem map (h : Returns m p x) (g : α → β) : Returns (m >>= fun a => Pure.pure (g a)) p (g x) :=
  h.seq (pure (g x)) (and_iff_left trivial)

theorem exists_iff (h : Returns m p x) : (∃ y, m = .ok y) ↔ p := by
  simp [h _]

theorem iff_ok (h : Returns m p x) : m = .ok x ↔ p := by
  rw [h x]
  simp

end Returns

end Airl
