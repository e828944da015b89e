import Mathlib.Data.List.Basic
import Airl.Runtime.Value

/-! # Lists in the standard library

The functions of `prelude.airl`. Closures run in any monad, and what `if` takes for true is a
parameter: the machine and compiled code differ on it.
-/

namespace Airl.Stdlib

/-- Who runs the code. -/
inductive Engine where
  | machine
  | compiled
  deriving Repr, DecidableEq

/-- What `if` takes for true: `Op::JumpIfFalse` jumps on `false` alone, and `airl_as_bool_raw`
is 0 on nil too. -/
def Engine.truthy : Engine → RtValue → Bool
  | _, .bool b => b
  | .compiled, .nil => false
  | _, _ => true

/-- Code that changes the world `σ` and can stop. -/
abbrev Exec (σ : Type) := ExceptT Fault (StateM σ)

section Functions

variable {m : Type → Type} [Monad m] {α β γ : Type}

def map (f : α → m β) : List α → m (List β)
  | [] => return []
  | x :: xs => do
    let y ← f x
    return y :: (← map f xs)

def filter (holds : γ → Bool) (pred : α → m γ) : List α → m (List α)
  | [] => return []
  | x :: xs => do
    if holds (← pred x) then return x :: (← filter holds pred xs)
    else filter holds pred xs

def fold (f : β → α → m β) (init : β) : List α → m β
  | [] => return init
  | x :: xs => do fold f (← f init x) xs

def reverse (xs : List α) : m (List α) := fold (fun acc x => return x :: acc) [] xs

def concat : List α → List α → List α
  | [], ys => ys
  | x :: xs, ys => x :: concat xs ys

/-- A negative `n` takes all. -/
def take (n : Int) : List α → List α
  | [] => []
  | x :: xs => if n = 0 then [] else x :: take (n - 1) xs

def drop (n : Int) : List α → List α
  | [] => []
  | x :: xs => if n = 0 then x :: xs else drop (n - 1) xs

def any (holds : γ → Bool) (pred : α → m γ) : List α → m Bool
  | [] => return false
  | x :: xs => do
    if holds (← pred x) then return true
    else any holds pred xs

def all (holds : γ → Bool) (pred : α → m γ) : List α → m Bool
  | [] => return true
  | x :: xs => do
    if holds (← pred x) then all holds pred xs
    else return false

def find (holds : γ → Bool) (pred : RtValue → m γ) : List RtValue → m RtValue
  | [] => return .nil
  | x :: xs => do
    if holds (← pred x) then return x
    else find holds pred xs

def merge (holds : γ → Bool) (cmp : α → α → m γ) : List α → List α → m (List α)
  | [], ys => return ys
  | x :: xs, [] => return x :: xs
  | x :: xs, y :: ys => do
    if holds (← cmp x y) then return x :: (← merge holds cmp xs (y :: ys))
    else return y :: (← merge holds cmp (x :: xs) ys)
termination_by xs ys => xs.length + ys.length

theorem concat_eq (xs ys : List α) : concat xs ys = xs ++ ys := by
  induction xs with
  | nil => rfl
  | cons x xs ih => rw [concat, ih, List.cons_append]

theorem take_natCast (n : Nat) (xs : List α) : take n xs = xs.take n := by
  induction xs generalizing n with
  | nil => simp [take]
  | cons x xs ih =>
    cases n with
    | zero => simp [take]
    | succ n =>
      have hn : ((n + 1 : Nat) : Int) - 1 = n := by omega
      rw [take, if_neg (by omega), hn, ih, List.take_succ_cons]

theorem drop_natCast (n : Nat) (xs : List α) : drop n xs = xs.drop n := by
  induction xs generalizing n with
  | nil => simp [drop]
  | cons x xs ih =>
    cases n with
    | zero => simp [drop]
    | succ n =>
      have hn : ((n + 1 : Nat) : Int) - 1 = n := by omega
      rw [drop, if_neg (by omega), hn, ih, List.drop_succ_cons]

def sort (holds : γ → Bool) (cmp : α → α → m γ) (xs : List α) : m (List α) :=
  if h : xs.length ≤ 1 then return xs
  else do
    let left ← sort holds cmp (take (xs.length / 2 : Nat) xs)
    let right ← sort holds cmp (drop (xs.length / 2 : Nat) xs)
    merge holds cmp left right
termination_by xs.length
decreasing_by
  · rw [take_natCast, List.length_take]
    omega
  · rw [drop_natCast, List.length_drop]
    omega

variable [LawfulMonad m]

theorem fold_pure (f : β → α → β) (init : β) (xs : List α) :
    fold (fun acc x => (pure (f acc x) : m β)) init xs = pure (xs.foldl f init) := by
  induction xs generalizing init with
  | nil => rfl
  | cons x xs ih => rw [fold, pure_bind, ih, List.foldl_cons]

theorem reverse_pure (xs : List α) : (reverse xs : m (List α)) = pure xs.reverse := by
  rw [reverse, fold_pure, List.foldl_flip_cons_eq_append', List.append_nil]

end Functions

section Yields

variable {σ α β γ : Type} {x : Exec σ α} {f : α → Exec σ β} {a : α} {b : β}

/-- What `f` does after a run. -/
def runNext (f : α → Exec σ β) : Except Fault α × σ → Except Fault β × σ
  | (.ok a, w) => (f a).run.run w
  | (.error e, w) => (.error e, w)

theorem run_bind (x : Exec σ α) (f : α → Exec σ β) (w : σ) :
    (x >>= f).run.run w = runNext f (x.run.run w) := by
  rw [ExceptT.run_bind, StateT.run_bind]
  cases x.run.run w with
  | mk r w' =>
    cases r with
    | ok a => rfl
    | error e => rfl

@[simp] theorem run_pure (a : α) (w : σ) : (pure a : Exec σ α).run.run w = (.ok a, w) := rfl

/-- The code returns `a` in every world. -/
def Yields (x : Exec σ α) (a : α) : Prop := ∀ w, (x.run.run w).1 = .ok a

theorem Yields.pure (a : α) : Yields (pure a : Exec σ α) a := fun _ => rfl

theorem Yields.bind (hx : Yields x a) (hf : Yields (f a) b) : Yields (x >>= f) b := by
  intro w
  have hw := hx w
  rw [run_bind]
  cases hrun : x.run.run w with
  | mk r w' =>
    rw [hrun] at hw
    subst hw
    exact hf w'

end Yields

end Airl.Stdlib
