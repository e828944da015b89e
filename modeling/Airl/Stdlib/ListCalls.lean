import Airl.Library.CallStack
import Airl.Stdlib.Prelude

/-! # List functions on a call stack

On the machine every call of a library function and of a compiled closure takes a frame, and a self
call that is the last thing a body does takes none. `map`, `filter` for the elements it keeps,
`take` and `merge` call themselves inside `cons`, so that each element keeps a frame; the other
functions of `prelude.airl` that ask a closure loop on one frame.
-/

namespace Airl.Stdlib

/-- A closure takes the list of its arguments, as `airl_call_closure` does. -/
abbrev Closure (σ : Type) := List RtValue → Exec σ RtValue

/-- The stack of the machine, which may take `depth` calls at a time, or that of compiled code. -/
def Engine.stack (depth left : Nat) : Engine → Stack Fault
  | .machine => .counted (.error (.stackOverflow depth)) left
  | .compiled => .uncounted

/-- No run of the code ends in the machine's stack overflow. -/
def NeverOverflows {σ α : Type} (y : Exec σ α) : Prop :=
  ∀ w depth, (y.run.run w).1 ≠ .error (.error (.stackOverflow depth))

/-- A closure on call stacks: what it does where nobody counts frames, the frames this takes, and
the world it leaves when it stops for want of one. -/
structure FramedClosure (σ : Type) where
  run : Closure σ
  frames : List RtValue → σ → Nat
  stopped : List RtValue → σ → Nat → σ
  never_overflows : ∀ args, NeverOverflows (run args)

/-- The closure on the stack that is left for its call. -/
def FramedClosure.on {σ : Type} (c : FramedClosure σ) (args : List RtValue) :
    Stack Fault → Exec σ RtValue
  | .uncounted => c.run args
  | .counted full left => ExceptT.mk fun w =>
    if c.frames args w ≤ left then (c.run args).run.run w
    else (.error full, c.stopped args w left)

/-- A call of a closure takes the frames it says. -/
theorem FramedClosure.takes {σ : Type} (c : FramedClosure σ) (args : List RtValue) :
    Takes (c.on args) (c.frames args) (c.run args) where
  returns stack w h := by
    cases stack with
    | uncounted => rfl
    | counted full left => exact if_pos h
  overflows full left w h := by
    show (if c.frames args w ≤ left then _ else _ : Except Fault RtValue × σ).1 = _
    rw [if_neg (Nat.not_le.mpr h)]

section Functions

variable {σ α β γ : Type}

def mapOn (f : α → Stack Fault → Exec σ β) : List α → Stack Fault → Exec σ (List β)
  | [], stack => stack.call fun _ => return []
  | x :: xs, stack => stack.call fun stack => do
    let y ← f x stack
    return y :: (← mapOn f xs stack)

/-- The body of `filter`, which loops over the elements that are left out. -/
def filterBody (holds : γ → Bool) (pred : α → Stack Fault → Exec σ γ) :
    List α → Stack Fault → Exec σ (List α)
  | [], _ => return []
  | x :: xs, stack => do
    if holds (← pred x stack) then return x :: (← stack.call (filterBody holds pred xs))
    else filterBody holds pred xs stack

def filterOn (holds : γ → Bool) (pred : α → Stack Fault → Exec σ γ) (xs : List α)
    (stack : Stack Fault) : Exec σ (List α) :=
  stack.call (filterBody holds pred xs)

def foldOn (f : β → α → Stack Fault → Exec σ β) (init : β) (xs : List α) (stack : Stack Fault) :
    Exec σ β :=
  stack.call fun stack => fold (fun acc x => f acc x stack) init xs

def anyOn (holds : γ → Bool) (pred : α → Stack Fault → Exec σ γ) (xs : List α)
    (stack : Stack Fault) : Exec σ Bool :=
  stack.call fun stack => any holds (fun x => pred x stack) xs

def allOn (holds : γ → Bool) (pred : α → Stack Fault → Exec σ γ) (xs : List α)
    (stack : Stack Fault) : Exec σ Bool :=
  stack.call fun stack => all holds (fun x => pred x stack) xs

def findOn (holds : γ → Bool) (pred : RtValue → Stack Fault → Exec σ γ) (xs : List RtValue)
    (stack : Stack Fault) : Exec σ RtValue :=
  stack.call fun stack => find holds (fun x => pred x stack) xs

def takeOn (n : Int) : List α → Stack Fault → Exec σ (List α)
  | [], stack => stack.call fun _ => return []
  | x :: xs, stack => stack.call fun stack => do
    if n = 0 then return [] else return x :: (← takeOn (n - 1) xs stack)

def dropOn (n : Int) (xs : List α) (stack : Stack Fault) : Exec σ (List α) :=
  stack.call fun _ => return drop n xs

def mergeOn (holds : γ → Bool) (cmp : α → α → Stack Fault → Exec σ γ) :
    List α → List α → Stack Fault → Exec σ (List α)
  | [], ys, stack => stack.call fun _ => return ys
  | x :: xs, [], stack => stack.call fun _ => return x :: xs
  | x :: xs, y :: ys, stack => stack.call fun stack => do
    if holds (← cmp x y stack) then return x :: (← mergeOn holds cmp xs (y :: ys) stack)
    else return y :: (← mergeOn holds cmp (x :: xs) ys stack)
termination_by xs ys => xs.length + ys.length

/-- `takeOn` and `dropOn` return what `take` and `drop` do; the halves stand here under those
names, so that the recursion is seen to end. -/
def sortOn (holds : γ → Bool) (cmp : α → α → Stack Fault → Exec σ γ) (xs : List α)
    (stack : Stack Fault) : Exec σ (List α) :=
  stack.call fun stack =>
    if h : xs.length ≤ 1 then return xs
    else do
      let _ ← takeOn (xs.length / 2 : Nat) xs stack
      let _ ← dropOn (xs.length / 2 : Nat) xs stack
      let left ← sortOn holds cmp (take (xs.length / 2 : Nat) xs) stack
      let right ← sortOn holds cmp (drop (xs.length / 2 : Nat) xs) stack
      mergeOn holds cmp left right stack
termination_by xs.length
decreasing_by
  · rw [take_natCast, List.length_take]
    omega
  · rw [drop_natCast, List.length_drop]
    omega

end Functions

/-! ## The frames they take -/

section Frames

variable {σ α β γ : Type}

def mapFrames (frames : α → σ → Nat) (f : α → Exec σ β) : List α → σ → Nat
  | [], _ => 1
  | x :: xs, w => max (frames x w) (framesAfter (f x) (fun _ => mapFrames frames f xs) w) + 1

/-- Of the body; a call takes one more. -/
def filterFrames (holds : γ → Bool) (frames : α → σ → Nat) (pred : α → Exec σ γ) :
    List α → σ → Nat
  | [], _ => 0
  | x :: xs, w => max (frames x w) (framesAfter (pred x)
      (fun v w => filterFrames holds frames pred xs w + if holds v then 1 else 0) w)

def foldFrames (frames : β → α → σ → Nat) (f : β → α → Exec σ β) : β → List α → σ → Nat
  | _, [], _ => 0
  | acc, x :: xs, w => max (frames acc x w) (framesAfter (f acc x)
      (fun acc => foldFrames frames f acc xs) w)

/-- Of a loop that ends at the first answer that `stop` holds of. -/
def searchFrames (stop : γ → Bool) (frames : α → σ → Nat) (pred : α → Exec σ γ) :
    List α → σ → Nat
  | [], _ => 0
  | x :: xs, w => max (frames x w) (framesAfter (pred x)
      (fun v w => if stop v then 0 else searchFrames stop frames pred xs w) w)

def mergeFrames (holds : γ → Bool) (frames : α → α → σ → Nat) (cmp : α → α → Exec σ γ) :
    List α → List α → σ → Nat
  | [], _, _ => 1
  | _ :: _, [], _ => 1
  | x :: xs, y :: ys, w => max (frames x y w) (framesAfter (cmp x y) (fun v w =>
      if holds v then mergeFrames holds frames cmp xs (y :: ys) w
      else mergeFrames holds frames cmp (x :: xs) ys w) w) + 1
termination_by xs ys => xs.length + ys.length

/-- A half is taken element by element, and each of the halves is sorted before they are merged. -/
def sortFrames (holds : γ → Bool) (frames : α → α → σ → Nat) (cmp : α → α → Exec σ γ)
    (xs : List α) (w : σ) : Nat :=
  if h : xs.length ≤ 1 then 1
  else
    max (xs.length / 2 + 1) (max
      (sortFrames holds frames cmp (take (xs.length / 2 : Nat) xs) w)
      (framesAfter (sort holds cmp (take (xs.length / 2 : Nat) xs)) (fun left w => max
        (sortFrames holds frames cmp (drop (xs.length / 2 : Nat) xs) w)
        (framesAfter (sort holds cmp (drop (xs.length / 2 : Nat) xs))
          (mergeFrames holds frames cmp left) w)) w)) + 1
termination_by xs.length
decreasing_by
  · rw [take_natCast, List.length_take]
    omega
  · rw [drop_natCast, List.length_drop]
    omega

section Unary

variable {f : α → Stack Fault → Exec σ β} {frames : α → σ → Nat} {g : α → Exec σ β}

/-- `map` takes a frame for each element and one for the empty rest. -/
theorem mapOn_takes (h : ∀ x, Takes (f x) (frames x) (g x)) (xs : List α) :
    Takes (mapOn f xs) (mapFrames frames g xs) (map g xs) := by
  induction xs with
  | nil => exact (Takes.pure []).call
  | cons x xs ih => exact ((h x).bind fun y => ih.returned fun ys => y :: ys).call

/-- The body of `filter` takes a frame for each element it keeps. -/
theorem filterBody_takes (holds : β → Bool) (h : ∀ x, Takes (f x) (frames x) (g x))
    (xs : List α) :
    Takes (filterBody holds f xs) (filterFrames holds frames g xs) (filter holds g xs) := by
  induction xs with
  | nil => exact Takes.pure []
  | cons x xs ih =>
    apply (h x).bind
    intro v
    cases holds v with
    | true => exact ih.call.returned fun ys => x :: ys
    | false => exact ih

/-- `filter` takes the frames of its body and one for its call. -/
theorem filterOn_takes (holds : β → Bool) (h : ∀ x, Takes (f x) (frames x) (g x))
    (xs : List α) :
    Takes (filterOn holds f xs) (fun w => filterFrames holds frames g xs w + 1)
      (filter holds g xs) := (filterBody_takes holds h xs).call

/-- `any` looks at the elements in one frame, by tail calls. -/
theorem anyOn_takes (holds : β → Bool) (h : ∀ x, Takes (f x) (frames x) (g x)) (xs : List α) :
    Takes (anyOn holds f xs) (fun w => searchFrames holds frames g xs w + 1)
      (any holds g xs) := by
  apply Takes.call
  induction xs with
  | nil => exact Takes.pure false
  | cons x xs ih =>
    apply (h x).bind
    intro v
    cases holds v with
    | true => exact Takes.pure true
    | false => exact ih

/-- `all` looks at the elements in one frame, by tail calls. -/
theorem allOn_takes (holds : β → Bool) (h : ∀ x, Takes (f x) (frames x) (g x)) (xs : List α) :
    Takes (allOn holds f xs) (fun w => searchFrames (fun v => !holds v) frames g xs w + 1)
      (all holds g xs) := by
  apply Takes.call
  induction xs with
  | nil => exact Takes.pure true
  | cons x xs ih =>
    apply (h x).bind
    intro v
    cases hv : holds v with
    | true => simpa [hv] using ih
    | false => simpa [hv] using Takes.pure false

end Unary

/-- `find` looks at the elements in one frame, by tail calls. -/
theorem findOn_takes {f : RtValue → Stack Fault → Exec σ γ} {frames : RtValue → σ → Nat}
    {g : RtValue → Exec σ γ} (holds : γ → Bool) (h : ∀ x, Takes (f x) (frames x) (g x))
    (xs : List RtValue) :
    Takes (findOn holds f xs) (fun w => searchFrames holds frames g xs w + 1)
      (find holds g xs) := by
  apply Takes.call
  induction xs with
  | nil => exact Takes.pure RtValue.nil
  | cons x xs ih =>
    apply (h x).bind
    intro v
    cases holds v with
    | true => exact Takes.pure x
    | false => exact ih

/-- `fold` runs through the elements in one frame, by tail calls. -/
theorem foldOn_takes {f : β → α → Stack Fault → Exec σ β} {frames : β → α → σ → Nat}
    {g : β → α → Exec σ β} (h : ∀ acc x, Takes (f acc x) (frames acc x) (g acc x)) (init : β)
    (xs : List α) :
    Takes (foldOn f init xs) (fun w => foldFrames frames g init xs w + 1) (fold g init xs) := by
  apply Takes.call
  induction xs generalizing init with
  | nil => exact Takes.pure init
  | cons x xs ih => exact (h init x).bind fun acc => ih acc

section Sorting

variable {f : α → α → Stack Fault → Exec σ γ} {frames : α → α → σ → Nat}
  {g : α → α → Exec σ γ}

/-- `take` takes a frame for each element it keeps. -/
theorem takeOn_takes (n : Nat) (xs : List α) :
    Takes (σ := σ) (takeOn n xs) (fun _ => min n xs.length + 1) (pure (take n xs)) := by
  induction xs generalizing n with
  | nil =>
    refine (Takes.pure []).call.of_frames_eq ?_
    intro w
    rw [List.length_nil, Nat.min_zero]
  | cons x xs ih =>
    cases n with
    | zero =>
      refine (Takes.pure []).call.of_frames_eq ?_
      intro w
      rw [Nat.zero_min]
    | succ n =>
      have hn : ((n + 1 : Nat) : Int) - 1 = n := by omega
      have hne : ¬ ((n + 1 : Nat) : Int) = 0 := by omega
      have htakes : Takes (σ := σ) (takeOn (n + 1 : Nat) (x :: xs))
          (fun _ => min n xs.length + 1 + 1) (pure (take (n + 1 : Nat) (x :: xs))) := by
        have hrest := ((ih n).returned fun ys => x :: ys).call
        simp only [takeOn, take, if_neg hne, hn]
        simpa using hrest
      refine htakes.of_frames_eq ?_
      intro w
      rw [List.length_cons, Nat.succ_min_succ]

/-- A merge takes a frame for each element it puts in front. -/
theorem mergeOn_takes (holds : γ → Bool) (h : ∀ x y, Takes (f x y) (frames x y) (g x y))
    (xs ys : List α) :
    Takes (mergeOn holds f xs ys) (mergeFrames holds frames g xs ys) (merge holds g xs ys) := by
  induction xs, ys using merge.induct with
  | case1 ys =>
    have hon := funext (mergeOn.eq_def holds f [] ys)
    have hframes := funext (mergeFrames.eq_def holds frames g [] ys)
    rw [hon, hframes, merge]
    exact (Takes.pure ys).call
  | case2 x xs =>
    have hon := funext (mergeOn.eq_def holds f (x :: xs) [])
    have hframes := funext (mergeFrames.eq_def holds frames g (x :: xs) [])
    rw [hon, hframes, merge]
    exact (Takes.pure (x :: xs)).call
  | case3 x xs y ys ihx ihy =>
    have hon := funext (mergeOn.eq_def holds f (x :: xs) (y :: ys))
    have hframes := funext (mergeFrames.eq_def holds frames g (x :: xs) (y :: ys))
    rw [hon, hframes, merge]
    apply ((h x y).bind _).call
    intro v
    cases holds v with
    | true => exact ihx.returned fun zs => x :: zs
    | false => exact ihy.returned fun zs => y :: zs

/-- `sort` takes one frame over those of its halves and of their merge. -/
theorem sortOn_takes (holds : γ → Bool) (h : ∀ x y, Takes (f x y) (frames x y) (g x y))
    (xs : List α) :
    Takes (sortOn holds f xs) (sortFrames holds frames g xs) (sort holds g xs) := by
  induction xs using sort.induct with
  | case1 xs hshort =>
    have hon := funext (sortOn.eq_def holds f xs)
    have hframes := funext (sortFrames.eq_def holds frames g xs)
    simp only [dif_pos hshort] at hon hframes
    have hsort : sort holds g xs = pure xs := by rw [sort, dif_pos hshort]
    rw [hon, hframes, hsort]
    exact (Takes.pure xs).call
  | case2 xs hlong ihleft ihright =>
    have hon := funext (sortOn.eq_def holds f xs)
    have hframes := funext (sortFrames.eq_def holds frames g xs)
    simp only [dif_neg hlong] at hon hframes
    have hsort : sort holds g xs =
        (sort holds g (take (xs.length / 2 : Nat) xs) >>= fun left =>
          sort holds g (drop (xs.length / 2 : Nat) xs) >>= fun right =>
            merge holds g left right) := by
      rw [sort, dif_neg hlong]
    rw [hon, hframes, hsort]
    have htake := takeOn_takes (σ := σ) (xs.length / 2) xs
    have hdrop : Takes (dropOn (σ := σ) (xs.length / 2 : Nat) xs) (fun _ => 0 + 1) _ :=
      (Takes.pure (drop (xs.length / 2 : Nat) xs)).call
    have hmerge := ihleft.bind fun left => ihright.bind fun right =>
      mergeOn_takes holds h left right
    have hall := (htake.bind fun _ => hdrop.bind fun _ => hmerge).call
    refine hall.of_frames_eq ?_
    intro w
    have hhalf : min (xs.length / 2) xs.length = xs.length / 2 :=
      Nat.min_eq_left (Nat.div_le_self _ 2)
    show max (min (xs.length / 2) xs.length + 1) (max (0 + 1) _) + 1 = _
    rw [hhalf, framesAfter_pure]
    congr 1
    omega

end Sorting

/-! ### How many frames a sort takes at most -/

/-- Whatever the code returns satisfies `P`. -/
def Guarantees (P : α → Prop) (y : Exec σ α) : Prop := ∀ w a w', y.run.run w = (.ok a, w') → P a

section Bound

variable {P : α → Prop} {Q : β → Prop} {y : Exec σ α}

theorem Guarantees.pure {a : α} (h : P a) : Guarantees P (pure a : Exec σ α) := by
  intro w a' w' hrun
  cases hrun
  exact h

theorem Guarantees.bind {f : α → Exec σ β} (hy : Guarantees P y)
    (hf : ∀ a, P a → Guarantees Q (f a)) : Guarantees Q (y >>= f) := by
  intro w b w' hrun
  rw [run_bind] at hrun
  cases hfirst : y.run.run w with
  | mk r w₁ =>
    rw [hfirst] at hrun
    cases r with
    | ok a => exact hf a (hy w a w₁ hfirst) w₁ b w' hrun
    | error e => cases hrun

theorem Guarantees.any (y : Exec σ α) : Guarantees (fun _ => True) y := fun _ _ _ _ => trivial

/-- Frames that are bounded after every value are bounded after a run. -/
theorem framesAfter_le {frames : α → σ → Nat} {n : Nat} (hy : Guarantees P y)
    (h : ∀ a, P a → ∀ w, frames a w ≤ n) (w : σ) : framesAfter y frames w ≤ n := by
  rw [framesAfter]
  cases hrun : y.run.run w with
  | mk r w' =>
    cases r with
    | ok a => exact h a (hy w a w' hrun) w'
    | error e => exact Nat.zero_le n

end Bound

variable {holds : γ → Bool} {frames : α → α → σ → Nat} {g : α → α → Exec σ γ} {k : Nat}

/-- A merge keeps the number of elements. -/
theorem merge_length (xs ys : List α) :
    Guarantees (fun zs => zs.length = xs.length + ys.length) (merge holds g xs ys) := by
  induction xs, ys using merge.induct with
  | case1 ys =>
    rw [merge]
    exact Guarantees.pure (Nat.zero_add _).symm
  | case2 x xs =>
    rw [merge]
    exact Guarantees.pure rfl
  | case3 x xs y ys ihx ihy =>
    rw [merge]
    refine (Guarantees.any (g x y)).bind fun v _ => ?_
    split
    · refine ihx.bind fun zs hzs => Guarantees.pure ?_
      rw [List.length_cons, hzs, List.length_cons, List.length_cons]
      omega
    · refine ihy.bind fun zs hzs => Guarantees.pure ?_
      rw [List.length_cons, hzs, List.length_cons, List.length_cons]
      omega

/-- A sort keeps the number of elements. -/
theorem sort_length (xs : List α) :
    Guarantees (fun zs => zs.length = xs.length) (sort holds g xs) := by
  induction xs using sort.induct with
  | case1 xs hshort =>
    rw [sort, dif_pos hshort]
    exact Guarantees.pure rfl
  | case2 xs hlong ihleft ihright =>
    rw [sort, dif_neg hlong]
    refine ihleft.bind fun left hleft => ihright.bind fun right hright => ?_
    intro w zs w' hrun
    have hmerged := merge_length left right w zs w' hrun
    rw [take_natCast, List.length_take] at hleft
    rw [drop_natCast, List.length_drop] at hright
    rw [hmerged, hleft, hright]
    omega

/-- A merge takes fewer frames than the lists have elements, or those of one comparison. -/
theorem mergeFrames_le (hk : ∀ x y w, frames x y w ≤ k) (xs ys : List α) (w : σ) :
    mergeFrames holds frames g xs ys w ≤ xs.length + ys.length - 1 + max k 1 := by
  induction xs, ys using merge.induct generalizing w with
  | case1 ys =>
    rw [mergeFrames]
    omega
  | case2 x xs =>
    rw [mergeFrames]
    omega
  | case3 x xs y ys ihx ihy =>
    have hafter : framesAfter (g x y) (fun v w =>
        if holds v then mergeFrames holds frames g xs (y :: ys) w
        else mergeFrames holds frames g (x :: xs) ys w) w ≤
          xs.length + ys.length + max k 1 := by
      apply framesAfter_le (Guarantees.any _)
      intro v _ w'
      split
      · exact ihx w'
      · have hrest := ihy w'
        rw [List.length_cons] at hrest
        omega
    have hcall := hk x y w
    rw [mergeFrames, List.length_cons, List.length_cons]
    omega

/-- A frame for each element and those of a comparison. -/
theorem sortFrames_le (hk : ∀ x y w, frames x y w ≤ k) (xs : List α) (w : σ) :
    sortFrames holds frames g xs w ≤ xs.length + max k 1 := by
  induction xs using sort.induct generalizing w with
  | case1 xs hshort =>
    rw [sortFrames, dif_pos hshort]
    omega
  | case2 xs hlong ihleft ihright =>
    have hleftLength : (take (xs.length / 2 : Nat) xs).length = xs.length / 2 := by
      rw [take_natCast, List.length_take, Nat.min_eq_left (Nat.div_le_self _ 2)]
    have hrightLength : (drop (xs.length / 2 : Nat) xs).length = xs.length - xs.length / 2 := by
      rw [drop_natCast, List.length_drop]
    have hafter : framesAfter (sort holds g (take (xs.length / 2 : Nat) xs)) (fun left w => max
        (sortFrames holds frames g (drop (xs.length / 2 : Nat) xs) w)
        (framesAfter (sort holds g (drop (xs.length / 2 : Nat) xs))
          (mergeFrames holds frames g left) w)) w ≤ xs.length - 1 + max k 1 := by
      apply framesAfter_le (sort_length _)
      intro left hleft w₁
      have hmerge : framesAfter (sort holds g (drop (xs.length / 2 : Nat) xs))
          (mergeFrames holds frames g left) w₁ ≤ xs.length - 1 + max k 1 := by
        apply framesAfter_le (sort_length _)
        intro right hright w₂
        have hframes : mergeFrames holds frames g left right w₂ ≤
            left.length + right.length - 1 + max k 1 := mergeFrames_le hk left right w₂
        omega
      have hright := ihright w₁
      omega
    have hleft := ihleft w
    rw [sortFrames, dif_neg hlong]
    omega

end Frames

end Airl.Stdlib
