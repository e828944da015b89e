import Airl.Stdlib.ListCalls
import Airl.Stdlib.SortLaw

/-! # List functions of the runtime library

`list.rs` has loops of its own for the functions of `prelude.airl` that take closures. Its tests
ask whether the answer is `true`, where `if` asks whether it is not false, and its sort asks the
closure in both directions.
-/

namespace Airl.Stdlib

/-- `matches!(.., RtData::Bool(true))`. -/
def isTrue : RtValue → Bool
  | .bool b => b
  | _ => false

theorem truthy_of_isTrue (e : Engine) {v : RtValue} (h : isTrue v = true) : e.truthy v = true := by
  cases v with
  | bool b => simpa [isTrue, Engine.truthy] using h
  | _ => cases h

section Functions

variable {m : Type → Type} [Monad m]

def airlMapLoop (closure : RtValue → m RtValue) :
    List RtValue → List RtValue → m (List RtValue)
  | [], result => return result
  | item :: items, result => do
    let val ← closure item
    airlMapLoop closure items (result ++ [val])

def airlMap (closure : RtValue → m RtValue) (items : List RtValue) : m (List RtValue) :=
  airlMapLoop closure items []

def airlFilterLoop (closure : RtValue → m RtValue) :
    List RtValue → List RtValue → m (List RtValue)
  | [], result => return result
  | item :: items, result => do
    let test ← closure item
    airlFilterLoop closure items (if isTrue test then result ++ [item] else result)

def airlFilter (closure : RtValue → m RtValue) (items : List RtValue) : m (List RtValue) :=
  airlFilterLoop closure items []

def airlFold (closure : RtValue → RtValue → m RtValue) (acc : RtValue) :
    List RtValue → m RtValue
  | [] => return acc
  | item :: items => do airlFold closure (← closure acc item) items

/-- The loop of `airl_any`, `airl_all` and `airl_find`: the first answer that `stop` holds of
ends it. -/
def search {β : Type} (stop : RtValue → Bool) (found : RtValue → β) (none : β)
    (closure : RtValue → m RtValue) : List RtValue → m β
  | [] => return none
  | item :: items => do
    if stop (← closure item) then return found item
    else search stop found none closure items

def airlAny (closure : RtValue → m RtValue) (items : List RtValue) : m Bool :=
  search isTrue (fun _ => true) false closure items

def airlAll (closure : RtValue → m RtValue) (items : List RtValue) : m Bool :=
  search (fun test => !isTrue test) (fun _ => false) true closure items

def airlFind (closure : RtValue → m RtValue) (items : List RtValue) : m RtValue :=
  search isTrue id .nil closure items

/-- What `airl_sort` hands to `sort_by`. -/
def airlSortCompare (closure : RtValue → RtValue → m RtValue) (a b : RtValue) : m Ordering := do
  if isTrue (← closure a b) then return .lt
  if isTrue (← closure b a) then return .gt
  return .eq

end Functions

variable {σ : Type}

/-- The answer a comparator owes to `le`. -/
def orderingOf (le : RtValue → RtValue → Bool) (a b : RtValue) : Ordering :=
  if le a b then if le b a then .eq else .lt else .gt

/-- On any two positions the comparator answers as the total preorder `le` does. -/
def Consistent (compare : RtValue → RtValue → Exec σ Ordering) (le : RtValue → RtValue → Bool)
    (xs : List RtValue) : Prop :=
  TotalPreorderOn (· ∈ xs) le ∧ xs.Pairwise fun a b =>
    Yields (compare a b) (orderingOf le a b) ∧ Yields (compare b a) (orderingOf le b a)

/-- `slice::sort_by`, as far as it is documented: with a comparator that is a total order it
sorts and is stable. What it does otherwise is left open, a panic included. -/
structure SortBy (σ : Type) where
  run : (RtValue → RtValue → Exec σ Ordering) → List RtValue → Exec σ (List RtValue)
  stable : ∀ compare le xs, Consistent compare le xs →
    ∃ ys, Yields (run compare xs) ys ∧ IsStableSort (· ∈ xs) le xs ys

def airlSort (S : SortBy σ) (closure : RtValue → RtValue → Exec σ RtValue)
    (items : List RtValue) : Exec σ (List RtValue) :=
  if items.length ≤ 1 then return items
  else S.run (airlSortCompare closure) items

/-- The closure with its calls written down beside the world. -/
def recorded (closure : Closure σ) : Closure (σ × List (List RtValue)) := fun args =>
  ExceptT.mk fun s =>
    let (r, w) := (closure args).run.run s.1
    (r, (w, s.2 ++ [args]))

/-- The closure on a call stack, with its calls written down. -/
def FramedClosure.recordedOn (c : FramedClosure σ) (args : List RtValue) (stack : Stack Fault) :
    Exec (σ × List (List RtValue)) RtValue :=
  recorded (fun args => c.on args stack) args

/-- The two return the same value or stop in the same way, in the same world after the same
calls. -/
def SameRun {α : Type} (x y : Exec (σ × List (List RtValue)) α) (w : σ) : Prop :=
  x.run.run (w, []) = y.run.run (w, [])

/-- The first answer that `stop` holds of, with the element it is about and those behind it. -/
def firstStop (stop : RtValue → Bool) (closure : Closure σ) :
    List RtValue → σ → Option (RtValue × RtValue × List RtValue)
  | [], _ => none
  | x :: xs, w =>
    match (closure [x]).run.run w with
    | (.ok v, w') => if stop v then some (v, x, xs) else firstStop stop closure xs w'
    | (.error _, _) => none

/-! ## Loops with an accumulator -/

section Loops

variable {m : Type → Type} [Monad m]

theorem airlFold_eq (closure : RtValue → RtValue → m RtValue) (acc : RtValue)
    (items : List RtValue) : airlFold closure acc items = fold closure acc items := by
  induction items generalizing acc with
  | nil => rfl
  | cons item items ih =>
    rw [airlFold, fold]
    congr 1
    funext acc'
    exact ih acc'

/-- `any` is a search for an answer that holds. -/
theorem any_eq_search (holds : RtValue → Bool) (pred : RtValue → m RtValue) (xs : List RtValue) :
    any holds pred xs = search holds (fun _ => true) false pred xs := by
  induction xs with
  | nil => rfl
  | cons x xs ih => rw [any, search, ih]

/-- `all` is a search for an answer that does not hold. -/
theorem all_eq_search (holds : RtValue → Bool) (pred : RtValue → m RtValue) (xs : List RtValue) :
    all holds pred xs = search (fun v => !holds v) (fun _ => false) true pred xs := by
  induction xs with
  | nil => rfl
  | cons x xs ih =>
    rw [all, search, ih]
    congr 1
    funext v
    cases holds v <;> rfl

/-- `find` is a search that returns the element. -/
theorem find_eq_search (holds : RtValue → Bool) (pred : RtValue → m RtValue) (xs : List RtValue) :
    find holds pred xs = search holds id .nil pred xs := by
  induction xs with
  | nil => rfl
  | cons x xs ih => rw [find, search, ih, id]

variable [LawfulMonad m]

theorem airlMapLoop_eq (closure : RtValue → m RtValue) (items result : List RtValue) :
    airlMapLoop closure items result = (result ++ ·) <$> map closure items := by
  induction items generalizing result with
  | nil => simp [airlMapLoop, map]
  | cons item items ih => simp [airlMapLoop, map, ih]

/-- The loop of `airl_map` calls the closure as `map` does. -/
theorem airlMap_eq (closure : RtValue → m RtValue) (items : List RtValue) :
    airlMap closure items = map closure items := by
  rw [airlMap, airlMapLoop_eq]
  simp

theorem airlFilterLoop_eq (closure : RtValue → m RtValue) (items result : List RtValue) :
    airlFilterLoop closure items result = (result ++ ·) <$> filter isTrue closure items := by
  induction items generalizing result with
  | nil => simp [airlFilterLoop, filter]
  | cons item items ih =>
    rw [airlFilterLoop, filter, map_bind]
    congr 1
    funext test
    rw [ih]
    cases isTrue test <;> simp

/-- The loop of `airl_filter` is `filter` with the test for true. -/
theorem airlFilter_eq (closure : RtValue → m RtValue) (items : List RtValue) :
    airlFilter closure items = filter isTrue closure items := by
  rw [airlFilter, airlFilterLoop_eq]
  simp

/-- The elements whose answers `holds` holds of. -/
def select (holds : RtValue → Bool) : List RtValue → List RtValue → List RtValue
  | x :: xs, v :: vs => if holds v then x :: select holds xs vs else select holds xs vs
  | _, _ => []

/-- `filter` calls on every element and selects by the answers. -/
theorem filter_eq_select (holds : RtValue → Bool) (pred : RtValue → m RtValue)
    (xs : List RtValue) : filter holds pred xs = select holds xs <$> map pred xs := by
  induction xs with
  | nil => simp [filter, map, select]
  | cons x xs ih =>
    rw [filter, map, map_bind]
    congr 1
    funext v
    rw [ih]
    cases hv : holds v <;> simp [select, hv]

end Loops

/-! ## Searches that stop at different answers -/

section Searches

variable {β : Type} {stop stop' : RtValue → Bool} {found : RtValue → β} {none : β}
  {closure : Closure σ} {x v : RtValue} {xs rest : List RtValue} {w w' : σ}
  {log : List (List RtValue)}

theorem search_cons_ok (h : (closure [x]).run.run w = (.ok v, w')) :
    (search stop found none (fun x => recorded closure [x]) (x :: xs)).run.run (w, log) =
      if stop v then (.ok (found x), (w', log ++ [[x]]))
      else (search stop found none (fun x => recorded closure [x]) xs).run.run
        (w', log ++ [[x]]) := by
  have hcall : (recorded closure [x]).run.run (w, log) = (.ok v, (w', log ++ [[x]])) := by
    show (((closure [x]).run.run w).1, ((closure [x]).run.run w).2, log ++ [[x]]) = _
    rw [h]
  rw [search, run_bind, hcall, runNext]
  split
  · rfl
  · rfl

theorem search_cons_error {fault : Fault} (h : (closure [x]).run.run w = (.error fault, w')) :
    (search stop found none (fun x => recorded closure [x]) (x :: xs)).run.run (w, log) =
      (.error fault, (w', log ++ [[x]])) := by
  have hcall : (recorded closure [x]).run.run (w, log) = (.error fault, (w', log ++ [[x]])) := by
    show (((closure [x]).run.run w).1, ((closure [x]).run.run w).2, log ++ [[x]]) = _
    rw [h]
  rw [search, run_bind, hcall, runNext]

theorem length_le_search (stop : RtValue → Bool) (found : RtValue → β) (none : β)
    (closure : Closure σ) (xs : List RtValue) (w : σ) (log : List (List RtValue)) :
    log.length + min 1 xs.length ≤
      ((search stop found none (fun x => recorded closure [x]) xs).run.run (w,
        log)).2.2.length := by
  induction xs generalizing w log with
  | nil =>
    rw [search, run_pure]
    exact Nat.le_refl _
  | cons x xs ih =>
    cases hcall : (closure [x]).run.run w with
    | mk r w' =>
      cases r with
      | error fault =>
        rw [search_cons_error hcall]
        simp
      | ok v =>
        rw [search_cons_ok hcall]
        split
        · simp
        · have hrest := ih w' (log ++ [[x]])
          rw [List.length_append, List.length_singleton] at hrest
          rw [List.length_cons]
          omega

/-- Two searches agree just if the first answer one stops at stops the other. -/
theorem search_run_eq_iff (hstop : ∀ v, stop v = true → stop' v = true) :
    (search stop found none (fun x => recorded closure [x]) xs).run.run (w, log) =
        (search stop' found none (fun x => recorded closure [x]) xs).run.run (w, log) ↔
      ∀ v x rest, firstStop stop' closure xs w = some (v, x, rest) →
        stop v = true ∨ rest = [] ∧ found x = none := by
  induction xs generalizing w log with
  | nil => simp [search, firstStop]
  | cons x xs ih =>
    cases hcall : (closure [x]).run.run w with
    | mk r w' =>
      cases r with
      | error fault =>
        rw [search_cons_error hcall, search_cons_error hcall]
        simp [firstStop, hcall]
      | ok v =>
        rw [search_cons_ok hcall, search_cons_ok hcall]
        cases hv' : stop' v with
        | false =>
          have hv : stop v = false := by
            cases hv : stop v with
            | false => rfl
            | true => exact (hstop v hv).symm.trans hv'
          simp only [hv, Bool.false_eq_true, if_false, firstStop, hcall, hv']
          exact ih
        | true =>
          simp only [firstStop, hcall, hv', if_true, Option.some.injEq, Prod.mk.injEq]
          cases hv : stop v with
          | true =>
            simp only [if_true, true_iff]
            intro v₀ x₀ rest h
            obtain ⟨rfl, -, -⟩ := h
            exact Or.inl hv
          | false =>
            simp only [Bool.false_eq_true, if_false]
            constructor
            · intro hsame v₀ x₀ rest h
              obtain ⟨rfl, rfl, rfl⟩ := h
              right
              -- another call would show in the list of calls
              have hlength := length_le_search stop found none closure xs w' (log ++ [[x]])
              rw [hsame] at hlength
              change _ ≤ (log ++ [[x]]).length at hlength
              cases xs with
              | nil =>
                rw [search, run_pure] at hsame
                have hresult := Except.ok.inj (congrArg Prod.fst hsame)
                exact ⟨rfl, hresult.symm⟩
              | cons y ys =>
                rw [List.length_cons] at hlength
                exact absurd hlength (by omega)
            · intro h
              rcases h v x xs ⟨rfl, rfl, rfl⟩ with hstops | ⟨rfl, hfound⟩
              · rw [hv] at hstops
                cases hstops
              · rw [search, run_pure, hfound]

end Searches

/-! ## Filters that keep different answers -/

/-- The answers to the elements in order, unless a call stops. -/
def answers (closure : Closure σ) (xs : List RtValue) (w : σ) : Except Fault (List RtValue) :=
  ((map (fun x => closure [x]) xs).run.run w).1

section Filters

variable {keep keep' : RtValue → Bool} {closure : Closure σ} {xs vs : List RtValue} {w : σ}

theorem length_select_le (hkeep : ∀ v, keep v = true → keep' v = true) (xs vs : List RtValue) :
    (select keep xs vs).length ≤ (select keep' xs vs).length := by
  induction xs generalizing vs with
  | nil => simp [select]
  | cons x xs ih =>
    cases vs with
    | nil => simp [select]
    | cons v vs =>
      have hrest := ih vs
      rw [select, select]
      split
      · next hv =>
        rw [if_pos (hkeep v hv), List.length_cons, List.length_cons]
        omega
      · split
        · rw [List.length_cons]
          omega
        · exact hrest

theorem select_eq_iff (hkeep : ∀ v, keep v = true → keep' v = true)
    (hlength : vs.length = xs.length) :
    select keep xs vs = select keep' xs vs ↔ ∀ v ∈ vs, keep v = keep' v := by
  induction xs generalizing vs with
  | nil => simp [List.length_eq_zero_iff.mp hlength, select]
  | cons x xs ih =>
    cases vs with
    | nil => cases hlength
    | cons v vs =>
      have hrest := ih (Nat.succ.inj hlength)
      rw [select, select, List.forall_mem_cons, ← hrest]
      cases hv : keep v with
      | true => simp [hkeep v hv]
      | false =>
        cases hv' : keep' v with
        | false => simp
        | true =>
          simp only [Bool.false_eq_true, if_false, if_true, false_and, iff_false]
          intro hsame
          have hle := length_select_le hkeep xs vs
          rw [hsame, List.length_cons] at hle
          exact absurd hle (by omega)

/-- Writing the calls down does not change the answers, and there is one for each element. -/
theorem map_recorded (closure : Closure σ) (xs : List RtValue) (w : σ)
    (log : List (List RtValue)) :
    ((map (fun x => recorded closure [x]) xs).run.run (w, log)).1 = answers closure xs w ∧
      ∀ vs, answers closure xs w = .ok vs → vs.length = xs.length := by
  induction xs generalizing w log with
  | nil =>
    refine ⟨rfl, ?_⟩
    intro vs hvs
    rw [← Except.ok.inj hvs]
  | cons x xs ih =>
    have hcall : (recorded closure [x]).run.run (w, log) =
      (((closure [x]).run.run w).1, (((closure [x]).run.run w).2, log ++ [[x]])) := rfl
    rw [answers, map, map, run_bind, run_bind, hcall]
    cases (closure [x]).run.run w with
    | mk r w' =>
      cases r with
      | error fault =>
        refine ⟨rfl, ?_⟩
        intro vs hvs
        cases hvs
      | ok v =>
        obtain ⟨hsame, hlength⟩ := ih w' (log ++ [[x]])
        rw [answers] at hsame hlength
        simp only [runNext, run_bind]
        cases hrun : (map (fun x => closure [x]) xs).run.run w' with
        | mk r' w'' =>
          cases hrun' : (map (fun x => recorded closure [x]) xs).run.run (w', log ++ [[x]]) with
          | mk r'' s =>
            rw [hrun] at hsame hlength
            rw [hrun'] at hsame
            subst hsame
            cases r'' with
            | error fault =>
              refine ⟨rfl, ?_⟩
              intro vs hvs
              cases hvs
            | ok rest =>
              refine ⟨rfl, ?_⟩
              intro vs hvs
              rw [← Except.ok.inj hvs, List.length_cons, hlength rest rfl, List.length_cons]

/-- Two filters agree just if they read every answer alike, when no call fails. -/
theorem filter_run_eq_iff (hkeep : ∀ v, keep v = true → keep' v = true) :
    SameRun (filter keep (fun x => recorded closure [x]) xs)
        (filter keep' (fun x => recorded closure [x]) xs) w ↔
      ∀ vs, answers closure xs w = .ok vs → ∀ v ∈ vs, keep v = keep' v := by
  obtain ⟨hsame, hlength⟩ := map_recorded closure xs w []
  rw [SameRun, filter_eq_select, filter_eq_select, map_eq_pure_bind, map_eq_pure_bind, run_bind,
    run_bind]
  cases hrun : (map (fun x => recorded closure [x]) xs).run.run (w, []) with
  | mk r s =>
    rw [hrun] at hsame
    rw [← hsame] at hlength ⊢
    cases r with
    | error fault => simp [runNext]
    | ok vs =>
      have hselect := select_eq_iff hkeep (hlength vs rfl)
      simp only [runNext, run_pure]
      constructor
      · intro h vs' hvs'
        obtain rfl := Except.ok.inj hvs'
        exact hselect.mp (Except.ok.inj (congrArg Prod.fst h))
      · intro h
        rw [hselect.mpr (h vs rfl)]

end Filters

/-! ## A sort that asks twice -/

section Sorting

variable {cmp : RtValue → RtValue → Exec σ RtValue} {r le le' lt : RtValue → RtValue → Bool}
  {xs ys : List RtValue} {a b : RtValue} {e : Engine}

theorem airlSortCompare_yields {ab ba : Bool} (hab : Yields (cmp a b) (.bool ab))
    (hba : Yields (cmp b a) (.bool ba)) :
    Yields (airlSortCompare cmp a b) (if ab then .lt else if ba then .gt else .eq) := by
  unfold airlSortCompare
  apply hab.bind
  cases ab with
  | true => exact Yields.pure _
  | false =>
    apply hba.bind
    cases ba with
    | true => exact Yields.pure _
    | false => exact Yields.pure _

/-- A strict order is a consistent comparison, ties being equal. -/
theorem consistent_strict (hcmp : Compares (· ∈ xs) cmp lt)
    (hlt : StrictWeakOrderOn (· ∈ xs) lt) :
    Consistent (airlSortCompare cmp) (notAfter lt) xs := by
  refine ⟨hlt.notAfter, ?_⟩
  -- one direction of the comparator, at any two elements
  have hanswer : ∀ a ∈ xs, ∀ b ∈ xs,
      Yields (airlSortCompare cmp a b) (orderingOf (notAfter lt) a b) := by
    intro a ha b hb
    have hyields := airlSortCompare_yields (hcmp a b ha hb) (hcmp b a hb ha)
    have hasymm := hlt.asymm a b ha hb
    rw [orderingOf, notAfter, notAfter]
    cases hab : lt a b with
    | true =>
      rw [hab, if_pos rfl] at hyields
      simpa [hasymm hab] using hyields
    | false =>
      rw [hab] at hyields
      cases hba : lt b a with
      | true =>
        rw [hba] at hyields
        simpa using hyields
      | false =>
        rw [hba] at hyields
        simpa using hyields
  exact List.pairwise_of_forall_mem_list fun a ha b hb => ⟨hanswer a ha b hb, hanswer b hb a ha⟩

/-- A comparison that holds of ties is consistent where none occur. -/
theorem consistent_of_no_ties (hcmp : Compares (· ∈ xs) cmp le) (hle : TotalPreorderOn (· ∈ xs) le)
    (hties : xs.Pairwise fun a b => tied le a b = false) :
    Consistent (airlSortCompare cmp) le xs := by
  refine ⟨hle, ?_⟩
  have hanswer : ∀ a ∈ xs, ∀ b ∈ xs, tied le a b = false →
      Yields (airlSortCompare cmp a b) (orderingOf le a b) := by
    intro a ha b hb htied
    have hyields := airlSortCompare_yields (hcmp a b ha hb) (hcmp b a hb ha)
    rw [orderingOf]
    cases hab : le a b with
    | true =>
      rw [tied, hab, Bool.true_and] at htied
      rw [hab] at hyields
      rw [htied]
      exact hyields
    | false =>
      have hba : le b a = true := by
        rcases hle.total a b ha hb with h | h
        · rw [hab] at h
          cases h
        · exact h
      rw [hab, hba] at hyields
      exact hyields
  apply hties.imp_of_mem
  intro a b ha hb htied
  refine ⟨hanswer a ha b hb htied, hanswer b hb a ha ?_⟩
  rw [tied, Bool.and_comm]
  exact htied

/-- A consistent comparison sorts stably. -/
theorem airlSort_yields (S : SortBy σ) (hconsistent : Consistent (airlSortCompare cmp) le xs) :
    ∃ ys, Yields (airlSort S cmp xs) ys ∧ IsStableSort (· ∈ xs) le xs ys := by
  rw [airlSort]
  split
  · next hshort => exact ⟨xs, Yields.pure xs, isStableSort_of_length_le_one hshort⟩
  · exact S.stable _ _ _ hconsistent

/-- The two sorts return one list. -/
def SortsAlike (S : SortBy σ) (e : Engine) (cmp : RtValue → RtValue → Exec σ RtValue)
    (xs : List RtValue) : Prop :=
  ∃ ys, Yields (airlSort S cmp xs) ys ∧ Yields (sort e.truthy cmp xs) ys

/-- The sorts agree on a strict order just if each class of ties is symmetric. -/
theorem sortsAlike_strict_iff [Inhabited σ] (S : SortBy σ) (hcmp : Compares (· ∈ xs) cmp lt)
    (hlt : StrictWeakOrderOn (· ∈ xs) lt) :
    SortsAlike S e cmp xs ↔ ∀ a ∈ xs,
      (xs.filter (tied (notAfter lt) a)).reverse = xs.filter (tied (notAfter lt) a) := by
  obtain ⟨ys, hnative, hys⟩ := airlSort_yields S (consistent_strict hcmp hlt)
  rw [← sorts_strict_iff hcmp hlt, SortsAlike, Sorts]
  constructor
  · intro h
    obtain ⟨zs, hzs, hprelude⟩ := h
    obtain rfl := hnative.unique hzs
    exact ⟨ys, hprelude, hys⟩
  · intro h
    obtain ⟨zs, hprelude, hzs⟩ := h
    obtain rfl := hys.unique hlt.notAfter (fun _ hx => hx) hzs
    exact ⟨ys, hnative, hprelude⟩

/-! ### A sort that gives up on what is no order -/

theorem orderingOf_eq_gt_iff : orderingOf le a b = .gt ↔ le a b = false := by
  unfold orderingOf
  cases le a b with
  | true => cases le b a <;> simp
  | false => simp

/-- The merge sort of `prelude.airl` with a comparator of three answers. -/
def mergeSortBy (σ : Type) : SortBy σ where
  run compare xs := sort (fun o => o != .gt) compare xs
  stable compare le xs h := by
    apply sort_yields_total ?_ h.1 fun _ hx => hx
    apply h.2.imp
    intro a b hanswers
    refine ⟨orderingOf le a b, hanswers.1, ?_⟩
    have hgt := @orderingOf_eq_gt_iff le a b
    cases hle : le a b with
    | true => simpa [hle] using hgt
    | false => simpa [hle] using hgt

open Classical in
/-- A sort that panics on a comparator that is consistent with no order. -/
noncomputable def strictSortBy (σ : Type) [Inhabited σ] : SortBy σ where
  run compare xs := if ∃ le, Consistent compare le xs then (mergeSortBy σ).run compare xs
    else throw .panic
  stable compare le xs h := by
    rw [if_pos ⟨le, h⟩]
    exact (mergeSortBy σ).stable compare le xs h

theorem strictSortBy_panics [Inhabited σ] {compare : RtValue → RtValue → Exec σ Ordering}
    (h : ¬ ∃ le, Consistent compare le xs) :
    (strictSortBy σ).run compare xs = throw .panic :=
  if_neg h

/-- A comparison that holds of ties is consistent only where none occur. -/
theorem not_tied_of_consistent [Inhabited σ] (hcmp : Compares (· ∈ xs) cmp le)
    (h : Consistent (airlSortCompare cmp) le' xs) : xs.Pairwise fun a b => tied le a b = false := by
  apply h.2.imp_of_mem
  intro a b ha hb hanswers
  by_contra htied
  rw [Bool.not_eq_false, tied_iff] at htied
  have hless : ∀ c d, c ∈ xs → d ∈ xs → le c d = true → Yields (airlSortCompare cmp c d) .lt := by
    intro c d hc hd hcd
    have hyields := airlSortCompare_yields (hcmp c d hc hd) (hcmp d c hd hc)
    rwa [hcd] at hyields
  have hab := (hless a b ha hb htied.1).unique hanswers.1
  have hba := (hless b a hb ha htied.2).unique hanswers.2
  have hle' : le' a b = true := by
    by_contra hfalse
    rw [orderingOf_eq_gt_iff.mpr (Bool.not_eq_true _ ▸ hfalse)] at hab
    cases hab
  rw [orderingOf, hle', if_pos rfl] at hba
  split at hba
  · cases hba
  · cases hba

/-- With a comparison that holds of tied elements the agreement is documented where none are. -/
theorem sortsAlike_total_iff [Inhabited σ] (hcmp : Compares (· ∈ xs) cmp le)
    (hle : TotalPreorderOn (· ∈ xs) le) :
    (∀ S : SortBy σ, SortsAlike S e cmp xs) ↔ xs.Pairwise fun a b => tied le a b = false := by
  constructor
  · intro h
    obtain ⟨ys, hnative, -⟩ := h (strictSortBy σ)
    rw [airlSort] at hnative
    split at hnative
    · next hshort =>
      cases xs with
      | nil => exact List.Pairwise.nil
      | cons x xs =>
        rw [List.length_eq_zero_iff.mp (Nat.le_zero.mp (Nat.le_of_succ_le_succ hshort))]
        exact List.pairwise_singleton _ x
    · by_cases hconsistent : ∃ le', Consistent (airlSortCompare cmp) le' xs
      · obtain ⟨le', hconsistent⟩ := hconsistent
        exact not_tied_of_consistent hcmp hconsistent
      · rw [strictSortBy_panics hconsistent] at hnative
        cases hnative default
  · intro hties S
    obtain ⟨ys, hnative, hys⟩ := airlSort_yields S (consistent_of_no_ties hcmp hle hties)
    obtain ⟨zs, hprelude, hzs⟩ := sort_yields_total
      (hcmp.pairwise : xs.Pairwise (Answers e.truthy cmp le)) hle fun _ hx => hx
    obtain rfl := hys.unique hle (fun _ hx => hx) hzs
    exact ⟨ys, hnative, hprelude⟩

end Sorting

/-! ## On call stacks -/

section Frames

variable {α β γ : Type}

theorem NeverOverflows.pure (a : α) : NeverOverflows (pure a : Exec σ α) := by
  intro w depth h
  cases h

theorem NeverOverflows.bind {y : Exec σ α} {f : α → Exec σ β} (hy : NeverOverflows y)
    (hf : ∀ a, NeverOverflows (f a)) : NeverOverflows (y >>= f) := by
  intro w depth
  have hfirst := hy w depth
  rw [run_bind]
  cases hrun : y.run.run w with
  | mk r w' =>
    rw [hrun] at hfirst
    cases r with
    | ok a => exact hf a w' depth
    | error e =>
      intro h
      cases h
      exact hfirst rfl

theorem map_neverOverflows {f : α → Exec σ β} (hf : ∀ x, NeverOverflows (f x)) (xs : List α) :
    NeverOverflows (map f xs) := by
  induction xs with
  | nil => exact NeverOverflows.pure []
  | cons x xs ih => exact (hf x).bind fun y => ih.bind fun ys => NeverOverflows.pure (y :: ys)

theorem filter_neverOverflows (holds : γ → Bool) {f : α → Exec σ γ}
    (hf : ∀ x, NeverOverflows (f x)) (xs : List α) : NeverOverflows (filter holds f xs) := by
  induction xs with
  | nil => exact NeverOverflows.pure []
  | cons x xs ih =>
    apply (hf x).bind
    intro v
    split
    · exact ih.bind fun ys => NeverOverflows.pure (x :: ys)
    · exact ih

theorem fold_neverOverflows {f : β → α → Exec σ β} (hf : ∀ acc x, NeverOverflows (f acc x))
    (init : β) (xs : List α) : NeverOverflows (fold f init xs) := by
  induction xs generalizing init with
  | nil => exact NeverOverflows.pure init
  | cons x xs ih => exact (hf init x).bind ih

/-- A search overflows only where a call does. -/
theorem search_neverOverflows (stop : RtValue → Bool) (found : RtValue → β) (none : β)
    {f : RtValue → Exec σ RtValue} (hf : ∀ x, NeverOverflows (f x)) (xs : List RtValue) :
    NeverOverflows (search stop found none f xs) := by
  induction xs with
  | nil => exact NeverOverflows.pure none
  | cons x xs ih =>
    apply (hf x).bind
    intro v
    split
    · exact NeverOverflows.pure (found x)
    · exact ih

/-- What overflows returns nothing that the other returns. -/
theorem run_eq_iff {x : Stack Fault → Exec σ α} {frames : σ → Nat} {y z : Exec σ α}
    (hx : Takes x frames y) (hz : NeverOverflows z) (e : Engine) (depth left : Nat) (w : σ) :
    z.run.run w = (x (e.stack depth left)).run.run w ↔
      (e.stack depth left).Holds (frames w) ∧ z.run.run w = y.run.run w := by
  by_cases hholds : (e.stack depth left).Holds (frames w)
  · rw [hx.returns _ w hholds]
    exact (and_iff_right hholds).symm
  · refine iff_of_false ?_ fun h => hholds h.1
    cases e with
    | compiled => exact absurd trivial hholds
    | machine =>
      intro h
      have hover := hx.overflows (.error (.stackOverflow depth)) left w (Nat.not_le.mp hholds)
      exact hz w depth ((congrArg Prod.fst h).trans hover)

/-- Code on a stack yields a value just if its frames fit and it does without them. -/
theorem yields_on_iff {x : Stack Fault → Exec σ α} {frames : σ → Nat} {y : Exec σ α} {a : α}
    (hx : Takes x frames y) (e : Engine) (depth left : Nat) :
    Yields (x (e.stack depth left)) a ↔
      (∀ w, (e.stack depth left).Holds (frames w)) ∧ Yields y a := by
  rw [Yields, Yields, ← forall_and]
  apply forall_congr'
  intro w
  by_cases hholds : (e.stack depth left).Holds (frames w)
  · rw [hx.returns _ w hholds]
    exact (and_iff_right hholds).symm
  · refine iff_of_false ?_ fun h => hholds h.1
    cases e with
    | compiled => exact absurd trivial hholds
    | machine =>
      have hover := hx.overflows (.error (.stackOverflow depth)) left w (Nat.not_le.mp hholds)
      intro h
      cases hover.symm.trans h

end Frames

section Recorded

variable {c : FramedClosure σ} {xs : List RtValue} {w : σ} {log : List (List RtValue)}

theorem recorded_neverOverflows (c : FramedClosure σ) (args : List RtValue) :
    NeverOverflows (recorded c.run args) := fun s depth => c.never_overflows args s.1 depth

theorem recordedOn_takes (c : FramedClosure σ) (args : List RtValue) :
    Takes (c.recordedOn args) (fun s => c.frames args s.1) (recorded c.run args) where
  returns stack s h := by
    have hrun := (c.takes args).returns stack s.1 h
    show (((c.on args stack).run.run s.1).1, ((c.on args stack).run.run s.1).2, s.2 ++ [args]) = _
    rw [hrun]
    rfl
  overflows full left s h := (c.takes args).overflows full left s.1 h

/-- The frames do not depend on the calls written down. -/
theorem framesAfter_recorded {args : List RtValue}
    {more : RtValue → σ × List (List RtValue) → Nat} {more' : RtValue → σ → Nat}
    (h : ∀ v w log, more v (w, log) = more' v w) :
    framesAfter (recorded c.run args) more (w, log) = framesAfter (c.run args) more' w := by
  have hcall : (recorded c.run args).run.run (w, log) =
    (((c.run args).run.run w).1, (((c.run args).run.run w).2, log ++ [args])) := rfl
  rw [framesAfter, framesAfter, hcall]
  cases (c.run args).run.run w with
  | mk r w' =>
    cases r with
    | ok v => exact h v w' _
    | error e => rfl

theorem mapFrames_recorded :
    mapFrames (fun x s => c.frames [x] s.1) (fun x => recorded c.run [x]) xs (w, log) =
      mapFrames (c.frames [·]) (c.run [·]) xs w := by
  induction xs generalizing w log with
  | nil => rfl
  | cons x xs ih =>
    rw [mapFrames, mapFrames, framesAfter_recorded fun _ _ _ => ih]

theorem filterFrames_recorded {holds : RtValue → Bool} :
    filterFrames holds (fun x s => c.frames [x] s.1) (fun x => recorded c.run [x]) xs (w, log) =
      filterFrames holds (c.frames [·]) (c.run [·]) xs w := by
  induction xs generalizing w log with
  | nil => rfl
  | cons x xs ih =>
    rw [filterFrames, filterFrames, framesAfter_recorded]
    intro v w' log'
    rw [ih]

theorem foldFrames_recorded {init : RtValue} :
    foldFrames (fun acc x s => c.frames [acc, x] s.1) (fun acc x => recorded c.run [acc, x]) init
        xs (w, log) =
      foldFrames (fun acc x => c.frames [acc, x]) (fun acc x => c.run [acc, x]) init xs w := by
  induction xs generalizing init w log with
  | nil => rfl
  | cons x xs ih =>
    rw [foldFrames, foldFrames, framesAfter_recorded fun _ _ _ => ih]

theorem searchFrames_recorded {stop : RtValue → Bool} :
    searchFrames stop (fun x s => c.frames [x] s.1) (fun x => recorded c.run [x]) xs (w, log) =
      searchFrames stop (c.frames [·]) (c.run [·]) xs w := by
  induction xs generalizing w log with
  | nil => rfl
  | cons x xs ih =>
    rw [searchFrames, searchFrames, framesAfter_recorded]
    intro v w' log'
    rw [ih]

end Recorded

/-- The two sorts return one list, the library's on the stack that is left. -/
def SortsAlikeOn (S : SortBy σ) (e : Engine) (depth left : Nat) (cmp : FramedClosure σ)
    (xs : List RtValue) : Prop :=
  ∃ ys, Yields (airlSort S (fun a b => cmp.run [a, b]) xs) ys ∧
    Yields (sortOn e.truthy (fun a b => cmp.on [a, b]) xs (e.stack depth left)) ys

/-- The sorts agree on a stack just if its frames fit and they agree without them. -/
theorem sortsAlikeOn_iff (S : SortBy σ) (e : Engine) (depth left : Nat) (cmp : FramedClosure σ)
    (xs : List RtValue) :
    SortsAlikeOn S e depth left cmp xs ↔
      (∀ w, (e.stack depth left).Holds
        (sortFrames e.truthy (fun a b => cmp.frames [a, b]) (fun a b => cmp.run [a, b]) xs w)) ∧
      SortsAlike S e (fun a b => cmp.run [a, b]) xs := by
  have htakes := sortOn_takes e.truthy (fun a b => cmp.takes [a, b]) xs
  rw [SortsAlikeOn, SortsAlike, ← exists_and_left]
  apply exists_congr
  intro ys
  rw [yields_on_iff htakes]
  exact and_left_comm

/-- `airl_map` and `airl_fold` are `map` and `fold` exactly where the library's function finds the
frames it takes. The others are the library's functions exactly where besides the answers that
decide are read alike and where no tie can be told. -/
theorem native_lists_agree_iff [Inhabited σ] (e : Engine) (depth left : Nat) (c : FramedClosure σ)
    (init : RtValue) (xs : List RtValue) (w : σ) (cmp : FramedClosure σ)
    (r : RtValue → RtValue → Bool) (hcmp : Compares (· ∈ xs) (fun a b => cmp.run [a, b]) r) :
    (SameRun (airlMap (fun x => recorded c.run [x]) xs)
        (mapOn (fun x => c.recordedOn [x]) xs (e.stack depth left)) w ↔
      (e.stack depth left).Holds (mapFrames (c.frames [·]) (c.run [·]) xs w)) ∧
    (SameRun (airlFold (fun acc x => recorded c.run [acc, x]) init xs)
        (foldOn (fun acc x => c.recordedOn [acc, x]) init xs (e.stack depth left)) w ↔
      (e.stack depth left).Holds
        (foldFrames (fun acc x => c.frames [acc, x]) (fun acc x => c.run [acc, x]) init xs w + 1)) ∧
    (SameRun (airlFilter (fun x => recorded c.run [x]) xs)
        (filterOn e.truthy (fun x => c.recordedOn [x]) xs (e.stack depth left)) w ↔
      (e.stack depth left).Holds (filterFrames e.truthy (c.frames [·]) (c.run [·]) xs w + 1) ∧
        ∀ vs, answers c.run xs w = .ok vs → ∀ v ∈ vs, isTrue v = e.truthy v) ∧
    (SameRun (airlAny (fun x => recorded c.run [x]) xs)
        (anyOn e.truthy (fun x => c.recordedOn [x]) xs (e.stack depth left)) w ↔
      (e.stack depth left).Holds (searchFrames e.truthy (c.frames [·]) (c.run [·]) xs w + 1) ∧
        ∀ v x rest, firstStop e.truthy c.run xs w = some (v, x, rest) → isTrue v = true) ∧
    (SameRun (airlAll (fun x => recorded c.run [x]) xs)
        (allOn e.truthy (fun x => c.recordedOn [x]) xs (e.stack depth left)) w ↔
      (e.stack depth left).Holds
          (searchFrames (fun v => !e.truthy v) (c.frames [·]) (c.run [·]) xs w + 1) ∧
        ∀ v x rest, firstStop (fun v => !isTrue v) c.run xs w = some (v, x, rest) →
          e.truthy v = false) ∧
    (SameRun (airlFind (fun x => recorded c.run [x]) xs)
        (findOn e.truthy (fun x => c.recordedOn [x]) xs (e.stack depth left)) w ↔
      (e.stack depth left).Holds (searchFrames e.truthy (c.frames [·]) (c.run [·]) xs w + 1) ∧
        ∀ v x rest, firstStop e.truthy c.run xs w = some (v, x, rest) →
          isTrue v = true ∨ rest = [] ∧ x = .nil) ∧
    (StrictWeakOrderOn (· ∈ xs) r → ∀ S : SortBy σ, SortsAlikeOn S e depth left cmp xs ↔
      (∀ w, (e.stack depth left).Holds
        (sortFrames e.truthy (fun a b => cmp.frames [a, b]) (fun a b => cmp.run [a, b]) xs w)) ∧
      ∀ a ∈ xs, (xs.filter (tied (notAfter r) a)).reverse = xs.filter (tied (notAfter r) a)) ∧
    (TotalPreorderOn (· ∈ xs) r → ((∀ S : SortBy σ, SortsAlikeOn S e depth left cmp xs) ↔
      (∀ w, (e.stack depth left).Holds
        (sortFrames e.truthy (fun a b => cmp.frames [a, b]) (fun a b => cmp.run [a, b]) xs w)) ∧
      xs.Pairwise fun a b => tied r a b = false)) := by
  have hunary := fun x => recordedOn_takes c [x]
  have hfree := fun x => recorded_neverOverflows c [x]
  -- Each time: the frames suffice, and apart from frames the answers are the same.
  refine ⟨?_, ?_, ?_, ?_, ?_, ?_, ?_, ?_⟩
  · rw [airlMap_eq, SameRun, run_eq_iff (mapOn_takes hunary xs) (map_neverOverflows hfree xs),
      mapFrames_recorded]
    exact and_iff_left rfl
  · have hbinary := fun acc x => recordedOn_takes c [acc, x]
    have hfold := fold_neverOverflows (fun acc x => recorded_neverOverflows c [acc, x]) init xs
    rw [airlFold_eq, SameRun, run_eq_iff (foldOn_takes hbinary init xs) hfold, foldFrames_recorded]
    exact and_iff_left rfl
  · rw [airlFilter_eq, SameRun, run_eq_iff (filterOn_takes e.truthy hunary xs)
      (filter_neverOverflows isTrue hfree xs), filterFrames_recorded]
    exact and_congr_right' (filter_run_eq_iff fun v => truthy_of_isTrue e)
  · rw [airlAny, SameRun, run_eq_iff (anyOn_takes e.truthy hunary xs)
      (search_neverOverflows isTrue _ _ hfree xs), searchFrames_recorded, any_eq_search,
      search_run_eq_iff fun v => truthy_of_isTrue e]
    simp
  · rw [airlAll, SameRun, run_eq_iff (allOn_takes e.truthy hunary xs)
      (search_neverOverflows _ _ _ hfree xs), searchFrames_recorded, all_eq_search, eq_comm,
      search_run_eq_iff]
    · simp
    · intro v hv
      cases htrue : isTrue v with
      | false => rfl
      | true => simp [truthy_of_isTrue e htrue] at hv
  · rw [airlFind, SameRun, run_eq_iff (findOn_takes e.truthy hunary xs)
      (search_neverOverflows isTrue _ _ hfree xs), searchFrames_recorded, find_eq_search,
      search_run_eq_iff fun v => truthy_of_isTrue e]
    rfl
  · intro hlt S
    rw [sortsAlikeOn_iff, sortsAlike_strict_iff S hcmp hlt]
  · intro hle
    simp only [sortsAlikeOn_iff]
    rw [← sortsAlike_total_iff hcmp hle]
    exact ⟨fun h => ⟨(h (mergeSortBy σ)).1, fun S => (h S).2⟩, fun h S => ⟨h.1, h.2 S⟩⟩

/-- A closure without effects and without calls of its own. -/
def answering (f : List RtValue → RtValue) : FramedClosure Unit where
  run args := return f args
  frames _ _ := 1
  stopped _ w _ := w
  never_overflows args := NeverOverflows.pure (f args)

/-- `(fn [x] x)`. -/
def itself : FramedClosure Unit := answering (·.headD .nil)

/-- A comparison as a closure. -/
def comparing (r : RtValue → RtValue → Bool) : FramedClosure Unit :=
  answering fun
    | [a, b] => .bool (r a b)
    | _ => .nil

theorem mapFrames_answering (f : List RtValue → RtValue) (xs : List RtValue) (w : Unit) :
    mapFrames ((answering f).frames [·]) ((answering f).run [·]) xs w = xs.length + 1 := by
  induction xs with
  | nil => rfl
  | cons x xs ih =>
    have hframes : (answering f).frames [x] w = 1 := rfl
    have hafter : framesAfter ((answering f).run [x])
        (fun _ => mapFrames ((answering f).frames [·]) ((answering f).run [·]) xs) w =
          xs.length + 1 := ih
    rw [mapFrames, hframes, hafter, List.length_cons, Nat.max_eq_right (Nat.le_add_left 1 _)]

/-- Three frames map the two pairs and two do not; sorting the pairs tells the two sorts apart,
whatever the comparison says of ties. -/
theorem native_lists_agree_iff_tagged :
    SameRun (airlMap (fun x => recorded itself.run [x]) tagged)
        (mapOn (fun x => itself.recordedOn [x]) tagged (Engine.machine.stack 10000 3)) () ∧
      ¬ SameRun (airlMap (fun x => recorded itself.run [x]) tagged)
        (mapOn (fun x => itself.recordedOn [x]) tagged (Engine.machine.stack 10000 2)) () ∧
      ¬ SortsAlikeOn (mergeSortBy Unit) .machine 10000 9999 (comparing headLess) tagged ∧
      ¬ ∀ S, SortsAlikeOn S .machine 10000 9999 (comparing (notAfter headLess)) tagged := by
  have hmap := fun left => (native_lists_agree_iff .machine 10000 left itself .nil tagged ()
    (comparing headLess) headLess (byHead_compares headLess _)).1
  refine ⟨(hmap 3).mpr ?_, fun h => absurd ((hmap 2).mp h) ?_, ?_, ?_⟩
  · rw [itself, mapFrames_answering]
    exact Nat.le_refl 3
  · rw [itself, mapFrames_answering]
    exact Nat.not_succ_le_self 2
  · have h := native_lists_agree_iff .machine 10000 9999 itself .nil tagged () (comparing headLess)
      _ (byHead_compares headLess _)
    rw [h.2.2.2.2.2.2.1 headLess_strict]
    exact fun halike => tagged_classes halike.2
  · have h := native_lists_agree_iff .machine 10000 9999 itself .nil tagged ()
      (comparing (notAfter headLess)) _ (byHead_compares (notAfter headLess) _)
    rw [h.2.2.2.2.2.2.2 headLess_strict.notAfter]
    intro halike
    have hties := halike.2
    rw [tagged, List.pairwise_cons] at hties
    cases hties.1 _ List.mem_cons_self

/-- `(filter (fn [x] x) [1])` is `[1]` in the library and `[]` in `airl_filter`; sorting the
pairs with `<` leaves them in two orders; and `map` overflows the machine's stack on ten thousand
elements. -/
theorem native_lists_differ :
    ¬ SameRun (airlFilter (fun x => recorded itself.run [x]) [.int 1])
        (filterOn Engine.machine.truthy (fun x => itself.recordedOn [x]) [.int 1]
          (Engine.machine.stack 10000 9999)) () ∧
      (∀ S, ¬ SortsAlikeOn S .machine 10000 9999 (comparing headLess) tagged) ∧
      ¬ SameRun (airlMap (fun x => recorded itself.run [x]) (List.replicate 10000 .nil))
        (mapOn (fun x => itself.recordedOn [x]) (List.replicate 10000 .nil)
          (Engine.machine.stack 10000 9999)) () := by
  have hunary := fun x => recordedOn_takes itself [x]
  have hfree := fun x => recorded_neverOverflows itself [x]
  refine ⟨?_, ?_, ?_⟩
  · rw [airlFilter_eq, SameRun, run_eq_iff (filterOn_takes Engine.machine.truthy hunary _)
      (filter_neverOverflows isTrue hfree _), ← SameRun,
      filter_run_eq_iff fun v => truthy_of_isTrue .machine]
    intro h
    cases h.2 [.int 1] rfl (.int 1) List.mem_cons_self
  · intro S
    rw [sortsAlikeOn_iff]
    intro halike
    exact tagged_classes
      ((sortsAlike_strict_iff S (byHead_compares headLess _) headLess_strict).mp halike.2)
  · rw [airlMap_eq, SameRun, run_eq_iff (mapOn_takes hunary _) (map_neverOverflows hfree _),
      mapFrames_recorded, itself, mapFrames_answering, List.length_replicate]
    exact fun hframes => absurd hframes.1 (by decide)

end Airl.Stdlib
