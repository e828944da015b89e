import Mathlib.Logic.Function.Basic

/-! # Threads that share a state

A call runs from point to point, one atomic action on the shared state at a time,
until it returns. A scheduler picks the thread of every step, so a run is any
interleaving of the actions of any number of threads. The log keeps the calls that
returned, in that order, each with the number of calls that had returned when it
began: a call comes after another when the other one is among those.
-/

namespace Threads

/-- The code of an object. `Choice` is what the shared state does not decide, such as
whether a timeout expires; an action that answers `none` waits. -/
structure Code (Shared Point Call Reply Choice : Type) where
  enter : Call → Point
  act : Shared → Nat → Point → Choice → Option (Shared × (Point ⊕ Reply))

/-- A thread inside a call. -/
structure Running (Point Call : Type) where
  call : Call
  /-- The number of calls that had returned when this one began. -/
  began : Nat
  point : Point

/-- A call that returned. -/
structure Returned (Call Reply : Type) where
  thread : Nat
  call : Call
  began : Nat
  reply : Reply

structure State (Shared Point Call Reply : Type) where
  shared : Shared
  running : Nat → Option (Running Point Call)
  log : List (Returned Call Reply)

/-- What a scheduler does next: thread `t` calls, or its call makes an action. -/
inductive Label (Call Choice : Type)
  | call (t : Nat) (c : Call)
  | act (t : Nat) (choice : Choice)

/-- The thread that makes the step. -/
def Label.thread {Call Choice : Type} : Label Call Choice → Nat
  | .call t _ | .act t _ => t

variable {Shared Point Call Reply Choice : Type}

namespace State

def initial (shared : Shared) : State Shared Point Call Reply :=
  { shared, running := fun _ => none, log := [] }

variable (s : State Shared Point Call Reply) (C : Code Shared Point Call Reply Choice)

/-- Thread `t` begins a call. -/
def start (t : Nat) (c : Call) : State Shared Point Call Reply :=
  { s with running := Function.update s.running t (some ⟨c, s.log.length, C.enter c⟩) }

/-- What a call that goes on or returns adds to the log. -/
def entries (t : Nat) (r : Running Point Call) : Point ⊕ Reply → List (Returned Call Reply)
  | .inl _ => []
  | .inr reply => [⟨t, r.call, r.began, reply⟩]

/-- The thread of a call that goes on or returns. -/
def after (r : Running Point Call) : Point ⊕ Reply → Option (Running Point Call)
  | .inl p => some { r with point := p }
  | .inr _ => none

/-- The call of thread `t` goes on at a point, or returns. -/
def advance (t : Nat) (r : Running Point Call) (shared : Shared) (next : Point ⊕ Reply) :
    State Shared Point Call Reply where
  shared := shared
  running := Function.update s.running t (after r next)
  log := s.log ++ entries t r next

/-- What `f` says of the point at which thread `u` stands; `idle` if it is in no call. -/
def reads {α : Type} (f : Point → α) (idle : α) (u : Nat) : α :=
  match s.running u with
  | some r => f r.point
  | none => idle

/-- What `f` says of a call that goes on or returns. -/
def readsNext {α : Type} (f : Point → α) (idle : α) : Point ⊕ Reply → α
  | .inl p => f p
  | .inr _ => idle

variable {s C} {α : Type} (f : Point → α) (idle : α) {t : Nat}

theorem reads_running {r : Running Point Call} (h : s.running t = some r) :
    s.reads f idle t = f r.point := by
  rw [reads, h]

theorem reads_idle (h : s.running t = none) : s.reads f idle t = idle := by
  rw [reads, h]

theorem reads_start (c : Call) :
    (s.start C t c).reads f idle = Function.update (s.reads f idle) t (f (C.enter c)) := by
  funext u
  by_cases h : u = t
  · subst h
    simp [reads, start]
  · simp [reads, start, h]

theorem reads_start_idle {c : Call} (h : s.running t = none) (hc : f (C.enter c) = idle) :
    (s.start C t c).reads f idle = s.reads f idle := by
  rw [reads_start, hc, Function.update_eq_self_iff, reads_idle f idle h]

theorem reads_advance (r : Running Point Call) (shared : Shared) (next : Point ⊕ Reply) :
    (s.advance t r shared next).reads f idle =
      Function.update (s.reads f idle) t (readsNext f idle next) := by
  funext u
  by_cases h : u = t
  · subst h
    cases next with
    | inl p => simp [reads, advance, after, readsNext]
    | inr reply => simp [reads, advance, after, readsNext]
  · simp [reads, advance, h]

end State

namespace Code

variable (C : Code Shared Point Call Reply Choice)

def step (s : State Shared Point Call Reply) : Label Call Choice →
    Option (State Shared Point Call Reply)
  | .call t c => if (s.running t).isNone then some (s.start C t c) else none
  | .act t choice =>
    match s.running t with
    | none => none
    | some r =>
      match C.act s.shared t r.point choice with
      | none => none
      | some (shared, next) => some (s.advance t r shared next)

def run (s : State Shared Point Call Reply) : List (Label Call Choice) →
    Option (State Shared Point Call Reply)
  | [] => some s
  | l :: ls => (C.step s l).bind fun t => run t ls

/-- Every step of the run is taken in a state that allows it. -/
def Guarded (allowed : State Shared Point Call Reply → Label Call Choice → Prop)
    (s : State Shared Point Call Reply) : List (Label Call Choice) → Prop
  | [] => True
  | l :: ls => allowed s l ∧ ∀ t, C.step s l = some t → Guarded allowed t ls

/-- What a step can be. -/
inductive Steps (s : State Shared Point Call Reply) :
    Label Call Choice → State Shared Point Call Reply → Prop
  | start {t : Nat} {c : Call} (hidle : s.running t = none) : Steps s (.call t c) (s.start C t c)
  | act {t : Nat} {r : Running Point Call} {choice : Choice} {shared : Shared}
      {next : Point ⊕ Reply} (hrunning : s.running t = some r)
      (hact : C.act s.shared t r.point choice = some (shared, next)) :
      Steps s (.act t choice) (s.advance t r shared next)

/-- Thread `t` is in a call that can make an action. -/
def CanAct (s : State Shared Point Call Reply) (t : Nat) : Prop :=
  ∃ choice s', C.step s (.act t choice) = some s'

variable {C} {s s' : State Shared Point Call Reply} {l : Label Call Choice}

/-- A run is guarded in two parts, the second from the state that the first one reaches. -/
theorem guarded_append {allowed : State Shared Point Call Reply → Label Call Choice → Prop}
    {ls ls' : List (Label Call Choice)} (h : C.Guarded allowed s ls)
    (hrest : ∀ s', C.run s ls = some s' → C.Guarded allowed s' ls') :
    C.Guarded allowed s (ls ++ ls') := by
  induction ls generalizing s with
  | nil => exact hrest s rfl
  | cons l ls ih =>
    obtain ⟨hallowed, hguard⟩ := h
    refine ⟨hallowed, fun t hstep => ih (hguard t hstep) fun s' hrun => hrest s' ?_⟩
    rw [run, hstep]
    exact hrun

theorem canAct_of_isSome {t : Nat} {r : Running Point Call} {choice : Choice}
    (hr : s.running t = some r) (h : (C.act s.shared t r.point choice).isSome) : C.CanAct s t := by
  obtain ⟨⟨shared, next⟩, hact⟩ := Option.isSome_iff_exists.mp h
  refine ⟨choice, s.advance t r shared next, ?_⟩
  simp only [step, hr, hact]

theorem step_cases (h : C.step s l = some s') : C.Steps s l s' := by
  cases l with
  | call t c =>
    rw [step] at h
    split at h
    · next hidle =>
      cases h
      exact .start (Option.isNone_iff_eq_none.mp hidle)
    · cases h
  | act t choice =>
    rw [step] at h
    cases hrunning : s.running t with
    | none =>
      rw [hrunning] at h
      cases h
    | some r =>
      rw [hrunning] at h
      cases hact : C.act s.shared t r.point choice with
      | none => simp [hact] at h
      | some next =>
        simp only [hact, Option.some.injEq] at h
        subst h
        exact .act hrunning hact

/-- A step leaves the other threads where they are. -/
theorem running_of_step {u : Nat} (h : C.step s l = some s') (hu : u ≠ l.thread) :
    s'.running u = s.running u := by
  cases step_cases h with
  | start => exact Function.update_of_ne hu _ _
  | act => exact Function.update_of_ne hu _ _

/-- A step adds at most the answer of its own call to the log. -/
theorem mem_entries {t : Nat} {r : Running Point Call} {next : Point ⊕ Reply}
    {e : Returned Call Reply} (h : e ∈ State.entries t r next) :
    ∃ reply, next = .inr reply ∧ e = ⟨t, r.call, r.began, reply⟩ := by
  cases next with
  | inl p => cases h
  | inr reply => exact ⟨reply, rfl, List.mem_singleton.mp h⟩

theorem running_advance {t u : Nat} {r r' : Running Point Call} {shared : Shared}
    {next : Point ⊕ Reply} (h : (s.advance t r shared next).running u = some r') :
    (u ≠ t ∧ s.running u = some r') ∨ ∃ p, u = t ∧ next = .inl p ∧ r' = { r with point := p } := by
  by_cases hu : u = t
  · subst hu
    cases next with
    | inl p =>
      simp only [State.advance, State.after, Function.update_self, Option.some.injEq] at h
      exact Or.inr ⟨p, rfl, rfl, h.symm⟩
    | inr reply => simp [State.advance, State.after] at h
  · simp only [State.advance, Function.update_of_ne hu] at h
    exact Or.inl ⟨hu, h⟩

theorem running_start {t u : Nat} {c : Call} {r : Running Point Call}
    (h : (s.start C t c).running u = some r) :
    (u ≠ t ∧ s.running u = some r) ∨ u = t ∧ r = ⟨c, s.log.length, C.enter c⟩ := by
  by_cases hu : u = t
  · subst hu
    simp only [State.start, Function.update_self, Option.some.injEq] at h
    exact Or.inr ⟨rfl, h.symm⟩
  · simp only [State.start, Function.update_of_ne hu] at h
    exact Or.inl ⟨hu, h⟩

/-- Calls began when the log was no longer than it is. -/
structure Timely (s : State Shared Point Call Reply) : Prop where
  running : ∀ u r, s.running u = some r → r.began ≤ s.log.length
  log : ∀ e ∈ s.log, e.began ≤ s.log.length

theorem timely_initial (shared : Shared) :
    Timely (State.initial shared : State Shared Point Call Reply) where
  running u r h := by cases h
  log e h := by cases h

theorem timely_steps (h : Timely s) (hstep : C.Steps s l s') : Timely s' := by
  cases hstep with
  | @start t c hidle =>
    refine ⟨fun u r hr => ?_, h.log⟩
    rcases running_start hr with ⟨-, hold⟩ | ⟨-, rfl⟩
    · exact h.running u r hold
    · exact Nat.le_refl _
  | @act t r choice shared next hr hact =>
    have hlength : s.log.length ≤ (s.advance t r shared next).log.length := by
      simp [State.advance]
    refine ⟨fun u r' hr' => ?_, fun e he => ?_⟩
    · rcases running_advance hr' with ⟨-, hold⟩ | ⟨p, -, -, rfl⟩
      · exact Nat.le_trans (h.running u r' hold) hlength
      · exact Nat.le_trans (h.running t r hr) hlength
    · rcases List.mem_append.mp he with hold | hnew
      · exact Nat.le_trans (h.log e hold) hlength
      · obtain ⟨reply, -, rfl⟩ := mem_entries hnew
        exact Nat.le_trans (h.running t r hr) hlength

theorem take_append {log es : List (Returned Call Reply)} {n : Nat} (h : n ≤ log.length) :
    (log ++ es).take n = log.take n :=
  List.take_append_of_le_length h

theorem run_invariant {I : State Shared Point Call Reply → Prop}
    {allowed : State Shared Point Call Reply → Label Call Choice → Prop}
    (hstep : ∀ {s l s'}, I s → allowed s l → C.Steps s l s' → I s')
    {ls : List (Label Call Choice)} (hs : I s) (hallowed : C.Guarded allowed s ls)
    (hrun : C.run s ls = some s') : I s' := by
  induction ls generalizing s with
  | nil =>
    cases hrun
    exact hs
  | cons l ls ih =>
    obtain ⟨t, ht, hrun⟩ := Option.bind_eq_some_iff.mp hrun
    exact ih (hstep hs hallowed.1 (step_cases ht)) (hallowed.2 t ht) hrun

/-- What every call of a state is. -/
def Calls (P : Call → Prop) (s : State Shared Point Call Reply) : Prop :=
  (∀ u r, s.running u = some r → P r.call) ∧ ∀ e ∈ s.log, P e.call

theorem calls_run {P : Call → Prop} {ls : List (Label Call Choice)} (hs : Calls P s)
    (hls : ∀ t c, Label.call t c ∈ ls → P c) (hrun : C.run s ls = some s') : Calls P s' := by
  induction ls generalizing s with
  | nil =>
    cases hrun
    exact hs
  | cons l ls ih =>
    obtain ⟨m, hm, hrun⟩ := Option.bind_eq_some_iff.mp hrun
    refine ih ?_ (fun t c hmem => hls t c (.tail l hmem)) hrun
    cases step_cases hm with
    | @start t c hidle =>
      refine ⟨fun u r hr => ?_, hs.2⟩
      rcases running_start hr with ⟨-, hold⟩ | ⟨-, rfl⟩
      · exact hs.1 u r hold
      · exact hls t c (.head ls)
    | @act t r choice shared next hr hact =>
      refine ⟨fun u r' hr' => ?_, fun e he => ?_⟩
      · rcases running_advance hr' with ⟨-, hold⟩ | ⟨p, -, -, rfl⟩
        · exact hs.1 u r' hold
        · exact hs.1 t r hr
      · rcases List.mem_append.mp he with hold | hnew
        · exact hs.2 e hold
        · obtain ⟨reply, -, rfl⟩ := mem_entries hnew
          exact hs.1 t r hr

theorem guarded_true (ls : List (Label Call Choice)) :
    C.Guarded (fun _ _ => True) s ls := by
  induction ls generalizing s with
  | nil => trivial
  | cons l ls ih => exact ⟨trivial, fun t _ => ih⟩

end Code

variable {K : Type}

/-- The locks are held by the threads that are inside them. -/
def Owns (lock : K → Option Nat) (inside : Nat → Option K) : Prop :=
  ∀ k u, lock k = some u ↔ inside u = some k

theorem Owns.initial : Owns (fun _ : K => none) (fun _ => none) := by
  intro k u
  simp

variable [DecidableEq K]

/-- What an action of thread `t` does to locks: nothing, or it takes one or gives one back. -/
inductive Moves (t : Nat) (lock : K → Option Nat) : Option K → (K → Option Nat) → Option K → Prop
  | keep (k : Option K) : Moves t lock k lock k
  | acquire {k : K} (hfree : lock k = none) :
      Moves t lock none (Function.update lock k (some t)) (some k)
  | release (k : K) : Moves t lock (some k) (Function.update lock k none) none

theorem Owns.moves {lock lock' : K → Option Nat} {inside : Nat → Option K} {t : Nat}
    {before after : Option K} (h : Owns lock inside) (ht : inside t = before)
    (hmoves : Moves t lock before lock' after) :
    Owns lock' (Function.update inside t after) := by
  intro k u
  cases hmoves with
  | keep =>
    rw [← ht, Function.update_eq_self]
    exact h k u
  | @acquire c hfree =>
    by_cases hu : u = t
    · subst hu
      by_cases hk : k = c
      · simp [hk]
      · have hout : lock k ≠ some u := fun hlock => by simp [(h k u).mp hlock] at ht
        simp [hk, hout, Ne.symm hk]
    · by_cases hk : k = c
      · subst hk
        have hout : inside u ≠ some k := fun hin => by simp [(h k u).mpr hin] at hfree
        simp [hu, hout, Ne.symm hu]
      · simpa [hu, hk] using h k u
  | release c =>
    by_cases hu : u = t
    · subst hu
      by_cases hk : k = c
      · simp [hk]
      · have hout : lock k ≠ some u := fun hlock => by
          rw [(h k u).mp hlock] at ht
          exact hk (Option.some.inj ht)
        simp [hk, hout]
    · by_cases hk : k = c
      · subst hk
        have hout : inside u ≠ some k := fun hin => by
          have hlock := (h k u).mpr hin
          rw [(h k t).mpr ht] at hlock
          exact hu (Option.some.inj hlock).symm
        simp [hu, hout]
      · simpa [hu, hk] using h k u

end Threads
