import Mathlib.Logic.Relation

/-! # Simulation of a bounded evaluator by a transition system

A big-step evaluator bounded by a budget produces an `Outcome`. A transition
system simulates it when it reaches a state that represents the value, reports
the error, or keeps running while the evaluator runs out of its budget. The
rules below compose simulations along `bind` and along single steps.
-/

namespace Transition

/-- What a bounded evaluation produces: a value and a world, an error, no answer
within the budget, or a departure from what the simulation promises. -/
inductive Outcome (ε ω α : Type) where
  | ok (a : α) (world : ω)
  | err (e : ε)
  | timeout
  | departs

namespace Outcome

variable {ε ω α β : Type}

def bind (r : Outcome ε ω α) (k : α → ω → Outcome ε ω β) : Outcome ε ω β :=
  match r with
  | .ok a world => k a world
  | .err e => .err e
  | .timeout => .timeout
  | .departs => .departs

/-- A computation that does not touch the world. -/
def lift (r : Except ε α) (world : ω) : Outcome ε ω α :=
  match r with
  | .ok a => .ok a world
  | .error e => .err e

/-- A computation that returns the world beside its result. -/
def ofPair (r : Except ε α × ω) : Outcome ε ω α := lift r.1 r.2

variable {k k' : α → ω → Outcome ε ω β} {r r' : Outcome ε ω α}

@[simp] theorem bind_ok (a : α) (world : ω) : (ok a world : Outcome ε ω α).bind k = k a world := rfl

@[simp] theorem bind_err (e : ε) : (err e : Outcome ε ω α).bind k = err e := rfl

@[simp] theorem bind_timeout : (timeout : Outcome ε ω α).bind k = timeout := rfl

@[simp] theorem bind_departs : (departs : Outcome ε ω α).bind k = departs := rfl

theorem bind_ok_self (r : Outcome ε ω α) : (r.bind fun a world => ok a world) = r := by
  cases r <;> rfl

/-- The first outcome refines the second: it departs or is the same. -/
def Refines (r r' : Outcome ε ω α) : Prop := r = .departs ∨ r = r'

theorem Refines.refl (r : Outcome ε ω α) : r.Refines r := Or.inr rfl

theorem Refines.departs (r : Outcome ε ω α) : Refines .departs r := Or.inl rfl

theorem Refines.bind (hr : r.Refines r') (hk : ∀ a world, (k a world).Refines (k' a world)) :
    (r.bind k).Refines (r'.bind k') := by
  rcases hr with rfl | rfl
  · exact Or.inl rfl
  · cases r with
    | ok a world => exact hk a world
    | err e => exact Or.inr rfl
    | timeout => exact Or.inr rfl
    | departs => exact Or.inr rfl

theorem Refines.eq_of_ne (hr : r.Refines r') (hne : r ≠ .departs) : r = r' :=
  hr.resolve_left hne

/-- A sequence has a result exactly if both of its parts have. -/
theorem bind_eq_ok {b : β} {world' : ω} :
    r.bind k = .ok b world' ↔ ∃ a world, r = .ok a world ∧ k a world = .ok b world' := by
  cases r with
  | ok a world =>
    constructor
    · intro h
      exact ⟨a, world, rfl, h⟩
    · intro ⟨_, _, heq, h⟩
      injection heq with ha hworld
      subst ha hworld
      exact h
  | _ => simp

end Outcome

/-- A transition system that halts with outcomes in `τ`, the outcomes that
report an error of the evaluator, and those that are excused altogether. -/
structure Host (σ τ ε : Type) where
  step : σ → σ → Prop
  halt : σ → τ → Prop
  reports : ε → τ → Prop
  excused : τ → Prop

namespace Host

variable {σ τ ε ω α β : Type} (H : Host σ τ ε)

abbrev Reaches : σ → σ → Prop := Relation.ReflTransGen H.step

/-- The run from `s` halts with `o`. -/
def Yields (s : σ) (o : τ) : Prop := ∃ t, H.Reaches s t ∧ H.halt t o

/-- Some run from `s` makes at least `n` steps. -/
def RunsFor : Nat → σ → Prop
  | 0, _ => True
  | n + 1, s => ∃ t, H.step s t ∧ RunsFor n t

/-- The run from `s` halts with an excused outcome. -/
def GivesUp (s : σ) : Prop := ∃ o, H.Yields s o ∧ H.excused o

variable {H} {s t : σ} {o : τ} {n k : Nat}

theorem Yields.of_reaches (hreach : H.Reaches s t) (h : H.Yields t o) : H.Yields s o := by
  obtain ⟨u, hu, hhalt⟩ := h
  exact ⟨u, hreach.trans hu, hhalt⟩

theorem GivesUp.of_reaches (hreach : H.Reaches s t) (h : H.GivesUp t) : H.GivesUp s := by
  obtain ⟨o, ho, hexcused⟩ := h
  exact ⟨o, ho.of_reaches hreach, hexcused⟩

theorem RunsFor.of_succ (h : H.RunsFor (n + 1) s) : H.RunsFor n s := by
  induction n generalizing s with
  | zero => trivial
  | succ n ih =>
    obtain ⟨t, hstep, ht⟩ := h
    exact ⟨t, hstep, ih ht⟩

theorem RunsFor.of_reaches (hreach : H.Reaches s t) (h : H.RunsFor n t) : H.RunsFor n s := by
  induction hreach using Relation.ReflTransGen.head_induction_on with
  | refl => exact h
  | head hstep _ ih => exact RunsFor.of_succ ⟨_, hstep, ih⟩

/-- At most one way to go on from every state. -/
structure Deterministic (H : Host σ τ ε) : Prop where
  step_unique : ∀ {s t t'}, H.step s t → H.step s t' → t = t'
  halt_unique : ∀ {s o o'}, H.halt s o → H.halt s o' → o = o'
  step_not_halt : ∀ {s t o}, H.step s t → ¬ H.halt s o

theorem Deterministic.yields_of_step (hdet : H.Deterministic) (hstep : H.step s t)
    (h : H.Yields s o) : H.Yields t o := by
  obtain ⟨u, hu, hhalt⟩ := h
  rcases Relation.ReflTransGen.cases_head hu with rfl | ⟨t', hstep', hrest⟩
  · exact absurd hhalt (hdet.step_not_halt hstep)
  · exact ⟨u, hdet.step_unique hstep hstep' ▸ hrest, hhalt⟩

theorem Deterministic.yields_of_reaches (hdet : H.Deterministic) (hreach : H.Reaches s t)
    (h : H.Yields s o) : H.Yields t o := by
  induction hreach with
  | refl => exact h
  | tail _ hstep ih => exact hdet.yields_of_step hstep ih

theorem Deterministic.yields_unique (hdet : H.Deterministic) {o' : τ} (h : H.Yields s o)
    (h' : H.Yields s o') : o = o' := by
  obtain ⟨t, ht, hhalt⟩ := h
  obtain ⟨u, hu, hhalt'⟩ := hdet.yields_of_reaches ht h'
  rcases Relation.ReflTransGen.cases_head hu with rfl | ⟨_, hstep, _⟩
  · exact hdet.halt_unique hhalt hhalt'
  · exact absurd hhalt (hdet.step_not_halt hstep)

theorem Deterministic.exists_not_runsFor (hdet : H.Deterministic) (h : H.Yields s o) :
    ∃ n, ¬ H.RunsFor n s := by
  obtain ⟨t, hreach, hhalt⟩ := h
  induction hreach using Relation.ReflTransGen.head_induction_on with
  | refl =>
    refine ⟨1, ?_⟩
    rintro ⟨u, hstep, -⟩
    exact hdet.step_not_halt hstep hhalt
  | head hstep _ ih =>
    obtain ⟨n, hn⟩ := ih
    refine ⟨n + 1, ?_⟩
    rintro ⟨u, hstep', hu⟩
    exact hn (hdet.step_unique hstep hstep' ▸ hu)

/-- From `s` the host does what the evaluator's outcome says: it reaches a state
that represents the value, reports the error, or makes at least `k` steps when
the evaluator timed out. It may instead give up. -/
def Simulates (H : Host σ τ ε) (k : Nat) (s : σ) (r : Outcome ε ω α) (post : α → ω → σ → Prop) :
    Prop :=
  match r with
  | .ok a world => (∃ t, H.Reaches s t ∧ post a world t) ∨ H.GivesUp s
  | .err e => (∃ o, H.Yields s o ∧ H.reports e o) ∨ H.GivesUp s
  | .timeout => H.RunsFor k s ∨ H.GivesUp s
  | .departs => True

variable {r : Outcome ε ω α} {post : α → ω → σ → Prop}

theorem simulates_ok {a : α} {world : ω} (h : post a world s) :
    H.Simulates k s (.ok a world) post :=
  Or.inl ⟨s, .refl, h⟩

theorem simulates_err {e : ε} (hhalt : H.halt s o) (h : H.reports e o) :
    H.Simulates k s (.err e : Outcome ε ω α) post :=
  Or.inl ⟨o, ⟨s, .refl, hhalt⟩, h⟩

theorem simulates_of_givesUp (h : H.GivesUp s) : H.Simulates k s r post := by
  cases r with
  | ok a world => exact Or.inr h
  | err e => exact Or.inr h
  | timeout => exact Or.inr h
  | departs => trivial

theorem Simulates.of_reaches (hreach : H.Reaches s t) (h : H.Simulates k t r post) :
    H.Simulates k s r post := by
  cases r with
  | ok a world =>
    rcases h with ⟨u, hu, hpost⟩ | h
    · exact Or.inl ⟨u, hreach.trans hu, hpost⟩
    · exact Or.inr (h.of_reaches hreach)
  | err e =>
    rcases h with ⟨o, ho, hreports⟩ | h
    · exact Or.inl ⟨o, ho.of_reaches hreach, hreports⟩
    · exact Or.inr (h.of_reaches hreach)
  | timeout =>
    rcases h with h | h
    · exact Or.inl (h.of_reaches hreach)
    · exact Or.inr (h.of_reaches hreach)
  | departs => trivial

theorem Simulates.of_step (hstep : H.step s t) (h : H.Simulates k t r post) :
    H.Simulates k s r post :=
  h.of_reaches (.single hstep)

theorem Simulates.of_step_succ (hstep : H.step s t) (h : H.Simulates k t r post) :
    H.Simulates (k + 1) s r post := by
  cases r with
  | timeout =>
    rcases h with h | h
    · exact Or.inl ⟨t, hstep, h⟩
    · exact Or.inr (h.of_reaches (.single hstep))
  | ok a world => exact Simulates.of_step (k := k) hstep h
  | err e => exact Simulates.of_step (k := k) hstep h
  | departs => trivial

theorem Simulates.mono {post' : α → ω → σ → Prop} (h : H.Simulates k s r post)
    (hpost : ∀ a world t, post a world t → post' a world t) : H.Simulates k s r post' := by
  cases r with
  | ok a world => exact h.imp (fun ⟨t, ht, hp⟩ => ⟨t, ht, hpost a world t hp⟩) id
  | err e => exact h
  | timeout => exact h
  | departs => trivial

theorem Simulates.and_then {post' : α → ω → σ → Prop} (h : H.Simulates k s r post)
    (hpost : ∀ a world t, post a world t → ∃ t', H.Reaches t t' ∧ post' a world t') :
    H.Simulates k s r post' := by
  cases r with
  | ok a world =>
    rcases h with ⟨t, ht, hp⟩ | h
    · obtain ⟨t', ht', hp'⟩ := hpost a world t hp
      exact Or.inl ⟨t', ht.trans ht', hp'⟩
    · exact Or.inr h
  | err e => exact h
  | timeout => exact h
  | departs => trivial

theorem Simulates.bind {f : α → ω → Outcome ε ω β} {post' : β → ω → σ → Prop}
    (h : H.Simulates k s r post)
    (hf : ∀ a world t, post a world t → H.Simulates k t (f a world) post') :
    H.Simulates k s (r.bind f) post' := by
  cases r with
  | ok a world =>
    rcases h with ⟨t, ht, hpost⟩ | h
    · exact (hf a world t hpost).of_reaches ht
    · exact simulates_of_givesUp h
  | err e => exact h
  | timeout => exact h
  | departs => trivial

end Host

end Transition
