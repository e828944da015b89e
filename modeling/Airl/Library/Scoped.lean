import Mathlib.Logic.Basic

/-! # Computations over an environment with scopes

Code over a mutable environment opens and closes scopes by hand and may stop in between; its
specification has the visible bindings as an argument. `Sound` relates the two: they agree until the
specification reports a scope that is left open, and from then on the code has one scope too many.
-/

namespace Airl.Scoped

/-- Environments with scopes; `view` is what is visible. -/
structure Scoping (E V : Type) where
  depth : E → Nat
  push : E → E
  pop : E → E
  view : E → V
  depth_push : ∀ env, depth (push env) = depth env + 1
  depth_pop : ∀ env, depth env ≤ depth (pop env) + 1
  pop_push : ∀ env, pop (push env) = env
  view_push : ∀ env, view (push env) = view env

/-- The environment of the code, and what no scope is about. -/
structure State (E R : Type) where
  env : E
  rest : R

variable {E V R α β γ : Type}

/-- Code that can fail, or fail to return. -/
abbrev Code (E R α : Type) := ExceptT Unit (StateT (State E R) Option) α

/-- Code that does not touch the environment. -/
abbrev RestCode (R α : Type) := ExceptT Unit (StateT R Option) α

/-- Whether a failure leaves a scope open. -/
inductive Failure where
  | plain
  | left

abbrev Spec (R α : Type) := ExceptT Failure (StateT R Option) α

namespace Code

def modifyEnv (f : E → E) : Code E R Unit := fun s => some (.ok (), { s with env := f s.env })

def view (S : Scoping E V) : Code E R V := fun s => some (.ok (S.view s.env), s)

def lift (m : RestCode R α) : Code E R α := fun s =>
  (m s.rest).map fun out => (out.1, { s with rest := out.2 })

/-- The result, if there is one; a failure is passed over. -/
def attempt (m : Code E R α) : Code E R (Option α) := fun s =>
  (m s).map fun out => (.ok out.1.toOption, out.2)

theorem bind_eq (m : Code E R α) (f : α → Code E R β) (s : State E R) :
    (m >>= f) s = (m s).bind fun out =>
      match out.1 with
      | .ok a => f a out.2
      | .error e => some (.error e, out.2) := by
  change Option.bind (m s) _ = _
  cases m s with
  | none => rfl
  | some out =>
    obtain ⟨result, s'⟩ := out
    cases result <;> rfl

end Code

namespace Spec

def lift (m : RestCode R α) : Spec R α := fun r =>
  (m r).map fun out => (out.1.mapError fun _ => .plain, out.2)

def attempt (m : Spec R α) : Spec R (Option α) := fun r =>
  (m r).map fun out =>
    match out.1 with
    | .ok a => (.ok (some a), out.2)
    | .error .plain => (.ok none, out.2)
    | .error .left => (.error .left, out.2)

/-- A part of a scope: where it fails, the scope is left open. -/
def inside (m : Spec R α) : Spec R α := fun r =>
  (m r).map fun out => (out.1.mapError fun _ => .left, out.2)

theorem bind_eq (m : Spec R α) (f : α → Spec R β) (r : R) :
    (m >>= f) r = (m r).bind fun out =>
      match out.1 with
      | .ok a => f a out.2
      | .error e => some (.error e, out.2) := by
  change Option.bind (m r) _ = _
  cases m r with
  | none => rfl
  | some out =>
    obtain ⟨result, r'⟩ := out
    cases result <;> rfl

end Spec

section Relations

variable (S : Scoping E V)

/-- The code closes at most `k` scopes that it has not opened. -/
def Closes (k : Nat) (m : Code E R α) : Prop :=
  ∀ s c s', m s = some (c, s') → S.depth s.env ≤ S.depth s'.env + k

/-- The environment is one scope inside `outer`. -/
def InScope (outer env : E) : Prop := S.pop env = outer ∧ S.depth env = S.depth outer + 1

/-- The code does what its specification says and ends in an environment of which `stops` holds if
it fails, and of which `ends` holds with both results if it does not, unless a scope is left open:
then it ends deeper than `low`. -/
def Follows (low : Nat) (stops : E → Prop) (ends : E → α → β → Prop) (s : State E R)
    (m : Code E R α) (spec : Spec R β) : Prop :=
  match spec s.rest with
  | none => m s = none
  | some (.ok b, r) => ∃ env a, m s = some (.ok a, ⟨env, r⟩) ∧ ends env a b
  | some (.error .plain, r) => ∃ env, m s = some (.error (), ⟨env, r⟩) ∧ stops env
  | some (.error .left, _) => ∀ c s', m s = some (c, s') → low < S.depth s'.env

/-- The code leaves the environment as it was. -/
structure Sound (m : Code E R α) (spec : V → Spec R α) : Prop where
  closes : Closes S 0 m
  follows : ∀ s, Follows S (S.depth s.env) (· = s.env) (fun env a b => env = s.env ∧ a = b) s m
    (spec (S.view s.env))

/-- The code is the rest of a scope, which it closes. -/
structure SoundInside (m : Code E R α) (spec : V → Spec R α) : Prop where
  closes : Closes S 1 m
  follows : ∀ outer s, InScope S outer s.env → Follows S (S.depth outer) (· = outer)
    (fun env a b => env = outer ∧ a = b) s m (spec (S.view s.env))

/-- The code binds names in a scope, whose view `views` gets from the result of the
specification. -/
structure Binds (results : β → α × V) (m : Code E R α) (spec : V → Spec R β) : Prop where
  closes : Closes S 0 m
  follows : ∀ outer s, InScope S outer s.env → Follows S (S.depth outer + 1)
    (fun env => S.depth outer < S.depth env)
    (fun env a b => InScope S outer env ∧ results b = (a, S.view env)) s m (spec (S.view s.env))

end Relations

/-- An operation that binds in the innermost scope. -/
structure Scoping.Binding (S : Scoping E V) (g : E → E) (g' : V → V) : Prop where
  depth : ∀ env, S.depth (g env) = S.depth env
  pop : ∀ env, 0 < S.depth env → S.pop (g env) = S.pop env
  view : ∀ env, S.view (g env) = g' (S.view env)

variable {S : Scoping E V}

theorem InScope.binding {g : E → E} {g' : V → V} (hg : S.Binding g g') {outer env : E}
    (h : InScope S outer env) : InScope S outer (g env) := by
  have hpos : 0 < S.depth env := by
    rw [h.2]
    exact Nat.succ_pos _
  exact ⟨(hg.pop env hpos).trans h.1, (hg.depth env).trans h.2⟩

namespace Closes

theorem pure (k : Nat) (a : α) : Closes S k (Pure.pure a : Code E R α) := by
  intro s c s' h
  cases h
  exact Nat.le_add_right _ _

theorem throw (k : Nat) : Closes S k (throw () : Code E R α) := by
  intro s c s' h
  cases h
  exact Nat.le_add_right _ _

theorem lift (m : RestCode R α) : Closes S 0 (Code.lift m : Code E R α) := by
  intro s c s' h
  obtain ⟨out, -, hout⟩ := Option.map_eq_some_iff.mp h
  cases hout
  exact Nat.le_refl _

theorem modifyEnv {k : Nat} {f : E → E} (hf : ∀ env, S.depth env ≤ S.depth (f env) + k) :
    Closes S k (Code.modifyEnv f : Code E R Unit) := by
  intro s c s' h
  cases h
  exact hf s.env

theorem bind {k j : Nat} {m : Code E R α} {f : α → Code E R β} (hm : Closes S j m)
    (hf : ∀ a, Closes S k (f a)) : Closes S (k + j) (m >>= f) := by
  intro s c s' h
  rw [Code.bind_eq] at h
  obtain ⟨⟨result, s₁⟩, hresult, h⟩ := Option.bind_eq_some_iff.mp h
  have hdepth := hm s result s₁ hresult
  cases result with
  | ok a =>
    have hrest := hf a s₁ c s' h
    omega
  | error e =>
    cases h
    change S.depth s.env ≤ S.depth s₁.env + (k + j)
    omega

theorem attempt {m : Code E R α} (hm : Closes S 0 m) : Closes S 0 (Code.attempt m) := by
  intro s c s' h
  obtain ⟨out, hout, hc⟩ := Option.map_eq_some_iff.mp h
  cases hc
  exact hm s out.1 out.2 hout

theorem binding {g : E → E} {g' : V → V} (hg : S.Binding g g') :
    Closes S 0 (Code.modifyEnv g : Code E R Unit) :=
  modifyEnv fun env => Nat.le_of_eq (hg.depth env).symm

theorem enter {m : Code E R α} (hm : Closes S 1 m) :
    Closes S 0 (Code.modifyEnv S.push >>= fun _ => m) := by
  intro s c s' h
  rw [Code.bind_eq] at h
  have hdepth := hm _ c s' h
  rw [S.depth_push] at hdepth
  exact Nat.le_of_succ_le_succ hdepth

end Closes

namespace Follows

variable {low : Nat} {stops : E → Prop} {s : State E R}

theorem lift {ends : E → α → α → Prop} (x : RestCode R α) (hstops : stops s.env)
    (hends : ∀ a, ends s.env a a) : Follows S low stops ends s (Code.lift x) (Spec.lift x) := by
  unfold Follows Spec.lift Code.lift
  cases x s.rest with
  | none => rfl
  | some out =>
    obtain ⟨result, r⟩ := out
    cases result with
    | ok a => exact ⟨s.env, a, rfl, hends a⟩
    | error e => exact ⟨s.env, rfl, hstops⟩

theorem attempt {m : Code E R α} {spec : Spec R α}
    (h : Follows S low stops (fun env a b => env = s.env ∧ a = b) s m spec)
    (hstops : ∀ env, stops env → env = s.env) :
    Follows S low stops (fun env a b => env = s.env ∧ a = b) s (Code.attempt m)
      (Spec.attempt spec) := by
  unfold Follows at h ⊢
  unfold Spec.attempt Code.attempt
  cases hspec : spec s.rest with
  | none =>
    rw [hspec] at h
    rw [h]
    rfl
  | some out =>
    obtain ⟨result, r⟩ := out
    rw [hspec] at h
    rcases result with e | b
    · rcases e with _ | _
      · obtain ⟨env, hm, hstop⟩ := h
        rw [hm]
        exact ⟨env, none, rfl, hstops env hstop, rfl⟩
      · intro c s' hc
        obtain ⟨out, hout, hc⟩ := Option.map_eq_some_iff.mp hc
        cases hc
        exact h out.1 out.2 hout
    · obtain ⟨env, a, hm, henv, hab⟩ := h
      rw [hm]
      exact ⟨env, some a, rfl, henv, congrArg some hab⟩

theorem bind {δ : Type} {ends : E → α → β → Prop} {ends' : E → γ → δ → Prop} {m : Code E R α}
    {spec : Spec R β} {f : α → Code E R γ} {spec' : β → Spec R δ}
    (h : Follows S low stops ends s m spec)
    (hf : ∀ env a b r, ends env a b → Follows S low stops ends' ⟨env, r⟩ (f a) (spec' b))
    (hcloses : ∀ a, Closes S 0 (f a)) :
    Follows S low stops ends' s (m >>= f) (spec >>= spec') := by
  unfold Follows at h ⊢
  rw [Spec.bind_eq, Code.bind_eq]
  cases hspec : spec s.rest with
  | none =>
    rw [hspec] at h
    rw [h]
    rfl
  | some out =>
    obtain ⟨result, r⟩ := out
    rw [hspec] at h
    rcases result with e | b
    · rcases e with _ | _
      · obtain ⟨env, hm, hstops⟩ := h
        rw [hm]
        exact ⟨env, rfl, hstops⟩
      · intro c s' hc
        obtain ⟨⟨result, s₁⟩, hresult, hc⟩ := Option.bind_eq_some_iff.mp hc
        have hdeeper := h result s₁ hresult
        cases result with
        | ok a => exact Nat.lt_of_lt_of_le hdeeper (hcloses a s₁ c s' hc)
        | error e =>
          cases hc
          exact hdeeper
    · obtain ⟨env, a, hm, hends⟩ := h
      rw [hm]
      exact hf env a b r hends

theorem bind_inside {δ : Type} {outer : E} {ends : E → α → β → Prop} {ends' : E → γ → δ → Prop}
    {m : Code E R α} {spec : Spec R β} {f : α → Code E R γ} {spec' : β → Spec R δ}
    (h : Follows S (S.depth outer + 1) (fun env => S.depth outer < S.depth env) ends s m spec)
    (hf : ∀ env a b r, ends env a b →
      Follows S (S.depth outer) stops ends' ⟨env, r⟩ (f a) (spec' b))
    (hcloses : ∀ a, Closes S 1 (f a)) :
    Follows S (S.depth outer) stops ends' s (m >>= f) (Spec.inside spec >>= spec') := by
  unfold Follows at h ⊢
  rw [Spec.bind_eq, Code.bind_eq]
  unfold Spec.inside
  cases hspec : spec s.rest with
  | none =>
    rw [hspec] at h
    rw [h]
    rfl
  | some out =>
    obtain ⟨result, r⟩ := out
    rw [hspec] at h
    rcases result with e | b
    · rcases e with _ | _
      · -- the failure leaves before the scope is closed
        obtain ⟨env, hm, hstops⟩ := h
        rw [hm]
        intro c s' hc
        cases hc
        exact hstops
      · intro c s' hc
        obtain ⟨⟨result, s₁⟩, hresult, hc⟩ := Option.bind_eq_some_iff.mp hc
        have hdeeper := h result s₁ hresult
        cases result with
        | ok a =>
          have hend := hcloses a s₁ c s' hc
          omega
        | error e =>
          cases hc
          exact Nat.lt_of_succ_lt hdeeper
    · obtain ⟨env, a, hm, hends⟩ := h
      rw [hm]
      exact hf env a b r hends

theorem mono {low' : Nat} {stops' : E → Prop} {ends ends' : E → α → β → Prop} {m : Code E R α}
    {spec : Spec R β} (h : Follows S low stops ends s m spec) (hlow : low' ≤ low)
    (hstops : ∀ env, stops env → stops' env) (hends : ∀ env a b, ends env a b → ends' env a b) :
    Follows S low' stops' ends' s m spec := by
  unfold Follows at h ⊢
  cases hspec : spec s.rest with
  | none =>
    rw [hspec] at h
    exact h
  | some out =>
    obtain ⟨result, r⟩ := out
    rw [hspec] at h
    rcases result with e | b
    · rcases e with _ | _
      · obtain ⟨env, hm, hstop⟩ := h
        exact ⟨env, hm, hstops env hstop⟩
      · intro c s' hc
        exact Nat.lt_of_le_of_lt hlow (h c s' hc)
    · obtain ⟨env, a, hm, hend⟩ := h
      exact ⟨env, a, hm, hends env a b hend⟩

end Follows

namespace Sound

variable {m : Code E R α} {spec : V → Spec R α}

theorem pure (a : α) : Sound S (Pure.pure a : Code E R α) fun _ => Pure.pure a where
  closes := .pure 0 a
  follows s := ⟨s.env, a, rfl, rfl, rfl⟩

theorem lift (x : RestCode R α) : Sound S (Code.lift x) fun _ => Spec.lift x where
  closes := .lift x
  follows _ := .lift x rfl fun _ => ⟨rfl, rfl⟩

theorem attempt (h : Sound S m spec) : Sound S (Code.attempt m) fun v => Spec.attempt (spec v) where
  closes := h.closes.attempt
  follows s := (h.follows s).attempt fun _ => id

theorem bind {f : α → Code E R β} {spec' : α → V → Spec R β} (h : Sound S m spec)
    (hf : ∀ a, Sound S (f a) (spec' a)) :
    Sound S (m >>= f) fun v => spec v >>= fun a => spec' a v where
  closes := h.closes.bind fun a => (hf a).closes
  follows s := by
    apply (h.follows s).bind
    · intro env a b r hends
      obtain ⟨rfl, rfl⟩ := hends
      exact (hf a).follows ⟨s.env, r⟩
    · exact fun a => (hf a).closes

theorem view_bind {f : V → Code E R α} (spec : V → V → Spec R α) (h : ∀ v, Sound S (f v) (spec v)) :
    Sound S (Code.view S >>= f) fun v => spec v v where
  closes := by
    intro s c s' hc
    exact (h (S.view s.env)).closes s c s' hc
  follows s := (h (S.view s.env)).follows s

theorem ite {c : Prop} [Decidable c] {m' : Code E R α} {spec' : V → Spec R α} (h : Sound S m spec)
    (h' : Sound S m' spec') :
    Sound S (if c then m else m') fun v => if c then spec v else spec' v := by
  by_cases hc : c
  · simpa only [if_pos hc] using h
  · simpa only [if_neg hc] using h'

theorem enter (h : SoundInside S m spec) :
    Sound S (Code.modifyEnv S.push >>= fun _ => m) spec where
  closes := h.closes.enter
  follows s := by
    have hscope := h.follows s.env ⟨S.push s.env, s.rest⟩ ⟨S.pop_push s.env, S.depth_push s.env⟩
    rw [S.view_push] at hscope
    exact hscope

end Sound

namespace SoundInside

variable {m : Code E R α} {spec : V → Spec R α} {f : α → Code E R β} {spec' : α → V → Spec R β}

theorem leave (a : α) :
    SoundInside S (Code.modifyEnv S.pop >>= fun _ => Pure.pure a : Code E R α)
      fun _ => Pure.pure a where
  closes := Closes.bind (Closes.modifyEnv S.depth_pop) fun _ => .pure 0 a
  follows _ s hscope := ⟨S.pop s.env, a, rfl, hscope.1, rfl⟩

theorem stop {x : RestCode R Unit} (hx : ∀ r, ∃ r', x r = some (.ok (), r')) :
    SoundInside S
      (Code.lift x >>= fun _ => Code.modifyEnv S.pop >>= fun _ => (throw () : Code E R α))
      fun _ => Spec.lift (x >>= fun _ => throw ()) where
  closes := Closes.bind (.lift x) fun _ =>
    Closes.bind (Closes.modifyEnv S.depth_pop) fun _ => .throw 0
  follows := by
    intro outer s hscope
    obtain ⟨r, hr⟩ := hx s.rest
    have hspec : (Spec.lift (x >>= fun _ => throw ()) : Spec R α) s.rest =
        some (.error .plain, r) := by
      have hthrow : (x >>= fun _ => throw () : RestCode R α) s.rest = some (.error (), r) := by
        change Option.bind (x s.rest) _ = _
        rw [hr]
        rfl
      rw [Spec.lift, hthrow]
      rfl
    unfold Follows
    rw [hspec]
    refine ⟨S.pop s.env, ?_, hscope.1⟩
    rw [Code.bind_eq, Code.lift, hr]
    rfl

theorem bind_inside (h : Sound S m spec) (hf : ∀ a, SoundInside S (f a) (spec' a)) :
    SoundInside S (m >>= f) fun v => Spec.inside (spec v) >>= fun a => spec' a v where
  closes := h.closes.bind fun a => (hf a).closes
  follows := by
    intro outer s hscope
    have hinside : Follows S (S.depth outer + 1) (fun env => S.depth outer < S.depth env)
        (fun env a b => env = s.env ∧ a = b) s m (spec (S.view s.env)) := by
      apply (h.follows s).mono (Nat.le_of_eq hscope.2.symm)
      · intro env henv
        rw [henv, hscope.2]
        exact Nat.lt_succ_self _
      · exact fun _ _ _ => id
    apply hinside.bind_inside
    · intro env a b r hends
      obtain ⟨rfl, rfl⟩ := hends
      exact (hf a).follows outer ⟨s.env, r⟩ hscope
    · exact fun a => (hf a).closes

theorem last (h : Sound S m spec) :
    SoundInside S (m >>= fun a => Code.modifyEnv S.pop >>= fun _ => Pure.pure a)
      fun v => Spec.inside (spec v) := by
  have hinside := bind_inside h fun a => leave a
  simp only [bind_pure] at hinside
  exact hinside

theorem bind_name {g : E → E} {g' : V → V} (hg : S.Binding g g') (h : SoundInside S m spec) :
    SoundInside S (Code.modifyEnv g >>= fun _ => m) fun v => spec (g' v) where
  closes := (Closes.binding hg).bind fun _ => h.closes
  follows := by
    intro outer s hscope
    have hrest := h.follows outer ⟨g s.env, s.rest⟩ (hscope.binding hg)
    rw [hg.view] at hrest
    exact hrest

theorem binds {δ : Type} {results : δ → α × V} {binder : V → Spec R δ}
    (h : Binds S results m binder) (hf : ∀ a, SoundInside S (f a) (spec' a)) :
    SoundInside S (m >>= f)
      fun v => Spec.inside (binder v) >>= fun d => spec' (results d).1 (results d).2 where
  closes := h.closes.bind fun a => (hf a).closes
  follows := by
    intro outer s hscope
    apply (h.follows outer s hscope).bind_inside
    · intro env a d r hends
      rw [hends.2]
      exact (hf a).follows outer ⟨env, r⟩ hends.1
    · exact fun a => (hf a).closes

theorem ite {c : Prop} [Decidable c] {m' : Code E R α} {spec' : V → Spec R α}
    (h : SoundInside S m spec) (h' : SoundInside S m' spec') :
    SoundInside S (if c then m else m') fun v => if c then spec v else spec' v := by
  by_cases hc : c
  · simpa only [if_pos hc] using h
  · simpa only [if_neg hc] using h'

end SoundInside

namespace Binds

variable {δ ε : Type} {results : β → α × V} {results' : δ → γ × V} {m : Code E R α}
  {spec : V → Spec R β}

theorem pure {a : α} {b : V → β} (h : ∀ v, results (b v) = (a, v)) :
    Binds S results (Pure.pure a : Code E R α) fun v => Pure.pure (b v) where
  closes := .pure 0 a
  follows _ s hscope := ⟨s.env, a, rfl, hscope, h _⟩

theorem name {g : E → E} {g' : V → V} (hg : S.Binding g g') :
    Binds S (fun v => ((), v)) (Code.modifyEnv g : Code E R Unit)
      fun v => Pure.pure (g' v) where
  closes := .binding hg
  follows _ s hscope :=
    ⟨g s.env, (), rfl, hscope.binding hg, congrArg (Prod.mk ()) (hg.view s.env).symm⟩

theorem fail {x : RestCode R α} {y : RestCode R β}
    (h : ∀ r, ∃ r', x r = some (.error (), r') ∧ y r = some (.error (), r')) :
    Binds S results (Code.lift x) fun _ => Spec.lift y where
  closes := .lift x
  follows := by
    intro outer s hscope
    obtain ⟨r, hx, hy⟩ := h s.rest
    unfold Follows
    rw [Spec.lift, Code.lift, hx, hy]
    refine ⟨s.env, rfl, ?_⟩
    change S.depth outer < S.depth s.env
    rw [hscope.2]
    exact Nat.lt_succ_self _

theorem bind_lift {x : RestCode R ε} {f : ε → Code E R α} {spec' : ε → V → Spec R β}
    (hf : ∀ a, Binds S results (f a) (spec' a)) :
    Binds S results (Code.lift x >>= f) fun v => Spec.lift x >>= fun a => spec' a v where
  closes := (Closes.lift x).bind fun a => (hf a).closes
  follows := by
    intro outer s hscope
    have hlift : Follows S (S.depth outer + 1) (fun env => S.depth outer < S.depth env)
        (fun env a b => env = s.env ∧ a = b) s (Code.lift x) (Spec.lift x) := by
      apply Follows.lift
      · rw [hscope.2]
        exact Nat.lt_succ_self _
      · exact fun _ => ⟨rfl, rfl⟩
    apply hlift.bind
    · intro env a b r hends
      obtain ⟨rfl, rfl⟩ := hends
      exact (hf a).follows outer ⟨s.env, r⟩ hscope
    · exact fun a => (hf a).closes

theorem bind_name {g : E → E} {g' : V → V} (hg : S.Binding g g') (h : Binds S results m spec) :
    Binds S results (Code.modifyEnv g >>= fun _ => m) fun v => spec (g' v) where
  closes := (Closes.binding hg).bind fun _ => h.closes
  follows := by
    intro outer s hscope
    have hrest := h.follows outer ⟨g s.env, s.rest⟩ (hscope.binding hg)
    rw [hg.view] at hrest
    exact hrest

theorem bind {f : α → Code E R γ} {spec' : α → V → Spec R δ} (h : Binds S results m spec)
    (hf : ∀ a, Binds S results' (f a) (spec' a)) :
    Binds S results' (m >>= f)
      fun v => spec v >>= fun b => spec' (results b).1 (results b).2 where
  closes := h.closes.bind fun a => (hf a).closes
  follows := by
    intro outer s hscope
    apply (h.follows outer s hscope).bind
    · intro env a b r hends
      rw [hends.2]
      exact (hf a).follows outer ⟨env, r⟩ hends.1
    · exact fun a => (hf a).closes

theorem map (h : Binds S results m spec) (f : α → γ) (g : β → δ)
    (hresults : ∀ b, results' (g b) = (f (results b).1, (results b).2)) :
    Binds S results' (m >>= fun a => Pure.pure (f a))
      fun v => spec v >>= fun b => Pure.pure (g b) where
  closes := h.closes.bind fun a => .pure 0 (f a)
  follows := by
    intro outer s hscope
    apply (h.follows outer s hscope).bind
    · intro env a b r hends
      refine ⟨env, f a, rfl, hends.1, ?_⟩
      rw [hresults, hends.2]
    · exact fun a => .pure 0 (f a)

theorem ite {c : Prop} [Decidable c] {m' : Code E R α} {spec' : V → Spec R β}
    (h : Binds S results m spec) (h' : Binds S results m' spec') :
    Binds S results (if c then m else m') fun v => if c then spec v else spec' v := by
  by_cases hc : c
  · simpa only [if_pos hc] using h
  · simpa only [if_neg hc] using h'

end Binds

end Airl.Scoped
