import Airl.Library.Scoped
import Airl.Types.Ty
import Mathlib.Logic.Function.Basic

/-! # The type environment

`env.rs`, without the registered types. A name stands for its interned identifier; the innermost
scope and the latest binding come first.
-/

namespace Airl

structure TypeEnv where
  depth : Nat
  shadow : String → Option (Ty × Nat)
  scopeBindings : List (List (String × Option (Ty × Nat)))
  scopes_length : scopeBindings.length = depth + 1

namespace TypeEnv

def new : TypeEnv := ⟨0, fun _ => none, [[]], rfl⟩

def pushScope (env : TypeEnv) : TypeEnv where
  depth := env.depth + 1
  shadow := env.shadow
  scopeBindings := [] :: env.scopeBindings
  scopes_length := congrArg (· + 1) env.scopes_length

/-- The bindings of a scope undone, the latest first. -/
def restore (shadow : String → Option (Ty × Nat)) (bindings : List (String × Option (Ty × Nat))) :
    String → Option (Ty × Nat) :=
  bindings.foldl (fun shadow b => Function.update shadow b.1 b.2) shadow

def popScope (env : TypeEnv) : TypeEnv :=
  if h : env.depth = 0 then env
  else
    { depth := env.depth - 1
      shadow := restore env.shadow (env.scopeBindings.headD [])
      scopeBindings := env.scopeBindings.tail
      scopes_length := by
        rw [List.length_tail, env.scopes_length]
        omega }

/-- The scopes with a binding added to the innermost one. -/
def record (b : String × Option (Ty × Nat)) :
    List (List (String × Option (Ty × Nat))) → List (List (String × Option (Ty × Nat)))
  | [] => []
  | scope :: scopes => (b :: scope) :: scopes

theorem length_record (b : String × Option (Ty × Nat))
    (scopes : List (List (String × Option (Ty × Nat)))) :
    (record b scopes).length = scopes.length := by
  cases scopes <;> rfl

def bind (env : TypeEnv) (name : String) (ty : Ty) : TypeEnv where
  depth := env.depth
  shadow := Function.update env.shadow name (some (ty, env.depth))
  scopeBindings := record (name, env.shadow name) env.scopeBindings
  scopes_length := (length_record _ _).trans env.scopes_length

def lookup (env : TypeEnv) (name : String) : Option Ty := (env.shadow name).map Prod.fst

theorem ext_of_eq {env env' : TypeEnv} (hdepth : env.depth = env'.depth)
    (hshadow : env.shadow = env'.shadow) (hscopes : env.scopeBindings = env'.scopeBindings) :
    env = env' := by
  cases env
  cases env'
  cases hdepth
  cases hshadow
  cases hscopes
  rfl

theorem popScope_of_pos (env : TypeEnv) (h : 0 < env.depth) :
    env.popScope.depth = env.depth - 1 ∧
      env.popScope.shadow = restore env.shadow (env.scopeBindings.headD []) ∧
      env.popScope.scopeBindings = env.scopeBindings.tail := by
  unfold popScope
  rw [dif_neg (Nat.ne_of_gt h)]
  exact ⟨rfl, rfl, rfl⟩

theorem depth_popScope (env : TypeEnv) : env.depth ≤ env.popScope.depth + 1 := by
  by_cases h : env.depth = 0
  · omega
  · rw [(popScope_of_pos env (Nat.pos_of_ne_zero h)).1]
    omega

theorem depth_pushScope (env : TypeEnv) : env.pushScope.depth = env.depth + 1 := rfl

theorem depth_bind (env : TypeEnv) (name : String) (ty : Ty) :
    (env.bind name ty).depth = env.depth := rfl

theorem shadow_bind (env : TypeEnv) (name : String) (ty : Ty) :
    (env.bind name ty).shadow = Function.update env.shadow name (some (ty, env.depth)) := rfl

theorem scopeBindings_bind (env : TypeEnv) (name : String) (ty : Ty) :
    (env.bind name ty).scopeBindings = record (name, env.shadow name) env.scopeBindings := rfl

theorem tail_record (b : String × Option (Ty × Nat))
    (scopes : List (List (String × Option (Ty × Nat)))) : (record b scopes).tail = scopes.tail := by
  cases scopes <;> rfl

theorem popScope_pushScope (env : TypeEnv) : env.pushScope.popScope = env := by
  obtain ⟨hdepth, hshadow, hscopes⟩ := popScope_of_pos env.pushScope (Nat.succ_pos env.depth)
  exact ext_of_eq hdepth hshadow hscopes

theorem popScope_bind {env : TypeEnv} (h : 0 < env.depth) (name : String) (ty : Ty) :
    (env.bind name ty).popScope = env.popScope := by
  obtain ⟨hdepth, hshadow, hscopes⟩ := popScope_of_pos env h
  obtain ⟨hdepth', hshadow', hscopes'⟩ := popScope_of_pos (env.bind name ty) h
  apply ext_of_eq
  · rw [hdepth, hdepth']
    rfl
  · rw [hshadow, hshadow', shadow_bind, scopeBindings_bind]
    cases hlist : env.scopeBindings with
    | nil =>
      have hlength := env.scopes_length
      rw [hlist] at hlength
      cases hlength
    | cons scope scopes =>
      change restore (Function.update (Function.update env.shadow name _) name _) scope = _
      rw [Function.update_idem, Function.update_eq_self]
      rfl
  · rw [hscopes, hscopes', scopeBindings_bind, tail_record]

theorem lookup_bind (env : TypeEnv) (name : String) (ty : Ty) :
    (env.bind name ty).lookup = Function.update env.lookup name (some ty) := by
  funext other
  by_cases h : other = name
  · subst h
    rw [lookup, shadow_bind, Function.update_self, Function.update_self]
    rfl
  · rw [lookup, shadow_bind, Function.update_of_ne h, Function.update_of_ne h]
    rfl

/-- The scopes of the environment, by what is visible in them. -/
def scoping : Scoped.Scoping TypeEnv (String → Option Ty) where
  depth := depth
  push := pushScope
  pop := popScope
  view := lookup
  depth_push := depth_pushScope
  depth_pop := depth_popScope
  pop_push := popScope_pushScope
  view_push _ := rfl

theorem scoping_bind (name : String) (ty : Ty) :
    scoping.Binding (·.bind name ty) (Function.update · name (some ty)) where
  depth env := depth_bind env name ty
  pop _ h := popScope_bind h name ty
  view env := lookup_bind env name ty

end TypeEnv

end Airl
