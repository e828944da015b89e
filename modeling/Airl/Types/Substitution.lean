import Airl.Types.Ty
import Mathlib.Data.Finset.Card
import Mathlib.Data.Finset.Lattice.Basic

/-! # Substitutions of dimensions

What `apply_subst` makes of a dimension, as a relation that needs no bound on its recursion. Under
an acyclic substitution it makes something of every dimension, with no bound variable left and with
the same value.
-/

namespace Airl.Unify

/-- The value under an assignment; a difference below zero has none. -/
def DimExpr.value (ρ : Symbol → UInt64) : DimExpr → Option UInt64
  | .lit v => some v
  | .var v => some (ρ v)
  | .binOp op l r => do op.eval (← l.value ρ) (← r.value ρ)

def DimExpr.vars : DimExpr → Finset Symbol
  | .lit _ => ∅
  | .var v => {v}
  | .binOp _ l r => l.vars ∪ r.vars

def DimExpr.size : DimExpr → Nat
  | .lit _ => 1
  | .var _ => 1
  | .binOp _ l r => l.size + r.size + 1

theorem occurs_iff {v : Symbol} {d : DimExpr} : occurs v d = true ↔ v ∈ d.vars := by
  induction d with
  | lit n => simp [occurs, DimExpr.vars]
  | var w =>
    rw [occurs, beq_iff_eq, DimExpr.vars, Finset.mem_singleton]
    exact eq_comm
  | binOp op l r ihl ihr => simp [occurs, DimExpr.vars, ihl, ihr]

theorem evalDim_spec {d : DimExpr} {x : UInt64} (h : evalDim d = some x) :
    d.vars = ∅ ∧ ∀ ρ, d.value ρ = some x := by
  induction d generalizing x with
  | lit n => exact ⟨rfl, fun _ => h⟩
  | var v => cases h
  | binOp op l r ihl ihr =>
    obtain ⟨xl, hl, h⟩ := Option.bind_eq_some_iff.mp h
    obtain ⟨xr, hr, h⟩ := Option.bind_eq_some_iff.mp h
    obtain ⟨hlvars, hlvalue⟩ := ihl hl
    obtain ⟨hrvars, hrvalue⟩ := ihr hr
    refine ⟨by simp [DimExpr.vars, hlvars, hrvars], ?_⟩
    intro ρ
    simpa [DimExpr.value, hlvalue ρ, hrvalue ρ] using h

/-- The same value under every assignment. -/
def Same (a b : DimExpr) : Prop := ∀ ρ, a.value ρ = b.value ρ

/-- Both sides have a value and it is the same. -/
def Equal (ρ : Symbol → UInt64) (a b : DimExpr) : Prop :=
  ∃ x, a.value ρ = some x ∧ b.value ρ = some x

namespace DimSubst

/-- The binding of `v` mentions `w`. -/
def Mentions (subst : DimSubst) (w v : Symbol) : Prop :=
  ∃ d, subst.lookup v = some d ∧ w ∈ d.vars

/-- No chain of bindings goes on for ever. -/
def Acyclic (subst : DimSubst) : Prop := WellFounded subst.Mentions

def Extends (subst subst' : DimSubst) : Prop :=
  ∀ v d, subst.lookup v = some d → subst'.lookup v = some d

/-- The assignment gives each bound variable the value of its binding. -/
def Respects (subst : DimSubst) (ρ : Symbol → UInt64) : Prop :=
  ∀ v d, subst.lookup v = some d → d.value ρ = some (ρ v)

/-- No variable of the dimension is bound. -/
def Free (subst : DimSubst) (d : DimExpr) : Prop := ∀ w ∈ d.vars, subst.lookup w = none

variable {subst subst' subst'' : DimSubst}

theorem Extends.refl (subst : DimSubst) : subst.Extends subst := fun _ _ h => h

theorem Extends.trans (h : subst.Extends subst') (h' : subst'.Extends subst'') :
    subst.Extends subst'' := fun v d hd => h' v d (h v d hd)

theorem extends_insert {v : Symbol} (hfree : subst.lookup v = none) (d : DimExpr) :
    subst.Extends (subst.insert v d) := by
  intro w dw hw
  have hne : w ≠ v := by
    intro heq
    rw [heq, hfree] at hw
    cases hw
  rw [AList.lookup_insert_ne hne]
  exact hw

/-- A new binding to a dimension without bound variables closes no cycle. -/
theorem Acyclic.insert (h : subst.Acyclic) {v : Symbol} {d : DimExpr} (hd : subst.Free d)
    (hnot : v ∉ d.vars) :
    DimSubst.Acyclic (subst.insert v d) := by
  -- first what has no binding at all, then `v`, then what was bound before
  have hunbound : ∀ w, subst.lookup w = none → w ≠ v →
      Acc (DimSubst.Mentions (subst.insert v d)) w := by
    intro w hw hne
    constructor
    intro u hu
    obtain ⟨dw, hdw, -⟩ := hu
    rw [AList.lookup_insert_ne hne, hw] at hdw
    cases hdw
  have hself : Acc (DimSubst.Mentions (subst.insert v d)) v := by
    constructor
    intro u hu
    obtain ⟨dv, hdv, hmem⟩ := hu
    rw [AList.lookup_insert] at hdv
    cases hdv
    apply hunbound u (hd u hmem)
    intro heq
    exact hnot (heq ▸ hmem)
  constructor
  intro w
  induction w using h.induction with
  | _ w ih =>
    by_cases heq : w = v
    · exact heq ▸ hself
    · constructor
      intro u hu
      obtain ⟨dw, hdw, hmem⟩ := hu
      rw [AList.lookup_insert_ne heq] at hdw
      exact ih u ⟨dw, hdw, hmem⟩

end DimSubst

/-- `d'` is what `apply_subst` makes of `d`. -/
inductive Applies (subst : DimSubst) : DimExpr → DimExpr → Prop where
  | lit (n : UInt64) : Applies subst (.lit n) (.lit n)
  | free {v : Symbol} (hv : subst.lookup v = none) : Applies subst (.var v) (.var v)
  | bound {v : Symbol} {d d' : DimExpr} (hv : subst.lookup v = some d)
      (hd : Applies subst d d') : Applies subst (.var v) d'
  | binOp (op : DimOp) {l r l' r' : DimExpr} (hl : Applies subst l l')
      (hr : Applies subst r r') : Applies subst (.binOp op l r) (.binOp op l' r')

section Applying

variable {subst subst' : DimSubst} {d d' d'' : DimExpr}

theorem applies_of_applySubst {fuel : Nat} (h : applySubst subst fuel d = some d') :
    Applies subst d d' := by
  induction fuel generalizing d d' with
  | zero => cases h
  | succ fuel ih =>
    cases d with
    | lit n =>
      cases h
      exact .lit n
    | var v =>
      rw [applySubst] at h
      split at h
      next replacement hv => exact .bound hv (ih h)
      next hv =>
        cases h
        exact .free hv
    | binOp op l r =>
      obtain ⟨l', hl, h⟩ := Option.bind_eq_some_iff.mp h
      obtain ⟨r', hr, h⟩ := Option.bind_eq_some_iff.mp h
      cases h
      exact .binOp op (ih hl) (ih hr)

theorem Applies.returns (h : Applies subst d d') :
    ∃ enough, ∀ fuel, enough ≤ fuel → applySubst subst fuel d = some d' := by
  induction h with
  | lit n =>
    refine ⟨1, fun fuel hfuel => ?_⟩
    obtain ⟨fuel, rfl⟩ := Nat.exists_eq_succ_of_ne_zero (Nat.pos_iff_ne_zero.mp hfuel)
    rfl
  | free hv =>
    refine ⟨1, fun fuel hfuel => ?_⟩
    obtain ⟨fuel, rfl⟩ := Nat.exists_eq_succ_of_ne_zero (Nat.pos_iff_ne_zero.mp hfuel)
    simp only [applySubst, hv]
  | bound hv _ ih =>
    obtain ⟨enough, ih⟩ := ih
    refine ⟨enough + 1, fun fuel hfuel => ?_⟩
    obtain ⟨fuel, rfl⟩ := Nat.exists_eq_succ_of_ne_zero (Nat.ne_zero_of_lt hfuel)
    simp only [applySubst, hv]
    exact ih fuel (Nat.le_of_succ_le_succ hfuel)
  | binOp op _ _ ihl ihr =>
    obtain ⟨enoughl, ihl⟩ := ihl
    obtain ⟨enoughr, ihr⟩ := ihr
    refine ⟨max enoughl enoughr + 1, fun fuel hfuel => ?_⟩
    obtain ⟨fuel, rfl⟩ := Nat.exists_eq_succ_of_ne_zero (Nat.ne_zero_of_lt hfuel)
    have hmax := Nat.le_of_succ_le_succ hfuel
    simp only [applySubst, ihl fuel (le_of_max_le_left hmax), ihr fuel (le_of_max_le_right hmax)]
    rfl

theorem Applies.unique (h : Applies subst d d') (h' : Applies subst d d'') : d' = d'' := by
  induction h generalizing d'' with
  | lit n =>
    cases h'
    rfl
  | free hv =>
    cases h' with
    | free => rfl
    | bound hv' =>
      rw [hv] at hv'
      cases hv'
  | bound hv _ ih =>
    cases h' with
    | free hv' =>
      rw [hv] at hv'
      cases hv'
    | bound hv' hd' =>
      rw [hv] at hv'
      cases hv'
      exact ih hd'
  | binOp op _ _ ihl ihr =>
    cases h' with
    | binOp _ hl' hr' => rw [ihl hl', ihr hr']

theorem DimSubst.Acyclic.applies (h : subst.Acyclic) (d : DimExpr) : ∃ d', Applies subst d d' := by
  have hexpr : ∀ d : DimExpr, (∀ v ∈ d.vars, ∃ d', Applies subst (.var v) d') →
      ∃ d', Applies subst d d' := by
    intro d
    induction d with
    | lit n => exact fun _ => ⟨_, .lit n⟩
    | var v => exact fun hvars => hvars v (Finset.mem_singleton_self v)
    | binOp op l r ihl ihr =>
      intro hvars
      obtain ⟨l', hl⟩ := ihl fun v hv => hvars v (Finset.mem_union_left _ hv)
      obtain ⟨r', hr⟩ := ihr fun v hv => hvars v (Finset.mem_union_right _ hv)
      exact ⟨_, .binOp op hl hr⟩
  have hvar : ∀ v, ∃ d', Applies subst (.var v) d' := by
    intro v
    induction v using h.induction with
    | _ v ih =>
      cases hv : subst.lookup v with
      | none => exact ⟨_, .free hv⟩
      | some bound =>
        obtain ⟨d', hd'⟩ := hexpr bound fun w hw => ih w ⟨bound, hv, hw⟩
        exact ⟨d', .bound hv hd'⟩
  exact hexpr d fun v _ => hvar v

theorem Applies.isFree (h : Applies subst d d') : subst.Free d' := by
  induction h with
  | lit n => simp [DimSubst.Free, DimExpr.vars]
  | free hv => simpa [DimSubst.Free, DimExpr.vars] using hv
  | bound _ _ ih => exact ih
  | binOp op _ _ ihl ihr =>
    intro w hw
    rcases Finset.mem_union.mp hw with hw | hw
    · exact ihl w hw
    · exact ihr w hw

theorem DimSubst.Free.applies (h : subst.Free d) : Applies subst d d := by
  induction d with
  | lit n => exact .lit n
  | var v => exact .free (h v (Finset.mem_singleton_self v))
  | binOp op l r ihl ihr =>
    apply Applies.binOp op
    · exact ihl fun w hw => h w (Finset.mem_union_left _ hw)
    · exact ihr fun w hw => h w (Finset.mem_union_right _ hw)

theorem Applies.value (h : Applies subst d d') {ρ : Symbol → UInt64} (hρ : subst.Respects ρ) :
    d'.value ρ = d.value ρ := by
  induction h with
  | lit n => rfl
  | free hv => rfl
  | bound hv _ ih => rw [ih, hρ _ _ hv, DimExpr.value]
  | binOp op _ _ ihl ihr => rw [DimExpr.value, ihl, ihr, DimExpr.value]

/-- A larger substitution makes the same of a dimension and of what a smaller one made of it. -/
theorem Applies.extend_iff (h : Applies subst d d') (hext : subst.Extends subst') :
    Applies subst' d d'' ↔ Applies subst' d' d'' := by
  induction h generalizing d'' with
  | lit n => exact Iff.rfl
  | free hv => exact Iff.rfl
  | bound hv _ ih =>
    have hv' := hext _ _ hv
    constructor
    · intro happlies
      cases happlies with
      | free hnone =>
        rw [hv'] at hnone
        cases hnone
      | bound hsome hd =>
        rw [hv'] at hsome
        cases hsome
        exact ih.mp hd
    · exact fun happlies => .bound hv' (ih.mpr happlies)
  | binOp op _ _ ihl ihr =>
    constructor
    · rintro (_ | _ | _ | ⟨_, hl, hr⟩)
      exact .binOp op (ihl.mp hl) (ihr.mp hr)
    · rintro (_ | _ | _ | ⟨_, hl, hr⟩)
      exact .binOp op (ihl.mpr hl) (ihr.mpr hr)

/-- The variables stay within a set that the bindings do not leave. -/
theorem Applies.vars_subset (h : Applies subst d d') {V : Finset Symbol} (hd : d.vars ⊆ V)
    (hV : ∀ v ∈ V, ∀ bound, subst.lookup v = some bound → bound.vars ⊆ V) : d'.vars ⊆ V := by
  induction h with
  | lit n => exact hd
  | free hv => exact hd
  | bound hv _ ih => exact ih (hV _ (hd (Finset.mem_singleton_self _)) _ hv)
  | binOp op _ _ ihl ihr =>
    apply Finset.union_subset
    · exact ihl (Finset.union_subset_left hd)
    · exact ihr (Finset.union_subset_right hd)

end Applying

end Airl.Unify
