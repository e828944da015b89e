import Airl.Types.Unification

/-! # What dimension unification settles

What a success binds makes the sides equal. A failure says that the sides do not match, which is
less than that they have no common value, and leaves what was bound before it.
-/

namespace Airl.Unify

/-- Applied to both sides, the substitution makes the same dimension of them, and every assignment
that respects it gives them one value. -/
structure MadeEqual (subst : DimSubst) (a b : DimExpr) : Prop where
  applied : ∃ a' b', Applies subst a a' ∧ Applies subst b b' ∧ Same a' b'
  instances : ∀ ρ, subst.Respects ρ → a.value ρ = b.value ρ

/-- The unification returns. What it answers with success extends the substitution, is acyclic and
makes the sides equal; after a failure no assignment that respects the substitution makes the sides
equal, and the substitution is what it was. -/
def UnifiesExactly (subst : DimSubst) (a b : DimExpr) : Prop :=
  ∃ answer subst', Returns subst a b (answer, subst') ∧
    (answer = .ok () → subst.Extends subst' ∧ subst'.Acyclic ∧ MadeEqual subst' a b) ∧
    (answer ≠ .ok () → (∀ ρ, subst.Respects ρ → ¬ Equal ρ a b) ∧ subst' = subst)

/-- The sides match, or no assignment makes them equal and they clash before a variable is
bound. -/
def Settled (subst : DimSubst) (a b : DimExpr) : Prop :=
  ∃ a' b', Applies subst a a' ∧ Applies subst b b' ∧
    ((∃ subst', Unifies subst a' b' subst') ∨
      (∀ ρ, subst.Respects ρ → ¬ Equal ρ a b) ∧ Clashes subst a' b')

section Law

variable {subst subst' : DimSubst} {a b a' b' : DimExpr}

theorem MadeEqual.of_applied (ha : Applies subst a a') (hb : Applies subst b b')
    (h : Same a' b') : MadeEqual subst a b where
  applied := ⟨a', b', ha, hb, h⟩
  instances := by
    intro ρ hρ
    rw [← ha.value hρ, ← hb.value hρ]
    exact h ρ

theorem Unifies.madeEqual (h : Unifies subst a' b' subst') (ha : Applies subst a a')
    (hb : Applies subst b b') {larger : DimSubst} (hext : DimSubst.Extends subst' larger)
    (hlarger : larger.Acyclic) : MadeEqual larger a b := by
  have hfrom := (h.binds ha.isFree hb.isFree).extends_.trans hext
  obtain ⟨a'', ha'⟩ := hlarger.applies a'
  obtain ⟨b'', hb'⟩ := hlarger.applies b'
  apply MadeEqual.of_applied ((ha.extend_iff hfrom).mpr ha') ((hb.extend_iff hfrom).mpr hb')
  exact h.isSame ha.isFree hb.isFree hext ha' hb'

theorem unifiesExactly_iff (hacyclic : subst.Acyclic) (a b : DimExpr) :
    UnifiesExactly subst a b ↔ Settled subst a b := by
  constructor
  · rintro ⟨answer, subst', hreturns, -, hfailed⟩
    obtain ⟨a', b', ha, hb, hsettles⟩ := hreturns.settles
    refine ⟨a', b', ha, hb, ?_⟩
    cases answer with
    | ok u => exact .inl ⟨subst', hsettles⟩
    | error e =>
      obtain ⟨hunsolvable, heq⟩ := hfailed nofun
      exact .inr ⟨hunsolvable, hsettles.2.2.mp heq⟩
  · rintro ⟨a', b', ha, hb, hcondition⟩
    obtain ⟨⟨answer, subst'⟩, hreturns⟩ := unifyDim_returns hacyclic a b
    obtain ⟨a'', b'', ha', hb', hsettles⟩ := hreturns.settles
    cases ha.unique ha'
    cases hb.unique hb'
    refine ⟨answer, subst', hreturns, ?_⟩
    cases answer with
    | ok u =>
      have hbinds := Unifies.binds hsettles ha.isFree hb.isFree
      refine ⟨fun _ => ⟨hbinds.extends_, hbinds.acyclic hacyclic, ?_⟩, fun h => absurd rfl h⟩
      exact Unifies.madeEqual hsettles ha hb (.refl subst') (hbinds.acyclic hacyclic)
    | error e =>
      refine ⟨nofun, fun _ => ?_⟩
      rcases hcondition with ⟨other, hunifies⟩ | ⟨hunsolvable, hclashes⟩
      · exact absurd hunifies (hsettles.1 other)
      · exact ⟨hunsolvable, hsettles.2.2.mpr hclashes⟩

end Law

/-- The dimensions match one after another. -/
inductive UnifiesAll : DimSubst → List DimExpr → List DimExpr → DimSubst → Prop where
  | nil (subst : DimSubst) : UnifiesAll subst [] [] subst
  | cons {subst middle subst' : DimSubst} {a b a' b' : DimExpr} {as bs : List DimExpr}
      (ha : Applies subst a a') (hb : Applies subst b b') (h : Unifies subst a' b' middle)
      (hrest : UnifiesAll middle as bs subst') : UnifiesAll subst (a :: as) (b :: bs) subst'

/-- The dimensions clash before a variable is bound. -/
inductive ClashesAll (subst : DimSubst) : List DimExpr → List DimExpr → Prop where
  | head {a b a' b' : DimExpr} {as bs : List DimExpr} (ha : Applies subst a a')
      (hb : Applies subst b b') (h : Clashes subst a' b') : ClashesAll subst (a :: as) (b :: bs)
  | tail {a b a' b' : DimExpr} {as bs : List DimExpr} (ha : Applies subst a a')
      (hb : Applies subst b b') (h : Unifies subst a' b' subst) (hrest : ClashesAll subst as bs) :
      ClashesAll subst (a :: as) (b :: bs)

def SettlesAll (subst : DimSubst) (as bs : List DimExpr) :
    Except String Unit × DimSubst → Prop
  | (.ok _, subst') => UnifiesAll subst as bs subst'
  | (.error _, subst') =>
    (∀ other, ¬ UnifiesAll subst as bs other) ∧ subst.Extends subst' ∧
      (subst' = subst ↔ ClashesAll subst as bs)

/-- Each pair of dimensions is asked of as one is, with one answer for all. -/
def ShapesUnifyExactly (subst : DimSubst) (as bs : List DimExpr) : Prop :=
  ∃ answer subst',
    (∃ enough, ∀ fuel, enough ≤ fuel → unifyShapes fuel as bs subst = some (answer, subst')) ∧
    (answer = true →
      subst.Extends subst' ∧ subst'.Acyclic ∧ List.Forall₂ (MadeEqual subst') as bs) ∧
    (answer = false →
      (∀ ρ, subst.Respects ρ → ¬ List.Forall₂ (Equal ρ) as bs) ∧ subst' = subst)

def ShapesSettled (subst : DimSubst) (as bs : List DimExpr) : Prop :=
  as.length ≠ bs.length ∨ (∃ subst', UnifiesAll subst as bs subst') ∨
    (∀ ρ, subst.Respects ρ → ¬ List.Forall₂ (Equal ρ) as bs) ∧ ClashesAll subst as bs

section Shapes

variable {subst subst' middle : DimSubst} {a b : DimExpr} {as bs : List DimExpr}

theorem UnifiesAll.extends_ (h : UnifiesAll subst as bs subst') :
    subst.Extends subst' ∧ (subst.Acyclic → subst'.Acyclic) := by
  induction h with
  | nil subst => exact ⟨.refl subst, id⟩
  | cons ha hb h _ ih =>
    have hbinds := h.binds ha.isFree hb.isFree
    exact ⟨hbinds.extends_.trans ih.1, fun hacyclic => ih.2 (hbinds.acyclic hacyclic)⟩

theorem UnifiesAll.madeEqual (h : UnifiesAll subst as bs subst') (hacyclic : subst'.Acyclic) :
    List.Forall₂ (MadeEqual subst') as bs := by
  induction h with
  | nil => exact .nil
  | cons ha hb h hrest ih =>
    exact .cons (h.madeEqual ha hb hrest.extends_.1 hacyclic) (ih hacyclic)

theorem settlesAll_of_head {e : String} {a' b' : DimExpr} (ha : Applies subst a a')
    (hb : Applies subst b b') (h : Settles subst a' b' (.error e, subst')) :
    SettlesAll subst (a :: as) (b :: bs) (.error e, subst') := by
  obtain ⟨hno, hext, hiff⟩ := h
  refine ⟨?_, hext, ?_, ?_⟩
  · intro other hother
    cases hother with
    | cons ha' hb' hfirst _ =>
      cases ha.unique ha'
      cases hb.unique hb'
      exact hno _ hfirst
  · exact fun heq => .head ha hb (hiff.mp heq)
  · intro hclashes
    cases hclashes with
    | head ha' hb' hfirst =>
      cases ha.unique ha'
      cases hb.unique hb'
      exact hiff.mpr hfirst
    | tail ha' hb' hfirst _ =>
      cases ha.unique ha'
      cases hb.unique hb'
      exact absurd hfirst (hno _)

theorem settlesAll_of_tail {result : Except String Unit × DimSubst} {a' b' : DimExpr}
    (ha : Applies subst a a') (hb : Applies subst b b') (h : Unifies subst a' b' middle)
    (hrest : SettlesAll middle as bs result) :
    SettlesAll subst (a :: as) (b :: bs) result := by
  have hbinds := h.binds ha.isFree hb.isFree
  obtain ⟨answer, subst'⟩ := result
  cases answer with
  | ok u => exact .cons ha hb h hrest
  | error e =>
    obtain ⟨hno, hext, hiff⟩ := hrest
    refine ⟨?_, hbinds.extends_.trans hext, ?_, ?_⟩
    · intro other hother
      cases hother with
      | cons ha' hb' hfirst hlater =>
        cases ha.unique ha'
        cases hb.unique hb'
        cases h.unique hfirst
        exact hno other hlater
    · rintro rfl
      rcases hbinds.progress with rfl | ⟨v, _, hnone, hsome⟩
      · exact .tail ha hb h (hiff.mp rfl)
      · obtain ⟨d, hd⟩ := Option.ne_none_iff_exists'.mp hsome
        rw [hext v d hd] at hnone
        cases hnone
    · intro hclashes
      cases hclashes with
      | head ha' hb' hfirst =>
        cases ha.unique ha'
        cases hb.unique hb'
        exact absurd h (hfirst.not_unifies ha.isFree hb.isFree)
      | tail ha' hb' hfirst hlater =>
        cases ha.unique ha'
        cases hb.unique hb'
        cases h.unique hfirst
        exact hiff.mpr hlater

theorem unifyDims_settles (hacyclic : subst.Acyclic) (hlength : as.length = bs.length) :
    ∃ result, (∃ enough, ∀ fuel, enough ≤ fuel → unifyDims fuel as bs subst = some result) ∧
      SettlesAll subst as bs result := by
  induction as generalizing bs subst with
  | nil =>
    cases bs with
    | nil => exact ⟨_, ⟨0, fun _ _ => rfl⟩, .nil subst⟩
    | cons b bs => cases hlength
  | cons a as ih =>
    cases bs with
    | nil => cases hlength
    | cons b bs =>
      obtain ⟨⟨answer, middle⟩, hreturns⟩ := unifyDim_returns hacyclic a b
      obtain ⟨a', b', ha, hb, hsettles⟩ := hreturns.settles
      obtain ⟨enough, hreturns⟩ := hreturns
      cases answer with
      | error e =>
        refine ⟨(.error e, middle), ⟨enough, fun fuel hfuel => ?_⟩,
          settlesAll_of_head ha hb hsettles⟩
        rw [unifyDims, hreturns fuel hfuel, andThen]
      | ok u =>
        have hmiddle := (Unifies.binds hsettles ha.isFree hb.isFree).acyclic hacyclic
        obtain ⟨result, ⟨later, hlater⟩, hrest⟩ := ih hmiddle (Nat.succ.inj hlength)
        refine ⟨result, ⟨max enough later, fun fuel hfuel => ?_⟩,
          settlesAll_of_tail ha hb hsettles hrest⟩
        rw [unifyDims, hreturns fuel (le_of_max_le_left hfuel), andThen]
        exact hlater fuel (le_of_max_le_right hfuel)

theorem shapesUnifyExactly_iff (hacyclic : subst.Acyclic) (as bs : List DimExpr) :
    ShapesUnifyExactly subst as bs ↔ ShapesSettled subst as bs := by
  by_cases hlength : as.length = bs.length
  · obtain ⟨⟨answer, subst'⟩, ⟨enough, hreturns⟩, hsettles⟩ :=
      unifyDims_settles hacyclic hlength
    cases answer with
    | ok u =>
      have hshapes : ∀ fuel, enough ≤ fuel → unifyShapes fuel as bs subst =
          some (true, subst') := by
        intro fuel hfuel
        rw [unifyShapes, if_neg (not_not_intro hlength), hreturns fuel hfuel]
      obtain ⟨hext, hkeeps⟩ := UnifiesAll.extends_ hsettles
      refine iff_of_true ?_ (.inr (.inl ⟨subst', hsettles⟩))
      refine ⟨true, subst', ⟨enough, hshapes⟩, fun _ => ?_, nofun⟩
      exact ⟨hext, hkeeps hacyclic, UnifiesAll.madeEqual hsettles (hkeeps hacyclic)⟩
    | error e =>
      have hshapes : ∀ fuel, enough ≤ fuel →
          unifyShapes fuel as bs subst = some (false, subst') := by
        intro fuel hfuel
        rw [unifyShapes, if_neg (not_not_intro hlength), hreturns fuel hfuel]
      obtain ⟨hno, -, hiff⟩ := hsettles
      constructor
      · rintro ⟨answer, other, ⟨enough', hreturns'⟩, -, hfailed⟩
        have heq := hshapes _ (Nat.le_max_left enough enough')
        rw [hreturns' _ (Nat.le_max_right enough enough')] at heq
        cases heq
        obtain ⟨hunsolvable, heq⟩ := hfailed rfl
        exact .inr (.inr ⟨hunsolvable, hiff.mp heq⟩)
      · rintro (hne | ⟨other, hunifies⟩ | ⟨hunsolvable, hclashes⟩)
        · exact absurd hlength hne
        · exact absurd hunifies (hno other)
        · refine ⟨false, subst', ⟨enough, hshapes⟩, nofun, fun _ => ?_⟩
          exact ⟨hunsolvable, hiff.mpr hclashes⟩
  · refine iff_of_true ?_ (.inl hlength)
    refine ⟨false, subst, ⟨0, fun fuel _ => if_pos hlength⟩, nofun, fun _ => ⟨?_, rfl⟩⟩
    intro ρ _ hall
    exact hlength hall.length_eq

end Shapes

/-- From every acyclic substitution, unification of two dimensions and of two shapes does what is
asked of it exactly where the sides match, or have no common value and clash before a variable is
bound. -/
theorem unification_exact_iff {subst : DimSubst} (hacyclic : subst.Acyclic) :
    (∀ a b, UnifiesExactly subst a b ↔ Settled subst a b) ∧
      ∀ as bs, ShapesUnifyExactly subst as bs ↔ ShapesSettled subst as bs :=
  ⟨unifiesExactly_iff hacyclic, shapesUnifyExactly_iff hacyclic⟩

theorem acyclic_empty : DimSubst.Acyclic ∅ := by
  constructor
  intro v
  constructor
  rintro w ⟨d, hd, -⟩
  cases hd

/-- A variable unifies with a literal, alone and as the only dimension of a shape. -/
theorem variable_unifies :
    UnifiesExactly ∅ (.var 0) (.lit 3) ∧ ShapesUnifyExactly ∅ [.var 0] [.lit 3] := by
  have ha : Applies ∅ (.var 0) (.var 0) := .free rfl
  have hunifies : Unifies ∅ (.var 0) (.lit 3) (AList.insert 0 (.lit 3) ∅) :=
    .left ∅ (Finset.notMem_empty 0)
  constructor
  · apply ((unification_exact_iff acyclic_empty).1 _ _).mpr
    exact ⟨_, _, ha, .lit 3, .inl ⟨_, hunifies⟩⟩
  · apply ((unification_exact_iff acyclic_empty).2 _ _).mpr
    exact .inr (.inl ⟨_, .cons ha (.lit 3) hunifies (.nil _)⟩)

/-- `(+ M n)`. -/
def sumWithM (n : UInt64) : DimExpr := .binOp .add (.var 0) (.lit n)

/-- `(+ M 1)` and `3` do not unify although `M` may be two; `(+ M 2)` and `(+ 5 3)` do not unify
and leave `M` bound to five. -/
theorem sums_not_exact :
    ¬ UnifiesExactly ∅ (sumWithM 1) (.lit 3) ∧
    ¬ UnifiesExactly ∅ (sumWithM 2) (.binOp .add (.lit 5) (.lit 3)) := by
  constructor
  · have hreturns : Returns ∅ (sumWithM 1) (.lit 3)
        (.error (cannotUnify (sumWithM 1) (.lit 3)), ∅) := by
      refine ⟨4, fun fuel hfuel => ?_⟩
      obtain ⟨k, rfl⟩ := Nat.exists_eq_add_of_le' hfuel
      rfl
    rintro ⟨answer, subst', hreturns', -, hfailed⟩
    cases hreturns.unique hreturns'
    apply (hfailed nofun).1 (fun _ => 2)
    · intro v d hd
      cases hd
    · exact ⟨3, by decide, by decide⟩
  · have hreturns : Returns ∅ (sumWithM 2) (.binOp .add (.lit 5) (.lit 3))
        (.error (dimensionMismatch 2 3), AList.insert 0 (.lit 5) ∅) := by
      refine ⟨5, fun fuel hfuel => ?_⟩
      obtain ⟨k, rfl⟩ := Nat.exists_eq_add_of_le' hfuel
      rfl
    rintro ⟨answer, subst', hreturns', -, hfailed⟩
    cases hreturns.unique hreturns'
    have hunbound : (AList.insert 0 (.lit 5) ∅ : DimSubst).lookup 0 = none := by
      rw [(hfailed nofun).2]
      rfl
    rw [AList.lookup_insert] at hunbound
    cases hunbound

end Airl.Unify
