import Airl.Types.Substitution

/-! # Sides that match

Unification succeeds exactly on sides that match part by part. It returns under every acyclic
substitution, since each call on parts is about smaller sides or about fewer variables.
-/

namespace Airl.Unify

/-- Two operations of one kind. -/
def SameOp : DimExpr → DimExpr → Prop
  | .binOp op _ _, .binOp op' _ _ => op = op'
  | _, _ => False

/-- The sides, to which `subst` has been applied, match part by part: equal literals, a variable
and what it does not occur in, operations of one kind, or else closed dimensions of one value. -/
inductive Unifies : DimSubst → DimExpr → DimExpr → DimSubst → Prop where
  | lit (subst : DimSubst) (n : UInt64) : Unifies subst (.lit n) (.lit n) subst
  | same (subst : DimSubst) (v : Symbol) : Unifies subst (.var v) (.var v) subst
  | left (subst : DimSubst) {v : Symbol} {d : DimExpr} (hnot : v ∉ d.vars) :
      Unifies subst (.var v) d (subst.insert v d)
  | right (subst : DimSubst) {v : Symbol} {d : DimExpr} (hnot : v ∉ d.vars)
      (hvar : ∀ w, d ≠ .var w) : Unifies subst d (.var v) (subst.insert v d)
  | parts (op : DimOp) {subst middle subst' : DimSubst} {l r r' : DimExpr}
      {l₂ r₂ r₂' : DimExpr} (hl : Unifies subst l l₂ middle) (hr : Applies middle r r')
      (hr₂ : Applies middle r₂ r₂') (hparts : Unifies middle r' r₂' subst') :
      Unifies subst (.binOp op l r) (.binOp op l₂ r₂) subst'
  | closed (subst : DimSubst) {a b : DimExpr} {x : UInt64} (hop : ¬ SameOp a b)
      (ha : evalDim a = some x) (hb : evalDim b = some x) : Unifies subst a b subst

/-- The sides do not match, and no variable is bound before the first parts that do not. -/
inductive Clashes : DimSubst → DimExpr → DimExpr → Prop where
  | here {subst : DimSubst} {a b : DimExpr} (hop : ¬ SameOp a b)
      (hno : ∀ subst', ¬ Unifies subst a b subst') : Clashes subst a b
  | left (op : DimOp) {subst : DimSubst} {l r l₂ r₂ : DimExpr} (hl : Clashes subst l l₂) :
      Clashes subst (.binOp op l r) (.binOp op l₂ r₂)
  | right (op : DimOp) {subst : DimSubst} {l r l₂ r₂ : DimExpr} (hl : Unifies subst l l₂ subst)
      (hr : Clashes subst r r₂) : Clashes subst (.binOp op l r) (.binOp op l₂ r₂)

/-- What unification within the variables `V` has bound. -/
structure Binds (subst : DimSubst) (V : Finset Symbol) (subst' : DimSubst) : Prop where
  extends_ : subst.Extends subst'
  within : ∀ v d, subst'.lookup v = some d → subst.lookup v = none → v ∈ V ∧ d.vars ⊆ V
  acyclic : subst.Acyclic → subst'.Acyclic
  progress : subst' = subst ∨ ∃ v ∈ V, subst.lookup v = none ∧ subst'.lookup v ≠ none

section Matching

variable {subst subst' middle : DimSubst} {a b d : DimExpr} {V : Finset Symbol} {v : Symbol}

theorem Binds.refl (subst : DimSubst) (V : Finset Symbol) : Binds subst V subst where
  extends_ := .refl subst
  within := by
    intro v d hd hnone
    rw [hd] at hnone
    cases hnone
  acyclic := id
  progress := .inl rfl

/-- Bindings add up. -/
theorem Binds.trans (h : Binds subst V middle) (h' : Binds middle V subst') :
    Binds subst V subst' where
  extends_ := h.extends_.trans h'.extends_
  within := by
    intro v d hd hnone
    cases hmiddle : middle.lookup v with
    | none => exact h'.within v d hd hmiddle
    | some dm =>
      have hdm := h'.extends_ v dm hmiddle
      rw [hd] at hdm
      cases hdm
      exact h.within v d hmiddle hnone
  acyclic := fun hacyclic => h'.acyclic (h.acyclic hacyclic)
  progress := by
    rcases h.progress with rfl | ⟨v, hv, hnone, hsome⟩
    · exact h'.progress
    · obtain ⟨d, hd⟩ := Option.ne_none_iff_exists'.mp hsome
      refine .inr ⟨v, hv, hnone, ?_⟩
      rw [h'.extends_ v d hd]
      exact Option.some_ne_none d

theorem Binds.mono {W : Finset Symbol} (h : Binds subst V subst') (hVW : V ⊆ W) :
    Binds subst W subst' where
  extends_ := h.extends_
  within := fun v d hd hnone =>
    ⟨hVW (h.within v d hd hnone).1, (h.within v d hd hnone).2.trans hVW⟩
  acyclic := h.acyclic
  progress := h.progress.imp id fun ⟨v, hv, hboth⟩ => ⟨v, hVW hv, hboth⟩

/-- Binding a free variable to an expression without it. -/
theorem binds_insert (hv : subst.lookup v = none) (hd : subst.Free d) (hnot : v ∉ d.vars)
    (hvV : v ∈ V) (hdV : d.vars ⊆ V) : Binds subst V (subst.insert v d) where
  extends_ := DimSubst.extends_insert hv d
  within := by
    intro w dw hdw hnone
    by_cases heq : w = v
    · subst heq
      rw [AList.lookup_insert] at hdw
      cases hdw
      exact ⟨hvV, hdV⟩
    · rw [AList.lookup_insert_ne heq, hnone] at hdw
      cases hdw
  acyclic := fun hacyclic => hacyclic.insert hd hnot
  progress := by
    refine .inr ⟨v, hvV, hv, ?_⟩
    rw [AList.lookup_insert]
    exact Option.some_ne_none d

theorem Binds.vars_applied {d' : DimExpr} (h : Binds subst V subst') (hd : d.vars ⊆ V)
    (hfree : ∀ v ∈ V, subst.lookup v = none) (happlies : Applies subst' d d') : d'.vars ⊆ V := by
  apply happlies.vars_subset hd
  intro v hv bound hbound
  exact (h.within v bound hbound (hfree v hv)).2

/-- The variables of both sides. -/
def sideVars (a b : DimExpr) : Finset Symbol := a.vars ∪ b.vars

theorem Binds.sideVars_parts {op op₂ : DimOp} {l r l₂ r₂ r' r₂' : DimExpr}
    (ha : subst.Free (.binOp op l r)) (hb : subst.Free (.binOp op₂ l₂ r₂))
    (h : Binds subst (sideVars l l₂) middle) (hr : Applies middle r r')
    (hr₂ : Applies middle r₂ r₂') :
    sideVars r' r₂' ⊆ sideVars (.binOp op l r) (.binOp op₂ l₂ r₂) := by
  have hparts : sideVars l l₂ ⊆ sideVars (.binOp op l r) (.binOp op₂ l₂ r₂) :=
    Finset.union_subset_union Finset.subset_union_left Finset.subset_union_left
  have hfree : ∀ v ∈ sideVars (.binOp op l r) (.binOp op₂ l₂ r₂), subst.lookup v = none := by
    intro v hv
    rcases Finset.mem_union.mp hv with hv | hv
    · exact ha v hv
    · exact hb v hv
  apply Finset.union_subset
  · apply (h.mono hparts).vars_applied _ hfree hr
    exact Finset.subset_union_right.trans Finset.subset_union_left
  · apply (h.mono hparts).vars_applied _ hfree hr₂
    exact Finset.subset_union_right.trans Finset.subset_union_right

theorem free_parts {op : DimOp} {l r : DimExpr} (h : subst.Free (.binOp op l r)) :
    subst.Free l ∧ subst.Free r :=
  ⟨fun v hv => h v (Finset.mem_union_left _ hv), fun v hv => h v (Finset.mem_union_right _ hv)⟩

/-- A unifier binds variables of the two sides alone. -/
theorem Unifies.binds (h : Unifies subst a b subst') (ha : subst.Free a) (hb : subst.Free b) :
    Binds subst (sideVars a b) subst' := by
  induction h with
  | lit subst n => exact .refl subst _
  | same subst v => exact .refl subst _
  | left subst hnot =>
    apply binds_insert (ha _ (Finset.mem_singleton_self _)) hb hnot
    · exact Finset.mem_union_left _ (Finset.mem_singleton_self _)
    · exact Finset.subset_union_right
  | right subst hnot hvar =>
    apply binds_insert (hb _ (Finset.mem_singleton_self _)) ha hnot
    · exact Finset.mem_union_right _ (Finset.mem_singleton_self _)
    · exact Finset.subset_union_left
  | parts op hl hr hr₂ hparts ihl ihparts =>
    have hleft := ihl (free_parts ha).1 (free_parts hb).1
    have hright := ihparts hr.isFree hr₂.isFree
    have hsub := hleft.sideVars_parts ha hb hr hr₂
    apply (hleft.mono _).trans (hright.mono hsub)
    exact Finset.union_subset_union Finset.subset_union_left Finset.subset_union_left
  | closed subst hop ha hb => exact .refl subst _

theorem Unifies.isSame (h : Unifies subst a b subst') (ha : subst.Free a) (hb : subst.Free b)
    {larger : DimSubst} (hext : DimSubst.Extends subst' larger) {a' b' : DimExpr}
    (ha' : Applies larger a a') (hb' : Applies larger b b') : Same a' b' := by
  induction h generalizing a' b' with
  | lit subst n =>
    cases ha'.unique hb'
    exact fun _ => rfl
  | same subst v =>
    cases ha'.unique hb'
    exact fun _ => rfl
  | left subst hnot =>
    have hv := hext _ _ (AList.lookup_insert _)
    cases ha'.unique (.bound hv hb')
    exact fun _ => rfl
  | right subst hnot hvar =>
    have hv := hext _ _ (AList.lookup_insert _)
    cases hb'.unique (.bound hv ha')
    exact fun _ => rfl
  | parts op hl hr hr₂ hparts ihl ihparts =>
    have hlater := (hparts.binds hr.isFree hr₂.isFree).extends_.trans hext
    obtain _ | _ | _ | ⟨_, hal, har⟩ := ha'
    obtain _ | _ | _ | ⟨_, hbl, hbr⟩ := hb'
    have hleft := ihl (free_parts ha).1 (free_parts hb).1 hlater hal hbl
    have hright := ihparts hr.isFree hr₂.isFree hext ((hr.extend_iff hlater).mp har)
      ((hr₂.extend_iff hlater).mp hbr)
    intro ρ
    rw [DimExpr.value, DimExpr.value, hleft ρ, hright ρ]
  | closed subst hop hea heb =>
    obtain ⟨havars, havalue⟩ := evalDim_spec hea
    obtain ⟨hbvars, hbvalue⟩ := evalDim_spec heb
    have haself : Applies larger _ _ := DimSubst.Free.applies fun w hw => by
      rw [havars] at hw
      exact absurd hw (Finset.notMem_empty w)
    have hbself : Applies larger _ _ := DimSubst.Free.applies fun w hw => by
      rw [hbvars] at hw
      exact absurd hw (Finset.notMem_empty w)
    intro ρ
    rw [← haself.unique ha', ← hbself.unique hb', havalue ρ, hbvalue ρ]

/-- What unifies is unique. -/
theorem Unifies.unique (h : Unifies subst a b subst') {other : DimSubst}
    (h' : Unifies subst a b other) : subst' = other := by
  induction h generalizing other with
  | lit subst n => cases h' <;> rfl
  | same subst v =>
    cases h' with
    | same => rfl
    | left _ hnot => exact absurd (Finset.mem_singleton_self _) hnot
    | right _ hnot _ => exact absurd (Finset.mem_singleton_self _) hnot
    | closed _ _ ha _ => cases ha
  | left subst hnot =>
    cases h' with
    | same => exact absurd (Finset.mem_singleton_self _) hnot
    | left => rfl
    | right _ _ hvar => exact absurd rfl (hvar _)
    | closed _ _ ha _ => cases ha
  | right subst hnot hvar =>
    cases h' with
    | same => exact absurd rfl (hvar _)
    | left => exact absurd rfl (hvar _)
    | right => rfl
    | closed _ _ _ hb => cases hb
  | parts op hl hr hr₂ hparts ihl ihparts =>
    cases h' with
    | parts _ hl' hr' hr₂' hparts' =>
      cases ihl hl'
      cases hr.unique hr'
      cases hr₂.unique hr₂'
      exact ihparts hparts'
    | closed _ hop _ _ => exact absurd rfl hop
  | closed subst hop hea heb =>
    cases h' with
    | lit => rfl
    | same => rfl
    | left => cases hea
    | right => cases heb
    | parts => exact absurd rfl hop
    | closed => rfl

/-- Sides that clash are not unified. -/
theorem Clashes.not_unifies (h : Clashes subst a b) (ha : subst.Free a) (hb : subst.Free b) :
    ¬ Unifies subst a b subst' := by
  induction h generalizing subst' with
  | here _ hno => exact hno subst'
  | left op _ ih =>
    intro hunifies
    cases hunifies with
    | parts _ hl _ _ _ => exact ih (free_parts ha).1 (free_parts hb).1 hl
    | closed _ hop _ _ => exact hop rfl
  | right op hl hr ih =>
    intro hunifies
    cases hunifies with
    | parts _ hl' happlies happlies₂ hparts =>
      cases hl.unique hl'
      cases happlies.unique (free_parts ha).2.applies
      cases happlies₂.unique (free_parts hb).2.applies
      exact ih (free_parts ha).2 (free_parts hb).2 hparts
    | closed _ hop _ _ => exact hop rfl

end Matching

section Deciding

variable {subst subst' : DimSubst} {a b : DimExpr} {result : Except String Unit × DimSubst}
variable {unify : DimExpr → DimExpr → DimSubst → UnifyResult} {fuel : Nat}

/-- What an answer says about the applied sides, and what it leaves. -/
def Settles (subst : DimSubst) (a b : DimExpr) : Except String Unit × DimSubst → Prop
  | (.ok _, subst') => Unifies subst a b subst'
  | (.error _, subst') =>
    (∀ other, ¬ Unifies subst a b other) ∧ subst.Extends subst' ∧
      (subst' = subst ↔ Clashes subst a b)

theorem settles_error (hop : ¬ SameOp a b) (hno : ∀ other, ¬ Unifies subst a b other)
    (e : String) : Settles subst a b (.error e, subst) :=
  ⟨hno, .refl subst, fun _ => .here hop hno, fun _ => rfl⟩

theorem Unifies.values (h : Unifies subst a b subst') (hop : ¬ SameOp a b)
    (ha : ∀ v, a ≠ .var v) (hb : ∀ v, b ≠ .var v) :
    ∃ x, evalDim a = some x ∧ evalDim b = some x := by
  cases h with
  | lit _ n => exact ⟨n, rfl, rfl⟩
  | same _ v => exact absurd rfl (ha v)
  | left => exact absurd rfl (ha _)
  | right => exact absurd rfl (hb _)
  | parts => exact absurd rfl hop
  | closed _ _ hea heb => exact ⟨_, hea, heb⟩

/-- Two numbers or two names are settled by comparing them. -/
theorem compareDims_settles (hop : ¬ SameOp a b) (ha : ∀ v, a ≠ .var v) (hb : ∀ v, b ≠ .var v) :
    Settles subst a b (compareDims a b, subst) := by
  unfold compareDims
  split
  next x y hx hy =>
    split
    next heq => exact .closed subst hop hx (heq ▸ hy)
    next hne =>
      apply settles_error hop
      intro other hunifies
      obtain ⟨z, hza, hzb⟩ := hunifies.values hop ha hb
      rw [hx] at hza
      rw [hy] at hzb
      cases hza
      cases hzb
      exact hne rfl
  next hnone =>
    apply settles_error hop
    intro other hunifies
    obtain ⟨z, hza, hzb⟩ := hunifies.values hop ha hb
    exact hnone z z hza hzb

theorem bindDim_eq {v : Symbol} (hb : subst.Free b) (h : bindDim fuel v b subst = some result) :
    (b = .var v ∧ result = (.ok (), subst)) ∨
      (b ≠ .var v ∧ v ∈ b.vars ∧ ∃ e, result = (.error e, subst)) ∨
      (v ∉ b.vars ∧ result = (.ok (), subst.insert v b)) := by
  unfold bindDim at h
  split at h
  next heq =>
    cases h
    exact .inl ⟨heq, rfl⟩
  next hne =>
    split at h
    next => cases h
    next b' happly =>
      cases (applies_of_applySubst happly).unique hb.applies
      split at h
      next hoccurs =>
        cases h
        exact .inr (.inl ⟨hne, occurs_iff.mp hoccurs, _, rfl⟩)
      next hnot =>
        cases h
        exact .inr (.inr ⟨fun hmem => hnot (occurs_iff.mpr hmem), rfl⟩)

/-- A variable is settled by binding it. -/
theorem bindDim_settles_left {v : Symbol} (hb : subst.Free b)
    (h : bindDim fuel v b subst = some result) : Settles subst (.var v) b result := by
  rcases bindDim_eq hb h with ⟨rfl, rfl⟩ | ⟨hne, hmem, e, rfl⟩ | ⟨hnot, rfl⟩
  · exact .same subst v
  · apply settles_error id
    intro other hunifies
    cases hunifies with
    | same => exact hne rfl
    | left _ hnot => exact hnot hmem
    | right _ _ hvar => exact hvar v rfl
    | closed _ _ ha _ => cases ha
  · exact .left subst hnot

theorem bindDim_settles_right {v : Symbol} (ha : subst.Free a) (hvar : ∀ w, a ≠ .var w)
    (h : bindDim fuel v a subst = some result) : Settles subst a (.var v) result := by
  rcases bindDim_eq ha h with ⟨rfl, rfl⟩ | ⟨hne, hmem, e, rfl⟩ | ⟨hnot, rfl⟩
  · exact absurd rfl (hvar v)
  · apply settles_error
    · cases a <;> exact id
    intro other hunifies
    cases hunifies with
    | same => exact hne rfl
    | left => exact hvar _ rfl
    | right _ hnot _ => exact hnot hmem
    | closed _ _ _ hb => cases hb
  · exact .right subst hnot hvar

/-- The calls on the parts settle them. -/
def PartsSettle (unify : DimExpr → DimExpr → DimSubst → UnifyResult) : Prop :=
  ∀ a b subst result, unify a b subst = some result →
    ∃ a' b', Applies subst a a' ∧ Applies subst b b' ∧ Settles subst a' b' result

/-- Two parts are settled one after the other. -/
theorem andThen_settles (hunify : PartsSettle unify) (op : DimOp) {l r l₂ r₂ : DimExpr}
    (ha : subst.Free (.binOp op l r)) (hb : subst.Free (.binOp op l₂ r₂))
    (h : andThen (unify l l₂ subst) (unify r r₂) = some result) :
    Settles subst (.binOp op l r) (.binOp op l₂ r₂) result := by
  obtain ⟨hla, hra⟩ := free_parts ha
  obtain ⟨hlb, hrb⟩ := free_parts hb
  unfold andThen at h
  split at h
  next middle hleft =>
    obtain ⟨l', l₂', hl, hl₂, hunifies⟩ := hunify _ _ _ _ hleft
    cases hl.unique hla.applies
    cases hl₂.unique hlb.applies
    obtain ⟨r', r₂', hr, hr₂, hsettles⟩ := hunify _ _ _ _ h
    have hbinds := Unifies.binds hunifies hla hlb
    obtain ⟨outcome, subst'⟩ := result
    cases outcome with
    | ok u => exact .parts op hunifies hr hr₂ hsettles
    | error e =>
      obtain ⟨hno, hext, hiff⟩ := hsettles
      refine ⟨?_, hbinds.extends_.trans hext, ?_, ?_⟩
      · intro other hother
        cases hother with
        | parts _ hl' hr' hr₂' hparts =>
          cases Unifies.unique hunifies hl'
          cases hr.unique hr'
          cases hr₂.unique hr₂'
          exact hno other hparts
        | closed _ hop _ _ => exact hop rfl
      · rintro rfl
        -- whatever the first parts had bound would still be bound
        rcases hbinds.progress with rfl | ⟨v, _, hnone, hsome⟩
        · cases hr.unique hra.applies
          cases hr₂.unique hrb.applies
          exact .right op hunifies (hiff.mp rfl)
        · obtain ⟨d, hd⟩ := Option.ne_none_iff_exists'.mp hsome
          rw [hext v d hd] at hnone
          cases hnone
      · intro hclashes
        cases hclashes with
        | here hop _ => exact absurd rfl hop
        | left _ hl' => exact absurd hunifies (hl'.not_unifies hla hlb)
        | right _ hl' hr' =>
          cases Unifies.unique hunifies hl'
          cases hr.unique hra.applies
          cases hr₂.unique hrb.applies
          exact hiff.mpr hr'
  next e subst' hleft =>
    cases h
    obtain ⟨l', l₂', hl, hl₂, hno, hext, hiff⟩ := hunify _ _ _ _ hleft
    cases hl.unique hla.applies
    cases hl₂.unique hlb.applies
    refine ⟨?_, hext, ?_, ?_⟩
    · intro other hother
      cases hother with
      | parts _ hl' _ _ _ => exact hno _ hl'
      | closed _ hop _ _ => exact hop rfl
    · exact fun heq => .left op (hiff.mp heq)
    · intro hclashes
      cases hclashes with
      | here hop _ => exact absurd rfl hop
      | left _ hl' => exact hiff.mpr hl'
      | right _ hl' _ => exact absurd hl' (hno _)
  next => cases h

theorem unifyApplied_settles (hunify : PartsSettle unify) (ha : subst.Free a)
    (hb : subst.Free b) (h : unifyApplied unify fuel a b subst = some result) :
    Settles subst a b result := by
  have hcompare : ¬ SameOp a b → (∀ v, a ≠ .var v) → (∀ v, b ≠ .var v) →
      some (compareDims a b, subst) = some result → Settles subst a b result := by
    intro hop hna hnb heq
    cases heq
    exact compareDims_settles hop hna hnb
  cases a with
  | var v => exact bindDim_settles_left hb h
  | lit x =>
    cases b with
    | var w => exact bindDim_settles_right ha nofun h
    | lit y => exact hcompare id nofun nofun h
    | binOp op l r => exact hcompare id nofun nofun h
  | binOp op l r =>
    cases b with
    | var w => exact bindDim_settles_right ha nofun h
    | lit y => exact hcompare id nofun nofun h
    | binOp op₂ l₂ r₂ =>
      rw [unifyApplied] at h
      split at h
      next heq =>
        subst heq
        exact andThen_settles hunify op ha hb h
      next hne => exact hcompare hne nofun nofun h

/-- Unification settles every pair of sides, by induction on the fuel. -/
theorem unifyDim_settles (fuel : Nat) : PartsSettle (unifyDim fuel) := by
  induction fuel with
  | zero =>
    intro a b subst result h
    cases h
  | succ fuel ih =>
    intro a b subst result h
    obtain ⟨a', ha, h⟩ := Option.bind_eq_some_iff.mp h
    obtain ⟨b', hb, h⟩ := Option.bind_eq_some_iff.mp h
    have ha := applies_of_applySubst ha
    have hb := applies_of_applySubst hb
    exact ⟨a', b', ha, hb, unifyApplied_settles ih ha.isFree hb.isFree h⟩

end Deciding

/-- The result of the call, however much more fuel there is. -/
def Returns (subst : DimSubst) (a b : DimExpr) (result : Except String Unit × DimSubst) : Prop :=
  ∃ enough, ∀ fuel, enough ≤ fuel → unifyDim fuel a b subst = some result

section Returning

variable {subst subst' middle : DimSubst} {a b a' b' : DimExpr}
variable {result : Except String Unit × DimSubst}

theorem Returns.settles (h : Returns subst a b result) :
    ∃ a' b', Applies subst a a' ∧ Applies subst b b' ∧ Settles subst a' b' result := by
  obtain ⟨enough, h⟩ := h
  exact unifyDim_settles enough a b subst result (h enough (Nat.le_refl enough))

/-- With enough fuel the result does not depend on the fuel. -/
theorem Returns.unique {other : Except String Unit × DimSubst} (h : Returns subst a b result)
    (h' : Returns subst a b other) : result = other := by
  obtain ⟨enough, h⟩ := h
  obtain ⟨enough', h'⟩ := h'
  have heq := h _ (Nat.le_max_left enough enough')
  rw [h' _ (Nat.le_max_right enough enough')] at heq
  exact (Option.some.inj heq).symm

theorem returns_of_applied (ha : Applies subst a a') (hb : Applies subst b b')
    (h : ∃ enough, ∀ fuel, enough ≤ fuel →
      unifyApplied (unifyDim fuel) fuel a' b' subst = some result) : Returns subst a b result := by
  obtain ⟨enough, h⟩ := h
  obtain ⟨enougha, ha⟩ := ha.returns
  obtain ⟨enoughb, hb⟩ := hb.returns
  refine ⟨max (max enougha enoughb) enough + 1, ?_⟩
  intro fuel hfuel
  obtain ⟨fuel, rfl⟩ := Nat.exists_eq_succ_of_ne_zero (Nat.ne_zero_of_lt hfuel)
  have hmax := Nat.le_of_succ_le_succ hfuel
  have hboth := Nat.le_trans (Nat.le_max_left _ _) hmax
  rw [unifyDim, ha fuel (le_of_max_le_left hboth), hb fuel (le_of_max_le_right hboth)]
  exact h fuel (le_of_max_le_right hmax)

/-- The same call on the sides before the substitution is applied. -/
theorem Returns.unapply (h : Returns subst a' b' result) (ha : Applies subst a a')
    (hb : Applies subst b b') : Returns subst a b result := by
  apply returns_of_applied ha hb
  obtain ⟨enough, h⟩ := h
  obtain ⟨enougha, ha⟩ := ha.isFree.applies.returns
  obtain ⟨enoughb, hb⟩ := hb.isFree.applies.returns
  refine ⟨max (max enougha enoughb) enough, fun fuel hfuel => ?_⟩
  have hboth := Nat.le_trans (Nat.le_max_left _ _) hfuel
  have hcall := h (fuel + 1) (Nat.le_succ_of_le (le_of_max_le_right hfuel))
  rw [unifyDim, ha fuel (le_of_max_le_left hboth), hb fuel (le_of_max_le_right hboth)] at hcall
  exact hcall

theorem bindDim_returns {v : Symbol} (hb : subst.Free b) :
    ∃ result enough, ∀ fuel, enough ≤ fuel → bindDim fuel v b subst = some result := by
  by_cases heq : b = .var v
  · exact ⟨_, 0, fun fuel _ => if_pos heq⟩
  · obtain ⟨enough, happly⟩ := hb.applies.returns
    by_cases hoccurs : occurs v b = true
    · refine ⟨(.error (circularDimension v b), subst), enough, fun fuel hfuel => ?_⟩
      simp only [bindDim, if_neg heq, happly fuel hfuel, if_pos hoccurs]
    · refine ⟨(.ok (), subst.insert v b), enough, fun fuel hfuel => ?_⟩
      simp only [bindDim, if_neg heq, happly fuel hfuel, if_neg hoccurs]

/-- After the first part there are fewer free variables. -/
theorem Binds.smaller {op op₂ : DimOp} {l r l₂ r₂ r' r₂' : DimExpr}
    (ha : subst.Free (.binOp op l r)) (hb : subst.Free (.binOp op₂ l₂ r₂))
    (h : Binds subst (sideVars l l₂) middle) (hr : Applies middle r r')
    (hr₂ : Applies middle r₂ r₂') :
    (sideVars r' r₂').card < (sideVars (.binOp op l r) (.binOp op₂ l₂ r₂)).card ∨
      (sideVars r' r₂').card ≤ (sideVars (.binOp op l r) (.binOp op₂ l₂ r₂)).card ∧
        r'.size + r₂'.size < (DimExpr.binOp op l r).size + (DimExpr.binOp op₂ l₂ r₂).size := by
  have hsub := h.sideVars_parts ha hb hr hr₂
  rcases h.progress with rfl | ⟨v, hv, hnone, hsome⟩
  · refine .inr ⟨Finset.card_le_card hsub, ?_⟩
    cases hr.unique (free_parts ha).2.applies
    cases hr₂.unique (free_parts hb).2.applies
    simp only [DimExpr.size]
    omega
  · refine .inl (Finset.card_lt_card ((Finset.ssubset_iff_of_subset hsub).mpr ⟨v, ?_, ?_⟩))
    · rcases Finset.mem_union.mp hv with hv | hv
      · exact Finset.mem_union_left _ (Finset.mem_union_left _ hv)
      · exact Finset.mem_union_right _ (Finset.mem_union_left _ hv)
    · intro hmem
      rcases Finset.mem_union.mp hmem with hmem | hmem
      · exact hsome (hr.isFree v hmem)
      · exact hsome (hr₂.isFree v hmem)

/-- Both parts return. -/
theorem parts_return (hacyclic : subst.Acyclic) (op : DimOp) {l r l₂ r₂ : DimExpr}
    (ha : subst.Free (.binOp op l r)) (hb : subst.Free (.binOp op l₂ r₂))
    (hleft : ∃ result, Returns subst l l₂ result)
    (hright : ∀ middle r' r₂', DimSubst.Acyclic middle → Binds subst (sideVars l l₂) middle →
      Applies middle r r' → Applies middle r₂ r₂' → ∃ result, Returns middle r' r₂' result) :
    ∃ result, Returns subst (.binOp op l r) (.binOp op l₂ r₂) result := by
  obtain ⟨⟨outcome, middle⟩, hleft⟩ := hleft
  obtain ⟨l', l₂', hl, hl₂, hsettles⟩ := hleft.settles
  cases hl.unique (free_parts ha).1.applies
  cases hl₂.unique (free_parts hb).1.applies
  obtain ⟨enoughl, hleft⟩ := hleft
  cases outcome with
  | error e =>
    refine ⟨(.error e, middle), returns_of_applied ha.applies hb.applies ?_⟩
    refine ⟨enoughl, fun fuel hfuel => ?_⟩
    rw [unifyApplied, if_pos rfl, hleft fuel hfuel, andThen]
  | ok u =>
    have hbinds := Unifies.binds hsettles (free_parts ha).1 (free_parts hb).1
    have hmiddle := hbinds.acyclic hacyclic
    obtain ⟨r', hr⟩ := hmiddle.applies r
    obtain ⟨r₂', hr₂⟩ := hmiddle.applies r₂
    obtain ⟨result, hreturns⟩ := hright middle r' r₂' hmiddle hbinds hr hr₂
    obtain ⟨enoughr, hreturns⟩ := hreturns.unapply hr hr₂
    refine ⟨result, returns_of_applied ha.applies hb.applies ?_⟩
    refine ⟨max enoughl enoughr, fun fuel hfuel => ?_⟩
    rw [unifyApplied, if_pos rfl, hleft fuel (le_of_max_le_left hfuel), andThen]
    exact hreturns fuel (le_of_max_le_right hfuel)

end Returning

theorem applied_returns (subst : DimSubst) (a b : DimExpr) (hacyclic : subst.Acyclic)
    (ha : subst.Free a) (hb : subst.Free b) : ∃ result, Returns subst a b result := by
  match a, b with
  | .lit x, .lit y =>
    exact ⟨_, returns_of_applied ha.applies hb.applies ⟨0, fun _ _ => rfl⟩⟩
  | .lit x, .binOp op l r =>
    exact ⟨_, returns_of_applied ha.applies hb.applies ⟨0, fun _ _ => rfl⟩⟩
  | .binOp op l r, .lit y =>
    exact ⟨_, returns_of_applied ha.applies hb.applies ⟨0, fun _ _ => rfl⟩⟩
  | .var v, other =>
    obtain ⟨result, hreturns⟩ := bindDim_returns (v := v) hb
    exact ⟨result, returns_of_applied ha.applies hb.applies hreturns⟩
  | .lit x, .var v =>
    obtain ⟨result, hreturns⟩ := bindDim_returns (v := v) ha
    exact ⟨result, returns_of_applied ha.applies hb.applies hreturns⟩
  | .binOp op l r, .var v =>
    obtain ⟨result, hreturns⟩ := bindDim_returns (v := v) ha
    exact ⟨result, returns_of_applied ha.applies hb.applies hreturns⟩
  | .binOp op l r, .binOp op₂ l₂ r₂ =>
    by_cases hop : op = op₂
    · subst hop
      apply parts_return hacyclic op ha hb
      · exact applied_returns subst l l₂ hacyclic (free_parts ha).1 (free_parts hb).1
      · intro middle r' r₂' hmiddle hbinds hr hr₂
        have hsmaller := hbinds.smaller ha hb hr hr₂
        exact applied_returns middle r' r₂' hmiddle hr.isFree hr₂.isFree
    · refine ⟨(compareDims (.binOp op l r) (.binOp op₂ l₂ r₂), subst), ?_⟩
      apply returns_of_applied ha.applies hb.applies
      exact ⟨0, fun _ _ => if_neg hop⟩
termination_by ((sideVars a b).card, a.size + b.size)
decreasing_by
  · apply Prod.Lex.right'
    · apply Finset.card_le_card
      exact Finset.union_subset_union Finset.subset_union_left Finset.subset_union_left
    · simp only [DimExpr.size]
      omega
  · rcases hsmaller with hcard | ⟨hcard, hsize⟩
    · exact Prod.Lex.left _ _ hcard
    · apply Prod.Lex.right'
      · exact hcard
      · exact hsize

/-- On an acyclic substitution unification returns. -/
theorem unifyDim_returns {subst : DimSubst} (hacyclic : subst.Acyclic) (a b : DimExpr) :
    ∃ result, Returns subst a b result := by
  obtain ⟨a', ha⟩ := hacyclic.applies a
  obtain ⟨b', hb⟩ := hacyclic.applies b
  obtain ⟨result, h⟩ := applied_returns subst a' b' hacyclic ha.isFree hb.isFree
  exact ⟨result, h.unapply ha hb⟩

end Airl.Unify
