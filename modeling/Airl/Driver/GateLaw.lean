import Mathlib.Data.List.Forall2
import Airl.Driver.Gate
import Airl.Library.Returns
import Airl.Solver.DiskCacheFidelity

/-! # What the gate lets through

Which definitions of a program have a proof of their own once the gate has let the program through.
-/

namespace Airl.Driver

open Airl.Solver

mutual

/-- The functions in a form, at any depth, with their levels. -/
def fnsIn (strict : Bool) (outer : VerifyLevel) : Top → List (Defn × VerifyLevel)
  | .defn f => [(f, levelOf strict outer f)]
  | .module _ verify body => fnsInAll strict verify body
  | .other => []

def fnsInAll (strict : Bool) (outer : VerifyLevel) : List Top → List (Defn × VerifyLevel)
  | [] => []
  | top :: tops => fnsIn strict outer top ++ fnsInAll strict outer tops

end

/-- Every function of a program. -/
def everyFn (strict : Bool) (tops : List Top) : List (Defn × VerifyLevel) :=
  fnsInAll strict default tops

section Law

variable (prover : Prover)

/-- The function has the verdicts that its level asks for, and the contract that its being public
does. -/
structure Passes (level : VerifyLevel) (f : Defn) : Prop where
  ensures : level = .proven →
    List.Forall₂ (fun _ r => r.2 = VerifyResult.proven) f.ensures
      (prover.verifyFunction f.toFnDef).ensuresResults
  invariants : level = .proven →
    List.Forall₂ (fun _ r => r.2 = VerifyResult.proven) f.invariants
      (prover.verifyFunction f.toFnDef).invariantsResults
  covered : level = .proven → f.isPublic = true → f.ensures ≠ []
  checked : level = .checked → ∀ r ∈ results (prover.verifyFunction f.toFnDef),
    r.2.isDisproven = false

/-- Each function passes, and is trusted only if that is its own level. -/
def GateHolds (strict : Bool) (tops : List Top) (trusted : List String) : Prop :=
  ∀ f level, (f, level) ∈ everyFn strict tops →
    Passes prover level f ∧ (f.name ∈ trusted → level = .trusted)

end Law

/-- The verdicts let a function of this level through. -/
def Accepts (level : VerifyLevel) (v : FunctionVerification) : Prop :=
  ∀ r ∈ results v, r.2.isDisproven = false ∧ (level = .proven → r.2 = .proven)

theorem forall₂_of_length {α β : Type} {l : List α} {m : List β} {p : β → Prop}
    (hlen : m.length = l.length) : List.Forall₂ (fun _ b => p b) l m ↔ ∀ b ∈ m, p b := by
  induction l generalizing m with
  | nil =>
    obtain rfl := List.length_eq_zero_iff.mp hlen
    simp
  | cons a l ih =>
    cases m with
    | nil => cases hlen
    | cons b m => simp [ih (Nat.succ.inj hlen)]

theorem passes_iff {prover : Prover} {level : VerifyLevel} {f : Defn} (hlevel : level ≠ .trusted) :
    Passes prover level f ↔ Accepts level (prover.verifyFunction f.toFnDef) ∧
      (level = .proven → f.isPublic = true → f.ensures ≠ []) := by
  have hensures := forall₂_of_length (p := fun r => r.2 = VerifyResult.proven)
    (prover.ensures_length f.toFnDef)
  have hinvariants := forall₂_of_length (p := fun r => r.2 = VerifyResult.proven)
    (prover.invariants_length f.toFnDef)
  cases level with
  | trusted => exact absurd rfl hlevel
  | checked =>
    constructor
    · intro h
      exact ⟨fun r hr => ⟨h.checked rfl r hr, fun h => absurd h (by decide)⟩,
        fun h => absurd h (by decide)⟩
    · intro h
      exact ⟨fun h => absurd h (by decide), fun h => absurd h (by decide),
        fun h => absurd h (by decide), fun _ r hr => (h.1 r hr).1⟩
  | proven =>
    constructor
    · intro h
      refine ⟨fun r hr => ?_, h.covered⟩
      have hproven : r.2 = .proven := by
        rcases List.mem_append.mp hr with hr | hr
        · exact hensures.mp (h.ensures rfl) r hr
        · exact hinvariants.mp (h.invariants rfl) r hr
      exact ⟨by rw [hproven]; rfl, fun _ => hproven⟩
    · intro h
      exact ⟨fun _ => hensures.mpr fun r hr => (h.1 r (List.mem_append_left _ hr)).2 rfl,
        fun _ => hinvariants.mpr fun r hr => (h.1 r (List.mem_append_right _ hr)).2 rfl, h.2,
        fun h => absurd h (by decide)⟩

theorem passes_trusted (prover : Prover) (f : Defn) : Passes prover .trusted f :=
  ⟨fun h => absurd h (by decide), fun h => absurd h (by decide), fun h => absurd h (by decide),
    fun h => absurd h (by decide)⟩

section Run

variable {F : FloatText} {hidden : Char → Bool} {hash : List UInt8 → UInt64} {prover : Prover}
  {mode : PipelineMode} {tops : List Top}

theorem checkResult_ok {level : VerifyLevel} {fnName : String} {st st' : GateState}
    {r : List Char × VerifyResult} (h : checkResult mode level fnName st r = .ok st') :
    (r.2.isDisproven = false ∧ (level = .proven → r.2 = .proven)) ∧
      st'.disk = st.disk ∧ st'.trusted = st.trusted := by
  obtain ⟨clause, result⟩ := r
  -- a clause without a verdict
  have hunprovable : ∀ {reason : List Char} {st₁ : GateState},
      unprovable level fnName clause reason st₁ = .ok st' →
      level ≠ .proven ∧ st'.disk = st₁.disk ∧ st'.trusted = st₁.trusted := by
    intro reason st₁ h
    unfold unprovable at h
    split at h
    · cases h
    next hlevel =>
      split at h
      · cases h
        exact ⟨hlevel, rfl, rfl⟩
      · cases h
        exact ⟨hlevel, rfl, rfl⟩
  unfold checkResult at h
  cases result with
  | proven =>
    dsimp only at h
    split at h
    · cases h
      exact ⟨⟨rfl, fun _ => rfl⟩, rfl, rfl⟩
    · cases h
      exact ⟨⟨rfl, fun _ => rfl⟩, rfl, rfl⟩
  | disproven counterexample => cases h
  | unknown reason | translationError reason =>
    obtain ⟨hlevel, hdisk, htrusted⟩ := hunprovable h
    exact ⟨⟨rfl, fun hproven => absurd hproven hlevel⟩, hdisk, htrusted⟩

theorem foldlM_checkResult_ok {level : VerifyLevel} {fnName : String}
    {rs : List (List Char × VerifyResult)} :
    ∀ {st st' : GateState}, rs.foldlM (checkResult mode level fnName) st = .ok st' →
      (∀ r ∈ rs, r.2.isDisproven = false ∧ (level = .proven → r.2 = .proven)) ∧
        st'.disk = st.disk ∧ st'.trusted = st.trusted := by
  induction rs with
  | nil =>
    intro st st' h
    cases h
    exact ⟨by simp, rfl, rfl⟩
  | cons r rs ih =>
    intro st st' h
    obtain ⟨st₁, hfirst, hrest⟩ := except_bind_eq_ok.mp h
    obtain ⟨hr, hdisk, htrusted⟩ := checkResult_ok hfirst
    obtain ⟨hrs, hdisk', htrusted'⟩ := ih hrest
    refine ⟨?_, hdisk'.trans hdisk, htrusted'.trans htrusted⟩
    intro r' hr'
    rcases List.mem_cons.mp hr' with rfl | hr'
    · exact hr
    · exact hrs r' hr'

/-- What one turn has done when it lets the function through. -/
theorem gateFn_ok {st st' : GateState} {f : Defn} {level : VerifyLevel}
    (h : gateFn F hidden hash prover mode tops st (f, level) = .ok st') :
    (level = .proven → f.isPublic = true → f.ensures ≠ []) ∧
      if level = .trusted then st'.disk = st.disk ∧ st'.trusted = st.trusted.insert f.name
      else Accepts level (lookupOrVerify F hidden hash prover st.disk f.toFnDef).1 ∧
        st'.disk = (lookupOrVerify F hidden hash prover st.disk f.toFnDef).2 ∧
        st'.trusted = st.trusted := by
  unfold gateFn at h
  dsimp only at h
  split at h
  · cases h
  next hcovered =>
    refine ⟨fun hproven hpublic hempty => hcovered ⟨hproven, hpublic, by rw [hempty]; rfl⟩, ?_⟩
    split at h
    next htrusted =>
      cases h
      rw [if_pos htrusted]
      exact ⟨rfl, rfl⟩
    next htrusted =>
      rw [if_neg htrusted]
      exact foldlM_checkResult_ok h

/-- The disk cache after the verdicts on these functions were looked up. -/
def diskAfter (F : FloatText) (hidden : Char → Bool) (hash : List UInt8 → UInt64) (prover : Prover)
    (disk : DiskCache) (fns : List (Defn × VerifyLevel)) : DiskCache :=
  fns.foldl (fun disk p =>
    if p.2 = .trusted then disk else (lookupOrVerify F hidden hash prover disk p.1.toFnDef).2) disk

/-- The verdicts that are found for a function behind these others. -/
def found (F : FloatText) (hidden : Char → Bool) (hash : List UInt8 → UInt64) (prover : Prover)
    (disk : DiskCache) (before : List (Defn × VerifyLevel)) (f : Defn) : FunctionVerification :=
  (lookupOrVerify F hidden hash prover (diskAfter F hidden hash prover disk before) f.toFnDef).1

theorem foldlM_gateFn_ok {fns : List (Defn × VerifyLevel)} :
    ∀ {st st' : GateState}, fns.foldlM (gateFn F hidden hash prover mode tops) st = .ok st' →
      (∀ before f level after, fns = before ++ (f, level) :: after →
        (level = .proven → f.isPublic = true → f.ensures ≠ []) ∧
          (level ≠ .trusted → Accepts level (found F hidden hash prover st.disk before f))) ∧
        ∀ name, name ∈ st'.trusted ↔
          name ∈ st.trusted ∨ ∃ f, (f, VerifyLevel.trusted) ∈ fns ∧ f.name = name := by
  induction fns with
  | nil =>
    intro st st' h
    cases h
    exact ⟨by simp, by simp⟩
  | cons p fns ih =>
    obtain ⟨g, glevel⟩ := p
    intro st st' h
    obtain ⟨st₁, hfirst, hrest⟩ := except_bind_eq_ok.mp h
    obtain ⟨hcovered, hturn⟩ := gateFn_ok hfirst
    obtain ⟨hfns, htrusted⟩ := ih hrest
    -- the disk cache at the next turn
    have hdisk : st₁.disk = diskAfter F hidden hash prover st.disk [(g, glevel)] := by
      unfold diskAfter
      rw [List.foldl_cons, List.foldl_nil]
      split at hturn
      next hg => rw [if_pos hg, hturn.1]
      next hg => rw [if_neg hg, hturn.2.1]
    constructor
    · intro before f level after hsplit
      cases before with
      | nil =>
        injection hsplit with hhead _
        injection hhead with hf hlevel
        subst hf hlevel
        refine ⟨hcovered, fun hne => ?_⟩
        rw [if_neg hne] at hturn
        exact hturn.1
      | cons q before =>
        injection hsplit with hhead hsplit
        subst hhead
        have hlater := hfns before f level after hsplit
        rw [hdisk] at hlater
        exact hlater
    · intro name
      rw [htrusted]
      split at hturn
      next hg =>
        subst hg
        rw [hturn.2, List.mem_insert_iff]
        simp only [List.mem_cons, Prod.mk.injEq, and_true]
        constructor
        · rintro ((rfl | hname) | ⟨f, hf, hname⟩)
          · exact .inr ⟨g, .inl rfl, rfl⟩
          · exact .inl hname
          · exact .inr ⟨f, .inr hf, hname⟩
        · rintro (hname | ⟨f, rfl | hf, hname⟩)
          · exact .inl (.inr hname)
          · exact .inl (.inl hname.symm)
          · exact .inr ⟨f, hf, hname⟩
      next hg =>
        rw [hturn.2.2]
        constructor
        · rintro (hname | ⟨f, hf, hname⟩)
          · exact .inl hname
          · exact .inr ⟨f, List.mem_cons_of_mem _ hf, hname⟩
        · rintro (hname | ⟨f, hf, hname⟩)
          · exact .inl hname
          · rcases List.mem_cons.mp hf with heq | hf
            · injection heq with _ hlevel
              exact absurd hlevel.symm hg
            · exact .inr ⟨f, hf, hname⟩

end Run

/-- The functions of the modules that stand in a module's body. -/
def fnsInModules (strict : Bool) (body : List Top) : List (Defn × VerifyLevel) :=
  body.flatMap fun
    | .module _ verify inner => fnsInAll strict verify inner
    | _ => []

/-- The functions that are not collected. -/
def deepFns (strict : Bool) (tops : List Top) : List (Defn × VerifyLevel) :=
  tops.flatMap fun
    | .module _ _ body => fnsInModules strict body
    | _ => []

theorem mem_fnsInAll {strict : Bool} {outer : VerifyLevel} {body : List Top}
    {p : Defn × VerifyLevel} : p ∈ fnsInAll strict outer body ↔
      p ∈ collectBody strict outer body ∨ p ∈ fnsInModules strict body := by
  induction body with
  | nil => simp [fnsInAll, collectBody, fnsInModules]
  | cons top body ih =>
    rw [fnsInAll, List.mem_append, ih]
    cases top with
    | defn f =>
      simp [fnsIn, collectBody, fnsInModules, or_assoc]
    | other => simp [fnsIn, collectBody, fnsInModules]
    | module name verify inner =>
      simp only [fnsIn, collectBody, fnsInModules, List.filterMap_cons, List.flatMap_cons,
        List.mem_append]
      tauto

theorem mem_everyFn {strict : Bool} {tops : List Top} {p : Defn × VerifyLevel} :
    p ∈ everyFn strict tops ↔ p ∈ allFns strict tops ∨ p ∈ deepFns strict tops := by
  unfold everyFn
  induction tops with
  | nil => simp [fnsInAll, allFns, deepFns]
  | cons top tops ih =>
    rw [fnsInAll, List.mem_append, ih]
    cases top with
    | defn f => simp [fnsIn, allFns, deepFns, or_assoc]
    | other => simp [fnsIn, allFns, deepFns]
    | module name verify body =>
      rw [fnsIn, mem_fnsInAll]
      simp only [allFns, deepFns, List.flatMap_cons, List.mem_append]
      tauto

section Conditions

variable (F : FloatText) (hidden : Char → Bool) (hash : List UInt8 → UInt64) (prover : Prover)
  (strict : Bool)

/-- The verdicts that are found for a function, in the disk cache or among those on the functions
before it, are accepted only where its own are. -/
def HonestCache (disk : DiskCache) (tops : List Top) : Prop :=
  ∀ before f level after, allFns strict tops = before ++ (f, level) :: after → level ≠ .trusted →
    Accepts level (found F hidden hash prover disk before f) →
    Accepts level (prover.verifyFunction f.toFnDef)

/-- A trusted function that is collected shares its name with trusted functions only. -/
def NamesApart (tops : List Top) : Prop :=
  ∀ f g level, (f, .trusted) ∈ allFns strict tops → (g, level) ∈ everyFn strict tops →
    g.name = f.name → level = .trusted

end Conditions

section Law

variable {F : FloatText} {hidden : Char → Bool} {hash : List UInt8 → UInt64} {prover : Prover}
  {mode : PipelineMode} {strict : Bool} {loaded : Option DiskCache} {tops : List Top}
  {st : GateState}

/-- Where the gate lets a program through, the law holds of it exactly if the functions in nested
modules pass by themselves, the cache answers for no function that would be refused, and no trusted
function lends its name. -/
theorem gate_holds_iff (h : z3VerifyTops F hidden hash prover mode strict loaded tops = .ok st) :
    GateHolds prover strict tops st.trusted ↔
      (∀ f level, (f, level) ∈ deepFns strict tops → Passes prover level f) ∧
        HonestCache F hidden hash prover strict (loaded.getD .new) tops ∧
        NamesApart strict tops := by
  obtain ⟨st₁, hrun, hst⟩ := except_bind_eq_ok.mp h
  have htrusted : st.trusted = st₁.trusted := by
    cases hst
    split <;> rfl
  obtain ⟨hfns, hnames⟩ := foldlM_gateFn_ok hrun
  have hmem : ∀ name, name ∈ st.trusted ↔
      ∃ f, (f, VerifyLevel.trusted) ∈ allFns strict tops ∧ f.name = name := by
    intro name
    rw [htrusted, hnames]
    simp [initialState]
  constructor
  · intro hgate
    refine ⟨fun f level hf => (hgate f level (mem_everyFn.mpr (.inr hf))).1, ?_, ?_⟩
    · intro before f level after hsplit hlevel _
      have hf : (f, level) ∈ allFns strict tops := by
        rw [hsplit]
        exact List.mem_append_right _ List.mem_cons_self
      exact ((passes_iff hlevel).mp (hgate f level (mem_everyFn.mpr (.inl hf))).1).1
    · intro f g level hf hg hname
      exact (hgate g level hg).2 ((hmem g.name).mpr ⟨f, hf, hname.symm⟩)
  · intro ⟨hdeep, hhonest, hapart⟩ f level hf
    constructor
    · rcases mem_everyFn.mp hf with hf | hf
      · by_cases hlevel : level = .trusted
        · subst hlevel
          exact passes_trusted prover f
        · obtain ⟨before, after, hsplit⟩ := List.append_of_mem hf
          obtain ⟨hcovered, haccepts⟩ := hfns before f level after hsplit
          exact (passes_iff hlevel).mpr
            ⟨hhonest before f level after hsplit hlevel (haccepts hlevel), hcovered⟩
      · exact hdeep f level hf
    · intro hname
      obtain ⟨g, hg, heq⟩ := (hmem f.name).mp hname
      exact hapart g f level hg hf heq.symm

end Law

/-- A prover that cannot translate the parameters of any function. -/
def unsupportedTypes : Prover where
  verifyFunction f :=
    { functionName := f.name.toList
      ensuresResults := f.ensures.map fun _ =>
        ("(valid result)".toList, .unknown "unsupported parameter types".toList)
      invariantsResults := f.invariants.map fun _ =>
        ("(valid result)".toList, .unknown "unsupported parameter types".toList) }
  ensures_length _ := List.length_map _
  invariants_length _ := List.length_map _

/-- `(defn f :sig [(x : Foo) -> i64] :ensures [...])`, with these conditions and this level. -/
def someFn (ensures : List Expr) (verify : Option VerifyLevel) : Defn where
  name := "f"
  params := [⟨.default, "x", ⟨.named "Foo", .dummy⟩, none, .dummy⟩]
  returnType := ⟨.named "i64", .dummy⟩
  requires := []
  ensures := ensures
  invariants := []
  body := ⟨.nilLit, .dummy⟩
  intent := none
  isPure := false
  isTotal := false
  executeOn := none
  priority := none
  isPublic := false
  verify := verify
  span := .dummy

/-- A function to be proven, in a module of a module. -/
def nestedModules : List Top :=
  [.module "a" .proven [.module "b" .proven
    [.defn (someFn [Parser.makeValidCall "result" .dummy] none)]]]

/-- A trusted function in one module, and one to be proven in another. -/
def sameName : List Top :=
  [.module "a" .trusted [.defn (someFn [] none)], .module "b" .proven [.defn (someFn [] none)]]

theorem nestedModules_pass : z3VerifyTops bitsText (fun _ => false)
    (fun _ => 0) unsupportedTypes .run
    false none nestedModules = .ok (initialState .new) := rfl

theorem nestedModules_gate_holds_iff :
    GateHolds unsupportedTypes false nestedModules [] ↔
      (∀ f level, (f, level) ∈ deepFns false nestedModules → Passes unsupportedTypes level f) ∧
        HonestCache bitsText (fun _ => false) (fun _ => 0) unsupportedTypes false
          ((none : Option DiskCache).getD .new) nestedModules ∧
        NamesApart false nestedModules :=
  gate_holds_iff nestedModules_pass

/-- The gate lets both programs through: the first with a function that is to be proven and is not,
the second with the name of such a function among the trusted ones. -/
theorem gate_lets_through :
    (∃ st, z3VerifyTops bitsText (fun _ => false) (fun _ => 0) unsupportedTypes .run false none
        nestedModules = .ok st ∧
      ¬ GateHolds unsupportedTypes false nestedModules st.trusted) ∧
    ∃ st, z3VerifyTops bitsText (fun _ => false) (fun _ => 0) unsupportedTypes .run false none
        sameName = .ok st ∧
      "f" ∈ st.trusted ∧ (someFn [] none, .proven) ∈ everyFn false sameName := by
  refine ⟨⟨_, nestedModules_pass, ?_⟩, _, rfl, ?_, ?_⟩
  · intro hgate
    have hpass := (hgate _ .proven (List.mem_singleton_self _)).1
    cases hpass.ensures rfl with
    | cons hproven _ => cases hproven
  · exact List.mem_cons_self
  · exact List.mem_cons_of_mem _ List.mem_cons_self

end Airl.Driver
