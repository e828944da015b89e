import Airl.Types.LexicalChecker

/-! # The scopes of the type checker

After a check the environment is what it was before it, apart from the definitions of the form,
exactly if no failure leaves a scope open.
-/

namespace Airl.Checker

open Scoped

section Sound

variable (ids : String → Unify.Symbol) (fuel : Nat)

theorem fails {α β : Type} (message : TypeMessage) (span : Span) (r : CheckerRest) :
    ∃ r', (fail message span : RestCheck α) r = some (.error (), r') ∧
      (fail message span : RestCheck β) r = some (.error (), r') :=
  ⟨_, rfl, rfl⟩

mutual

/-- A pattern binds its names as the lexical checker does. -/
theorem binds_checkPatternBinding (p : Pattern) :
    Scoped.Binds TypeEnv.scoping (fun scope => ((), scope)) (checkPatternBinding p)
      fun scope => pure (Lexical.bindPatternNames p scope) := by
  obtain ⟨kind, span⟩ := p
  cases kind with
  | wildcard => exact .pure fun _ => rfl
  | binding name => exact .name (TypeEnv.scoping_bind name _)
  | literal lit => exact .pure fun _ => rfl
  | variant name subPats => exact binds_checkPatternBindings subPats

theorem binds_checkPatternBindings (ps : List Pattern) :
    Scoped.Binds TypeEnv.scoping (fun scope => ((), scope)) (checkPatternBindings ps)
      fun scope => pure (Lexical.bindPatternsNames ps scope) := by
  cases ps with
  | nil => exact .pure fun _ => rfl
  | cons p ps =>
    exact (binds_checkPatternBinding p).bind fun _ => binds_checkPatternBindings ps

end

mutual

theorem binds_checkPattern (p : Pattern) (ty : Ty) :
    Scoped.Binds TypeEnv.scoping (fun scope => ((), scope)) (checkPattern fuel p ty)
      (Lexical.checkPattern fuel p ty) := by
  obtain ⟨kind, span⟩ := p
  cases kind with
  | wildcard => exact .pure fun _ => rfl
  | binding name => exact .name (TypeEnv.scoping_bind name _)
  | literal lit => exact .pure fun _ => rfl
  | variant name subPats =>
    apply Scoped.Binds.bind_lift
    intro fieldTypes
    cases fieldTypes with
    | none => exact binds_checkPatternBindings subPats
    | some fields => exact .ite (binds_checkPatterns subPats fields) (.fail (fails _ _))

theorem binds_checkPatterns (ps : List Pattern) (tys : List Ty) :
    Scoped.Binds TypeEnv.scoping (fun scope => ((), scope)) (checkPatterns fuel ps tys)
      (Lexical.checkPatterns fuel ps tys) := by
  cases ps with
  | nil => exact .pure fun _ => rfl
  | cons p ps =>
    cases tys with
    | nil => exact .pure fun _ => rfl
    | cons ty tys => exact (binds_checkPattern p ty).bind fun _ => binds_checkPatterns ps tys

end

theorem binds_bindLambdaParams (ps : List Param) :
    Scoped.Binds TypeEnv.scoping id (bindLambdaParams ids ps)
      (Lexical.bindLambdaParams ids ps) := by
  induction ps with
  | nil => exact .pure fun _ => rfl
  | cons p ps ih =>
    apply Scoped.Binds.bind_lift
    intro ty
    exact .bind_name (TypeEnv.scoping_bind p.name _) (ih.map (_ :: ·) _ fun _ => rfl)

theorem sound_checkCtor (name : String) {args : Nat} (span : Span)
    {checkArgs : List Ty → Check Unit} {checkAll : Check (List Ty)}
    {argsSpec : List Ty → Lexical.Scope → Lexical.Spec Unit}
    {allSpec : Lexical.Scope → Lexical.Spec (List Ty)}
    (hargs : ∀ params, Sound TypeEnv.scoping (checkArgs params) (argsSpec params))
    (hall : Sound TypeEnv.scoping checkAll allSpec) (found : Option Ty) :
    Sound TypeEnv.scoping (checkCtor name args span checkArgs checkAll found)
      (Lexical.checkCtor name args span argsSpec allSpec found) := by
  cases found with
  | none => exact hall.bind fun argTys => .pure (Ty.named name (argTys.map .type))
  | some ty =>
    cases ty with
    | func params ret => exact .ite ((hargs params).bind fun _ => .pure ret) (.lift _)
    | typeVar name => exact .pure _
    | prim p => exact .pure _
    | tensor elem shape => exact .pure _
    | named name tyArgs => exact .pure _
    | sum variants => exact .pure _
    | product fields => exact .pure _
    | nat d => exact .pure _
    | unit => exact .pure _
    | never => exact .pure _

mutual

/-- An expression is checked as in its lexical scope, by induction on it. -/
theorem sound_checkExpr (e : Expr) :
    Sound TypeEnv.scoping (checkExpr ids fuel e) (Lexical.checkExpr ids fuel e) := by
  obtain ⟨kind, span⟩ := e
  cases kind with
  | intLit v => exact .pure _
  | floatLit bits => exact .pure _
  | strLit text => exact .pure _
  | boolLit b => exact .pure _
  | nilLit => exact .pure _
  | keywordLit k => exact .pure _
  | symbolRef name =>
    exact .view_bind (fun (lookup : Lexical.Scope) _ =>
      Spec.lift (symbolTy name span (lookup name)))
      fun lookup => .lift _
  | ite cond then_ else_ =>
    refine (sound_checkExpr cond).bind fun condTy => .ite ?_ (.lift _)
    refine (sound_checkExpr then_).bind fun thenTy => ?_
    exact (sound_checkExpr else_).bind fun elseTy => .ite (.pure thenTy) (.lift _)
  | «let» bindings body => exact .enter (sound_checkLet bindings (sound_checkExpr body))
  | «do» exprs => exact sound_checkSeq exprs .unit
  | fnCall callee args =>
    refine (sound_checkExpr callee).bind fun calleeTy => ?_
    cases calleeTy with
    | func params ret =>
      exact .ite ((sound_checkArgs args params).bind fun _ => .pure ret) (.lift _)
    | typeVar name =>
      refine (Sound.lift _).bind fun _ => ?_
      exact (sound_checkAnyArgs args).bind fun _ => .pure tyWildcard
    | prim p => exact .lift _
    | tensor elem shape => exact .lift _
    | named name tyArgs => exact .lift _
    | sum variants => exact .lift _
    | product fields => exact .lift _
    | nat d => exact .lift _
    | unit => exact .lift _
    | never => exact .lift _
  | «match» scrutinee arms =>
    refine (sound_checkExpr scrutinee).bind fun scrutTy => ?_
    refine (sound_checkArms arms scrutTy none).bind fun resultTy => ?_
    cases resultTy with
    | some ty => exact .pure ty
    | none => exact .lift _
  | lambda params body =>
    have hscope := SoundInside.binds (binds_bindLambdaParams ids params) fun paramTys =>
      .bind_inside (sound_checkExpr body) fun bodyTy => .leave (Ty.func paramTys bodyTy)
    exact .enter hscope
  | «try» inner => exact (sound_checkExpr inner).bind fun _ => .lift _
  | variantCtor name args =>
    exact .view_bind
      (fun (lookup : Lexical.Scope) =>
        Lexical.checkCtor name args.length span (Lexical.checkArgs ids fuel args)
        (Lexical.checkAll ids fuel args) (lookup name))
      fun lookup => sound_checkCtor name span (sound_checkArgs args) (sound_checkAll args) _
  | structLit name fields => exact (sound_checkFields fields).bind fun tys => .pure (Ty.product tys)
  | listLit items =>
    cases items with
    | nil => exact .pure _
    | cons first items =>
      refine (sound_checkExpr first).bind fun firstTy => ?_
      exact (sound_checkItems firstTy items).bind fun _ => .pure _
  | «forall» param whereClause body => exact .pure _
  | «exists» param whereClause body => exact .pure _

/-- Bindings one by one. -/
theorem sound_checkLet (bindings : List LetBinding) {body : Check Ty}
    {bodySpec : Lexical.Scope → Lexical.Spec Ty} (hbody : Sound TypeEnv.scoping body bodySpec) :
    SoundInside TypeEnv.scoping (checkLet ids fuel bindings body)
      (Lexical.checkLet ids fuel bindings bodySpec) := by
  cases bindings with
  | nil => exact .last hbody
  | cons b bindings =>
    obtain ⟨name, ty, value, span⟩ := b
    refine .bind_inside (sound_checkExpr value) fun actual => ?_
    refine .bind_inside (.lift (resolve ids ty)) fun declared => ?_
    refine .ite (.bind_name (TypeEnv.scoping_bind name actual) (sound_checkLet bindings hbody)) ?_
    refine .bind_inside (.lift (compatible fuel actual declared)) fun fits => ?_
    refine .ite (.bind_name (TypeEnv.scoping_bind name declared) (sound_checkLet bindings hbody)) ?_
    exact .stop fun r => ⟨_, rfl⟩

theorem sound_checkSeq (es : List Expr) (ty : Ty) :
    Sound TypeEnv.scoping (checkSeq ids fuel es ty) (Lexical.checkSeq ids fuel es ty) := by
  cases es with
  | nil => exact .pure ty
  | cons e es => exact (sound_checkExpr e).bind fun ty => sound_checkSeq es ty

theorem sound_checkArgs (args : List Expr) (params : List Ty) :
    Sound TypeEnv.scoping (checkArgs ids fuel args params)
      (Lexical.checkArgs ids fuel args params) := by
  cases args with
  | nil => exact .pure ()
  | cons arg args =>
    cases params with
    | nil => exact .pure ()
    | cons paramTy params =>
      refine (sound_checkExpr arg).bind fun argTy => ?_
      exact (Sound.lift _).bind fun _ => sound_checkArgs args params

theorem sound_checkAnyArgs (args : List Expr) :
    Sound TypeEnv.scoping (checkAnyArgs ids fuel args)
      (Lexical.checkAnyArgs ids fuel args) := by
  cases args with
  | nil => exact .pure ()
  | cons arg args => exact (sound_checkExpr arg).attempt.bind fun _ => sound_checkAnyArgs args

theorem sound_checkAll (es : List Expr) :
    Sound TypeEnv.scoping (checkAll ids fuel es) (Lexical.checkAll ids fuel es) := by
  cases es with
  | nil => exact .pure []
  | cons e es =>
    refine (sound_checkExpr e).bind fun ty => ?_
    exact (sound_checkAll es).bind fun tys => .pure (ty :: tys)

theorem sound_checkFields (fields : List FieldInit) :
    Sound TypeEnv.scoping (checkFields ids fuel fields)
      (Lexical.checkFields ids fuel fields) := by
  cases fields with
  | nil => exact .pure []
  | cons f fields =>
    obtain ⟨key, value⟩ := f
    refine (sound_checkExpr value).bind fun ty => ?_
    exact (sound_checkFields fields).bind fun tys => .pure (⟨key, ty⟩ :: tys)

theorem sound_checkItems (firstTy : Ty) (items : List Expr) :
    Sound TypeEnv.scoping (checkItems ids fuel firstTy items)
      (Lexical.checkItems ids fuel firstTy items) := by
  cases items with
  | nil => exact .pure ()
  | cons item items =>
    refine (sound_checkExpr item).bind fun itemTy => ?_
    exact .ite (sound_checkItems firstTy items) (.lift _)

/-- An arm binds its names and forgets them. -/
theorem sound_checkArm (arm : MatchArm) (scrutTy : Ty) :
    Sound TypeEnv.scoping (checkArm ids fuel arm scrutTy)
      (Lexical.checkArm ids fuel arm scrutTy) := by
  obtain ⟨pattern, body, span⟩ := arm
  have hscope := SoundInside.binds (binds_checkPattern fuel pattern scrutTy) fun _ =>
    .last (sound_checkExpr body)
  exact .enter hscope

theorem sound_checkArms (arms : List MatchArm) (scrutTy : Ty) (resultTy : Option Ty) :
    Sound TypeEnv.scoping (checkArms ids fuel arms scrutTy resultTy)
      (Lexical.checkArms ids fuel arms scrutTy resultTy) := by
  cases arms with
  | nil => exact .pure resultTy
  | cons arm arms =>
    refine (sound_checkArm arm scrutTy).bind fun armTy => ?_
    cases resultTy with
    | none => exact sound_checkArms arms scrutTy _
    | some prev => exact .ite (sound_checkArms arms scrutTy _) (.lift _)

end

theorem binds_bindParams (ps : List Param) :
    Scoped.Binds TypeEnv.scoping id (bindParams ids ps) (Lexical.bindParams ids ps) := by
  induction ps with
  | nil => exact .pure fun _ => rfl
  | cons p ps ih =>
    apply Scoped.Binds.bind_lift
    intro ty
    exact .bind_name (TypeEnv.scoping_bind p.name ty) (ih.map (ty :: ·) _ fun _ => rfl)

theorem sound_checkClauses (clause : String) (es : List Expr) :
    Sound TypeEnv.scoping (checkClauses ids fuel clause es)
      (Lexical.checkClauses ids fuel clause es) := by
  induction es with
  | nil => exact .pure ()
  | cons e es ih =>
    exact (sound_checkExpr ids fuel e).attempt.bind fun _ => (Sound.lift _).bind fun _ => ih

/-- A function, in a scope of its own. -/
theorem sound_checkFnScope (f : FnDef) :
    Sound TypeEnv.scoping (checkFnScope ids fuel f) (Lexical.checkFn ids fuel f) := by
  have hscope := SoundInside.binds (binds_bindParams ids f.params) fun paramTys =>
    .bind_inside (.lift (resolve ids f.returnType)) fun declaredRet =>
      .bind_inside (sound_checkClauses ids fuel ":requires" f.requires) fun _ =>
        .bind_name (TypeEnv.scoping_bind f.name (.func paramTys
            (if declaredRet.isWildcard then .typeVar ("__ret_" ++ f.name) else declaredRet)))
          (.bind_inside (sound_checkExpr ids fuel f.body) fun bodyTy =>
            .bind_inside (.lift (checkAssignable fuel bodyTy declaredRet f.body.span)) fun _ =>
              .bind_name (TypeEnv.scoping_bind "result" declaredRet)
                (.bind_inside (sound_checkClauses ids fuel ":ensures" f.ensures) fun _ =>
                  .bind_inside (sound_checkClauses ids fuel ":invariants" f.invariants) fun _ =>
                    .leave (Ty.func paramTys declaredRet)))
  exact .enter hscope

end Sound

mutual

/-- The names that a form defines. -/
def introduced : CheckedForm → List String
  | .defn f => [f.name]
  | .externC decl => [decl.cName]
  | .module body => introducedAll body
  | .defType _ => []
  | .expr _ => []
  | .define => []
  | .task => []
  | .useDecl => []
  | .import_ => []

def introducedAll : List CheckedForm → List String
  | [] => []
  | form :: forms => introduced form ++ introducedAll forms

end

/-- The environment has got definitions of these names. -/
def Defines (names : List String) (env env' : TypeEnv) : Prop :=
  ∃ defs : List (String × Ty), (∀ d ∈ defs, d.1 ∈ names) ∧
    env' = defs.foldl (fun env d => env.bind d.1 d.2) env

namespace Defines

variable {names names' : List String} {env env' env'' : TypeEnv}

theorem refl (names : List String) (env : TypeEnv) : Defines names env env :=
  ⟨[], List.forall_mem_nil _, rfl⟩

theorem of_eq (h : env' = env) : Defines names env env' := h ▸ refl names env

theorem bind (env : TypeEnv) (name : String) (ty : Ty) :
    Defines [name] env (env.bind name ty) :=
  ⟨[(name, ty)], List.forall_mem_singleton.mpr (List.mem_singleton_self name), rfl⟩

theorem mono (h : Defines names env env') (hsub : names ⊆ names') : Defines names' env env' := by
  obtain ⟨defs, hdefs, henv⟩ := h
  exact ⟨defs, fun d hd => hsub (hdefs d hd), henv⟩

/-- What two forms define, both in turn define. -/
theorem trans (h : Defines names env env') (h' : Defines names env' env'') :
    Defines names env env'' := by
  obtain ⟨defs, hdefs, rfl⟩ := h
  obtain ⟨defs', hdefs', rfl⟩ := h'
  exact ⟨defs ++ defs', List.forall_mem_append.mpr ⟨hdefs, hdefs'⟩, (List.foldl_append ..).symm⟩

theorem depth_eq (h : Defines names env env') : env'.depth = env.depth := by
  obtain ⟨defs, -, rfl⟩ := h
  induction defs generalizing env with
  | nil => rfl
  | cons d defs ih =>
    rw [List.foldl_cons, ih]
    exact TypeEnv.depth_bind env d.1 d.2

/-- Other names keep their types. -/
theorem lookup_eq (h : Defines names env env') {name : String} (hname : name ∉ names) :
    env'.lookup name = env.lookup name := by
  obtain ⟨defs, hdefs, rfl⟩ := h
  induction defs generalizing env with
  | nil => rfl
  | cons d defs ih =>
    obtain ⟨hd, hrest⟩ := List.forall_mem_cons.mp hdefs
    have hne : name ≠ d.1 := fun heq => hname (heq ▸ hd)
    rw [List.foldl_cons, ih hrest, TypeEnv.lookup_bind, Function.update_of_ne hne]

end Defines

section Forms

variable (ids : String → Unify.Symbol) (fuel : Nat)

/-- A form leaves the scopes as they were, with its definitions in the innermost one, unless one
stays open. -/
def FollowsForm (names : List String) (s : Checker) (m : Check Unit)
    (spec : Lexical.Spec Lexical.Scope) : Prop :=
  Scoped.Follows TypeEnv.scoping s.env.depth (Defines names s.env)
    (fun env _ scope => Defines names s.env env ∧ scope = env.lookup) s m spec

/-- Where checking is sound, the scopes are as before. -/
theorem follows_of_sound {α : Type} {m : Check α} {spec : Lexical.Scope → Lexical.Spec α}
    (h : Sound TypeEnv.scoping m spec) (names : List String) (s : Checker) :
    Scoped.Follows TypeEnv.scoping s.env.depth (Defines names s.env)
      (fun env a b => env = s.env ∧ a = b) s m (spec s.env.lookup) := by
  apply (h.follows s).mono (Nat.le_refl _)
  · exact fun env => Defines.of_eq
  · exact fun _ _ _ => id

theorem closes_bindName (name : String) (ty : Ty) :
    Closes TypeEnv.scoping 0 (bindName name ty) := .binding (TypeEnv.scoping_bind name ty)

/-- A definition that fails without a scope left open has bound nothing. -/
theorem follows_defn (f : FnDef) (s : Checker) :
    Scoped.Follows TypeEnv.scoping s.env.depth (· = s.env)
      (fun env _ scope => Defines [f.name] s.env env ∧ scope = env.lookup) s
      (checkTopLevel ids fuel (.defn f))
      (Lexical.checkTopLevel ids fuel (.defn f) s.env.lookup) := by
  change Scoped.Follows _ _ _ _ s (checkFn ids fuel f >>= fun _ => pure ()) _
  unfold checkFn
  rw [bind_assoc]
  apply ((sound_checkFnScope ids fuel f).follows s).bind
  · intro env a b r hends
    obtain ⟨rfl, rfl⟩ := hends
    exact ⟨s.env.bind f.name a, (), rfl, .bind s.env f.name a, (TypeEnv.lookup_bind ..).symm⟩
  · intro fnTy
    exact ((closes_bindName f.name fnTy).bind fun _ => .pure 0 fnTy).bind fun _ => .pure 0 ()

mutual

/-- Every form leaves as many scopes as it finds. -/
theorem closes_checkTopLevel (form : CheckedForm) :
    Closes TypeEnv.scoping 0 (checkTopLevel ids fuel form) := by
  cases form with
  | defn f =>
    have hfn := (sound_checkFnScope ids fuel f).closes.bind fun fnTy =>
      (closes_bindName f.name fnTy).bind fun _ => .pure 0 fnTy
    exact hfn.bind fun _ => .pure 0 ()
  | defType td => exact .lift _
  | module body => exact closes_checkTopLevels body
  | expr e => exact (sound_checkExpr ids fuel e).closes.bind fun _ => .pure 0 ()
  | define => exact .pure 0 ()
  | task => exact .pure 0 ()
  | useDecl => exact .pure 0 ()
  | externC decl => exact (Closes.lift _).bind fun fnTy => closes_bindName decl.cName fnTy
  | import_ => exact .pure 0 ()

theorem closes_checkTopLevels (forms : List CheckedForm) :
    Closes TypeEnv.scoping 0 (checkTopLevels ids fuel forms) := by
  cases forms with
  | nil => exact .pure 0 ()
  | cons form forms =>
    exact (closes_checkTopLevel form).bind fun _ => closes_checkTopLevels forms

end

mutual

/-- A form changes the types of no names but its own. -/
theorem follows_checkTopLevel (form : CheckedForm) (s : Checker) :
    FollowsForm (introduced form) s (checkTopLevel ids fuel form)
      (Lexical.checkTopLevel ids fuel form s.env.lookup) := by
  cases form with
  | defn f =>
    apply (follows_defn ids fuel f s).mono (Nat.le_refl _)
    · exact fun env => Defines.of_eq
    · exact fun _ _ _ => id
  | defType td =>
    have hcode : checkTopLevel ids fuel (.defType td) =
        Code.lift (registerTypeDef ids td) >>= pure := (bind_pure _).symm
    rw [hcode]
    apply (follows_of_sound (.lift (registerTypeDef ids td)) [] s).bind
    · intro env a b r hends
      obtain ⟨rfl, rfl⟩ := hends
      exact ⟨s.env, a, rfl, .refl [] s.env, rfl⟩
    · exact fun _ => .pure 0 _
  | module body => exact follows_checkTopLevels body s
  | expr e =>
    apply (follows_of_sound (sound_checkExpr ids fuel e) [] s).bind
    · intro env a b r hends
      obtain ⟨rfl, rfl⟩ := hends
      exact ⟨s.env, (), rfl, .refl [] s.env, rfl⟩
    · exact fun _ => .pure 0 ()
  | define => exact ⟨s.env, (), rfl, .refl [] s.env, rfl⟩
  | task => exact ⟨s.env, (), rfl, .refl [] s.env, rfl⟩
  | useDecl => exact ⟨s.env, (), rfl, .refl [] s.env, rfl⟩
  | externC decl =>
    apply (follows_of_sound (.lift (externTy ids decl)) [decl.cName] s).bind
    · intro env a b r hends
      obtain ⟨rfl, rfl⟩ := hends
      exact ⟨s.env.bind decl.cName a, (), rfl, .bind s.env decl.cName a,
        (TypeEnv.lookup_bind ..).symm⟩
    · exact fun fnTy => closes_bindName decl.cName fnTy
  | import_ => exact ⟨s.env, (), rfl, .refl [] s.env, rfl⟩

/-- So does a whole program. -/
theorem follows_checkTopLevels (forms : List CheckedForm) (s : Checker) :
    FollowsForm (introducedAll forms) s (checkTopLevels ids fuel forms)
      (Lexical.checkTopLevels ids fuel forms s.env.lookup) := by
  cases forms with
  | nil => exact ⟨s.env, (), rfl, .refl [] s.env, rfl⟩
  | cons form forms =>
    have hform : Scoped.Follows TypeEnv.scoping s.env.depth
        (Defines (introducedAll (form :: forms)) s.env)
        (fun env _ scope => Defines (introducedAll (form :: forms)) s.env env ∧ scope = env.lookup)
        s (checkTopLevel ids fuel form) (Lexical.checkTopLevel ids fuel form s.env.lookup) := by
      apply (follows_checkTopLevel form s).mono (Nat.le_refl _)
      · exact fun env h => h.mono (List.subset_append_left _ _)
      · exact fun env a scope h => ⟨h.1.mono (List.subset_append_left _ _), h.2⟩
    apply hform.bind
    · intro env a scope r hends
      obtain ⟨hdefines, rfl⟩ := hends
      apply (follows_checkTopLevels forms ⟨env, r⟩).mono (Nat.le_of_eq hdefines.depth_eq.symm)
      · exact fun env' h => hdefines.trans (h.mono (List.subset_append_right _ _))
      · exact fun env' a scope h =>
          ⟨hdefines.trans (h.1.mono (List.subset_append_right _ _)), h.2⟩
    · exact fun _ => closes_checkTopLevels ids fuel forms

end

/-- In the form a failure leaves a scope open. -/
def LeavesScope (form : CheckedForm) (scope : Lexical.Scope) (rest : CheckerRest) : Prop :=
  ∃ rest', Lexical.checkTopLevel ids fuel form scope rest = some (.error .left, rest')

/-- The scopes are as they were before the form, and so is what is visible in them, apart from the
definitions of the form; the failure of a definition changes no later check. -/
structure Restored (form : CheckedForm) (env env' : TypeEnv) (result : Except Unit Unit) :
    Prop where
  depth : env'.depth = env.depth
  visible : ∀ name, name ∉ introduced form → env'.lookup name = env.lookup name
  later : ∀ f, form = .defn f → result = .error () → ∀ other rest,
    checkTopLevel ids fuel other ⟨env', rest⟩ = checkTopLevel ids fuel other ⟨env, rest⟩

variable {ids fuel}

theorem environment_restored_iff {form : CheckedForm} {s s' : Checker} {result : Except Unit Unit}
    (h : checkTopLevel ids fuel form s = some (result, s')) :
    Restored ids fuel form s.env s'.env result ↔
      ¬ LeavesScope ids fuel form s.env.lookup s.rest := by
  have hfollows := follows_checkTopLevel ids fuel form s
  unfold FollowsForm Scoped.Follows at hfollows
  constructor
  · rintro hrestored ⟨rest', hleft⟩
    rw [hleft] at hfollows
    have hdeeper := hfollows result s' h
    exact Nat.lt_irrefl _ (hrestored.depth ▸ hdeeper)
  · intro hnot
    cases hspec : Lexical.checkTopLevel ids fuel form s.env.lookup s.rest with
    | none =>
        rw [hspec] at hfollows
        exact absurd (h.symm.trans hfollows) (Option.some_ne_none _)
    | some out =>
        obtain ⟨outcome, rest⟩ := out
        rw [hspec] at hfollows
        rcases outcome with e | scope
        · rcases e with _ | _
          · obtain ⟨env, hcode, hdefines⟩ := hfollows
            cases h.symm.trans hcode
            refine ⟨hdefines.depth_eq, fun name => hdefines.lookup_eq, ?_⟩
            intro f hform _ other r
            subst hform
            -- the definition has bound nothing, so the environments are the same
            have hdefn := follows_defn ids fuel f s
            unfold Scoped.Follows at hdefn
            rw [hspec] at hdefn
            obtain ⟨env', hcode', rfl⟩ := hdefn
            cases h.symm.trans hcode'
            rfl
          · exact absurd ⟨rest, hspec⟩ hnot
        · obtain ⟨env, a, hcode, hdefines, -⟩ := hfollows
          cases h.symm.trans hcode
          exact ⟨hdefines.depth_eq, fun name =>
            hdefines.lookup_eq, fun _ _ herror => by cases herror⟩

end Forms

/-- A checker with `print`. -/
def printOnly : Checker := ⟨TypeEnv.new.bind "print" (.typeVar "builtin"), ⟨fun _ => none, ∅, []⟩⟩

/-- `(defn name :sig [params -> i64] :body body)`. -/
def definition (name : String) (params : List Param) (body : ExprKind) : CheckedForm :=
  .defn ⟨name, params, ⟨.named "i64", .dummy⟩, [], [], [], ⟨body, .dummy⟩⟩

/-- `(defn f :sig [(x : i64) -> i64] :body y)`. -/
def undefinedBody : CheckedForm :=
  definition "f" [⟨.default, "x", ⟨.named "i64", .dummy⟩, none, .dummy⟩] (.symbolRef "y")

/-- `(defn g :sig [-> i64] :body x)`. -/
def strayBody : CheckedForm := definition "g" [] (.symbolRef "x")

/-- `(print (let (x : i64 y) x))`. -/
def printedLet : CheckedForm :=
  .expr ⟨.fnCall ⟨.symbolRef "print", .dummy⟩
    [⟨.let [⟨"x", ⟨.named "i64", .dummy⟩, ⟨.symbolRef "y", .dummy⟩, .dummy⟩]
      ⟨.symbolRef "x", .dummy⟩, .dummy⟩], .dummy⟩

theorem undefinedBody_restored_iff :
    ∃ s', checkTopLevel (fun _ => 0) 1 undefinedBody printOnly = some (.error (), s') ∧
      (Restored (fun _ => 0) 1 undefinedBody printOnly.env s'.env (.error ()) ↔
        ¬ LeavesScope (fun _ => 0) 1 undefinedBody printOnly.env.lookup printOnly.rest) := by
  refine ⟨_, rfl, ?_⟩
  exact environment_restored_iff rfl

/-- A definition that fails leaves its parameters visible, so that a later definition is accepted
which is refused without it; an error that is passed over leaves a scope of an accepted form. -/
theorem failure_leaves_scope :
    (∃ s', checkTopLevel (fun _ => 0) 1 undefinedBody printOnly = some (.error (), s') ∧
        ¬ Restored (fun _ => 0) 1 undefinedBody printOnly.env s'.env (.error ()) ∧
        s'.env.lookup "x" = some (.prim .i64) ∧
        (∃ s₁, checkTopLevel (fun _ => 0) 1 strayBody s' = some (.ok (), s₁)) ∧
        ∃ s₁, checkTopLevel (fun _ => 0) 1 strayBody ⟨printOnly.env, s'.rest⟩ =
          some (.error (), s₁)) ∧
      ∃ s', checkTopLevel (fun _ => 0) 1 printedLet printOnly = some (.ok (), s') ∧
        ¬ Restored (fun _ => 0) 1 printedLet printOnly.env s'.env (.ok ()) := by
  refine ⟨⟨_, rfl, ?_, rfl, ⟨_, rfl⟩, _, rfl⟩, _, rfl, ?_⟩
  · exact fun h => Nat.one_ne_zero h.depth
  · exact fun h => Nat.one_ne_zero h.depth

end Airl.Checker
