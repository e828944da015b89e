import Airl.Lowering.AstToIr
import Airl.Lowering.Pipeline
import Airl.Correctness.Program
import Airl.Syntax.Everywhere

/-! # The three lowerings

They agree on every expression, by induction over it; on a top-level form they agree unless it is a
`define`, a module or a function with a contract.
-/

namespace Airl.Lowering

mutual

/-- The three lowerings of a pattern are equal. -/
theorem compilePattern_agrees : ∀ p : Pattern,
    Pipeline.compilePattern p = AstToIr.compilePattern p ∧
      AgentRuntime.compilePattern p = AstToIr.compilePattern p
  | ⟨kind, _⟩ => by
    simp only [Pipeline.compilePattern, AgentRuntime.compilePattern, AstToIr.compilePattern]
    exact compilePatternKind_agrees kind

theorem compilePatternKind_agrees : ∀ kind : PatternKind,
    Pipeline.compilePatternKind kind = AstToIr.compilePatternKind kind ∧
      AgentRuntime.compilePatternKind kind = AstToIr.compilePatternKind kind
  | .wildcard => ⟨rfl, rfl⟩
  | .binding _ => ⟨rfl, rfl⟩
  | .literal lit => by cases lit <;> exact ⟨rfl, rfl⟩
  | .variant name subPats => by
    obtain ⟨hpipeline, hagent⟩ := compilePatterns_agrees subPats
    simp only [Pipeline.compilePatternKind, AgentRuntime.compilePatternKind,
      AstToIr.compilePatternKind, hpipeline, hagent, and_self]

theorem compilePatterns_agrees : ∀ ps : List Pattern,
    Pipeline.compilePatterns ps = AstToIr.compilePatterns ps ∧
      AgentRuntime.compilePatterns ps = AstToIr.compilePatterns ps
  | [] => ⟨rfl, rfl⟩
  | p :: ps => by
    obtain ⟨hpipeline, hagent⟩ := compilePattern_agrees p
    obtain ⟨hpipeline', hagent'⟩ := compilePatterns_agrees ps
    simp only [Pipeline.compilePatterns, AgentRuntime.compilePatterns, AstToIr.compilePatterns,
      hpipeline, hagent, hpipeline', hagent', and_self]

end

/-- The three lowerings of an expression are one. -/
def Agrees (e : Expr) : Prop :=
  Pipeline.compileExpr e = AstToIr.compileExpr e ∧
    AgentRuntime.compileExpr e = AstToIr.compileExpr e

/-- The three lowerings of a list are equal if those of its expressions are. -/
theorem compileExprs_agrees {es : List Expr} (h : ∀ e ∈ es, Agrees e) :
    Pipeline.compileExprs es = AstToIr.compileExprs es ∧
      AgentRuntime.compileExprs es = AstToIr.compileExprs es := by
  induction es with
  | nil => exact ⟨rfl, rfl⟩
  | cons e es ih =>
    obtain ⟨he, he'⟩ := h e List.mem_cons_self
    obtain ⟨hes, hes'⟩ := ih fun c hc => h c (List.mem_cons_of_mem _ hc)
    simp only [Pipeline.compileExprs, AgentRuntime.compileExprs, AstToIr.compileExprs, he, he',
      hes, hes', and_self]

theorem compileBindings_agrees {bindings : List LetBinding}
    (h : ∀ e ∈ bindings.map LetBinding.value, Agrees e) :
    Pipeline.compileBindings bindings = AstToIr.compileBindings bindings ∧
      AgentRuntime.compileBindings bindings = AstToIr.compileBindings bindings := by
  induction bindings with
  | nil => exact ⟨rfl, rfl⟩
  | cons b bindings ih =>
    obtain ⟨name, ty, value, span⟩ := b
    obtain ⟨hvalue, hvalue'⟩ : Agrees value := h value List.mem_cons_self
    obtain ⟨hrest, hrest'⟩ := ih fun c hc => h c (List.mem_cons_of_mem _ hc)
    simp only [Pipeline.compileBindings, AgentRuntime.compileBindings, AstToIr.compileBindings,
      hvalue, hvalue', hrest, hrest', and_self]

theorem compileArms_agrees {arms : List MatchArm} (h : ∀ e ∈ arms.map MatchArm.body, Agrees e) :
    Pipeline.compileArms arms = AstToIr.compileArms arms ∧
      AgentRuntime.compileArms arms = AstToIr.compileArms arms := by
  induction arms with
  | nil => exact ⟨rfl, rfl⟩
  | cons arm arms ih =>
    obtain ⟨pattern, body, span⟩ := arm
    obtain ⟨hpattern, hpattern'⟩ := compilePattern_agrees pattern
    obtain ⟨hbody, hbody'⟩ : Agrees body := h body List.mem_cons_self
    obtain ⟨hrest, hrest'⟩ := ih fun c hc => h c (List.mem_cons_of_mem _ hc)
    simp only [Pipeline.compileArms, AgentRuntime.compileArms, AstToIr.compileArms, hpattern,
      hpattern', hbody, hbody', hrest, hrest', and_self]

theorem compileFields_agrees {fields : List FieldInit}
    (h : ∀ e ∈ fields.map FieldInit.value, Agrees e) :
    Pipeline.compileFields fields = AstToIr.compileFields fields ∧
      AgentRuntime.compileFields fields = AstToIr.compileFields fields := by
  induction fields with
  | nil => exact ⟨rfl, rfl⟩
  | cons field fields ih =>
    obtain ⟨key, value⟩ := field
    obtain ⟨hvalue, hvalue'⟩ : Agrees value := h value List.mem_cons_self
    obtain ⟨hrest, hrest'⟩ := ih fun c hc => h c (List.mem_cons_of_mem _ hc)
    simp only [Pipeline.compileFields, AgentRuntime.compileFields, AstToIr.compileFields, hvalue,
      hvalue', hrest, hrest', and_self]

/-- The three read the end of a loop alike. -/
theorem extractUpperBound_agrees {w : Expr} (h : ∀ c ∈ w.children, Agrees c) (varName : String) :
    Pipeline.extractUpperBound w varName = AstToIr.extractUpperBound w varName ∧
      AgentRuntime.extractUpperBound w varName = AstToIr.extractUpperBound w varName := by
  obtain ⟨kind, span⟩ := w
  cases kind with
  | fnCall callee args =>
    obtain ⟨callee, span⟩ := callee
    cases callee with
    | symbolRef op =>
      match args with
      | [] => exact ⟨rfl, rfl⟩
      | [⟨left, _⟩] => cases left <;> exact ⟨rfl, rfl⟩
      | [⟨left, _⟩, bound] =>
        obtain ⟨hbound, hbound'⟩ : Agrees bound :=
          h bound (by simp [Expr.children, Expr.kind, ExprKind.children])
        cases left with
        | symbolRef name =>
          simp only [Pipeline.extractUpperBound, AgentRuntime.extractUpperBound,
            AstToIr.extractUpperBound, hbound, hbound', and_self]
        | _ => exact ⟨rfl, rfl⟩
      | ⟨left, _⟩ :: _ :: _ :: _ => cases left <;> exact ⟨rfl, rfl⟩
    | _ => exact ⟨rfl, rfl⟩
  | _ => exact ⟨rfl, rfl⟩

/-- And the clause of a quantifier. -/
theorem compileWhere_agrees {whereClause : Option Expr} (h : ∀ w ∈ whereClause, Agrees w)
    (hinside : ∀ w ∈ whereClause, ∀ c ∈ w.children, Agrees c) (varName : String) :
    Pipeline.compileWhere whereClause varName = AstToIr.compileWhere whereClause varName ∧
      AgentRuntime.compileWhere whereClause varName =
        AstToIr.compileWhere whereClause varName := by
  cases whereClause with
  | none => exact ⟨rfl, rfl⟩
  | some w =>
    obtain ⟨hw, hw'⟩ : Agrees w := h w rfl
    obtain ⟨hbound, hbound'⟩ := extractUpperBound_agrees (hinside w rfl) varName
    simp only [Pipeline.compileWhere, AgentRuntime.compileWhere, AstToIr.compileWhere, hbound,
      hbound', hw, hw', and_self]

theorem quantifier_agrees (isForall : Bool) (varName : String) (upperBound body : IRNode) :
    Pipeline.quantifier isForall varName upperBound body =
        AstToIr.quantifier isForall varName upperBound body ∧
      AgentRuntime.quantifier isForall varName upperBound body =
        AstToIr.quantifier isForall varName upperBound body := ⟨rfl, rfl⟩

/-- The lowerings of a node are one, if those of what stands in it, and of what stands in that,
are. -/
theorem agrees_of_children {e : Expr} (h : ∀ c ∈ e.children, Agrees c)
    (hinside : ∀ c ∈ e.children, ∀ d ∈ c.children, Agrees d) : Agrees e := by
  obtain ⟨kind, span⟩ := e
  unfold Agrees
  simp only [Pipeline.compileExpr, AgentRuntime.compileExpr, AstToIr.compileExpr]
  cases kind with
  | ite cond then_ else_ =>
    obtain ⟨hcond, hcond'⟩ : Agrees cond :=
      h cond (by simp [Expr.children, Expr.kind, ExprKind.children])
    obtain ⟨hthen, hthen'⟩ : Agrees then_ :=
      h then_ (by simp [Expr.children, Expr.kind, ExprKind.children])
    obtain ⟨helse, helse'⟩ : Agrees else_ :=
      h else_ (by simp [Expr.children, Expr.kind, ExprKind.children])
    simp only [Pipeline.compileKind, AgentRuntime.compileKind, AstToIr.compileKind, hcond, hcond',
      hthen, hthen', helse, helse', and_self]
  | «let» bindings body =>
    obtain ⟨hbody, hbody'⟩ : Agrees body := h body List.mem_cons_self
    obtain ⟨hbindings, hbindings'⟩ :=
      compileBindings_agrees fun c hc => h c (List.mem_cons_of_mem _ hc)
    simp only [Pipeline.compileKind, AgentRuntime.compileKind, AstToIr.compileKind, hbindings,
      hbindings', hbody, hbody', and_self]
  | «do» exprs =>
    obtain ⟨hexprs, hexprs'⟩ := (compileExprs_agrees h : Pipeline.compileExprs exprs = _ ∧ _)
    simp only [Pipeline.compileKind, AgentRuntime.compileKind, AstToIr.compileKind, hexprs,
      hexprs', and_self]
  | fnCall callee args =>
    obtain ⟨hcallee, hcallee'⟩ : Agrees callee := h callee List.mem_cons_self
    obtain ⟨hargs, hargs'⟩ := compileExprs_agrees fun c hc => h c (List.mem_cons_of_mem _ hc)
    by_cases hsymbol : ∃ name, callee.kind = .symbolRef name
    · obtain ⟨name, hname⟩ := hsymbol
      obtain ⟨callee, span⟩ := callee
      subst hname
      simp only [Pipeline.compileKind, AgentRuntime.compileKind, AstToIr.compileKind, hargs,
        hargs', and_self]
    · have hother : ∀ name span, callee = ⟨.symbolRef name, span⟩ → False :=
        fun name span heq => hsymbol ⟨name, by rw [heq]; rfl⟩
      rw [Pipeline.compileKind, AgentRuntime.compileKind, AstToIr.compileKind, hargs, hargs',
        hcallee, hcallee']
      · exact ⟨rfl, rfl⟩
      all_goals exact hother
  | lambda params body =>
    obtain ⟨hbody, hbody'⟩ : Agrees body := h body List.mem_cons_self
    simp only [Pipeline.compileKind, AgentRuntime.compileKind, AstToIr.compileKind, hbody, hbody',
      and_self]
  | «match» scrutinee arms =>
    obtain ⟨hscrutinee, hscrutinee'⟩ : Agrees scrutinee := h scrutinee List.mem_cons_self
    obtain ⟨harms, harms'⟩ := compileArms_agrees fun c hc => h c (List.mem_cons_of_mem _ hc)
    simp only [Pipeline.compileKind, AgentRuntime.compileKind, AstToIr.compileKind, hscrutinee,
      hscrutinee', harms, harms', and_self]
  | listLit items =>
    obtain ⟨hitems, hitems'⟩ := (compileExprs_agrees h : Pipeline.compileExprs items = _ ∧ _)
    simp only [Pipeline.compileKind, AgentRuntime.compileKind, AstToIr.compileKind, hitems,
      hitems', and_self]
  | variantCtor name args =>
    obtain ⟨hargs, hargs'⟩ := (compileExprs_agrees h : Pipeline.compileExprs args = _ ∧ _)
    simp only [Pipeline.compileKind, AgentRuntime.compileKind, AstToIr.compileKind, hargs, hargs',
      and_self]
  | «try» inner =>
    obtain ⟨hinner, hinner'⟩ : Agrees inner := h inner List.mem_cons_self
    simp only [Pipeline.compileKind, AgentRuntime.compileKind, AstToIr.compileKind, hinner,
      hinner', and_self]
  | structLit name fields =>
    obtain ⟨hfields, hfields'⟩ := (compileFields_agrees h : Pipeline.compileFields fields = _ ∧ _)
    simp only [Pipeline.compileKind, AgentRuntime.compileKind, AstToIr.compileKind, hfields,
      hfields', and_self]
  | «forall» param whereClause body =>
    obtain ⟨hbody, hbody'⟩ : Agrees body := h body List.mem_cons_self
    have hmem : ∀ w ∈ whereClause, w ∈ (ExprKind.forall param whereClause body).children :=
      fun w hw => List.mem_cons_of_mem _ (List.mem_append_left _ (Option.mem_toList.mpr hw))
    obtain ⟨hwhere, hwhere'⟩ := compileWhere_agrees (fun w hw => h w (hmem w hw))
      (fun w hw => hinside w (hmem w hw)) param.name
    simp only [Pipeline.compileKind, AgentRuntime.compileKind, AstToIr.compileKind, hwhere,
      hwhere', hbody, hbody']
    exact quantifier_agrees true _ _ _
  | «exists» param whereClause body =>
    obtain ⟨hbody, hbody'⟩ : Agrees body := h body List.mem_cons_self
    have hmem : ∀ w ∈ whereClause, w ∈ (ExprKind.exists param whereClause body).children :=
      fun w hw => List.mem_cons_of_mem _ (List.mem_append_left _ (Option.mem_toList.mpr hw))
    obtain ⟨hwhere, hwhere'⟩ := compileWhere_agrees (fun w hw => h w (hmem w hw))
      (fun w hw => hinside w (hmem w hw)) param.name
    simp only [Pipeline.compileKind, AgentRuntime.compileKind, AstToIr.compileKind, hwhere,
      hwhere', hbody, hbody']
    exact quantifier_agrees false _ _ _
  | _ => exact ⟨rfl, rfl⟩

/-- The three lowerings of every expression are equal. -/
theorem compileExpr_agrees (e : Expr) : Agrees e := by
  have hboth : Agrees e ∧ ∀ c ∈ e.children, Agrees c := by
    induction e using Expr.childInduction with
    | h e ih =>
      have hchildren : ∀ c ∈ e.children, Agrees c := fun c hc => (ih c hc).1
      exact ⟨agrees_of_children hchildren fun c hc => (ih c hc).2, hchildren⟩
  exact hboth.1

end Lowering

mutual

/-- A module with nothing in it but such modules. -/
def TopLevel.Empty : TopLevel → Prop
  | .module _ body => emptyTops body
  | _ => False

def emptyTops : List TopLevel → Prop
  | [] => True
  | top :: tops => top.Empty ∧ emptyTops tops

end

/-- Nothing but a `nil`, and empty modules. -/
def nilAlone : List TopLevel → Prop
  | [] => False
  | .expr e :: tops => e.kind = .nilLit ∧ emptyTops tops
  | .module _ body :: tops => emptyTops body ∧ nilAlone tops
  | _ :: _ => False

/-- No clause of a contract. -/
def FnDef.Unchecked (f : FnDef) : Prop := f.requires = [] ∧ f.ensures = [] ∧ f.invariants = []

/-- Neither a `define` nor a function with a contract nor a module that does something. -/
def TopLevel.Plain : TopLevel → Prop
  | .define _ => False
  | .defn f => f.Unchecked
  | .module _ body => nilAlone body
  | _ => True

namespace Lowering

theorem compileExpr_eq_nil (e : Expr) : Pipeline.compileExpr e = .nil ↔ e.kind = .nilLit := by
  obtain ⟨kind, span⟩ := e
  rw [Pipeline.compileExpr]
  cases kind with
  | fnCall callee args =>
    unfold Pipeline.compileKind
    split <;> simp_all [Expr.kind]
  | _ => simp [Pipeline.compileKind, Pipeline.quantifier, Expr.kind]

mutual

/-- A form has no nodes just if it is empty. -/
theorem compileTopLevel_eq_nil : ∀ top : TopLevel,
    Pipeline.compileTopLevel top = [] ↔ top.Empty
  | .module _ body => by
    simp only [Pipeline.compileTopLevel, TopLevel.Empty]
    exact compileTops_eq_nil body
  | .defn _ => by simp [Pipeline.compileTopLevel, TopLevel.Empty]
  | .define _ => by simp [Pipeline.compileTopLevel, TopLevel.Empty]
  | .defType => by simp [Pipeline.compileTopLevel, TopLevel.Empty]
  | .task => by simp [Pipeline.compileTopLevel, TopLevel.Empty]
  | .useDecl => by simp [Pipeline.compileTopLevel, TopLevel.Empty]
  | .import_ => by simp [Pipeline.compileTopLevel, TopLevel.Empty]
  | .externC => by simp [Pipeline.compileTopLevel, TopLevel.Empty]
  | .expr _ => by simp [Pipeline.compileTopLevel, TopLevel.Empty]

theorem compileTops_eq_nil : ∀ tops : List TopLevel,
    Pipeline.compileTops tops = [] ↔ emptyTops tops
  | [] => by simp [Pipeline.compileTops, emptyTops]
  | top :: tops => by
    simp only [Pipeline.compileTops, emptyTops, List.append_eq_nil_iff]
    exact and_congr (compileTopLevel_eq_nil top) (compileTops_eq_nil tops)

end

/-- The nodes that a form in a module adds to a program. -/
def innerNodes : TopLevel → List IRNode
  | .defn f => [.func f.name (f.params.map Param.name) (Pipeline.compileExpr f.body)]
  | .define d => [.func d.name d.params (Pipeline.compileExpr d.body)]
  | .expr e => [Pipeline.compileExpr e]
  | _ => []

section Program

variable {D : Display} {out : Pipeline.Lowered} {body tops : List TopLevel}

theorem foldl_compileInner_nodes (body : List TopLevel) (out : Pipeline.Lowered) :
    (body.foldl (Pipeline.compileInner D) out).nodes = out.nodes ++ body.flatMap innerNodes := by
  induction body generalizing out with
  | nil => simp
  | cons top body ih =>
    rw [List.foldl_cons, ih, List.flatMap_cons]
    cases top <;> simp [Pipeline.compileInner, Pipeline.compileDefn,
      Pipeline.Lowered.push, innerNodes]

/-- What is flattened has a node at least for each that a program gets. -/
theorem length_innerNodes_le (body : List TopLevel) :
    (body.flatMap innerNodes).length ≤ (Pipeline.compileTops body).length := by
  induction body with
  | nil => exact Nat.le_refl _
  | cons top body ih =>
    have htop : (innerNodes top).length ≤ (Pipeline.compileTopLevel top).length := by
      cases top <;> simp [innerNodes, Pipeline.compileTopLevel]
    rw [List.flatMap_cons, Pipeline.compileTops, List.length_append, List.length_append]
    exact Nat.add_le_add htop ih

theorem foldl_compileInner_empty (h : emptyTops tops) (out : Pipeline.Lowered) :
    tops.foldl (Pipeline.compileInner D) out = out := by
  induction tops with
  | nil => rfl
  | cons top tops ih =>
    obtain ⟨htop, hrest⟩ := h
    cases top with
    | module name body => exact ih hrest
    | _ => exact htop.elim

theorem foldl_compileInner_nilAlone (h : nilAlone body) (out : Pipeline.Lowered) :
    body.foldl (Pipeline.compileInner D) out = out.push .nil := by
  induction body with
  | nil => exact h.elim
  | cons top body ih =>
    cases top with
    | expr e =>
      obtain ⟨hnil, hrest⟩ := h
      rw [List.foldl_cons, foldl_compileInner_empty hrest, Pipeline.compileInner,
        (compileExpr_eq_nil e).mpr hnil]
    | module name inner => exact ih h.2
    | _ => exact h.elim

/-- A body that is a nil alone lowers to a nil. -/
theorem compileTops_nilAlone (h : nilAlone body) : Pipeline.compileTops body = [.nil] := by
  induction body with
  | nil => exact h.elim
  | cons top body ih =>
    cases top with
    | expr e =>
      obtain ⟨hnil, hrest⟩ := h
      rw [Pipeline.compileTops, Pipeline.compileTopLevel, (compileExpr_eq_nil e).mpr hnil,
        (compileTops_eq_nil body).mpr hrest, List.append_nil]
    | module name inner =>
      obtain ⟨hempty, hrest⟩ := h
      rw [Pipeline.compileTops, Pipeline.compileTopLevel, (compileTops_eq_nil inner).mpr hempty,
        ih hrest, List.nil_append]
    | _ => exact h.elim

/-- Only a nil alone lowers to a nil with and without its modules. -/
theorem nilAlone_of_nodes (hflat : Pipeline.compileTops body = [.nil])
    (hinner : body.flatMap innerNodes = [.nil]) : nilAlone body := by
  induction body with
  | nil => cases hinner
  | cons top body ih =>
    rw [Pipeline.compileTops] at hflat
    rw [List.flatMap_cons] at hinner
    cases top with
    | expr e =>
      simp only [Pipeline.compileTopLevel, List.singleton_append, List.cons.injEq] at hflat
      exact ⟨(compileExpr_eq_nil e).mp hflat.1, (compileTops_eq_nil body).mp hflat.2⟩
    | module name inner =>
      simp only [innerNodes, List.nil_append] at hinner
      -- the one node comes from the rest, so the inner module gives none
      have hlength := length_innerNodes_le body
      have htotal := congrArg List.length hflat
      rw [hinner, List.length_singleton] at hlength
      rw [List.length_append, List.length_singleton] at htotal
      have hnone : Pipeline.compileTopLevel (.module name inner) = [] :=
        List.length_eq_zero_iff.mp (by omega)
      rw [hnone, List.nil_append] at hflat
      rw [Pipeline.compileTopLevel, compileTops_eq_nil] at hnone
      exact ⟨hnone, ih hflat hinner⟩
    | defn f => simp [innerNodes] at hinner
    | define d => simp [innerNodes] at hinner
    | _ =>
      have hlength := length_innerNodes_le body
      have htotal := congrArg List.length hflat
      simp only [innerNodes, List.nil_append] at hinner
      rw [hinner, List.length_singleton] at hlength
      simp only [Pipeline.compileTopLevel, List.length_append, List.length_singleton] at htotal
      omega

theorem compileDefn_unchecked {f : FnDef} (h : f.Unchecked) (out : Pipeline.Lowered) :
    Pipeline.compileDefn D out f =
      out.push (.func f.name (f.params.map Param.name) (Pipeline.compileExpr f.body)) := by
  obtain ⟨hrequires, hensures, hinvariants⟩ := h
  simp [Pipeline.compileDefn, Pipeline.Lowered.push, hrequires, hensures, hinvariants]

end Program

/-- The lowerings of a form are one, and the driver adds no contract to it. -/
structure SameNodes (D : Display) (top : TopLevel) : Prop where
  library : Pipeline.compileTopLevel top = [AstToIr.compileTopLevel top]
  program : Pipeline.compileTopsWithContracts D [top] =
    ⟨[AstToIr.compileTopLevel top], fun _ => none⟩
  agent : AgentRuntime.compileTopLevel top = AstToIr.compileTopLevel top

/-- A plain form is lowered to one node, and with no clauses. -/
theorem compileTop_plain {D : Display} {top : TopLevel} (h : top.Plain) (out : Pipeline.Lowered) :
    Pipeline.compileTop D out top = out.push (AstToIr.compileTopLevel top) := by
  cases top with
  | defn f =>
    rw [Pipeline.compileTop, compileDefn_unchecked h, (compileExpr_agrees f.body).1]
    rfl
  | expr e =>
    rw [Pipeline.compileTop, (compileExpr_agrees e).1]
    rfl
  | module name body => exact foldl_compileInner_nilAlone h out
  | define d => exact h.elim
  | _ => rfl

theorem sameNodes_of_plain {D : Display} {top : TopLevel} (h : top.Plain) : SameNodes D top := by
  refine ⟨?_, ?_, ?_⟩
  · cases top with
    | defn f => rw [Pipeline.compileTopLevel, (compileExpr_agrees f.body).1,
        AstToIr.compileTopLevel]
    | expr e => rw [Pipeline.compileTopLevel, (compileExpr_agrees e).1, AstToIr.compileTopLevel]
    | module name body =>
      rw [Pipeline.compileTopLevel]
      exact compileTops_nilAlone h
    | define d => exact h.elim
    | _ => simp [Pipeline.compileTopLevel, AstToIr.compileTopLevel]
  · exact compileTop_plain h _
  · cases top with
    | defn f =>
      rw [AgentRuntime.compileTopLevel, (compileExpr_agrees f.body).2, AstToIr.compileTopLevel]
    | expr e => rw [AgentRuntime.compileTopLevel, (compileExpr_agrees e).2, AstToIr.compileTopLevel]
    | define d => exact h.elim
    | _ => rfl

/-- The lowerings of a form agree just if it is plain. -/
theorem sameNodes_iff (D : Display) (top : TopLevel) : SameNodes D top ↔ top.Plain := by
  refine ⟨fun ⟨hlibrary, hprogram, _⟩ => ?_, sameNodes_of_plain⟩
  cases top with
  | define d => simp [Pipeline.compileTopLevel, AstToIr.compileTopLevel] at hlibrary
  | defn f =>
    -- clauses would have been recorded under the name
    have hnone := congrFun (congrArg Pipeline.Lowered.contracts hprogram) f.name
    by_contra hchecked
    simp only [TopLevel.Plain, FnDef.Unchecked] at hchecked
    simp [Pipeline.compileTopsWithContracts, Pipeline.compileTop, Pipeline.compileDefn, hchecked]
      at hnone
  | module name body =>
    have hnodes := congrArg Pipeline.Lowered.nodes hprogram
    rw [Pipeline.compileTopLevel] at hlibrary
    refine nilAlone_of_nodes hlibrary ?_
    exact (foldl_compileInner_nodes body _).symm.trans hnodes
  | _ => trivial

/-- A program of such forms has the same nodes in the lowerings, and no contracts. -/
theorem compileTops_agree (D : Display) {tops : List TopLevel} (h : ∀ top ∈ tops, top.Plain) :
    Pipeline.compileTopsWithContracts D tops = ⟨AstToIr.compileTops tops, fun _ => none⟩ ∧
      AgentRuntime.compileTops tops = AstToIr.compileTops tops := by
  constructor
  · have hfold : ∀ out : Pipeline.Lowered, tops.foldl (Pipeline.compileTop D) out =
        { out with nodes := out.nodes ++ AstToIr.compileTops tops } := by
      induction tops with
      | nil => simp [AstToIr.compileTops]
      | cons top tops ih =>
        intro out
        rw [List.foldl_cons, compileTop_plain (h top List.mem_cons_self),
          ih fun t ht => h t (List.mem_cons_of_mem _ ht)]
        simp [Pipeline.Lowered.push, AstToIr.compileTops]
    exact hfold _
  · exact List.map_congr_left fun top htop => (sameNodes_of_plain (D := D) (h top htop)).agent

/-- Two programs end alike, or not at all, whatever machine they are loaded into. -/
def RunAlike (p p' : Pipeline.Lowered) : Prop :=
  ∀ (World : Type) (s : Compiler) (builtins : Builtins String World) (maxCallDepth : Nat)
    (world : World) (o : RunResult World),
    (compiledMachine s p.nodes p.contracts builtins maxCallDepth).Yields world o ↔
      (compiledMachine s p'.nodes p'.contracts builtins maxCallDepth).Yields world o

/-- What the other two compile is nodes alone. -/
def bare (nodes : List IRNode) : Pipeline.Lowered := ⟨nodes, fun _ => none⟩

/-- The lowerings agree on every expression; they give the same on exactly the forms that are no
`define`, no function with a contract and no module that does something; and programs of such forms
run alike. -/
theorem lowerings_agree_iff (D : Display) (e : Expr) (top : TopLevel) (tops : List TopLevel) :
    Agrees e ∧ (SameNodes D top ↔ top.Plain) ∧
      ((∀ top ∈ tops, top.Plain) →
        RunAlike (Pipeline.compileTopsWithContracts D tops) (bare (AstToIr.compileTops tops)) ∧
          RunAlike (Pipeline.compileTopsWithContracts D tops)
            (bare (AgentRuntime.compileTops tops))) := by
  refine ⟨compileExpr_agrees e, sameNodes_iff D top, fun hplain => ?_⟩
  obtain ⟨hast, hagent⟩ := compileTops_agree D hplain
  rw [hagent, hast]
  exact ⟨fun _ _ _ _ _ _ => Iff.rfl, fun _ _ _ _ _ _ => Iff.rfl⟩

def refTo (name : String) : Expr := ⟨.symbolRef name, .dummy⟩

/-- `(f 1)`. -/
def callF : TopLevel := .expr ⟨.fnCall (refTo "f") [⟨.intLit 1, .dummy⟩], .dummy⟩

/-- `(define f (x) x) (f 1)`. -/
def definedF : List TopLevel := [.define ⟨"f", ["x"], refTo "x"⟩, callF]

/-- `f`, that returns its parameter. -/
def identityF : FnDef where
  name := "f"
  params := [⟨.default, "x", ⟨.named "i64", .dummy⟩, none, .dummy⟩]
  returnType := ⟨.named "i64", .dummy⟩
  requires := []
  ensures := []
  invariants := []
  body := refTo "x"

/-- `(module m (defn f ..)) (f 1)`. -/
def moduleF : List TopLevel := [.module "m" [.defn identityF], callF]

/-- `f` with `:requires [(> x 0)]`. -/
def positiveF : FnDef :=
  { identityF with requires := [⟨.fnCall (refTo ">") [refTo "x", ⟨.intLit 0, .dummy⟩], .dummy⟩] }

/-- `(defn f .. :requires [(> x 0)] ..) (f -1)`. -/
def checkedF : List TopLevel :=
  [.defn positiveF, .expr ⟨.fnCall (refTo "f") [⟨.intLit (-1), .dummy⟩], .dummy⟩]

/-- The machine that has loaded a program. -/
def loaded (p : Pipeline.Lowered) : Machine Unit :=
  compiledMachine {} p.nodes p.contracts atBuiltins 100

theorem not_runAlike {p p' : Pipeline.Lowered} {o o' : RunResult Unit} {vm : Vm Unit}
    (hstart : (loaded p').startMain () = .ok vm) (h : (loaded p).Yields () o)
    (h' : (loaded p').Yields () o') (hne : o ≠ o') : ¬ RunAlike p p' := by
  intro halike
  have hsame := (halike Unit {} atBuiltins 100 () o).mp h
  change (loaded p').Yields () o at hsame
  rw [Machine.Yields, hstart] at hsame h'
  exact hne ((Machine.host_deterministic _ false).yields_unique hsame h')

/-- No float and no number in a type stands in these programs. -/
def noNumbers : Display := ⟨fun _ => "", fun _ => ""⟩

theorem definedF_yields : (loaded (Pipeline.compileTopsWithContracts noNumbers definedF)).Yields ()
    (.ok (.int 1, ())) := Machine.yields_of_runFor (n := 8) rfl

theorem moduleF_yields : (loaded (Pipeline.compileTopsWithContracts noNumbers moduleF)).Yields ()
    (.ok (.int 1, ())) := Machine.yields_of_runFor (n := 8) rfl

theorem checkedF_yields : (loaded (Pipeline.compileTopsWithContracts noNumbers checkedF)).Yields ()
    (.error (.error (.contractViolation "f" .requires "(> x 0)"))) :=
  Machine.yields_of_runFor (n := 12) rfl

theorem undefined_yields : (loaded (bare [.nil, .call "f" [.int 1]])).Yields ()
    (.error (.error (.undefinedSymbol "f"))) := Machine.yields_of_runFor (n := 8) rfl

theorem unchecked_yields :
    (loaded (bare [.func "f" ["x"] (.load "x"), .call "f" [.int (-1)]])).Yields
    () (.ok (.int (-1), ())) := Machine.yields_of_runFor (n := 8) rfl

/-- The driver evaluates the first two programs to 1 and reports a violated contract of the third;
the runtime's lowering leaves `f` undefined in the first two, the agent's in the second, and both
evaluate the third to -1. -/
theorem definitions_left_out :
    ¬ RunAlike (Pipeline.compileTopsWithContracts noNumbers definedF)
      (bare (AstToIr.compileTops definedF)) ∧
    ¬ RunAlike (Pipeline.compileTopsWithContracts noNumbers moduleF)
      (bare (AstToIr.compileTops moduleF)) ∧
    ¬ RunAlike (Pipeline.compileTopsWithContracts noNumbers moduleF)
      (bare (AgentRuntime.compileTops moduleF)) ∧
    ¬ RunAlike (Pipeline.compileTopsWithContracts noNumbers checkedF)
      (bare (AstToIr.compileTops checkedF)) ∧
    ¬ RunAlike (Pipeline.compileTopsWithContracts noNumbers checkedF)
      (bare (AgentRuntime.compileTops checkedF)) := by
  have hundefined : AstToIr.compileTops definedF = [.nil, .call "f" [.int 1]] ∧
      AstToIr.compileTops moduleF = [.nil, .call "f" [.int 1]] ∧
      AgentRuntime.compileTops moduleF = [.nil, .call "f" [.int 1]] := ⟨rfl, rfl, rfl⟩
  have hunchecked : AstToIr.compileTops checkedF =
        [.func "f" ["x"] (.load "x"), .call "f" [.int (-1)]] ∧
      AgentRuntime.compileTops checkedF =
        [.func "f" ["x"] (.load "x"), .call "f" [.int (-1)]] := ⟨rfl, rfl⟩
  rw [hundefined.1, hundefined.2.1, hundefined.2.2, hunchecked.1, hunchecked.2]
  have hmissing := @not_runAlike _ _ _ _ _ rfl moduleF_yields undefined_yields (by simp)
  have hreported := @not_runAlike _ _ _ _ _ rfl checkedF_yields unchecked_yields (by simp)
  exact ⟨not_runAlike rfl definedF_yields undefined_yields (by simp), hmissing, hmissing, hreported,
    hreported⟩

end Airl.Lowering
