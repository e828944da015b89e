import Airl.Parser.Definitions

/-! # Runs of the parser

What a run that gives a result has done on its way, and what no run does.
-/

namespace Airl.Parser

section Steps

variable {α β : Type} {s s' : ParserState}

/-- The state that the first part leaves is where the second begins. -/
theorem exec_bind (x : Parse α) (f : α → Parse β) (s : ParserState) :
    exec (x >>= f) s = match exec x s with
      | (.ok a, s₁) => exec (f a) s₁
      | (.error d, s₁) => (.error d, s₁) := by
  simp only [exec, ExceptT.run_bind, StateT.run_bind, Id.run_bind]
  rcases (StateT.run x.run s).run with ⟨_ | _, _⟩ <;> rfl

/-- A sequence yields what its second part does from the state of the first. -/
@[simp] theorem yields_bind {x : Parse α} {f : α → Parse β} {b : β} :
    Yields (x >>= f) s b s' ↔ ∃ a s₁, Yields x s a s₁ ∧ Yields (f a) s₁ b s' := by
  unfold Yields
  rw [exec_bind]
  -- the first part has either refused the form or given a value
  rcases exec x s with ⟨_ | a, s₁⟩ <;> simp

@[simp] theorem yields_pure {a b : α} : Yields (pure a : Parse α) s b s' ↔ b = a ∧ s' = s := by
  simp [Yields, exec, eq_comm]

@[simp] theorem not_yields_throw {d : Diagnostic} {a : α} :
    ¬ Yields (throw d : Parse α) s a s' := by
  simp [Yields, exec]

@[simp] theorem yields_ofExcept {x : Except Diagnostic α} {a : α} :
    Yields (ofExcept x) s a s' ↔ x = .ok a ∧ s' = s := by
  simp [Yields, ofExcept, exec, eq_comm]

@[simp] theorem yields_report {d : Diagnostic} {u : Unit} :
    Yields (report d) s u s' ↔ s' = { s with diags := s.diags ++ [d] } := by
  have h : exec (report d) s = (.ok (), { s with diags := s.diags ++ [d] }) := rfl
  simp [Yields, h, eq_comm]

@[simp] theorem yields_gensym {name : String} :
    Yields gensym s name s' ↔
      name = gensymName s.gensyms ∧ s' = { s with gensyms := s.gensyms + 1 } := by
  have h : exec gensym s = (.ok (gensymName s.gensyms), { s with gensyms := s.gensyms + 1 }) := rfl
  simp [Yields, h, eq_comm]

end Steps

/-- From `s` to `s'` only warnings were added, and the counter did not go back. -/
structure Grown (s s' : ParserState) : Prop where
  gensyms : s.gensyms ≤ s'.gensyms
  diags : ∃ warnings, s'.diags = s.diags ++ warnings ∧ ∀ d ∈ warnings, d.severity = .warning

theorem Grown.refl (s : ParserState) : Grown s s := ⟨Nat.le_refl _, [], by simp, by simp⟩

/-- Growth adds up. -/
theorem Grown.trans {s s₁ s' : ParserState} (h : Grown s s₁) (h' : Grown s₁ s') : Grown s s' := by
  obtain ⟨hle, ws, hws, hw⟩ := h
  obtain ⟨hle', ws', hws', hw'⟩ := h'
  refine ⟨Nat.le_trans hle hle', ws ++ ws', by rw [hws', hws, List.append_assoc], ?_⟩
  intro d hd
  exact (List.mem_append.mp hd).elim (hw d) (hw' d)

def Grows {α : Type} (x : Parse α) : Prop := ∀ s a s', Yields x s a s' → Grown s s'

namespace Grows

variable {α β : Type}

/-- A sequence grows if both its parts do. -/
theorem bind {x : Parse α} {f : α → Parse β} (hx : Grows x) (hf : ∀ a, Grows (f a)) :
    Grows (x >>= f) := by
  intro s b s' h
  obtain ⟨a, s₁, ha, hb⟩ := yields_bind.mp h
  exact (hx s a s₁ ha).trans (hf a s₁ b s' hb)

theorem pure (a : α) : Grows (pure a : Parse α) := by
  intro s b s' h
  obtain ⟨-, rfl⟩ := yields_pure.mp h
  exact .refl _

theorem throw (d : Diagnostic) : Grows (throw d : Parse α) := by
  intro s a s' h
  exact absurd h not_yields_throw

theorem ofExcept (x : Except Diagnostic α) : Grows (ofExcept x) := by
  intro s a s' h
  obtain ⟨-, rfl⟩ := yields_ofExcept.mp h
  exact .refl _

/-- A warning lets the diagnostics grow. -/
theorem report {d : Diagnostic} (hd : d.severity = .warning) : Grows (report d) := by
  intro s u s' h
  obtain rfl := yields_report.mp h
  exact ⟨Nat.le_refl _, [d], rfl, by simpa using hd⟩

theorem gensym : Grows gensym := by
  intro s name s' h
  obtain ⟨-, rfl⟩ := yields_gensym.mp h
  exact ⟨Nat.le_succ _, [], by simp, by simp⟩

theorem ignoreExtra (form : String) (extra : List SExpr) : Grows (ignoreExtra form extra) := by
  cases extra with
  | nil => exact pure ()
  | cons item items => exact report rfl

/-- Reading a list pattern grows, if reading the value does. -/
theorem destructureList {debug : SExpr → String} (patternItems : List SExpr) (span : Span)
    {value : Parse Expr} (hvalue : Grows value) :
    Grows (destructureList debug patternItems span value) :=
  gensym.bind fun _ => hvalue.bind fun _ => (ofExcept _).bind fun _ => pure _

/-- Reading a map pattern grows, if reading the value does. -/
theorem destructureMap {debug : SExpr → String} (patternItems : List SExpr) (span : Span)
    {value : Parse Expr} (hvalue : Grows value) :
    Grows (destructureMap debug patternItems span value) :=
  gensym.bind fun _ => hvalue.bind fun _ => (ofExcept _).bind fun _ => pure _

/-- Reading a parameter grows, if reading its default does. -/
theorem paramWith {debug : SExpr → String} (items : List SExpr) (span : Span)
    {exprAt : Nat → Parse (Option Expr)} (hexpr : ∀ idx, Grows (exprAt idx)) :
    Grows (paramWith debug items span exprAt) :=
  (ofExcept _).bind fun _ => (hexpr _).bind fun _ => pure _

end Grows

variable (debug : SExpr → String)

mutual

/-- Reading an expression reports nothing but warnings; the induction is on the tree. -/
theorem parseExpr_grows (sexpr : SExpr) : Grows (parseExpr debug sexpr) := by
  cases sexpr with
  | atom kind span => rw [parseExpr]; exact .ofExcept _
  | bracketList items span =>
    rw [parseExpr]
    exact (parseExprs_grows items).bind fun _ => .pure _
  | list items span =>
    cases items with
    | nil => rw [parseExpr]; exact .pure _
    | cons head rest =>
      rw [parseExpr]
      cases formOf head with
      | ite => exact parseIfExpr_grows span rest
      | «let» => exact parseLetExpr_grows span rest
      | «do» => exact (parseExprs_grows rest).bind fun _ => .pure _
      | «match» => exact parseMatchExpr_grows span rest
      | fn => exact parseLambdaExpr_grows span rest
      | «try» => exact parseTryExpr_grows span rest
      | quantifier isForall => exact parseQuantifierExpr_grows isForall span rest
      | thread last => exact parseThread_grows last span rest
      | variantCtor name => exact (parseExprs_grows rest).bind fun _ => .pure _
      | fnCall =>
        exact (parseExpr_grows head).bind fun _ =>
          (parseExprs_grows rest).bind fun _ => .pure _

theorem parseExprs_grows (items : List SExpr) : Grows (parseExprs debug items) := by
  cases items with
  | nil => rw [parseExprs]; exact .pure _
  | cons item items =>
    rw [parseExprs]
    exact (parseExpr_grows item).bind fun _ => (parseExprs_grows items).bind fun _ => .pure _

theorem parseIfExpr_grows (span : Span) (items : List SExpr) :
    Grows (parseIfExpr debug span items) := by
  match items with
  | [cond, then_, else_] =>
    rw [parseIfExpr]
    exact (parseExpr_grows cond).bind fun _ => (parseExpr_grows then_).bind fun _ =>
      (parseExpr_grows else_).bind fun _ => .pure _
  | [] | [_] | [_, _] | _ :: _ :: _ :: _ :: _ => rw [parseIfExpr] <;> first | exact .throw _ | simp

theorem parseLetExpr_grows (span : Span) (items : List SExpr) :
    Grows (parseLetExpr debug span items) := by
  cases items with
  | nil => rw [parseLetExpr]; exact .throw _
  | cons item items =>
    rw [parseLetExpr]
    split
    · exact (parseLetBindingsFrom_grows item).bind fun _ => parseLetRest_grows span _ items
    · split
      · exact .throw _
      · exact (parseExpr_grows item).bind fun _ => (Grows.ignoreExtra _ _).bind fun _ => .pure _

theorem parseLetRest_grows (span : Span) (bindings : List LetBinding) (items : List SExpr) :
    Grows (parseLetRest debug span bindings items) := by
  cases items with
  | nil => rw [parseLetRest]; exact .throw _
  | cons item items =>
    rw [parseLetRest]
    split
    · exact (parseLetBindingsFrom_grows item).bind fun _ => parseLetRest_grows span _ items
    · exact (parseExpr_grows item).bind fun _ => (Grows.ignoreExtra _ _).bind fun _ => .pure _

/-- Each form of a binding, plain, typed or destructuring. -/
theorem parseLetBindingsFrom_grows (sexpr : SExpr) :
    Grows (parseLetBindingsFrom debug sexpr) := by
  cases sexpr with
  | atom kind span => rw [parseLetBindingsFrom] <;> first | exact .throw _ | simp
  | bracketList items span => rw [parseLetBindingsFrom] <;> first | exact .throw _ | simp
  | list items span =>
    cases items with
    | nil => rw [parseLetBindingsFrom]; exact .throw _
    | cons head rest =>
      cases head with
      | bracketList patternItems pspan =>
        rw [parseLetBindingsFrom]
        exact parseListDestructure_grows patternItems span rest
      | list patternItems pspan =>
        rw [parseLetBindingsFrom]
        split
        · exact parseMapDestructure_grows patternItems span rest
        · exact parseTypedBinding_grows _ span rest
      | atom kind aspan =>
        rw [parseLetBindingsFrom]
        exact parseTypedBinding_grows _ span rest

theorem parseTypedBinding_grows (nameItem : SExpr) (span : Span) (items : List SExpr) :
    Grows (parseTypedBinding debug nameItem span items) := by
  match items with
  | _ :: ty :: value :: _ =>
    rw [parseTypedBinding]
    exact (Grows.ofExcept _).bind fun _ => (Grows.ofExcept _).bind fun _ =>
      (parseExpr_grows value).bind fun _ => .pure _
  | [] | [_] | [_, _] => rw [parseTypedBinding] <;> first | exact .throw _ | simp

theorem parseListDestructure_grows (patternItems : List SExpr) (span : Span)
    (items : List SExpr) : Grows (parseListDestructure debug patternItems span items) := by
  match items with
  | [] => rw [parseListDestructure]; exact .throw _
  | [first] | [first, _] =>
    rw [parseListDestructure]
    · exact .destructureList _ _ (parseExpr_grows first)
    · simp
  | first :: ty :: value :: _ =>
    rw [parseListDestructure]
    split
    · exact (Grows.ofExcept _).bind fun _ => .destructureList _ _ (parseExpr_grows value)
    · exact .destructureList _ _ (parseExpr_grows first)

theorem parseMapDestructure_grows (patternItems : List SExpr) (span : Span)
    (items : List SExpr) : Grows (parseMapDestructure debug patternItems span items) := by
  cases items with
  | nil => rw [parseMapDestructure]; exact .throw _
  | cons value rest => rw [parseMapDestructure]; exact .destructureMap _ _ (parseExpr_grows value)

theorem parseMatchExpr_grows (span : Span) (items : List SExpr) :
    Grows (parseMatchExpr debug span items) := by
  cases items with
  | nil => rw [parseMatchExpr]; exact .throw _
  | cons scrutinee rest =>
    rw [parseMatchExpr]
    refine (parseExpr_grows scrutinee).bind fun _ => ?_
    split
    · exact .throw _
    · exact (parseArms_grows rest).bind fun _ => .pure _

theorem parseArms_grows (items : List SExpr) : Grows (parseArms debug items) := by
  match items with
  | pat :: body :: rest =>
    rw [parseArms]
    exact (Grows.ofExcept _).bind fun _ => (parseExpr_grows body).bind fun _ =>
      (parseArms_grows rest).bind fun _ => .pure _
  | [] | [_] => rw [parseArms] <;> first | exact .pure _ | simp

theorem parseLambdaExpr_grows (span : Span) (items : List SExpr) :
    Grows (parseLambdaExpr debug span items) := by
  match items with
  | params :: body :: extra =>
    rw [parseLambdaExpr]
    exact (parseLambdaParams_grows params).bind fun _ => (parseExpr_grows body).bind fun _ =>
      (Grows.ignoreExtra _ _).bind fun _ => .pure _
  | [] | [_] => rw [parseLambdaExpr] <;> first | exact .throw _ | simp

theorem parseLambdaParams_grows (sexpr : SExpr) : Grows (parseLambdaParams debug sexpr) := by
  cases sexpr with
  | bracketList items span => rw [parseLambdaParams]; exact parseLambdaItems_grows items
  | atom kind span => rw [parseLambdaParams] <;> first | exact .throw _ | simp
  | list items span => rw [parseLambdaParams] <;> first | exact .throw _ | simp

theorem parseLambdaItems_grows (items : List SExpr) : Grows (parseLambdaItems debug items) := by
  cases items with
  | nil => rw [parseLambdaItems]; exact .pure _
  | cons item items =>
    rw [parseLambdaItems]
    exact (parseLambdaItem_grows item).bind fun _ =>
      (parseLambdaItems_grows items).bind fun _ => .pure _

/-- Each form of a parameter of a lambda. -/
theorem parseLambdaItem_grows (item : SExpr) : Grows (parseLambdaItem debug item) := by
  cases item with
  | list items span => rw [parseLambdaItem]; exact .paramWith _ _ fun idx =>
      parseExprAt_grows idx items
  | bracketList items span => rw [parseLambdaItem] <;> first | exact .throw _ | simp
  | atom kind span =>
    cases kind with
    | symbol s => rw [parseLambdaItem]; exact .pure _
    | _ => rw [parseLambdaItem] <;> first | exact .throw _ | simp

theorem parseExprAt_grows (idx : Nat) (items : List SExpr) :
    Grows (parseExprAt debug idx items) := by
  cases items with
  | nil => rw [parseExprAt]; exact .pure _
  | cons item items =>
    cases idx with
    | zero =>
      rw [parseExprAt]
      exact (parseExpr_grows item).bind fun _ => .pure _
    | succ idx =>
      rw [parseExprAt]
      exact parseExprAt_grows idx items

theorem parseTryExpr_grows (span : Span) (items : List SExpr) :
    Grows (parseTryExpr debug span items) := by
  match items with
  | [inner] => rw [parseTryExpr]; exact (parseExpr_grows inner).bind fun _ => .pure _
  | [] | _ :: _ :: _ => rw [parseTryExpr] <;> first | exact .throw _ | simp

theorem parseQuantifierExpr_grows (isForall : Bool) (span : Span) (items : List SExpr) :
    Grows (parseQuantifierExpr debug isForall span items) := by
  match items with
  | [] | [_] => rw [parseQuantifierExpr] <;> first | exact .throw _ | simp
  | [_, second] =>
    rw [parseQuantifierExpr]
    exact (Grows.ofExcept _).bind fun _ => (parseExpr_grows second).bind fun _ => .pure _
  | _ :: second :: body :: _ =>
    rw [parseQuantifierExpr]
    refine (Grows.ofExcept _).bind fun _ => ?_
    dsimp only
    split
    · exact (parseWhere_grows span second).bind fun _ =>
        (parseExpr_grows body).bind fun _ => .pure _
    · exact (parseExpr_grows second).bind fun _ => .pure _

theorem parseWhere_grows (span : Span) (sexpr : SExpr) :
    Grows (parseWhere debug span sexpr) := by
  match sexpr with
  | .list [_, guard_] _ => rw [parseWhere]; exact parseExpr_grows guard_
  | .atom _ _ | .bracketList _ _ | .list [] _ | .list [_] _ | .list (_ :: _ :: _ :: _) _ =>
    rw [parseWhere] <;> first | exact .throw _ | simp

/-- The threading forms, whose steps are calls. -/
theorem parseThread_grows (last : Bool) (span : Span) (items : List SExpr) :
    Grows (parseThread debug last span items) := by
  cases items with
  | nil => rw [parseThread]; exact .throw _
  | cons seed steps =>
    rw [parseThread]
    exact (parseExpr_grows seed).bind fun _ => threadSteps_grows last _ steps

theorem threadSteps_grows (last : Bool) (acc : Expr) (steps : List SExpr) :
    Grows (threadSteps debug last acc steps) := by
  cases steps with
  | nil => rw [threadSteps]; exact .pure _
  | cons step steps =>
    rw [threadSteps]
    exact (threadStep_grows last acc step).bind fun _ => threadSteps_grows last _ steps

theorem threadStep_grows (last : Bool) (acc : Expr) (step : SExpr) :
    Grows (threadStep debug last acc step) := by
  match step with
  | .list (head :: args) _ =>
    rw [threadStep]
    exact (parseExpr_grows head).bind fun _ => (parseExprs_grows args).bind fun _ => .pure _
  | .atom kind _ =>
    cases kind with
    | symbol s => rw [threadStep]; exact .pure _
    | _ => rw [threadStep] <;> first | exact .throw _ | simp
  | .bracketList _ _ | .list [] _ => rw [threadStep] <;> first | exact .throw _ | simp

end

theorem parseParam_grows (sexpr : SExpr) : Grows (parseParam debug sexpr) := by
  cases sexpr with
  | list items span => exact .paramWith _ _ fun idx => parseExprAt_grows debug idx items
  | atom kind span => exact .throw _
  | bracketList items span => exact .throw _

theorem parseParams_grows (items : List SExpr) : Grows (parseParams debug items) := by
  induction items with
  | nil => exact .pure _
  | cons item items ih => exact (parseParam_grows debug item).bind fun _ => ih.bind fun _ => .pure _

theorem parseSig_grows (sexpr : SExpr) : Grows (parseSig debug sexpr) := by
  cases sexpr with
  | bracketList items span =>
    refine (parseParams_grows debug _).bind fun _ => ?_
    split
    · exact .pure _
    · exact (Grows.ofExcept _).bind fun _ => .pure _
  | atom kind span => exact .throw _
  | list items span => exact .throw _

/-- A clause of a definition. -/
theorem parseClause_grows (acc : Clauses) (value : SExpr) (clause : Clause) :
    Grows (parseClause debug acc value clause) := by
  cases clause with
  | sig => exact (parseSig_grows debug value).bind fun _ => .pure _
  | body => exact (parseExpr_grows debug value).bind fun _ => .pure _
  | requires | ensures | invariant | pre | post =>
    exact (parseExprs_grows debug _).bind fun _ => .pure _
  | intent | executeOn | priority | verify => exact (Grows.ofExcept _).bind fun _ => .pure _

end Airl.Parser
