import Airl.Syntax.Ast

/-! # Sub-expressions

Induction over expressions through the list of the expressions that stand directly in one, and
properties that hold of an expression and of everything in it.
-/

namespace Airl

def LetBinding.value : LetBinding → Expr
  | ⟨_, _, value, _⟩ => value

def Param.default_ : Param → Option Expr
  | ⟨_, _, _, default_, _⟩ => default_

def FieldInit.value : FieldInit → Expr
  | ⟨_, value⟩ => value

/-- The expressions that stand directly in one. -/
def ExprKind.children : ExprKind → List Expr
  | .ite cond then_ else_ => [cond, then_, else_]
  | .let bindings body => body :: bindings.map LetBinding.value
  | .do exprs => exprs
  | .match scrutinee arms => scrutinee :: arms.map MatchArm.body
  | .lambda params body => body :: params.filterMap Param.default_
  | .fnCall callee args => callee :: args
  | .try inner => [inner]
  | .forall param whereClause body =>
    body :: (whereClause.toList ++ param.default_.toList)
  | .exists param whereClause body =>
    body :: (whereClause.toList ++ param.default_.toList)
  | .variantCtor _ args => args
  | .structLit _ fields => fields.map FieldInit.value
  | .listLit items => items
  | _ => []

def Expr.children (e : Expr) : List Expr := e.kind.children

section Induction

variable {p : Expr → Prop}

mutual

theorem Expr.childInduction (h : ∀ e : Expr, (∀ c ∈ e.children, p c) → p e) : ∀ e : Expr, p e
  | ⟨kind, span⟩ => h ⟨kind, span⟩ (ExprKind.childInduction h kind)

theorem ExprKind.childInduction (h : ∀ e : Expr, (∀ c ∈ e.children, p c) → p e) :
    ∀ (kind : ExprKind), ∀ c ∈ kind.children, p c
  | .ite cond then_ else_, c, hc => by
    simp only [ExprKind.children, List.mem_cons, List.not_mem_nil, or_false] at hc
    rcases hc with heq | heq | heq
    · exact heq ▸ Expr.childInduction h cond
    · exact heq ▸ Expr.childInduction h then_
    · exact heq ▸ Expr.childInduction h else_
  | .let bindings body, c, hc => by
    rcases List.mem_cons.mp hc with heq | hc
    · exact heq ▸ Expr.childInduction h body
    · exact bindingsInduction h bindings c hc
  | .do exprs, c, hc => exprsInduction h exprs c hc
  | .match scrutinee arms, c, hc => by
    rcases List.mem_cons.mp hc with heq | hc
    · exact heq ▸ Expr.childInduction h scrutinee
    · exact armsInduction h arms c hc
  | .lambda params body, c, hc => by
    rcases List.mem_cons.mp hc with heq | hc
    · exact heq ▸ Expr.childInduction h body
    · exact paramsInduction h params c hc
  | .fnCall callee args, c, hc => by
    rcases List.mem_cons.mp hc with heq | hc
    · exact heq ▸ Expr.childInduction h callee
    · exact exprsInduction h args c hc
  | .try inner, c, hc => by
    rw [List.mem_singleton.mp hc]
    exact Expr.childInduction h inner
  | .forall param whereClause body, c, hc => by
    rcases List.mem_cons.mp hc with heq | hc
    · exact heq ▸ Expr.childInduction h body
    · rcases List.mem_append.mp hc with hc | hc
      · exact optionInduction h whereClause c (Option.mem_toList.mp hc)
      · exact paramInduction h param c (Option.mem_toList.mp hc)
  | .exists param whereClause body, c, hc => by
    rcases List.mem_cons.mp hc with heq | hc
    · exact heq ▸ Expr.childInduction h body
    · rcases List.mem_append.mp hc with hc | hc
      · exact optionInduction h whereClause c (Option.mem_toList.mp hc)
      · exact paramInduction h param c (Option.mem_toList.mp hc)
  | .variantCtor _ args, c, hc => exprsInduction h args c hc
  | .structLit _ fields, c, hc => fieldsInduction h fields c hc
  | .listLit items, c, hc => exprsInduction h items c hc
  | .intLit _, _, hc => nomatch hc
  | .floatLit _, _, hc => nomatch hc
  | .strLit _, _, hc => nomatch hc
  | .boolLit _, _, hc => nomatch hc
  | .nilLit, _, hc => nomatch hc
  | .symbolRef _, _, hc => nomatch hc
  | .keywordLit _, _, hc => nomatch hc

theorem exprsInduction (h : ∀ e : Expr, (∀ c ∈ e.children, p c) → p e) :
    ∀ (es : List Expr), ∀ c ∈ es, p c
  | [], _, hc => nomatch hc
  | e :: es, c, hc => by
    rcases List.mem_cons.mp hc with heq | hc
    · exact heq ▸ Expr.childInduction h e
    · exact exprsInduction h es c hc

theorem bindingsInduction (h : ∀ e : Expr, (∀ c ∈ e.children, p c) → p e) :
    ∀ (bindings : List LetBinding), ∀ c ∈ bindings.map LetBinding.value, p c
  | [], _, hc => nomatch hc
  | ⟨_, _, value, _⟩ :: bindings, c, hc => by
    rcases List.mem_cons.mp hc with heq | hc
    · exact heq ▸ Expr.childInduction h value
    · exact bindingsInduction h bindings c hc

theorem armsInduction (h : ∀ e : Expr, (∀ c ∈ e.children, p c) → p e) :
    ∀ (arms : List MatchArm), ∀ c ∈ arms.map MatchArm.body, p c
  | [], _, hc => nomatch hc
  | ⟨_, body, _⟩ :: arms, c, hc => by
    rcases List.mem_cons.mp hc with heq | hc
    · exact heq ▸ Expr.childInduction h body
    · exact armsInduction h arms c hc

theorem fieldsInduction (h : ∀ e : Expr, (∀ c ∈ e.children, p c) → p e) :
    ∀ (fields : List FieldInit), ∀ c ∈ fields.map FieldInit.value, p c
  | [], _, hc => nomatch hc
  | ⟨_, value⟩ :: fields, c, hc => by
    rcases List.mem_cons.mp hc with heq | hc
    · exact heq ▸ Expr.childInduction h value
    · exact fieldsInduction h fields c hc

theorem paramsInduction (h : ∀ e : Expr, (∀ c ∈ e.children, p c) → p e) :
    ∀ (params : List Param), ∀ c ∈ params.filterMap Param.default_, p c
  | [], _, hc => nomatch hc
  | ⟨_, _, _, none, _⟩ :: params, c, hc => paramsInduction h params c hc
  | ⟨_, _, _, some e, _⟩ :: params, c, hc => by
    rcases List.mem_cons.mp hc with heq | hc
    · exact heq ▸ Expr.childInduction h e
    · exact paramsInduction h params c hc

theorem paramInduction (h : ∀ e : Expr, (∀ c ∈ e.children, p c) → p e) :
    ∀ (param : Param), ∀ c ∈ param.default_, p c
  | ⟨_, _, _, default_, _⟩, c, hc => optionInduction h default_ c hc

theorem optionInduction (h : ∀ e : Expr, (∀ c ∈ e.children, p c) → p e) :
    ∀ (o : Option Expr), ∀ c ∈ o, p c
  | none, _, hc => nomatch hc
  | some e, _, hc => Option.some.inj hc ▸ Expr.childInduction h e

end

end Induction

/-- The property holds of the expression and of everything in it. -/
inductive Expr.Everywhere (p : Expr → Prop) : Expr → Prop where
  | mk {e : Expr} (here : p e) (inside : ∀ c ∈ e.children, Expr.Everywhere p c) :
      Expr.Everywhere p e

namespace Expr.Everywhere

variable {p q : Expr → Prop} {e : Expr}

theorem here (h : e.Everywhere p) : p e := by
  cases h with
  | mk here inside => exact here

theorem inside (h : e.Everywhere p) : ∀ c ∈ e.children, c.Everywhere p := by
  cases h with
  | mk here inside => exact inside

end Expr.Everywhere

end Airl
