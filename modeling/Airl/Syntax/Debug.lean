import Airl.Syntax.Everywhere
import Airl.Library.Debug

/-! # `{:?}` of the syntax tree

`#[derive(Debug)]` on the types of `ast.rs`. The tree of what is written determines the node, spans
included. The digits of a float are given by `FloatText`.
-/

namespace Airl

open Debug (Word)

/-- A bit pattern that is not a number. -/
def isNan (bits : UInt64) : Bool := 0x7FF0000000000000 < (bits &&& 0x7FFFFFFFFFFFFFFF)

/-- `{:?}` of an `f64`: the shortest digits that read back as the number. -/
structure FloatText where
  debug : UInt64 → Word
  injective : ∀ a b, isNan a = false → isNan b = false → debug a = debug b → a = b

def natField (name : Word) (n : Nat) : Debug.Value := .field name (.word (.nat n))

def Span.debug (s : Span) : Debug.Value :=
  .record (.of "Span") [natField (.of "start") s.start, natField (.of "end") s.end_,
    natField (.of "line") s.line, natField (.of "col") s.col]

@[simp] theorem Span.debug_inj {s t : Span} : s.debug = t.debug ↔ s = t := by
  cases s
  cases t
  simp [Span.debug, natField]

/-- A node with its kind and its span. -/
def spanned (name : Word) (kind : Debug.Value) (span : Span) : Debug.Value :=
  .record name [.field (.of "kind") kind, .field (.of "span") span.debug]

@[simp] theorem spanned_inj {name : Word} {k k' : Debug.Value} {s s' : Span} :
    spanned name k s = spanned name k' s' ↔ k = k' ∧ s = s' := by
  simp [spanned]

def NatOp.debug : NatOp → Debug.Value
  | .add => .word (.of "Add")
  | .sub => .word (.of "Sub")
  | .mul => .word (.of "Mul")

@[simp] theorem NatOp.debug_inj {a b : NatOp} : a.debug = b.debug ↔ a = b := by
  cases a <;> cases b <;> simp [NatOp.debug]

def NatExpr.debug : NatExpr → Debug.Value
  | .lit v => .tuple (.of "Lit") [.word (.nat v.toNat)]
  | .var name => .tuple (.of "Var") [.str name]
  | .binOp op lhs rhs => .tuple (.of "BinOp") [op.debug, lhs.debug, rhs.debug]

theorem NatExpr.debug_injective {a b : NatExpr} (h : a.debug = b.debug) : a = b := by
  induction a generalizing b with
  | lit v =>
    cases b <;> simp [NatExpr.debug] at h
    rw [UInt64.toNat_inj.mp h]
  | var name =>
    cases b <;> simp [NatExpr.debug] at h
    rw [h]
  | binOp op lhs rhs ihl ihr =>
    cases b <;> simp [NatExpr.debug] at h
    rw [h.1, ihl h.2.1, ihr h.2.2]

mutual

def AstType.debug : AstType → Debug.Value
  | ⟨kind, span⟩ => spanned (.of "AstType") kind.debug span

def AstTypeKind.debug : AstTypeKind → Debug.Value
  | .named name => .tuple (.of "Named") [.str name]
  | .app name args => .tuple (.of "App") [.str name, .list (debugTypes args)]
  | .func params ret => .tuple (.of "Func") [.list (debugTypes params), ret.debug]
  | .nat n => .tuple (.of "Nat") [n.debug]

def debugTypes : List AstType → List Debug.Value
  | [] => []
  | ty :: tys => ty.debug :: debugTypes tys

end

mutual

theorem AstType.debug_injective : ∀ {a b : AstType}, a.debug = b.debug → a = b
  | ⟨kind, span⟩, ⟨kind', span'⟩, h => by
    simp only [AstType.debug, spanned_inj] at h
    rw [AstTypeKind.debug_injective h.1, h.2]

theorem AstTypeKind.debug_injective : ∀ {a b : AstTypeKind}, a.debug = b.debug → a = b
  | .named name, b, h => by
    cases b <;> simp [AstTypeKind.debug] at h
    rw [h]
  | .app name args, b, h => by
    cases b <;> simp [AstTypeKind.debug] at h
    rw [h.1, debugTypes_injective h.2]
  | .func params ret, b, h => by
    cases b <;> simp [AstTypeKind.debug] at h
    rw [debugTypes_injective h.1, AstType.debug_injective h.2]
  | .nat n, b, h => by
    cases b <;> simp [AstTypeKind.debug] at h
    rw [NatExpr.debug_injective h]

theorem debugTypes_injective : ∀ {as bs : List AstType}, debugTypes as = debugTypes bs → as = bs
  | [], [], _ => rfl
  | [], _ :: _, h => nomatch h
  | _ :: _, [], h => nomatch h
  | a :: as, b :: bs, h => by
    obtain ⟨hhead, htail⟩ := List.cons.inj h
    rw [AstType.debug_injective hhead, debugTypes_injective htail]

end

def boolDebug (b : Bool) : Debug.Value := if b then .word (.of "true") else .word (.of "false")

@[simp] theorem boolDebug_inj {a b : Bool} : boolDebug a = boolDebug b ↔ a = b := by
  cases a <;> cases b <;> simp [boolDebug]

section Floats

variable (F : FloatText)

def intDebug (v : Int64) : Debug.Value := .word (.int v.toInt)

@[simp] theorem intDebug_inj {a b : Int64} : intDebug a = intDebug b ↔ a = b := by
  simp [intDebug, Int64.toInt_inj]

def LitPattern.debug : LitPattern → Debug.Value
  | .int v => .tuple (.of "Int") [intDebug v]
  | .float bits => .tuple (.of "Float") [.word (F.debug bits)]
  | .str s => .tuple (.of "Str") [.str s]
  | .bool b => .tuple (.of "Bool") [boolDebug b]
  | .nil => .word (.of "Nil")

mutual

def Pattern.debug : Pattern → Debug.Value
  | ⟨kind, span⟩ => spanned (.of "Pattern") (PatternKind.debug kind) span

def PatternKind.debug : PatternKind → Debug.Value
  | .wildcard => .word (.of "Wildcard")
  | .binding name => .tuple (.of "Binding") [.str name]
  | .literal lit => .tuple (.of "Literal") [lit.debug F]
  | .variant name subPats => .tuple (.of "Variant") [.str name, .list (debugPatterns subPats)]

def debugPatterns : List Pattern → List Debug.Value
  | [] => []
  | pattern :: patterns => Pattern.debug pattern :: debugPatterns patterns

end

def LitPattern.NanFree : LitPattern → Prop
  | .float bits => isNan bits = false
  | _ => True

mutual

/-- Every float in the pattern is a number. -/
def Pattern.NanFree : Pattern → Prop
  | ⟨kind, _⟩ => PatternKind.NanFree kind

def PatternKind.NanFree : PatternKind → Prop
  | .literal lit => lit.NanFree
  | .variant _ subPats => patternsNanFree subPats
  | _ => True

def patternsNanFree : List Pattern → Prop
  | [] => True
  | pattern :: patterns => Pattern.NanFree pattern ∧ patternsNanFree patterns

end

variable {F}

theorem LitPattern.debug_injective {a b : LitPattern} (ha : a.NanFree) (hb : b.NanFree)
    (h : a.debug F = b.debug F) : a = b := by
  cases a with
  | float bits =>
    cases b <;> simp [LitPattern.debug] at h
    rw [F.injective _ _ ha hb h]
  | _ => cases b <;> simp_all [LitPattern.debug]

mutual

theorem Pattern.debug_injective : ∀ {a b : Pattern}, a.NanFree → b.NanFree →
    a.debug F = b.debug F → a = b
  | ⟨kind, span⟩, ⟨kind', span'⟩, ha, hb, h => by
    simp only [Pattern.debug, spanned_inj] at h
    rw [PatternKind.debug_injective ha hb h.1, h.2]

theorem PatternKind.debug_injective : ∀ {a b : PatternKind}, a.NanFree → b.NanFree →
    a.debug F = b.debug F → a = b
  | .wildcard, b, _, _, h => by
    cases b <;> simp [PatternKind.debug] at h
    rfl
  | .binding name, b, _, _, h => by
    cases b <;> simp [PatternKind.debug] at h
    rw [h]
  | .literal lit, b, ha, hb, h => by
    cases b <;> simp [PatternKind.debug] at h
    rw [LitPattern.debug_injective ha hb h]
  | .variant name subPats, b, ha, hb, h => by
    cases b <;> simp [PatternKind.debug] at h
    rw [h.1, debugPatterns_injective ha hb h.2]

theorem debugPatterns_injective : ∀ {as bs : List Pattern}, patternsNanFree as →
    patternsNanFree bs → debugPatterns F as = debugPatterns F bs → as = bs
  | [], [], _, _, _ => rfl
  | [], _ :: _, _, _, h => nomatch h
  | _ :: _, [], _, _, h => nomatch h
  | a :: as, b :: bs, ha, hb, h => by
    obtain ⟨hhead, htail⟩ := List.cons.inj h
    rw [Pattern.debug_injective ha.1 hb.1 hhead, debugPatterns_injective ha.2 hb.2 htail]

end

def Ownership.debug : Ownership → Debug.Value
  | .own => .word (.of "Own")
  | .ref => .word (.of "Ref")
  | .mut => .word (.of "Mut")
  | .copy => .word (.of "Copy")
  | .default => .word (.of "Default")

@[simp] theorem Ownership.debug_inj {a b : Ownership} : a.debug = b.debug ↔ a = b := by
  cases a <;> cases b <;> simp [Ownership.debug]

variable (F)

mutual

def Expr.debug : Expr → Debug.Value
  | ⟨kind, span⟩ => spanned (.of "Expr") (ExprKind.debug kind) span

def ExprKind.debug : ExprKind → Debug.Value
  | .intLit v => .tuple (.of "IntLit") [intDebug v]
  | .floatLit bits => .tuple (.of "FloatLit") [.word (F.debug bits)]
  | .strLit s => .tuple (.of "StrLit") [.str s]
  | .boolLit b => .tuple (.of "BoolLit") [boolDebug b]
  | .nilLit => .word (.of "NilLit")
  | .symbolRef name => .tuple (.of "SymbolRef") [.str name]
  | .keywordLit k => .tuple (.of "KeywordLit") [.str k]
  | .ite cond then_ else_ =>
    .tuple (.of "If") [Expr.debug cond, Expr.debug then_, Expr.debug else_]
  | .let bindings body => .tuple (.of "Let") [.list (debugBindings bindings), Expr.debug body]
  | .do exprs => .tuple (.of "Do") [.list (debugExprs exprs)]
  | .match scrutinee arms =>
    .tuple (.of "Match") [Expr.debug scrutinee, .list (debugArms arms)]
  | .lambda params body => .tuple (.of "Lambda") [.list (debugParams params), Expr.debug body]
  | .fnCall callee args => .tuple (.of "FnCall") [Expr.debug callee, .list (debugExprs args)]
  | .try inner => .tuple (.of "Try") [Expr.debug inner]
  | .forall param whereClause body =>
    .tuple (.of "Forall") [Param.debug param, debugOption whereClause, Expr.debug body]
  | .exists param whereClause body =>
    .tuple (.of "Exists") [Param.debug param, debugOption whereClause, Expr.debug body]
  | .variantCtor name args => .tuple (.of "VariantCtor") [.str name, .list (debugExprs args)]
  | .structLit name fields => .tuple (.of "StructLit") [.str name, .list (debugFields fields)]
  | .listLit items => .tuple (.of "ListLit") [.list (debugExprs items)]

def Param.debug : Param → Debug.Value
  | ⟨ownership, name, ty, default_, span⟩ =>
    .record (.of "Param") [.field (.of "ownership") ownership.debug,
      .field (.of "name") (.str name), .field (.of "ty") ty.debug,
      .field (.of "default") (debugOption default_), .field (.of "span") span.debug]

def debugExprs : List Expr → List Debug.Value
  | [] => []
  | e :: es => Expr.debug e :: debugExprs es

def debugBindings : List LetBinding → List Debug.Value
  | [] => []
  | ⟨name, ty, value, span⟩ :: bindings =>
    .record (.of "LetBinding") [.field (.of "name") (.str name), .field (.of "ty") ty.debug,
      .field (.of "value") (Expr.debug value), .field (.of "span") span.debug] ::
        debugBindings bindings

def debugArms : List MatchArm → List Debug.Value
  | [] => []
  | ⟨pattern, body, span⟩ :: arms =>
    .record (.of "MatchArm") [.field (.of "pattern") (pattern.debug F),
      .field (.of "body") (Expr.debug body), .field (.of "span") span.debug] :: debugArms arms

def debugParams : List Param → List Debug.Value
  | [] => []
  | param :: params => Param.debug param :: debugParams params

def debugFields : List FieldInit → List Debug.Value
  | [] => []
  | ⟨key, value⟩ :: fields => .anon [.str key, Expr.debug value] :: debugFields fields

def debugOption : Option Expr → Debug.Value
  | none => .word (.of "None")
  | some e => .tuple (.of "Some") [Expr.debug e]

end

variable {F}

/-- Every float of the node itself is a number. -/
def ExprKind.NanFree : ExprKind → Prop
  | .floatLit bits => isNan bits = false
  | .match _ arms => ∀ arm ∈ arms, arm.pattern.NanFree
  | _ => True

/-- Every float in the expression is a number. -/
def Expr.NanFree (e : Expr) : Prop := e.Everywhere fun e => e.kind.NanFree

variable (F)

/-- The expression can be told from every other by what is written. -/
def Told (e : Expr) : Prop := ∀ e', e'.NanFree → e.debug F = e'.debug F → e = e'

variable {F}

theorem debugExprs_injective {es es' : List Expr} (hes : ∀ e ∈ es, Told F e)
    (hes' : ∀ e ∈ es', e.NanFree) (h : debugExprs F es = debugExprs F es') : es = es' := by
  induction es generalizing es' with
  | nil =>
    cases es' with
    | nil => rfl
    | cons e' es' => exact nomatch h
  | cons e es ih =>
    cases es' with
    | nil => exact nomatch h
    | cons e' es' =>
      obtain ⟨hhead, htail⟩ := List.cons.inj h
      rw [hes e List.mem_cons_self e' (hes' e' List.mem_cons_self) hhead,
        ih (fun e he => hes e (List.mem_cons_of_mem _ he))
          (fun e he => hes' e (List.mem_cons_of_mem _ he)) htail]

theorem debugOption_injective {o o' : Option Expr} (ho : ∀ e ∈ o, Told F e)
    (ho' : ∀ e ∈ o', e.NanFree) (h : debugOption F o = debugOption F o') : o = o' := by
  cases o with
  | none =>
    cases o' with
    | none => rfl
    | some e' => simp [debugOption] at h
  | some e =>
    cases o' with
    | none => simp [debugOption] at h
    | some e' =>
      simp only [debugOption, Debug.Value.tuple.injEq, List.cons.injEq, and_true,
        true_and] at h
      rw [ho e rfl e' (ho' e' rfl) h]

theorem Param.debug_injective {a b : Param} (ha : ∀ e ∈ a.default_, Told F e)
    (hb : ∀ e ∈ b.default_, e.NanFree) (h : a.debug F = b.debug F) : a = b := by
  obtain ⟨ownership, name, ty, default_, span⟩ := a
  obtain ⟨ownership', name', ty', default', span'⟩ := b
  simp [Param.debug] at h
  obtain ⟨hownership, hname, hty, hdefault, hspan⟩ := h
  have hoption : default_ = default' := debugOption_injective ha hb hdefault
  rw [hownership, hname, AstType.debug_injective hty, hoption, hspan]

theorem debugParams_injective {as bs : List Param}
    (has : ∀ e ∈ as.filterMap Param.default_, Told F e)
    (hbs : ∀ e ∈ bs.filterMap Param.default_, e.NanFree)
    (h : debugParams F as = debugParams F bs) : as = bs := by
  induction as generalizing bs with
  | nil =>
    cases bs with
    | nil => rfl
    | cons b bs => exact nomatch h
  | cons a as ih =>
    cases bs with
    | nil => exact nomatch h
    | cons b bs =>
      obtain ⟨hhead, htail⟩ := List.cons.inj h
      have hdefaults : ∀ {c : Param} {cs : List Param}, ∀ e ∈ c.default_,
          e ∈ (c :: cs).filterMap Param.default_ := by
        intro c cs e he
        exact List.mem_filterMap.mpr ⟨c, List.mem_cons_self, he⟩
      have hlater : ∀ {c : Param} {cs : List Param}, ∀ e ∈ cs.filterMap Param.default_,
          e ∈ (c :: cs).filterMap Param.default_ := by
        intro c cs e he
        obtain ⟨d, hd, heq⟩ := List.mem_filterMap.mp he
        exact List.mem_filterMap.mpr ⟨d, List.mem_cons_of_mem _ hd, heq⟩
      rw [Param.debug_injective (fun e he => has e (hdefaults e he))
          (fun e he => hbs e (hdefaults e he)) hhead,
        ih (fun e he => has e (hlater e he)) (fun e he => hbs e (hlater e he)) htail]

theorem debugBindings_injective {as bs : List LetBinding}
    (has : ∀ e ∈ as.map LetBinding.value, Told F e)
    (hbs : ∀ e ∈ bs.map LetBinding.value, e.NanFree)
    (h : debugBindings F as = debugBindings F bs) : as = bs := by
  induction as generalizing bs with
  | nil =>
    cases bs with
    | nil => rfl
    | cons b bs =>
      cases b
      exact nomatch h
  | cons a as ih =>
    cases bs with
    | nil =>
      cases a
      exact nomatch h
    | cons b bs =>
      obtain ⟨name, ty, value, span⟩ := a
      obtain ⟨name', ty', value', span'⟩ := b
      simp [debugBindings] at h
      obtain ⟨⟨hname, hty, hvalue, hspan⟩, htail⟩ := h
      have hsame : value = value' :=
        has value List.mem_cons_self value' (hbs value' List.mem_cons_self) hvalue
      rw [hname, AstType.debug_injective hty, hsame, hspan,
        ih (fun e he => has e (List.mem_cons_of_mem _ he))
          (fun e he => hbs e (List.mem_cons_of_mem _ he)) htail]

theorem debugArms_injective {as bs : List MatchArm}
    (has : ∀ e ∈ as.map MatchArm.body, Told F e) (hbs : ∀ e ∈ bs.map MatchArm.body, e.NanFree)
    (has' : ∀ a ∈ as, a.pattern.NanFree) (hbs' : ∀ b ∈ bs, b.pattern.NanFree)
    (h : debugArms F as = debugArms F bs) : as = bs := by
  induction as generalizing bs with
  | nil =>
    cases bs with
    | nil => rfl
    | cons b bs =>
      cases b
      exact nomatch h
  | cons a as ih =>
    cases bs with
    | nil =>
      cases a
      exact nomatch h
    | cons b bs =>
      obtain ⟨pattern, body, span⟩ := a
      obtain ⟨pattern', body', span'⟩ := b
      simp [debugArms] at h
      obtain ⟨⟨hpattern, hbody, hspan⟩, htail⟩ := h
      have hsame : pattern = pattern' := Pattern.debug_injective
        (has' _ List.mem_cons_self) (hbs' _ List.mem_cons_self) hpattern
      have hsame' : body = body' :=
        has body List.mem_cons_self body' (hbs body' List.mem_cons_self) hbody
      rw [hsame, hsame', hspan,
        ih (fun e he => has e (List.mem_cons_of_mem _ he))
          (fun e he => hbs e (List.mem_cons_of_mem _ he))
          (fun a ha => has' a (List.mem_cons_of_mem _ ha))
          (fun b hb => hbs' b (List.mem_cons_of_mem _ hb)) htail]

theorem debugFields_injective {as bs : List FieldInit}
    (has : ∀ e ∈ as.map FieldInit.value, Told F e)
    (hbs : ∀ e ∈ bs.map FieldInit.value, e.NanFree)
    (h : debugFields F as = debugFields F bs) : as = bs := by
  induction as generalizing bs with
  | nil =>
    cases bs with
    | nil => rfl
    | cons b bs =>
      cases b
      exact nomatch h
  | cons a as ih =>
    cases bs with
    | nil =>
      cases a
      exact nomatch h
    | cons b bs =>
      obtain ⟨key, value⟩ := a
      obtain ⟨key', value'⟩ := b
      simp [debugFields] at h
      obtain ⟨⟨hkey, hvalue⟩, htail⟩ := h
      have hsame : value = value' :=
        has value List.mem_cons_self value' (hbs value' List.mem_cons_self) hvalue
      rw [hkey, hsame,
        ih (fun e he => has e (List.mem_cons_of_mem _ he))
          (fun e he => hbs e (List.mem_cons_of_mem _ he)) htail]

theorem mem_default {param : Param} {whereClause : Option Expr} {body e : Expr}
    (he : e ∈ param.default_) :
    e ∈ body :: (whereClause.toList ++ param.default_.toList) :=
  List.mem_cons_of_mem _ (List.mem_append_right _ (Option.mem_toList.mpr he))

theorem mem_where {param : Param} {whereClause : Option Expr} {body e : Expr}
    (he : e ∈ whereClause) :
    e ∈ body :: (whereClause.toList ++ param.default_.toList) :=
  List.mem_cons_of_mem _ (List.mem_append_left _ (Option.mem_toList.mpr he))

/-- What is written of a node determines it, if it does so of what stands in it. -/
theorem ExprKind.debug_injective {kind kind' : ExprKind} (hkind : kind.NanFree)
    (hkind' : kind'.NanFree) (htold : ∀ e ∈ kind.children, Told F e)
    (hinside : ∀ e ∈ kind'.children, e.NanFree) (h : kind.debug F = kind'.debug F) :
    kind = kind' := by
  cases kind with
  | intLit v =>
    cases kind' <;> simp [ExprKind.debug] at h
    rw [h]
  | floatLit bits =>
    cases kind' <;> simp [ExprKind.debug] at h
    rw [F.injective _ _ hkind hkind' h]
  | strLit s =>
    cases kind' <;> simp [ExprKind.debug] at h
    rw [h]
  | boolLit b =>
    cases kind' <;> simp [ExprKind.debug] at h
    rw [h]
  | nilLit =>
    cases kind' <;> simp [ExprKind.debug] at h
    rfl
  | symbolRef name =>
    cases kind' <;> simp [ExprKind.debug] at h
    rw [h]
  | keywordLit k =>
    cases kind' <;> simp [ExprKind.debug] at h
    rw [h]
  | ite cond then_ else_ =>
    cases kind' <;> simp [ExprKind.debug] at h
    rw [htold cond (by simp [ExprKind.children]) _ (hinside _ (by simp [ExprKind.children])) h.1,
      htold then_ (by simp [ExprKind.children]) _ (hinside _ (by simp [ExprKind.children])) h.2.1,
      htold else_ (by simp [ExprKind.children]) _ (hinside _ (by simp [ExprKind.children])) h.2.2]
  | «let» bindings body =>
    cases kind' <;> simp [ExprKind.debug] at h
    rw [htold body List.mem_cons_self _ (hinside _ List.mem_cons_self) h.2,
      debugBindings_injective (fun e he => htold e (List.mem_cons_of_mem _ he))
        (fun e he => hinside e (List.mem_cons_of_mem _ he)) h.1]
  | «do» exprs =>
    cases kind' <;> simp [ExprKind.debug] at h
    exact congrArg ExprKind.do (debugExprs_injective htold hinside h)
  | «match» scrutinee arms =>
    cases kind' <;> simp [ExprKind.debug] at h
    rw [htold scrutinee List.mem_cons_self _ (hinside _ List.mem_cons_self) h.1,
      debugArms_injective (fun e he => htold e (List.mem_cons_of_mem _ he))
        (fun e he => hinside e (List.mem_cons_of_mem _ he)) hkind hkind' h.2]
  | lambda params body =>
    cases kind' <;> simp [ExprKind.debug] at h
    rw [htold body List.mem_cons_self _ (hinside _ List.mem_cons_self) h.2,
      debugParams_injective (fun e he => htold e (List.mem_cons_of_mem _ he))
        (fun e he => hinside e (List.mem_cons_of_mem _ he)) h.1]
  | fnCall callee args =>
    cases kind' <;> simp [ExprKind.debug] at h
    rw [htold callee List.mem_cons_self _ (hinside _ List.mem_cons_self) h.1,
      debugExprs_injective (fun e he => htold e (List.mem_cons_of_mem _ he))
        (fun e he => hinside e (List.mem_cons_of_mem _ he)) h.2]
  | «try» inner =>
    cases kind' <;> simp [ExprKind.debug] at h
    rw [htold inner List.mem_cons_self _ (hinside _ List.mem_cons_self) h]
  | «forall» param whereClause body =>
    cases kind' <;> simp [ExprKind.debug] at h
    obtain ⟨hparam, hwhere, hbody⟩ := h
    rw [htold body List.mem_cons_self _ (hinside _ List.mem_cons_self) hbody,
      Param.debug_injective (fun e he => htold e (mem_default he))
        (fun e he => hinside e (mem_default he)) hparam,
      debugOption_injective (fun e he => htold e (mem_where he))
        (fun e he => hinside e (mem_where he)) hwhere]
  | «exists» param whereClause body =>
    cases kind' <;> simp [ExprKind.debug] at h
    obtain ⟨hparam, hwhere, hbody⟩ := h
    rw [htold body List.mem_cons_self _ (hinside _ List.mem_cons_self) hbody,
      Param.debug_injective (fun e he => htold e (mem_default he))
        (fun e he => hinside e (mem_default he)) hparam,
      debugOption_injective (fun e he => htold e (mem_where he))
        (fun e he => hinside e (mem_where he)) hwhere]
  | variantCtor name args =>
    cases kind' <;> simp [ExprKind.debug] at h
    exact congrArg₂ ExprKind.variantCtor h.1 (debugExprs_injective htold hinside h.2)
  | structLit name fields =>
    cases kind' <;> simp [ExprKind.debug] at h
    exact congrArg₂ ExprKind.structLit h.1 (debugFields_injective htold hinside h.2)
  | listLit items =>
    cases kind' <;> simp [ExprKind.debug] at h
    exact congrArg ExprKind.listLit (debugExprs_injective htold hinside h)

/-- What is written of an expression without NaN determines it. -/
theorem Expr.debug_injective {e e' : Expr} (he : e.NanFree) (he' : e'.NanFree)
    (h : e.debug F = e'.debug F) : e = e' := by
  induction e using Expr.childInduction generalizing e' with
  | h e ih =>
    obtain ⟨kind, span⟩ := e
    obtain ⟨kind', span'⟩ := e'
    simp only [Expr.debug, spanned_inj] at h
    have hkind : kind = kind' := by
      refine ExprKind.debug_injective he.here he'.here ?_ he'.inside h.1
      exact fun c hc c' hc' hsame => ih c hc (he.inside c hc) hc' hsame
    rw [hkind, h.2]

end Floats

end Airl
