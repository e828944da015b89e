import Mathlib.Data.List.Basic

/-! # The syntax tree

`ast.rs`, as the parser hands it to the type checker, the solver and the lowerings. Every node
carries the range of source text it was read from. A float is its bit pattern. The diagnostics of
`diagnostic.rs` are about such ranges.
-/

namespace Airl

/-- A range of bytes, with the line and the column where it begins. -/
structure Span where
  start : Nat
  end_ : Nat
  line : Nat
  col : Nat
  deriving Repr, DecidableEq

/-- `Span::dummy`. -/
def Span.dummy : Span := ⟨0, 0, 0, 0⟩

inductive NatOp where
  | add
  | sub
  | mul
  deriving Repr, DecidableEq

inductive NatExpr where
  | lit (v : UInt64)
  | var (name : String)
  | binOp (op : NatOp) (lhs rhs : NatExpr)
  deriving Repr, DecidableEq

mutual

inductive AstType where
  | mk (kind : AstTypeKind) (span : Span)

inductive AstTypeKind where
  | named (name : String)
  | app (name : String) (args : List AstType)
  | func (params : List AstType) (ret : AstType)
  | nat (n : NatExpr)

end

def AstType.kind : AstType → AstTypeKind
  | ⟨kind, _⟩ => kind

inductive LitPattern where
  | int (v : Int64)
  | float (bits : UInt64)
  | str (s : String)
  | bool (b : Bool)
  | nil
  deriving Repr, DecidableEq

mutual

inductive Pattern where
  | mk (kind : PatternKind) (span : Span)

inductive PatternKind where
  | wildcard
  | binding (name : String)
  | literal (lit : LitPattern)
  | variant (name : String) (subPats : List Pattern)

end

def Pattern.kind : Pattern → PatternKind
  | ⟨kind, _⟩ => kind

/-- The annotation of a parameter; `default` where there is none. -/
inductive Ownership where
  | own
  | ref
  | mut
  | copy
  | default
  deriving Repr, DecidableEq

mutual

inductive Expr where
  | mk (kind : ExprKind) (span : Span)

inductive ExprKind where
  | intLit (v : Int64)
  | floatLit (bits : UInt64)
  | strLit (s : String)
  | boolLit (b : Bool)
  | nilLit
  | symbolRef (name : String)
  | keywordLit (k : String)
  | ite (cond then_ else_ : Expr)
  | «let» (bindings : List LetBinding) (body : Expr)
  | «do» (exprs : List Expr)
  | «match» (scrutinee : Expr) (arms : List MatchArm)
  | lambda (params : List Param) (body : Expr)
  | fnCall (callee : Expr) (args : List Expr)
  | «try» (inner : Expr)
  | «forall» (param : Param) (whereClause : Option Expr) (body : Expr)
  | «exists» (param : Param) (whereClause : Option Expr) (body : Expr)
  | variantCtor (name : String) (args : List Expr)
  | structLit (name : String) (fields : List FieldInit)
  | listLit (items : List Expr)

inductive LetBinding where
  | mk (name : String) (ty : AstType) (value : Expr) (span : Span)

inductive MatchArm where
  | mk (pattern : Pattern) (body : Expr) (span : Span)

inductive Param where
  | mk (ownership : Ownership) (name : String) (ty : AstType) (default_ : Option Expr) (span : Span)

/-- One pair of a struct literal. -/
inductive FieldInit where
  | mk (key : String) (value : Expr)

end

def Expr.kind : Expr → ExprKind
  | ⟨kind, _⟩ => kind

def Expr.span : Expr → Span
  | ⟨_, span⟩ => span

def LetBinding.name : LetBinding → String
  | ⟨name, _, _, _⟩ => name

def MatchArm.pattern : MatchArm → Pattern
  | ⟨pattern, _, _⟩ => pattern

def MatchArm.body : MatchArm → Expr
  | ⟨_, body, _⟩ => body

def Param.ownership : Param → Ownership
  | ⟨ownership, _, _, _, _⟩ => ownership

def Param.name : Param → String
  | ⟨_, name, _, _, _⟩ => name

def Param.ty : Param → AstType
  | ⟨_, _, ty, _, _⟩ => ty

/-- `FnDef`, without what neither the solver nor the checkers nor the lowerings read. -/
structure FnDef where
  name : String
  params : List Param
  returnType : AstType
  requires : List Expr
  ensures : List Expr
  invariants : List Expr
  body : Expr

/-- A function without types and contracts. -/
structure SimpleFnDef where
  name : String
  params : List String
  body : Expr

/-- A top-level form; those without runtime effect by their kind alone. -/
inductive TopLevel where
  | module (name : String) (body : List TopLevel)
  | defn (f : FnDef)
  | define (d : SimpleFnDef)
  | defType
  | task
  | useDecl
  | import_
  | externC
  | expr (e : Expr)

inductive Severity where
  | error
  | warning
  | note
  deriving Repr, DecidableEq

structure Diagnostic where
  severity : Severity
  message : String
  span : Span
  notes : List (Span × String)
  deriving Repr, DecidableEq

def Diagnostic.error (message : String) (span : Span) : Diagnostic := ⟨.error, message, span, []⟩

def Diagnostic.warning (message : String) (span : Span) : Diagnostic :=
  ⟨.warning, message, span, []⟩

def Diagnostic.withNote (d : Diagnostic) (span : Span) (message : String) : Diagnostic :=
  { d with notes := d.notes ++ [(span, message)] }

end Airl
