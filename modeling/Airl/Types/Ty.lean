import Mathlib.Data.List.AList

/-! # Types and their dimensions

`unify.rs`, and the loop over the shapes of two tensors in `types_compatible` of `checker.rs`. A
substitution may be cyclic, so that whatever follows its bindings has a bound on its recursion.
Sums and products wrap around, as in a release build.

`ty.rs`. A name stands for its interned identifier, except in dimensions.
-/

namespace Airl.Unify

/-- `SymbolId`. -/
abbrev Symbol := UInt32

inductive DimOp where
  | add
  | sub
  | mul
  deriving Repr, DecidableEq

inductive DimExpr where
  | lit (v : UInt64)
  | var (v : Symbol)
  | binOp (op : DimOp) (l r : DimExpr)
  deriving Repr, DecidableEq

abbrev DimSubst := AList (fun _ : Symbol => DimExpr)

def DimOp.debug : DimOp → String
  | .add => "Add"
  | .sub => "Sub"
  | .mul => "Mul"

def DimExpr.debug : DimExpr → String
  | .lit v => "Lit(" ++ toString v.toNat ++ ")"
  | .var v => "Var(SymbolId(" ++ toString v.toNat ++ "))"
  | .binOp op l r => "BinOp(" ++ op.debug ++ ", " ++ l.debug ++ ", " ++ r.debug ++ ")"

def dimensionMismatch (x y : UInt64) : String :=
  "dimension mismatch: " ++ toString x.toNat ++ " vs " ++ toString y.toNat

def circularDimension (v : Symbol) (d : DimExpr) : String :=
  "circular dimension: #" ++ toString v.toNat ++ " occurs in " ++ d.debug

def cannotUnify (a b : DimExpr) : String :=
  "cannot unify dimensions: " ++ a.debug ++ " vs " ++ b.debug

def applySubst (subst : DimSubst) : Nat → DimExpr → Option DimExpr
  | 0, _ => none
  | fuel + 1, .var v =>
    match subst.lookup v with
    | some replacement => applySubst subst fuel replacement
    | none => some (.var v)
  | fuel + 1, .binOp op l r => do
      let l ← applySubst subst fuel l
      let r ← applySubst subst fuel r
      some (.binOp op l r)
  | _ + 1, .lit v => some (.lit v)

def DimOp.eval : DimOp → UInt64 → UInt64 → Option UInt64
  | .add, x, y => some (x + y)
  | .sub, x, y => if y ≤ x then some (x - y) else none
  | .mul, x, y => some (x * y)

def evalDim : DimExpr → Option UInt64
  | .lit v => some v
  | .var _ => none
  | .binOp op l r => do op.eval (← evalDim l) (← evalDim r)

def occurs (v : Symbol) : DimExpr → Bool
  | .var w => w == v
  | .lit _ => false
  | .binOp _ l r => occurs v l || occurs v r

/-- The result of a call that returns: its answer and the substitution it leaves. -/
abbrev UnifyResult := Option (Except String Unit × DimSubst)

/-- A variable against any other dimension. -/
def bindDim (fuel : Nat) (v : Symbol) (other : DimExpr) (subst : DimSubst) : UnifyResult :=
  if other = .var v then some (.ok (), subst)
  else
    match applySubst subst fuel other with
    | none => none
    | some otherSubstituted =>
      if occurs v otherSubstituted then
        some (.error (circularDimension v otherSubstituted), subst)
      else some (.ok (), subst.insert v otherSubstituted)

/-- Two dimensions that are not of one kind. -/
def compareDims (a b : DimExpr) : Except String Unit :=
  match evalDim a, evalDim b with
  | some x, some y => if x = y then .ok () else .error (dimensionMismatch x y)
  | _, _ => .error (cannotUnify a b)

/-- One unification after another; `?` leaves with the first that fails. -/
def andThen (first : UnifyResult) (second : DimSubst → UnifyResult) : UnifyResult :=
  match first with
  | some (.ok (), subst) => second subst
  | some (.error e, subst) => some (.error e, subst)
  | none => none

/-- Sides to which the substitution has been applied; `unify` is the call on their parts. -/
def unifyApplied (unify : DimExpr → DimExpr → DimSubst → UnifyResult) (fuel : Nat)
    (a b : DimExpr) (subst : DimSubst) : UnifyResult :=
  match a, b with
  | .lit x, .lit y => some (if x = y then .ok () else .error (dimensionMismatch x y), subst)
  | .var v, other => bindDim fuel v other subst
  | other, .var v => bindDim fuel v other subst
  | .binOp op₁ l₁ r₁, .binOp op₂ l₂ r₂ =>
    if op₁ = op₂ then andThen (unify l₁ l₂ subst) (unify r₁ r₂)
    else some (compareDims (.binOp op₁ l₁ r₁) (.binOp op₂ l₂ r₂), subst)
  | a, b => some (compareDims a b, subst)

def unifyDim : Nat → DimExpr → DimExpr → DimSubst → UnifyResult
  | 0, _, _, _ => none
  | fuel + 1, a, b, subst => do
      let a ← applySubst subst fuel a
      let b ← applySubst subst fuel b
      unifyApplied (unifyDim fuel) fuel a b subst

def unifyDims (fuel : Nat) : List DimExpr → List DimExpr → DimSubst → UnifyResult
  | a :: as, b :: bs, subst => andThen (unifyDim fuel a b subst) (unifyDims fuel as bs)
  | _, _, subst => some (.ok (), subst)

/-- The shapes of two tensors; the message of the failed unification is dropped. -/
def unifyShapes (fuel : Nat) (as bs : List DimExpr) (subst : DimSubst) :
    Option (Bool × DimSubst) :=
  if as.length ≠ bs.length then some (false, subst)
  else
    match unifyDims fuel as bs subst with
    | some (.ok (), subst) => some (true, subst)
    | some (.error _, subst) => some (false, subst)
    | none => none

end Airl.Unify

namespace Airl

inductive PrimTy where
  | bool
  | i8
  | i16
  | i32
  | i64
  | u8
  | u16
  | u32
  | u64
  | f16
  | f32
  | f64
  | bf16
  | nat
  | str
  deriving Repr, DecidableEq

mutual

inductive Ty where
  | prim (p : PrimTy)
  | tensor (elem : Ty) (shape : List Unify.DimExpr)
  | func (params : List Ty) (ret : Ty)
  | named (name : String) (args : List TyArg)
  | sum (variants : List TyVariant)
  | product (fields : List TyField)
  | typeVar (name : String)
  | nat (d : Unify.DimExpr)
  | unit
  | never

inductive TyArg where
  | type (t : Ty)
  | nat (d : Unify.DimExpr)

inductive TyVariant where
  | mk (name : String) (fields : List Ty)

inductive TyField where
  | mk (name : String) (ty : Ty)

end

def TyVariant.name : TyVariant → String
  | ⟨name, _⟩ => name

def TyVariant.fields : TyVariant → List Ty
  | ⟨_, fields⟩ => fields

end Airl
