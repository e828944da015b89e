import Airl.Runtime.Value

/-! # The intermediate representation

`ir.rs`: expressions without source positions, contracts or types. The clauses
of a function's contract travel beside the program, keyed by function name.
-/

namespace Airl

inductive IRPattern where
  | wild
  | bind (name : String)
  | lit (v : VmValue)
  | variant (tag : String) (subPats : List IRPattern)
  deriving Inhabited

mutual

inductive IRNode where
  | int (v : Int64)
  | float (bits : UInt64)
  | str (s : String)
  | bool (b : Bool)
  | nil
  | load (name : String)
  | ite (cond then_ else_ : IRNode)
  | «do» (exprs : List IRNode)
  | «let» (bindings : List IRBinding) (body : IRNode)
  | func (name : String) (params : List String) (body : IRNode)
  | lambda (params : List String) (body : IRNode)
  | call (name : String) (args : List IRNode)
  | callExpr (callee : IRNode) (args : List IRNode)
  | list (items : List IRNode)
  | variant (tag : String) (args : List IRNode)
  | «match» (scrutinee : IRNode) (arms : List IRArm)
  | «try» (expr : IRNode)

inductive IRBinding where
  | mk (name : String) (expr : IRNode)

inductive IRArm where
  | mk (pattern : IRPattern) (body : IRNode)

end

def IRBinding.name : IRBinding → String
  | ⟨name, _⟩ => name

mutual

/-- The names a pattern binds, in source order (`collect_pattern_bindings`). -/
def IRPattern.bindings : IRPattern → List String
  | .bind name => [name]
  | .variant _ subPats => bindingsList subPats
  | .wild => []
  | .lit _ => []

def IRPattern.bindingsList : List IRPattern → List String
  | [] => []
  | pat :: pats => pat.bindings ++ bindingsList pats

end

/-- One name met by `free_vars`: recorded unless bound or already recorded. -/
def noteFree (name : String) (bound out : List String) : List String :=
  if name ∈ bound ∨ name ∈ out then out else out ++ [name]

mutual

/-- `free_vars`: the names referenced in a node and not bound in it, in order
of first occurrence. -/
def freeVars : IRNode → List String → List String → List String
  | .load name, bound, out => noteFree name bound out
  | .ite c t e, bound, out => freeVars e bound (freeVars t bound (freeVars c bound out))
  | .do exprs, bound, out => freeVarsList exprs bound out
  | .let bindings body, bound, out =>
    let inner := freeVarsBindings bindings bound out
    freeVars body inner.1 inner.2
  | .call name args, bound, out => freeVarsList args bound (noteFree name bound out)
  | .callExpr callee args, bound, out => freeVarsList args bound (freeVars callee bound out)
  | .lambda params body, bound, out => freeVars body (params ++ bound) out
  | .list items, bound, out => freeVarsList items bound out
  | .variant _ args, bound, out => freeVarsList args bound out
  | .match scrutinee arms, bound, out => freeVarsArms arms bound (freeVars scrutinee bound out)
  | .try expr, bound, out => freeVars expr bound out
  | .func _ params body, bound, out => freeVars body (params ++ bound) out
  | _, _, out => out

def freeVarsList : List IRNode → List String → List String → List String
  | [], _, out => out
  | node :: nodes, bound, out => freeVarsList nodes bound (freeVars node bound out)

def freeVarsBindings : List IRBinding → List String → List String → List String × List String
  | [], bound, out => (bound, out)
  | ⟨name, expr⟩ :: bindings, bound, out =>
    freeVarsBindings bindings (name :: bound) (freeVars expr bound out)

def freeVarsArms : List IRArm → List String → List String → List String
  | [], _, out => out
  | ⟨pattern, body⟩ :: arms, bound, out =>
    freeVarsArms arms bound (freeVars body (pattern.bindings ++ bound) out)

end

/-- A contract clause: its expression and its source text. -/
structure Clause where
  ir : IRNode
  source : String

/-- The clauses of one function, as `compile_program_with_contracts` receives them. -/
structure Contracts where
  requires : List Clause := []
  ensures : List Clause := []
  invariants : List Clause := []

end Airl
