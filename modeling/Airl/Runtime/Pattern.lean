import Airl.Runtime.Value
import Airl.Syntax.Ast

/-! # Matching a value

`pattern.rs` of the runtime.
-/

namespace Airl

variable {Code : Type}

def litMatches : LitPattern → Value Code → Bool
  | .int a, .int b => a = b
  | .float a, .float b => a = b
  | .str a, .str b => a = b
  | .bool a, .bool b => a = b
  | .nil, .nil => true
  | _, _ => false

/-- The bindings of one pattern before those of the patterns behind it. -/
def prepend (first rest : Option (List (String × Value Code))) :
    Option (List (String × Value Code)) :=
  match first with
  | some bindings => rest.map (bindings ++ ·)
  | none => none

mutual

def tryMatch : Pattern → Value Code → Option (List (String × Value Code))
  | ⟨.wildcard, _⟩, _ => some []
  | ⟨.binding name, _⟩, value => some [(name, value)]
  | ⟨.literal lit, _⟩, value => if litMatches lit value then some [] else none
  | ⟨.variant name subPatterns, _⟩, .variant vname inner =>
    if vname ≠ name then none else tryPayload subPatterns inner
  | ⟨.variant _ _, _⟩, _ => none
termination_by structural p => p

/-- The sub-patterns against what the variant holds: the unit value, one value, or a tuple. -/
def tryPayload : List Pattern → Value Code → Option (List (String × Value Code))
  | [], .unit => some []
  | [], _ => none
  | [p], inner => tryMatch p inner
  | p :: ps, .tuple (value :: values) =>
    if (value :: values).length ≠ (p :: ps).length then none
    else prepend (tryMatch p value) (tryMatchAll ps values)
  | _ :: _, _ => none
termination_by structural ps => ps

/-- The loop over a tuple. -/
def tryMatchAll : List Pattern → List (Value Code) → Option (List (String × Value Code))
  | p :: ps, value :: values => prepend (tryMatch p value) (tryMatchAll ps values)
  | _, _ => some []
termination_by structural ps => ps

end

end Airl
