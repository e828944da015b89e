import Airl.Runtime.Value

/-! # The runtime's arithmetic

`arithmetic.rs` and `comparison.rs` of `airl-rt`, which compiled code calls. A kind
that a function does not know goes to `rt_error`, which ends the process.
-/

namespace Airl

namespace Value

variable {Code : Type}

def airlAdd : Value Code → Value Code → Except Fault (Value Code)
  | .int x, .int y => .ok (.int (x + y))
  | .float x, .float y => .ok (.float (Float.ofBits x + Float.ofBits y).toBits)
  | .str x, .str y => .ok (.str (x ++ y))
  | _, _ => .error .exit

def airlSub : Value Code → Value Code → Except Fault (Value Code)
  | .int x, .int y => .ok (.int (x - y))
  | .float x, .float y => .ok (.float (Float.ofBits x - Float.ofBits y).toBits)
  | _, _ => .error .exit

def airlMul : Value Code → Value Code → Except Fault (Value Code)
  | .int x, .int y => .ok (.int (x * y))
  | .float x, .float y => .ok (.float (Float.ofBits x * Float.ofBits y).toBits)
  | _, _ => .error .exit

def airlDiv : Value Code → Value Code → Except Fault (Value Code)
  | .int x, .int y =>
    if y = 0 then .error .exit
    else if x = Int64.minValue ∧ y = -1 then .error .exit
    else .ok (.int (x / y))
  | .float x, .float y => .ok (.float (Float.ofBits x / Float.ofBits y).toBits)
  | _, _ => .error .exit

def airlMod : Value Code → Value Code → Except Fault (Value Code)
  | .int x, .int y =>
    if y = 0 then .error .exit
    else if x = Int64.minValue ∧ y = -1 then .error .exit
    else .ok (.int (x % y))
  | _, _ => .error .exit

/-- `Op::Neg` is compiled to `airl_sub` from a zero. -/
def compiledNeg (x : Value Code) : Except Fault (Value Code) := airlSub (.int 0) x

def airlEq (x y : Value Code) : Except Fault (Value Code) := .ok (.bool (x.rtValuesEqual y))

/-- The four orderings of `comparison.rs`. -/
def airlOrder (ints : Int64 → Int64 → Bool) (floats : Float → Float → Bool)
    (strs : String → String → Bool) : Value Code → Value Code → Except Fault (Value Code)
  | .int x, .int y => .ok (.bool (ints x y))
  | .float x, .float y => .ok (.bool (floats (Float.ofBits x) (Float.ofBits y)))
  | .str x, .str y => .ok (.bool (strs x y))
  | _, _ => .error .exit

def airlLt : Value Code → Value Code → Except Fault (Value Code) :=
  airlOrder (fun x y => decide (x < y)) (fun x y => decide (x < y)) (fun x y => decide (x < y))

def airlLe : Value Code → Value Code → Except Fault (Value Code) :=
  airlOrder (fun x y => decide (x ≤ y)) (fun x y => decide (x ≤ y)) (fun x y => !decide (y < x))

def airlGt : Value Code → Value Code → Except Fault (Value Code) :=
  airlOrder (fun x y => decide (y < x)) (fun x y => decide (y < x)) (fun x y => decide (y < x))

def airlGe : Value Code → Value Code → Except Fault (Value Code) :=
  airlOrder (fun x y => decide (y ≤ x)) (fun x y => decide (y ≤ x)) (fun x y => !decide (x < y))

/-- `-x` in the machine. A build with overflow checks panics at the least integer, any other
wraps. -/
def negIn (overflowChecks : Bool) : Value Code → Except Fault (Value Code)
  | .int x => if overflowChecks ∧ x = Int64.minValue then .error .panic else .ok (.int (-x))
  | .float x => .ok (.float (-Float.ofBits x).toBits)
  | _ => .error (.error (.typeError "neg: expected number"))

end Value

end Airl
