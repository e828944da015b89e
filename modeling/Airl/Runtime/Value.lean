import Airl.Runtime.RtValue

/-! # Runtime values

One type serves the compiler's constants, the machine's registers and the
reference evaluator. It is generic in what identifies the code of a closure:
the machine names a compiled function, the reference evaluator keeps the
source lambda. Machine integers are `Int64`; a float is its bit pattern.
-/

namespace Airl

/-- `value::Value`. The entries of a map stand in key order. -/
inductive Value (Code : Type) where
  | int (n : Int64)
  | float (bits : UInt64)
  | bool (b : Bool)
  | str (s : String)
  | nil
  | unit
  | list (items : List (Value Code))
  | intList (ints : List Int64)
  | tuple (items : List (Value Code))
  | variant (tag : String) (inner : Value Code)
  | map (entries : List (String × Value Code))
  | builtinFn (name : String)
  | irFuncRef (name : String)
  | bytecodeClosure (code : Code) (captured : List (Value Code))
  | bytes (data : List UInt8)
  | partialApp (func : Value Code) (capturedArgs : List (Value Code)) (remainingArity : Nat)
  | bcFuncNative (copy : Nat) (name : String) (arity regCount captureCount : Nat)
      (constants : List RtValue) (instructions : List BcInstr)
  deriving Repr, Inhabited

/-- Which contract clause an assertion belongs to. -/
inductive ContractKind where
  | requires
  | ensures
  | invariant
  deriving Repr, DecidableEq

/-- `error::RuntimeError`, without the texts that only render a value. -/
inductive RuntimeError where
  | typeError (message : String)
  | contractViolation (function : String) (kind : ContractKind) (clauseSource : String)
  | divisionByZero
  | undefinedSymbol (name : String)
  | notCallable
  | tryOnNonResult
  | tryErr
  | custom (message : String)
  | nonExhaustiveMatch
  | stackOverflow (depth : Nat)
  | bytecodeValidation
  deriving Repr, DecidableEq

/-- How a computation stops without a value: a `RuntimeError`, a Rust panic, a
builtin that ends the process, or a read through a released register. -/
inductive Fault where
  | error (e : RuntimeError)
  | panic
  | exit
  | nullPointer
  deriving Repr, DecidableEq

/-- The machine names the code of a closure by its compiled function. -/
abbrev VmValue := Value String

namespace Value

variable {Code Code' : Type}

/-- The name under which `value_to_rt` files the function of a partial application. -/
def partialName : VmValue → Option String
  | .builtinFn name => some name
  | .irFuncRef name => some name
  | .bytecodeClosure name _ => some name
  | _ => none

mutual

/-- `value_to_rt` followed by `rt_to_value_no_release`: what a register holds
once the value is stored there. Function references become nil, tuples and
integer lists become lists, and a partial application keeps only the name. -/
def toRt : VmValue → VmValue
  | .list items => .list (toRtList items)
  | .intList ints => .list (ints.map .int)
  | .tuple items => .list (toRtList items)
  | .variant tag inner => .variant tag (toRt inner)
  | .map entries => .map (toRtEntries entries)
  | .builtinFn _ => .nil
  | .irFuncRef _ => .nil
  | .bytecodeClosure name captured => .bytecodeClosure name (toRtList captured)
  | .partialApp func capturedArgs remainingArity =>
    match partialName func with
    | some name => .partialApp (.builtinFn name) (toRtList capturedArgs) remainingArity
    | none => .nil
  | v => v

def toRtList : List VmValue → List VmValue
  | [] => []
  | v :: vs => toRt v :: toRtList vs

def toRtEntries : List (String × VmValue) → List (String × VmValue)
  | [] => []
  | (key, v) :: rest => (key, toRt v) :: toRtEntries rest

end

/-- A list is represented element by element. -/
theorem toRtList_eq_map (xs : List VmValue) : toRtList xs = xs.map toRt := by
  induction xs with
  | nil => rfl
  | cons x xs ih => simp [toRtList, ih]

mutual

/-- `impl PartialEq for Value`. -/
def valueEq : VmValue → VmValue → Bool
  | .int a, .int b => a == b
  | .float a, .float b => a == b
  | .bool a, .bool b => a == b
  | .str a, .str b => a == b
  | .nil, .nil => true
  | .unit, .unit => true
  | .list a, .list b => valueEqList a b
  | .intList a, .intList b => a == b
  | .intList xs, .list ys => intListEq xs ys
  | .list ys, .intList xs => intListEq xs ys
  | .tuple a, .tuple b => valueEqList a b
  | .variant na va, .variant nb vb => na == nb && valueEq va vb
  | .map a, .map b => valueEqEntries a b
  | .builtinFn a, .builtinFn b => a == b
  | .irFuncRef a, .irFuncRef b => a == b
  | .bytes a, .bytes b => a == b
  | .partialApp fa ca ra, .partialApp fb cb rb => ra == rb && valueEq fa fb && valueEqList ca cb
  | _, _ => false

def valueEqList : List VmValue → List VmValue → Bool
  | [], [] => true
  | a :: as, b :: bs => valueEq a b && valueEqList as bs
  | _, _ => false

def valueEqEntries : List (String × VmValue) → List (String × VmValue) → Bool
  | [], [] => true
  | (ka, a) :: as, (kb, b) :: bs => ka == kb && valueEq a b && valueEqEntries as bs
  | _, _ => false

def intListEq : List Int64 → List VmValue → Bool
  | [], [] => true
  | x :: xs, .int n :: ys => n == x && intListEq xs ys
  | _, _ => false

end

mutual

/-- `comparison::rt_values_equal`. Maps, closures and partial applications are
equal to nothing, not even to themselves. -/
def rtValuesEqual : Value Code → Value Code' → Bool
  | .nil, .nil => true
  | .unit, .unit => true
  | .int x, .int y => x == y
  | .float x, .float y => x == y
  | .bool x, .bool y => x == y
  | .str x, .str y => x == y
  | .list xs, .list ys => rtValuesEqualList xs ys
  | .variant ta a, .variant tb b => ta == tb && rtValuesEqual a b
  | .bytes a, .bytes b => a == b
  | .bcFuncNative pa na aa ra ca ka ia, .bcFuncNative pb nb ab rb cb kb ib =>
    na == nb && aa == ab && ra == rb && ca == cb && ia == ib &&
      (pa == pb && RtValue.sameList ka kb || RtValue.valuesEqualList ka kb)
  | _, _ => false

def rtValuesEqualList : List (Value Code) → List (Value Code') → Bool
  | [], [] => true
  | x :: xs, y :: ys => rtValuesEqual x y && rtValuesEqualList xs ys
  | _, _ => false

end

/-! ## Arithmetic and comparison

The arms of `Op::Add` to `Op::Not` in the machine's main loop. Integer
addition, subtraction and multiplication wrap; a division whose quotient does
not fit panics, as Rust's `/` and `%` do. -/

def add : Value Code → Value Code → Except Fault (Value Code)
  | .int x, .int y => .ok (.int (x + y))
  | .float x, .float y => .ok (.float (Float.ofBits x + Float.ofBits y).toBits)
  | .str x, .str y => .ok (.str (x ++ y))
  | _, _ => .error (.error (.typeError "add: incompatible types"))

def sub : Value Code → Value Code → Except Fault (Value Code)
  | .int x, .int y => .ok (.int (x - y))
  | .float x, .float y => .ok (.float (Float.ofBits x - Float.ofBits y).toBits)
  | _, _ => .error (.error (.typeError "sub: incompatible types"))

def mul : Value Code → Value Code → Except Fault (Value Code)
  | .int x, .int y => .ok (.int (x * y))
  | .float x, .float y => .ok (.float (Float.ofBits x * Float.ofBits y).toBits)
  | _, _ => .error (.error (.typeError "mul: incompatible types"))

def div : Value Code → Value Code → Except Fault (Value Code)
  | .int x, .int y =>
    if y = 0 then .error (.error .divisionByZero)
    else if x = Int64.minValue ∧ y = -1 then .error .panic
    else .ok (.int (x / y))
  | .float x, .float y => .ok (.float (Float.ofBits x / Float.ofBits y).toBits)
  | _, _ => .error (.error (.typeError "div: incompatible types"))

def mod : Value Code → Value Code → Except Fault (Value Code)
  | .int x, .int y =>
    if y = 0 then .error (.error .divisionByZero)
    else if x = Int64.minValue ∧ y = -1 then .error .panic
    else .ok (.int (x % y))
  | _, _ => .error (.error (.typeError "mod: incompatible types"))

/-- The four orderings; values of other or of different kinds compare as `false`. -/
def compareWith (ints : Int64 → Int64 → Bool) (floats : Float → Float → Bool)
    (strs : String → String → Bool) : Value Code → Value Code → Value Code
  | .int x, .int y => .bool (ints x y)
  | .float x, .float y => .bool (floats (Float.ofBits x) (Float.ofBits y))
  | .str x, .str y => .bool (strs x y)
  | _, _ => .bool false

def lt : Value Code → Value Code → Value Code :=
  compareWith (fun x y => decide (x < y)) (fun x y => decide (x < y)) (fun x y => decide (x < y))

def le : Value Code → Value Code → Value Code :=
  compareWith (fun x y => decide (x ≤ y)) (fun x y => decide (x ≤ y)) (fun x y => !decide (y < x))

def gt : Value Code → Value Code → Value Code :=
  compareWith (fun x y => decide (y < x)) (fun x y => decide (y < x)) (fun x y => decide (y < x))

def ge : Value Code → Value Code → Value Code :=
  compareWith (fun x y => decide (y ≤ x)) (fun x y => decide (y ≤ x)) (fun x y => !decide (x < y))

def not : Value Code → Except Fault (Value Code)
  | .bool b => .ok (.bool !b)
  | _ => .error (.error (.typeError "not: expected bool"))

/-- `Op::Neg`: Rust's unary minus on an integer, wrapping as in a release build. -/
def neg : Value Code → Except Fault (Value Code)
  | .int x => .ok (.int (-x))
  | .float x => .ok (.float (-Float.ofBits x).toBits)
  | _ => .error (.error (.typeError "neg: expected number"))

end Value

end Airl
