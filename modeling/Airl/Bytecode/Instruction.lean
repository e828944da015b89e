import Airl.Runtime.Value

/-! # Bytecode

`bytecode.rs`. Operands are naturals; a jump distance is stored as the `u16`
image of an `i16`, so a distance that does not fit is truncated.
-/

namespace Airl

inductive Op where
  | loadConst | loadNil | loadTrue | loadFalse | move
  | add | sub | mul | div | mod
  | eq | ne | lt | le | gt | ge
  | not | neg
  | jump | jumpIfFalse | jumpIfTrue
  | call | callBuiltin | callReg | tailCall | ret
  | makeList | makeVariant | makeVariant0 | makeClosure
  | matchTag | jumpIfNoMatch | matchWild
  | tryUnwrap
  | assertRequires | assertEnsures | assertInvariant
  | markMoved | checkNotMoved
  | release
  deriving Repr, DecidableEq

structure Instruction where
  op : Op
  dst : Nat
  a : Nat
  b : Nat
  deriving Repr, DecidableEq

/-- `x as i16 as u16` of a jump distance. -/
def toU16 (distance : Int) : Nat := (distance % 65536).toNat

/-- `operand as i16`. -/
def asI16 (operand : Nat) : Int :=
  if operand % 65536 < 32768 then (operand % 65536 : Nat) else (operand % 65536 : Nat) - 65536

/-- The low 32 bits of a number as an `i32`. -/
def asI32 (n : Int) : Int :=
  if n % 4294967296 < 2147483648 then n % 4294967296 else n % 4294967296 - 4294967296

/-- The arithmetic opcodes of the main loop. -/
def binaryOp {Code : Type} : Op → Value Code → Value Code → Except Fault (Value Code)
  | .add, x, y => x.add y
  | .sub, x, y => x.sub y
  | .mul, x, y => x.mul y
  | .div, x, y => x.div y
  | .mod, x, y => x.mod y
  | .eq, x, y => .ok (.bool (x.rtValuesEqual y))
  | .ne, x, y => .ok (.bool !(x.rtValuesEqual y))
  | .lt, x, y => .ok (x.lt y)
  | .le, x, y => .ok (x.le y)
  | .gt, x, y => .ok (x.gt y)
  | .ge, x, y => .ok (x.ge y)
  | .not, x, _ => x.not
  | .neg, x, _ => x.neg
  | _, _, _ => .error .panic

/-- The opcode that replaces a call of a known operator. -/
def directOp : String → Option Op
  | "+" => some .add
  | "-" => some .sub
  | "*" => some .mul
  | "/" => some .div
  | "%" => some .mod
  | "=" => some .eq
  | "!=" => some .ne
  | "<" => some .lt
  | "<=" => some .le
  | ">" => some .gt
  | ">=" => some .ge
  | "not" => some .not
  | _ => none

structure BytecodeFunc where
  name : String
  arity : Nat
  registerCount : Nat
  captureCount : Nat
  instructions : List Instruction
  constants : List VmValue

/-- A distance that fits an `i16` survives the operand encoding. -/
theorem asI16_toU16 {distance : Int} (hlow : -32768 ≤ distance) (hhigh : distance < 32768) :
    asI16 (toU16 distance) = distance := by
  unfold asI16 toU16
  split <;> omega

theorem asI32_eq {n : Int} (hlow : -2147483648 ≤ n) (hhigh : n < 2147483648) : asI32 n = n := by
  unfold asI32
  split <;> omega

end Airl
