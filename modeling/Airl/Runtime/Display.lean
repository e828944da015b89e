import Airl.Runtime.Value

/-! # How the runtime prints a value

`impl Display for RtValue` and the builtin `str`, which prints its arguments one
after another and texts without quotation marks.
-/

namespace Airl

namespace Value

mutual

/-- The text of a float is the argument; function references are nil in a register. -/
def display (floatText : UInt64 → List Char) : VmValue → List Char
  | .nil | .builtinFn _ | .irFuncRef _ => "nil".toList
  | .unit => "()".toList
  | .int n => (toString n.toInt).toList
  | .float bits => floatText bits
  | .bool b => if b then "true".toList else "false".toList
  | .str s => '"' :: s.toList ++ ['"']
  | .list items | .tuple items => '[' :: displayItems floatText items ++ [']']
  | .intList ints => '[' :: [' '].intercalate (ints.map fun n => (toString n.toInt).toList) ++ [']']
  | .map entries => '\x7b' :: displayEntries floatText entries ++ ['\x7d']
  | .variant tag inner => '(' :: tag.toList ++ ' ' :: display floatText inner ++ [')']
  | .bytecodeClosure _ _ => "<closure>".toList
  | .bytes data => "<Bytes len=".toList ++ (toString data.length).toList ++ ['>']
  | .partialApp func capturedArgs remainingArity =>
    "<partial ".toList ++ ((partialName func).getD "").toList ++ " args=".toList ++
      (toString capturedArgs.length).toList ++ " remaining=".toList ++
      (toString remainingArity).toList ++ ['>']
  | .bcFuncNative _ name arity _ _ _ instructions =>
    "<bcfunc ".toList ++ name.toList ++ " arity=".toList ++ (toString arity).toList ++
      " instr=".toList ++ (toString instructions.length).toList ++ ['>']

def displayItems (floatText : UInt64 → List Char) : List VmValue → List Char
  | [] => []
  | [v] => display floatText v
  | v :: vs => display floatText v ++ ' ' :: displayItems floatText vs

def displayEntries (floatText : UInt64 → List Char) : List (String × VmValue) → List Char
  | [] => []
  | [(key, v)] => key.toList ++ ": ".toList ++ display floatText v
  | (key, v) :: rest =>
    key.toList ++ ": ".toList ++ display floatText v ++ ' ' :: displayEntries floatText rest

end

/-- `airl_str_variadic`. -/
def strVariadic (floatText : UInt64 → List Char) : List VmValue → List Char
  | [] => []
  | .str s :: vs => s.toList ++ strVariadic floatText vs
  | v :: vs => display floatText v ++ strVariadic floatText vs

end Value

namespace RtValue

mutual

/-- The same for what registers, lists and maps point to. The entries of a map are printed in key
order, in which they stand. -/
def display (floatText : UInt64 → List Char) : RtValue → List Char
  | .nil => "nil".toList
  | .unit => "()".toList
  | .int n => (toString n.toInt).toList
  | .float bits => floatText bits
  | .bool b => if b then "true".toList else "false".toList
  | .str s => '"' :: s.toList ++ ['"']
  | .list items => '[' :: displayItems floatText items ++ [']']
  | .map entries => '\x7b' :: displayEntries floatText entries ++ ['\x7d']
  | .variant tagName inner => '(' :: tagName.toList ++ ' ' :: display floatText inner ++ [')']
  | .closure _ _ => "<closure>".toList
  | .bytes data => "<Bytes len=".toList ++ (toString data.length).toList ++ ['>']
  | .partialApp funcName capturedArgs remainingArity =>
    "<partial ".toList ++ funcName.toList ++ " args=".toList ++
      (toString capturedArgs.length).toList ++ " remaining=".toList ++
      (toString remainingArity).toList ++ ['>']
  | .bcFuncNative _ name arity _ _ _ instructions =>
    "<bcfunc ".toList ++ name.toList ++ " arity=".toList ++ (toString arity).toList ++
      " instr=".toList ++ (toString instructions.length).toList ++ ['>']

def displayItems (floatText : UInt64 → List Char) : List RtValue → List Char
  | [] => []
  | [v] => display floatText v
  | v :: vs => display floatText v ++ ' ' :: displayItems floatText vs

def displayEntries (floatText : UInt64 → List Char) : List (String × RtValue) → List Char
  | [] => []
  | [(key, v)] => key.toList ++ ": ".toList ++ display floatText v
  | (key, v) :: rest =>
    key.toList ++ ": ".toList ++ display floatText v ++ ' ' :: displayEntries floatText rest

end

def strVariadic (floatText : UInt64 → List Char) : List RtValue → List Char
  | [] => []
  | .str s :: vs => s.toList ++ strVariadic floatText vs
  | v :: vs => display floatText v ++ strVariadic floatText vs

end RtValue

end Airl
