import Airl.Bytecode.Instruction
import Airl.Runtime.Builtins

/-! # The bytecode machine

`bytecode_vm.rs`. Registers hold values, not counted pointers; a register that
`Op::Release` emptied holds nothing. One call of `Machine.step` is one pass of
the loop in `run_rt_with_min_depth` with `min_depth = 0`.
-/

namespace Airl

/-- `CallFrame`. -/
structure Frame where
  registers : List (Option VmValue)
  funcName : String
  ip : Nat
  returnReg : Nat
  matchFlag : Bool
  moved : List Bool
  func : BytecodeFunc

/-- `BytecodeVm` while it runs, the innermost frame first. -/
structure Vm (World : Type) where
  callStack : List Frame
  recursionDepth : Nat
  world : World

/-- What stays fixed during a run: the loaded functions, the builtins, the depth limit. -/
structure Machine (World : Type) where
  functions : List BytecodeFunc
  builtins : Builtins String World
  maxCallDepth : Nat

/-- A pass of the main loop continues with a new state or ends the run. -/
inductive Next (World : Type) where
  | running (vm : Vm World)
  | finished (result : VmValue) (world : World)

/-- `(frame.ip as i32 + offset as i32) as usize`; `ip` already points past the jump. -/
def jumpTarget (ip operand : Nat) : Nat :=
  let target := asI32 (asI32 ip + asI16 operand)
  if target < 0 then (0x10000000000000000 + target).toNat else target.toNat

namespace Frame

/-- A register as a pointer, possibly null; an index past the bank panics. -/
def pointer (fr : Frame) (r : Nat) : Except Fault (Option VmValue) :=
  match fr.registers[r]? with
  | some p => .ok p
  | none => .error .panic

/-- A register that is dereferenced. -/
def read (fr : Frame) (r : Nat) : Except Fault VmValue :=
  match fr.registers[r]? with
  | some (some v) => .ok v
  | some none => .error .nullPointer
  | none => .error .panic

/-- `reg_set`. -/
def setPointer (fr : Frame) (r : Nat) (p : Option VmValue) : Except Fault Frame :=
  if r < fr.registers.length then .ok { fr with registers := fr.registers.set r p }
  else .error .panic

def write (fr : Frame) (r : Nat) (v : VmValue) : Except Fault Frame := fr.setPointer r (some v)

/-- The registers from `start` on, as pointers. -/
def window (fr : Frame) (start : Nat) : Nat → Except Fault (List (Option VmValue))
  | 0 => .ok []
  | count + 1 => do
      let p ← fr.pointer start
      let rest ← fr.window (start + 1) count
      .ok (p :: rest)

def constant (fr : Frame) (idx : Nat) : Except Fault VmValue :=
  match fr.func.constants[idx]? with
  | some v => .ok v
  | none => .error .panic

/-- A constant that must be a string; otherwise the given type error. -/
def stringConstant (fr : Frame) (idx : Nat) (message : String) : Except Fault String :=
  match fr.func.constants[idx]? with
  | some (.str s) => .ok s
  | some _ => .error (.error (.typeError message))
  | none => .error .panic

def jumpBy (fr : Frame) (operand : Nat) : Frame := { fr with ip := jumpTarget fr.ip operand }

end Frame

/-- A null pointer read back as a value is nil. -/
def orNil : Option VmValue → VmValue
  | some v => v
  | none => .nil

/-- Builtins dereference their arguments. A list of pointers one of which is null has no
counterpart among the values: to build one counts as reading it. -/
def derefAll : List (Option VmValue) → Except Fault (List VmValue)
  | [] => .ok []
  | some v :: ps => do
      let vs ← derefAll ps
      .ok (v :: vs)
  | none :: _ => .error .nullPointer

/-- The opcodes that `is_simple_closure` admits. -/
def isSimpleOp : Op → Bool
  | .loadConst | .loadNil | .loadTrue | .loadFalse | .move
  | .add | .sub | .mul | .div | .mod | .neg
  | .eq | .ne | .lt | .le | .gt | .ge | .not
  | .ret | .callBuiltin | .makeList | .markMoved | .checkNotMoved | .release => true
  | _ => false

/-- `is_simple_closure`: at most fifteen simple instructions and eight parameters. -/
def isSimpleClosure (func : BytecodeFunc) : Bool :=
  decide (func.instructions.length ≤ 15) && decide (func.arity ≤ 8) &&
    func.instructions.all fun instr => isSimpleOp instr.op

namespace Value

/-- The orderings of `eval_simple`, which knows no strings. -/
def simpleCompare (ints : Int64 → Int64 → Bool) (floats : Float → Float → Bool) :
    VmValue → VmValue → VmValue :=
  compareWith ints floats fun _ _ => false

/-- `wrapping_rem`: the one division that `eval_simple` computes where the main loop panics. -/
def simpleMod : VmValue → VmValue → Except Fault VmValue
  | .int x, .int y =>
    if y = 0 then .error (.error .divisionByZero) else .ok (.int (x % y))
  | _, _ => .error (.error (.typeError "mod: incompatible types"))

end Value

/-- The arithmetic opcodes of `eval_simple`. -/
def simpleBinaryOp : Op → VmValue → VmValue → Except Fault VmValue
  | .add, x, y => x.add y
  | .sub, x, y => x.sub y
  | .mul, x, y => x.mul y
  | .div, x, y => x.div y
  | .mod, x, y => x.simpleMod y
  | .eq, x, y => .ok (.bool (x.valueEq y))
  | .ne, x, y => .ok (.bool !(x.valueEq y))
  | .lt, x, y =>
      .ok (Value.simpleCompare (fun m n => decide (m < n)) (fun m n => decide (m < n)) x y)
  | .le, x, y =>
      .ok (Value.simpleCompare (fun m n => decide (m ≤ n)) (fun m n => decide (m ≤ n)) x y)
  | .gt, x, y =>
      .ok (Value.simpleCompare (fun m n => decide (n < m)) (fun m n => decide (n < m)) x y)
  | .ge, x, y =>
      .ok (Value.simpleCompare (fun m n => decide (n ≤ m)) (fun m n => decide (n ≤ m)) x y)
  | .not, x, _ => x.not
  | .neg, x, _ => x.neg
  | _, _, _ => .error .panic

/-- `regs[idx]` of `eval_simple`. -/
def simpleRead (regs : List VmValue) (r : Nat) : Except Fault VmValue :=
  match regs[r]? with
  | some v => .ok v
  | none => .error .panic

def simpleWrite (regs : List VmValue) (r : Nat) (v : VmValue) : Except Fault (List VmValue) :=
  if r < regs.length then .ok (regs.set r v) else .error .panic

def simpleWindow (regs : List VmValue) (start : Nat) : Nat → Except Fault (List VmValue)
  | 0 => .ok []
  | count + 1 => do
      let v ← simpleRead regs start
      let rest ← simpleWindow regs (start + 1) count
      .ok (v :: rest)

/-- How one instruction of `eval_simple` ends: with new registers or with the result. -/
inductive SimpleNext where
  | running (regs : List VmValue)
  | finished (result : VmValue)

variable {World : Type}

/-- One instruction of `eval_simple`. -/
def simpleStep (b : Builtins String World) (func : BytecodeFunc) (instr : Instruction)
    (regs : List VmValue) (world : World) : Except Fault SimpleNext × World :=
  let put (v : VmValue) : Except Fault SimpleNext := do
    .ok (.running (← simpleWrite regs instr.dst v))
  match instr.op with
  | .loadConst =>
    match func.constants[instr.a]? with
    | some v => (put v, world)
    | none => (.error .panic, world)
  | .loadNil => (put .nil, world)
  | .loadTrue => (put (.bool true), world)
  | .loadFalse => (put (.bool false), world)
  | .move => ((do put (← simpleRead regs instr.a)), world)
  | .not | .neg =>
    ((do
      let x ← simpleRead regs instr.a
      put (← simpleBinaryOp instr.op x x)), world)
  | .add | .sub | .mul | .div | .mod | .eq | .ne | .lt | .le | .gt | .ge =>
    ((do
      let x ← simpleRead regs instr.a
      let y ← simpleRead regs instr.b
      put (← simpleBinaryOp instr.op x y)), world)
  | .callBuiltin =>
    match func.constants[instr.a]? with
    | some (.str name) =>
      match simpleWindow regs (instr.dst + 1) instr.b with
      | .ok args =>
        if b.known name then
          let r := b.dispatch name (args.map Value.toRt) world
          ((do put (← r.1)), r.2)
        else (.error (.error (.undefinedSymbol name)), world)
      | .error f => (.error f, world)
    | some _ => (.error (.error (.typeError "callbuiltin: name must be string")), world)
    | none => (.error .panic, world)
  | .makeList => ((do put (.list (← simpleWindow regs instr.a instr.b))), world)
  | .ret => ((do .ok (.finished (← simpleRead regs instr.a))), world)
  | .markMoved | .checkNotMoved => (.ok (.running regs), world)
  | _ => (.error (.error (.custom "eval_simple: unsupported op")), world)

/-- The loop of `eval_simple` over the remaining instructions. -/
def simpleLoop (b : Builtins String World) (func : BytecodeFunc) :
    List Instruction → List VmValue → World → Except Fault VmValue × World
  | [], _, world => (.ok .nil, world)
  | instr :: instrs, regs, world =>
    let r := simpleStep b func instr regs world
    match r.1 with
    | .ok (.running regs) => simpleLoop b func instrs regs r.2
    | .ok (.finished result) => (.ok result, r.2)
    | .error f => (.error f, r.2)

/-- Fill the first registers with the arguments; those that do not fit are dropped. -/
def fillRegisters {α : Type} : List α → List α → List α
  | _ :: regs, arg :: args => arg :: fillRegisters regs args
  | regs, _ => regs

/-- `eval_simple`. -/
def evalSimple (b : Builtins String World) (func : BytecodeFunc) (args : List VmValue)
    (world : World) : Except Fault VmValue × World :=
  simpleLoop b func func.instructions
    (fillRegisters (List.replicate func.registerCount .nil) args) world

namespace Machine

variable (m : Machine World)

/-- `self.functions.get(name)`; a later definition has replaced an earlier one. -/
def lookup (name : String) : Option BytecodeFunc := m.functions.find? fun func => func.name == name

/-- `push_frame_rt`, and `push_frame` on converted arguments. -/
def pushFrame (name : String) (args : List (Option VmValue)) (returnReg : Nat) (vm : Vm World) :
    Except Fault (Vm World) :=
  match m.lookup name with
  | none => .error (.error (.undefinedSymbol name))
  | some func =>
    if m.maxCallDepth ≤ vm.callStack.length ∨ m.maxCallDepth < vm.recursionDepth + 1 then
      .error (.error (.stackOverflow m.maxCallDepth))
    else
      .ok { vm with
        callStack :=
          { registers := fillRegisters (List.replicate func.registerCount (some .nil)) args
            funcName := name
            ip := 0
            returnReg := returnReg
            matchFlag := false
            moved := List.replicate func.registerCount false
            func := func } :: vm.callStack
        recursionDepth := vm.recursionDepth + 1 }

/-- Leave the innermost frame with a result. -/
def popFrame (result : Option VmValue) (returnReg : Nat) (rest : List Frame) (depth : Nat)
    (world : World) : Except Fault (Next World) :=
  match rest with
  | [] => .ok (.finished (orNil result) world)
  | caller :: callers => do
      let caller ← caller.setPointer returnReg result
      .ok (.running ⟨caller :: callers, depth - 1, world⟩)

/-- A call of a special or builtin name, or none of these. -/
def dispatchNamed (name : String) (args : List VmValue) (world : World) :
    Option (Except Fault VmValue × World) :=
  if name = "thread-spawn" then some (m.builtins.threadSpawn args world)
  else if name = "fn-metadata" then some (m.builtins.fnMetadata args world)
  else if m.builtins.known name then some (m.builtins.dispatch name args world)
  else none

/-- The partial application that a call of a loaded function with too few arguments makes. -/
def userPartial (name : String) (args : List VmValue) : Option VmValue :=
  match m.lookup name with
  | some func =>
    if args.length < func.arity then
      some (.partialApp (.irFuncRef name) args (func.arity - args.length))
    else none
  | none => none

/-- `Op::CallReg` once a partial application is resolved: the callee and all its arguments. -/
def resolveCallee (callee : VmValue) (args : List VmValue) : VmValue × List VmValue :=
  match callee with
  | .partialApp func capturedArgs _ => (func, capturedArgs ++ args)
  | other => (other, args)

/-- The message of a call with too many arguments. -/
def tooManyArguments (name : String) (expected supplied : Nat) : RuntimeError :=
  .custom s!"call: too many arguments: {name} expects {expected} but got {supplied}"

/-- Store the outcome of a builtin or of the inline evaluator. -/
def answer (r : Except Fault VmValue × World) (dst : Nat) (fr : Frame) (rest : List Frame)
    (depth : Nat) : Except Fault (Next World) := do
  let v ← r.1
  .ok (.running ⟨(← fr.write dst v.toRt) :: rest, depth, r.2⟩)

/-- Push a frame for the named function. -/
def enter (name : String) (args : List (Option VmValue)) (dst : Nat) (fr : Frame)
    (rest : List Frame) (depth : Nat) (world : World) : Except Fault (Next World) := do
  .ok (.running (← m.pushFrame name args dst ⟨fr :: rest, depth, world⟩))

/-- Store a value that is converted on the way. -/
def store (v : VmValue) (dst : Nat) (fr : Frame) (rest : List Frame) (depth : Nat)
    (world : World) : Except Fault (Next World) := do
  .ok (.running ⟨(← fr.write dst v.toRt) :: rest, depth, world⟩)

/-- `Op::Call` on the named function. -/
def callNamed (name : String) (pointers : List (Option VmValue)) (dst : Nat) (fr : Frame)
    (rest : List Frame) (depth : Nat) (world : World) : Except Fault (Next World) :=
  match builtinPartial name (pointers.map orNil) with
  | some p => store p dst fr rest depth world
  | none =>
    match m.userPartial name (pointers.map orNil) with
    | some p => store p dst fr rest depth world
    | none =>
      if name = "thread-spawn" ∨ name = "fn-metadata" ∨ m.builtins.known name then do
        match m.dispatchNamed name (← derefAll pointers) world with
        | some r => answer r dst fr rest depth
        | none => .error .panic
      else m.enter name pointers dst fr rest depth world

/-- `Op::CallReg` on a callee and its arguments. -/
def callValue (callee : VmValue) (args : List VmValue) (dst : Nat) (fr : Frame)
    (rest : List Frame) (depth : Nat) (world : World) : Except Fault (Next World) :=
  match resolveCallee callee args with
  | (.bytecodeClosure name captured, args) =>
    let expected := match m.lookup name with
      | some func => func.arity
      | none => 0
    let full := captured ++ args
    if full.length < expected then
      store (.partialApp (.bytecodeClosure name captured) full (expected - full.length)) dst fr
        rest depth world
    else if expected < full.length then
      .error (.error (tooManyArguments name expected full.length))
    else
      match m.lookup name with
      | some func =>
        if isSimpleClosure func then answer (evalSimple m.builtins func full world)
          dst fr rest depth
        else m.enter name (full.map fun v => some v.toRt) dst fr rest depth world
      | none => m.enter name (full.map fun v => some v.toRt) dst fr rest depth world
  | (.irFuncRef name, args) | (.builtinFn name, args) =>
    match builtinPartial name args with
    | some p => store p dst fr rest depth world
    | none =>
      match m.dispatchNamed name (args.map Value.toRt) world with
      | some r => answer r dst fr rest depth
      | none => m.enter name (args.map fun v => some v.toRt) dst fr rest depth world
  | _ => .error (.error .notCallable)

/-- One instruction, in the frame `fr` whose `ip` is already advanced. -/
def exec (instr : Instruction) (fr : Frame) (rest : List Frame) (depth : Nat) (world : World) :
    Except Fault (Next World) :=
  let continue_ (fr : Frame) : Except Fault (Next World) :=
    .ok (.running ⟨fr :: rest, depth, world⟩)
  let put (v : VmValue) : Except Fault (Next World) := do continue_ (← fr.write instr.dst v)
  let assertClause (kind : ContractKind) : Except Fault (Next World) := do
    match ← fr.pointer instr.a with
    | some (.bool true) => continue_ fr
    | _ =>
      let function := match fr.func.constants[instr.dst]? with
        | some (.str s) => s
        | _ => fr.funcName
      let clauseSource := match fr.func.constants[instr.b]? with
        | some (.str s) => s
        | _ => "?"
      .error (.error (.contractViolation function kind clauseSource))
  match instr.op with
  | .loadConst => do put (← fr.constant instr.a).toRt
  | .loadNil => put .nil
  | .loadTrue => put (.bool true)
  | .loadFalse => put (.bool false)
  | .move => do continue_ (← fr.setPointer instr.dst (← fr.pointer instr.a))
  | .not | .neg => do
      let x ← fr.read instr.a
      put (← binaryOp instr.op x x)
  | .add | .sub | .mul | .div | .mod | .eq | .ne | .lt | .le | .gt | .ge => do
      let x ← fr.read instr.a
      let y ← fr.read instr.b
      put (← binaryOp instr.op x y)
  | .jump => continue_ (fr.jumpBy instr.a)
  | .jumpIfFalse => do
      match ← fr.pointer instr.a with
      | some (.bool false) => continue_ (fr.jumpBy instr.b)
      | _ => continue_ fr
  | .jumpIfTrue => do
      match ← fr.pointer instr.a with
      | some (.bool true) => continue_ (fr.jumpBy instr.b)
      | _ => continue_ fr
  | .makeList => do
      put (.list (← derefAll (← fr.window instr.a instr.b)))
  | .makeVariant => do
      let tag ← fr.stringConstant instr.a "variant tag must be string"
      put (.variant tag (← fr.read instr.b))
  | .makeVariant0 => do
      let tag ← fr.stringConstant instr.a "variant tag must be string"
      put (.variant tag .nil)
  | .matchTag => do
      let tag ← fr.stringConstant instr.b "match tag must be string"
      match ← fr.read instr.a with
      | .variant tagName inner =>
        if tagName = tag then do
          continue_ { (← fr.write instr.dst inner) with matchFlag := true }
        else continue_ { fr with matchFlag := false }
      | _ => continue_ { fr with matchFlag := false }
  | .jumpIfNoMatch => continue_ (if fr.matchFlag then fr else fr.jumpBy instr.a)
  | .matchWild => do
      continue_ { (← fr.setPointer instr.dst (← fr.pointer instr.a)) with matchFlag := true }
  | .tryUnwrap => do
      match ← fr.read instr.a with
      | .variant "Ok" inner => put inner
      | .variant "Err" _ => .error (.error .tryErr)
      | _ => .error (.error .tryOnNonResult)
  | .assertRequires => assertClause .requires
  | .assertEnsures => assertClause .ensures
  | .assertInvariant => assertClause .invariant
  | .markMoved => continue_ { fr with moved := fr.moved.set instr.a true }
  | .checkNotMoved =>
    if fr.moved[instr.a]? = some true then
      let message := match fr.func.constants[instr.b]? with
        | some (.str s) =>
          if s.contains ' ' then s else s!"use of moved value: `{s}` was already moved"
        | some _ => "use of moved value: constant was already moved"
        | none => s!"use of moved value: register {instr.a} was already moved"
      .error (.error (.custom message))
    else continue_ fr
  | .call => do
      let name ← fr.stringConstant instr.a "call: func name must be string"
      m.callNamed name (← fr.window (instr.dst + 1) instr.b) instr.dst fr rest depth world
  | .callBuiltin => do
      let name ← fr.stringConstant instr.a "callbuiltin: name must be string"
      let pointers ← fr.window (instr.dst + 1) instr.b
      match builtinPartial name (pointers.map orNil) with
      | some p => store p instr.dst fr rest depth world
      | none =>
        match m.dispatchNamed name (← derefAll pointers) world with
        | some r => answer r instr.dst fr rest depth
        | none => .error (.error (.undefinedSymbol name))
  | .callReg => do
      let callee := orNil (← fr.pointer instr.a)
      let args := (← fr.window (instr.dst + 1) instr.b).map orNil
      m.callValue callee args instr.dst fr rest depth world
  | .tailCall => continue_ { fr with ip := 0, moved := fr.moved.map fun _ => false }
  | .ret => do popFrame (← fr.pointer instr.a) fr.returnReg rest depth world
  | .release => continue_ { fr with registers := fr.registers.set instr.a none }
  | .makeClosure => do
      let name ← fr.stringConstant instr.a "closure: func name must be string"
      let captureCount := match m.lookup name with
        | some func => func.captureCount
        | none => 0
      if fr.registers.length < instr.b + captureCount then
        .error (.error (.custom "MakeClosure: capture range out of bounds"))
      else
        let captured := (← fr.window instr.b captureCount).map orNil
        put (Value.bytecodeClosure name captured).toRt

/-- One pass of the main loop. -/
def step (vm : Vm World) : Except Fault (Next World) :=
  match vm.callStack with
  | [] => .error .panic
  | fr :: rest =>
    match fr.func.instructions[fr.ip]? with
    | none => popFrame (some .nil) fr.returnReg rest vm.recursionDepth vm.world
    | some instr => m.exec instr { fr with ip := fr.ip + 1 } rest vm.recursionDepth vm.world

end Machine

/-- The operand checks of `validate_bytecode` on one instruction. -/
def validInstruction (registerCount constantCount : Nat) (instr : Instruction) : Bool :=
  let reg (r : Nat) : Bool := decide (r < registerCount)
  let const (c : Nat) : Bool := decide (c < constantCount)
  let range (start count : Nat) : Bool := count == 0 || decide (start + count ≤ registerCount)
  match instr.op with
  | .loadConst => reg instr.dst && const instr.a
  | .loadNil | .loadTrue | .loadFalse => reg instr.dst
  | .move | .not | .neg => reg instr.dst && reg instr.a
  | .add | .sub | .mul | .div | .mod | .eq | .ne | .lt | .le | .gt | .ge =>
    reg instr.dst && reg instr.a && reg instr.b
  | .jump => true
  | .jumpIfFalse | .jumpIfTrue => reg instr.a
  | .call | .callBuiltin => reg instr.dst && const instr.a && range (instr.dst + 1) instr.b
  | .callReg => reg instr.dst && reg instr.a && range (instr.dst + 1) instr.b
  | .tailCall => true
  | .ret => reg instr.a
  | .makeList => reg instr.dst && range instr.a instr.b
  | .makeVariant => reg instr.dst && const instr.a && reg instr.b
  | .makeVariant0 => reg instr.dst && const instr.a
  | .makeClosure => reg instr.dst && const instr.a && decide (instr.b ≤ registerCount)
  | .matchTag => reg instr.dst && reg instr.a && const instr.b
  | .jumpIfNoMatch => true
  | .matchWild => reg instr.dst && reg instr.a
  | .tryUnwrap => reg instr.dst && reg instr.a
  | .assertRequires | .assertEnsures | .assertInvariant =>
    const instr.dst && reg instr.a && const instr.b
  | .markMoved | .checkNotMoved | .release => reg instr.a

/-- `validate_bytecode` on one function. -/
def BytecodeFunc.valid (func : BytecodeFunc) : Bool :=
  func.instructions.all (validInstruction func.registerCount func.constants.length)

/-- `load_function` on the list of loaded functions: a function replaces its namesake. -/
def loadFunction (loaded : List BytecodeFunc) (func : BytecodeFunc) : List BytecodeFunc :=
  loaded.filter (fun f => f.name != func.name) ++ [func]

namespace Machine

variable (m : Machine World)

/-- The initial state of a run of the named function. -/
def start (name : String) (args : List VmValue) (world : World) : Except Fault (Vm World) :=
  m.pushFrame name (args.map fun v => some v.toRt) 0 ⟨[], 0, world⟩

/-- `exec_main` up to its first pass of the loop. -/
def startMain (world : World) : Except Fault (Vm World) :=
  if m.functions.all BytecodeFunc.valid then m.start "__main__" [] world
  else .error (.error .bytecodeValidation)

end Machine

/-- The machine that `exec_program` runs: the functions in order, then main. -/
def loadProgram (functions : List BytecodeFunc) (main : BytecodeFunc)
    (builtins : Builtins String World) (maxCallDepth : Nat) : Machine World where
  functions := (functions ++ [main]).foldl loadFunction []
  builtins := builtins
  maxCallDepth := maxCallDepth

end Airl
