import Airl.Ir.Syntax
import Airl.Bytecode.Instruction

/-! # The bytecode compiler

`bytecode_compiler.rs`. The source pushes instructions onto one vector and
patches the jumps afterwards; here every function returns the instructions it
appends, so a patched distance is a difference of lengths. `compile_expr` and
`compile_expr_tail` are the two positions of one recursion, as the second falls
back on the first for every node it does not treat itself.
-/

namespace Airl

/-- `BytecodeCompiler` without its instruction vector. Registers are unbounded
naturals. `panicked` records that the constant pool overflowed, `longJump` that
a patched distance did not fit its `i16`; the source keeps no such record. -/
structure Compiler where
  constants : List VmValue := []
  locals : String → Option Nat := fun _ => none
  nextReg : Nat := 0
  maxReg : Nat := 0
  lambdaCounter : Nat := 0
  lambdaPrefix : String := ""
  compiledLambdas : List BytecodeFunc := []
  ownershipMap : String → Option (List Bool) := fun _ => none
  provenClauses : String → String → Bool := fun _ _ => false
  trustedFns : String → Bool := fun _ => false
  movedRegs : List Nat := []
  panicked : Bool := false
  longJump : Bool := false

/-- The instructions a compilation step appends, and the state it leaves. -/
structure Emitted where
  code : List Instruction
  state : Compiler

/-- As `Emitted`, with the registers that hold the compiled arguments. -/
structure EmittedArgs where
  code : List Instruction
  regs : List Nat
  state : Compiler

/-- Whether `compile_expr` or `compile_expr_tail` runs, the latter for a body of `fnName`. -/
inductive Position where
  | value
  | tail (fnName : String)

namespace Compiler

def allocReg (s : Compiler) : Compiler :=
  { s with nextReg := s.nextReg + 1, maxReg := max s.maxReg (s.nextReg + 1) }

def freeRegTo (s : Compiler) (r : Nat) : Compiler := { s with nextReg := r }

def insertLocal (s : Compiler) (name : String) (r : Nat) : Compiler :=
  { s with locals := fun x => if x = name then some r else s.locals x }

def removeLocals (s : Compiler) (names : List String) : Compiler :=
  { s with locals := fun x => if x ∈ names then none else s.locals x }

/-- `ConstantKey` equality: the hash separates values of different kinds. -/
def sameKey : VmValue → VmValue → Bool
  | .intList _, .list _ => false
  | .list _, .intList _ => false
  | a, b => a.valueEq b

/-- The pool index of a constant: an equal earlier entry, or a new one. -/
def constantIndex (s : Compiler) (val : VmValue) : Nat :=
  (s.constants.findIdx? (sameKey val)).getD s.constants.length

def addConstant (s : Compiler) (val : VmValue) : Compiler :=
  if (s.constants.findIdx? (sameKey val)).isSome then s
  else { s with
    constants := s.constants ++ [val]
    panicked := s.panicked || decide (65535 ≤ s.constants.length) }

/-- Record a forward jump over `distance` instructions. -/
def noteJump (s : Compiler) (distance : Nat) : Compiler :=
  { s with longJump := s.longJump || decide (32768 ≤ distance) }

def loadConstant (s : Compiler) (val : VmValue) (dst : Nat) : Emitted where
  code := [⟨.loadConst, dst, s.constantIndex val, 0⟩]
  state := s.addConstant val

end Compiler

/-- Move the arguments from their temporaries into the call slots from `slot` on. -/
def moveToSlots : Nat → List Nat → List Instruction
  | _, [] => []
  | slot, tmp :: tmps =>
    (if tmp ≠ slot then [⟨.move, slot, tmp, 0⟩] else []) ++ moveToSlots (slot + 1) tmps

/-- The instructions that hand `count` arguments to the slots above `dst` also
reserve these slots. -/
def Compiler.reserveSlots (s : Compiler) (dst count : Nat) : Compiler :=
  if count = 0 then s else { s with maxReg := max s.maxReg (dst + 1 + count) }

/-- The call `at(inner, i)` that extracts field `i` of a multi-field payload. -/
def extractField (s : Compiler) (i innerReg : Nat) : Emitted :=
  let callDst := s.nextReg
  let atIdx := s.constantIndex (.str "at")
  let s := s.addConstant (.str "at")
  let s := s.allocReg.allocReg.allocReg
  let idxConst := s.constantIndex (.int (.ofNat i))
  { code := [⟨.move, callDst + 1, innerReg, 0⟩, ⟨.loadConst, callDst + 2, idxConst, 0⟩,
      ⟨.callBuiltin, callDst, atIdx, 2⟩]
    state := s.addConstant (.int (.ofNat i)) }

mutual

/-- `bind_pattern`: a nested literal binds nothing and tests nothing; a nested
variant emits `MatchTag` without a jump. -/
def bindPattern : IRPattern → Nat → Compiler → Emitted
  | .bind name, valueReg, s => ⟨[], s.insertLocal name valueReg⟩
  | .wild, _, s => ⟨[], s⟩
  | .lit _, _, s => ⟨[], s⟩
  | .variant tag subPats, valueReg, s =>
    let tagIdx := s.constantIndex (.str tag)
    let s := s.addConstant (.str tag)
    let innerReg := s.nextReg
    let inner := bindFields subPats innerReg s.allocReg
    ⟨⟨.matchTag, innerReg, valueReg, tagIdx⟩ :: inner.code, inner.state⟩

/-- The payload of a matched variant: nothing, one value, or a list of fields. -/
def bindFields : List IRPattern → Nat → Compiler → Emitted
  | [], _, s => ⟨[], s⟩
  | [pat], innerReg, s => bindPattern pat innerReg s
  | pat :: pat' :: pats, innerReg, s =>
    let first := bindField pat 0 innerReg (s.addConstant (.str "at"))
    let rest := bindMultiField (pat' :: pats) 1 innerReg first.state
    ⟨first.code ++ rest.code, rest.state⟩

/-- `bind_multi_field_pattern` from field `i` on. -/
def bindMultiField : List IRPattern → Nat → Nat → Compiler → Emitted
  | [], _, _, s => ⟨[], s⟩
  | pat :: pats, i, innerReg, s =>
    let first := bindField pat i innerReg s
    let rest := bindMultiField pats (i + 1) innerReg first.state
    ⟨first.code ++ rest.code, rest.state⟩

/-- One field of `bind_multi_field_pattern`. -/
def bindField : IRPattern → Nat → Nat → Compiler → Emitted
  | .bind name, i, innerReg, s =>
    let field := extractField s i innerReg
    ⟨field.code, field.state.insertLocal name s.nextReg⟩
  | .wild, _, _, s => ⟨[], s⟩
  | .lit _, _, _, s => ⟨[], s⟩
  | .variant tag nested, i, innerReg, s =>
    let callDst := s.nextReg
    let field := extractField s i innerReg
    let s := field.state
    let tagIdx := s.constantIndex (.str tag)
    let s := s.addConstant (.str tag)
    let nestedInner := s.nextReg
    let inner := bindFields nested nestedInner s.allocReg
    ⟨field.code ++ ⟨.matchTag, nestedInner, callDst, tagIdx⟩ :: inner.code, inner.state⟩

end

/-- The register a call argument is loaded from, if it is a local variable. -/
def argSourceReg (s : Compiler) : IRNode → Option Nat
  | .load name => s.locals name
  | _ => none

/-- The source registers of the arguments whose ownership flag is `flag`. -/
def regsWithFlag (flag : Bool) : List Bool → List (Option Nat) → List Nat
  | isOwn :: flags, some reg :: sources =>
    if isOwn = flag then reg :: regsWithFlag flag flags sources
    else regsWithFlag flag flags sources
  | _ :: flags, none :: sources => regsWithFlag flag flags sources
  | _, _ => []

/-- The first argument variable that lives in register `reg`. -/
def varNameOf (s : Compiler) (reg : Nat) : List IRNode → String
  | .load name :: args => if s.locals name = some reg then name else varNameOf s reg args
  | _ :: args => varNameOf s reg args
  | [] => s!"register {reg}"

/-- A register passed both to an own and to a borrowing parameter: mark and
check it, so that the check fails at run time. -/
def conflictChecks (args : List IRNode) : List Nat → Compiler → Emitted
  | [], s => ⟨[], s⟩
  | reg :: regs, s =>
    let message := .str
      s!"cannot move `{varNameOf s reg args}` while it is borrowed in the same call"
    let idx := s.constantIndex message
    let rest := conflictChecks args regs (s.addConstant message)
    ⟨⟨.markMoved, 0, reg, 0⟩ :: ⟨.checkNotMoved, 0, reg, idx⟩ :: rest.code, rest.state⟩

/-- `CheckNotMoved` for the source register of every own argument. -/
def ownChecks : List Bool → List (Option Nat) → List IRNode → Compiler → Emitted
  | true :: flags, some reg :: sources, arg :: args, s =>
    let name := match arg with
      | .load name => .str name
      | _ => .str s!"register {reg}"
    let idx := s.constantIndex name
    let rest := ownChecks flags sources args (s.addConstant name)
    ⟨⟨.checkNotMoved, 0, reg, idx⟩ :: rest.code, rest.state⟩
  | _ :: flags, _ :: sources, _ :: args, s => ownChecks flags sources args s
  | _, _, _, s => ⟨[], s⟩

/-- The checks before a call whose callee has the ownership flags `flags`. -/
def ownershipChecks (flags : List Bool) (sources : List (Option Nat)) (args : List IRNode)
    (s : Compiler) : Emitted :=
  let own := regsWithFlag true flags sources
  let nonOwn := regsWithFlag false flags sources
  match own.dedup.filter (· ∈ nonOwn) with
  | [] => ownChecks flags sources args s
  | conflicts => conflictChecks args conflicts s

/-- The marks after such a call: every own argument's register counts as moved. -/
def ownershipMarks (flags : List Bool) (sources : List (Option Nat)) (s : Compiler) : Emitted :=
  let own := regsWithFlag true flags sources
  ⟨own.map fun reg => ⟨.markMoved, 0, reg, 0⟩, { s with movedRegs := s.movedRegs ++ own }⟩

/-- Bind the parameters to the first registers. -/
def Compiler.bindParams : List String → Nat → Compiler → Compiler
  | [], _, s => s
  | param :: params, i, s =>
    bindParams params (i + 1) { s.insertLocal param i with nextReg := i + 1, maxReg := i + 1 }

/-- The fresh compiler of a function body, with its parameters bound. -/
def Compiler.enterFunction (s : Compiler) (params : List String) : Compiler :=
  Compiler.bindParams params 0
    { lambdaCounter := s.lambdaCounter
      lambdaPrefix := s.lambdaPrefix
      ownershipMap := s.ownershipMap
      provenClauses := s.provenClauses }

/-- Hand the lambdas compiled in a function body back to the enclosing compiler. -/
def Compiler.leaveFunction (s inner : Compiler) : Compiler :=
  { s with
    lambdaCounter := inner.lambdaCounter
    compiledLambdas := s.compiledLambdas ++ inner.compiledLambdas
    panicked := s.panicked || inner.panicked
    longJump := s.longJump || inner.longJump }

/-- Assemble a function from its code and the compiler that emitted it. -/
def Compiler.toFunc (inner : Compiler) (name : String) (params : List String)
    (code : List Instruction) : BytecodeFunc where
  name := name
  arity := params.length
  registerCount := inner.maxReg
  captureCount := 0
  instructions := code
  constants := inner.constants

/-- The free variables of a lambda that are locals of the enclosing function. -/
def capturedNames (s : Compiler) (params : List String) (body : IRNode) : List (String × Nat) :=
  (freeVars body params []).filterMap fun name => (s.locals name).map (name, ·)

/-- Copy the captured values to consecutive registers from `r` on. -/
def moveCaptures : List (String × Nat) → Nat → List Instruction
  | [], _ => []
  | (_, slot) :: captures, r => ⟨.move, r, slot, 0⟩ :: moveCaptures captures (r + 1)

/-- Allocate `count` registers. -/
def Compiler.allocRegs (s : Compiler) : Nat → Compiler
  | 0 => s
  | count + 1 => s.allocReg.allocRegs count

/-- Number the next lambda. -/
def Compiler.nextLambda (s : Compiler) : Compiler := { s with lambdaCounter := s.lambdaCounter + 1 }

def Compiler.addLambda (s : Compiler) (func : BytecodeFunc) : Compiler :=
  { s with compiledLambdas := s.compiledLambdas ++ [func] }

/-- Collect the captured values and make the closure of a compiled lambda. -/
def makeClosure (name : String) (captures : List (String × Nat)) (dst : Nat) (s : Compiler) :
    Emitted :=
  let captureStart := s.nextReg
  let s := s.allocRegs captures.length
  ⟨moveCaptures captures captureStart ++
      [⟨.makeClosure, dst, s.constantIndex (.str name), captureStart⟩],
    (s.addConstant (.str name)).freeRegTo (max captureStart (dst + 1))⟩

/-- Whether moving the arguments into the slots above `dst` would overwrite the callee. -/
def endangered (callee : Option Nat) (dst count : Nat) : Bool :=
  match callee with
  | some orig => decide (dst + 1 ≤ orig ∧ orig < dst + 1 + count)
  | none => false

/-- Copy an endangered callee to a fresh register. -/
def saveCallee (callee : Option Nat) (dst count : Nat) (s : Compiler) : Emitted :=
  match callee with
  | some orig =>
    if endangered callee dst count then ⟨[⟨.move, s.nextReg, orig, 0⟩], s.allocReg⟩ else ⟨[], s⟩
  | none => ⟨[], s⟩

/-- The call instruction: through the callee's register, which is `safe` if it
was endangered, or by name. -/
def emitCall (name : String) (callee : Option Nat) (safe dst count : Nat) (s : Compiler) :
    Emitted :=
  match callee with
  | some orig =>
    ⟨[⟨.callReg, dst, if endangered callee dst count then safe else orig, count⟩], s⟩
  | none => ⟨[⟨.call, dst, s.constantIndex (.str name), count⟩], s.addConstant (.str name)⟩

/-- A call through the callee register or by name, with its call slots and
ownership checks. -/
def generalCall (name : String) (args : List IRNode) (dst : Nat) (s : Compiler)
    (all : EmittedArgs) : Emitted :=
  let callee := s.locals name
  let sources := args.map (argSourceReg s)
  let saved := saveCallee callee dst args.length all.state
  let reserved := saved.state.reserveSlots dst args.length
  let checks : Emitted := match s.ownershipMap name with
    | some flags => ownershipChecks flags sources args reserved
    | none => ⟨[], reserved⟩
  let call := emitCall name callee all.state.nextReg dst args.length checks.state
  let marks : Emitted := match s.ownershipMap name with
    | some flags => ownershipMarks flags sources call.state
    | none => ⟨[], call.state⟩
  ⟨all.code ++ saved.code ++ moveToSlots (dst + 1) all.regs ++ checks.code ++ call.code ++
      marks.code,
    marks.state.freeRegTo (max s.nextReg (dst + 1))⟩

/-- A call by name once its arguments are compiled: a direct opcode, or the
general path. -/
def finishCall (name : String) (args : List IRNode) (dst : Nat) (s : Compiler)
    (all : EmittedArgs) : Emitted :=
  match directOp name, all.regs with
  | some op, [aReg, bReg] =>
    ⟨all.code ++ [⟨op, dst, aReg, bReg⟩], all.state.freeRegTo (max aReg (dst + 1))⟩
  | some .not, [aReg] =>
    ⟨all.code ++ [⟨.not, dst, aReg, 0⟩], all.state.freeRegTo (max aReg (dst + 1))⟩
  | _, _ => generalCall name args dst s all

/-- A self call in tail position: the arguments replace the parameters and the
body starts again. -/
def finishTailCall (fnName : String) (args : List IRNode) (s : Compiler) (all : EmittedArgs) :
    Emitted :=
  let s' := all.state.freeRegTo s.nextReg
  ⟨all.code ++ moveToSlots 0 all.regs ++
      [⟨.tailCall, 0, s'.constantIndex (.str fnName), args.length⟩],
    s'.addConstant (.str fnName)⟩

/-- The name of the `k`-th lambda of a compilation unit. -/
def lambdaName (unitPrefix : String) (k : Nat) : String := s!"__lambda_{unitPrefix}{k}"

/-- `compile_expr` lets the registers of a `Let` start above its destination. -/
def Compiler.raiseAbove (s : Compiler) (pos : Position) (dst : Nat) : Compiler :=
  match pos with
  | .value =>
    if s.nextReg ≤ dst then { s with nextReg := dst + 1, maxReg := max s.maxReg (dst + 1) } else s
  | .tail _ => s

mutual

def compileNode : IRNode → Position → Nat → Compiler → Emitted
  | .int v, _, dst, s => s.loadConstant (.int v) dst
  | .float bits, _, dst, s => s.loadConstant (.float bits) dst
  | .str v, _, dst, s => s.loadConstant (.str v) dst
  | .bool true, _, dst, s => ⟨[⟨.loadTrue, dst, 0, 0⟩], s⟩
  | .bool false, _, dst, s => ⟨[⟨.loadFalse, dst, 0, 0⟩], s⟩
  | .nil, _, dst, s => ⟨[⟨.loadNil, dst, 0, 0⟩], s⟩
  | .load name, _, dst, s =>
    match s.locals name with
    | some slot =>
      let move : List Instruction := if slot ≠ dst then [⟨.move, dst, slot, 0⟩] else []
      if slot ∈ s.movedRegs then
        ⟨⟨.checkNotMoved, 0, slot, s.constantIndex (.str name)⟩ :: move,
          s.addConstant (.str name)⟩
      else ⟨move, s⟩
    | none => s.loadConstant (.irFuncRef name) dst
  | .do [], _, dst, s => ⟨[⟨.loadNil, dst, 0, 0⟩], s⟩
  | .do (expr :: exprs), pos, dst, s =>
    let all := compileDo (expr :: exprs) pos dst s
    ⟨all.code, all.state.freeRegTo (max s.nextReg (dst + 1))⟩
  | .list items, _, dst, s =>
    let start := s.nextReg
    let all := compileArgs items s
    ⟨all.code ++ [⟨.makeList, dst, start, items.length⟩],
      all.state.freeRegTo (max start (dst + 1))⟩
  | .ite cond then_ else_, pos, dst, s =>
    let condReg := s.nextReg
    let c := compileNode cond .value condReg s.allocReg
    let t := compileNode then_ pos dst (c.state.freeRegTo (max condReg (dst + 1)))
    let e := compileNode else_ pos dst t.state
    ⟨c.code ++ ⟨.jumpIfFalse, 0, condReg, toU16 (t.code.length + 1)⟩ :: t.code ++
        ⟨.jump, 0, toU16 e.code.length, 0⟩ :: e.code,
      (e.state.noteJump (t.code.length + 1)).noteJump e.code.length⟩
  | .let bindings body, pos, dst, s =>
    let bound := compileBindings bindings (s.raiseAbove pos dst)
    let b := compileNode body pos dst bound.state
    ⟨bound.code ++ b.code,
      (b.state.removeLocals (bindings.map IRBinding.name)).freeRegTo (max s.nextReg (dst + 1))⟩
  | .call name args, .value, dst, s => finishCall name args dst s (compileArgs args s)
  | .call name args, .tail fnName, dst, s =>
    if name = fnName then finishTailCall fnName args s (compileArgs args s)
    else finishCall name args dst s (compileArgs args s)
  | .callExpr callee args, _, dst, s =>
    let calleeReg := s.nextReg
    let c := compileNode callee .value calleeReg s.allocReg
    let save := c.state.nextReg
    let all := compileArgs args c.state
    ⟨c.code ++ all.code ++ moveToSlots (dst + 1) all.regs ++
        [⟨.callReg, dst, calleeReg, args.length⟩],
      (all.state.reserveSlots dst args.length).freeRegTo (max save (dst + 1))⟩
  | .variant tag [], _, dst, s =>
    ⟨[⟨.makeVariant0, dst, s.constantIndex (.str tag), 0⟩], s.addConstant (.str tag)⟩
  | .variant tag [arg], _, dst, s =>
    let tagIdx := s.constantIndex (.str tag)
    let s := s.addConstant (.str tag)
    let aReg := s.nextReg
    let a := compileNode arg .value aReg s.allocReg
    ⟨a.code ++ [⟨.makeVariant, dst, tagIdx, aReg⟩], a.state.freeRegTo (max aReg (dst + 1))⟩
  | .variant tag (arg :: arg' :: args), _, dst, s =>
    let tagIdx := s.constantIndex (.str tag)
    let s := s.addConstant (.str tag)
    let start := s.nextReg
    let all := compileArgs (arg :: arg' :: args) s
    let listReg := all.state.nextReg
    ⟨all.code ++ [⟨.makeList, listReg, start, args.length + 2⟩,
        ⟨.makeVariant, dst, tagIdx, listReg⟩],
      all.state.allocReg.freeRegTo (max start (dst + 1))⟩
  | .lambda params body, _, dst, s =>
    let name := lambdaName s.lambdaPrefix s.lambdaCounter
    let captures := capturedNames s params body
    let allParams := captures.map Prod.fst ++ params
    let inner := s.nextLambda.enterFunction allParams
    let b := compileNode body (.tail name) inner.nextReg inner.allocReg
    let func := { b.state.toFunc name allParams (b.code ++ [⟨.ret, 0, inner.nextReg, 0⟩]) with
      captureCount := captures.length }
    makeClosure name captures dst ((s.nextLambda.leaveFunction b.state).addLambda func)
  | .match scrutinee arms, pos, dst, s =>
    let scrReg := s.nextReg
    let scr := compileNode scrutinee .value scrReg s.allocReg
    let all := compileArms arms pos dst scrReg scr.state
    ⟨scr.code ++ all.code, all.state.freeRegTo (max scrReg (dst + 1))⟩
  | .try expr, _, dst, s =>
    let src := s.nextReg
    let e := compileNode expr .value src s.allocReg
    ⟨e.code ++ [⟨.tryUnwrap, dst, src, 0⟩], e.state.freeRegTo (max src (dst + 1))⟩
  | .func _ _ _, _, dst, s => ⟨[⟨.loadNil, dst, 0, 0⟩], s⟩

/-- Compile each argument into a register of its own. -/
def compileArgs : List IRNode → Compiler → EmittedArgs
  | [], s => ⟨[], [], s⟩
  | arg :: args, s =>
    let a := compileNode arg .value s.nextReg s.allocReg
    let rest := compileArgs args a.state
    ⟨a.code ++ rest.code, s.nextReg :: rest.regs, rest.state⟩

/-- Every expression but the last goes to a register of its own. -/
def compileDo : List IRNode → Position → Nat → Compiler → Emitted
  | [], _, _, s => ⟨[], s⟩
  | [expr], pos, dst, s => compileNode expr pos dst s
  | expr :: exprs, pos, dst, s =>
    let e := compileNode expr .value s.nextReg s.allocReg
    let rest := compileDo exprs pos dst e.state
    ⟨e.code ++ rest.code, rest.state⟩

def compileBindings : List IRBinding → Compiler → Emitted
  | [], s => ⟨[], s⟩
  | ⟨name, expr⟩ :: bindings, s =>
    let e := compileNode expr .value s.nextReg s.allocReg
    let rest := compileBindings bindings (e.state.insertLocal name s.nextReg)
    ⟨e.code ++ rest.code, rest.state⟩

/-- The arms of a `Match` from one arm on. A literal or variant arm ends with a
jump over the arms after it; a wildcard or binder arm does not. -/
def compileArms : List IRArm → Position → Nat → Nat → Compiler → Emitted
  | [], _, _, _, s => ⟨[], s⟩
  | ⟨.wild, body⟩ :: arms, pos, dst, scrReg, s =>
    let b := compileNode body pos dst s
    let rest := compileArms arms pos dst scrReg b.state
    ⟨⟨.matchWild, dst, scrReg, 0⟩ :: b.code ++ rest.code, rest.state⟩
  | ⟨.bind name, body⟩ :: arms, pos, dst, scrReg, s =>
    let b := compileNode body pos dst (s.insertLocal name scrReg)
    let rest := compileArms arms pos dst scrReg (b.state.removeLocals [name])
    ⟨b.code ++ rest.code, rest.state⟩
  | ⟨.lit val, body⟩ :: arms, pos, dst, scrReg, s =>
    let valReg := s.nextReg
    let idx := s.allocReg.constantIndex val
    let s := (s.allocReg.addConstant val).freeRegTo (max valReg (dst + 1))
    let b := compileNode body pos dst s
    let rest := compileArms arms pos dst scrReg b.state
    ⟨⟨.loadConst, valReg, idx, 0⟩ :: ⟨.eq, valReg, scrReg, valReg⟩ ::
        ⟨.jumpIfFalse, 0, valReg, toU16 (b.code.length + 1)⟩ :: b.code ++
        ⟨.jump, 0, toU16 rest.code.length, 0⟩ :: rest.code,
      (rest.state.noteJump (b.code.length + 1)).noteJump rest.code.length⟩
  | ⟨.variant tag subPats, body⟩ :: arms, pos, dst, scrReg, s =>
    let tagIdx := s.constantIndex (.str tag)
    let s := s.addConstant (.str tag)
    let innerReg := s.nextReg
    let fields := bindFields subPats innerReg s.allocReg
    let b := compileNode body pos dst fields.state
    let s := (b.state.removeLocals (IRPattern.bindingsList subPats)).freeRegTo
      (max innerReg (dst + 1))
    let rest := compileArms arms pos dst scrReg s
    ⟨⟨.matchTag, innerReg, scrReg, tagIdx⟩ ::
        ⟨.jumpIfNoMatch, 0, toU16 (fields.code.length + b.code.length + 1), 0⟩ ::
        fields.code ++ b.code ++ ⟨.jump, 0, toU16 rest.code.length, 0⟩ :: rest.code,
      (rest.state.noteJump (fields.code.length + b.code.length + 1)).noteJump rest.code.length⟩

end

/-- `compile_expr`. -/
def compileExpr (node : IRNode) (dst : Nat) (s : Compiler) : Emitted :=
  compileNode node .value dst s

/-- `compile_expr_tail`. -/
def compileExprTail (node : IRNode) (dst : Nat) (fnName : String) (s : Compiler) : Emitted :=
  compileNode node (.tail fnName) dst s

/-- `compile_function`: the compiled function and the enclosing compiler afterwards. -/
def compileFunction (name : String) (params : List String) (body : IRNode) (s : Compiler) :
    BytecodeFunc × Compiler :=
  let inner := s.enterFunction params
  let b := compileExprTail body inner.nextReg name inner.allocReg
  (b.state.toFunc name params (b.code ++ [⟨.ret, 0, inner.nextReg, 0⟩]), s.leaveFunction b.state)

/-- Evaluate each clause into a fresh register and assert it. -/
def compileClauses (assertOp : Op) (fnNameIdx : Nat) : List Clause → Compiler → Emitted
  | [], s => ⟨[], s⟩
  | clause :: clauses, s =>
    let srcIdx := s.constantIndex (.str clause.source)
    let s := s.addConstant (.str clause.source)
    let boolReg := s.nextReg
    let c := compileExpr clause.ir boolReg s.allocReg
    let rest := compileClauses assertOp fnNameIdx clauses (c.state.freeRegTo boolReg)
    ⟨c.code ++ ⟨assertOp, fnNameIdx, boolReg, srcIdx⟩ :: rest.code, rest.state⟩

/-- The clauses that are not proven statically. -/
def Compiler.unproven (s : Compiler) (name : String) (clauses : List Clause) : List Clause :=
  clauses.filter fun clause => !s.provenClauses name clause.source

/-- `compile_function_with_contracts`. -/
def compileFunctionWithContracts (name : String) (params : List String) (body : IRNode)
    (contracts : Contracts) (s : Compiler) : BytecodeFunc × Compiler :=
  let inner := s.enterFunction params
  let fnNameIdx := inner.constantIndex (.str name)
  let inner := inner.addConstant (.str name)
  if s.trustedFns name then
    let b := compileExprTail body inner.nextReg name inner.allocReg
    (b.state.toFunc name params (b.code ++ [⟨.ret, 0, inner.nextReg, 0⟩]), s.leaveFunction b.state)
  else
    let req := compileClauses .assertRequires fnNameIdx contracts.requires inner
    let dst := req.state.nextReg
    let b := compileExprTail body dst name req.state.allocReg
    let inv := compileClauses .assertInvariant fnNameIdx (s.unproven name contracts.invariants)
      (b.state.insertLocal "result" dst)
    let ens := compileClauses .assertEnsures fnNameIdx (s.unproven name contracts.ensures) inv.state
    let final := ens.state.removeLocals ["result"]
    (final.toFunc name params
      (req.code ++ b.code ++ inv.code ++ ens.code ++ [⟨.ret, 0, dst, 0⟩]), s.leaveFunction final)

/-- The `__main__` body made of the top-level expressions. -/
def mainBody : List IRNode → IRNode
  | [] => .nil
  | [node] => node
  | nodes => .do nodes

def isFunc : IRNode → Bool
  | .func _ _ _ => true
  | _ => false

/-- The functions of a program in order, each with its contract if it has one. -/
def compileFuncs (contracts : String → Option Contracts) :
    List IRNode → Compiler → List BytecodeFunc × Compiler
  | [], s => ([], s)
  | .func name params body :: nodes, s =>
    let f := match contracts name with
      | some clauses => compileFunctionWithContracts name params body clauses s
      | none => compileFunction name params body s
    let rest := compileFuncs contracts nodes f.2
    (f.1 :: rest.1, rest.2)
  | _ :: nodes, s => compileFuncs contracts nodes s

/-- What `compile_program` returns: the functions, the lambdas after them, and main. -/
structure CompiledProgram where
  functions : List BytecodeFunc
  main : BytecodeFunc
  panicked : Bool
  longJump : Bool

/-- `compile_program_with_contracts`. -/
def compileProgramWithContracts (s : Compiler) (nodes : List IRNode)
    (contracts : String → Option Contracts) : CompiledProgram :=
  let funcs := compileFuncs contracts nodes s
  let main := compileFunction "__main__" [] (mainBody (nodes.filter (!isFunc ·))) funcs.2
  ⟨funcs.1 ++ main.2.compiledLambdas, main.1, main.2.panicked, main.2.longJump⟩

/-- `compile_program`. -/
def compileProgram (s : Compiler) (nodes : List IRNode) : CompiledProgram :=
  compileProgramWithContracts s nodes fun _ => none

end Airl
