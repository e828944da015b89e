import Airl.Bytecode.Linking
import Airl.Correctness.Safety

/-! # Which definition a name means

Builtins come first: the compiler turns operators into opcodes, the machine and
the native compiler ask their builtins before the loaded functions. A function
whose name is nobody else's is what every call of its name runs, in every run,
and what all loaders keep.
-/

namespace Airl

open Relation (ReflTransGen)

variable {World : Type}

/-- The next instruction of the frame uses the function of that name. -/
inductive Frame.Uses (fr : Frame) (name : String) : Prop
  | call {instr : Instruction} (hinstr : fr.func.instructions[fr.ip]? = some instr)
      (hop : instr.op = .call) (hname : fr.func.constants[instr.a]? = some (.str name))
  | tailCall {instr : Instruction} (hinstr : fr.func.instructions[fr.ip]? = some instr)
      (hop : instr.op = .tailCall) (hname : fr.funcName = name)
  | partialApp {instr : Instruction} {args : List VmValue} {remaining : Nat}
      (hinstr : fr.func.instructions[fr.ip]? = some instr) (hop : instr.op = .callReg)
      (hcallee : fr.Holds instr.a (.partialApp (.builtinFn name) args remaining))

/-- What a use of a definition comes to: its code starts, or the call waits for more arguments. -/
inductive RunsDefinition (func : BytecodeFunc) : Next World → Prop
  | starts {fr : Frame} {rest : List Frame} {depth : Nat} {world : World} (hfunc : fr.func = func)
      (hname : fr.funcName = func.name) (hip : fr.ip = 0) :
      RunsDefinition func (.running ⟨fr :: rest, depth, world⟩)
  | waits {fr : Frame} {rest : List Frame} {depth : Nat} {world : World} {dst remaining : Nat}
      {args : List VmValue} (hcount : args.length + remaining = func.arity)
      (hholds : fr.Holds dst (.partialApp (.builtinFn func.name) args remaining)) :
      RunsDefinition func (.running ⟨fr :: rest, depth, world⟩)

/-- The machine dispatches the name itself. -/
def Builtins.Dispatches (b : Builtins String World) (name : String) : Prop :=
  name = "thread-spawn" ∨ name = "fn-metadata" ∨ b.known name = true

/-- No operator and no builtin of the machine or the native compiler has the name. -/
structure Unreserved (b : Builtins String World) (builtinMap : String → Bool) (name : String) :
    Prop where
  operator : directOp name = none
  arity : builtinArity name = none
  machine : ¬ b.Dispatches name
  native : builtinMap name = false
  variadic : name ∉ ["print", "str", "format"]

/-- Every frame runs the loaded function of its name. -/
def Vm.Named (m : Machine World) (vm : Vm World) : Prop :=
  ∀ fr ∈ vm.callStack, m.lookup fr.funcName = some fr.func

namespace Machine

variable {m : Machine World} {vm vm' : Vm World} {func : BytecodeFunc}

/-- A state of a run of the program. -/
def Reaches (m : Machine World) (vm : Vm World) : Prop :=
  ∃ world vm₀, m.startMain world = .ok vm₀ ∧ ReflTransGen m.Advances vm₀ vm

theorem Reaches.valid (h : m.Reaches vm) : m.functions.all BytecodeFunc.valid = true := by
  obtain ⟨world, vm₀, hstart, -⟩ := h
  unfold startMain at hstart
  split_ifs at hstart with hvalid
  exact hvalid

/-- A state that is reached in a session is one a run comes to. -/
theorem Reaches.comes (h : m.Reaches vm) : m.Comes vm := by
  obtain ⟨world, vm₀, hstart, hreach⟩ := h
  unfold startMain at hstart
  split_ifs at hstart
  exact ⟨_, _, _, _, hstart, hreach⟩

/-- Every frame is of a function of the machine, at the start. -/
theorem start_named {name : String} {args : List VmValue} {world : World}
    (h : m.start name args world = .ok vm) : vm.Named m := by
  unfold start pushFrame at h
  split at h
  next => exact nomatch h
  next func hlookup =>
    split_ifs at h
    cases h
    intro fr hfr
    obtain rfl := List.mem_singleton.mp hfr
    exact hlookup

/-- And after every step. -/
theorem advances_named (hvm : vm.Named m) (h : m.Advances vm vm') : vm'.Named m := by
  obtain ⟨_ | ⟨fr, rest⟩, depth, world⟩ := vm
  · exact nomatch h
  have hfr := hvm fr List.mem_cons_self
  have hrest : ∀ g ∈ rest, m.lookup g.funcName = some g.func := fun g hg =>
    hvm g (List.mem_cons_of_mem _ hg)
  intro g hg
  cases step_turn h with
  | stays hfunc hname =>
    rcases List.mem_cons.mp hg with rfl | hg
    · rw [hname, hfunc]
      exact hfr
    · exact hrest g hg
  | enters _ _ _ hlookup =>
    rcases List.mem_cons.mp hg with rfl | hg
    · exact hlookup
    · rcases List.mem_cons.mp hg with rfl | hg
      · exact hfr
      · exact hrest g hg
  | @leaves _ caller callers _ hcallers =>
    subst hcallers
    rcases List.mem_cons.mp hg with rfl | hg
    · exact hrest caller List.mem_cons_self
    · exact hrest g (List.mem_cons_of_mem _ hg)

theorem Comes.named (h : m.Comes vm) : vm.Named m := by
  obtain ⟨name, args, world, vm₀, hstart, hreach⟩ := h
  induction hreach with
  | refl => exact start_named hstart
  | tail _ hstep ih => exact advances_named ih hstep

/-- The only failure of a use. -/
def Overflows (m : Machine World) (f : Fault) : Prop := f = .error (.stackOverflow m.maxCallDepth)

section Use

variable {fr : Frame} {rest : List Frame} {depth dst : Nat} {world : World}

/-- Entering a definition runs it, or there are too many frames. -/
theorem enter_runs (hlookup : m.lookup func.name = some func) (args : List (Option VmValue)) :
    Ends m.Overflows (RunsDefinition func) (m.enter func.name args dst fr rest depth world) := by
  simp only [enter, pushFrame, hlookup]
  split
  next => exact rfl
  next => exact .starts rfl rfl rfl

theorem builtinPartial_eq_none {name : String} (h : builtinArity name = none)
    (args : List VmValue) : builtinPartial name args = none := by
  unfold builtinPartial
  rw [h]

theorem dispatchNamed_eq_none {name : String} (h : ¬ m.builtins.Dispatches name)
    (args : List VmValue) : m.dispatchNamed name args world = none := by
  simp only [Builtins.Dispatches, not_or] at h
  unfold dispatchNamed
  rw [if_neg h.1, if_neg h.2.1, if_neg h.2.2]

theorem toRtList_length (vals : List VmValue) : (Value.toRtList vals).length = vals.length := by
  induction vals with
  | nil => rfl
  | cons v vals ih => rw [Value.toRtList, List.length_cons, ih, List.length_cons]

variable (fr) in
/-- A call of a defined name runs the definition. -/
theorem callNamed_runs {builtinMap : String → Bool} (hlookup : m.lookup func.name = some func)
    (hfree : Unreserved m.builtins builtinMap func.name) (hdst : dst < fr.registers.length)
    (ps : List (Option VmValue)) :
    Ends m.Overflows (RunsDefinition func) (m.callNamed func.name ps dst fr rest depth world) := by
  unfold callNamed
  rw [builtinPartial_eq_none hfree.arity]
  simp only [userPartial, hlookup]
  by_cases hfew : (ps.map orNil).length < func.arity
  · rw [if_pos hfew]
    dsimp only
    have hwrite := Frame.setPointer_ends fr dst (some (Value.toRt
      (.partialApp (.irFuncRef func.name) (ps.map orNil) (func.arity - (ps.map orNil).length))))
    unfold store Frame.write
    apply hwrite.bind (fun _ h => absurd hdst h)
    rintro fr' rfl
    refine .waits ?_ (List.getElem?_set_self hdst)
    rw [toRtList_length]
    omega
  · rw [if_neg hfew]
    dsimp only
    split
    next hdispatched => exact absurd hdispatched hfree.machine
    next => exact enter_runs hlookup ps

/-- So does a call of its value. -/
theorem callValue_runs {builtinMap : String → Bool} (hlookup : m.lookup func.name = some func)
    (hfree : Unreserved m.builtins builtinMap func.name) (captured args : List VmValue)
    (remaining : Nat) :
    Ends m.Overflows (RunsDefinition func)
      (m.callValue (.partialApp (.builtinFn func.name) captured remaining) args dst fr rest depth
        world) := by
  simp only [callValue, resolveCallee, builtinPartial_eq_none hfree.arity,
    dispatchNamed_eq_none hfree.machine]
  exact enter_runs hlookup _

variable (fr) in
/-- A call of a builtin enters no frame. -/
theorem callNamed_stays {name : String} (hname : m.builtins.Dispatches name)
    (ps : List (Option VmValue)) :
    Ends (fun _ => True) (fun next => ∃ fr' world',
        next = .running ⟨fr' :: rest, depth, world'⟩ ∧ fr'.func = fr.func)
      (m.callNamed name ps dst fr rest depth world) := by
  have hstore : ∀ (v : VmValue) (world : World), Ends (fun _ => True) (fun next => ∃ fr' world',
      next = .running ⟨fr' :: rest, depth, world'⟩ ∧ fr'.func = fr.func)
      (store v dst fr rest depth world) := by
    intro v world
    apply (Frame.setPointer_ends fr dst (some v.toRt)).bind (fun _ _ => trivial)
    rintro fr' rfl
    exact ⟨_, _, rfl, rfl⟩
  unfold callNamed
  split
  next => exact hstore _ _
  split
  next => exact hstore _ _
  split
  next =>
    apply (derefAll_ends ps).bind (fun _ _ => trivial)
    intro args _
    split
    next r _ =>
      obtain ⟨r, world'⟩ := r
      cases r with
      | ok v => exact hstore v world'
      | error f => trivial
    next hnone => exact absurd hnone (dispatchNamed_ne_none hname)
  next hnot => exact absurd hname hnot

end Use

theorem stringConstant_ends_eq (fr : Frame) {idx : Nat} {text : String} (message : String)
    (hconst : fr.func.constants[idx]? = some (.str text)) :
    Ends (fun _ => False) (fun s => s = text) (fr.stringConstant idx message) := by
  unfold Frame.stringConstant
  rw [hconst]
  rfl

/-- In a validated machine the operands of every instruction are in range. -/
theorem Reaches.operands {fr : Frame} {rest : List Frame} {instr : Instruction} (h : m.Reaches vm)
    (hstack : vm.callStack = fr :: rest) (hinstr : fr.func.instructions[fr.ip]? = some instr) :
    validInstruction fr.registers.length fr.func.constants.length instr = true := by
  have hvalid := List.all_eq_true.mp h.valid
  exact wellFormed_operands hvalid (h.comes.wellFormed hvalid) hstack hinstr

/-- Every use of a loaded function whose name is nobody else's runs that function. -/
theorem Reaches.uses {builtinMap : String → Bool} {fr : Frame} {rest : List Frame}
    (h : m.Reaches vm) (hlookup : m.lookup func.name = some func)
    (hfree : Unreserved m.builtins builtinMap func.name) (hstack : vm.callStack = fr :: rest)
    (huses : fr.Uses func.name) : Ends m.Overflows (RunsDefinition func) (m.step vm) := by
  obtain ⟨_, depth, world⟩ := vm
  obtain rfl := hstack
  cases huses with
  | @call instr hinstr hop hname =>
    have hoperands := h.operands rfl hinstr
    simp only [validInstruction, hop, Bool.and_eq_true, Bool.or_eq_true, decide_eq_true_eq,
      beq_iff_eq] at hoperands
    rw [step_eq hinstr]
    simp only [exec, hop]
    apply (stringConstant_ends_eq { fr with ip := fr.ip + 1 } _ hname).bind
      (fun _ h => h.elim)
    rintro _ rfl
    apply (Frame.window_ends { fr with ip := fr.ip + 1 } _ _).bind
      (fun _ hrange => absurd hoperands.2 hrange)
    intro ps _
    exact callNamed_runs { fr with ip := fr.ip + 1 } hlookup hfree hoperands.1.1 ps
  | @tailCall instr hinstr hop hname =>
    rw [step_eq hinstr]
    simp only [exec, hop]
    have hnamed := h.comes.named fr List.mem_cons_self
    rw [hname, hlookup] at hnamed
    exact .starts (Option.some.inj hnamed).symm hname rfl
  | @partialApp instr args remaining hinstr hop hcallee =>
    have hoperands := h.operands rfl hinstr
    simp only [validInstruction, hop, Bool.and_eq_true, Bool.or_eq_true, decide_eq_true_eq,
      beq_iff_eq] at hoperands
    rw [step_eq hinstr]
    simp only [exec, hop]
    apply (Frame.pointer_ends { fr with ip := fr.ip + 1 } instr.a).bind
      (fun _ hrange => absurd hoperands.1.2 hrange)
    intro p hp
    obtain rfl := Option.some.inj (hp.symm.trans hcallee)
    apply (Frame.window_ends { fr with ip := fr.ip + 1 } _ _).bind
      (fun _ hrange => absurd hoperands.2 hrange)
    intro ps _
    exact callValue_runs hlookup hfree args _ remaining

/-- A step that calls a dispatched name stays in its frame. -/
theorem step_dispatched {name : String} {fr : Frame} {rest : List Frame} {instr : Instruction}
    (hname : m.builtins.Dispatches name) (hstack : vm.callStack = fr :: rest)
    (hinstr : fr.func.instructions[fr.ip]? = some instr) (hop : instr.op = .call)
    (hconst : fr.func.constants[instr.a]? = some (.str name)) :
    Ends (fun _ => True) (fun next => ∃ fr' world',
      next = .running ⟨fr' :: rest, vm.recursionDepth, world'⟩ ∧ fr'.func = fr.func)
      (m.step vm) := by
  obtain ⟨_, depth, world⟩ := vm
  obtain rfl := hstack
  rw [step_eq hinstr]
  simp only [exec, hop]
  apply (stringConstant_ends_eq { fr with ip := fr.ip + 1 } _ hconst).bind
    (fun _ h => h.elim)
  rintro _ rfl
  apply (Frame.window_ends { fr with ip := fr.ip + 1 } _ _).bind (fun _ _ => trivial)
  intro ps _
  exact callNamed_stays { fr with ip := fr.ip + 1 } hname ps

end Machine

/-- An instruction of the emitted code refers to the name. -/
def Emitted.Names (e : Emitted) (op : Op) (name : String) : Prop :=
  ∃ instr ∈ e.code, instr.op = op ∧ e.state.constants[instr.a]? = some (.str name)

/-- A general call has the name in its pool. -/
theorem generalCall_names {name : String} {s : Compiler} (hlocal : s.locals name = none)
    (args : List IRNode) (dst : Nat) (all : EmittedArgs) :
    (generalCall name args dst s all).Names .call name := by
  have hcall : ∀ (code marks : List Instruction) (s' : Compiler) (idx : Nat),
      s'.constants[idx]? = some (.str name) →
      Emitted.Names ⟨code ++ [⟨.call, dst, idx, args.length⟩] ++ marks, s'⟩ .call name :=
    fun _ _ _ _ hconst =>
      ⟨_, List.mem_append_left _ (List.mem_append_right _ List.mem_cons_self), rfl, hconst⟩
  unfold generalCall
  simp only [hlocal, emitCall]
  -- the ownership marks leave the pool as it is
  cases s.ownershipMap name <;>
    exact hcall _ _ _ _ (Compiler.getElem?_addConstant_str _ name)

/-- So has every call that is no operator. -/
theorem compileNode_call_names {name : String} {s : Compiler} (hlocal : s.locals name = none)
    (hop : directOp name = none) (args : List IRNode) (pos : Position) (dst : Nat) :
    (compileNode (.call name args) pos dst s).Names .call name ∨
      pos = .tail name ∧ (compileNode (.call name args) pos dst s).Names .tailCall name := by
  have hgeneral : (finishCall name args dst s (compileArgs args s)).Names .call name := by
    simp only [finishCall, hop]
    exact generalCall_names hlocal args dst _
  cases pos with
  | value =>
    rw [compileNode]
    exact Or.inl hgeneral
  | tail fnName =>
    rw [compileNode]
    split
    next hname =>
      subst hname
      exact Or.inr ⟨rfl, _, List.mem_append_right _ List.mem_cons_self, rfl,
        Compiler.getElem?_addConstant_str _ name⟩
    next => exact Or.inl hgeneral

/-- An operator is compiled to its opcode. -/
theorem compileNode_operator {name : String} {op : Op} (hop : directOp name = some op)
    {pos : Position} (hpos : pos ≠ .tail name) (x y : IRNode) (dst : Nat) (s : Compiler) :
    ∃ code a b, (compileNode (.call name [x, y]) pos dst s).code = code ++ [⟨op, dst, a, b⟩] := by
  have hfinish : ∃ code a b, (finishCall name [x, y] dst s (compileArgs [x, y] s)).code =
      code ++ [⟨op, dst, a, b⟩] := by
    simp only [finishCall, hop, compileArgs]
    exact ⟨_, _, _, rfl⟩
  cases pos with
  | value =>
    rw [compileNode]
    exact hfinish
  | tail fnName =>
    rw [compileNode, if_neg fun heq => hpos (by rw [heq])]
    exact hfinish

theorem compileFunc_name (contracts : String → Option Contracts) (name : String)
    (params : List String) (body : IRNode) (s : Compiler) :
    (compileFunc contracts name params body s).1.name = name := by
  unfold compileFunc
  split
  · unfold compileFunctionWithContracts
    dsimp only
    split <;> rfl
  · rfl

/-- The compiled form of the function definition between two parts of a program. -/
def definitionAfter (contracts : String → Option Contracts) (s : Compiler) (pre : List IRNode)
    (name : String) (params : List String) (body : IRNode) : BytecodeFunc :=
  (compileFunc contracts name params body (compileFuncs contracts pre s).2).1

/-- The definition is one of the compiled functions. -/
theorem definitionAfter_mem (contracts : String → Option Contracts) (s : Compiler)
    (pre post : List IRNode) (name : String) (params : List String) (body : IRNode) :
    definitionAfter contracts s pre name params body ∈
      (compileFuncs contracts (pre ++ .func name params body :: post) s).1 := by
  induction pre generalizing s with
  | nil => exact List.mem_cons_self
  | cons node pre ih =>
    cases node with
    | func name' params' body' =>
      exact List.mem_cons_of_mem _ (ih (compileFunc contracts name' params' body' s).2)
    | _ => exact ih s

/-- The machine runs the function at every use of its name and the native compiler links it, as the
marshaller does if it is the first of its name too. -/
structure UsedConsistently (functions : List BytecodeFunc) (main : BytecodeFunc)
    (builtins : Builtins String World) (builtinMap : String → Bool) (func : BytecodeFunc) :
    Prop where
  loaded : ∀ maxCallDepth,
    (loadProgram functions main builtins maxCallDepth).lookup func.name = some func
  frames : ∀ maxCallDepth vm, (loadProgram functions main builtins maxCallDepth).Reaches vm →
    ∀ fr ∈ vm.callStack, fr.funcName = func.name → fr.func = func
  uses : ∀ maxCallDepth vm, (loadProgram functions main builtins maxCallDepth).Reaches vm →
    ∀ fr rest, vm.callStack = fr :: rest → fr.Uses func.name →
      Ends (loadProgram functions main builtins maxCallDepth).Overflows (RunsDefinition func)
        ((loadProgram functions main builtins maxCallDepth).step vm)
  nativeCall : ∀ caller argc,
    callTarget builtinMap caller func.name argc = .symbol (aotSymbolName func.name)
  nativeTailCall : tailCallTarget func.name func.name = some (.symbol (aotSymbolName func.name))
  executable : SoleSymbol (functions ++ [main]) func.name → ∀ g,
    LinkedAs (executableObjects (functions ++ [main])) (aotSymbolName func.name) g ↔ g = func
  marshalled : SoleSymbol (functions ++ [main]) func.name → IsFirst (functions ++ [main]) func →
    ∀ g, LinkedAs (marshalledObjects (functions ++ [main])) (aotSymbolName func.name) g ↔ g = func
  streamed : SoleSymbol (functions ++ [main]) func.name → IsFirst (functions ++ [main]) func →
    ∀ batches, batches.flatten = functions ++ [main] →
      ∀ g, LinkedAs (streamedObjects batches) (aotSymbolName func.name) g ↔ g = func

/-- Where a builtin or an operator has the name, the machine and the native compiler take that. -/
structure BuiltinFirst (functions : List BytecodeFunc) (main : BytecodeFunc)
    (builtins : Builtins String World) (builtinMap : String → Bool) (name : String) : Prop where
  machine : builtins.Dispatches name → ∀ maxCallDepth (vm : Vm World) fr rest instr,
    vm.callStack = fr :: rest → fr.func.instructions[fr.ip]? = some instr → instr.op = .call →
    fr.func.constants[instr.a]? = some (.str name) →
      Ends (fun _ => True) (fun next => ∃ fr' world',
          next = .running ⟨fr' :: rest, vm.recursionDepth, world'⟩ ∧ fr'.func = fr.func)
        ((loadProgram functions main builtins maxCallDepth).step vm)
  native : builtinMap name = true → name ∉ ["print", "str", "format"] → ∀ caller argc,
    name ≠ caller → callTarget builtinMap caller name argc = .builtin name
  operator : ∀ op, directOp name = some op → ∀ (s : Compiler) (x y : IRNode) (pos : Position)
    (dst : Nat), pos ≠ .tail name →
      ∃ code a b, (compileNode (.call name [x, y]) pos dst s).code = code ++ [⟨op, dst, a, b⟩]

section Resolution

variable {functions : List BytecodeFunc} {main : BytecodeFunc} {builtins : Builtins String World}
  {builtinMap : String → Bool} {name : String}

/-- A native call of a defined name goes to its symbol. -/
theorem callTarget_symbol (hfree : Unreserved builtins builtinMap name) (caller : String)
    (argc : Nat) : callTarget builtinMap caller name argc = .symbol (aotSymbolName name) := by
  have hvariadic := hfree.variadic
  simp only [List.mem_cons, List.not_mem_nil, or_false, not_or] at hvariadic
  unfold callTarget
  rw [if_neg (by tauto)]
  split
  next hself => rw [hself]
  next => rw [hfree.native, if_neg Bool.false_ne_true]

/-- And of a builtin to the runtime. -/
theorem callTarget_builtin (hname : builtinMap name = true)
    (hvariadic : name ∉ ["print", "str", "format"]) {caller : String} (argc : Nat)
    (hother : name ≠ caller) : callTarget builtinMap caller name argc = .builtin name := by
  simp only [List.mem_cons, List.not_mem_nil, or_false, not_or] at hvariadic
  unfold callTarget
  rw [if_neg (by tauto), if_neg hother, if_pos hname]

/-- The last definition of a free name is used by all calls. -/
theorem IsLast.usedConsistently {func : BytecodeFunc} (hlast : IsLast (functions ++ [main]) func)
    (hfree : Unreserved builtins builtinMap func.name) :
    UsedConsistently functions main builtins builtinMap func where
  loaded _ := lookup_loadProgram.mpr hlast
  frames maxCallDepth vm h fr hfr hname := by
    have hnamed := h.comes.named fr hfr
    rw [hname, lookup_loadProgram.mpr hlast] at hnamed
    exact (Option.some.inj hnamed).symm
  uses maxCallDepth vm h fr rest hstack huses :=
    h.uses (lookup_loadProgram.mpr hlast) hfree hstack huses
  nativeCall := callTarget_symbol hfree
  nativeTailCall := if_pos rfl
  executable := linkedAs_executable hlast
  marshalled hsymbol hfirst := linkedAs_marshalled hfirst hsymbol
  streamed hsymbol hfirst batches hbatches :=
    linkedAs_streamed (hbatches ▸ hfirst) (hbatches ▸ hsymbol)

variable (functions main builtins builtinMap name) in
/-- A name that is a builtin is the builtin everywhere. -/
theorem builtinFirst : BuiltinFirst functions main builtins builtinMap name where
  machine hname _ _ _ _ _ hstack hinstr hop hconst :=
    Machine.step_dispatched hname hstack hinstr hop hconst
  native hname hvariadic _ argc hother := callTarget_builtin hname hvariadic argc hother
  operator _ hop s x y _ dst hpos := compileNode_operator hop hpos x y dst s

end Resolution

/-- The last definition of a name that is nobody else's is what every use of the name runs, and a
name of a builtin means the builtin. -/
theorem definitions_resolve (library : List BytecodeFunc) (s : Compiler)
    (contracts : String → Option Contracts) (builtins : Builtins String World)
    (builtinMap : String → Bool) (pre post : List IRNode) (name : String) (params : List String)
    (body : IRNode) :
    let p := compileProgramWithContracts s (pre ++ .func name params body :: post) contracts
    let func := definitionAfter contracts s pre name params body
    func ∈ p.functions ∧ func.name = name ∧
    BuiltinFirst (library ++ p.functions) p.main builtins builtinMap name ∧
    (Unreserved builtins builtinMap name →
      (IsLast (library ++ p.functions ++ [p.main]) func →
        UsedConsistently (library ++ p.functions) p.main builtins builtinMap func) ∧
      ∀ (s' : Compiler) (args : List IRNode) (pos : Position) (dst : Nat), s'.locals name = none →
        (compileNode (.call name args) pos dst s').Names .call name ∨
          pos = .tail name ∧ (compileNode (.call name args) pos dst s').Names .tailCall name) := by
  have hname := compileFunc_name contracts name params body (compileFuncs contracts pre s).2
  refine ⟨?_, hname, builtinFirst _ _ _ _ _, fun hfree =>
    ⟨fun hlast => ?_, fun s' args pos dst hlocal => ?_⟩⟩
  · exact List.mem_append_left _ (definitionAfter_mem contracts s pre post name params body)
  · apply hlast.usedConsistently
    exact hname.symm ▸ hfree
  · exact compileNode_call_names hlocal hfree.operator args pos dst

/-- `(defn triple (x) (* x 3)) (triple 2)`. -/
def tripled : List IRNode :=
  [.func "triple" ["x"] (.call "*" [.load "x", .int 3]), .call "triple" [.int 2]]

theorem tripled_resolves : UsedConsistently (compileProgram {} tripled).functions
    (compileProgram {} tripled).main atBuiltins (fun _ => false)
    (definitionAfter (fun _ => none) {} [] "triple" ["x"] (.call "*" [.load "x", .int 3])) := by
  have hresolve := (definitions_resolve [] {} (fun _ => none) atBuiltins (fun _ => false) []
    [.call "triple" [.int 2]] "triple" ["x"] (.call "*" [.load "x", .int 3])).2.2.2
  refine (hresolve ⟨rfl, by decide, ?_, rfl, by decide⟩).1 (by rfl)
  simp [Builtins.Dispatches, atBuiltins]

/-- `(defn at () 7) (at)`. -/
def shadowed : List IRNode := [.func "at" [] (.int 7), .call "at" []]

/-- The call of `at` makes a partial application of the builtin. -/
theorem shadowed_not_run : ∃ vm fr rest, (programMachine shadowed atBuiltins 100).Reaches vm ∧
    vm.callStack = fr :: rest ∧ fr.Uses "at" ∧
    ¬ Ends (programMachine shadowed atBuiltins 100).Overflows
      (RunsDefinition (definitionAfter (fun _ => none) {} [] "at" [] (.int 7)))
      ((programMachine shadowed atBuiltins 100).step vm) := by
  refine ⟨mainVm (compileProgram {} shadowed).main (), _, _, ⟨(), _, rfl, .refl⟩, rfl,
    .call rfl rfl rfl, ?_⟩
  have hstep : (programMachine shadowed atBuiltins 100).step
      (mainVm (compileProgram {} shadowed).main ()) =
      .ok (.running ⟨[{ (Machine.newFrame (compileProgram {} shadowed).main "__main__" [] 0) with
        registers := [some (.partialApp (.builtinFn "at") [] 2)], ip := 1 }], 1, ()⟩) := rfl
  rw [hstep]
  intro hruns
  cases hruns with
  | starts _ hname => exact absurd hname (by decide)
  | waits hcount hholds =>
    have hmem := List.mem_of_getElem? hholds
    simp only [List.mem_singleton, Option.some.injEq, Value.partialApp.injEq] at hmem
    obtain ⟨-, rfl, rfl⟩ := hmem
    exact absurd hcount (by decide)

/-- `(defn f () 1) (defn f () 2)`. -/
def repeated : List IRNode := [.func "f" [] (.int 1), .func "f" [] (.int 2)]

/-- The machine keeps the second definition and the marshaller the first. -/
theorem repeated_differs : ∃ first second : BytecodeFunc,
    (programMachine repeated atBuiltins 100).lookup "f" = some second ∧
    LinkedAs (marshalledObjects ((compileProgram {} repeated).functions ++
      [(compileProgram {} repeated).main])) (aotSymbolName "f") first ∧ first ≠ second := by
  refine ⟨(compileFunction "f" [] (.int 1) {}).1, (compileFunction "f" [] (.int 2) {}).1, rfl,
    ⟨_, List.mem_cons_self, mem_funcMap_retainNew.mpr ⟨List.not_mem_nil, rfl⟩, rfl⟩, fun heq => ?_⟩
  have hconstants : ([.int 1] : List VmValue) = [.int 2] := congrArg BytecodeFunc.constants heq
  simp at hconstants

/-- `(defn f () 1) (let (g f) (g))`. -/
def passed : List IRNode := [.func "f" [] (.int 1), .let [⟨"g", .load "f"⟩] (.call "g" [])]

theorem passed_not_callable :
    (programMachine passed atBuiltins 100).Yields () (.error (.error .notCallable)) := by
  have hstart : (programMachine passed atBuiltins 100).startMain () =
      .ok (mainVm (compileProgram {} passed).main ()) := rfl
  rw [Machine.Yields, hstart]
  exact Machine.yields_of_runFor (n := 8) rfl

/-- Names of builtins, names defined twice and names passed as values. -/
theorem definitions_not_consistent :
    (∃ vm fr rest, (programMachine shadowed atBuiltins 100).Reaches vm ∧
      vm.callStack = fr :: rest ∧ fr.Uses "at" ∧
      ¬ Ends (programMachine shadowed atBuiltins 100).Overflows
        (RunsDefinition (definitionAfter (fun _ => none) {} [] "at" [] (.int 7)))
        ((programMachine shadowed atBuiltins 100).step vm)) ∧
    (∃ first second : BytecodeFunc,
      (programMachine repeated atBuiltins 100).lookup "f" = some second ∧
      LinkedAs (marshalledObjects ((compileProgram {} repeated).functions ++
        [(compileProgram {} repeated).main])) (aotSymbolName "f") first ∧ first ≠ second) ∧
    (programMachine passed atBuiltins 100).Yields () (.error (.error .notCallable)) :=
  ⟨shadowed_not_run, repeated_differs, passed_not_callable⟩

end Airl
