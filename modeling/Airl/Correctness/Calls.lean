import Airl.Correctness.Steps

/-! # Calls

A call instruction does what the guarded evaluator says of the call, provided
that the bodies of the functions it enters do.
-/

namespace Airl

open Transition (Host Outcome)

variable {World : Type}

/-- The outcomes of a builtin in the two worlds of values. -/
def BuiltinRel (m : Machine World) (r : Except Fault RefValue × World)
    (r' : Except Fault VmValue × World) : Prop :=
  match r, r' with
  | (.ok v, world), (.ok v', world') => ValueRel m v v'.toRt ∧ world = world'
  | (.error f, _), (.error f', _) => f.SameClass f'
  | _, _ => False

/-- The builtins treat related values alike where they are expected to, and none of them has a
reserved name. -/
structure BuiltinsAgree (ref : Builtins Lambda World) (alike : String → List RefValue → Bool)
    (m : Machine World) : Prop where
  known : ∀ name, ref.known name = m.builtins.known name
  reserved : ∀ name, reserved name = true → m.builtins.known name = false
  dispatch : ∀ name {args args'} world, alike name args = true → ValuesRel m args args' →
    BuiltinRel m (ref.dispatch name args world) (m.builtins.dispatch name args' world)
  threadSpawn : ∀ {args args'} world, alike "thread-spawn" args = true → ValuesRel m args args' →
    BuiltinRel m (ref.threadSpawn args world) (m.builtins.threadSpawn args' world)
  fnMetadata : ∀ {args args'} world, alike "fn-metadata" args = true → ValuesRel m args args' →
    BuiltinRel m (ref.fnMetadata args world) (m.builtins.fnMetadata args' world)

/-- The machine has loaded the compiled form of the program. -/
structure Linked (P : RefProgram World) (m : Machine World) : Prop where
  builtins : BuiltinsAgree P.builtins P.alike m
  user : ∀ {name fd}, reserved name = false → P.functions name = some fd →
    ∃ func, m.lookup name = some func ∧ Compiled m name fd.params fd.contracts fd.body func
  absent : ∀ {name}, reserved name = false → P.functions name = none → m.lookup name = none

/-- What a target runs: its compiled function, after the values it has captured. -/
inductive TargetRel (P : RefProgram World) (m : Machine World) :
    Target → List VmValue → BytecodeFunc → Prop
  | named {name fd func} (hcompiled : Compiled m name fd.params fd.contracts fd.body func)
      (hself : reserved name = false → P.functions name = some fd) :
      TargetRel P m (.named name fd) [] func
  | closure {code captured k caps func vals}
      (hcompiled :
        Compiled m (lambdaName "" k) (code.captureNames ++ code.params) {} code.body func)
      (hvals : code.captureNames.map (fun x => (code.env captured).lookup x) = vals.map some)
      (hcaps : ValuesRel m vals caps) : TargetRel P m (.closure code captured) caps func

/-- The frame is about to run the function on the values in its first registers. -/
structure Entry (func : BytecodeFunc) (vals : List VmValue) (fr : Frame) : Prop where
  code : fr.func = func
  ip : fr.ip = 0
  bank : fr.registers.length = func.registerCount
  holds : fr.HoldsFrom 0 vals

/-- The innermost frame is about to return a related value. -/
def AtReturn (m : Machine World) (rest : List Frame) (depth returnReg : Nat) (v : RefValue)
    (world : World) (vm : Vm World) : Prop :=
  ∃ fr dst a b v', vm = ⟨fr :: rest, depth, world⟩ ∧ fr.returnReg = returnReg ∧
    fr.func.instructions[fr.ip]? = some ⟨.ret, dst, a, b⟩ ∧ fr.Holds a v' ∧ ValueRel m v v'

/-- The frame has gone `count` instructions on and holds a related value in `dst`. -/
def Done (m : Machine World) (dst count : Nat) (fr : Frame) (rest : List Frame) (depth : Nat)
    (v : RefValue) (world : World) (vm : Vm World) : Prop :=
  ∃ fr' v', vm = ⟨fr' :: rest, depth, world⟩ ∧ fr.Keeps dst fr' ∧ fr'.ip = fr.ip + count ∧
    fr'.Holds dst v' ∧ ValueRel m v v'

/-- The outcome of the inline evaluator. -/
def InlineRel (m : Machine World) (k : Nat) (r : Res World RefValue)
    (r' : Except Fault VmValue × World) : Prop :=
  match r with
  | .ok v world => ∃ v', r' = (.ok v', world) ∧ ValueRel m v v'
  | .err f => ∃ f', r'.1 = .error f' ∧ f.SameClass f'
  | .timeout => k = 0
  | .departs => True

/-- What the simulation assumes of the bodies that calls enter. -/
structure Enters (P : RefProgram World) (m : Machine World) (inline : Bool) (k : Nat)
    (enter : Bool → Target → List RefValue → World → Res World RefValue) : Prop where
  call : ∀ {target caps func args args' world fr rest depth vm}, TargetRel P m target caps func →
    ValuesRel m args args' → args.length = target.params.length → Entry func (caps ++ args') fr →
    (m.host inline).step vm ⟨fr :: rest, depth, world⟩ → ∀ flag,
    (m.host inline).Simulates k vm (enter flag target args world)
      (AtReturn m rest depth fr.returnReg)
  inlined : ∀ {code captured caps func args args'} world,
    TargetRel P m (.closure code captured) caps func → ValuesRel m args args' →
    args.length = code.params.length → isSimpleClosure func = true →
    code.inlined = true ∧ InlineRel m k (enter true (.closure code captured) args world)
      (evalSimple m.builtins func (caps ++ args') world)

/-- The names of lambdas are reserved. -/
theorem reserved_lambdaName (k : Nat) : reserved (lambdaName "" k) = true := by
  simp [reserved, lambdaName, toString]

theorem head_of_reserved {name : String} (h : reserved name = true) :
    name.toList.head? = some '_' := by
  simp only [reserved, Bool.or_eq_true, beq_iff_eq, List.isPrefixOf_iff_prefix] at h
  rcases h with rfl | ⟨rest, hrest⟩
  · rfl
  · rw [← hrest]
    rfl

theorem builtinArity_reserved {name : String} (h : reserved name = true) :
    builtinArity name = none := by
  have hhead := head_of_reserved h
  have hnotMem : ∀ names : List String,
      (names.all fun x => x.toList.head? != some '_') = true → name ∉ names := by
    intro names hnames hmem
    have hname := List.all_eq_true.mp hnames name hmem
    simp [hhead] at hname
  have hne : ∀ x : String, (x.toList.head? != some '_') = true → name ≠ x := by
    rintro x hx rfl
    simp [hhead] at hx
  unfold builtinArity
  repeat (first | rw [if_neg (hnotMem _ (by decide))] | rw [if_neg (hne _ (by decide))])

/-- A reserved name is no name that is not. -/
theorem ne_of_reserved {name other : String} (h : reserved name = true)
    (hother : reserved other = false) : name ≠ other := by
  rintro rfl
  simp [h] at hother

section Results

variable {m : Machine World} {inline : Bool} {k : Nat} {fr : Frame} {rest : List Frame}
  {depth dst : Nat} {world : World} {v : RefValue} {v' : VmValue}

/-- A value that is put into the destination is done. -/
theorem done_put (hdst : dst < fr.registers.length) (hv : ValueRel m v v') :
    Done m dst 1 fr rest depth v world ⟨fr.put dst v' :: rest, depth, world⟩ :=
  ⟨_, _, rfl, .put fr dst v', rfl, Frame.put_holds_same v' hdst, hv⟩

variable {op : Op} {a b : Nat}

/-- An instruction that puts a related value. -/
theorem put_sim (hinstr : fr.func.instructions[fr.ip]? = some ⟨op, dst, a, b⟩)
    (hop : sameInline op = true) (hdst : dst < fr.registers.length)
    (hstep : m.step ⟨fr :: rest, depth, world⟩ =
      .ok (.running ⟨fr.put dst v' :: rest, depth, world⟩)) (hv : ValueRel m v v') :
    (m.host inline).Simulates k ⟨fr :: rest, depth, world⟩ (.ok v world)
      (Done m dst 1 fr rest depth) :=
  (Host.simulates_ok (done_put hdst hv)).of_step (Machine.host_step hinstr hop hstep)

/-- An instruction that fails alike. -/
theorem fault_sim {f f' : Fault} (hinstr : fr.func.instructions[fr.ip]? = some ⟨op, dst, a, b⟩)
    (hop : sameInline op = true) (hstep : m.step ⟨fr :: rest, depth, world⟩ = .error f')
    (hf : f.SameClass f') {α : Type} {post : α → World → Vm World → Prop} :
    (m.host inline).Simulates k ⟨fr :: rest, depth, world⟩ (.err f) post :=
  Host.simulates_err (Machine.host_halt hinstr hop hstep) ⟨f', rfl, hf⟩

/-- An instruction that stores what a builtin answers. -/
theorem answer_sim {r : Except Fault RefValue × World} {r' : Except Fault VmValue × World}
    (hinstr : fr.func.instructions[fr.ip]? = some ⟨op, dst, a, b⟩)
    (hop : sameInline op = true) (hdst : dst < fr.registers.length)
    (hstep : m.step ⟨fr :: rest, depth, world⟩ = Machine.answer r' dst (fr.advance 1) rest depth)
    (hr : BuiltinRel m r r') :
    (m.host inline).Simulates k ⟨fr :: rest, depth, world⟩ (.ofPair r)
      (Done m dst 1 fr rest depth) := by
  obtain ⟨r | v, w⟩ := r <;> obtain ⟨r' | v', w'⟩ := r'
  · exact fault_sim hinstr hop hstep hr
  · exact hr.elim
  · exact hr.elim
  · obtain ⟨hv, rfl⟩ := hr
    rw [Machine.answer_ok _ _ hdst] at hstep
    exact (Host.simulates_ok (done_put hdst hv)).of_step (Machine.host_step hinstr hop hstep)

end Results

theorem Compiled.arity_le_registerCount {m : Machine World} {name : String} {params : List String}
    {contracts : Contracts} {body : IRNode} {func : BytecodeFunc}
    (h : Compiled m name params contracts body func) : params.length ≤ func.registerCount := by
  obtain ⟨base, idx, hbase, hlocals, hnext, hmax, -, hname, -, -, hcount, -⟩ := h.code
  have hinner := bindParams_ready params hbase hnext hmax
  obtain ⟨regs, gone, hspec⟩ := compileActivation_spec name idx contracts body hinner.toTidy
    (fun hne => by
      rw [(bindParams_fields params 0 base).2.2.2.1]
      exact (List.getElem?_eq_some_iff.mp (hname hne)).1)
  have hgrow := hspec.ext.maxReg
  rw [bindParams_maxReg params hmax] at hgrow
  omega

theorem TargetRel.arity_le {P : RefProgram World} {m : Machine World} {target : Target}
    {caps : List VmValue} {func : BytecodeFunc} (h : TargetRel P m target caps func) :
    caps.length + target.params.length ≤ func.registerCount := by
  cases h with
  | named hcompiled _ =>
    simpa [Target.params] using hcompiled.arity_le_registerCount
  | closure hcompiled hvals hcaps =>
    have hle := hcompiled.arity_le_registerCount
    have hlength := congrArg List.length hvals
    simp only [List.length_map, List.length_append] at hlength hle
    rw [← hcaps.length_eq, ← hlength]
    exact hle

/-- A new frame begins with its arguments. -/
theorem newFrame_entry {func : BytecodeFunc} (name : String) {vals : List VmValue} (dst : Nat)
    (hle : vals.length ≤ func.registerCount) :
    Entry func vals (Machine.newFrame func name vals dst) where
  code := rfl
  ip := rfl
  bank := by simp [Machine.newFrame, fillRegisters_length]
  holds := by
    intro i v hv
    refine Machine.fillRegisters_getElem? (by simpa using hle) ?_
    simpa using hv

section Calls

variable {P : RefProgram World} {m : Machine World} {inline : Bool} {k : Nat}
  {enter : Bool → Target → List RefValue → World → Res World RefValue}
  {fr : Frame} {rest : List Frame} {depth dst : Nat} {world : World}

/-- A call that pushes a frame: the frame runs the body and returns into `dst`. -/
theorem enter_sim (hE : Enters P m inline k enter) {op : Op} {a b : Nat}
    (hinstr : fr.func.instructions[fr.ip]? = some ⟨op, dst, a, b⟩)
    (hop : sameInline op = true) (hdst : dst < fr.registers.length) {name : String}
    {func : BytecodeFunc} (hlookup : m.lookup name = some func) {target : Target}
    {caps : List VmValue} (htarget : TargetRel P m target caps func) {args : List RefValue}
    {args' : List VmValue} (hargs : ValuesRel m args args')
    (hcount : args.length = target.params.length) (flag : Bool)
    (hstep : m.step ⟨fr :: rest, depth, world⟩ =
      m.enter name ((caps ++ args').map some) dst (fr.advance 1) rest depth world) :
    (m.host inline).Simulates k ⟨fr :: rest, depth, world⟩ (enter flag target args world)
      (Done m dst 1 fr rest depth) := by
  have hentry : Entry func (caps ++ args') (Machine.newFrame func name (caps ++ args') dst) :=
    newFrame_entry name dst (by
      have hle := htarget.arity_le
      rw [List.length_append, ← hargs.length_eq, hcount]
      exact hle)
  rcases Machine.enter_eq (fr.advance 1) rest depth world hlookup (caps ++ args')
    dst with hpush | hoverflow
  · have hsim := hE.call htarget hargs hcount hentry
      (Machine.host_step hinstr hop (hstep.trans hpush)) flag
    refine hsim.and_then fun v world vm hret => ?_
    obtain ⟨fr', d, a', b', v', rfl, hreturn, hinstr', hv', hrel⟩ := hret
    obtain rfl : fr'.returnReg = dst := hreturn
    refine ⟨_, .single (Machine.host_step hinstr' rfl (Machine.step_ret_caller hinstr' hv' hdst)),
      ?_⟩
    exact done_put hdst hrel
  · refine Host.simulates_of_givesUp ⟨_, ⟨_, .refl, Machine.host_halt hinstr hop
      (hstep.trans hoverflow)⟩, rfl⟩

/-- A builtin called by name does the same on both sides, and both sides agree on
which names are builtins. -/
theorem dispatch_rel (hL : Linked P m) (name : String) {args : List RefValue}
    {args' : List VmValue} (halike : P.isBuiltin name = true → P.alike name args = true)
    (hargs : ValuesRel m args args') (world : World) :
    (∃ r r', P.dispatch name args world = .ofPair r ∧
        m.dispatchNamed name args' world = some r' ∧ BuiltinRel m r r' ∧ P.isBuiltin name = true) ∨
      (P.dispatch name args world = .err (.error (.undefinedSymbol name)) ∧
        m.dispatchNamed name args' world = none ∧ P.isBuiltin name = false) := by
  unfold RefProgram.dispatch Machine.dispatchNamed
  unfold RefProgram.isBuiltin at halike ⊢
  by_cases hthread : name = "thread-spawn"
  · subst hthread
    simp only [if_true]
    have hspawn := hL.builtins.threadSpawn world (halike (by simp)) hargs
    exact Or.inl ⟨_, _, rfl, rfl, hspawn, by simp⟩
  by_cases hmeta : name = "fn-metadata"
  · subst hmeta
    rw [if_neg hthread, if_neg hthread, if_pos rfl, if_pos rfl]
    have hmetadata := hL.builtins.fnMetadata world (halike (by simp)) hargs
    exact Or.inl ⟨_, _, rfl, rfl, hmetadata, by simp⟩
  rw [if_neg hthread, if_neg hthread, if_neg hmeta, if_neg hmeta, hL.builtins.known]
  cases hknown : m.builtins.known name with
  | true =>
    have hsame := hL.builtins.dispatch name world
      (halike (by rw [hL.builtins.known, hknown]; rfl)) hargs
    exact Or.inl ⟨_, _, if_pos rfl, if_pos rfl, hsame, by simp⟩
  | false =>
    exact Or.inr ⟨if_neg (by simp), if_neg (by simp), by simp [hthread, hmeta]⟩

theorem dispatchNamed_eq_none_of_not (hL : Linked P m) {name : String}
    (h : P.isBuiltin name = false) (args' : List VmValue) (world : World) :
    m.dispatchNamed name args' world = none := by
  simp only [RefProgram.isBuiltin, Bool.or_eq_false_iff, beq_eq_false_iff_ne,
    hL.builtins.known] at h
  obtain ⟨⟨hknown, hthread⟩, hmeta⟩ := h
  rw [Machine.dispatchNamed, if_neg hthread, if_neg hmeta, if_neg (by simp [hknown])]

/-- Where the guard lets a call pass, the builtin called treats the arguments alike. -/
theorem alike_of_not_discloses {name : String} {args : List RefValue}
    (h : ¬ P.discloses name args = true) (hpart : builtinPartial name args = none)
    (hbuiltin : P.isBuiltin name = true) : P.alike name args = true := by
  simpa [RefProgram.discloses, hpart, hbuiltin] using h

/-- Partial application respects related arguments. -/
theorem builtinPartial_rel (name : String) {args : List RefValue} {args' : List VmValue}
    (hargs : ValuesRel m args args') :
    (∃ p p', builtinPartial name args = some p ∧ builtinPartial name args' = some p' ∧
        ValueRel m p p') ∨
      (builtinPartial name args = none ∧ builtinPartial name args' = none) := by
  unfold builtinPartial
  rw [← hargs.length_eq]
  cases builtinArity name with
  | none => exact Or.inr ⟨rfl, rfl⟩
  | some expected =>
    by_cases hlt : args.length < expected
    · exact Or.inl ⟨_, _, if_pos hlt, if_pos hlt, .partialBuiltin name _ hargs⟩
    · exact Or.inr ⟨if_neg hlt, if_neg hlt⟩

/-- An instruction that stores a value. -/
theorem store_sim {op : Op} {a b : Nat} {v : RefValue} {v' : VmValue}
    (hinstr : fr.func.instructions[fr.ip]? = some ⟨op, dst, a, b⟩)
    (hop : sameInline op = true) (hdst : dst < fr.registers.length)
    (hstep : m.step ⟨fr :: rest, depth, world⟩ =
      Machine.store v' dst (fr.advance 1) rest depth world) (hv : ValueRel m v v'.toRt) :
    (m.host inline).Simulates k ⟨fr :: rest, depth, world⟩ (.ok v world)
      (Done m dst 1 fr rest depth) :=
  put_sim hinstr hop hdst (hstep.trans (Machine.store_eq hdst v')) hv

/-- A call of a builtin's name. -/
theorem builtinName_sim (hL : Linked P m) {op : Op} {a b : Nat}
    (hinstr : fr.func.instructions[fr.ip]? = some ⟨op, dst, a, b⟩)
    (hop : sameInline op = true) (hdst : dst < fr.registers.length) {name : String}
    (hname : reserved name = false) (hfunc : P.functions name = none)
    {enter : Target → List RefValue → World → Res World RefValue} {args : List RefValue}
    {args' : List VmValue} (hsecret : ¬ P.discloses name args = true)
    (hargs : ValuesRel m args args')
    (hstep : m.step ⟨fr :: rest, depth, world⟩ =
      match builtinPartial name args' with
      | some p => Machine.store p dst (fr.advance 1) rest depth world
      | none =>
        match m.dispatchNamed name args' world with
        | some r => Machine.answer r dst (fr.advance 1) rest depth
        | none => m.enter name (args'.map some) dst (fr.advance 1) rest depth world) :
    (m.host inline).Simulates k ⟨fr :: rest, depth, world⟩ (P.applyNamed enter name args world)
      (Done m dst 1 fr rest depth) := by
  simp only [RefProgram.applyNamed, hfunc]
  rcases builtinPartial_rel name hargs with ⟨p, p', hp, hp', hrel⟩ | ⟨hp, hp'⟩
  · simp only [hp, hp'] at hstep ⊢
    exact store_sim hinstr hop hdst hstep (hrel.toRt_eq.symm ▸ hrel)
  · simp only [hp, hp'] at hstep ⊢
    rcases dispatch_rel hL name (alike_of_not_discloses hsecret hp) hargs world with
      ⟨r, r', hr, hr', hrel, -⟩ | ⟨hr, hr', -⟩
    · rw [hr'] at hstep
      rw [hr]
      exact answer_sim hinstr hop hdst hstep hrel
    · rw [hr', Machine.enter_undefined (hL.absent hname hfunc)] at hstep
      rw [hr]
      exact fault_sim hinstr hop hstep (.refl _)

/-- A call of a named function enters it or departs. -/
theorem guardedNamed_sim (hE : Enters P m inline k enter) (hL : Linked P m) {a : Nat}
    {name : String} {args : List RefValue} {args' : List VmValue}
    (hinstr : fr.func.instructions[fr.ip]? = some ⟨.call, dst, a, args'.length⟩)
    (hdst : dst < fr.registers.length) (hconst : fr.func.constants[a]? = some (.str name))
    (hargs : ValuesRel m args args') (hslots : fr.HoldsFrom (dst + 1) args') :
    (m.host inline).Simulates k ⟨fr :: rest, depth, world⟩ (P.guardedNamed enter name args world)
      (Done m dst 1 fr rest depth) := by
  have hstep := Machine.step_call rest depth world (m := m) hinstr
    hconst hslots
  simp only [Machine.callNamed, Machine.map_orNil_some, Machine.derefAll_some] at hstep
  unfold RefProgram.guardedNamed
  split
  · trivial
  next hname =>
  have hname : reserved name = false := by simpa using hname
  -- A name that no function has is a builtin's, applied in part or dispatched.
  cases hfunc : P.functions name with
  | none =>
    have hpart : m.userPartial name args' = none := by
      simp [Machine.userPartial, hL.absent hname hfunc]
    simp only
    split
    · trivial
    next hsecret =>
    refine builtinName_sim hL hinstr rfl hdst hname hfunc hsecret hargs (hstep.trans ?_)
    rcases builtinPartial_rel name hargs with ⟨p, p', -, hp', -⟩ | ⟨hp, hp'⟩
    · rw [hp']
    · simp only [hp', hpart]
      rcases dispatch_rel hL name (alike_of_not_discloses hsecret hp) hargs world with
        ⟨r, r', -, hr', -, hbuiltin⟩ | ⟨-, hr', hbuiltin⟩
      · rw [if_pos]
        · simp only [hr', bind, Except.bind]
        · simp only [RefProgram.isBuiltin, Bool.or_eq_true, beq_iff_eq,
            hL.builtins.known] at hbuiltin
          tauto
      · rw [if_neg]
        · simp only [hr']
        · simp only [RefProgram.isBuiltin, Bool.or_eq_false_iff, beq_eq_false_iff_ne,
            hL.builtins.known] at hbuiltin
          simp only [not_or]
          simp [hbuiltin]
  | some fd =>
    obtain ⟨func, hlookup, hcompiled⟩ := hL.user hname hfunc
    have huser : m.userPartial name args' = if args'.length < fd.params.length then
        some (.partialApp (.irFuncRef name) args' (fd.params.length - args'.length)) else none := by
      simp [Machine.userPartial, hlookup, hcompiled.arity]
    simp only
    split
    · trivial
    next hnoPartial =>
    have hnone : builtinPartial name args' = none := by
      rcases builtinPartial_rel name hargs with ⟨p, p', hp, -⟩ | ⟨-, hp'⟩
      · simp [hp] at hnoPartial
      · exact hp'
    simp only [hnone] at hstep
    rw [hargs.length_eq]
    split
    · next hlt =>
        rw [if_pos hlt] at huser
        simp only [huser] at hstep
        refine store_sim hinstr rfl hdst hstep ?_
        simp only [Value.toRt, Value.partialName, hargs.toRtList_eq]
        exact .partialNamed name _ hargs
    next hnotLt =>
    split
    · trivial
    next hguard =>
    obtain ⟨hnotGt, hbuiltin⟩ := not_or.mp hguard
    rw [if_neg hnotLt] at huser
    simp only [huser] at hstep
    rw [if_neg] at hstep
    · exact enter_sim hE hinstr rfl hdst hlookup (.named hcompiled fun _ => hfunc) hargs
        (by simp only [Target.params]; rw [hargs.length_eq]; omega) false hstep
    · simp only [RefProgram.isBuiltin, Bool.or_eq_true, beq_iff_eq, hL.builtins.known] at hbuiltin
      tauto

/-- A partial application collects its arguments. -/
theorem guardedPartial_sim (hE : Enters P m inline k enter) (hL : Linked P m) {a n : Nat}
    {name : String} {args : List RefValue} {args' : List VmValue}
    (hinstr : fr.func.instructions[fr.ip]? = some ⟨.callReg, dst, a, n⟩)
    (hdst : dst < fr.registers.length) (hargs : ValuesRel m args args')
    (hstep : m.step ⟨fr :: rest, depth, world⟩ =
      m.callValue (.builtinFn name) args' dst (fr.advance 1) rest depth world) :
    (m.host inline).Simulates k ⟨fr :: rest, depth, world⟩ (P.guardedPartial enter name args world)
      (Done m dst 1 fr rest depth) := by
  simp only [Machine.callValue, Machine.resolveCallee, hargs.map_toRt,
    hargs.map_some_toRt] at hstep
  unfold RefProgram.guardedPartial
  split
  · trivial
  next hname =>
  have hname : reserved name = false := by simpa using hname
  cases hfunc : P.functions name with
  | none =>
    simp only
    split
    · trivial
    next hsecret => exact builtinName_sim hL hinstr rfl hdst hname hfunc hsecret hargs hstep
  | some fd =>
    obtain ⟨func, hlookup, hcompiled⟩ := hL.user hname hfunc
    simp only
    split
    · trivial
    next hguard =>
    obtain ⟨hnoPartial, hguard⟩ := not_or.mp hguard
    obtain ⟨hbuiltin, hcount⟩ := not_or.mp hguard
    have hnone : builtinPartial name args' = none := by
      rcases builtinPartial_rel name hargs with ⟨p, p', hp, -⟩ | ⟨-, hp'⟩
      · simp [hp] at hnoPartial
      · exact hp'
    have hdispatch : m.dispatchNamed name args' world = none :=
      dispatchNamed_eq_none_of_not hL (Bool.not_eq_true _ ▸ hbuiltin) args' world
    simp only [hnone, hdispatch] at hstep
    exact enter_sim hE hinstr rfl hdst hlookup (.named hcompiled fun _ => hfunc) hargs
      (not_not.mp hcount) false hstep

/-- A closure is related to the function it was compiled to. -/
theorem ValueRel.closure_target {code : Lambda} {captured : List RefValue} {name : String}
    {caps : List VmValue}
    (h : ValueRel m (.bytecodeClosure code captured) (.bytecodeClosure name caps))
    (P : RefProgram World) :
    ∃ func, m.lookup name = some func ∧ reserved name = true ∧
      func.arity = caps.length + code.params.length ∧ caps.map Value.toRt = caps ∧
      TargetRel P m (.closure code captured) caps func := by
  cases h with
  | closure hlookup hcompiled hcaptures hvals hcaps =>
    refine ⟨_, hlookup, reserved_lambdaName _, ?_, hcaps.map_toRt, .closure hcompiled hvals hcaps⟩
    have hlength := congrArg List.length hvals
    simp only [List.length_map] at hlength
    rw [hcompiled.arity, List.length_append, hlength, hcaps.length_eq]

/-- A closure that is run inline answers at once. -/
theorem inlined_sim {op : Op} {a b : Nat} {r : Res World RefValue}
    {r' : Except Fault VmValue × World}
    (hinstr : fr.func.instructions[fr.ip]? = some ⟨op, dst, a, b⟩)
    (hop : sameInline op = true) (hdst : dst < fr.registers.length)
    (hstep : m.step ⟨fr :: rest, depth, world⟩ = Machine.answer r' dst (fr.advance 1) rest depth)
    (hr : InlineRel m k r r') :
    (m.host inline).Simulates k ⟨fr :: rest, depth, world⟩ r (Done m dst 1 fr rest depth) := by
  cases r with
  | ok v w =>
    obtain ⟨v', rfl, hv⟩ := hr
    rw [Machine.answer_ok _ _ hdst, hv.toRt_eq] at hstep
    exact (Host.simulates_ok (done_put hdst hv)).of_step (Machine.host_step hinstr hop hstep)
  | err f =>
    obtain ⟨f', hf', hclass⟩ := hr
    obtain ⟨r', w⟩ := r'
    obtain rfl : r' = .error f' := hf'
    exact fault_sim hinstr hop hstep hclass
  | timeout =>
    obtain rfl : k = 0 := hr
    exact Or.inl trivial
  | departs => trivial

/-- A call of a value, one case for each kind of callable. -/
theorem guardedValue_sim (hE : Enters P m inline k enter) (hL : Linked P m) {a : Nat}
    {f : RefValue} {f' : VmValue} {args : List RefValue} {args' : List VmValue}
    (hinstr : fr.func.instructions[fr.ip]? = some ⟨.callReg, dst, a, args'.length⟩)
    (hdst : dst < fr.registers.length) (hcallee : fr.Holds a f') (hf : ValueRel m f f')
    (hargs : ValuesRel m args args') (hslots : fr.HoldsFrom (dst + 1) args') :
    (m.host inline).Simulates k ⟨fr :: rest, depth, world⟩ (P.guardedValue enter f args world)
      (Done m dst 1 fr rest depth) := by
  have hstep := Machine.step_callReg rest depth world (m := m)
    hinstr hcallee hslots
  cases hf with
  | @closure code captured _ caps func vals hlookup hcompiled hcaptures hvals hcaps =>
    obtain ⟨_, hlookup', -, harity, hstored, htarget⟩ := (ValueRel.closure hlookup hcompiled
      hcaptures hvals hcaps : ValueRel m (.bytecodeClosure code captured) _).closure_target P
    obtain rfl := Option.some.inj (hlookup.symm.trans hlookup')
    simp only [Machine.callValue, Machine.resolveCallee, hlookup, harity, List.length_append,
      Nat.add_lt_add_iff_left, ← hargs.length_eq] at hstep
    simp only [RefProgram.guardedValue]
    split
    -- With too few arguments the closure is applied in part.
    · next hlt =>
        rw [if_pos hlt] at hstep
        refine store_sim hinstr rfl hdst hstep ?_
        simp only [Value.toRt, Value.partialName, Value.toRtList_eq_map, List.map_append, hstored,
          hargs.map_toRt, Nat.add_sub_add_left]
        exact .partialClosure _ (.closure hlookup hcompiled hcaptures hvals hcaps) hargs
    next hnotLt =>
    rw [if_neg hnotLt] at hstep
    split
    -- With too many the call fails on both sides.
    · next hgt =>
        rw [if_pos hgt] at hstep
        refine fault_sim hinstr rfl hstep ?_
        simp [Fault.SameClass, Machine.tooManyArguments]
    next hnotGt =>
    rw [if_neg hnotGt] at hstep
    have hcount : args.length = code.params.length := by omega
    split at hstep
    · next hsimple =>
        obtain ⟨hinlined, hrel⟩ := hE.inlined world htarget hargs hcount hsimple
        rw [hinlined]
        exact inlined_sim hinstr rfl hdst hstep hrel
    · simp only [List.map_append] at hstep
      refine enter_sim hE hinstr rfl hdst hlookup htarget hargs hcount _ (hstep.trans ?_)
      rw [hcaps.map_some_toRt, hargs.map_some_toRt, List.map_append]
  | partialNamed name remaining h =>
    exact guardedPartial_sim hE hL hinstr hdst (h.append hargs) hstep
  | partialBuiltin name remaining h =>
    exact guardedPartial_sim hE hL hinstr hdst (h.append hargs) hstep
  | @partialClosure code captured name caps args₀ args₀' remaining hclosure h =>
    obtain ⟨func, hlookup, hname, -, hstored, htarget⟩ := hclosure.closure_target P
    have hall := h.append hargs
    have hdispatch : ∀ vals, m.dispatchNamed name vals world = none := by
      intro vals
      simp [Machine.dispatchNamed,
        ne_of_reserved hname (show reserved "thread-spawn" = false by decide),
        ne_of_reserved hname (show reserved "fn-metadata" = false by decide),
        hL.builtins.reserved name hname]
    have hpart : ∀ vals : List VmValue, builtinPartial name vals = none := by
      intro vals
      simp [builtinPartial, builtinArity_reserved hname]
    simp only [Machine.callValue, Machine.resolveCallee, hpart, hdispatch, List.append_assoc,
      List.map_append] at hstep
    simp only [RefProgram.guardedValue]
    split
    · next hcount =>
        refine enter_sim hE hinstr rfl hdst hlookup htarget hall hcount _ (hstep.trans ?_)
        have hcapsSome : caps.map (fun v => some v.toRt) = caps.map some := by
          conv_rhs => rw [← hstored]
          rw [List.map_map]
          rfl
        rw [hcapsSome, ← List.map_append, hall.map_some_toRt, ← List.map_append]
    · trivial
  | _ => exact fault_sim hinstr rfl hstep (.refl _)

end Calls

end Airl
