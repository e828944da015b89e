import Airl.Correctness.Nodes

/-! # The simulation of expressions

One induction over the syntax, a case for each constructor: the code of a node
does what the guarded evaluator says, from any frame that agrees with the
environment, in both positions.
-/

namespace Airl

open Transition (Host Outcome)

variable {World : Type} {P : RefProgram World} {m : Machine World} {inline : Bool} {k : Nat}
  {enter : Bool → Target → List RefValue → World → Res World RefValue}
  {c : Site} {pos : Position} {dst : Nat} {s : Compiler} {env : Env}
  {fr : Frame} {rest : List Frame} {depth : Nat} {world : World}

/-- The destination is a register of the frame. -/
theorem At.bank {e : Compiler} (h : At P m inline c pos dst s env fr) (hhost : Hosted m fr e)
    (hext : Extends s e) : dst < fr.registers.length := by
  have hle := h.ready.nextReg_le.trans (hext.maxReg.trans hhost.registers)
  exact lt_of_lt_of_le h.dst_lt hle

/-! ## Leaves -/

/-- A name is read from its register, or it is a global. -/
theorem load_sim {name : String} (h : At P m inline c pos dst s env fr)
    (hcode : CodeAt fr.func.instructions fr.ip (compileNode (.load name) pos dst s).code)
    (hhost : Hosted m fr (compileNode (.load name) pos dst s).state) :
    (m.host inline).Simulates k ⟨fr :: rest, depth, world⟩
      (P.guardedEval enter c (.load name) env world)
      (Post P m c dst (compileNode (.load name) pos dst s).code.length fr rest depth) := by
  have hbank := h.bank hhost (compileNode_spec (.load name) pos h.ready.toTidy h.dst_lt).ext
  simp only [RefProgram.guardedEval]
  cases hlocal : s.locals name with
  | none =>
    have hscope : c.scope name = false := by rw [h.agree.scope, hlocal]; rfl
    cases env.lookup name with
    | none => trivial
    | some v =>
      rw [hscope]
      trivial
  | some slot =>
    obtain ⟨v, v', hlookup, hholds, hrel⟩ := h.agree.holds hlocal
    have hscope : c.scope name = true := by rw [h.agree.scope, hlocal]; rfl
    simp only [compileNode, hlocal, h.ready.noMoved, List.not_mem_nil, if_false] at hcode ⊢
    rw [hlookup]
    simp only [hscope, if_true]
    rw [if_pos fun heq : slot = dst => h.apart name (heq ▸ hlocal)] at hcode ⊢
    exact simulates_done
      (put_sim hcode.head rfl hbank (Machine.step_move _ _ _ hcode.head hbank hholds)
      hrel)

/-! ## Lambdas -/

variable (inline rest depth world) in
/-- The captures are moved into their window. -/
theorem moveCaptures_runs {captures : List (String × Nat)} {r : Nat} {vals : List VmValue}
    (hslots : ∀ cap ∈ captures, cap.2 < r) (hbank : r + captures.length ≤ fr.registers.length)
    (hholds : fr.HoldsAll (captures.map Prod.snd) vals)
    (hcode : CodeAt fr.func.instructions fr.ip (moveCaptures captures r)) :
    ∃ fr', Runs m inline rest depth world fr fr' ∧ fr.Keeps r fr' ∧
      fr'.ip = fr.ip + (moveCaptures captures r).length ∧ fr'.HoldsFrom r vals := by
  induction captures generalizing r vals fr with
  | nil =>
    cases hholds
    exact ⟨fr, .refl fr, .refl r fr, rfl, by simp [Frame.HoldsFrom]⟩
  | cons cap captures ih =>
    cases hholds with
    | @cons _ v _ vals hv hvals =>
    simp only [List.length_cons] at hbank
    have hlt : r < fr.registers.length := by omega
    have hkeep : fr.Keeps r (fr.put r v) := .put fr r v
    have hslot := hslots cap List.mem_cons_self
    obtain ⟨fr', hrun', hkeep', hip', hslots'⟩ := ih
      (fun cap' hcap' => (hslots cap' (List.mem_cons_of_mem _ hcap')).trans (Nat.lt_add_one r))
      (show r + 1 + captures.length ≤ (fr.put r v).registers.length by rw [hkeep.length]; omega)
      (Frame.HoldsAll.imp hvals fun r' hr' v' hv' => by
        obtain ⟨cap', hcap', rfl⟩ := List.mem_map.mp hr'
        exact hkeep.holds (hslots cap' (List.mem_cons_of_mem _ hcap')) hv')
      hcode.tail
    refine ⟨fr', .head hcode.head rfl (Machine.step_move _ _ _ hcode.head hlt hv) hrun',
      hkeep.trans (hkeep'.mono (Nat.le_succ r)), ?_, ?_⟩
    · rw [hip', Frame.put_ip, moveCaptures, List.length_cons]
      omega
    · intro i w hw
      cases i with
      | zero =>
        obtain rfl := Option.some.inj hw
        exact hkeep'.holds (Nat.lt_succ_self r) (Frame.put_holds_same v hlt)
      | succ i =>
        have hnext := hslots' (i := i) hw
        rwa [show r + 1 + i = r + (i + 1) by omega] at hnext

theorem mem_names_iff_lookup {env : Env} {x : String} :
    x ∈ env.map Prod.fst ↔ (env.lookup x).isSome = true := by
  induction env with
  | nil => simp
  | cons entry env ih =>
    obtain ⟨name, v⟩ := entry
    by_cases hx : x = name
    · simp [hx]
    · have hne : (x == name) = false := beq_false_of_ne hx
      simp only [List.map_cons, List.mem_cons, List.lookup_cons, hne, hx, false_or, ih]

theorem zip_names_values (env : Env) : (env.map Prod.fst).zip (env.map Prod.snd) = env := by
  induction env with
  | nil => rfl
  | cons entry env ih => simp [ih]

/-- The captured names are the free ones, and their registers hold them. -/
theorem capturedNames_spec {params : List String} {body : IRNode}
    (hagree : Agree m c.scope s env fr)
    (hscope : (freeVars body params []).any
      (fun x => (env.lookup x).isSome && !c.scope x) = false) :
    (capturedNames s params body).map Prod.fst =
        Lambda.captureNames ⟨params, body, env.map Prod.fst⟩ ∧
      ∃ vals vals', (Lambda.captureNames ⟨params, body, env.map Prod.fst⟩).map
          (fun x => env.lookup x) = vals.map some ∧ ValuesRel m vals vals' ∧
        fr.HoldsAll ((capturedNames s params body).map Prod.snd) vals' := by
  unfold capturedNames Lambda.captureNames
  simp only
  generalize freeVars body params [] = free at hscope ⊢
  induction free with
  | nil => exact ⟨rfl, [], [], rfl, .nil, .nil⟩
  | cons x free ih =>
    simp only [List.any_cons, Bool.or_eq_false_iff, Bool.and_eq_false_iff] at hscope
    obtain ⟨hnames, vals, vals', hvals, hrel, hholds⟩ := ih hscope.2
    cases hlocal : s.locals x with
    | none =>
      have hnone : c.scope x = false := by rw [hagree.scope, hlocal]; rfl
      have hnotMem : x ∉ env.map Prod.fst := by
        rw [mem_names_iff_lookup]
        rcases hscope.1 with h | h
        · simp [h]
        · simp [hnone] at h
      refine ⟨?_, vals, vals', ?_, hrel, ?_⟩
      · simpa [List.filterMap_cons, hlocal, List.filter_cons, hnotMem] using hnames
      · simpa [List.filter_cons, hnotMem] using hvals
      · simpa [List.filterMap_cons, hlocal] using hholds
    | some r =>
      obtain ⟨v, v', hlookup, hr, hv⟩ := hagree.holds hlocal
      have hmem : x ∈ env.map Prod.fst := mem_names_iff_lookup.mpr (by simp [hlookup])
      refine ⟨?_, v :: vals, v' :: vals', ?_, .cons hv hrel, ?_⟩
      · rw [List.filterMap_cons, hlocal, List.filter_cons, if_pos (by simpa using hmem)]
        exact congrArg (x :: ·) hnames
      · rw [List.filter_cons, if_pos (by simpa using hmem), List.map_cons, hlookup, hvals,
          List.map_cons]
      · simp only [List.filterMap_cons, hlocal, Option.map_some, List.map_cons]
        exact .cons hr hholds

/-- A lambda that was compiled is found by the machine. -/
theorem Hosted.lambda {name : String} {names : List String} {body : IRNode} {count : Nat}
    {inner : Compiler} {b : Emitted} {func : BytecodeFunc} (hs : Ready s)
    (hinner : s.nextLambda.enterFunction names = inner)
    (hb : compileNode body (.tail name) inner.nextReg inner.allocReg = b)
    (hfunc : { b.state.toFunc name names (b.code ++ [⟨.ret, 0, inner.nextReg, 0⟩]) with
      captureCount := count } = func)
    (hhost : Hosted m fr ((s.nextLambda.leaveFunction b.state).addLambda func)) :
    m.lookup name = some func ∧ Compiled m name names {} body func := by
  have hlambdas : ∀ f ∈ b.state.compiledLambdas ++ [func], m.lookup f.name = some f := by
    intro f hf
    refine hhost.lambdas f ?_
    simp only [Compiler.addLambda, Compiler.leaveFunction, List.append_assoc]
    exact List.mem_append_right _ hf
  have hjumps : b.state.longJump = false := by
    have h := hhost.jumps
    simp only [Compiler.addLambda, Compiler.leaveFunction, Bool.or_eq_false_iff] at h
    exact h.2
  refine ⟨?_, ?_, ?_, ?_, ?_⟩
  · have hmem := hlambdas func (by simp)
    rwa [← hfunc] at hmem ⊢
  · refine ⟨{ lambdaCounter := s.nextLambda.lambdaCounter
              lambdaPrefix := s.nextLambda.lambdaPrefix
              ownershipMap := s.nextLambda.ownershipMap
              provenClauses := s.nextLambda.provenClauses }, 0,
      ⟨⟨le_rfl, by simp⟩, hs.noOwnership, rfl⟩, rfl, rfl, rfl, hhost.unitPrefix, by simp, ?_⟩
    have hentry : Compiler.bindParams names 0
        { lambdaCounter := s.nextLambda.lambdaCounter
          lambdaPrefix := s.nextLambda.lambdaPrefix
          ownershipMap := s.nextLambda.ownershipMap
          provenClauses := s.nextLambda.provenClauses } = inner := hinner
    simp only [hentry, compileActivation, compileClauses, hb, List.append_nil, List.nil_append]
    subst hfunc
    exact ⟨rfl, rfl, rfl, hjumps, fun f hf => hlambdas f (List.mem_append_left _ hf)⟩
  · subst hfunc
    rfl
  · exact hhost.shorts func (Machine.lookup_mem (hlambdas func (by simp)))
  · exact hhost.shorts

/-- A closure is made of the window. -/
theorem makeClosure_sim {name : String} {captures : List (String × Nat)} {vals : List VmValue}
    {func : BytecodeFunc} {v : RefValue} (hs : Ready s) (hdst : dst < s.nextReg)
    (hslots : ∀ cap ∈ captures, cap.2 < s.nextReg)
    (hholds : fr.HoldsAll (captures.map Prod.snd) vals) (hlookup : m.lookup name = some func)
    (hcount : func.captureCount = captures.length)
    (hv : ValueRel m v (.bytecodeClosure name vals))
    (hcode : CodeAt fr.func.instructions fr.ip (makeClosure name captures dst s).code)
    (hhost : Hosted m fr (makeClosure name captures dst s).state) :
    (m.host inline).Simulates k ⟨fr :: rest, depth, world⟩ (.ok v world)
      (Done m dst (makeClosure name captures dst s).code.length fr rest depth) := by
  have hlength := hholds.length_eq
  rw [List.length_map] at hlength
  have halloc := allocRegs_spec hs.toTidy captures.length
  have hnext := halloc.nextReg
  simp only [makeClosure] at hcode hhost ⊢
  generalize s.allocRegs captures.length = s' at halloc hnext hcode hhost ⊢
  have hname : Hosted m fr (s'.addConstant (.str name)) :=
    hhost.of_extends (Compiler.freeRegTo_extends _ _)
  have hbank := halloc.nextReg_le.trans (by simpa using hname.registers)
  obtain ⟨fr', hrun, hkeep, hip, hvals⟩ :=
    moveCaptures_runs inline rest depth world (m := m) hslots (by omega) hholds hcode.left
  have hinstr := (CodeAt.keeps hcode.right hkeep hip).head
  have hconst : fr'.func.constants[s'.constantIndex (.str name)]? = some (.str name) :=
    hkeep.func ▸ hname.stringConstant
  have hstep := Machine.step_makeClosure rest depth world (m := m)
    hinstr hconst (by rw [hkeep.length]; omega) hlookup (by omega)
    (by rw [hkeep.length]; omega) hvals
  rw [hv.toRt_eq] at hstep
  refine hrun.simulates ((put_sim hinstr rfl (by rw [hkeep.length]; omega) hstep hv).mono ?_)
  rintro v w vm ⟨fr'', v', rfl, hkeep', hip', hholds', hrel⟩
  refine ⟨fr'', v', rfl, (hkeep.mono (Nat.le_of_lt hdst)).trans hkeep', ?_, hholds', hrel⟩
  simp only [hip', hip, List.length_append, List.length_singleton, Nat.add_assoc]

/-- A lambda is a closure over what it captures. -/
theorem lambda_sim {params : List String} {body : IRNode} (h : At P m inline c pos dst s env fr)
    (hcode : CodeAt fr.func.instructions fr.ip (compileNode (.lambda params body) pos dst s).code)
    (hhost : Hosted m fr (compileNode (.lambda params body) pos dst s).state) :
    (m.host inline).Simulates k ⟨fr :: rest, depth, world⟩
      (P.guardedEval enter c (.lambda params body) env world)
      (Post P m c dst (compileNode (.lambda params body) pos dst s).code.length fr rest depth) := by
  have hspec := compileNode_spec (.lambda params body) pos h.ready.toTidy h.dst_lt
  have hunit : s.lambdaPrefix = "" := (hhost.of_extends hspec.ext).unitPrefix
  simp only [RefProgram.guardedEval]
  split
  · trivial
  next hscope =>
  obtain ⟨hnames, vals, vals', hvals, hrel, hholds⟩ :=
    capturedNames_spec h.agree (by simpa using hscope)
  simp only [compileNode, hunit] at hcode hhost ⊢
  have hslots := capturedNames_lt h.ready.toTidy params body
  generalize capturedNames s params body = captures at *
  have hlength := congrArg List.length hnames
  rw [List.length_map] at hlength
  generalize hinner : s.nextLambda.enterFunction (captures.map Prod.fst ++ params) = inner at *
  generalize hb : compileNode body (.tail (lambdaName "" s.lambdaCounter)) inner.nextReg
    inner.allocReg = b at *
  generalize hfunc : ({ b.state.toFunc (lambdaName "" s.lambdaCounter)
    (captures.map Prod.fst ++ params) (b.code ++ [⟨.ret, 0, inner.nextReg, 0⟩]) with
    captureCount := captures.length } : BytecodeFunc) = func at *
  generalize hs₁ : (s.nextLambda.leaveFunction b.state).addLambda func = s₁ at *
  have hs₁' : Ready s₁ := by
    rw [← hs₁]
    exact ⟨⟨h.ready.nextReg_le, h.ready.locals_lt⟩, h.ready.noOwnership, h.ready.noMoved⟩
  have hnext : s₁.nextReg = s.nextReg := by
    rw [← hs₁]
    rfl
  have hhost₁ : Hosted m fr s₁ := hhost.of_extends (makeClosure_extends hs₁'.toTidy _ _ _)
  obtain ⟨hlookup, hcompiled⟩ :=
    (hs₁ ▸ hhost₁ : Hosted m fr ((s.nextLambda.leaveFunction b.state).addLambda func)).lambda
    h.ready hinner hb hfunc
  have hcount : func.captureCount = captures.length := by
    rw [← hfunc]
  rw [hnames] at hcompiled
  refine simulates_done (makeClosure_sim hs₁' (hnext ▸ h.dst_lt) (hnext ▸ hslots) hholds hlookup
    hcount (.closure hlookup hcompiled (by rw [hcount, hlength]) ?_ hrel) hcode hhost)
  simpa only [Lambda.env, zip_names_values] using hvals

/-! ## After the operands -/

theorem Done.after {lo count before total : Nat} {fr₀ : Frame} {v : RefValue} {vm : Vm World}
    (h : Done m dst count fr rest depth v world vm) (hkeep : fr₀.Keeps lo fr) (hle : dst ≤ lo)
    (hip : fr.ip = fr₀.ip + before) (htotal : before + count = total) :
    Done m dst total fr₀ rest depth v world vm := by
  obtain ⟨fr', v', rfl, hkeep', hip', hholds, hrel⟩ := h
  exact ⟨fr', v', rfl, (hkeep.mono hle).trans hkeep', by omega, hholds, hrel⟩

theorem InlineOk.eq_false {instr : Instruction} {pc : Nat} {func : BytecodeFunc}
    (h : InlineOk inline c func) (hinstr : func.instructions[pc]? = some instr)
    (hop : isSimpleOp instr.op = false) : inline = false := by
  cases inline with
  | false => rfl
  | true =>
    have hsimple := (h rfl).2 instr (List.mem_of_getElem? hinstr)
    simp [hop] at hsimple

/-- A list of a window. -/
theorem makeList_sim {start : Nat} {vals : List RefValue} {vals' : List VmValue}
    (hinstr : fr.func.instructions[fr.ip]? = some ⟨.makeList, dst, start, vals'.length⟩)
    (hdst : dst < fr.registers.length) (hslots : fr.HoldsFrom start vals')
    (hrel : ValuesRel m vals vals') :
    (m.host inline).Simulates k ⟨fr :: rest, depth, world⟩ (.ok (.list vals) world)
      (Done m dst 1 fr rest depth) :=
  put_sim hinstr rfl hdst (Machine.step_makeList hinstr hdst hslots) (.list hrel)

/-- Unwrapping fails alike or gives related results. -/
theorem ValueRel.tryUnwrap_rel {v : RefValue} {v' : VmValue} (h : ValueRel m v v') :
    ResultRel m (RefProgram.tryUnwrap v) (Machine.tryResult v') := by
  cases h with
  | @variant tag x y h =>
    unfold RefProgram.tryUnwrap Machine.tryResult
    by_cases hok : tag = "Ok"
    · subst hok
      exact h
    by_cases herr : tag = "Err"
    · subst herr
      rfl
    · split <;> simp_all [ResultRel]
  | _ => rfl

/-- A call of a value calls what the evaluator calls. -/
theorem callExpr_sim (hE : Enters P m inline k enter) (hL : Linked P m) {calleeReg hi : Nat}
    {regs : List Nat} {f : RefValue} {f' : VmValue} {vals : List RefValue} {vals' : List VmValue}
    (hcallee : dst + 1 + regs.length ≤ calleeReg) (hf : fr.Holds calleeReg f')
    (hfrel : ValueRel m f f') (hasc : Ascending (dst + 1) regs hi) (hhi : hi ≤ fr.registers.length)
    (hholds : fr.HoldsAll regs vals') (hrel : ValuesRel m vals vals')
    (hcode : CodeAt fr.func.instructions fr.ip
      (moveToSlots (dst + 1) regs ++ [⟨.callReg, dst, calleeReg, regs.length⟩])) :
    (m.host inline).Simulates k ⟨fr :: rest, depth, world⟩ (P.guardedValue enter f vals world)
      (Done m dst ((moveToSlots (dst + 1) regs).length + 1) fr rest depth) := by
  obtain ⟨fr', hrun, hkeep, hip, hslots, hrest⟩ :=
    moveToSlots_runs inline rest depth world (m := m) hasc hhi hholds hcode.left
  have hinstr := (CodeAt.keeps hcode.right hkeep hip).head
  rw [hholds.length_eq] at hinstr
  have hbank : dst < fr'.registers.length := by
    have hlt := hf.lt
    rw [hkeep.length]
    omega
  refine hrun.simulates ((guardedValue_sim hE hL hinstr hbank (hrest hcallee hf) hfrel hrel
    hslots).mono fun _ _ _ hdone => ?_)
  exact hdone.after hkeep (Nat.le_succ dst) hip rfl

/-- Only whether a site is in tail position matters for where its code may end. -/
theorem simulates_self {c' : Site} {count : Nat} {vm : Vm World} {r : Res World RefValue}
    (hself : c'.self = c.self)
    (h : (m.host inline).Simulates k vm r (Post P m c' dst count fr rest depth)) :
    (m.host inline).Simulates k vm r (Post P m c dst count fr rest depth) :=
  simulates_from h (.refl dst fr) rfl hself (Nat.zero_add count)

variable (rest depth) in
/-- A conditional: the condition, a jump to the second branch, the first branch,
a jump behind the second branch, the second branch. -/
theorem ite_sim (condCode : List Instruction) {condReg : Nat} {thenCode elseCode : List Instruction}
    {r : Res World RefValue} (then_ else_ : World → Res World RefValue)
    (hcond : (m.host inline).Simulates k ⟨fr :: rest, depth, world⟩ r
      (Done m condReg condCode.length fr rest depth)) (hle : dst ≤ condReg)
    (hfitsThen : thenCode.length + 1 < 32768) (hfitsElse : elseCode.length < 32768)
    (hshort : fr.func.Short) (hcode : CodeAt fr.func.instructions fr.ip
      (condCode ++ ⟨.jumpIfFalse, 0, condReg, toU16 (thenCode.length + 1)⟩ :: thenCode ++
        ⟨.jump, 0, toU16 elseCode.length, 0⟩ :: elseCode))
    (hthen : ∀ fr' world, fr.Keeps condReg fr' → CodeAt fr'.func.instructions fr'.ip thenCode →
      (m.host inline).Simulates k ⟨fr' :: rest, depth, world⟩ (then_ world)
        (Post P m c dst thenCode.length fr' rest depth))
    (helse : ∀ fr' world, fr.Keeps condReg fr' → CodeAt fr'.func.instructions fr'.ip elseCode →
      (m.host inline).Simulates k ⟨fr' :: rest, depth, world⟩ (else_ world)
        (Post P m c dst elseCode.length fr' rest depth)) :
    (m.host inline).Simulates k ⟨fr :: rest, depth, world⟩
      (r.bind fun v world => match v with
        | .bool false => else_ world
        | _ => then_ world)
      (Post P m c dst (condCode ++ ⟨.jumpIfFalse, 0, condReg, toU16 (thenCode.length + 1)⟩ ::
        thenCode ++ ⟨.jump, 0, toU16 elseCode.length, 0⟩ :: elseCode).length fr rest depth) := by
  refine hcond.bind fun v world vm hdone => ?_
  obtain ⟨fr', v', rfl, hkeep, hip, hv, hvrel⟩ := hdone
  have hend := (hcode.length_le (by simp)).trans_lt hshort
  have hbranch := CodeAt.keeps hcode.left.right hkeep hip
  have hjump := hcode.right.head
  have hcodeElse := hcode.right.tail
  simp only [List.length_append, List.length_cons] at hjump hcodeElse hend ⊢
  split
  · cases hvrel
    refine .of_step (Machine.host_step hbranch.head rfl
      (Machine.step_jumpIfFalse_taken hfitsThen (by omega) hbranch.head hv)) ?_
    have hkeep' := hkeep.trans (.advance condReg fr' (1 + (thenCode.length + 1)))
    have hip' : (fr'.advance (1 + (thenCode.length + 1))).ip =
        fr.ip + (condCode.length + (thenCode.length + 1) + 1) := by
      rw [Frame.advance_ip, hip]
      omega
    refine simulates_from (helse _ world hkeep' (CodeAt.keeps ?_ hkeep' hip'))
      (hkeep'.mono hle) hip'
      rfl (by omega)
    rwa [← Nat.add_assoc fr.ip]
  · next hne =>
      have hne' : v' ≠ .bool false := by
        rintro rfl
        cases hvrel
        exact hne rfl
      refine .of_step (Machine.host_step hbranch.head rfl
        (Machine.step_jumpIfFalse_not_taken hbranch.head hv hne')) ?_
      have hkeep' := hkeep.trans (.advance condReg fr' 1)
      have hip' : (fr'.advance 1).ip = fr.ip + (condCode.length + 1) := by
        rw [Frame.advance_ip, hip, Nat.add_assoc]
      refine simulates_from (simulates_jump (hthen _ world hkeep' hbranch.tail) hfitsElse
        (by rw [hip']; omega) ?_ rfl) (hkeep'.mono hle) hip' rfl (by omega)
      rw [hkeep'.func, hip']
      convert hjump using 2
      omega

theorem CallSpec.args {all : EmittedArgs} {e : Emitted} (h : CallSpec s all e)
    (hcode : CodeAt fr.func.instructions fr.ip e.code) (hhost : Hosted m fr e.state) :
    CodeAt fr.func.instructions fr.ip all.code ∧ Hosted m fr all.state := by
  have hargs := hhost.of_extends h.extends_args
  obtain ⟨code, regs, s', rfl, -⟩ := h.parts
  exact ⟨hcode.left, hargs⟩

variable (world) in
/-- A literal pattern compares as the runtime does. -/
theorem literal_sim {val : VmValue} {scrReg valReg : Nat} {v : RefValue} {v' : VmValue}
    {pool : Compiler} (hinline : inline = false) (hv : fr.Holds scrReg v') (hvrel : ValueRel m v v')
    (hne : scrReg ≠ valReg)
    (hbank : valReg < fr.registers.length) (hhost : Hosted m fr (pool.addConstant val))
    (hcode : CodeAt fr.func.instructions fr.ip
      [⟨.loadConst, valReg, pool.constantIndex val, 0⟩, ⟨.eq, valReg, scrReg, valReg⟩]) :
    (m.host inline).Simulates k ⟨fr :: rest, depth, world⟩
      (.ok (.bool (v.rtValuesEqual val.toRt)) world) (Done m valReg 2 fr rest depth) := by
  subst hinline
  obtain ⟨w, hw, hkey⟩ := hhost.constant
  have hequal : v'.rtValuesEqual w.toRt = v.rtValuesEqual val.toRt := by
    rw [hvrel.rtValuesEqual_left]
    rcases hkey with rfl | hkey
    · rfl
    · refine (Value.rtValuesEqual_of_valueEq ?_ v').symm
      unfold Compiler.sameKey at hkey
      split at hkey
      · exact absurd hkey (by simp)
      · exact absurd hkey (by simp)
      · exact hkey
  have hkeep := Frame.Keeps.put fr valReg w.toRt
  have hbank' : valReg < (fr.put valReg w.toRt).registers.length := hkeep.length ▸ hbank
  have hstep := Machine.step_directOp rest depth world (m := m)
    (show directOp "=" = _ from rfl)
    (show (fr.put valReg w.toRt).func.instructions[(fr.put valReg w.toRt).ip]? = _ from
      hcode.tail.head) hbank'
    (Frame.put_holds_of_ne hv hne) (Frame.put_holds_same w.toRt hbank)
  simp only [binaryOp, hequal, Except.map] at hstep
  refine (Runs.head_main (Machine.step_loadConst _ _ _ hcode.head hbank hw)
    (.head_main hstep (.refl _))).simulates (Host.simulates_ok ?_)
  exact ⟨_, _, rfl, hkeep.trans (.put _ _ _), rfl, Frame.put_holds_same _ hbank', .bool _⟩

variable (rest depth world) in
/-- A variant pattern that matches binds its names. -/
theorem variantHit_runs {tag : String} {subPats : List IRPattern} {scrReg : Nat} {inner : RefValue}
    {inner' : VmValue} {binds : Env} {jump : Nat} (hinline : inline = false) (hs : Ready s)
    (hhost : Hosted m fr (bindFields subPats s.nextReg (s.addConstant (.str tag)).allocReg).state)
    (hholds : fr.Holds scrReg (.variant tag inner')) (hrel : ValueRel m inner inner')
    (hmatch : matchFields subPats inner = some binds)
    (hindexable : indexable (.variant tag subPats) = true)
    (hcode : CodeAt fr.func.instructions fr.ip
      (⟨.matchTag, s.nextReg, scrReg, s.constantIndex (.str tag)⟩ :: ⟨.jumpIfNoMatch, 0, jump, 0⟩ ::
        (bindFields subPats s.nextReg (s.addConstant (.str tag)).allocReg).code))
    (hagree : Agree m c.scope s env fr) :
    ∃ fr', Runs m inline rest depth world fr fr' ∧ fr.Keeps s.nextReg fr' ∧
      fr'.ip = fr.ip +
        (2 + (bindFields subPats s.nextReg (s.addConstant (.str tag)).allocReg).code.length) ∧
      Agree m (c.bindAll (IRPattern.bindingsList subPats)).scope
        (bindFields subPats s.nextReg (s.addConstant (.str tag)).allocReg).state (binds ++
          env) fr' := by
  subst hinline
  have htag := (Spec.addConstant hs.toTidy (.str tag)).append (.alloc _)
  have hst := htag.ready hs
  have hnext := htag.nextReg
  have hfields := bindFields_spec subPats hst.toTidy (show s.nextReg < _ by omega)
  have hname : Hosted m fr (s.addConstant (.str tag)) :=
    hhost.of_extends ((Compiler.allocReg_extends _).trans hfields.ext)
  have hnextFields := hfields.nextReg
  have hbank : s.nextReg < fr.registers.length :=
    lt_of_lt_of_le (by omega) (hfields.nextReg_le.trans hhost.registers)
  simp only [indexable, Bool.and_eq_true, decide_eq_true_eq] at hindexable
  have hkeep : fr.Keeps s.nextReg
      (Frame.advance { fr.put s.nextReg inner' with matchFlag := true } 1) :=
    ⟨rfl, rfl, (Frame.Keeps.put fr _ inner').length, (Frame.Keeps.put fr _ inner').below⟩
  obtain ⟨fr', hrun, hkeep', hip, hagree'⟩ := bindFields_binds rest depth world subPats hst
    (by omega) (show Frame.Holds
      (Frame.advance { fr.put s.nextReg inner' with matchFlag := true } 1)
      s.nextReg inner' from Frame.put_holds_same inner' hbank) hrel hmatch hindexable.1 hindexable.2
        hcode.tail.tail
    (hhost.keeps hkeep) ((hagree.keeps hs hkeep).congr (fun _ => rfl) (by simp [Compiler.allocReg]))
  refine ⟨fr',
    .head_main (Machine.step_matchTag_hit _ _ _ hcode.head hbank hname.stringConstant hholds)
    (.head_main (Machine.step_jumpIfNoMatch_not_taken hcode.tail.head rfl) hrun),
    hkeep.trans (hkeep'.mono (by omega)), ?_, hagree'⟩
  rw [hip, Frame.advance_ip]
  simp only [Frame.put_ip]
  omega

variable (rest depth world) in
/-- One that does not match clears the flag. -/
theorem variantMiss_runs {tag : String} {scrReg innerReg tagIdx distance : Nat} {v : RefValue}
    {v' : VmValue} (hinline : inline = false) (hholds : fr.Holds scrReg v') (hrel : ValueRel m v v')
    (htag : hasTag tag v = false) (hname : fr.func.constants[tagIdx]? = some (.str tag))
    (hfits : distance < 32768) (hshort : fr.ip + 2 + distance < 2147483648)
    {code : List Instruction}
    (hcode : CodeAt fr.func.instructions fr.ip (⟨.matchTag, innerReg, scrReg, tagIdx⟩ ::
      ⟨.jumpIfNoMatch, 0, toU16 distance, 0⟩ :: code)) :
    ∃ fr', Runs m inline rest depth world fr fr' ∧ (∀ lo, fr.Keeps lo fr') ∧
      fr'.ip = fr.ip + (2 + distance) := by
  subst hinline
  have hne : ∀ x, v' ≠ .variant tag x := by
    rintro x rfl
    cases hrel
    simp [hasTag] at htag
  refine ⟨Frame.advance { fr.advance 1 with matchFlag := false } (1 + distance),
    .head_main (Machine.step_matchTag_miss hcode.head hname hholds hne)
      (.head_main (Machine.step_jumpIfNoMatch_taken hfits hshort hcode.tail.head rfl) (.refl _)),
    fun lo => ⟨rfl, rfl, rfl, fun _ => rfl⟩, ?_⟩
  simp only [Frame.advance_ip]
  omega

/-! ## Every expression -/

/-- A node with a destination of its own is never left by a self call. -/
theorem simulates_temp {dst count : Nat} {vm : Vm World} {r : Res World RefValue}
    (h : (m.host inline).Simulates k vm r (Post P m c.temp dst count fr rest depth)) :
    (m.host inline).Simulates k vm r (Done m dst count fr rest depth) :=
  h.mono fun _ _ _ hpost => hpost.done rfl

theorem Site.afterBindings_self (c : Site) (bindings : List IRBinding) :
    (c.afterBindings bindings).self = c.self := by
  induction bindings generalizing c with
  | nil => rfl
  | cons b bindings ih =>
    obtain ⟨name, expr⟩ := b
    exact ih _

/-- The bindings of a `Let` are evaluated, and their variables are in scope. -/
def Bound (P : RefProgram World) (m : Machine World) (inline : Bool) (c : Site) (pos : Position)
    (dst lo : Nat) (e : Emitted) (fr : Frame) (rest : List Frame) (depth : Nat) (env : Env)
    (world : World) (vm : Vm World) : Prop :=
  ∃ fr', vm = ⟨fr' :: rest, depth, world⟩ ∧ fr.Keeps lo fr' ∧ fr'.ip = fr.ip + e.code.length ∧
    At P m inline c pos dst e.state env fr'

mutual

/-- Compiled code does what the guarded evaluator does, by induction on the node. -/
theorem guardedEval_sim (hE : Enters P m inline k enter) (hL : Linked P m) : ∀ (node : IRNode)
    {c : Site} {pos : Position} {dst : Nat} {s : Compiler} {env : Env} {fr : Frame}
    {rest : List Frame} {depth : Nat} {world : World}, At P m inline c pos dst s env fr →
    CodeAt fr.func.instructions fr.ip (compileNode node pos dst s).code →
    Hosted m fr (compileNode node pos dst s).state →
    (m.host inline).Simulates k ⟨fr :: rest, depth, world⟩ (P.guardedEval enter c node env world)
      (Post P m c dst (compileNode node pos dst s).code.length fr rest depth)
  | .int v, c, pos, dst, s, env, fr, rest, depth, world, h, hcode, hhost => by
    have hbank := h.bank hhost (compileNode_spec (.int v) pos h.ready.toTidy h.dst_lt).ext
    simp only [compileNode, RefProgram.guardedEval] at hcode hhost ⊢
    exact loadConstant_sim (.int v) sameKey_int hcode hhost hbank
  | .float bits, c, pos, dst, s, env, fr, rest, depth, world, h, hcode, hhost => by
    have hbank := h.bank hhost (compileNode_spec (.float bits) pos h.ready.toTidy h.dst_lt).ext
    simp only [compileNode, RefProgram.guardedEval] at hcode hhost ⊢
    exact loadConstant_sim (.float bits) sameKey_float hcode hhost hbank
  | .str v, c, pos, dst, s, env, fr, rest, depth, world, h, hcode, hhost => by
    have hbank := h.bank hhost (compileNode_spec (.str v) pos h.ready.toTidy h.dst_lt).ext
    simp only [compileNode, RefProgram.guardedEval] at hcode hhost ⊢
    exact loadConstant_sim (.str v) sameKey_str hcode hhost hbank
  | .bool true, c, pos, dst, s, env, fr, rest, depth, world, h, hcode, hhost => by
    have hbank := h.bank hhost (compileNode_spec (.bool true) pos h.ready.toTidy h.dst_lt).ext
    simp only [compileNode, RefProgram.guardedEval] at hcode hhost ⊢
    exact simulates_done (put_sim hcode.head rfl hbank (Machine.step_loadTrue hcode.head hbank)
      (.bool true))
  | .bool false, c, pos, dst, s, env, fr, rest, depth, world, h, hcode, hhost => by
    have hbank := h.bank hhost (compileNode_spec (.bool false) pos h.ready.toTidy h.dst_lt).ext
    simp only [compileNode, RefProgram.guardedEval] at hcode hhost ⊢
    exact simulates_done (put_sim hcode.head rfl hbank (Machine.step_loadFalse hcode.head hbank)
      (.bool false))
  | .nil, c, pos, dst, s, env, fr, rest, depth, world, h, hcode, hhost => by
    have hbank := h.bank hhost (compileNode_spec .nil pos h.ready.toTidy h.dst_lt).ext
    simp only [compileNode, RefProgram.guardedEval] at hcode hhost ⊢
    exact simulates_done (put_sim hcode.head rfl hbank (Machine.step_loadNil hcode.head hbank) .nil)
  | .func name params body, c, pos, dst, s, env, fr, rest, depth, world, h, hcode, hhost => by
    have hbank :=
      h.bank hhost (compileNode_spec (.func name params body) pos h.ready.toTidy h.dst_lt).ext
    simp only [compileNode, RefProgram.guardedEval] at hcode hhost ⊢
    exact simulates_done (put_sim hcode.head rfl hbank (Machine.step_loadNil hcode.head hbank) .nil)
  | .load name, c, pos, dst, s, env, fr, rest, depth, world, h, hcode, hhost =>
    load_sim h hcode hhost
  | .lambda params body, c, pos, dst, s, env, fr, rest, depth, world, h, hcode, hhost =>
    lambda_sim h hcode hhost
  | .do [], c, pos, dst, s, env, fr, rest, depth, world, h, hcode, hhost => by
    have hbank := h.bank hhost (compileNode_spec (.do []) pos h.ready.toTidy h.dst_lt).ext
    simp only [compileNode, RefProgram.guardedEval, RefProgram.guardedDo] at hcode hhost ⊢
    exact simulates_done (put_sim hcode.head rfl hbank (Machine.step_loadNil hcode.head hbank) .nil)
  | .do (expr :: exprs), c, pos, dst, s, env, fr, rest, depth, world, h, hcode, hhost => by
    simp only [compileNode, RefProgram.guardedEval] at hcode hhost ⊢
    exact guardedDo_sim hE hL (expr :: exprs) (List.cons_ne_nil _ _) h hcode
      (hhost.of_extends (Compiler.freeRegTo_extends _ _))
  | .let bindings body, c, pos, dst, s, env, fr, rest, depth, world, h, hcode, hhost => by
    simp only [compileNode, RefProgram.guardedEval, raiseAbove_eq pos h.dst_lt] at hcode hhost ⊢
    have hb := compileBindings_spec bindings h.ready.toTidy
    have hnext := hb.nextReg
    have hdst := h.dst_lt
    have hbody := compileNode_spec body pos (hb.ready h.ready).toTidy (show dst < _ by omega)
    have hhostBody :
        Hosted m fr (compileNode body pos dst (compileBindings bindings s).state).state :=
      hhost.of_extends ((Compiler.removeLocals_extends _ _).trans (Compiler.freeRegTo_extends _ _))
    refine (guardedBindings_sim hE hL bindings h hcode.left
      (hhostBody.of_extends hbody.ext)).bind fun env' world' vm hbound => ?_
    obtain ⟨fr', rfl, hkeep, hip, hat⟩ := hbound
    refine simulates_from (guardedEval_sim hE hL body hat (CodeAt.keeps hcode.right hkeep hip)
      (hhostBody.keeps hkeep)) (hkeep.mono h.dst_lt.le) hip (c.afterBindings_self bindings) ?_
    rw [List.length_append]
  | .list items, c, pos, dst, s, env, fr, rest, depth, world, h, hcode, hhost => by
    have hbank := h.bank hhost (compileNode_spec (.list items) pos h.ready.toTidy h.dst_lt).ext
    simp only [compileNode, RefProgram.guardedEval] at hcode hhost ⊢
    have hall := compileArgs_spec items h.ready.toTidy
    refine (guardedArgs_sim hE hL items h.toInside hcode.left
      (hhost.of_extends (Compiler.freeRegTo_extends _ _))).bind fun vals world vm hargs => ?_
    obtain ⟨fr', vals', rfl, hkeep, hip, hvals, hrel⟩ := hargs
    split
    · trivial
    next hadj =>
    rw [hall.adjacent (by simpa using hadj)] at hvals
    have hinstr := (CodeAt.keeps hcode.right hkeep hip).head
    rw [← List.length_range' (s := s.nextReg) (n := items.length), hvals.length_eq] at hinstr
    refine simulates_done ((makeList_sim hinstr (hkeep.length ▸ hbank) hvals.holdsFrom hrel).mono
      fun _ _ _ hdone => hdone.after hkeep h.dst_lt.le hip ?_)
    rw [List.length_append, List.length_singleton]
  | .ite cond then_ else_, c, pos, dst, s, env, fr, rest, depth, world, h, hcode, hhost => by
    simp only [compileNode, RefProgram.guardedEval, Nat.max_eq_left h.dst_lt] at hcode hhost ⊢
    have hdst := h.dst_lt
    have hc := (compileNode_spec cond .value ((Spec.alloc s).ready h.ready).toTidy
      (Nat.lt_succ_self s.nextReg)).temp
    have hfreed := hc.free h.ready.toTidy
    have hsf := hfreed.ready h.ready
    have ht := compileNode_spec then_ pos hsf.toTidy hdst
    have hboth := hfreed.append ht
    have hnext := hboth.nextReg
    have he := compileNode_spec else_ pos (ht.ready hsf).toTidy (show dst < _ by omega)
    obtain ⟨hfitsElse, hhost⟩ := hhost.noteJump
    obtain ⟨hfitsThen, hhostElse⟩ := hhost.noteJump
    have hhostThen := hhostElse.of_extends he.ext
    refine ite_sim _ _ _ _ _
      (simulates_temp (guardedEval_sim hE hL cond (h.toInside.temp P) hcode.left.left
      (hhostThen.of_extends ((Compiler.freeRegTo_extends _ _).trans ht.ext)))) hdst.le hfitsThen
      hfitsElse hhost.short hcode (fun fr' world hkeep hcodeThen => ?_)
        (fun fr' world hkeep hcodeElse => ?_)
    · exact simulates_self rfl (guardedEval_sim hE hL then_ (h.after hfreed hkeep) hcodeThen
        (hhostThen.keeps hkeep))
    · exact simulates_self rfl (guardedEval_sim hE hL else_ (h.after
        (hboth.congr (Nat.zero_add _) (fun _ _ => Iff.rfl) (fun _ => Iff.rfl) rfl) hkeep) hcodeElse
        (hhostElse.keeps hkeep))
  | .callExpr callee args, c, pos, dst, s, env, fr, rest, depth, world, h, hcode, hhost => by
    have hbank :=
      h.bank hhost (compileNode_spec (.callExpr callee args) pos h.ready.toTidy h.dst_lt).ext
    simp only [compileNode, RefProgram.guardedEval] at hcode hhost ⊢
    have hc := (compileNode_spec callee .value ((Spec.alloc s).ready h.ready).toTidy
      (Nat.lt_succ_self s.nextReg)).temp
    have hsc := hc.ready h.ready
    have hall := compileArgs_spec args hsc.toTidy
    have hgap := h.gap
    have hnext := hc.nextReg
    have hhostArgs := hhost.of_extends ((Spec.reserveSlots (hall.spec.ready hsc).toTidy dst
      args.length).ext.trans (Compiler.freeRegTo_extends _ _))
    refine (simulates_temp (guardedEval_sim hE hL callee (h.toInside.temp P) hcode.left.left.left
      (hhostArgs.of_extends hall.spec.ext))).bind fun f world vm hdone => ?_
    obtain ⟨fr₁, f', rfl, hkeep₁, hip₁, hf, hfrel⟩ := hdone
    refine (guardedArgs_sim hE hL args (h.toInside.after hc hkeep₁)
      (CodeAt.keeps hcode.left.left.right hkeep₁ hip₁) (hhostArgs.keeps hkeep₁)).bind
        fun vals world vm hargs => ?_
    obtain ⟨fr₂, vals', rfl, hkeep₂, hip₂, hvals, hrel⟩ := hargs
    split
    · trivial
    next hroom =>
    have hkeep := hkeep₁.trans (hkeep₂.mono (by omega))
    have hlen := hall.length
    have hcodeCall : CodeAt fr.func.instructions
        (fr.ip + ((compileNode callee .value s.nextReg s.allocReg).code.length +
          (compileArgs args (compileNode callee .value s.nextReg s.allocReg).state).code.length))
        (moveToSlots (dst + 1)
          (compileArgs args (compileNode callee .value s.nextReg s.allocReg).state).regs ++
          [⟨.callReg, dst, s.nextReg,
            (compileArgs args
              (compileNode callee .value s.nextReg s.allocReg).state).regs.length⟩]) := by
      rw [List.append_assoc] at hcode
      rw [hlen]
      simpa only [List.length_append] using hcode.right
    have hip : fr₂.ip = fr.ip + ((compileNode callee .value s.nextReg s.allocReg).code.length +
        (compileArgs args (compileNode callee .value s.nextReg s.allocReg).state).code.length) := by
      omega
    refine simulates_done ((callExpr_sim hE hL (by omega) (hkeep₂.holds (by omega) hf) hfrel
      (hall.ascending.lower (by omega)) ?_ hvals hrel (hcodeCall.keeps hkeep hip)).mono
        fun _ _ _ hdone => hdone.after hkeep h.dst_lt.le hip ?_)
    · rw [hkeep.length]
      exact (hall.spec.ready hsc).nextReg_le.trans hhostArgs.registers
    · simp only [List.length_append, List.length_singleton]
      omega
  | .variant tag [], c, pos, dst, s, env, fr, rest, depth, world, h, hcode, hhost => by
    have hbank := h.bank hhost (compileNode_spec (.variant tag []) pos h.ready.toTidy h.dst_lt).ext
    simp only [compileNode, RefProgram.guardedEval, RefProgram.guardedArgs, Outcome.bind_ok]
      at hcode hhost ⊢
    rw [if_neg (by simp [scattered])]
    exact simulates_done (put_sim hcode.head rfl hbank
      (Machine.step_makeVariant0 hcode.head hbank hhost.stringConstant) (.variant tag .nil))
  | .variant tag [arg], c, pos, dst, s, env, fr, rest, depth, world, h, hcode, hhost => by
    have hbank :=
      h.bank hhost (compileNode_spec (.variant tag [arg]) pos h.ready.toTidy h.dst_lt).ext
    simp only [compileNode, RefProgram.guardedEval, Compiler.addConstant_nextReg] at hcode hhost ⊢
    have htag := h.addConstant (.str tag)
    have hargs := compileArgs_spec [arg] htag.ready.toTidy
    have hhostArg := hhost.of_extends (Compiler.freeRegTo_extends _ _)
    have hname : Hosted m fr (s.addConstant (.str tag)) := hhostArg.of_extends (by
      simpa only [compileArgs, Compiler.addConstant_nextReg] using hargs.spec.ext)
    refine (guardedArgs_sim hE hL [arg] htag.toInside
      (by simpa only [compileArgs, List.append_nil, Compiler.addConstant_nextReg] using hcode.left)
      (by simpa only [compileArgs, Compiler.addConstant_nextReg] using hhostArg)).bind
        fun vals world vm hdone => ?_
    simp only [ArgsDone, compileArgs, List.append_nil, Compiler.addConstant_nextReg] at hdone
    obtain ⟨fr', vals', rfl, hkeep, hip, hvals, hrel⟩ := hdone
    cases hvals with
    | cons hv hnil =>
    cases hnil
    cases hrel with
    | cons hvrel hnil =>
    cases hnil
    have hbank' : dst < fr'.registers.length := hkeep.length ▸ hbank
    have hinstr := (CodeAt.keeps hcode.right hkeep hip).head
    rw [if_neg (by simp [scattered])]
    refine simulates_done ((put_sim hinstr rfl hbank' (Machine.step_makeVariant hinstr hbank'
      (hkeep.func ▸ hname.stringConstant) hv) (.variant tag hvrel)).mono
        fun _ _ _ hdone => hdone.after hkeep h.dst_lt.le hip ?_)
    rw [List.length_append, List.length_singleton]
  | .variant tag (arg :: arg' :: args), c, pos, dst, s, env, fr, rest, depth, world, h, hcode,
      hhost => by
      have hbank := h.bank hhost
        (compileNode_spec (.variant tag (arg :: arg' :: args)) pos h.ready.toTidy h.dst_lt).ext
      simp only [compileNode, RefProgram.guardedEval, Compiler.addConstant_nextReg] at hcode hhost ⊢
      have htag := h.addConstant (.str tag)
      have hall := compileArgs_spec (arg :: arg' :: args) htag.ready.toTidy
      have hhostList := hhost.of_extends (Compiler.freeRegTo_extends _ _)
      have hhostArgs := hhostList.of_extends (Compiler.allocReg_extends _)
      have hname := hhostArgs.of_extends hall.spec.ext
      refine (guardedArgs_sim hE hL (arg :: arg' :: args) htag.toInside hcode.left hhostArgs).bind
        fun vals world vm hdone => ?_
      obtain ⟨fr', vals', rfl, hkeep, hip, hvals, hrel⟩ := hdone
      split
      · trivial
      next hadj =>
      have hlength := hall.length
      have hnext := hall.spec.nextReg
      rw [Compiler.addConstant_nextReg] at hkeep hnext
      have hlow := hall.ascending.add_length_le
      have hregs := hall.adjacent (by simpa using hadj)
      have hcount := hvals.length_eq
      rw [hlength, List.length_cons, List.length_cons] at hcount
      rw [Compiler.addConstant_nextReg] at hregs
      generalize compileArgs (arg :: arg' :: args) (s.addConstant (.str tag)) = all at *
      have hcodeList := CodeAt.keeps hcode.right hkeep hip
      rw [hregs] at hvals
      have hlist := hcodeList.head
      rw [hcount] at hlist
      have hlistReg : all.state.nextReg < fr'.registers.length := by
        rw [hkeep.length]
        exact hhostList.registers.trans' (le_max_right _ _)
      have hpayload : RefProgram.payload vals = .list vals := by
        have hlen := hrel.length_eq
        match vals with
        | [] => simp at hlen; omega
        | [x] => simp at hlen; omega
        | x :: y :: vals => rfl
      rw [hpayload]
      -- the arguments become a list, the list the payload
      have hkeepList := Frame.Keeps.put fr' all.state.nextReg (.list vals')
      have hbank' : dst < (fr'.put all.state.nextReg (.list vals')).registers.length := by
        rw [hkeepList.length, hkeep.length]
        exact hbank
      have hkeep' := hkeep.trans (hkeepList.mono (show s.nextReg ≤ all.state.nextReg by omega))
      refine (Runs.head hlist rfl (Machine.step_makeList hlist hlistReg hvals.holdsFrom)
        (.refl _)).simulates (simulates_done ((put_sim hcodeList.tail.head rfl hbank'
          (Machine.step_makeVariant hcodeList.tail.head hbank' (hkeep'.func ▸ hname.stringConstant)
            (Frame.put_holds_same _ hlistReg)) (.variant tag (.list hrel))).mono
              fun _ _ _ hdone => hdone.after hkeep' h.dst_lt.le
                (show _ = _ + (all.code.length + 1) from ?_) ?_))
      · rw [Frame.put_ip, hip, Nat.add_assoc]
      · rw [List.length_append]
        rfl
  | .try expr, c, pos, dst, s, env, fr, rest, depth, world, h, hcode, hhost => by
    have hbank := h.bank hhost (compileNode_spec (.try expr) pos h.ready.toTidy h.dst_lt).ext
    simp only [compileNode, RefProgram.guardedEval] at hcode hhost ⊢
    refine (simulates_temp (guardedEval_sim hE hL expr (h.toInside.temp P) hcode.left
      (hhost.of_extends (Compiler.freeRegTo_extends _ _)))).bind fun v world vm hdone => ?_
    obtain ⟨fr', v', rfl, hkeep, hip, hv, hvrel⟩ := hdone
    have hbank' : dst < fr'.registers.length := hkeep.length ▸ hbank
    have hinstr := (CodeAt.keeps hcode.right hkeep hip).head
    refine simulates_done ((operator_sim hinstr (fun _ => Frame.inlineSafe_of_op rfl) hbank'
      (Machine.step_tryUnwrap hinstr hbank' hv) hvrel.tryUnwrap_rel).mono
        fun _ _ _ hdone => hdone.after hkeep h.dst_lt.le hip ?_)
    rw [List.length_append, List.length_singleton]
  | .match scrutinee arms, c, pos, dst, s, env, fr, rest, depth, world, h, hcode, hhost => by
    simp only [compileNode, RefProgram.guardedEval] at hcode hhost ⊢
    have hdst := h.dst_lt
    have hscr := (compileNode_spec scrutinee .value ((Spec.alloc s).ready h.ready).toTidy
      (Nat.lt_succ_self s.nextReg)).temp
    have hnext := hscr.nextReg
    have harms := compileArms_spec arms pos (hscr.ready h.ready).toTidy hdst (by omega)
    have hhostArms := hhost.of_extends (Compiler.freeRegTo_extends _ _)
    refine (simulates_temp (guardedEval_sim hE hL scrutinee (h.toInside.temp P) hcode.left
      (hhostArms.of_extends harms.ext))).bind fun v world vm hdone => ?_
    obtain ⟨fr', v', rfl, hkeep, hip, hv, hvrel⟩ := hdone
    refine simulates_from (guardedArms_sim hE hL arms hdst (by omega) hv hvrel (h.after hscr hkeep)
      (CodeAt.keeps hcode.right hkeep hip) (hhostArms.keeps hkeep)) (hkeep.mono hdst.le) hip rfl ?_
    rw [List.length_append]
  | .call name args, c, pos, dst, s, env, fr, rest, depth, world, h, hcode, hhost => by
    simp only [RefProgram.guardedEval]
    have hall := compileArgs_spec args h.ready.toTidy
    by_cases htail : pos = .tail name
    · subst htail
      simp only [compileNode, if_true] at hcode hhost ⊢
      refine (guardedArgs_sim hE hL args h.toInside hcode.left.left (hhost.of_extends
        ((Compiler.freeRegTo_extends _ _).trans (Compiler.addConstant_extends _ _)))).bind
          fun vals world vm hargs => ?_
      obtain ⟨fr', vals', rfl, hkeep, hip, hvals, hrel⟩ := hargs
      rcases h.tail with ⟨hself, htarget⟩ | ⟨-, hreserved⟩
      · refine finishTailCall_sim hE h.ready hall hself ?_ hrel hkeep hip hvals hcode hhost _
        rw [hkeep.func]
        exact htarget
      · rw [RefProgram.guardedCallName, if_pos hreserved]
        trivial
    · have hself : c.self ≠ some name := by
        intro heq
        cases pos with
        | value => exact absurd (h.tail.symm.trans heq) (by simp)
        | tail fnName =>
          rcases h.tail with ⟨hself, -⟩ | ⟨hself, -⟩
          · exact htail (by rw [Option.some.inj (hself.symm.trans heq)])
          · exact absurd (hself.symm.trans heq) (by simp)
      have hcompile : compileNode (.call name args) pos dst s =
          finishCall name args dst s (compileArgs args s) := by
        cases pos with
        | value => simp only [compileNode]
        | tail fnName =>
          simp only [compileNode]
          exact if_neg fun heq => htail (by rw [heq])
      rw [hcompile] at hcode hhost ⊢
      obtain ⟨hcodeArgs, hhostArgs⟩ :=
        (finishCall_rest name h.ready.toTidy h.dst_lt hall).args hcode hhost
      refine (guardedArgs_sim hE hL args h.toInside hcodeArgs hhostArgs).bind
        fun vals world vm hargs => ?_
      obtain ⟨fr', vals', rfl, hkeep, hip, hvals, hrel⟩ := hargs
      exact simulates_done (finishCall_sim hE hL h.ready h.dst_lt (h.agree.keeps h.ready hkeep)
        (hkeep.func ▸ h.inlineOk) hall hself hrel hkeep hip hvals hcode hhost)

/-- Of a sequence the last value stays. -/
theorem guardedDo_sim (hE : Enters P m inline k enter) (hL : Linked P m) : ∀ (exprs : List IRNode),
    exprs ≠ [] → ∀ {c : Site} {pos : Position} {dst : Nat} {s : Compiler} {env : Env} {fr : Frame}
    {rest : List Frame} {depth : Nat} {world : World}, At P m inline c pos dst s env fr →
    CodeAt fr.func.instructions fr.ip (compileDo exprs pos dst s).code →
    Hosted m fr (compileDo exprs pos dst s).state →
    (m.host inline).Simulates k ⟨fr :: rest, depth, world⟩ (P.guardedDo enter c exprs env world)
      (Post P m c dst (compileDo exprs pos dst s).code.length fr rest depth)
  | [], hne, c, pos, dst, s, env, fr, rest, depth, world, h, hcode, hhost => (hne rfl).elim
  | [expr], _, c, pos, dst, s, env, fr, rest, depth, world, h, hcode, hhost => by
    simp only [compileDo, RefProgram.guardedDo] at hcode hhost ⊢
    exact guardedEval_sim hE hL expr h hcode hhost
  | expr :: expr' :: exprs, _, c, pos, dst, s, env, fr, rest, depth, world, h, hcode, hhost => by
    simp only [compileDo, RefProgram.guardedDo] at hcode hhost ⊢
    have he := (compileNode_spec expr .value ((Spec.alloc s).ready h.ready).toTidy
      (Nat.lt_succ_self s.nextReg)).temp
    have hdst := h.dst_lt
    have hnext := he.nextReg
    have hrest :=
      compileDo_spec (expr' :: exprs) pos (he.ready h.ready).toTidy (show dst < _ by omega)
    refine (simulates_temp (guardedEval_sim hE hL expr (h.toInside.temp P) hcode.left
      (hhost.of_extends hrest.ext))).bind fun v world vm hdone => ?_
    obtain ⟨fr', v', rfl, hkeep, hip, -, -⟩ := hdone
    refine simulates_from (guardedDo_sim hE hL (expr' :: exprs) (List.cons_ne_nil _ _)
      (h.after he hkeep) (CodeAt.keeps hcode.right hkeep hip) (hhost.keeps hkeep))
      (hkeep.mono hdst.le) hip rfl ?_
    rw [List.length_append]

/-- Arguments come into the registers they were compiled to. -/
theorem guardedArgs_sim (hE : Enters P m inline k enter) (hL : Linked P m) :
    ∀ (args : List IRNode) {c : Site} {s : Compiler} {env : Env} {fr : Frame} {rest : List Frame}
    {depth : Nat} {world : World}, Inside m inline c s env fr →
    CodeAt fr.func.instructions fr.ip (compileArgs args s).code →
    Hosted m fr (compileArgs args s).state →
    (m.host inline).Simulates k ⟨fr :: rest, depth, world⟩ (P.guardedArgs enter c args env world)
      (ArgsDone m s.nextReg (compileArgs args s).regs (compileArgs args s).code.length
        fr rest depth)
  | [], c, s, env, fr, rest, depth, world, h, hcode, hhost => by
    simp only [compileArgs, RefProgram.guardedArgs]
    exact Host.simulates_ok ⟨fr, [], rfl, .refl _ fr, rfl, .nil, .nil⟩
  | arg :: args, c, s, env, fr, rest, depth, world, h, hcode, hhost => by
    simp only [compileArgs, RefProgram.guardedArgs] at hcode hhost ⊢
    have ha := (compileNode_spec arg .value ((Spec.alloc s).ready h.ready).toTidy
      (Nat.lt_succ_self s.nextReg)).temp
    have hnext := ha.nextReg
    have hrest := compileArgs_spec args (ha.ready h.ready).toTidy
    refine (simulates_temp (guardedEval_sim hE hL arg (h.temp P) hcode.left
      (hhost.of_extends hrest.spec.ext))).bind fun v world vm hdone => ?_
    obtain ⟨fr', v', rfl, hkeep, hip, hv, hvrel⟩ := hdone
    refine (guardedArgs_sim hE hL args (h.after ha hkeep) (CodeAt.keeps hcode.right hkeep hip)
      (hhost.keeps hkeep)).bind fun vals world vm hargs => ?_
    obtain ⟨fr'', vals', rfl, hkeep', hip', hvals, hrel⟩ := hargs
    refine Host.simulates_ok ⟨fr'', v' :: vals', rfl, hkeep.trans (hkeep'.mono (by omega)), ?_,
      .cons (hkeep'.holds (by omega) hv) hvals, .cons hvrel hrel⟩
    rw [hip', hip, List.length_append, Nat.add_assoc]

/-- Bindings come into the environment. -/
theorem guardedBindings_sim (hE : Enters P m inline k enter) (hL : Linked P m) :
    ∀ (bindings : List IRBinding) {c : Site} {pos : Position} {dst : Nat} {s : Compiler} {env : Env}
    {fr : Frame} {rest : List Frame} {depth : Nat} {world : World},
    At P m inline c pos dst s env fr →
    CodeAt fr.func.instructions fr.ip (compileBindings bindings s).code →
    Hosted m fr (compileBindings bindings s).state →
    (m.host inline).Simulates k ⟨fr :: rest, depth, world⟩
      (P.guardedBindings enter c bindings env world)
      (Bound P m inline (c.afterBindings bindings) pos dst s.nextReg (compileBindings bindings s) fr
        rest depth)
  | [], c, pos, dst, s, env, fr, rest, depth, world, h, hcode, hhost => by
    simp only [compileBindings, RefProgram.guardedBindings]
    exact Host.simulates_ok ⟨fr, rfl, .refl _ fr, rfl, h⟩
  | ⟨name, expr⟩ :: bindings, c, pos, dst, s, env, fr, rest, depth, world, h, hcode, hhost => by
    simp only [compileBindings, RefProgram.guardedBindings, Site.afterBindings] at hcode hhost ⊢
    have he := (compileNode_spec expr .value ((Spec.alloc s).ready h.ready).toTidy
      (Nat.lt_succ_self s.nextReg)).temp
    have hse := he.ready h.ready
    have hnext := he.nextReg
    have hname := Spec.insertLocal hse.toTidy name (r := s.nextReg) (by omega)
    have hrest := compileBindings_spec bindings (hname.ready hse).toTidy
    refine (simulates_temp (guardedEval_sim hE hL expr (h.toInside.temp P) hcode.left
      (hhost.of_extends (hname.ext.trans hrest.ext)))).bind fun v world vm hdone => ?_
    obtain ⟨fr', v', rfl, hkeep, hip, hv, hvrel⟩ := hdone
    have hdst := h.dst_lt
    refine (guardedBindings_sim hE hL bindings ((h.after he hkeep).bind name hv
      hdst.ne' (by omega) hvrel)
      (CodeAt.keeps hcode.right hkeep hip) (hhost.keeps hkeep)).mono fun env' world vm hbound => ?_
    obtain ⟨fr'', rfl, hkeep', hip', hat⟩ := hbound
    have hle : s.nextReg ≤ (compileNode expr .value s.nextReg s.allocReg).state.nextReg := by omega
    refine ⟨fr'', rfl, hkeep.trans (hkeep'.mono hle), ?_, hat⟩
    simp only [hip', hip, List.length_append, Nat.add_assoc]

/-- The first arm that matches is taken. -/
theorem guardedArms_sim (hE : Enters P m inline k enter) (hL : Linked P m) :
    ∀ (arms : List IRArm) {c : Site} {pos : Position} {dst scrReg : Nat} {s : Compiler} {env : Env}
    {fr : Frame} {rest : List Frame} {depth : Nat} {v : RefValue} {v' : VmValue} {world : World},
    dst < scrReg → scrReg < s.nextReg → fr.Holds scrReg v' → ValueRel m v v' →
    At P m inline c pos dst s env fr →
    CodeAt fr.func.instructions fr.ip (compileArms arms pos dst scrReg s).code →
    Hosted m fr (compileArms arms pos dst scrReg s).state →
    (m.host inline).Simulates k ⟨fr :: rest, depth, world⟩ (P.guardedArms enter c arms v env world)
      (Post P m c dst (compileArms arms pos dst scrReg s).code.length fr rest depth)
  | [], c, pos, dst, scrReg, s, env, fr, rest, depth, v, v', world, hdst, hscr, hv, hvrel, h, hcode,
      hhost => trivial
  | ⟨.wild, body⟩ :: arms, c, pos, dst, scrReg, s, env, fr, rest, depth, v, v', world,
      hdst, hscr, hv,
      hvrel, h, hcode, hhost => by
      simp only [compileArms, RefProgram.guardedArms] at hcode hhost ⊢
      split
      · next hlast =>
          obtain rfl := List.isEmpty_iff.mp hlast
          simp only [compileArms, List.append_nil] at hcode hhost ⊢
          have hbank := h.bank hhost (compileNode_spec body pos h.ready.toTidy h.dst_lt).ext
          have hkeep : fr.Keeps dst { fr.put dst v' with matchFlag := true } :=
            ⟨rfl, rfl, (Frame.Keeps.put fr dst v').length, (Frame.Keeps.put fr dst v').below⟩
          have hat : At P m inline c pos dst s env { fr.put dst v' with matchFlag := true } :=
            h.overwrite rfl fun r hr => List.getElem?_set_ne (Ne.symm hr)
          refine .of_step (Machine.host_step hcode.head rfl
            (Machine.step_matchWild hcode.head hbank hv)) ?_
          refine simulates_from (guardedEval_sim hE hL body hat hcode.tail (hhost.keeps hkeep))
            hkeep
            rfl rfl ?_
          rw [List.length_cons, Nat.add_comm]
      · trivial
  | ⟨.bind name, body⟩ :: arms, c, pos, dst, scrReg, s, env, fr, rest, depth, v, v', world, hdst,
      hscr, hv, hvrel, h, hcode, hhost => by
      simp only [compileArms, RefProgram.guardedArms] at hcode hhost ⊢
      split
      · next hlast =>
          obtain rfl := List.isEmpty_iff.mp hlast
          simp only [compileArms, List.append_nil] at hcode hhost ⊢
          exact simulates_self rfl (guardedEval_sim hE hL body (h.bind name hv hdst.ne' hscr hvrel)
            hcode (hhost.of_extends (Compiler.removeLocals_extends _ _)))
      · trivial
  -- The test and its jump are those of an `if`, with the arms behind as its else branch.
  | ⟨.lit val, body⟩ :: arms, c, pos, dst, scrReg, s, env, fr, rest, depth, v, v',
      world, hdst, hscr,
      hv, hvrel, h, hcode, hhost => by
      simp only [compileArms, RefProgram.guardedArms,
        Nat.max_eq_left (hdst.trans hscr)] at hcode hhost ⊢
      have htest := ((Spec.alloc s).append
        (.addConstant ((Spec.alloc s).ready h.ready).toTidy val)).free h.ready.toTidy
      have hb := compileNode_spec body pos (htest.ready h.ready).toTidy h.dst_lt
      have hboth := htest.append hb
      have hnext := hboth.nextReg
      obtain ⟨hfitsRest, hhost⟩ := hhost.noteJump
      obtain ⟨hfitsBody, hhostRest⟩ := hhost.noteJump
      have hrest := compileArms_spec arms pos (hboth.ready h.ready).toTidy hdst (by omega)
      have hhostBody := hhostRest.of_extends hrest.ext
      have hhostVal : Hosted m fr (s.allocReg.addConstant val) :=
        hhostBody.of_extends ((Compiler.freeRegTo_extends _ _).trans hb.ext)
      have hinline := h.inlineOk.eq_false hcode.left.tail.tail.head rfl
      have hbank : s.nextReg < fr.registers.length :=
        lt_of_lt_of_le (by
          rw [Compiler.addConstant_maxReg]
          exact Nat.le_max_right s.maxReg _) hhostVal.registers
      have hsim := ite_sim rest depth [⟨.loadConst, s.nextReg, s.allocReg.constantIndex val, 0⟩,
          ⟨.eq, s.nextReg, scrReg, s.nextReg⟩] (c := c)
        (fun world => P.guardedEval enter c body env world)
        (fun world => P.guardedArms enter ((c.forget (lost body)).grow (leak body)) arms v env
          world)
        (literal_sim world (k := k) hinline hv hvrel hscr.ne hbank hhostVal hcode.left.left)
        h.dst_lt.le hfitsBody hfitsRest hhost.short hcode
        (fun fr' world hkeep hcodeBody => by
          have hat := h.after htest hkeep
          rw [List.append_nil, Site.forget_nil, Site.grow_zero] at hat
          exact guardedEval_sim hE hL body hat hcodeBody (hhostBody.keeps hkeep))
        (fun fr' world hkeep hcodeRest =>
          simulates_self rfl (guardedArms_sim hE hL arms hdst (by omega)
          (hkeep.holds hscr hv) hvrel
          (h.after (hboth.congr (Nat.zero_add _) (fun _ _ => Iff.rfl) (fun _ => Iff.rfl) rfl) hkeep)
          hcodeRest (hhostRest.keeps hkeep)))
      cases hequal : v.rtValuesEqual val.toRt with
      | true => simpa only [hequal, Outcome.bind_ok, if_true, List.cons_append,
          List.nil_append] using hsim
      | false =>
        simpa only [hequal, Outcome.bind_ok, Bool.false_eq_true, if_false, List.cons_append,
          List.nil_append] using hsim
  | ⟨.variant tag subPats, body⟩ :: arms, c, pos, dst, scrReg, s, env, fr, rest,
      depth, v, v', world,
      hdst, hscr, hv, hvrel, h, hcode, hhost => by
      simp only [compileArms, RefProgram.guardedArms, Compiler.addConstant_nextReg,
        Nat.max_eq_left (hdst.trans hscr)] at hcode hhost ⊢
      have htag := (Spec.addConstant h.ready.toTidy (.str tag)).append (.alloc _)
      have hst := htag.ready h.ready
      have hnextTag := htag.nextReg
      have hfields := bindFields_spec subPats hst.toTidy (show s.nextReg < _ by omega)
      have hsf := hfields.ready hst
      have hnextFields := hfields.nextReg
      have hb := compileNode_spec body pos hsf.toTidy (show dst < _ by omega)
      have harm := (((htag.append hfields).append hb).remove (IRPattern.bindingsList subPats)
        (by simp)).free h.ready.toTidy
      have hrest := compileArms_spec arms pos (harm.ready h.ready).toTidy hdst hscr
      obtain ⟨hfitsRest, hhost⟩ := hhost.noteJump
      obtain ⟨hfitsBody, hhostRest⟩ := hhost.noteJump
      have hhostBody := hhostRest.of_extends (((Compiler.removeLocals_extends _ _).trans
        (Compiler.freeRegTo_extends _ _)).trans hrest.ext)
      have hhostFields := hhostBody.of_extends hb.ext
      have hname : Hosted m fr (s.addConstant (.str tag)) :=
        hhostFields.of_extends ((Compiler.allocReg_extends _).trans hfields.ext)
      have hbank : s.nextReg < fr.registers.length :=
        lt_of_lt_of_le (by omega) (hfields.nextReg_le.trans hhostFields.registers)
      have hinline := h.inlineOk.eq_false hcode.left.left.tail.head rfl
      have hcodeRest := hcode.right.tail
      have hjump := hcode.right.head
      have hend := (hcode.length_le (by simp)).trans_lt hhost.short
      simp only [List.length_append, List.length_cons] at hcodeRest hjump hend ⊢
      cases hmatch : matchPattern (.variant tag subPats) v with
      | some binds =>
        simp only
        split
        · next hindexable =>
            obtain ⟨inner, rfl, hmatchFields⟩ := matchPattern_variant hmatch
            cases hvrel with
            | variant _ hrel =>
            obtain ⟨fr', hrun, hkeep, hip, hagree⟩ :=
              variantHit_runs rest depth world hinline h.ready hhostFields hv hrel hmatchFields
              hindexable hcode.left.left h.agree
            have hat : At P m inline ((c.bindAll (IRPattern.bindingsList subPats)).grow
                (1 + fieldsRegs subPats)) pos dst
                (bindFields subPats s.nextReg (s.addConstant (.str tag)).allocReg).state
                (binds ++ env) fr' :=
              { ready := hsf
                agree := hagree
                inlineOk := hkeep.func ▸ h.inlineOk
                gap := by
                  have hgap := h.gap
                  simp only [Site.grow, Site.bindAll]
                  omega
                apart := bindFields_apart subPats hst.toTidy (by omega) (by omega) (by omega)
                  (htag.apart h.apart)
                tail := hkeep.func ▸ h.tail }
            have hcodeBody := hcode.left.right
            simp only [List.length_cons] at hcodeBody
            refine hrun.simulates (simulates_from (simulates_jump (guardedEval_sim hE hL body hat
              ?_ (hhostBody.keeps hkeep)) hfitsRest (by rw [hip]; omega) ?_ rfl)
                (hkeep.mono h.dst_lt.le) hip rfl (by omega))
            · refine CodeAt.keeps ?_ hkeep hip
              convert hcodeBody using 1
              omega
            · rw [hkeep.func, hip]
              convert hjump using 2
              omega
        · trivial
      | none =>
        simp only
        split
        · trivial
        next hmiss =>
        obtain ⟨fr', hrun, hkeep, hip⟩ := variantMiss_runs rest depth world hinline hv
          hvrel (by simpa using hmiss) hname.stringConstant hfitsBody
          (by omega) hcode.left.left
        have hat := h.after (harm.congr rfl
          (fun x _ => show x ∈ _ ↔ x ∈ IRPattern.bindingsList subPats ++ lost body by
            simp [or_comm]) (fun _ => Iff.rfl) rfl) (hkeep s.nextReg)
        rw [Site.grow_zero] at hat
        refine hrun.simulates (simulates_from (guardedArms_sim hE hL arms hdst (by exact hscr)
          ((hkeep s.nextReg).holds hscr hv) hvrel hat ?_ (hhostRest.keeps (hkeep 0)))
            (hkeep dst) hip
          rfl (by omega))
        refine CodeAt.keeps ?_ (hkeep 0) hip
        convert hcodeRest using 1
        omega

end

end Airl
