import Airl.Correctness.Expressions

/-! # The simulation of activations

A frame that has been entered checks the preconditions, runs the body, checks
invariants and postconditions and is about to return what the guarded evaluator
returns.
-/

namespace Airl

open Transition (Host Outcome)

variable {World : Type} {P : RefProgram World} {m : Machine World} {inline : Bool} {k : Nat}
  {enter : Bool → Target → List RefValue → World → Res World RefValue}
  {c : Site} {s : Compiler} {env : Env} {fr : Frame} {rest : List Frame} {depth : Nat}
  {world : World}

/-- Clauses lose the names that their nodes lose. -/
theorem Site.afterClauses_eq (c : Site) (clauses : List Clause) :
    c.afterClauses clauses = c.forget (lostList (clauses.map Clause.ir)) := by
  induction clauses generalizing c with
  | nil => exact c.forget_nil.symm
  | cons clause clauses ih =>
    rw [Site.afterClauses, ih, List.map_cons, lostList, Site.forget_append]

theorem Machine.assertKind_cases {op : Op} {kind : ContractKind}
    (h : Machine.assertKind op = some kind) :
    op = .assertRequires ∨ op = .assertEnsures ∨ op = .assertInvariant := by
  unfold Machine.assertKind at h
  split at h <;> simp at h ⊢

theorem getElem?_of_initial {α : Type} {xs ys : List α} (h : xs <+: ys) {i : Nat} {x : α}
    (hx : xs[i]? = some x) : ys[i]? = some x := by
  obtain ⟨zs, rfl⟩ := h
  rw [List.getElem?_append_left (List.getElem?_eq_some_iff.mp hx).1]
  exact hx

theorem sameInline_of_assert {op : Op} {kind : ContractKind}
    (h : Machine.assertKind op = some kind) : sameInline op = true := by
  rcases Machine.assertKind_cases h with rfl | rfl | rfl <;> rfl

/-- All clauses hold, and the frame has gone on behind them. -/
def ClausesDone (lo count : Nat) (fr : Frame) (rest : List Frame) (depth : Nat) (_ : Unit)
    (world : World) (vm : Vm World) : Prop :=
  ∃ fr', vm = ⟨fr' :: rest, depth, world⟩ ∧ fr.Keeps lo fr' ∧ fr'.ip = fr.ip + count

variable (rest depth world) in
/-- One clause: its value is asserted, and a violation names the clause. -/
theorem clause_sim (hE : Enters P m inline k enter) (hL : Linked P m) (node : IRNode)
    (h : Inside m inline c s env fr)
    (hcode : CodeAt fr.func.instructions fr.ip (compileNode node .value s.nextReg s.allocReg).code)
    (hhost : Hosted m fr (compileNode node .value s.nextReg s.allocReg).state) :
    (m.host inline).Simulates k ⟨fr :: rest, depth,
      world⟩ (P.guardedEval enter c.temp node env world)
      (Done m s.nextReg (compileNode node .value s.nextReg s.allocReg).code.length fr rest depth) :=
  simulates_temp (guardedEval_sim hE hL node (h.temp P) hcode hhost)

/-- A list of clauses, by induction: the first that fails ends it. -/
theorem guardedClauses_sim (hE : Enters P m inline k enter) (hL : Linked P m) {op : Op}
    {kind : ContractKind} (hop : Machine.assertKind op = some kind) {name : String} {idx : Nat}
    (clauses : List Clause) (h : Inside m inline c s env fr)
    (hname : clauses ≠ [] → s.constants[idx]? = some (.str name))
    (hcode : CodeAt fr.func.instructions fr.ip (compileClauses op idx clauses s).code)
    (hhost : Hosted m fr (compileClauses op idx clauses s).state) :
    (m.host inline).Simulates k ⟨fr :: rest, depth, world⟩
      (P.guardedClauses enter name kind env c clauses world)
      (ClausesDone s.nextReg (compileClauses op idx clauses s).code.length fr rest depth) := by
  induction clauses generalizing c s fr world with
  | nil => exact Host.simulates_ok ⟨fr, rfl, .refl _ fr, rfl⟩
  | cons clause clauses ih =>
    simp only [compileClauses, compileExpr, RefProgram.guardedClauses] at hcode hhost ⊢
    have hsource := Spec.addConstant h.ready.toTidy (.str clause.source)
    have hsite := h.after hsource (.refl _ fr)
    rw [Site.forget_nil] at hsite
    have hclause := (compileNode_spec clause.ir .value ((Spec.alloc _).ready hsite.ready).toTidy
      (Nat.lt_succ_self ((s.addConstant (.str clause.source)).nextReg))).temp
    have hsim := fun hcode hhost => clause_sim rest depth world hE hL clause.ir hsite hcode hhost
    have hnames := hname (List.cons_ne_nil _ _)
    generalize compileNode clause.ir .value (s.addConstant (.str clause.source)).nextReg
      (s.addConstant (.str clause.source)).allocReg = e at hclause hsim hcode hhost ⊢
    have hfree := hclause.free hsite.ready.toTidy
    have hrest := compileClauses_spec (Machine.assertKind_cases hop) clauses
      (hfree.ready hsite.ready).toTidy fun _ =>
        lt_of_lt_of_le (List.getElem?_eq_some_iff.mp hnames).1
        ((hsource.ext.trans hfree.ext).constants.length_le)
    have hhostClause := hhost.of_extends ((Compiler.freeRegTo_extends _ _).trans hrest.ext)
    have hhostName := hhostClause.of_extends hclause.ext
    refine (hsim hcode.left hhostClause).bind fun v world vm hdone => ?_
    obtain ⟨fr', v', rfl, hkeep, hip, hv, hvrel⟩ := hdone
    have hassert := CodeAt.keeps hcode.right hkeep hip
    have hconst :=
      getElem?_of_initial ((hhostName.keeps hkeep).of_extends hsource.ext).constants hnames
    split
    · cases hvrel
      refine .of_step (Machine.host_step hassert.head (sameInline_of_assert hop)
        (Machine.step_assert_holds hop hassert.head hv)) ?_
      have hkeep' := hkeep.trans (.advance (s.addConstant (.str clause.source)).nextReg fr' 1)
      refine (ih (hsite.after hfree hkeep') (fun _ => getElem?_of_initial
        (hsource.ext.trans hfree.ext).constants hnames) hassert.tail (hhost.keeps hkeep')).mono ?_
      rintro - w vm ⟨fr'', rfl, hkeep'', hip''⟩
      rw [Compiler.addConstant_nextReg] at hkeep' hkeep''
      refine ⟨fr'', rfl, hkeep'.trans hkeep'', ?_⟩
      rw [hip'', Frame.advance_ip, hip, List.length_append, List.length_cons]
      omega
    · next hfails =>
        have hne : v' ≠ .bool true := by
          rintro rfl
          cases hvrel
          exact hfails rfl
        exact fault_sim hassert.head (sameInline_of_assert hop) (Machine.step_assert_fails hop
          hassert.head hv hne hconst (hhostName.keeps hkeep).stringConstant) (.refl _)

theorem CodeAt.self (code : List Instruction) : CodeAt code 0 code := by
  intro i instr hi
  rwa [Nat.zero_add]

theorem Frame.HoldsFrom.tail {start : Nat} {v : VmValue} {vals : List VmValue}
    (h : fr.HoldsFrom start (v :: vals)) : fr.HoldsFrom (start + 1) vals := by
  intro i w hw
  have hnext := h (i := i + 1) hw
  rwa [show start + (i + 1) = start + 1 + i by omega] at hnext

/-- Captures and parameters are bound one after the other. -/
theorem bindParams_append (names params : List String) (i : Nat) (s : Compiler) :
    Compiler.bindParams (names ++ params) i s =
      Compiler.bindParams params (i + names.length) (Compiler.bindParams names i s) := by
  induction names generalizing i s with
  | nil => rfl
  | cons name names ih =>
    rw [List.cons_append, Compiler.bindParams, Compiler.bindParams, ih, List.length_cons,
      show i + 1 + names.length = i + (names.length + 1) by omega]

theorem Frame.HoldsFrom.left {start : Nat} {vals vals' : List VmValue}
    (h : fr.HoldsFrom start (vals ++ vals')) : fr.HoldsFrom start vals := by
  intro i v hv
  refine h ?_
  rw [List.getElem?_append_left (List.getElem?_eq_some_iff.mp hv).1]
  exact hv

theorem Frame.HoldsFrom.right {start : Nat} {vals vals' : List VmValue}
    (h : fr.HoldsFrom start (vals ++ vals')) : fr.HoldsFrom (start + vals.length) vals' := by
  intro i v hv
  have hnext := h (i := vals.length + i) (by
    rw [List.getElem?_append_right (Nat.le_add_right _ _), Nat.add_sub_cancel_left]
    exact hv)
  rwa [← Nat.add_assoc] at hnext

/-- Parameters are known by the registers of the arguments. -/
theorem Agree.bindParams {scope : String → Bool} {params : List String} {args : List RefValue}
    {args' : List VmValue} {i : Nat} (h : Agree m scope s env fr)
    (hcount : args.length = params.length) (hargs : ValuesRel m args args')
    (hholds : fr.HoldsFrom i args') :
    Agree m (fun x => decide (x ∈ params) || scope x) (Compiler.bindParams params i s)
      (bindArgs params args ++ env) fr := by
  induction params generalizing s env args args' i scope with
  | nil => exact h.congr (by simp) rfl
  | cons param params ih =>
    cases hargs with
    | nil => simp at hcount
    | @cons v v' args args' hv hargs =>
    have hbound := h.bind param (hholds (i := 0) rfl) hv
    have hnext : Agree m (fun x => x == param || scope x)
        { s.insertLocal param i with nextReg := i + 1, maxReg := i + 1 } ((param, v) :: env) fr :=
      hbound.congr (fun _ => rfl) rfl
    have hall := ih hnext (Nat.succ.inj hcount) hargs hholds.tail
    rw [show bindArgs (param :: params) (v :: args) ++ env =
      bindArgs params args ++ (param, v) :: env by simp [bindArgs]]
    refine hall.congr (fun x => ?_) rfl
    by_cases hx : x = param <;> by_cases hmem : x ∈ params <;> simp [hx, hmem]

/-- Captures as well, as far as they are in scope. -/
theorem Agree.bindCaptures {scope : String → Bool} {names : List String} {vals : List RefValue}
    {caps : List VmValue} {i : Nat} (h : Agree m scope s env fr)
    (hvals : names.map (fun x => env.lookup x) = vals.map some) (hcaps : ValuesRel m vals caps)
    (hholds : fr.HoldsFrom i caps) :
    Agree m (fun x => decide (x ∈ names) || scope x) (Compiler.bindParams names i s) env fr := by
  induction names generalizing s vals caps i scope with
  | nil => exact h.congr (by simp) rfl
  | cons name names ih =>
    cases hcaps with
    | nil => simp at hvals
    | @cons v v' vals caps hv hcaps =>
    simp only [List.map_cons, List.cons.injEq] at hvals
    have hnext : Agree m (fun x => x == name || scope x)
        { s.insertLocal name i with nextReg := i + 1, maxReg := i + 1 } env fr := by
      refine ⟨fun x => ?_, fun {x r} hx => ?_⟩
      · by_cases hx : x = name <;> simp [Compiler.insertLocal, hx, h.scope]
      · simp only [Compiler.insertLocal] at hx
        split at hx
        · next heq =>
            obtain rfl := Option.some.inj hx
            exact ⟨v, v', heq ▸ hvals.1, hholds (i := 0) rfl, hv⟩
        · exact h.holds hx
    refine (ih hnext hvals.2 hcaps hholds.tail).congr (fun x => ?_) rfl
    by_cases hx : x = name <;> by_cases hmem : x ∈ names <;> simp [hx, hmem]

theorem Site.afterClauses_self (c : Site) (clauses : List Clause) :
    (c.afterClauses clauses).self = c.self := by
  rw [Site.afterClauses_eq]
  rfl

theorem Site.afterClauses_gap (c : Site) (clauses : List Clause) :
    (c.afterClauses clauses).gap = c.gap := by
  rw [Site.afterClauses_eq]
  rfl

/-- Inside a function a name is bound to a register. -/
theorem Inside.bind (h : Inside m inline c s env fr) (name : String) {r : Nat} {v : RefValue}
    {v' : VmValue} (hr : fr.Holds r v') (hlt : r < s.nextReg) (hv : ValueRel m v v') :
    Inside m inline (c.bind name) (s.insertLocal name r) ((name, v) :: env) fr where
  ready := (Spec.insertLocal h.ready.toTidy name hlt).ready h.ready
  agree := h.agree.bind name hr hv
  inlineOk := h.inlineOk

variable (rest depth world) in
/-- A list of clauses inside an activation. -/
theorem clauses_sim (hE : Enters P m inline k enter) (hL : Linked P m) {op : Op}
    {kind : ContractKind}
    (hop : Machine.assertKind op = some kind) {name : String} {idx : Nat} {clauses : List Clause}
    (h : Inside m inline c s env fr) (hname : clauses ≠ [] → s.constants[idx]? = some (.str name))
    (hcode : CodeAt fr.func.instructions fr.ip (compileClauses op idx clauses s).code)
    (hhost : Hosted m fr (compileClauses op idx clauses s).state) :
    (m.host inline).Simulates k ⟨fr :: rest, depth, world⟩
      (P.guardedClauses enter name kind env c clauses world) fun _ world vm =>
        ∃ fr', vm = ⟨fr' :: rest, depth, world⟩ ∧ fr.Keeps s.nextReg fr' ∧
          fr'.ip = fr.ip + (compileClauses op idx clauses s).code.length ∧
          Inside m inline (c.afterClauses clauses)
            (compileClauses op idx clauses s).state env fr' := by
  refine (guardedClauses_sim hE hL hop clauses h hname hcode hhost).mono ?_
  rintro - world vm ⟨fr', rfl, hkeep, hip⟩
  refine ⟨fr', rfl, hkeep, hip, ?_⟩
  rw [Site.afterClauses_eq]
  exact h.after (compileClauses_spec (Machine.assertKind_cases hop) clauses h.ready.toTidy
    fun hne => (List.getElem?_eq_some_iff.mp (hname hne)).1) hkeep

/-- The code behind the body only adds to the state. -/
theorem epilogue_extends {idx : Nat} {name : String} {invariants ensures : List Clause}
    (hs : Ready s)
    (hname : invariants ++ ensures ≠ [] → s.constants[idx]? = some (.str name)) :
    Extends s (compileClauses .assertEnsures idx ensures
      (compileClauses .assertInvariant idx invariants s).state).state := by
  have hinv := compileClauses_spec (Or.inr (Or.inr rfl)) invariants hs.toTidy
    fun hne => (List.getElem?_eq_some_iff.mp (hname (by simp [hne]))).1
  have hens := compileClauses_spec (Or.inr (Or.inl rfl)) ensures
    (hinv.ready hs).toTidy fun hne => (List.getElem?_eq_some_iff.mp
      (getElem?_of_initial hinv.ext.constants (hname (by simp [hne])))).1
  exact hinv.ext.trans hens.ext

/-- What follows the body: invariants, postconditions and the return of the result. -/
theorem epilogue_sim (hE : Enters P m inline k enter) (hL : Linked P m) {name : String}
    {idx dst : Nat} {invariants ensures : List Clause} {v : RefValue} {v' : VmValue}
    (h : Inside m inline c s env fr) (hdst : dst < s.nextReg) (hv : fr.Holds dst v')
    (hvrel : ValueRel m v v')
    (hname : invariants ++ ensures ≠ [] → s.constants[idx]? = some (.str name))
    (hcode : CodeAt fr.func.instructions fr.ip
      ((compileClauses .assertInvariant idx invariants s).code ++
        (compileClauses .assertEnsures idx ensures
          (compileClauses .assertInvariant idx invariants s).state).code ++ [⟨.ret, 0, dst, 0⟩]))
    (hhost : Hosted m fr (compileClauses .assertEnsures idx ensures
      (compileClauses .assertInvariant idx invariants s).state).state) :
    (m.host inline).Simulates k ⟨fr :: rest, depth, world⟩
      ((P.guardedClauses enter name .invariant env c invariants world).bind fun _ world =>
        (P.guardedClauses enter name .ensures env (c.afterClauses invariants) ensures world).bind
          fun _ world => .ok v world)
      (AtReturn m rest depth fr.returnReg) := by
  have hinvName : invariants ≠ [] → s.constants[idx]? = some (.str name) := fun hne =>
    hname (by simp [hne])
  have hinv := compileClauses_spec (Or.inr (Or.inr rfl)) invariants h.ready.toTidy
    fun hne => (List.getElem?_eq_some_iff.mp (hinvName hne)).1
  have hensName : ensures ≠ [] →
      (compileClauses .assertInvariant idx invariants s).state.constants[idx]?
      = some (.str name) := fun hne =>
    getElem?_of_initial hinv.ext.constants (hname (by simp [hne]))
  have hens := compileClauses_spec (Or.inr (Or.inl rfl)) ensures (hinv.ready h.ready).toTidy
    fun hne => (List.getElem?_eq_some_iff.mp (hensName hne)).1
  refine (clauses_sim _ _ _ hE hL  (show Machine.assertKind .assertInvariant = some _ from rfl) h
    hinvName hcode.left.left
    (hhost.of_extends hens.ext)).bind fun _ world vm hdone => ?_
  obtain ⟨fr₁, rfl, hkeep₁, hip₁, hinside₁⟩ := hdone
  refine (clauses_sim _ _ _ hE hL  (show Machine.assertKind .assertEnsures = some _ from rfl)
    hinside₁ hensName
    (CodeAt.keeps hcode.left.right hkeep₁ hip₁) (hhost.keeps hkeep₁)).bind fun _ world
      vm hdone => ?_
  obtain ⟨fr₂, rfl, hkeep₂, hip₂, -⟩ := hdone
  have hnext := hinv.nextReg
  have hkeep := hkeep₁.trans (hkeep₂.mono (by omega))
  have hret := (CodeAt.keeps hcode.right hkeep (by rw [hip₂, hip₁, List.length_append]; omega)).head
  exact Host.simulates_ok ⟨fr₂, 0, dst, 0, v', rfl, hkeep.returnReg, hret,
    hkeep.holds hdst hv, hvrel⟩

variable (rest depth world) in
/-- An activation: its preconditions, its body, then the other clauses. -/
theorem activation_sim (contracts : Contracts) (hE : Enters P m inline k enter) (hL : Linked P m)
    {name : String} {idx : Nat}
    {body : IRNode} (h : Inside m inline c s env fr) (hgap : c.gap = 0)
    (htail : TailOk P m c (.tail name) fr.func)
    (hrestarts : c.Restarts P → contracts.invariants = [] ∧ contracts.ensures = [])
    (hname : contracts.requires ++ contracts.invariants ++ contracts.ensures ≠ [] →
      s.constants[idx]? = some (.str name))
    (hcode : CodeAt fr.func.instructions fr.ip (compileActivation name idx contracts body s).code)
    (hhost : Hosted m fr (compileActivation name idx contracts body s).state) :
    (m.host inline).Simulates k ⟨fr :: rest, depth, world⟩
      ((P.guardedClauses enter name .requires env c contracts.requires world).bind fun _ world =>
        (P.guardedEval enter (c.afterClauses contracts.requires) body env world).bind
          fun result world =>
            (P.guardedClauses enter name .invariant (("result", result) :: env)
              (((c.afterClauses contracts.requires).forget (lost body)).bind "result")
              contracts.invariants world).bind fun _ world =>
                (P.guardedClauses enter name .ensures (("result", result) :: env)
                  ((((c.afterClauses contracts.requires).forget (lost body)).bind
                    "result").afterClauses contracts.invariants) contracts.ensures world).bind
                  fun _ world => .ok result world)
      (AtReturn m rest depth fr.returnReg) := by
  simp only [compileActivation] at hcode hhost
  have hreqName : contracts.requires ≠ [] → s.constants[idx]? = some (.str name) := fun hne =>
    hname (by simp [hne])
  have hreq := compileClauses_spec (Or.inl rfl) contracts.requires h.ready.toTidy
    fun hne => (List.getElem?_eq_some_iff.mp (hreqName hne)).1
  have hreqSim := fun hcode hhost => clauses_sim rest depth world hE hL
    (show Machine.assertKind .assertRequires = some _ from rfl) h hreqName hcode hhost
  generalize compileClauses .assertRequires idx contracts.requires s = req at *
  have hsr := hreq.ready h.ready
  have hbody := compileNode_spec body (.tail name) ((Spec.alloc _).ready hsr).toTidy
    (Nat.lt_succ_self req.state.nextReg)
  have hb := hbody.temp
  have hsb := hb.ready hsr
  have hnext := hb.nextReg
  have hres := Spec.insertLocal hsb.toTidy "result" (r := req.state.nextReg) (by omega)
  have hsres := hres.ready hsb
  have hnextRes := hres.nextReg
  have hepiName : contracts.invariants ++ contracts.ensures ≠ [] →
      ((compileNode body (.tail name) req.state.nextReg req.state.allocReg).state.insertLocal
        "result"
        req.state.nextReg).constants[idx]? = some (.str name) := fun hne =>
    getElem?_of_initial ((hreq.ext.trans hb.ext).trans hres.ext).constants (hname (by
      rw [List.append_assoc]
      exact List.append_ne_nil_of_right_ne_nil _ hne))
  have hext := epilogue_extends hsres hepiName
  -- The requires clauses run first, then the body with its result in a register.
  refine (hreqSim hcode.left.left.left.left (hhost.of_extends
    (hb.ext.trans (hres.ext.trans hext)))).bind fun _ world vm hdone => ?_
  obtain ⟨fr₁, rfl, hkeep₁, hip₁, hinside₁⟩ := hdone
  have hat : At P m inline (c.afterClauses contracts.requires) (.tail name) req.state.nextReg
      req.state.allocReg env fr₁ :=
    { ready := (Spec.alloc _).ready hsr
      agree := hinside₁.agree.congr (fun _ => rfl) rfl
      inlineOk := hinside₁.inlineOk
      gap := by
        rw [Site.afterClauses_gap, hgap]
        rfl
      apart := fun _ hx => lt_irrefl _ (hsr.locals_lt hx)
      tail := by
        rw [hkeep₁.func]
        simpa only [TailOk, Site.afterClauses_self] using htail }
  refine (guardedEval_sim hE hL body hat (CodeAt.keeps hcode.left.left.left.right hkeep₁ hip₁)
    ((hhost.of_extends (hres.ext.trans hext)).keeps hkeep₁)).bind fun v world vm hpost => ?_
  rcases hpost with ⟨fr₂, v', rfl, hkeep₂, hip₂, hv, hvrel⟩ | ⟨⟨self, fd, hself, hfd⟩, hreturn⟩
  · have hkeep : fr.Keeps 0 fr₂ := (hkeep₁.mono (Nat.zero_le _)).trans (hkeep₂.mono (Nat.zero_le _))
    have hinside₂ := (hinside₁.after hb hkeep₂).bind "result" hv (by omega) hvrel
    rw [← hkeep.returnReg]
    refine epilogue_sim hE hL hinside₂ (by omega) hv hvrel hepiName
      (CodeAt.keeps ?_ hkeep (show _ = _ + (req.code.length + (compileNode body (.tail name)
        req.state.nextReg req.state.allocReg).code.length) by omega)) (hhost.keeps hkeep)
    have hcode' := hcode
    simp only [List.append_assoc] at hcode'
    have hright := hcode'.right.right
    rw [List.append_assoc, ← Nat.add_assoc]
    exact hright
  · obtain ⟨hinv, hens⟩ := hrestarts ⟨self, fd, by rwa [Site.afterClauses_self] at hself, hfd⟩
    rw [hinv, hens]
    exact Host.simulates_ok (hkeep₁.returnReg ▸ hreturn)

/-- A compiled function is entered with its arguments in its first registers. -/
theorem Compiled.entered {name : String} {params : List String} {contracts : Contracts}
    {body : IRNode}
    {func : BytecodeFunc} {vals : List VmValue} (h : Compiled m name params contracts body func)
    (hentry : Entry func vals fr) :
    ∃ (base : Compiler) (idx : Nat), base.locals = (fun _ => none) ∧
      Ready (Compiler.bindParams params 0 base) ∧
      (contracts.requires ++ contracts.invariants ++ contracts.ensures ≠ [] →
        (Compiler.bindParams params 0 base).constants[idx]? = some (.str name)) ∧
      CodeAt fr.func.instructions fr.ip
        (compileActivation name idx contracts body (Compiler.bindParams params 0 base)).code ∧
      Hosted m fr
        (compileActivation name idx contracts body (Compiler.bindParams params 0 base)).state := by
  obtain ⟨base, idx, hbase, hlocals, hnext, hmax, hunit, hname, hinstrs, hconsts, hcount, hjumps,
    hlambdas⟩ := h.code
  have hinner := bindParams_ready params hbase hnext hmax
  have hname' : contracts.requires ++ contracts.invariants ++ contracts.ensures ≠ [] →
      (Compiler.bindParams params 0 base).constants[idx]? = some (.str name) := fun hne => by
    rw [(bindParams_fields params 0 base).2.2.2.1]
    exact hname hne
  obtain ⟨regs, gone, hspec⟩ := compileActivation_spec name idx contracts body hinner.toTidy
    fun hne => (List.getElem?_eq_some_iff.mp (hname' hne)).1
  refine ⟨base, idx, hlocals, hinner, hname', ?_, ?_⟩
  · rw [hentry.code, hentry.ip, hinstrs]
    exact .self _
  · exact
      { constants := (show _ = fr.func.constants by rw [hentry.code, hconsts]) ▸ List.prefix_refl _
        registers := by rw [hentry.bank, hcount]
        bank := by rw [hentry.bank, hentry.code]
        jumps := hjumps
        short := hentry.code.symm ▸ h.short
        shorts := h.shorts
        lambdas := hlambdas
        unitPrefix := by
          rw [hspec.ext.unitPrefix, (bindParams_fields params 0 base).2.2.1, hunit] }

variable (m env fr) in
/-- Before the parameters nothing is known. -/
theorem agree_empty {base : Compiler} (hlocals : base.locals = fun _ => none) :
    Agree m (fun _ => false) base env fr :=
  ⟨fun x => by simp [hlocals], fun {x r} hx => by simp [hlocals] at hx⟩

/-- An evaluator that always departs claims nothing. -/
theorem Enters.departs (h : Enters P m inline k enter) :
    Enters P m inline k (fun _ _ _ _ => .departs) where
  call _ _ _ _ _ _ := trivial
  inlined world htarget hargs hcount hsimple :=
    ⟨(h.inlined world htarget hargs hcount hsimple).1, trivial⟩

/-- Entering a named function does what its activation does. -/
theorem named_sim (hE : Enters P m inline k enter) (hL : Linked P m) (hinline : inline = false)
    {name : String} {fd : FuncDef} {caps : List VmValue} {func : BytecodeFunc}
    {args : List RefValue} {args' : List VmValue} (flag : Bool)
    (htarget : TargetRel P m (.named name fd) caps func) (hargs : ValuesRel m args args')
    (hcount : args.length = fd.params.length) (hentry : Entry func (caps ++ args') fr) :
    (m.host inline).Simulates k ⟨fr :: rest, depth, world⟩
      (P.guardedActivate enter flag (.named name fd) args world)
        (AtReturn m rest depth fr.returnReg) := by
  cases htarget with
  | named hcompiled hself =>
    obtain ⟨base, idx, hlocals, hready, hname, hcode, hhost⟩ := hcompiled.entered hentry
    have hagree := (agree_empty m [] fr hlocals).bindParams hcount hargs hentry.holds
    simp only [List.append_nil, Bool.or_false] at hagree
    have hinside : Inside m inline
        (RefProgram.entrySite (fun x => decide (x ∈ fd.params)) (some name) false)
        (Compiler.bindParams fd.params 0 base) (bindArgs fd.params args) fr :=
      { ready := hready
        agree := hagree
        inlineOk := by simp [InlineOk, hinline] }
    refine activation_sim _ _ _ _ hE hL hinside rfl (Or.inl ⟨rfl, fun fd' hreserved hfd' => ?_⟩)
      (fun hrestarts => ?_) hname hcode hhost
    · obtain rfl : fd = fd' := Option.some.inj ((hself hreserved).symm.trans hfd')
      exact hentry.code.symm ▸ .named hcompiled hself
    · obtain ⟨name', fd', hname', hreserved, hfd', hclauses⟩ := hrestarts
      obtain rfl : name = name' := Option.some.inj hname'
      obtain rfl : fd = fd' := Option.some.inj ((hself hreserved).symm.trans hfd')
      exact hclauses

variable (rest depth world) in
/-- So does entering a closure, with its captures first. -/
theorem closure_sim (hE : Enters P m inline k enter) (hL : Linked P m) {code : Lambda}
    {captured : List RefValue} {caps : List VmValue} {func : BytecodeFunc} {args : List RefValue}
    {args' : List VmValue} (flag : Bool)
    (hinline : inline = true → flag = true ∧ ∀ instr ∈ func.instructions,
      isSimpleOp instr.op = true)
    (htarget : TargetRel P m (.closure code captured) caps func) (hargs : ValuesRel m args args')
    (hcount : args.length = code.params.length) (hentry : Entry func (caps ++ args') fr) :
    (m.host inline).Simulates k ⟨fr :: rest, depth, world⟩
      (P.guardedActivate enter flag (.closure code captured) args world)
      (AtReturn m rest depth fr.returnReg) := by
  cases htarget with
  | @closure _ _ n _ _ vals hcompiled hvals hcaps =>
    obtain ⟨base, idx, hlocals, hready, hname, hcode, hhost⟩ := hcompiled.entered hentry
    have hlength : code.captureNames.length = caps.length := by
      have hlen := congrArg List.length hvals
      rw [List.length_map, List.length_map] at hlen
      rw [hlen, hcaps.length_eq]
    have hcaptured := (agree_empty m (code.env captured) fr hlocals).bindCaptures
      hvals hcaps hentry.holds.left
    have hagree := hcaptured.bindParams hcount hargs (hlength ▸ hentry.holds.right)
    rw [← bindParams_append] at hagree
    have hE' : Enters P m inline k (if flag then fun _ _ _ _ => .departs else enter) := by
      cases flag with
      | true => exact hE.departs
      | false => exact hE
    have hinside : Inside m inline
        (RefProgram.entrySite (fun x => decide (x ∈ code.captureNames ++ code.params)) none flag)
        (Compiler.bindParams (code.captureNames ++ code.params) 0 base)
        (bindArgs code.params args ++ code.env captured) fr :=
      { ready := hready
        agree := hagree.congr (fun x => by simp [RefProgram.entrySite, Bool.or_comm]) rfl
        inlineOk := fun h => ⟨(hinline h).1, hentry.code.symm ▸ (hinline h).2⟩ }
    have hsim := activation_sim rest depth world {} hE' hL hinside rfl
      (Or.inr ⟨rfl, reserved_lambdaName n⟩) (fun _ => ⟨rfl, rfl⟩) hname hcode hhost
    simpa only [RefProgram.guardedClauses, Outcome.bind_ok, Outcome.bind_ok_self,
      Site.afterClauses, RefProgram.guardedActivate] using hsim

end Airl
