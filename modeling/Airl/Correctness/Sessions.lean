import Mathlib.Logic.Relation
import Airl.Bytecode.Execution
import Airl.Correctness.Program

/-! # One machine, many executions

A REPL and an agent keep one `BytecodeVm` and execute one request after the
other on it. A request whose main loop returns an error leaves its frames on
the call stack, and the next request returns into them.
-/

namespace Airl

open Relation (ReflTransGen)

variable {World : Type}

/-- A top-level execution: `exec_main` or `call_by_name`. -/
inductive Request where
  | main
  | call (name : String) (args : List VmValue)

namespace Machine

variable (m : Machine World)

/-- A request up to its first pass of the main loop, on whatever the call stack holds. -/
def openRequest (vm : Vm World) : Request → Except Fault (Vm World)
  | .main =>
    if m.functions.all BytecodeFunc.valid then m.pushFrame "__main__" [] 0 vm
    else .error (.error .bytecodeValidation)
  | .call name args =>
    match m.lookup name with
    | none => .error (.error (.undefinedSymbol name))
    | some _ => m.pushFrame name (args.map fun v => some v.toRt) 0 vm

/-- One pass after which the main loop goes on. -/
def Advances (vm vm' : Vm World) : Prop := m.step vm = .ok (.running vm')

/-- `run`. An error leaves the loop at once: of the frame, only the position has advanced. The
world is then as the failing instruction left it. -/
inductive Loop : Vm World → Except RuntimeError VmValue → Vm World → Prop
  | finishes {vm : Vm World} {result : VmValue} {world : World}
      (hstep : m.step vm = .ok (.finished result world)) :
      Loop vm (.ok result) ⟨[], vm.recursionDepth - 1, world⟩
  | fails {fr : Frame} {rest : List Frame} {depth : Nat} {world world' : World} {e : RuntimeError}
      (hstep : m.step ⟨fr :: rest, depth, world⟩ = .error (.error e)) :
      Loop ⟨fr :: rest, depth, world⟩ (.error e) ⟨{ fr with ip := fr.ip + 1 } :: rest,
        depth, world'⟩
  | advances {vm vm' vm'' : Vm World} {result : Except RuntimeError VmValue}
      (hstep : m.Advances vm vm') (hloop : Loop vm' result vm'') : Loop vm result vm''

/-- A request from the call to its answer. -/
inductive Executes (vm : Vm World) (request : Request) :
    Except RuntimeError VmValue → Vm World → Prop
  | refused {e : RuntimeError} (hopen : m.openRequest vm request = .error (.error e)) :
      Executes vm request (.error e) vm
  | runs {vm₁ vm' : Vm World} {result : Except RuntimeError VmValue}
      (hopen : m.openRequest vm request = .ok vm₁) (hloop : m.Loop vm₁ result vm') :
      Executes vm request result vm'

/-- The request comes to an instruction that raises a `RuntimeError`. -/
def Raises (vm : Vm World) (request : Request) : Prop :=
  ∃ vm₁ vm₂ e, m.openRequest vm request = .ok vm₁ ∧ ReflTransGen m.Advances vm₁ vm₂ ∧
    m.step vm₂ = .error (.error e)

end Machine

/-- One execution of a session: the loaded functions, the request, the machine before and after. -/
structure Execution (World : Type) where
  machine : Machine World
  request : Request
  before : Vm World
  result : Except RuntimeError VmValue
  after : Vm World

/-- The executions so far on one machine that starts empty, and the state they lead to. Functions
are loaded at any time, and between executions the world goes its own way. -/
inductive Session (builtins : Builtins String World) (maxCallDepth : Nat) :
    List (Execution World) → Machine World → Vm World → Prop
  | new (world : World) :
      Session builtins maxCallDepth [] ⟨[], builtins, maxCallDepth⟩ ⟨[], 0, world⟩
  | load {es : List (Execution World)} {m : Machine World} {vm : Vm World} (func : BytecodeFunc)
      (hsession : Session builtins maxCallDepth es m vm) :
      Session builtins maxCallDepth es { m with functions := loadFunction m.functions func } vm
  | elapses {es : List (Execution World)} {m : Machine World} {vm : Vm World} (world : World)
      (hsession : Session builtins maxCallDepth es m vm) :
      Session builtins maxCallDepth es m { vm with world := world }
  | executes {es : List (Execution World)} {m : Machine World} {vm vm' : Vm World}
      {request : Request} {result : Except RuntimeError VmValue}
      (hsession : Session builtins maxCallDepth es m vm) (h : m.Executes vm request result vm') :
      Session builtins maxCallDepth (es ++ [⟨m, request, vm, result, vm'⟩]) m vm'

/-- The counter agrees with the call stack. -/
def Vm.Balanced (vm : Vm World) : Prop := vm.recursionDepth = vm.callStack.length

namespace Machine

variable {m : Machine World} {vm vm' : Vm World}

/-- The depth counts the frames that are pushed. -/
theorem pushFrame_balanced {name : String} {args : List (Option VmValue)} {returnReg : Nat}
    (hvm : vm.Balanced) (h : m.pushFrame name args returnReg vm = .ok vm') : vm'.Balanced := by
  unfold pushFrame at h
  split at h
  next => exact nomatch h
  next func _ =>
    split_ifs at h
    exact Except.ok.inj h ▸ congrArg (· + 1) hvm

theorem openRequest_balanced {request : Request} (hvm : vm.Balanced)
    (h : m.openRequest vm request = .ok vm') : vm'.Balanced := by
  unfold openRequest at h
  split at h
  next =>
    split_ifs at h
    exact pushFrame_balanced hvm h
  next =>
    split at h
    · exact nomatch h
    · exact pushFrame_balanced hvm h

/-- Every turn moves the counter as it moves the call stack. -/
theorem advances_balanced (hvm : vm.Balanced) (h : m.Advances vm vm') : vm'.Balanced := by
  obtain ⟨_ | ⟨fr, rest⟩, depth, world⟩ := vm
  · exact nomatch h
  have hdepth : depth = rest.length + 1 := hvm
  cases step_turn h with
  | stays => exact hdepth
  | enters => exact congrArg (· + 1) hdepth
  | leaves hrest =>
    subst hrest
    exact Nat.sub_eq_of_eq_add hdepth

/-- Through every run of the loop. -/
theorem reaches_balanced (hvm : vm.Balanced) (h : ReflTransGen m.Advances vm vm') :
    vm'.Balanced := by
  induction h with
  | refl => exact hvm
  | tail _ hstep ih => exact advances_balanced ih hstep

/-- However the loop ends. -/
theorem loop_balanced {result : Except RuntimeError VmValue} (hvm : vm.Balanced)
    (h : m.Loop vm result vm') : vm'.Balanced := by
  induction h with
  | @finishes vm result world hstep =>
    obtain ⟨_ | ⟨fr, rest⟩, depth, world⟩ := vm
    · exact nomatch hstep
    cases step_turn hstep with
    | finishes hrest =>
      subst hrest
      exact Nat.sub_eq_of_eq_add hvm
  | fails => exact hvm
  | advances hstep _ ih => exact ih (advances_balanced hvm hstep)

/-- Through every request. -/
theorem executes_balanced {request : Request} {result : Except RuntimeError VmValue}
    (hvm : vm.Balanced) (h : m.Executes vm request result vm') : vm'.Balanced := by
  cases h with
  | refused => exact hvm
  | runs hopen hloop => exact loop_balanced (openRequest_balanced hvm hopen) hloop

end Machine

/-- And through a session. -/
theorem Session.balanced {builtins : Builtins String World} {maxCallDepth : Nat}
    {es : List (Execution World)} {m : Machine World} {vm : Vm World}
    (h : Session builtins maxCallDepth es m vm) : vm.Balanced := by
  induction h with
  | new => rfl
  | load _ _ ih => exact ih
  | elapses _ _ ih => exact ih
  | executes _ hexec ih => exact Machine.executes_balanced ih hexec

/-- The call stack and the counter are what they were before. -/
def Execution.Restores (e : Execution World) : Prop :=
  e.after.callStack = e.before.callStack ∧ e.after.recursionDepth = e.before.recursionDepth

/-- The execution came to an instruction that raises a `RuntimeError`. -/
def Execution.Raises (e : Execution World) : Prop := e.machine.Raises e.before e.request

/-- Every request is answered as on a new machine with the same functions loaded. -/
def Machine.AnswersAsFresh (m : Machine World) (vm : Vm World) : Prop :=
  ∀ request result, (∃ vm', m.Executes vm request result vm') ↔
    ∃ vm', m.Executes ⟨[], 0, vm.world⟩ request result vm'

namespace Machine

variable {m : Machine World} {vm vm' vm₁ vm₂ : Vm World}

/-- A loop that raises nothing leaves no frame. -/
theorem loop_empties {result : Except RuntimeError VmValue} (h : m.Loop vm result vm')
    (hraises : ∀ vm₂ e, ReflTransGen m.Advances vm vm₂ → m.step vm₂ ≠ .error (.error e)) :
    vm'.callStack = [] := by
  induction h with
  | finishes => rfl
  | fails hstep => exact absurd hstep (hraises _ _ .refl)
  | advances hstep _ ih => exact ih fun vm₂ e hreach => hraises vm₂ e (.head hstep hreach)

/-- One that raises an error leaves the frame that raised it. -/
theorem loop_leaves_frame {result : Except RuntimeError VmValue} {e : RuntimeError}
    (hreach : ReflTransGen m.Advances vm vm₂) (hraises : m.step vm₂ = .error (.error e))
    (h : m.Loop vm result vm') : vm'.callStack ≠ [] := by
  induction hreach using ReflTransGen.head_induction_on with
  | refl =>
    cases h with
    | finishes hstep => exact nomatch hraises.symm.trans hstep
    | fails => exact List.cons_ne_nil _ _
    | advances hstep => exact nomatch hraises.symm.trans hstep
  | head hstep _ ih =>
    -- the loop makes the one pass that the machine can make
    cases h with
    | finishes hfinishes => exact nomatch hstep.symm.trans hfinishes
    | fails hfails => exact nomatch hstep.symm.trans hfails
    | advances hstep' hloop =>
      have heq := hstep.symm.trans hstep'
      simp only [Except.ok.injEq, Next.running.injEq] at heq
      exact ih (heq ▸ hloop)

/-- A loop has one result. -/
theorem loop_result_unique {result result' : Except RuntimeError VmValue}
    (h : m.Loop vm result vm₁) (h' : m.Loop vm result' vm₂) : result = result' := by
  induction h generalizing vm₂ with
  | finishes hstep =>
    cases h' with
    | finishes hstep' =>
      have heq := hstep.symm.trans hstep'
      simp only [Except.ok.injEq, Next.finished.injEq] at heq
      rw [heq.1]
    | fails hstep' => exact nomatch hstep.symm.trans hstep'
    | advances hstep' => exact nomatch hstep.symm.trans hstep'
  | fails hstep =>
    cases h' with
    | finishes hstep' => exact nomatch hstep.symm.trans hstep'
    | fails hstep' =>
      have heq := hstep.symm.trans hstep'
      simp only [Except.error.injEq, Fault.error.injEq] at heq
      rw [heq]
    | advances hstep' => exact nomatch hstep.symm.trans hstep'
  | advances hstep _ ih =>
    cases h' with
    | finishes hstep' => exact nomatch hstep.symm.trans hstep'
    | fails hstep' => exact nomatch hstep.symm.trans hstep'
    | advances hstep' hloop =>
      have heq := hstep.symm.trans hstep'
      simp only [Except.ok.injEq, Next.running.injEq] at heq
      exact ih (heq ▸ hloop)

/-- So has a request. -/
theorem executes_result_unique {request : Request} {result result' : Except RuntimeError VmValue}
    (h : m.Executes vm request result vm₁) (h' : m.Executes vm request result' vm₂) :
    result = result' := by
  cases h with
  | refused hopen =>
    cases h' with
    | refused hopen' =>
      have heq := hopen.symm.trans hopen'
      simp only [Except.error.injEq, Fault.error.injEq] at heq
      rw [heq]
    | runs hopen' => exact nomatch hopen.symm.trans hopen'
  | runs hopen hloop =>
    cases h' with
    | refused hopen' => exact nomatch hopen.symm.trans hopen'
    | runs hopen' hloop' =>
      exact loop_result_unique hloop (Except.ok.inj (hopen.symm.trans hopen') ▸ hloop')

theorem executes_empties {request : Request} {result : Except RuntimeError VmValue}
    (hvm : vm.callStack = []) (h : m.Executes vm request result vm')
    (hraises : ¬ m.Raises vm request) : vm'.callStack = [] := by
  cases h with
  | refused => exact hvm
  | runs hopen hloop =>
    exact loop_empties hloop fun vm₂ e hreach hstep => hraises ⟨_, vm₂, e, hopen, hreach, hstep⟩

theorem executes_leaves_frame {request : Request} {result : Except RuntimeError VmValue}
    (hraises : m.Raises vm request) (h : m.Executes vm request result vm') :
    vm'.callStack ≠ [] := by
  obtain ⟨vm₁, vm₂, e, hopen, hreach, hstep⟩ := hraises
  cases h with
  | refused hrefused => exact nomatch hopen.symm.trans hrefused
  | runs hopen' hloop =>
    have heq := hopen.symm.trans hopen'
    exact loop_leaves_frame (Except.ok.inj heq ▸ hreach) hstep hloop

end Machine

namespace Session

variable {builtins : Builtins String World} {maxCallDepth : Nat} {es : List (Execution World)}
  {m : Machine World} {vm : Vm World}

/-- As long as no execution raises an error, the machine is as new between executions. -/
theorem callStack_eq_nil (h : Session builtins maxCallDepth es m vm)
    (hraises : ∀ e ∈ es, ¬ e.Raises) : vm.callStack = [] := by
  induction h with
  | new => rfl
  | load _ _ ih => exact ih hraises
  | elapses _ _ ih => exact ih hraises
  | executes _ hexec ih =>
    have hbefore := ih fun e he => hraises e (List.mem_append_left _ he)
    exact Machine.executes_empties hbefore hexec (hraises _ List.mem_concat_self)

/-- A session that raised nothing is as good as a fresh machine. -/
theorem eq_fresh (h : Session builtins maxCallDepth es m vm) (hraises : ∀ e ∈ es, ¬ e.Raises) :
    vm = ⟨[], 0, vm.world⟩ := by
  have hstack := h.callStack_eq_nil hraises
  have hdepth : vm.recursionDepth = 0 := by
    rw [show vm.recursionDepth = vm.callStack.length from h.balanced, hstack]
    rfl
  obtain ⟨callStack, recursionDepth, world⟩ := vm
  simp only at hstack hdepth
  rw [hstack, hdepth]

/-- Then every request restores the machine. -/
theorem restores_of_not_raises (h : Session builtins maxCallDepth es m vm)
    (hraises : ∀ e ∈ es, ¬ e.Raises) : ∀ e ∈ es, e.Restores := by
  induction h with
  | new => exact fun e he => nomatch he
  | load _ _ ih => exact ih hraises
  | elapses _ _ ih => exact ih hraises
  | executes hsession hexec ih =>
    have hprefix := fun e he => hraises e (List.mem_append_left _ he)
    have hbefore := hsession.eq_fresh hprefix
    have hafter := (hsession.executes hexec).eq_fresh hraises
    intro e he
    rcases List.mem_append.mp he with he | he
    · exact ih hprefix e he
    · obtain rfl := List.mem_singleton.mp he
      exact ⟨by rw [hbefore, hafter], by rw [hbefore, hafter]⟩

/-- And where every request restores it, none has raised. -/
theorem not_raises_of_restores (h : Session builtins maxCallDepth es m vm)
    (hrestores : ∀ e ∈ es, e.Restores) : ∀ e ∈ es, ¬ e.Raises := by
  induction h with
  | new => exact fun e he => nomatch he
  | load _ _ ih => exact ih hrestores
  | elapses _ _ ih => exact ih hrestores
  | executes hsession hexec ih =>
    have hprefix := ih fun e he => hrestores e (List.mem_append_left _ he)
    intro e he
    rcases List.mem_append.mp he with he | he
    · exact hprefix e he
    · obtain rfl := List.mem_singleton.mp he
      intro hraises
      have hstack := (hrestores _ List.mem_concat_self).1
      rw [hsession.callStack_eq_nil hprefix] at hstack
      exact Machine.executes_leaves_frame hraises hexec hstack

/-- The counter always agrees with the call stack. The machine recovers from every execution, and
answers as a new one, in exactly those sessions in which no execution raises an error. -/
theorem recovers_iff (h : Session builtins maxCallDepth es m vm) :
    (vm.Balanced ∧ ∀ request vm₁ vm₂, m.openRequest vm request = .ok vm₁ →
      ReflTransGen m.Advances vm₁ vm₂ → vm₂.Balanced) ∧
    (((∀ e ∈ es, e.Restores) ∧ m.AnswersAsFresh vm) ↔ ∀ e ∈ es, ¬ e.Raises) := by
  refine ⟨⟨h.balanced, ?_⟩, ?_, ?_⟩
  · intro request vm₁ vm₂ hopen hreach
    exact Machine.reaches_balanced (Machine.openRequest_balanced h.balanced hopen) hreach
  · exact fun hrecovers => h.not_raises_of_restores hrecovers.1
  · intro hraises
    refine ⟨h.restores_of_not_raises hraises, fun request result => ?_⟩
    rw [← h.eq_fresh hraises]

end Session

/-- Fails on its first instruction; what follows answers false. -/
def failing : BytecodeFunc :=
  ⟨"failing", 0, 1, 0, [⟨.not, 0, 0, 0⟩, ⟨.loadFalse, 0, 0, 0⟩, ⟨.ret, 0, 0, 0⟩], []⟩

/-- Answers true. -/
def succeeding : BytecodeFunc :=
  ⟨"succeeding", 0, 1, 0, [⟨.loadTrue, 0, 0, 0⟩, ⟨.ret, 0, 0, 0⟩], []⟩

def failingMachine : Machine Unit := ⟨[failing, succeeding], atBuiltins, 100⟩

/-- The frame of `failing` at a position, its register holding a value. -/
def failingFrame (ip : Nat) (v : VmValue) : Frame :=
    ⟨[some v], "failing", ip, 0, false, [false], failing⟩

def succeedingFrame (ip : Nat) (v : VmValue) : Frame :=
  ⟨[some v], "succeeding", ip, 0, false, [false], succeeding⟩

theorem failing_raises :
    failingMachine.step ⟨[failingFrame 0 .nil], 1, ()⟩ =
      .error (.error (.typeError "not: expected bool")) := rfl

theorem failing_executes : failingMachine.Executes ⟨[], 0, ()⟩ (.call "failing" [])
    (.error (.typeError "not: expected bool")) ⟨[failingFrame 1 .nil], 1, ()⟩ :=
  .runs rfl (.fails failing_raises)

theorem succeeding_advances (rest : List Frame) (depth : Nat) :
    failingMachine.Advances ⟨succeedingFrame 0 .nil :: rest, depth, ()⟩
      ⟨succeedingFrame 1 (.bool true) :: rest, depth, ()⟩ := rfl

theorem succeeding_executes_fresh : failingMachine.Executes ⟨[], 0, ()⟩ (.call "succeeding" [])
    (.ok (.bool true)) ⟨[], 0, ()⟩ :=
  .runs rfl (.advances (succeeding_advances [] 1) (.finishes rfl))

theorem succeeding_executes_after : failingMachine.Executes ⟨[failingFrame 1 .nil], 1, ()⟩
    (.call "succeeding" []) (.ok (.bool false)) ⟨[], 0, ()⟩ := by
  have hreturn : failingMachine.Advances
      ⟨[succeedingFrame 1 (.bool true), failingFrame 1 .nil], 2, ()⟩
      ⟨[failingFrame 1 (.bool true)], 1, ()⟩ := rfl
  have hresume : failingMachine.Advances ⟨[failingFrame 1 (.bool true)], 1, ()⟩
      ⟨[failingFrame 2 (.bool false)], 1, ()⟩ := rfl
  exact .runs rfl (.advances (succeeding_advances _ 2) (.advances hreturn
    (.advances hresume (.finishes rfl))))

theorem failing_session : Session atBuiltins 100
    [⟨failingMachine, .call "failing" [], ⟨[], 0, ()⟩, .error (.typeError "not: expected bool"),
      ⟨[failingFrame 1 .nil], 1, ()⟩⟩]
    failingMachine ⟨[failingFrame 1 .nil], 1, ()⟩ :=
  .executes (.load succeeding (.load failing (.new ()))) failing_executes

/-- The call of `failing` is not undone, and `succeeding` then answers false instead of true. -/
theorem failing_session_not_recovers : ∃ es, ∃ (m : Machine Unit), ∃ vm,
    Session atBuiltins 100 es m vm ∧ (∃ e ∈ es, ¬ e.Restores) ∧ ¬ m.AnswersAsFresh vm := by
  refine ⟨_, _, _, failing_session, ⟨_, List.mem_cons_self, ?_⟩, fun hfresh => ?_⟩
  · exact fun hrestores => nomatch hrestores.1
  · obtain ⟨vm', hfalse⟩ := (hfresh _ _).mp ⟨_, succeeding_executes_after⟩
    exact nomatch Machine.executes_result_unique hfalse succeeding_executes_fresh

theorem succeeding_session : Session atBuiltins 100
    [⟨failingMachine, .call "succeeding" [], ⟨[], 0, ()⟩, .ok (.bool true), ⟨[], 0, ()⟩⟩]
    failingMachine ⟨[], 0, ()⟩ :=
  .executes (.load succeeding (.load failing (.new ()))) succeeding_executes_fresh

theorem succeeding_session_recovers : failingMachine.AnswersAsFresh ⟨[], 0, ()⟩ := by
  refine (succeeding_session.recovers_iff.2.mpr fun e he hraises => ?_).2
  obtain rfl := List.mem_singleton.mp he
  exact Machine.executes_leaves_frame hraises succeeding_executes_fresh rfl

end Airl
