import Airl.Correctness.Definitions
import Airl.Correctness.Twins

/-! # The same activation one frame higher

An activation answers the same with one more frame below it, as long as the two
frames agree on what it reads and the call stack does not overflow.
-/

namespace Airl

open Relation (ReflTransGen)

variable {World : Type}

/-! ## Answers -/

/-- The frame on top returns the pointer. -/
def Frame.Returns (fr : Frame) (p : Option VmValue) : Prop :=
  fr.func.instructions[fr.ip]? = none ∧ p = some .nil ∨
    ∃ instr, fr.func.instructions[fr.ip]? = some instr ∧ instr.op = .ret ∧
      fr.registers[instr.a]? = some p

/-- The activation that has `height` frames below it returns the pointer next. -/
def Vm.Returning (height : Nat) (vm : Vm World) (p : Option VmValue) : Prop :=
  ∃ fr rest, vm.callStack = fr :: rest ∧ rest.length = height ∧ fr.Returns p

/-- The frame that has `height` frames below it has come to a position, with the pointer in
`dst`. -/
def Vm.At (height ip dst : Nat) (vm : Vm World) (p : Option VmValue) : Prop :=
  ∃ fr rest, vm.callStack = fr :: rest ∧ rest.length = height ∧ fr.ip = ip ∧
    fr.registers[dst]? = some p

/-- The run up to a stop or a failure. -/
inductive Machine.Until (m : Machine World) (stop : Vm World → Option VmValue → Prop) :
    Vm World → Except Fault (Option VmValue × World) → Prop
  | stops {vm : Vm World} {p : Option VmValue} (hstop : stop vm p) :
      Until m stop vm (.ok (p, vm.world))
  | fails {vm : Vm World} {f : Fault} (hgoes : ∀ p, ¬ stop vm p) (hstep : m.step vm = .error f) :
      Until m stop vm (.error f)
  | advances {vm vm' : Vm World} {o : Except Fault (Option VmValue × World)}
      (hgoes : ∀ p, ¬ stop vm p) (hstep : m.Advances vm vm') (h : Until m stop vm' o) :
      Until m stop vm o

namespace Machine

variable {m : Machine World} {stop : Vm World → Option VmValue → Prop} {vm vm' : Vm World}
  {o : Except Fault (Option VmValue × World)}

/-- The outcome is not changed by a step that does not stop. -/
theorem until_step (hgoes : ∀ p, ¬ stop vm p) (hstep : m.Advances vm vm') :
    m.Until stop vm o ↔ m.Until stop vm' o := by
  constructor
  · intro h
    cases h with
    | stops hstop => exact absurd hstop (hgoes _)
    | fails _ hfails => exact nomatch hstep.symm.trans hfails
    | advances _ hstep' h =>
      have heq := hstep.symm.trans hstep'
      simp only [Except.ok.injEq, Next.running.injEq] at heq
      exact heq ▸ h
  · exact .advances hgoes hstep

/-- At the stop the outcome is the pointer there. -/
theorem until_stopped {p : Option VmValue} (hstop : stop vm p) (hunique : ∀ q, stop vm q → q = p) :
    m.Until stop vm o ↔ o = .ok (p, vm.world) := by
  constructor
  · intro h
    cases h with
    | stops hstop' => rw [hunique _ hstop']
    | fails hgoes => exact absurd hstop (hgoes p)
    | advances hgoes => exact absurd hstop (hgoes p)
  · rintro rfl
    exact .stops hstop

/-- A failing step is the outcome. -/
theorem until_failed {f : Fault} (hgoes : ∀ p, ¬ stop vm p) (hstep : m.step vm = .error f) :
    m.Until stop vm o ↔ o = .error f := by
  constructor
  · intro h
    cases h with
    | stops hstop => exact absurd hstop (hgoes _)
    | fails _ hstep' => rw [Except.error.inj (hstep'.symm.trans hstep)]
    | advances _ hstep' => exact nomatch hstep.symm.trans hstep'
  · rintro rfl
    exact .fails hgoes hstep

/-- A pass that comes before the stop. -/
def Quiet (m : Machine World) (stop : Vm World → Option VmValue → Prop)
    (vm vm' : Vm World) : Prop :=
  (∀ p, ¬ stop vm p) ∧ m.Advances vm vm'

/-- Nor is it by any number of quiet steps. -/
theorem until_quiet (h : ReflTransGen (m.Quiet stop) vm vm') :
    m.Until stop vm o ↔ m.Until stop vm' o := by
  induction h with
  | refl => rfl
  | tail _ hstep ih => rw [ih, until_step hstep.1 hstep.2]

end Machine

/-! ## What an activation knows of its frame -/

/-- What is known, after a pass, of the frame that has `height` frames below it: what it has
written, or got as a result. -/
def Vm.knownAfter (height : Nat) (vm vm' : Vm World) (known : Set Place) : Set Place :=
  match vm.callStack with
  | [] => known
  | fr :: rest =>
    if vm'.callStack.length = height + 1 then
      if rest.length = height then
        {p | p ∈ known ∨ ∃ instr, fr.func.instructions[fr.ip]? = some instr ∧ fr.Writes instr p}
      else insert (.register fr.returnReg) known
    else known

theorem Vm.knownAfter_above {height : Nat} {vm vm' : Vm World} (known : Set Place)
    (h : vm'.callStack.length ≠ height + 1) : vm.knownAfter height vm' known = known := by
  unfold Vm.knownAfter
  split
  next => rfl
  next => rw [if_neg h]

/-- A pass of the activation, with what is known of its frame. -/
def Machine.Tracks (m : Machine World) (height : Nat) (s s' : Vm World × Set Place) : Prop :=
  m.Quiet (Vm.Returning height) s.1 s'.1 ∧ s'.2 = s.1.knownAfter height s'.1 s.2

/-- Until it returns, the activation reads of its frame only what it knows. -/
def Machine.ReadsKnown (m : Machine World) (height : Nat) (vm : Vm World)
    (known : Set Place) : Prop :=
  ∀ s, ReflTransGen (m.Tracks height) (vm, known) s → ∀ fr rest instr,
    s.1.callStack = fr :: rest → rest.length = height →
    fr.func.instructions[fr.ip]? = some instr → ∀ p, m.Reads fr instr p → p ∈ s.2

/-- What is read later is known later. -/
theorem Machine.ReadsKnown.next {m : Machine World} {height : Nat} {vm vm' : Vm World}
    {known known' : Set Place} (h : m.ReadsKnown height vm known)
    (hstep : m.Tracks height (vm, known) (vm', known')) : m.ReadsKnown height vm' known' :=
  fun s hs => h s (.head hstep hs)

section ReadsKnown

variable {m : Machine World} {fr fr' : Frame} {rest : List Frame} {depth depth' : Nat}
  {world world' : World} {known : Set Place} {instr : Instruction}

theorem Machine.ReadsKnown.stays (hinstr : fr.func.instructions[fr.ip]? = some instr)
    (hreads : ∀ p, m.Reads fr instr p → p ∈ known)
    (hstep : m.Advances ⟨fr :: rest, depth, world⟩ ⟨fr' :: rest, depth', world'⟩)
    (h : m.ReadsKnown rest.length ⟨fr' :: rest, depth', world'⟩ {p | p ∈ known ∨
      fr.Writes instr p}) :
    m.ReadsKnown rest.length ⟨fr :: rest, depth, world⟩ known := by
  intro s hs
  rcases ReflTransGen.cases_head hs with rfl | ⟨⟨vm', known'⟩, ⟨⟨-, hstep'⟩, hknown⟩, htail⟩
  · intro fr₁ rest₁ instr₁ hstack _ hinstr₁
    obtain ⟨rfl, rfl⟩ := List.cons.inj hstack
    obtain rfl := Option.some.inj (hinstr.symm.trans hinstr₁)
    exact hreads
  · have heq := hstep.symm.trans hstep'
    simp only [Except.ok.injEq, Next.running.injEq] at heq
    subst heq
    have hafter : known' = {p | p ∈ known ∨ fr.Writes instr p} := by
      refine hknown.trans ?_
      simp only [Vm.knownAfter, List.length_cons, if_true, hinstr, Option.some.injEq]
      ext p
      simp
    exact h s (hafter ▸ htail)

theorem Machine.ReadsKnown.returns {p : Option VmValue}
    (hinstr : fr.func.instructions[fr.ip]? = some instr)
    (hreads : ∀ p, m.Reads fr instr p → p ∈ known) (hreturns : fr.Returns p) :
    m.ReadsKnown rest.length ⟨fr :: rest, depth, world⟩ known := by
  intro s hs
  rcases ReflTransGen.cases_head hs with rfl | ⟨_, ⟨⟨hgoes, -⟩, -⟩, -⟩
  · intro fr₁ rest₁ instr₁ hstack _ hinstr₁
    obtain ⟨rfl, rfl⟩ := List.cons.inj hstack
    obtain rfl := Option.some.inj (hinstr.symm.trans hinstr₁)
    exact hreads
  · exact absurd ⟨fr, rest, rfl, rfl, hreturns⟩ (hgoes p)

end ReadsKnown

/-! ## The same activation one frame higher -/

/-- Two states that differ in a frame and in the frames below it, of which the second has one
more. -/
inductive Lifted (height : Nat) (known : Set Place) : Vm World → Vm World → Prop
  | mk (top : List Frame) {rest rest' : List Frame} {a b : Frame} {depth : Nat} {world : World}
      (hrest : rest.length = height) (hrest' : rest'.length = height + 1) (htwin : Twin known a b)
      (hdepth : top.length < depth) :
      Lifted height known ⟨top ++ a :: rest, depth, world⟩ ⟨top ++ b :: rest', depth + 1, world⟩

namespace Machine

variable {m : Machine World} {height : Nat} {known : Set Place}

/-- How passes of lifted states go: both fail alike, both go on, or the higher one overflows. -/
inductive Rises (m : Machine World) (height : Nat) (known : Set Place) (vm vm' : Vm World) : Prop
  | fails {f : Fault} (h : m.step vm = .error f) (h' : m.step vm' = .error f)
  | advances {next next' : Vm World} (h : m.Advances vm next) (h' : m.Advances vm' next')
      (hlifted : Lifted height (vm.knownAfter height next known) next next')
  | overflows {next : Vm World} {f : Fault} (h : m.Advances vm next) (h' : m.step vm' = .error f)
      (hf : m.Overflows f)

/-- A call from frames of which the second has one more below. -/
theorem enter_rises (name : String) (args : List (Option VmValue)) (dst : Nat) (a b : Frame)
    {rest rest' : List Frame} (hlength : rest'.length = rest.length + 1) (depth : Nat)
    (world : World) :
    (∃ f, m.enter name args dst a rest depth world = .error f ∧
      m.enter name args dst b rest' (depth + 1) world = .error f) ∨
    ∃ callee : Frame,
      m.enter name args dst a rest depth world =
        .ok (.running ⟨callee :: a :: rest, depth + 1, world⟩) ∧
      (m.enter name args dst b rest' (depth + 1) world =
          .ok (.running ⟨callee :: b :: rest', depth + 1 + 1, world⟩) ∨
        m.enter name args dst b rest' (depth + 1) world =
          .error (.error (.stackOverflow m.maxCallDepth))) := by
  simp only [enter, pushFrame]
  cases m.lookup name with
  | none => exact Or.inl ⟨_, rfl, rfl⟩
  | some func =>
    dsimp only
    by_cases hover : m.maxCallDepth ≤ (a :: rest).length ∨ m.maxCallDepth < depth + 1
    · -- the deeper stack overflows as well
      have hover' : m.maxCallDepth ≤ (b :: rest').length ∨ m.maxCallDepth < depth + 1 + 1 := by
        simp only [List.length_cons] at hover ⊢
        omega
      rw [if_pos hover, if_pos hover']
      exact Or.inl ⟨_, rfl, rfl⟩
    · rw [if_neg hover]
      refine Or.inr ⟨_, rfl, ?_⟩
      split
      · exact Or.inr rfl
      · exact Or.inl rfl

/-- Both states pop the frame, one of them one frame higher. -/
theorem popFrame_rises {top rest rest' : List Frame} {a b : Frame} {t : Frame} {depth : Nat}
    {world : World} (hrest : rest.length = height) (hrest' : rest'.length = height + 1)
    (htwin : Twin known a b) (hdepth : top.length + 1 < depth) (p : Option VmValue)
    (h : m.step ⟨t :: top ++ a :: rest, depth, world⟩ =
      popFrame p t.returnReg (top ++ a :: rest) depth world)
    (h' : m.step ⟨t :: top ++ b :: rest', depth + 1, world⟩ =
      popFrame p t.returnReg (top ++ b :: rest') (depth + 1) world) :
    m.Rises height known ⟨t :: top ++ a :: rest, depth, world⟩
      ⟨t :: top ++ b :: rest', depth + 1, world⟩ := by
  have hcount : depth + 1 - 1 = depth - 1 + 1 := by omega
  cases top with
  | nil =>
    simp only [popFrame, Frame.setPointer, List.nil_append, htwin.length] at h h'
    by_cases hlt : t.returnReg < a.registers.length
    · rw [if_pos hlt] at h h'
      refine .advances h h' ?_
      simp only [hcount, Vm.knownAfter, List.cons_append, List.nil_append, List.length_cons, hrest,
        if_true, Nat.succ_ne_self, if_false]
      refine .mk [] hrest hrest' (htwin.set t.returnReg p) ?_
      simp only [List.length_nil] at hdepth ⊢
      omega
    · rw [if_neg hlt] at h h'
      exact .fails h h'
  | cons u top =>
    simp only [popFrame, Frame.setPointer, List.cons_append] at h h'
    by_cases hlt : t.returnReg < u.registers.length
    · rw [if_pos hlt] at h h'
      refine .advances h h' ?_
      rw [Vm.knownAfter_above known, hcount]
      · refine .mk (_ :: top) hrest hrest' htwin ?_
        simp only [List.length_cons] at hdepth ⊢
        omega
      · simp only [List.length_append, List.length_cons, hrest]
        omega
    · rw [if_neg hlt] at h h'
      exact .fails h h'

/-- Both make the same step in the activation's own frame. -/
theorem own_rises {rest rest' : List Frame} {a b : Frame} {depth : Nat} {world : World}
    (hrest : rest.length = height) (hrest' : rest'.length = height + 1) (htwin : Twin known a b)
    (hdepth : 0 < depth)
    (hgoes : ∀ p, ¬ Vm.Returning height (⟨a :: rest, depth, world⟩ : Vm World) p)
    (hreads : ∀ instr, a.func.instructions[a.ip]? = some instr →
      ∀ p, m.Reads a instr p → p ∈ known) :
    m.Rises height known ⟨a :: rest, depth, world⟩ ⟨b :: rest', depth + 1, world⟩ := by
  cases hcode : a.func.instructions[a.ip]? with
  | none => exact absurd ⟨a, rest, rfl, hrest, Or.inl ⟨hcode, rfl⟩⟩ (hgoes (some .nil))
  | some instr =>
    have hcode' : b.func.instructions[b.ip]? = some instr := by rw [htwin.func, htwin.ip, hcode]
    have hstep : m.step ⟨a :: rest, depth, world⟩ = _ := step_eq hcode
    have hstep' : m.step ⟨b :: rest', depth + 1, world⟩ = _ := step_eq hcode'
    by_cases hop : instr.op = .ret
    · -- a return that does not happen is out of range, for both
      have hnone : a.registers[instr.a]? = none := by
        cases hreg : a.registers[instr.a]? with
        | none => rfl
        | some p => exact absurd ⟨a, rest, rfl, hrest, Or.inr ⟨instr, hcode, hop, hreg⟩⟩ (hgoes p)
      have hnone' : b.registers[instr.a]? = none := by
        rw [List.getElem?_eq_none_iff, htwin.length, ← List.getElem?_eq_none_iff]
        exact hnone
      simp only [exec, hop, Frame.pointer, hnone] at hstep
      simp only [exec, hop, Frame.pointer, hnone'] at hstep'
      exact .fails hstep hstep'
    · have htwin' := htwin.setIp (a.ip + 1)
      rw [htwin.ip] at hstep'
      have halike := alike_exec rest rest' depth (depth + 1) world htwin' hop (hreads instr hcode)
      rw [← hstep, ← hstep'] at halike
      generalize hr : m.step ⟨a :: rest, depth, world⟩ = r at halike
      generalize hr' : m.step ⟨b :: rest', depth + 1, world⟩ = r' at halike
      cases halike with
      | fails f => exact .fails hr hr'
      | @stays a' b' world htwin'' =>
        refine .advances hr hr' ?_
        have hknown :
            Vm.knownAfter height ⟨a :: rest, depth, world⟩ ⟨a' :: rest, depth, world⟩ known =
            {p | p ∈ known ∨ a.Writes instr p} := by
          simp only [Vm.knownAfter, List.length_cons, hrest, if_true, hcode, Option.some.injEq]
          ext p
          simp
        exact .mk [] hrest hrest' (htwin''.mono fun p hp => hknown ▸ hp) hdepth
      | enters name args dst world =>
        have hlength : rest'.length = rest.length + 1 := by rw [hrest, hrest']
        rcases enter_rises (m := m) name args dst { a with ip := a.ip + 1 }
          { b with ip := a.ip + 1 } hlength depth world with
          ⟨f, hf, hf'⟩ | ⟨callee, henter, henter' | hover⟩
        · exact .fails (hr.trans hf) (hr'.trans hf')
        · refine .advances (hr.trans henter) (hr'.trans henter') ?_
          rw [Vm.knownAfter_above known]
          · refine .mk [callee] hrest hrest' htwin' ?_
            simp only [List.length_singleton]
            omega
          · simp [hrest]
        · exact .overflows (hr.trans henter) (hr'.trans hover) rfl

/-- And in the frames that it has called. -/
theorem above_rises {top rest rest' : List Frame} {a b t : Frame} {depth : Nat} {world : World}
    (hrest : rest.length = height) (hrest' : rest'.length = height + 1) (htwin : Twin known a b)
    (hdepth : top.length + 1 < depth) :
    m.Rises height known ⟨t :: top ++ a :: rest, depth, world⟩
      ⟨t :: top ++ b :: rest', depth + 1, world⟩ := by
  have hlength : (top ++ b :: rest').length = (top ++ a :: rest).length + 1 := by
    simp only [List.length_append, List.length_cons, hrest, hrest']
    omega
  cases hcode : t.func.instructions[t.ip]? with
  | none =>
    refine popFrame_rises hrest hrest' htwin hdepth (some .nil) ?_ ?_
    · simp only [step, List.cons_append, hcode]
    · simp only [step, List.cons_append, hcode]
  | some instr =>
    have hstep : m.step ⟨t :: (top ++ a :: rest), depth, world⟩ = _ := step_eq hcode
    have hstep' : m.step ⟨t :: (top ++ b :: rest'), depth + 1, world⟩ = _ := step_eq hcode
    by_cases hop : instr.op = .ret
    · cases hreg : t.registers[instr.a]? with
      | none =>
        simp only [exec, hop, Frame.pointer, hreg] at hstep hstep'
        exact .fails hstep hstep'
      | some p =>
        simp only [exec, hop, Frame.pointer, hreg] at hstep hstep'
        exact popFrame_rises hrest hrest' htwin hdepth p hstep hstep'
    · have halike := alike_exec (m := m) (top ++ a :: rest) (top ++ b :: rest') depth (depth + 1)
        world (Twin.refl Set.univ { t with ip := t.ip + 1 }) hop fun p _ => Set.mem_univ p
      rw [← hstep, ← hstep'] at halike
      generalize hr : m.step ⟨t :: (top ++ a :: rest), depth, world⟩ = r at halike
      generalize hr' : m.step ⟨t :: (top ++ b :: rest'), depth + 1, world⟩ = r' at halike
      cases halike with
      | fails f => exact .fails hr hr'
      | @stays t' t'' world htwin' _ ht ht' =>
        obtain rfl := (htwin'.mono fun p _ => Or.inl (Set.mem_univ p)).eq (ht'.trans ht.symm)
        refine .advances hr hr' ?_
        rw [Vm.knownAfter_above known]
        · exact .mk (t'' :: top) hrest hrest' htwin hdepth
        · simp only [List.length_append, List.length_cons, hrest]
          omega
      | enters name args dst world =>
        rcases enter_rises (m := m) name args dst { t with ip := t.ip + 1 }
          { t with ip := t.ip + 1 } hlength depth world with
          ⟨f, hf, hf'⟩ | ⟨callee, henter, henter' | hover⟩
        · exact .fails (hr.trans hf) (hr'.trans hf')
        · refine .advances (hr.trans henter) (hr'.trans henter') ?_
          rw [Vm.knownAfter_above known]
          · refine .mk (callee :: { t with ip := t.ip + 1 } :: top) hrest hrest' htwin ?_
            simp only [List.length_cons]
            omega
          · simp only [List.length_append, List.length_cons, hrest]
            omega
        · exact .overflows (hr.trans henter) (hr'.trans hover) rfl

/-- So every step is made on both sides. -/
theorem lifted_rises {vm vm' : Vm World} (h : Lifted height known vm vm')
    (hgoes : ∀ p, ¬ vm.Returning height p) (hreads : m.ReadsKnown height vm known) :
    m.Rises height known vm vm' := by
  obtain @⟨top, rest, rest', a, b, depth, world, hrest, hrest', htwin, hdepth⟩ := h
  cases top with
  | nil =>
    refine own_rises hrest hrest' htwin hdepth hgoes fun instr hcode => ?_
    exact hreads _ .refl a rest instr rfl hrest hcode
  | cons t top => exact above_rises hrest hrest' htwin hdepth

/-- Both return the same pointer. -/
theorem lifted_returning {vm vm' : Vm World} (h : Lifted height known vm vm')
    (hreads : m.ReadsKnown height vm known) (p : Option VmValue) :
    vm'.Returning (height + 1) p ↔ vm.Returning height p := by
  obtain @⟨top, rest, rest', a, b, depth, world, hrest, hrest', htwin, hdepth⟩ := h
  cases top with
  | nil =>
    have hregister : ∀ instr, a.func.instructions[a.ip]? = some instr → instr.op = .ret →
        b.registers[instr.a]? = a.registers[instr.a]? := by
      intro instr hcode hop
      apply htwin.register
      apply hreads _ .refl a rest instr rfl hrest hcode
      simp [Reads, hop]
    constructor
    · rintro ⟨fr, frs, hstack, -, hends⟩
      obtain ⟨rfl, rfl⟩ := List.cons.inj hstack
      unfold Frame.Returns at hends
      rw [htwin.func, htwin.ip] at hends
      refine ⟨a, rest, rfl, hrest, hends.imp_right ?_⟩
      rintro ⟨instr, hcode, hop, hreg⟩
      exact ⟨instr, hcode, hop, (hregister instr hcode hop).symm.trans hreg⟩
    · rintro ⟨fr, frs, hstack, -, hends⟩
      obtain ⟨rfl, rfl⟩ := List.cons.inj hstack
      refine ⟨b, rest', rfl, hrest', ?_⟩
      unfold Frame.Returns
      rw [htwin.func, htwin.ip]
      refine hends.imp_right ?_
      rintro ⟨instr, hcode, hop, hreg⟩
      exact ⟨instr, hcode, hop, (hregister instr hcode hop).trans hreg⟩
  | cons t top =>
    -- neither state is down at its own activation
    constructor
    · rintro ⟨fr, frs, hstack, hlength, -⟩
      obtain ⟨-, rfl⟩ := List.cons.inj hstack
      have hcount : (top ++ b :: rest').length = height + 1 := hlength
      simp only [List.length_append, List.length_cons, hrest'] at hcount
      omega
    · rintro ⟨fr, frs, hstack, hlength, -⟩
      obtain ⟨-, rfl⟩ := List.cons.inj hstack
      have hcount : (top ++ a :: rest).length = height := hlength
      simp only [List.length_append, List.length_cons, hrest] at hcount
      omega

theorem lifted_world {vm vm' : Vm World} (h : Lifted height known vm vm') :
    vm'.world = vm.world := by
  cases h
  rfl

/-- What the lower state answers, the higher one answers or overflows. -/
theorem until_lifted {vm vm' : Vm World} {o : Except Fault (Option VmValue × World)}
    (ho : m.Until (Vm.Returning height) vm o) (h : Lifted height known vm vm')
    (hreads : m.ReadsKnown height vm known) :
    m.Until (Vm.Returning (height + 1)) vm' o ∨
      ∃ f, m.Overflows f ∧ m.Until (Vm.Returning (height + 1)) vm' (.error f) := by
  induction ho generalizing vm' known with
  | stops hstop =>
    have hstop' := (lifted_returning h hreads _).mpr hstop
    exact Or.inl (lifted_world h ▸ .stops hstop')
  | fails hgoes hstep =>
    have hgoes' := fun p hp => hgoes p ((lifted_returning h hreads p).mp hp)
    cases lifted_rises h hgoes hreads with
    | fails h₁ h₂ =>
      obtain rfl := Except.error.inj (hstep.symm.trans h₁)
      exact Or.inl (.fails hgoes' h₂)
    | advances h₁ => exact nomatch hstep.symm.trans h₁
    | overflows h₁ => exact nomatch hstep.symm.trans h₁
  | advances hgoes hstep _ ih =>
    have hgoes' := fun p hp => hgoes p ((lifted_returning h hreads p).mp hp)
    cases lifted_rises h hgoes hreads with
    | fails h₁ => exact nomatch hstep.symm.trans h₁
    | advances h₁ h₂ hlifted =>
      have heq := hstep.symm.trans h₁
      simp only [Except.ok.injEq, Next.running.injEq] at heq
      subst heq
      rw [until_step hgoes' h₂]
      rcases ih hlifted (hreads.next ⟨⟨hgoes, h₁⟩, rfl⟩) with ho | ⟨f, hf, ho⟩
      · exact Or.inl ho
      · exact Or.inr ⟨f, hf, .advances hgoes' h₂ ho⟩
    | overflows h₁ h₂ hf => exact Or.inr ⟨_, hf, .fails hgoes' h₂⟩

/-- An outcome of the higher run is one of the lower. -/
theorem until_lowered {vm vm' : Vm World} {o : Except Fault (Option VmValue × World)}
    (ho : m.Until (Vm.Returning (height + 1)) vm' o) (h : Lifted height known vm vm')
    (hreads : m.ReadsKnown height vm known) :
    m.Until (Vm.Returning height) vm o ∨ ∃ f, m.Overflows f ∧ o = .error f := by
  induction ho generalizing vm known with
  | stops hstop =>
    have hstop' := (lifted_returning h hreads _).mp hstop
    exact Or.inl (lifted_world h ▸ .stops hstop')
  | fails hgoes hstep =>
    have hgoes' := fun p hp => hgoes p ((lifted_returning h hreads p).mpr hp)
    cases lifted_rises h hgoes' hreads with
    | fails h₁ h₂ =>
      obtain rfl := Except.error.inj (hstep.symm.trans h₂)
      exact Or.inl (.fails hgoes' h₁)
    | advances _ h₂ => exact nomatch hstep.symm.trans h₂
    | overflows _ h₂ hf =>
      obtain rfl := Except.error.inj (hstep.symm.trans h₂)
      exact Or.inr ⟨_, hf, rfl⟩
  | advances hgoes hstep _ ih =>
    have hgoes' := fun p hp => hgoes p ((lifted_returning h hreads p).mpr hp)
    cases lifted_rises h hgoes' hreads with
    | fails _ h₂ => exact nomatch hstep.symm.trans h₂
    | overflows _ h₂ => exact nomatch hstep.symm.trans h₂
    | advances h₁ h₂ hlifted =>
      have heq := hstep.symm.trans h₂
      simp only [Except.ok.injEq, Next.running.injEq] at heq
      subst heq
      rw [until_step hgoes' h₁]
      exact ih hlifted (hreads.next ⟨⟨hgoes', h₁⟩, rfl⟩)

end Machine

/-! ## Passes of one activation -/

/-- What a pass makes of the frame on top: it stays, calls, or returns. -/
inductive Machine.Passage (t : Frame) (rest : List Frame) (depth : Nat) (world : World)
    (vm' : Vm World) : Prop
  | stays {t' : Frame} (hfunc : t'.func = t.func) (hreturn : t'.returnReg = t.returnReg)
      (hmoved : t'.moved.length = t.moved.length) (h : vm'.callStack = t' :: rest)
  | enters {callee : Frame} (hmoved : callee.moved.length = callee.func.registerCount)
      (h : vm'.callStack = callee :: { t with ip := t.ip + 1 } :: rest)
  | returns {p : Option VmValue} (hreturns : t.Returns p)
      (h : Machine.popFrame p t.returnReg rest depth world = .ok (.running vm'))

namespace Machine

variable {m : Machine World} {t : Frame} {rest : List Frame} {depth : Nat} {world : World}
  {vm' : Vm World}

theorem step_returns {p : Option VmValue} (h : t.Returns p) :
    m.step ⟨t :: rest, depth, world⟩ = popFrame p t.returnReg rest depth world := by
  rcases h with ⟨hcode, rfl⟩ | ⟨instr, hcode, hop, hreg⟩
  · simp only [step, hcode]
  · rw [step_eq hcode]
    simp only [exec, hop, Frame.pointer, hreg]
    rfl

/-- What a step can do to the frames. -/
theorem passage (h : m.Advances ⟨t :: rest, depth, world⟩ vm') :
    Passage t rest depth world vm' := by
  unfold Advances at h
  cases hcode : t.func.instructions[t.ip]? with
  | none =>
    have hreturns : t.Returns (some .nil) := Or.inl ⟨hcode, rfl⟩
    exact .returns hreturns ((step_returns hreturns).symm.trans h)
  | some instr =>
    by_cases hop : instr.op = .ret
    · cases hreg : t.registers[instr.a]? with
      | none =>
        rw [step_eq hcode] at h
        simp only [exec, hop, Frame.pointer, hreg] at h
        cases h
      | some p =>
        have hreturns : t.Returns p := Or.inr ⟨instr, hcode, hop, hreg⟩
        exact .returns hreturns ((step_returns hreturns).symm.trans h)
    · have halike := alike_exec (m := m) rest rest depth depth world
        (Twin.refl Set.univ { t with ip := t.ip + 1 }) hop fun p _ => Set.mem_univ p
      rw [← step_eq hcode, h] at halike
      generalize hr : (Except.ok (Next.running vm') : Except Fault (Next World)) = r at halike
      cases halike with
      | fails => cases hr
      | stays _ hfunc ha _ hmoved =>
        simp only [Except.ok.injEq, Next.running.injEq] at hr
        subst hr
        exact .stays hfunc ha hmoved rfl
      | enters name args dst world =>
        simp only [enter, pushFrame] at hr
        split at hr
        next => cases hr
        next func _ =>
          split at hr
          next => cases hr
          next =>
            obtain rfl := Next.running.inj (Except.ok.inj hr)
            exact .enters List.length_replicate rfl

end Machine

/-! ## The frames below an activation -/

/-- The activation on top of the given frames, which will put its result into `dst`. -/
inductive Above (base : List Frame) (dst : Nat) : Vm World → Prop
  | mk (top : List Frame) {b : Frame} {depth : Nat} {world : World} (hreturn : b.returnReg = dst) :
      Above base dst ⟨top ++ b :: base, depth, world⟩

namespace Machine

variable {m : Machine World} {base : List Frame} {dst : Nat} {vm vm' : Vm World}

/-- What is called stays above until the activation returns. -/
theorem above_step (h : Above base dst vm) (hgoes : ∀ p, ¬ vm.Returning base.length p)
    (hstep : m.Advances vm vm') : Above base dst vm' := by
  obtain @⟨top, b, depth, world, hreturn⟩ := h
  obtain ⟨callStack', depth', world'⟩ := vm'
  cases top with
  | nil =>
    cases passage hstep with
    | stays _ hreturn' _ h =>
      obtain rfl : callStack' = _ := h
      exact .mk [] (hreturn'.trans hreturn)
    | @enters callee _ h =>
      obtain rfl : callStack' = _ := h
      exact .mk [callee] hreturn
    | returns hreturns _ => exact absurd ⟨b, base, rfl, rfl, hreturns⟩ (hgoes _)
  | cons t top =>
    cases passage hstep with
    | @stays t' _ _ _ h =>
      obtain rfl : callStack' = _ := h
      exact .mk (t' :: top) hreturn
    | @enters callee _ h =>
      obtain rfl : callStack' = _ := h
      exact .mk (callee :: { t with ip := t.ip + 1 } :: top) hreturn
    | @returns p _ h =>
      cases top with
      | nil =>
        simp only [popFrame, Frame.setPointer, List.append_eq, List.nil_append] at h
        split at h
        next =>
          obtain ⟨rfl, -, -⟩ := Vm.mk.inj (Next.running.inj (Except.ok.inj h))
          exact .mk [] hreturn
        next => cases h
      | cons u top =>
        simp only [popFrame, Frame.setPointer, List.append_eq, List.cons_append] at h
        split at h
        next =>
          obtain ⟨rfl, -, -⟩ := Vm.mk.inj (Next.running.inj (Except.ok.inj h))
          exact .mk (_ :: top) hreturn
        next => cases h

theorem above_not_at {rest : List Frame} {caller : Frame} {ip : Nat}
    (h : Above (caller :: rest) dst vm) (p : Option VmValue) : ¬ vm.At rest.length ip dst p := by
  obtain @⟨top, b, depth, world, -⟩ := h
  rintro ⟨fr, frs, hstack, hlength, -⟩
  have hcount := congrArg List.length hstack
  simp only [List.length_append, List.length_cons, hlength] at hcount
  omega

/-- When it returns, its value is in the destination. -/
theorem above_returns {rest : List Frame} {caller : Frame} {p : Option VmValue}
    (h : Above (caller :: rest) dst vm) (hdst : dst < caller.registers.length)
    (hreturns : vm.Returning (rest.length + 1) p) : ∃ depth, m.Advances vm
      ⟨{ caller with registers := caller.registers.set dst p } :: rest, depth, vm.world⟩ := by
  obtain @⟨top, b, depth, world, hreturn⟩ := h
  obtain ⟨fr, frs, hstack, hlength, hends⟩ := hreturns
  obtain rfl : top = [] := by
    have hcount := congrArg List.length hstack
    simp only [List.length_append, List.length_cons, hlength] at hcount
    exact List.length_eq_zero_iff.mp (by omega)
  obtain ⟨rfl, rfl⟩ := List.cons.inj hstack
  refine ⟨depth - 1, (step_returns hends).trans ?_⟩
  rw [hreturn]
  simp only [popFrame, Frame.setPointer, if_pos hdst]
  rfl

/-- The answer of an activation is the answer of the call in its caller. -/
theorem until_above {rest : List Frame} {caller : Frame} {ip : Nat}
    {o : Except Fault (Option VmValue × World)} (hdst : dst < caller.registers.length)
    (hback : ∀ p depth world o, m.Until (Vm.At rest.length ip dst)
      ⟨{ caller with registers := caller.registers.set dst p } :: rest, depth, world⟩ o ↔
        o = .ok (p, world))
    (h : Above (caller :: rest) dst vm) :
    m.Until (Vm.Returning (rest.length + 1)) vm o ↔ m.Until (Vm.At rest.length ip dst) vm o := by
  constructor
  · intro ho
    induction ho with
    | stops hstop =>
      obtain ⟨depth, hstep⟩ := above_returns (m := m) h hdst hstop
      rw [until_step (above_not_at h) hstep, hback]
    | fails hgoes hstep => exact .fails (above_not_at h) hstep
    | advances hgoes hstep _ ih =>
        exact .advances (above_not_at h) hstep (ih (above_step h hgoes hstep))
  · intro ho
    induction ho with
    | stops hstop => exact absurd hstop (above_not_at h _)
    | fails _ hstep =>
      refine .fails (fun p hp => ?_) hstep
      obtain ⟨depth, hstep'⟩ := above_returns (m := m) h hdst hp
      exact nomatch hstep.symm.trans hstep'
    | @advances vm vm' o _ hstep ho ih =>
      by_cases hstop : ∃ p, vm.Returning (rest.length + 1) p
      · obtain ⟨p, hp⟩ := hstop
        obtain ⟨depth, hstep'⟩ := above_returns (m := m) h hdst hp
        have heq := hstep.symm.trans hstep'
        simp only [Except.ok.injEq, Next.running.injEq] at heq
        rw [heq, hback] at ho
        exact ho ▸ .stops hp
      · have hgoes := not_exists.mp hstop
        exact .advances hgoes hstep (ih (above_step h hgoes hstep))

end Machine

end Airl
