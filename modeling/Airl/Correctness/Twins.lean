import Mathlib.Data.Set.Basic
import Airl.Correctness.Steps

/-! # Frames that agree where it matters

Two frames of one function that agree on some registers do the same as long as
they read no other. What they write is agreed on afterwards.
-/

namespace Airl

variable {World : Type}

/-- What an instruction may read of a frame besides its code: a register or the match flag. -/
inductive Place where
  | register (r : Nat)
  | flag

/-- Frames at the same point of the same function that agree on the known places. -/
structure Twin (known : Set Place) (a b : Frame) : Prop where
  func : b.func = a.func
  funcName : b.funcName = a.funcName
  ip : b.ip = a.ip
  moved : b.moved = a.moved
  length : b.registers.length = a.registers.length
  register : ∀ {r}, .register r ∈ known → b.registers[r]? = a.registers[r]?
  flag : .flag ∈ known → b.matchFlag = a.matchFlag

/-- The instruction reads the place. -/
def Machine.Reads (m : Machine World) (fr : Frame) (instr : Instruction) : Place → Prop
  | .flag => instr.op = .jumpIfNoMatch
  | .register r =>
    match instr.op with
    | .move | .not | .neg | .jumpIfFalse | .jumpIfTrue | .matchTag | .matchWild | .tryUnwrap
    | .assertRequires | .assertEnsures | .assertInvariant | .ret => r = instr.a
    | .add | .sub | .mul | .div | .mod | .eq | .ne | .lt | .le | .gt | .ge =>
      r = instr.a ∨ r = instr.b
    | .makeVariant => r = instr.b
    | .makeList => instr.a ≤ r ∧ r < instr.a + instr.b
    | .call | .callBuiltin => instr.dst < r ∧ r < instr.dst + 1 + instr.b
    | .callReg => r = instr.a ∨ instr.dst < r ∧ r < instr.dst + 1 + instr.b
    | .makeClosure => ∃ name func, fr.func.constants[instr.a]? = some (.str name) ∧
        m.lookup name = some func ∧ instr.b ≤ r ∧ r < instr.b + func.captureCount
    | _ => False

/-- The instruction, if it passes without leaving the frame, writes the place. -/
def Frame.Writes (fr : Frame) (instr : Instruction) : Place → Prop
  | .flag => instr.op = .matchTag ∨ instr.op = .matchWild
  | .register r =>
    match instr.op with
    | .jump | .jumpIfFalse | .jumpIfTrue | .jumpIfNoMatch | .assertRequires | .assertEnsures
    | .assertInvariant | .markMoved | .checkNotMoved | .tailCall | .ret => False
    | .release => r = instr.a
    | .matchTag => r = instr.dst ∧ ∃ tag v, fr.func.constants[instr.b]? = some (.str tag) ∧
        fr.registers[instr.a]? = some (some (.variant tag v))
    | _ => r = instr.dst

namespace Twin

variable {known known' : Set Place} {a b : Frame}

theorem refl (known : Set Place) (a : Frame) : Twin known a a :=
  ⟨rfl, rfl, rfl, rfl, rfl, fun _ => rfl, fun _ => rfl⟩

/-- Twins that agree on more agree on less. -/
theorem mono (h : Twin known a b) (hsub : ∀ p ∈ known', p ∈ known) : Twin known' a b :=
  ⟨h.func, h.funcName, h.ip, h.moved, h.length, fun hr => h.register (hsub _ hr),
    fun hf => h.flag (hsub _ hf)⟩

/-- Frames that agree everywhere are equal, once they return to the same register. -/
theorem eq (h : Twin Set.univ a b) (hreturn : b.returnReg = a.returnReg) : b = a := by
  obtain ⟨registers, funcName, ip, returnReg, matchFlag, moved, func⟩ := a
  obtain ⟨registers', funcName', ip', returnReg', matchFlag', moved', func'⟩ := b
  have hregisters : registers' = registers :=
    List.ext_getElem? fun r => h.register (Set.mem_univ _)
  simp only [Frame.mk.injEq]
  exact ⟨hregisters, h.funcName, h.ip, hreturn, h.flag (Set.mem_univ _), h.moved, h.func⟩

/-- A register that is known is read alike. -/
theorem pointer (h : Twin known a b) {r : Nat} (hr : .register r ∈ known) :
    b.pointer r = a.pointer r := by
  unfold Frame.pointer
  rw [h.register hr]

theorem read (h : Twin known a b) {r : Nat} (hr : .register r ∈ known) : b.read r = a.read r := by
  unfold Frame.read
  rw [h.register hr]

/-- So is a window of such registers. -/
theorem window (h : Twin known a b) {start count : Nat}
    (hr : ∀ r, start ≤ r → r < start + count → .register r ∈ known) :
    b.window start count = a.window start count := by
  induction count generalizing start with
  | zero => rfl
  | succ count ih =>
    unfold Frame.window
    rw [h.pointer (hr start le_rfl (by omega)), ih fun r hlow hhigh => hr r (by omega) (by omega)]

theorem constant (h : Twin known a b) (idx : Nat) : b.constant idx = a.constant idx := by
  unfold Frame.constant
  rw [h.func]

theorem stringConstant (h : Twin known a b) (idx : Nat) (message : String) :
    b.stringConstant idx message = a.stringConstant idx message := by
  unfold Frame.stringConstant
  rw [h.func]

/-- A register that both write is known. -/
theorem set (h : Twin known a b) (r : Nat) (p : Option VmValue) :
    Twin (insert (.register r) known) { a with registers := a.registers.set r p }
      { b with registers := b.registers.set r p } where
  func := h.func
  funcName := h.funcName
  ip := h.ip
  moved := h.moved
  length := by simp [h.length]
  register := by
    intro r' hr'
    simp only [List.getElem?_set]
    split
    next => rw [h.length]
    next hne =>
      refine h.register (hr'.resolve_left fun heq => hne ?_)
      exact (Place.register.inj heq).symm
  flag hf := h.flag (hf.resolve_left nofun)

/-- So is the flag. -/
theorem setFlag (h : Twin known a b) (flag : Bool) :
    Twin (insert .flag known) { a with matchFlag := flag } { b with matchFlag := flag } where
  func := h.func
  funcName := h.funcName
  ip := h.ip
  moved := h.moved
  length := h.length
  register hr := h.register (hr.resolve_left nofun)
  flag _ := rfl

theorem setMoved (h : Twin known a b) (f : List Bool → List Bool) :
    Twin known { a with moved := f a.moved } { b with moved := f b.moved } where
  func := h.func
  funcName := h.funcName
  ip := h.ip
  moved := congrArg f h.moved
  length := h.length
  register := h.register
  flag := h.flag

theorem setIp (h : Twin known a b) (ip : Nat) :
    Twin known { a with ip := ip } { b with ip := ip } where
  func := h.func
  funcName := h.funcName
  ip := rfl
  moved := h.moved
  length := h.length
  register := h.register
  flag := h.flag

end Twin

namespace Machine

/-- How one pass of two frames ends alike: in the same failure, in twin frames that know `known`,
or in the same call. -/
inductive Alike (m : Machine World) (known : Set Place) (a b : Frame) (rest rest' : List Frame)
    (depth depth' : Nat) : Except Fault (Next World) → Except Fault (Next World) → Prop
  | fails (f : Fault) : Alike m known a b rest rest' depth depth' (.error f) (.error f)
  | stays {a' b' : Frame} {world : World} (htwin : Twin known a' b')
      (hfunc : a'.func = a.func) (ha : a'.returnReg = a.returnReg)
      (hb : b'.returnReg = b.returnReg) (hmoved : a'.moved.length = a.moved.length) :
      Alike m known a b rest rest' depth depth' (.ok (.running ⟨a' :: rest, depth, world⟩))
        (.ok (.running ⟨b' :: rest', depth', world⟩))
  | enters (name : String) (args : List (Option VmValue)) (dst : Nat) (world : World) :
      Alike m known a b rest rest' depth depth' (m.enter name args dst a rest depth world)
        (m.enter name args dst b rest' depth' world)

section Alike

variable {m : Machine World} {known : Set Place} {a b : Frame} {rest rest' : List Frame}
  {depth depth' : Nat} {world : World}

theorem Alike.bind {α : Type} (r : Except Fault α) {k k' : α → Except Fault (Next World)}
    (h : ∀ x, r = .ok x → m.Alike known a b rest rest' depth depth' (k x) (k' x)) :
    m.Alike known a b rest rest' depth depth' (r >>= k) (r >>= k') := by
  cases r with
  | error f => exact .fails f
  | ok x => exact h x rfl

theorem alike_setPointer (htwin : Twin known a b) (dst : Nat) (p : Option VmValue) :
    m.Alike (insert (.register dst) known) a b rest rest' depth depth'
      (do let fr ← a.setPointer dst p; .ok (.running ⟨fr :: rest, depth, world⟩))
      (do let fr ← b.setPointer dst p; .ok (.running ⟨fr :: rest', depth', world⟩)) := by
  unfold Frame.setPointer
  rw [htwin.length]
  split
  next => exact .stays (htwin.set dst p) rfl rfl rfl rfl
  next => exact .fails _

/-- Both store a value. -/
theorem alike_store (htwin : Twin known a b) (v : VmValue) (dst : Nat) (world : World) :
    m.Alike (insert (.register dst) known) a b rest rest' depth depth'
      (store v dst a rest depth world) (store v dst b rest' depth' world) :=
  alike_setPointer htwin dst _

/-- Both store an answer or fail alike. -/
theorem alike_answer (htwin : Twin known a b) (r : Except Fault VmValue × World) (dst : Nat) :
    m.Alike (insert (.register dst) known) a b rest rest' depth depth'
      (answer r dst a rest depth) (answer r dst b rest' depth') := by
  obtain ⟨r, world⟩ := r
  cases r with
  | error f => exact .fails f
  | ok v => exact alike_setPointer htwin dst _

/-- Both call the same name. -/
theorem alike_callNamed (htwin : Twin known a b) (name : String) (ps : List (Option VmValue))
    (dst : Nat) :
    m.Alike (insert (.register dst) known) a b rest rest' depth depth'
      (m.callNamed name ps dst a rest depth world)
        (m.callNamed name ps dst b rest' depth' world) := by
  unfold callNamed
  split
  next => exact alike_store htwin _ _ _
  split
  next => exact alike_store htwin _ _ _
  split
  next =>
    refine .bind _ fun args _ => ?_
    split
    next => exact alike_answer htwin _ _
    next => exact .fails _
  next => exact .enters _ _ _ _

/-- Both call the same value. -/
theorem alike_callValue (htwin : Twin known a b) (callee : VmValue) (args : List VmValue)
    (dst : Nat) :
    m.Alike (insert (.register dst) known) a b rest rest' depth depth'
      (m.callValue callee args dst a rest depth world)
      (m.callValue callee args dst b rest' depth' world) := by
  unfold callValue
  split
  next name captured args _ =>
    cases m.lookup name with
    | none =>
      dsimp only
      split_ifs
      · exact alike_store htwin _ _ _
      · exact .fails _
      · exact .enters _ _ _ _
    | some func =>
      dsimp only
      split_ifs
      · exact alike_store htwin _ _ _
      · exact .fails _
      · exact alike_answer htwin _ _
      · exact .enters _ _ _ _
  next name args _ =>
    split
    · exact alike_store htwin _ _ _
    · split
      · exact alike_answer htwin _ _
      · exact .enters _ _ _ _
  next name args _ =>
    split
    · exact alike_store htwin _ _ _
    · split
      · exact alike_answer htwin _ _
      · exact .enters _ _ _ _
  next => exact .fails _

theorem Alike.mono {known' : Set Place} {r r' : Except Fault (Next World)}
    (h : m.Alike known a b rest rest' depth depth' r r') (hsub : ∀ p ∈ known', p ∈ known) :
    m.Alike known' a b rest rest' depth depth' r r' := by
  cases h with
  | fails f => exact .fails f
  | stays htwin hfunc ha hb hmoved => exact .stays (htwin.mono hsub) hfunc ha hb hmoved
  | enters name args dst world => exact .enters name args dst world

theorem alike_jumpBy (htwin : Twin known a b) (operand : Nat) :
    m.Alike known a b rest rest' depth depth'
      (.ok (.running ⟨a.jumpBy operand :: rest, depth, world⟩))
      (.ok (.running ⟨b.jumpBy operand :: rest', depth', world⟩)) := by
  unfold Frame.jumpBy
  rw [htwin.ip]
  generalize jumpTarget a.ip operand = target
  exact .stays (htwin.setIp target) rfl rfl rfl rfl

variable (rest rest' depth depth' world) in
/-- An instruction that reads only what is known does the same to both. -/
theorem alike_exec {instr : Instruction} (htwin : Twin known a b) (hop : instr.op ≠ .ret)
    (hreads : ∀ p, m.Reads a instr p → p ∈ known) :
    m.Alike {p | p ∈ known ∨ a.Writes instr p} a b rest rest' depth depth'
      (m.exec instr a rest depth world) (m.exec instr b rest' depth' world) := by
  obtain ⟨op, dst, x, y⟩ := instr
  -- most instructions leave the flag alone and write their destination, or no register
  have hdst : (∀ r, a.Writes ⟨op, dst, x, y⟩ (.register r) → r = dst) → op ≠ .matchTag →
      op ≠ .matchWild → ∀ {r r'},
      m.Alike (insert (.register dst) known) a b rest rest' depth depth' r r' →
      m.Alike {q | q ∈ known ∨ a.Writes ⟨op, dst, x, y⟩ q} a b rest rest' depth depth' r r' := by
    intro hwrites htag hwild r r' h
    refine h.mono fun q hq => hq.elim Or.inr fun hq => Or.inl ?_
    cases q with
    | register r => exact congrArg Place.register (hwrites r hq)
    | flag => exact (hq.elim htag hwild).elim
  have hnone : (∀ r, ¬ a.Writes ⟨op, dst, x, y⟩ (.register r)) → op ≠ .matchTag →
      op ≠ .matchWild → ∀ {r r'}, m.Alike known a b rest rest' depth depth' r r' →
      m.Alike {q | q ∈ known ∨ a.Writes ⟨op, dst, x, y⟩ q} a b rest rest' depth depth' r r' := by
    intro hwrites htag hwild r r' h
    refine h.mono fun q hq => hq.resolve_right ?_
    cases q with
    | register r => exact hwrites r
    | flag => exact fun hq => (hq.elim htag hwild).elim
  cases op with
  | loadConst =>
    simp only [exec, htwin.constant]
    exact .bind _ fun v _ =>
      hdst (fun _ h => h) (by decide) (by decide) (alike_setPointer htwin dst _)
  | loadNil | loadTrue | loadFalse =>
    exact hdst (fun _ h => h) (by decide) (by decide) (alike_setPointer htwin dst _)
  | move =>
    simp only [exec, htwin.pointer (hreads (.register x) rfl)]
    exact .bind _ fun p _ =>
      hdst (fun _ h => h) (by decide) (by decide) (alike_setPointer htwin dst _)
  | not | neg =>
    simp only [exec, htwin.read (hreads (.register x) rfl)]
    exact .bind _ fun v _ => .bind _ fun w _ =>
      hdst (fun _ h => h) (by decide) (by decide) (alike_setPointer htwin dst _)
  | add | sub | mul | div | mod | eq | ne | lt | le | gt | ge =>
    simp only [exec, htwin.read (hreads (.register x) (Or.inl rfl)),
      htwin.read (hreads (.register y) (Or.inr rfl))]
    exact .bind _ fun v _ => .bind _ fun w _ => .bind _ fun z _ =>
      hdst (fun _ h => h) (by decide) (by decide) (alike_setPointer htwin dst _)
  | jump =>
    exact hnone (fun _ h => h) (by decide) (by decide) (alike_jumpBy htwin x)
  | jumpIfFalse | jumpIfTrue =>
    simp only [exec, htwin.pointer (hreads (.register x) rfl)]
    refine .bind _ fun p _ => hnone (fun _ h => h) (by decide) (by decide) ?_
    split
    · exact alike_jumpBy htwin y
    · exact .stays htwin rfl rfl rfl rfl
  | makeList =>
    simp only [exec, htwin.window fun r hlow hhigh => hreads (.register r) ⟨hlow, hhigh⟩]
    exact .bind _ fun ps _ => .bind _ fun vs _ =>
      hdst (fun _ h => h) (by decide) (by decide) (alike_setPointer htwin dst _)
  | makeVariant =>
    simp only [exec, htwin.stringConstant, htwin.read (hreads (.register y) rfl)]
    exact .bind _ fun tag _ => .bind _ fun v _ =>
      hdst (fun _ h => h) (by decide) (by decide) (alike_setPointer htwin dst _)
  | makeVariant0 =>
    simp only [exec, htwin.stringConstant]
    exact .bind _ fun tag _ =>
      hdst (fun _ h => h) (by decide) (by decide) (alike_setPointer htwin dst _)
  | matchTag =>
    simp only [exec, htwin.stringConstant, htwin.read (hreads (.register x) rfl)]
    refine .bind _ fun tag htag => .bind _ fun v hv => ?_
    have htag' := (a.stringConstant_ends y _).of_eq_ok htag
    have hv' := (a.read_ends x).of_eq_ok hv
    -- without the tag only the flag is written
    have hmiss : (∀ inner, v ≠ .variant tag inner) →
        m.Alike {q | q ∈ known ∨ a.Writes ⟨.matchTag, dst, x, y⟩ q} a b rest rest' depth depth'
          (.ok (.running ⟨{ a with matchFlag := false } :: rest, depth, world⟩))
          (.ok (.running ⟨{ b with matchFlag := false } :: rest', depth', world⟩)) := by
      intro hne
      refine .stays ((htwin.setFlag false).mono fun q hq => ?_) rfl rfl rfl rfl
      rcases hq with hq | hq
      · exact Or.inr hq
      · cases q with
        | flag => exact Or.inl rfl
        | register r =>
          obtain ⟨-, tag', inner, htag'', hinner⟩ := hq
          rw [htag', Option.some.injEq, Value.str.injEq] at htag''
          rw [hv', Option.some.injEq, Option.some.injEq] at hinner
          exact absurd (hinner.trans (by rw [htag''])) (hne inner)
    split
    next name inner =>
      split
      next hname =>
        subst hname
        unfold Frame.write Frame.setPointer
        rw [htwin.length]
        split
        · refine .stays (((htwin.set dst (some inner)).setFlag true).mono fun q hq => ?_)
            rfl rfl rfl rfl
          rcases hq with hq | hq
          · exact Or.inr (Or.inr hq)
          · cases q with
            | register r => exact Or.inr (Or.inl (congrArg Place.register hq.1))
            | flag => exact Or.inl rfl
        · exact .fails _
      next hname => exact hmiss fun inner' heq => hname (Value.variant.inj heq).1
    next hne => exact hmiss fun inner heq => hne tag inner heq
  | jumpIfNoMatch =>
    simp only [exec, htwin.flag (hreads .flag rfl)]
    apply hnone (fun _ h => h) (by decide) (by decide)
    cases a.matchFlag
    · exact alike_jumpBy htwin x
    · exact .stays htwin rfl rfl rfl rfl
  | matchWild =>
    simp only [exec, htwin.pointer (hreads (.register x) rfl)]
    refine .bind _ fun p _ => ?_
    unfold Frame.setPointer
    rw [htwin.length]
    split
    · refine .stays (((htwin.set dst p).setFlag true).mono fun q hq => ?_) rfl rfl rfl rfl
      rcases hq with hq | hq
      · exact Or.inr (Or.inr hq)
      · cases q with
        | register r => exact Or.inr (Or.inl (congrArg Place.register hq))
        | flag => exact Or.inl rfl
    · exact .fails _
  | tryUnwrap =>
    simp only [exec, htwin.read (hreads (.register x) rfl)]
    refine .bind _ fun v _ => ?_
    split
    · exact hdst (fun _ h => h) (by decide) (by decide) (alike_setPointer htwin dst _)
    · exact .fails _
    · exact .fails _
  | assertRequires | assertEnsures | assertInvariant =>
    simp only [exec, htwin.pointer (hreads (.register x) rfl), htwin.func, htwin.funcName]
    refine .bind _ fun p _ => ?_
    split
    · exact hnone (fun _ h => h) (by decide) (by decide) (.stays htwin rfl rfl rfl rfl)
    · exact .fails _
  | markMoved =>
    apply hnone (fun _ h => h) (by decide) (by decide)
    exact .stays (htwin.setMoved fun moved => moved.set x true) rfl rfl rfl List.length_set
  | checkNotMoved =>
    simp only [exec, htwin.moved, htwin.func]
    split
    · exact .fails _
    · exact hnone (fun _ h => h) (by decide) (by decide) (.stays htwin rfl rfl rfl rfl)
  | call =>
    simp only [exec, htwin.stringConstant,
      htwin.window fun r hlow hhigh => hreads (.register r) ⟨hlow, hhigh⟩]
    exact .bind _ fun name _ => .bind _ fun ps _ =>
      hdst (fun _ h => h) (by decide) (by decide) (alike_callNamed htwin name ps dst)
  | callBuiltin =>
    simp only [exec, htwin.stringConstant,
      htwin.window fun r hlow hhigh => hreads (.register r) ⟨hlow, hhigh⟩]
    refine .bind _ fun name _ => .bind _ fun ps _ => hdst (fun _ h => h) (by decide) (by decide) ?_
    split
    · exact alike_store htwin _ _ _
    · refine .bind _ fun args _ => ?_
      split
      · exact alike_answer htwin _ _
      · exact .fails _
  | callReg =>
    simp only [exec, htwin.pointer (hreads (.register x) (Or.inl rfl)),
      htwin.window fun r hlow hhigh => hreads (.register r) (Or.inr ⟨hlow, hhigh⟩)]
    exact .bind _ fun callee _ => .bind _ fun ps _ =>
      hdst (fun _ h => h) (by decide) (by decide) (alike_callValue htwin _ _ dst)
  | tailCall =>
    apply hnone (fun _ h => h) (by decide) (by decide)
    exact .stays ((htwin.setIp 0).setMoved fun moved => moved.map fun _ => false) rfl rfl rfl
      (List.length_map _)
  | ret => exact absurd rfl hop
  | release =>
    refine .stays ((htwin.set x none).mono fun q hq => ?_) rfl rfl rfl rfl
    rcases hq with hq | hq
    · exact Or.inr hq
    · cases q with
      | register r => exact Or.inl (congrArg Place.register hq)
      | flag =>
        rcases hq with hq | hq
        · cases hq
        · cases hq
  | makeClosure =>
    simp only [exec, htwin.stringConstant]
    refine .bind _ fun name hname => ?_
    have hname' := (a.stringConstant_ends x _).of_eq_ok hname
    have hclosure : ∀ count, b.window y count = a.window y count →
        m.Alike {q | q ∈ known ∨ a.Writes ⟨.makeClosure, dst, x, y⟩ q} a b rest rest' depth depth'
          (if a.registers.length < y + count then
            .error (.error (.custom "MakeClosure: capture range out of bounds"))
          else do
            let ps ← a.window y count
            let fr ← a.setPointer dst (some (Value.bytecodeClosure name (ps.map orNil)).toRt)
            .ok (.running ⟨fr :: rest, depth, world⟩))
          (if b.registers.length < y + count then
            .error (.error (.custom "MakeClosure: capture range out of bounds"))
          else do
            let ps ← b.window y count
            let fr ← b.setPointer dst (some (Value.bytecodeClosure name (ps.map orNil)).toRt)
            .ok (.running ⟨fr :: rest', depth', world⟩)) := by
      intro count hwindow
      rw [htwin.length, hwindow]
      split
      · exact .fails _
      · exact .bind _ fun ps _ => hdst (fun _ h => h) (by decide) (by decide)
          (alike_setPointer htwin dst _)
    cases hlookup : m.lookup name with
    | none => exact hclosure 0 rfl
    | some func =>
      refine hclosure func.captureCount (htwin.window fun r hlow hhigh => ?_)
      exact hreads (.register r) ⟨name, func, hname', hlookup, hlow, hhigh⟩

end Alike

end Machine

end Airl
