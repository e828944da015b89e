import Airl.Bytecode.Jumps
import Airl.Correctness.Program

/-! # Where patched jumps land

A jump that the compiler has patched lands where it was meant to if and only if
its distance fits an `i16` and its target an `i32`.
-/

namespace Airl

variable {World : Type}

/-- The frame is one in which the jump is taken. -/
def Frame.TakesJump (fr : Frame) (instr : Instruction) : Prop :=
  match instr.op with
  | .jump => True
  | .jumpIfFalse => fr.Holds instr.a (.bool false)
  | .jumpIfTrue => fr.Holds instr.a (.bool true)
  | .jumpIfNoMatch => fr.matchFlag = false
  | _ => False

/-- Wherever the jump at `site` is taken, the machine goes on at `target`. -/
def Lands (m : Machine World) (world : World) (func : BytecodeFunc) (site target : Nat) : Prop :=
  ∀ fr rest depth instr, fr.func = func → fr.ip = site → func.instructions[site]? = some instr →
    fr.TakesJump instr → m.step ⟨fr :: rest, depth, world⟩ =
      .ok (.running ⟨{ fr with ip := target } :: rest, depth, world⟩)

namespace Machine

variable {m : Machine World} {fr : Frame} {rest : List Frame} {depth : Nat} {world : World}

theorem step_takesJump {instr : Instruction} (hinstr : fr.func.instructions[fr.ip]? = some instr)
    (htakes : fr.TakesJump instr) :
    m.step ⟨fr :: rest, depth, world⟩ =
      .ok (.running ⟨{ fr with ip := jumpTarget (fr.ip + 1) instr.jumpOperand } :: rest, depth,
        world⟩) := by
  obtain ⟨op, dst, a, b⟩ := instr
  rw [step_eq hinstr]
  cases op <;> try exact htakes.elim
  case jump => rfl
  case jumpIfFalse =>
    have hpointer : ({ fr with ip := fr.ip + 1 } : Frame).pointer a = .ok (some (.bool false)) :=
      Frame.Holds.pointer htakes
    simp only [exec, hpointer]
    rfl
  case jumpIfTrue =>
    have hpointer : ({ fr with ip := fr.ip + 1 } : Frame).pointer a = .ok (some (.bool true)) :=
      Frame.Holds.pointer htakes
    simp only [exec, hpointer]
    rfl
  case jumpIfNoMatch =>
    have hflag : fr.matchFlag = false := htakes
    simp only [exec, hflag]
    rfl

end Machine

theorem exists_takesJump (func : BytecodeFunc) (site : Nat) {instr : Instruction}
    (hjump : instr.op.isJump = true) :
    ∃ fr : Frame, fr.func = func ∧ fr.ip = site ∧ fr.TakesJump instr := by
  obtain ⟨op, dst, a, b⟩ := instr
  have hholds (v : VmValue) : (List.replicate (a + 1) (some v))[a]? = some (some v) := by simp
  cases op <;> cases hjump
  case jump => exact ⟨⟨[], "", site, 0, false, [], func⟩, rfl, rfl, trivial⟩
  case jumpIfFalse =>
    exact ⟨⟨List.replicate (a + 1) (some (.bool false)), "", site, 0, false, [], func⟩, rfl, rfl,
      hholds _⟩
  case jumpIfTrue =>
    exact ⟨⟨List.replicate (a + 1) (some (.bool true)), "", site, 0, false, [], func⟩, rfl, rfl,
      hholds _⟩
  case jumpIfNoMatch => exact ⟨⟨[], "", site, 0, false, [], func⟩, rfl, rfl, rfl⟩

theorem lands_iff_jumpTarget (m : Machine World) (world : World) {func : BytecodeFunc}
    {site target : Nat} {instr : Instruction} (hinstr : func.instructions[site]? = some instr)
    (hjump : instr.op.isJump = true) :
    Lands m world func site target ↔ jumpTarget (site + 1) instr.jumpOperand = target := by
  constructor
  · intro hlands
    obtain ⟨fr, rfl, rfl, htakes⟩ := exists_takesJump func site hjump
    have hstep := hlands fr [] 0 instr rfl rfl hinstr htakes
    rw [Machine.step_takesJump hinstr htakes] at hstep
    simp only [Except.ok.injEq, Next.running.injEq, Vm.mk.injEq, List.cons.injEq, and_true,
      Frame.mk.injEq, true_and] at hstep
    exact hstep
  · rintro rfl fr rest depth instr' rfl rfl hinstr' htakes
    obtain rfl := Option.some.inj (hinstr.symm.trans hinstr')
    exact Machine.step_takesJump hinstr htakes

/-- The casts to `i16` and `i32` are exact only within their ranges: outside, the sum is another
number or, where it is negative, beyond every vector. -/
theorem jumpTarget_eq_iff {ip distance : Nat} (hvec : ip + distance < 0x8000000000000000) :
    jumpTarget ip (toU16 distance) = ip + distance ↔
      distance < 32768 ∧ ip + distance < 2147483648 := by
  constructor
  · intro h
    unfold jumpTarget asI32 asI16 toU16 at h
    simp only at h
    split_ifs at h <;> omega
  · exact fun ⟨hfits, hshort⟩ => Machine.jumpTarget_eq hfits hshort

/-- One patched jump, in any function that holds the code. -/
theorem Patched.lands_iff {code : List Instruction} {ps : List Patch} (h : Patched code ps)
    (m : Machine World) (world : World) {func : BytecodeFunc} {base : Nat}
    (hcode : CodeAt func.instructions base code)
    (hvec : func.instructions.length < 0x8000000000000000) {p : Patch} (hp : p ∈ ps) :
    Lands m world func (base + p.site) (base + p.target) ↔
      p.distance < 32768 ∧ base + p.target < 2147483648 := by
  obtain ⟨hlt, hle, instr, hinstr, hjump, hoperand⟩ := h.patched p hp
  have hne : code ≠ [] := fun hnil => by
    rw [hnil] at hinstr
    exact nomatch hinstr
  have hend := hcode.length_le hne
  have htarget : base + p.site + 1 + p.distance = base + p.target := by
    unfold Patch.distance
    omega
  rw [lands_iff_jumpTarget m world (hcode hinstr) hjump, hoperand, ← htarget]
  exact jumpTarget_eq_iff (by omega)

/-- For every expression, on both compile paths, at every place of a function: its jumps are those
patched, and all of them land where they were meant to if and only if every distance fits an
`i16` and every target an `i32`. (No vector has 2^63 entries.) -/
theorem compiled_jumps_land_iff (node : IRNode) (pos : Position) (dst : Nat) (s : Compiler)
    (m : Machine World) (world : World) {func : BytecodeFunc} {base : Nat}
    (hcode : CodeAt func.instructions base (compileNode node pos dst s).code)
    (hvec : func.instructions.length < 0x8000000000000000) :
    Patched (compileNode node pos dst s).code (nodePatches node pos dst s) ∧
      ((∀ p ∈ nodePatches node pos dst s, Lands m world func (base + p.site) (base + p.target)) ↔
        ∀ p ∈ nodePatches node pos dst s, p.distance < 32768 ∧ base + p.target < 2147483648) := by
  have hpatched := compileNode_patched node pos dst s
  exact ⟨hpatched, forall₂_congr fun p hp => hpatched.lands_iff m world hcode hvec hp⟩

/-- `(if c 1 2)` in a function of its own. -/
theorem choice_jumps_land :
    Patched (compileNode (.ite (.load "c") (.int 1) (.int 2)) .value 0 {}).code
        (nodePatches (.ite (.load "c") (.int 1) (.int 2)) .value 0 {}) ∧
      ((∀ p ∈ nodePatches (.ite (.load "c") (.int 1) (.int 2)) .value 0 {},
          Lands (⟨[], atBuiltins, 100⟩ : Machine Unit) ()
            ⟨"choice", 0, 2, 0, (compileNode (.ite (.load "c") (.int 1) (.int 2)) .value 0 {}).code,
              [.nil, .int 1, .int 2]⟩ (0 + p.site) (0 + p.target)) ↔
        ∀ p ∈ nodePatches (.ite (.load "c") (.int 1) (.int 2)) .value 0 {},
          p.distance < 32768 ∧ 0 + p.target < 2147483648) :=
  compiled_jumps_land_iff _ _ _ _ _ _ (.self _) (by decide)

/-- `(if false (do nil .. nil) 7)`. -/
def longBranch (count : Nat) : IRNode :=
  .ite (.bool false) (.do (List.replicate (count + 1) .nil)) (.int 7)

/-- A function whose body is the code of `longBranch`. -/
def longFunc (count : Nat) : BytecodeFunc :=
  ⟨"long", 0, 2, 0, (compileNode (longBranch count) .value 0 {}).code, [.int 7]⟩

theorem compileDo_replicate_nil (n : Nat) (pos : Position) (dst : Nat) (s : Compiler) :
    (compileDo (List.replicate n .nil) pos dst s).code.length = n := by
  induction n generalizing s with
  | zero => simp [compileDo]
  | succ n ih =>
    cases n with
    | zero => simp [compileDo, compileNode]
    | succ n =>
      rw [List.replicate_succ, List.replicate_succ, compileDo, ← List.replicate_succ,
        List.length_append, ih]
      · simp [compileNode, Nat.add_comm]
      · simp

theorem compileNode_replicate_nil (n : Nat) (pos : Position) (dst : Nat) (s : Compiler) :
    (compileNode (.do (List.replicate (n + 1) .nil)) pos dst s).code.length = n + 1 := by
  rw [List.replicate_succ, compileNode, ← List.replicate_succ]
  exact compileDo_replicate_nil (n + 1) pos dst s

theorem longBranch_patch (count : Nat) :
    ⟨1, count + 4⟩ ∈ nodePatches (longBranch count) .value 0 {} := by
  simp only [longBranch, nodePatches, compileNode_replicate_nil]
  refine List.mem_append_left _ (List.mem_append_right _ ?_)
  rw [show (compileNode (.bool false) .value (Compiler.nextReg {})
    (Compiler.allocReg {})).code.length
    = 1 from rfl, show 1 + 1 + (count + 1) + 1 = count + 4 by omega]
  exact List.mem_cons_self

theorem longBranch_length (count : Nat) :
    (compileNode (longBranch count) .value 0 {}).code.length = count + 5 := by
  simp only [longBranch, compileNode, List.length_append, List.length_cons,
    compileNode_replicate_nil]
  simp [Compiler.loadConstant]
  omega

/-- The jump over the branch goes backwards out of the function instead of to the second branch. -/
theorem longBranch_misses : ¬ ∀ (node : IRNode) (func : BytecodeFunc),
    func.instructions = (compileNode node .value 0 {}).code →
      ∀ p ∈ nodePatches node .value 0 {},
        Lands (⟨[], atBuiltins, 100⟩ : Machine Unit) () func p.site p.target := by
  intro hlands
  have hpatched := compileNode_patched (longBranch 32767) .value 0 {}
  have hcode : CodeAt (longFunc 32767).instructions 0
      (compileNode (longBranch 32767) .value 0 {}).code := .self _
  have hlong := hlands (longBranch 32767) (longFunc 32767) rfl _ (longBranch_patch 32767)
  have hfits := (hpatched.lands_iff ⟨[], atBuiltins, 100⟩ () hcode
    (by rw [longFunc, longBranch_length]; decide) (longBranch_patch 32767)).mp
    (by simpa only [Nat.zero_add] using hlong)
  exact absurd hfits.1 (by decide)

end Airl
