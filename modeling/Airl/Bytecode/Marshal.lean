import Airl.Correctness.Boundary

/-! # Native bytecode functions

`bc-func-from` makes a native function of AIRL values (`bc_func.rs`), and `value_to_bytecode_func`
makes of that what the machine loads (`bytecode_marshal.rs`). The numbers are cast to the widths of
the native form on the way in; only an opcode that is none after the cast is refused.
-/

namespace Airl

/-- `n as u16`. -/
def asU16 (n : Int64) : Nat := toU16 n.toInt

/-- `n as u8`. -/
def asU8 (n : Int64) : UInt8 := UInt8.ofNat (n.toInt % 256).toNat

namespace RtValue

def asInt : RtValue → Except Fault Int64
  | .int n => .ok n
  | _ => .error .exit

def asStrOwned : RtValue → Except Fault String
  | .str s => .ok s
  | _ => .error .exit

def listItems : RtValue → Except Fault (List RtValue)
  | .list items => .ok items
  | _ => .error .exit

end RtValue

/-- One `[op dst a b]` list; what follows the fourth item is not read. -/
def bcInstrFrom (inst : RtValue) : Except Fault BcInstr := do
  match ← inst.listItems with
  | op :: dst :: a :: b :: _ =>
    return ⟨asU8 (← op.asInt), asU16 (← dst.asInt), asU16 (← a.asInt), asU16 (← b.asInt)⟩
  | _ => .error .exit

def bcInstrsFrom : List RtValue → Except Fault (List BcInstr)
  | [] => .ok []
  | inst :: rest => do return (← bcInstrFrom inst) :: (← bcInstrsFrom rest)

/-- The function is behind a new `Arc`, so that it is another `copy` than any function there is with
these contents. -/
def airlBcFuncFrom (copy : Nat)
    (name arity regCount captureCount constants instructions : RtValue) :
    Except Fault RtValue := do
  let nameStr ← name.asStrOwned
  let arityV := asU16 (← arity.asInt)
  let regCountV := asU16 (← regCount.asInt)
  let captureCountV := asU16 (← captureCount.asInt)
  let consts ← constants.listItems
  let instrs ← bcInstrsFrom (← instructions.listItems)
  return .bcFuncNative copy nameStr arityV regCountV captureCountV consts instrs

/-- The opcodes in the order of `bytecode.rs`. -/
def opcodes : List Op :=
  [.loadConst, .loadNil, .loadTrue, .loadFalse, .move, .add, .sub, .mul, .div, .mod, .eq, .ne, .lt,
    .le, .gt, .ge, .not, .neg, .jump, .jumpIfFalse, .jumpIfTrue, .call, .callBuiltin, .callReg,
    .tailCall, .ret, .makeList, .makeVariant, .makeVariant0, .makeClosure, .matchTag,
    .jumpIfNoMatch, .matchWild, .tryUnwrap, .assertRequires, .assertEnsures, .assertInvariant,
    .markMoved, .checkNotMoved, .release]

/-- `op as u8`. -/
def Op.code (op : Op) : Nat := opcodes.idxOf op

def intToOp (n : Nat) : Except Fault Op :=
  match opcodes[n]? with
  | some op => .ok op
  | none => .error (.error (.typeError ("bytecode marshal: unknown opcode: " ++ toString n)))

def instructionsFrom : List BcInstr → Except Fault (List Instruction)
  | [] => .ok []
  | i :: rest => do
      let op ← intToOp i.op.toNat
      return ⟨op, i.dst, i.a, i.b⟩ :: (← instructionsFrom rest)

def valueToBytecodeFunc : VmValue → Except Fault BytecodeFunc
  | .bcFuncNative _ name arity regCount captureCount constants instructions => do
      return ⟨name, arity, regCount, captureCount, ← instructionsFrom instructions,
        rtToValueList constants⟩
  | _ => .error (.error (.typeError "bytecode marshal: expected BCFuncNative value"))

mutual

/-- Every closure in the value is one of the machine's: it has no function pointer and its first
capture is a name. -/
def RtValue.interpreted : RtValue → Bool
  | .closure funcPtr (.str _ :: captured) => funcPtr == 0 && interpretedList captured
  | .closure _ _ => false
  | .list items => interpretedList items
  | .map entries => interpretedEntries entries
  | .variant _ inner => inner.interpreted
  | .partialApp _ capturedArgs _ => interpretedList capturedArgs
  | _ => true

def interpretedList : List RtValue → Bool
  | [] => true
  | v :: vs => v.interpreted && interpretedList vs

def interpretedEntries : List (String × RtValue) → Bool
  | [] => true
  | (_, v) :: rest => v.interpreted && interpretedEntries rest

end

mutual

/-- A constant that the machine loads is the one that was given, unless there is a closure of
compiled code in it. -/
theorem valueToRt_rtToValue_iff : ∀ v : RtValue, valueToRt (rtToValue v) = v ↔ v.interpreted = true
  | .list items => by
    simp only [rtToValue, valueToRt, RtValue.interpreted, RtValue.list.injEq,
      valueToRtList_rtToValueList_iff items]
  | .map entries => by
    simp only [rtToValue, valueToRt, RtValue.interpreted, RtValue.map.injEq,
      valueToRtEntries_rtToValueEntries_iff entries]
  | .variant tag inner => by
    simp only [rtToValue, valueToRt, RtValue.interpreted, RtValue.variant.injEq, true_and,
      valueToRt_rtToValue_iff inner]
  | .partialApp name capturedArgs remainingArity => by
    simp only [rtToValue, valueToRt, Value.partialName, RtValue.interpreted,
      RtValue.partialApp.injEq, true_and, and_true, valueToRtList_rtToValueList_iff capturedArgs]
  | .closure _ [] => by simp [rtToValue, valueToRt, RtValue.interpreted]
  | .closure funcPtr (first :: captured) => by
    have hcaptured := valueToRtList_rtToValueList_iff captured
    cases first with
    | str name =>
      simp only [rtToValue, valueToRt, RtValue.interpreted, RtValue.closure.injEq,
        List.cons.injEq, true_and, hcaptured, Bool.and_eq_true, beq_iff_eq,
        @eq_comm _ 0 funcPtr]
    | _ => simp [rtToValue, valueToRt, RtValue.interpreted]
  | .nil | .unit | .int _ | .float _ | .bool _ | .str _ | .bytes _ => by
    simp [rtToValue, valueToRt, RtValue.interpreted]
  | .bcFuncNative _ _ _ _ _ _ _ => by simp [rtToValue, valueToRt, RtValue.interpreted]

theorem valueToRtList_rtToValueList_iff : ∀ vs : List RtValue,
    valueToRtList (rtToValueList vs) = vs ↔ interpretedList vs = true
  | [] => by simp [rtToValueList, valueToRtList, interpretedList]
  | v :: vs => by
    simp only [rtToValueList, valueToRtList, interpretedList, List.cons.injEq, Bool.and_eq_true,
      valueToRt_rtToValue_iff v, valueToRtList_rtToValueList_iff vs]

theorem valueToRtEntries_rtToValueEntries_iff : ∀ entries : List (String × RtValue),
    valueToRtEntries (rtToValueEntries entries) = entries ↔ interpretedEntries entries = true
  | [] => by simp [rtToValueEntries, valueToRtEntries, interpretedEntries]
  | (key, v) :: rest => by
    simp only [rtToValueEntries, valueToRtEntries, interpretedEntries, List.cons.injEq,
      Prod.mk.injEq, true_and, Bool.and_eq_true, valueToRt_rtToValue_iff v,
      valueToRtEntries_rtToValueEntries_iff rest]

end

structure InstrDescription where
  op : Int64
  dst : Int64
  a : Int64
  b : Int64

/-- What the arguments of `bc-func-from` say. -/
structure FuncDescription where
  name : String
  arity : Int64
  regCount : Int64
  captureCount : Int64
  constants : List RtValue
  instructions : List InstrDescription

def InstrDescription.value (i : InstrDescription) : RtValue :=
  .list [.int i.op, .int i.dst, .int i.a, .int i.b]

/-- `bc-func-from`, and marshalling of the result back. -/
def FuncDescription.marshal (copy : Nat) (d : FuncDescription) : Except Fault BytecodeFunc := do
  let v ← airlBcFuncFrom copy (.str d.name) (.int d.arity) (.int d.regCount) (.int d.captureCount)
    (.list d.constants) (.list (d.instructions.map InstrDescription.value))
  valueToBytecodeFunc (rtToValue v)

/-- The number is a `u16`. -/
def FitsU16 (n : Int64) : Prop := 0 ≤ n.toInt ∧ n.toInt < 65536

instance (n : Int64) : Decidable (FitsU16 n) := inferInstanceAs (Decidable (_ ∧ _))

/-- The operands are in range and the opcode is one. -/
structure InstrDescription.Fits (i : InstrDescription) : Prop where
  op : 0 ≤ i.op.toInt ∧ i.op.toInt < opcodes.length
  dst : FitsU16 i.dst
  a : FitsU16 i.a
  b : FitsU16 i.b

structure FuncDescription.Fits (d : FuncDescription) : Prop where
  arity : FitsU16 d.arity
  regCount : FitsU16 d.regCount
  captureCount : FitsU16 d.captureCount
  instructions : ∀ i ∈ d.instructions, i.Fits

/-- The instruction has exactly the described fields. -/
structure InstrDescription.Carried (i : InstrDescription) (instr : Instruction) : Prop where
  op : (instr.op.code : Int) = i.op.toInt
  dst : (instr.dst : Int) = i.dst.toInt
  a : (instr.a : Int) = i.a.toInt
  b : (instr.b : Int) = i.b.toInt

/-- The function has exactly the described fields; its constants are compared as what the machine
makes of them when it loads them. -/
structure FuncDescription.Carried (d : FuncDescription) (f : BytecodeFunc) : Prop where
  name : f.name = d.name
  arity : (f.arity : Int) = d.arity.toInt
  regCount : (f.registerCount : Int) = d.regCount.toInt
  captureCount : (f.captureCount : Int) = d.captureCount.toInt
  instructions : List.Forall₂ InstrDescription.Carried d.instructions f.instructions
  constants : valueToRtList f.constants = d.constants

/-- What fits comes back with exactly its fields, anything else is an error. -/
structure FuncDescription.Faithful (copy : Nat) (d : FuncDescription) : Prop where
  carried : d.Fits → ∃ f, d.marshal copy = .ok f ∧ d.Carried f
  rejected : ¬ d.Fits → ∃ fault, d.marshal copy = .error fault

/-- The instruction after both steps, with its opcode looked up. -/
def InstrDescription.cast (i : InstrDescription) (op : Op) : Instruction :=
  ⟨op, asU16 i.dst, asU16 i.a, asU16 i.b⟩

theorem bcInstrsFrom_values (is : List InstrDescription) :
    bcInstrsFrom (is.map InstrDescription.value) =
      .ok (is.map fun i => ⟨asU8 i.op, asU16 i.dst, asU16 i.a, asU16 i.b⟩) := by
  induction is with
  | nil => rfl
  | cons i is ih =>
    rw [List.map_cons]
    unfold bcInstrsFrom
    rw [ih]
    rfl

theorem asU8_toNat (n : Int64) : (asU8 n).toNat = (n.toInt % 256).toNat := by
  unfold asU8
  rw [UInt8.toNat_ofNat']
  omega

theorem asU16_eq_iff (n : Int64) : (asU16 n : Int) = n.toInt ↔ FitsU16 n := by
  unfold asU16 toU16 FitsU16
  omega

/-- The opcode is found exactly if its low eight bits are one. -/
theorem intToOp_cases (n : Int64) :
    (∃ op, intToOp (asU8 n).toNat = .ok op ∧ (op.code : Int) = n.toInt % 256) ∧
        n.toInt % 256 < opcodes.length ∨
      (∃ fault, intToOp (asU8 n).toNat = .error fault) ∧ opcodes.length ≤ n.toInt % 256 := by
  rw [asU8_toNat]
  unfold intToOp
  by_cases h : (n.toInt % 256).toNat < opcodes.length
  · left
    rw [List.getElem?_eq_getElem h]
    refine ⟨⟨_, rfl, ?_⟩, by omega⟩
    have hcode := List.Nodup.idxOf_getElem (show opcodes.Nodup by decide) _ h
    unfold Op.code
    rw [hcode]
    omega
  · right
    rw [List.getElem?_eq_none (Nat.le_of_not_lt h)]
    exact ⟨⟨_, rfl⟩, by omega⟩

theorem instructionsFrom_cases (is : List InstrDescription) :
    (∃ instrs, instructionsFrom (is.map fun i => ⟨asU8 i.op, asU16 i.dst, asU16 i.a, asU16 i.b⟩) =
          .ok instrs ∧
        List.Forall₂ (fun (i : InstrDescription) instr =>
          (instr.op.code : Int) = i.op.toInt % 256 ∧ instr.dst = asU16 i.dst ∧
            instr.a = asU16 i.a ∧ instr.b = asU16 i.b) is instrs) ∧
        (∀ i ∈ is, i.op.toInt % 256 < opcodes.length) ∨
      (∃ fault, instructionsFrom
          (is.map fun i => ⟨asU8 i.op, asU16 i.dst, asU16 i.a, asU16 i.b⟩) = .error fault) ∧
        ∃ i ∈ is, opcodes.length ≤ i.op.toInt % 256 := by
  induction is with
  | nil => exact .inl ⟨⟨[], rfl, .nil⟩, nofun⟩
  | cons i is ih =>
    simp only [List.map_cons, instructionsFrom]
    rcases intToOp_cases i.op with ⟨⟨op, hop, hcode⟩, hlow⟩ | ⟨⟨fault, hop⟩, hhigh⟩
    · rcases ih with ⟨⟨instrs, hinstrs, hfields⟩, hall⟩ | ⟨⟨fault, hinstrs⟩, j, hj, hhigh⟩
      · left
        refine ⟨⟨i.cast op :: instrs, ?_, .cons ⟨hcode, rfl, rfl, rfl⟩ hfields⟩, ?_⟩
        · rw [hop, hinstrs]
          rfl
        · intro j hj
          rcases List.mem_cons.mp hj with rfl | hj
          · exact hlow
          · exact hall j hj
      · right
        refine ⟨⟨fault, ?_⟩, j, List.mem_cons_of_mem _ hj, hhigh⟩
        rw [hop, hinstrs]
        rfl
    · right
      refine ⟨⟨fault, ?_⟩, i, List.mem_cons_self, hhigh⟩
      rw [hop]
      rfl

theorem marshal_eq (copy : Nat) (d : FuncDescription) :
    d.marshal copy = (do
      let instrs ← instructionsFrom
        (d.instructions.map fun i => ⟨asU8 i.op, asU16 i.dst, asU16 i.a, asU16 i.b⟩)
      return ⟨d.name, asU16 d.arity, asU16 d.regCount, asU16 d.captureCount, instrs,
        rtToValueList d.constants⟩) := by
  have hnative : airlBcFuncFrom copy (.str d.name) (.int d.arity) (.int d.regCount)
      (.int d.captureCount) (.list d.constants)
      (.list (d.instructions.map InstrDescription.value)) =
        .ok (.bcFuncNative copy d.name (asU16 d.arity) (asU16 d.regCount) (asU16 d.captureCount)
          d.constants
          (d.instructions.map fun i => ⟨asU8 i.op, asU16 i.dst, asU16 i.a, asU16 i.b⟩)) := by
    unfold airlBcFuncFrom
    simp only [RtValue.asStrOwned, RtValue.asInt, RtValue.listItems, bind, Except.bind,
      bcInstrsFrom_values]
    rfl
  unfold FuncDescription.marshal
  rw [hnative]
  rfl

theorem carried_of_fits {is : List InstrDescription} {instrs : List Instruction}
    (hfields : List.Forall₂ (fun (i : InstrDescription) instr =>
      (instr.op.code : Int) = i.op.toInt % 256 ∧ instr.dst = asU16 i.dst ∧ instr.a = asU16 i.a ∧
        instr.b = asU16 i.b) is instrs)
    (hfits : ∀ i ∈ is, i.Fits) : List.Forall₂ InstrDescription.Carried is instrs := by
  induction hfields with
  | nil => exact .nil
  | @cons i instr is instrs hfield _ ih =>
    apply List.Forall₂.cons _ (ih fun j hj => hfits j (List.mem_cons_of_mem _ hj))
    obtain ⟨hop, hdst, ha, hb⟩ := hfield
    have hi := hfits i List.mem_cons_self
    have hrange := hi.op
    have hcount : opcodes.length = 40 := rfl
    refine ⟨by omega, hdst ▸ (asU16_eq_iff _).mpr hi.dst, ha ▸ (asU16_eq_iff _).mpr hi.a,
      hb ▸ (asU16_eq_iff _).mpr hi.b⟩

/-- Marshalling is faithful exactly if every number fits and every closure among the constants is
one of the machine's, or if the low eight bits of some opcode are no opcode: nothing else is
refused. -/
theorem marshal_faithful_iff (copy : Nat) (d : FuncDescription) :
    d.Faithful copy ↔ d.Fits ∧ interpretedList d.constants = true ∨
      ∃ i ∈ d.instructions, (opcodes.length : Int) ≤ i.op.toInt % 256 := by
  rcases instructionsFrom_cases d.instructions with
    ⟨⟨instrs, hinstrs, hfields⟩, hlow⟩ | ⟨⟨fault, hfault⟩, i, hi, hhigh⟩
  · have hok : d.marshal copy = .ok ⟨d.name, asU16 d.arity, asU16 d.regCount,
        asU16 d.captureCount, instrs, rtToValueList d.constants⟩ := by
      rw [marshal_eq, hinstrs]
      rfl
    have hnone : ¬ ∃ i ∈ d.instructions, (opcodes.length : Int) ≤ i.op.toInt % 256 := by
      rintro ⟨i, hi, hhigh⟩
      exact absurd (hlow i hi) (Int.not_lt.mpr hhigh)
    rw [or_iff_left hnone]
    constructor
    · intro h
      -- the function that came out has the fields only if they fit
      have hfits : d.Fits := by
        by_contra hfits
        obtain ⟨fault, hfault⟩ := h.rejected hfits
        rw [hok] at hfault
        exact nomatch hfault
      obtain ⟨f, hf, hcarried⟩ := h.carried hfits
      rw [hok] at hf
      cases hf
      exact ⟨hfits, (valueToRtList_rtToValueList_iff _).mp hcarried.constants⟩
    · rintro ⟨hfits, hconstants⟩
      refine ⟨fun _ => ⟨_, hok, ?_⟩, fun h => absurd hfits h⟩
      refine ⟨rfl, (asU16_eq_iff _).mpr hfits.arity, (asU16_eq_iff _).mpr hfits.regCount,
        (asU16_eq_iff _).mpr hfits.captureCount, carried_of_fits hfields hfits.instructions,
        (valueToRtList_rtToValueList_iff _).mpr hconstants⟩
  · have herror : d.marshal copy = .error fault := by
      rw [marshal_eq, hfault]
      rfl
    refine iff_of_true ⟨fun hfits => ?_, fun _ => ⟨fault, herror⟩⟩ (.inr ⟨i, hi, hhigh⟩)
    have hop := (hfits.instructions i hi).op
    have hcount : opcodes.length = 40 := rfl
    omega

/-- One instruction with opcode 281, which is `Return` after the cast. -/
def returns281 : FuncDescription := ⟨"f", 65537, 1, 0, [], [⟨281, 0, 65536, 0⟩]⟩

theorem returns281_reduced :
    ¬ returns281.Fits ∧ ¬ returns281.Faithful 0 ∧
      ∃ f, returns281.marshal 0 = .ok f ∧ f.arity = 1 ∧ f.instructions = [⟨.ret, 0, 0, 0⟩] := by
  have hmarshal : returns281.marshal 0 = .ok ⟨"f", 1, 1, 0, [⟨.ret, 0, 0, 0⟩], []⟩ := by rfl
  have hfits : ¬ returns281.Fits := fun h => absurd h.arity (by decide)
  refine ⟨hfits, fun h => ?_, ⟨_, hmarshal, rfl, rfl⟩⟩
  obtain ⟨fault, hfault⟩ := h.rejected hfits
  rw [hmarshal] at hfault
  exact nomatch hfault

end Airl
