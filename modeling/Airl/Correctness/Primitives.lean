import Airl.Correctness.FastPath
import Airl.Runtime.Arithmetic
import Airl.Runtime.Equality

/-! # The three implementations of the primitives

The main loop, the inline evaluator and the functions of `airl-rt` that compiled code
calls, side by side. The inline evaluator works on values; the other two on what
crossed the runtime boundary.
-/

namespace Airl

inductive Primitive where
  | add | sub | mul | div | mod | neg | eq | lt | le | gt | ge
  deriving Repr, DecidableEq

namespace Primitive

def op : Primitive → Op
  | add => .add
  | sub => .sub
  | mul => .mul
  | div => .div
  | mod => .mod
  | neg => .neg
  | eq => .eq
  | lt => .lt
  | le => .le
  | gt => .gt
  | ge => .ge

/-- The opcode in the main loop; `neg` looks at its first operand only. -/
def direct (overflowChecks : Bool) : Primitive → VmValue → VmValue → Except Fault VmValue
  | neg, x, _ => x.negIn overflowChecks
  | p, x, y => binaryOp p.op x y

/-- The opcode in `eval_simple`. -/
def inlined (overflowChecks : Bool) : Primitive → VmValue → VmValue → Except Fault VmValue
  | neg, x, _ => x.negIn overflowChecks
  | p, x, y => simpleBinaryOp p.op x y

/-- The function that compiled code calls. -/
def compiled : Primitive → VmValue → VmValue → Except Fault VmValue
  | add, x, y => x.airlAdd y
  | sub, x, y => x.airlSub y
  | mul, x, y => x.airlMul y
  | div, x, y => x.airlDiv y
  | mod, x, y => x.airlMod y
  | neg, x, _ => x.compiledNeg
  | eq, x, y => x.airlEq y
  | lt, x, y => x.airlLt y
  | le, x, y => x.airlLe y
  | gt, x, y => x.airlGt y
  | ge, x, y => x.airlGe y

end Primitive

/-- The error of the machine, or that of the runtime, which is the end of the process. -/
def refuses : Except Fault VmValue → Bool
  | .error (.error _) | .error .exit => true
  | _ => false

/-- The same value three times, or three errors. -/
def AgreeOn (direct inlined compiled : Except Fault VmValue) : Prop :=
  (∃ v, direct = .ok v ∧ inlined = .ok v ∧ compiled = .ok v) ∨
    (refuses direct = true ∧ refuses inlined = true ∧ refuses compiled = true)

/-- The three implementations of a primitive agree on two operands. -/
def Primitive.Agrees (overflowChecks : Bool) (p : Primitive) (x y : VmValue) : Prop :=
  AgreeOn (p.direct overflowChecks x.toRt y.toRt) (p.inlined overflowChecks x y)
    (p.compiled x.toRt y.toRt)

/-- Two integers, two floats, or two strings of which the order does not hold. -/
def orderedKinds (strs : String → String → Bool) : VmValue → VmValue → Bool
  | .int _, .int _ => true
  | .float _, .float _ => true
  | .str s, .str t => !strs s t
  | _, _ => false

/-- The operands on which the three agree. -/
def Primitive.Safe (overflowChecks : Bool) : Primitive → VmValue → VmValue → Prop
  | add, _, _ | sub, _, _ | mul, _, _ => True
  | div, x, y | mod, x, y => ¬ (x = .int Int64.minValue ∧ y = .int (-1))
  | neg, x, _ =>
    (∀ bits, x ≠ .float bits) ∧ ¬ (overflowChecks = true ∧ x = .int Int64.minValue)
  | eq, x, y =>
    x.flat = y.flat ∧ x.equatable = true ↔ x.toRt.seen = y.toRt.seen ∧ x.toRt.comparable = true
  | lt, x, y => orderedKinds (fun s t => decide (s < t)) x y = true
  | le, x, y => orderedKinds (fun s t => !decide (t < s)) x y = true
  | gt, x, y => orderedKinds (fun s t => decide (t < s)) x y = true
  | ge, x, y => orderedKinds (fun s t => !decide (s < t)) x y = true

namespace Value

theorem airlAdd_scalarOnly : ScalarOnly airlAdd := by
  refine ⟨.error .exit, fun x y h => ?_⟩
  cases x <;> first | rfl | cases y <;> first | rfl | simp [scalar] at h

theorem airlSub_scalarOnly : ScalarOnly airlSub := by
  refine ⟨.error .exit, fun x y h => ?_⟩
  cases x <;> first | rfl | cases y <;> first | rfl | simp [scalar] at h

theorem airlMul_scalarOnly : ScalarOnly airlMul := by
  refine ⟨.error .exit, fun x y h => ?_⟩
  cases x <;> first | rfl | cases y <;> first | rfl | simp [scalar] at h

theorem airlDiv_scalarOnly : ScalarOnly airlDiv := by
  refine ⟨.error .exit, fun x y h => ?_⟩
  cases x <;> first | rfl | cases y <;> first | rfl | simp [scalar] at h

theorem airlMod_scalarOnly : ScalarOnly airlMod := by
  refine ⟨.error .exit, fun x y h => ?_⟩
  cases x <;> first | rfl | cases y <;> first | rfl | simp [scalar] at h

theorem airlOrder_scalarOnly (ints : Int64 → Int64 → Bool) (floats : Float → Float → Bool)
    (strs : String → String → Bool) : ScalarOnly (airlOrder ints floats strs) := by
  refine ⟨.error .exit, fun x y h => ?_⟩
  cases x <;> first | rfl | cases y <;> first | rfl | simp [scalar] at h

theorem negIn_toRt (overflowChecks : Bool) (x : VmValue) :
    x.toRt.negIn overflowChecks = x.negIn overflowChecks := by
  cases x with
  | partialApp func capturedArgs remainingArity =>
    simp only [toRt]
    split <;> rfl
  | _ => rfl

theorem compiledNeg_toRt (x : VmValue) : x.toRt.compiledNeg = x.compiledNeg :=
  airlSub_scalarOnly.toRt (.int 0) x

/-- Addition is one function in all three. -/
theorem add_agrees (x y : VmValue) : AgreeOn (x.add y) (x.add y) (x.airlAdd y) := by
  cases x
  case int | float | str => cases y <;> first | exact .inr ⟨rfl, rfl, rfl⟩ | exact .inl ⟨_,
    rfl, rfl, rfl⟩
  all_goals exact .inr ⟨rfl, rfl, rfl⟩

theorem sub_agrees (x y : VmValue) : AgreeOn (x.sub y) (x.sub y) (x.airlSub y) := by
  cases x
  case int | float => cases y <;> first | exact .inr ⟨rfl, rfl, rfl⟩ | exact .inl ⟨_, rfl, rfl, rfl⟩
  all_goals exact .inr ⟨rfl, rfl, rfl⟩

theorem mul_agrees (x y : VmValue) : AgreeOn (x.mul y) (x.mul y) (x.airlMul y) := by
  cases x
  case int | float => cases y <;> first | exact .inr ⟨rfl, rfl, rfl⟩ | exact .inl ⟨_, rfl, rfl, rfl⟩
  all_goals exact .inr ⟨rfl, rfl, rfl⟩

/-- A panic agrees with nothing. -/
theorem not_agreeOn_panic (inlined compiled : Except Fault VmValue) :
    ¬ AgreeOn (.error .panic) inlined compiled := by
  rintro (⟨v, h, -⟩ | ⟨h, -⟩)
  · cases h
  · cases h

/-- Division panics at one pair of operands. -/
theorem div_agrees_iff (x y : VmValue) : AgreeOn (x.div y) (x.div y) (x.airlDiv y) ↔
    ¬ (x = .int Int64.minValue ∧ y = .int (-1)) := by
  cases x
  case int x =>
    cases y
    case int y =>
      simp only [div, airlDiv, int.injEq]
      -- the zero is looked for first, in the machine as in the runtime
      by_cases hzero : y = 0
      · subst hzero
        exact iff_of_true (.inr ⟨rfl, rfl, rfl⟩) (by simp)
      · by_cases hmin : x = Int64.minValue ∧ y = -1
        · simp only [hmin, and_self, if_true]
          exact iff_of_false (not_agreeOn_panic _ _) (by simp)
        · simp only [hzero, hmin, if_false, not_false_eq_true, iff_true]
          exact .inl ⟨_, rfl, rfl, rfl⟩
    all_goals exact iff_of_true (.inr ⟨rfl, rfl, rfl⟩) (by simp)
  case float =>
    cases y
    case float => exact iff_of_true (.inl ⟨_, rfl, rfl, rfl⟩) (by simp)
    all_goals exact iff_of_true (.inr ⟨rfl, rfl, rfl⟩) (by simp)
  all_goals exact iff_of_true (.inr ⟨rfl, rfl, rfl⟩) (by simp)

/-- The remainder at the same pair. -/
theorem mod_agrees_iff (x y : VmValue) : AgreeOn (x.mod y) (x.simpleMod y) (x.airlMod y) ↔
    ¬ (x = .int Int64.minValue ∧ y = .int (-1)) := by
  cases x
  case int x =>
    cases y
    case int y =>
      simp only [mod, simpleMod, airlMod, int.injEq]
      by_cases hzero : y = 0
      · subst hzero
        exact iff_of_true (.inr ⟨rfl, rfl, rfl⟩) (by simp)
      · by_cases hmin : x = Int64.minValue ∧ y = -1
        · simp only [hmin, and_self, if_true]
          exact iff_of_false (not_agreeOn_panic _ _) (by simp)
        · simp only [hzero, hmin, if_false, not_false_eq_true, iff_true]
          exact .inl ⟨_, rfl, rfl, rfl⟩
    all_goals exact iff_of_true (.inr ⟨rfl, rfl, rfl⟩) (by simp)
  all_goals exact iff_of_true (.inr ⟨rfl, rfl, rfl⟩) (by simp)

/-- Negation on floats, and at the least integer in a build with overflow checks. -/
theorem neg_agrees_iff (overflowChecks : Bool) (x : VmValue) :
    AgreeOn (x.negIn overflowChecks) (x.negIn overflowChecks) x.compiledNeg ↔
      (∀ bits, x ≠ .float bits) ∧ ¬ (overflowChecks = true ∧ x = .int Int64.minValue) := by
  cases x
  case int n =>
    simp only [negIn, compiledNeg, airlSub, int.injEq, ne_eq, reduceCtorEq, not_false_eq_true,
      implies_true, true_and]
    by_cases hmin : overflowChecks = true ∧ n = Int64.minValue
    · rw [if_pos hmin]
      exact iff_of_false (not_agreeOn_panic _ _) (not_not_intro hmin)
    · rw [if_neg hmin]
      exact iff_of_true (.inl ⟨_, rfl, rfl, by rw [Int64.zero_sub]⟩) hmin
  case float bits =>
    refine iff_of_false ?_ fun h => h.1 bits rfl
    -- the machine negates a float, `airl_sub` knows no integer minus a float
    rintro (⟨v, -, -, h⟩ | ⟨h, -⟩)
    · cases h
    · cases h
  all_goals exact iff_of_true (.inr ⟨rfl, rfl, rfl⟩) (by simp)

/-- Equality where the machine's and the runtime's differ. -/
theorem eq_agrees_iff (x y : VmValue) :
    AgreeOn (.ok (.bool (x.toRt.rtValuesEqual y.toRt))) (.ok (.bool (x.valueEq y)))
        (x.toRt.airlEq y.toRt) ↔
      (x.flat = y.flat ∧ x.equatable = true ↔ x.toRt.seen = y.toRt.seen ∧
        x.toRt.comparable = true) := by
  rw [← valueEq_iff, ← rtValuesEqual_iff, ← Bool.eq_iff_iff]
  constructor
  · rintro (⟨v, hdirect, hinlined, -⟩ | ⟨h, -⟩)
    · cases hdirect
      simpa using hinlined
    · cases h
  · intro h
    exact .inl ⟨_, rfl, by rw [h], rfl⟩

/-- An order on operands that are not ordered. -/
theorem order_agrees_iff (ints : Int64 → Int64 → Bool) (floats : Float → Float → Bool)
    (strs : String → String → Bool) (x y : VmValue) :
    AgreeOn (.ok (compareWith ints floats strs x.toRt y.toRt)) (.ok (simpleCompare ints floats x y))
        (airlOrder ints floats strs x.toRt y.toRt) ↔ orderedKinds strs x y = true := by
  rw [(compareWith_scalarOnly ints floats strs).toRt, (airlOrder_scalarOnly ints floats strs).toRt]
  -- where the runtime exits the machine answers false
  have hexit : ∀ v w : VmValue, ¬ AgreeOn (.ok v) (.ok w) (.error .exit) := by
    rintro v w (⟨u, -, -, h⟩ | ⟨h, -⟩)
    · cases h
    · cases h
  cases x
  case int =>
    cases y
    case int => exact iff_of_true (.inl ⟨_, rfl, rfl, rfl⟩) rfl
    all_goals exact iff_of_false (hexit _ _) (by simp [orderedKinds])
  case float =>
    cases y
    case float => exact iff_of_true (.inl ⟨_, rfl, rfl, rfl⟩) rfl
    all_goals exact iff_of_false (hexit _ _) (by simp [orderedKinds])
  case str s =>
    cases y
    case str t =>
      simp only [compareWith, simpleCompare, airlOrder, orderedKinds]
      cases strs s t with
      | false => exact iff_of_true (.inl ⟨_, rfl, rfl, rfl⟩) rfl
      | true =>
        refine iff_of_false ?_ (by simp)
        rintro (⟨v, hdirect, hinlined, -⟩ | ⟨h, -⟩)
        · cases hdirect
          cases hinlined
        · cases h
    all_goals exact iff_of_false (hexit _ _) (by simp [orderedKinds])
  all_goals exact iff_of_false (hexit _ _) (by simp [orderedKinds])

end Value

/-- The main loop, the inline evaluator and the runtime agree on a primitive and its operands
exactly where it is safe. -/
theorem primitive_agrees_iff (overflowChecks : Bool) (p : Primitive) (x y : VmValue) :
    p.Agrees overflowChecks x y ↔ p.Safe overflowChecks x y := by
  cases p with
  | add =>
      simp only [Primitive.Agrees, Primitive.direct, Primitive.inlined, Primitive.compiled,
        Primitive.op, binaryOp, simpleBinaryOp, Value.add_scalarOnly.toRt,
        Value.airlAdd_scalarOnly.toRt]
      exact iff_of_true (Value.add_agrees x y) trivial
  | sub =>
      simp only [Primitive.Agrees, Primitive.direct, Primitive.inlined, Primitive.compiled,
        Primitive.op, binaryOp, simpleBinaryOp, Value.sub_scalarOnly.toRt,
        Value.airlSub_scalarOnly.toRt]
      exact iff_of_true (Value.sub_agrees x y) trivial
  | mul =>
      simp only [Primitive.Agrees, Primitive.direct, Primitive.inlined, Primitive.compiled,
        Primitive.op, binaryOp, simpleBinaryOp, Value.mul_scalarOnly.toRt,
        Value.airlMul_scalarOnly.toRt]
      exact iff_of_true (Value.mul_agrees x y) trivial
  | div =>
      simp only [Primitive.Agrees, Primitive.direct, Primitive.inlined, Primitive.compiled,
        Primitive.op, binaryOp, simpleBinaryOp, Value.div_scalarOnly.toRt,
        Value.airlDiv_scalarOnly.toRt]
      exact Value.div_agrees_iff x y
  | mod =>
      simp only [Primitive.Agrees, Primitive.direct, Primitive.inlined, Primitive.compiled,
        Primitive.op, binaryOp, simpleBinaryOp, Value.mod_scalarOnly.toRt,
        Value.airlMod_scalarOnly.toRt]
      exact Value.mod_agrees_iff x y
  | neg =>
      simp only [Primitive.Agrees, Primitive.direct, Primitive.inlined, Primitive.compiled,
        Value.negIn_toRt, Value.compiledNeg_toRt]
      exact Value.neg_agrees_iff overflowChecks x
  | eq => exact Value.eq_agrees_iff x y
  | lt => exact Value.order_agrees_iff _ _ _ x y
  | le => exact Value.order_agrees_iff _ _ _ x y
  | gt => exact Value.order_agrees_iff _ _ _ x y
  | ge => exact Value.order_agrees_iff _ _ _ x y

/-- `(< "a" "b")` is true in the main loop and false in the inline evaluator. -/
theorem not_primitive_agrees :
    ¬ ∀ (overflowChecks : Bool) (p : Primitive) (x y : VmValue), p.Agrees overflowChecks x y := by
  intro h
  have hless := h false .lt (.str "a") (.str "b")
  exact absurd ((Value.order_agrees_iff _ _ _ _ _).mp hless) (by decide)

end Airl
