import Airl.Ir.Eval
import Airl.Lowering.AstToIr
import Airl.Parser.Destructuring
import Airl.Runtime.Equality
import Mathlib.Algebra.Group.Nat.Defs

/-! # The meaning of destructuring

When the bindings that a list pattern is read as bind its names to the parts of the list, and
nothing else.
-/

namespace Airl

open Airl.Parser

theorem compileBindings_append (bindings bindings' : List LetBinding) :
    AstToIr.compileBindings (bindings ++ bindings') =
      AstToIr.compileBindings bindings ++ AstToIr.compileBindings bindings' := by
  induction bindings with
  | nil => rfl
  | cons binding bindings ih =>
    obtain ⟨name, ty, value, span⟩ := binding
    rw [List.cons_append, AstToIr.compileBindings, AstToIr.compileBindings, ih, List.cons_append]

theorem slotBindings_names (span : Span) (gs : String) (slots : List Slot) :
    ∀ idx, (slotBindings span gs idx slots).map LetBinding.name = slots.map Slot.name := by
  induction slots with
  | nil => intro idx; rfl
  | cons slot slots ih =>
    intro idx
    rw [slotBindings, List.map_cons, ih, List.map_cons]
    rfl

/-! ## What a pattern binds -/

namespace Parser.Slot

/-- The part of the list that the name stands for. -/
def value (items : List RefValue) (idx : Nat) : Slot → RefValue
  | elem _ => items[idx]?.getD .nil
  | rest _ => .list (items.drop idx)

/-- The arguments of the call, `v` being the value of the temporary. -/
def operands (v : RefValue) (idx : Nat) : Slot → List RefValue
  | elem _ => [v, .int (.ofNat idx)]
  | rest _ => [.int (.ofNat idx), v]

end Parser.Slot

/-- The number of elements that a pattern names. -/
def elements : List Slot → Nat
  | [] => 0
  | .elem _ :: slots => elements slots + 1
  | .rest _ :: slots => elements slots

/-- The names of a pattern, bound from the position `idx` on. -/
def bindSlots (items : List RefValue) : Nat → List Slot → Env → Env
  | _, [], env => env
  | idx, slot :: slots, env =>
    bindSlots items (slot.next idx) slots ((slot.name, slot.value items idx) :: env)

theorem next_add_elements (idx : Nat) (slot : Slot) (slots : List Slot) :
    slot.next idx + elements slots = idx + elements (slot :: slots) := by
  cases slot with
  | elem name => simp only [Slot.next, elements]; omega
  | rest name => rfl

theorem lookup_bindSlots_of_not_mem {items : List RefValue} {slots : List Slot} {name : String}
    (h : name ∉ slots.map Slot.name) :
    ∀ (idx : Nat) (env : Env), (bindSlots items idx slots env).lookup name = env.lookup name := by
  induction slots with
  | nil => intro idx env; rfl
  | cons slot slots ih =>
    intro idx env
    rw [List.map_cons, List.mem_cons, not_or] at h
    rw [bindSlots, ih h.2, List.lookup_cons, beq_eq_false_iff_ne.mpr h.1]

/-- A name of the pattern has its value whatever was bound before. -/
theorem lookup_bindSlots_of_mem {items : List RefValue} {slots : List Slot} {name : String}
    (h : name ∈ slots.map Slot.name) :
    ∀ (idx : Nat) (env env' : Env), (bindSlots items idx slots env).lookup name =
      (bindSlots items idx slots env').lookup name := by
  induction slots with
  | nil => cases h
  | cons slot slots ih =>
    intro idx env env'
    rw [bindSlots, bindSlots]
    by_cases hlater : name ∈ slots.map Slot.name
    · exact ih hlater _ _ _
    · -- the last of the names is that of this slot
      obtain rfl : name = slot.name := by
        rw [List.map_cons, List.mem_cons] at h
        exact h.resolve_right hlater
      rw [lookup_bindSlots_of_not_mem hlater, lookup_bindSlots_of_not_mem hlater,
        List.lookup_cons_self, List.lookup_cons_self]

theorem bindSlots_append (items : List RefValue) (slots : List Slot) :
    ∀ (idx : Nat) (env : Env), ∃ binds : Env, binds.map Prod.fst = (slots.map Slot.name).reverse ∧
      bindSlots items idx slots env = binds ++ env := by
  induction slots with
  | nil => intro idx env; exact ⟨[], rfl, rfl⟩
  | cons slot slots ih =>
    intro idx env
    obtain ⟨binds, hnames, heq⟩ := ih (slot.next idx) ((slot.name, slot.value items idx) :: env)
    refine ⟨binds ++ [(slot.name, slot.value items idx)], by simp [hnames], ?_⟩
    rw [bindSlots, heq, List.append_assoc]
    rfl

/-! ## The property -/

/-- The global `at` and `drop` are those of the library, unless the program replaces them; `drop` of
at most `bound` elements. -/
structure KeepsLibrary {World : Type} (P : RefProgram World)
    (enter : Target → List RefValue → World → Res World RefValue) (replaced : List String)
    (bound : Nat) : Prop where
  element : "at" ∉ replaced → ∀ (items : List RefValue) (idx : Nat) (v : RefValue) (world : World),
    idx < 2 ^ 63 → items[idx]? = some v →
    P.applyCall enter "at" [] [.list items, .int (.ofNat idx)] world = .ok v world
  rest : "drop" ∉ replaced → ∀ (items : List RefValue) (idx : Nat) (world : World),
    idx < 2 ^ 63 → idx ≤ bound → idx ≤ items.length →
    P.applyCall enter "drop" [] [.int (.ofNat idx), .list items] world =
      .ok (.list (items.drop idx)) world

/-- Just these names are bound. -/
def HasNames (env : Env) (names : List String) : Prop :=
  ∀ name, (env.lookup name).isSome ↔ name ∈ names

/-- Once the value of the pattern is in the temporary `gs`, the bindings give each name its part of
the list, and of the names that the user wrote they change no other. This is so in every program
that replaces the library's functions as `replaced` says, wherever just `locals` are in scope. -/
def KeepsPattern (replaced locals : List String) (written : Set String) (span : Span) (gs : String)
    (slots : List Slot) : Prop :=
  ∀ (World : Type) (P : RefProgram World)
    (enter : Target → List RefValue → World → Res World RefValue),
    KeepsLibrary P enter replaced (elements slots) →
    ∀ (env : Env) (items : List RefValue) (world : World), HasNames env locals →
      elements slots ≤ items.length →
      P.evalBindings enter (AstToIr.compileBindings (slotBindings span gs 0 slots))
          ((gs, .list items) :: env) world =
        .ok (bindSlots items 0 slots ((gs, .list items) :: env)) world ∧
      ∀ name ∈ written, (bindSlots items 0 slots ((gs, .list items) :: env)).lookup name =
        (bindSlots items 0 slots env).lookup name

/-- The functions that are called are the library's, and each call still finds the list in the
temporary; a rest that stands before all elements is the whole list. -/
def Hygienic (replaced : List String) (gs : String) : List String → Nat → List Slot → Prop
  | _, _, [] => True
  | locals, idx, slot :: slots =>
    slot.callee ∉ replaced ∧ slot.callee ∉ locals ∧ idx < 2 ^ 63 ∧
      (slots = [] ∨ slot.name ≠ gs ∨ slot = .rest gs ∧ idx = 0) ∧
      Hygienic replaced gs (slot.name :: locals) (slot.next idx) slots

/-! ## One binding -/

namespace RefProgram

variable {World : Type} {P : RefProgram World}
  {enter : Target → List RefValue → World → Res World RefValue} {name : String} {env : Env}
  {args : List RefValue}

theorem applyCall_global (h : env.lookup name = none) (world : World) :
    P.applyCall enter name env args world = P.applyCall enter name [] args world := by
  unfold applyCall
  rw [h, List.lookup_nil]

/-- A slot's binding calls its library function on what the pattern is bound to. -/
theorem eval_slot {gs : String} {v : RefValue} (h : env.lookup gs = some v) (span : Span)
    (idx : Nat) (slot : Slot) (world : World) :
    P.eval enter (AstToIr.compileExpr
        ⟨.fnCall (symbolRef slot.callee span) (slot.args span gs idx), span⟩) env world =
      P.applyCall enter slot.callee env (slot.operands v idx) world := by
  cases slot with
  | elem name | rest name =>
    simp [symbolRef, Slot.args, Slot.callee, Slot.operands, AstToIr.compileExpr,
      AstToIr.compileKind, AstToIr.compileExprs, eval, evalArgs, h]

/-- Bindings that are evaluated are put in front of the environment, in order. -/
theorem evalBindings_ok {bindings : List LetBinding} :
    ∀ {env env' : Env} {world world' : World},
      P.evalBindings enter (AstToIr.compileBindings bindings) env world = .ok env' world' →
      ∃ binds : Env, binds.map Prod.fst = (bindings.map LetBinding.name).reverse ∧
        env' = binds ++ env := by
  induction bindings with
  | nil =>
    intro env env' world world' h
    cases h
    exact ⟨[], rfl, rfl⟩
  | cons binding bindings ih =>
    obtain ⟨name, ty, value, span⟩ := binding
    intro env env' world world' h
    rw [AstToIr.compileBindings, evalBindings, Transition.Outcome.bind_eq_ok] at h
    obtain ⟨v, world₁, -, hrest⟩ := h
    obtain ⟨binds, hnames, rfl⟩ := ih hrest
    exact ⟨binds ++ [(name, v)], by simp [hnames, LetBinding.name], by simp⟩

/-- Bindings are evaluated one part after the other. -/
theorem evalBindings_append (bindings bindings' : List IRBinding) :
    ∀ (env : Env) (world : World), P.evalBindings enter (bindings ++ bindings') env world =
      (P.evalBindings enter bindings env world).bind fun env world =>
        P.evalBindings enter bindings' env world := by
  induction bindings with
  | nil => intro env world; rfl
  | cons binding bindings ih =>
    obtain ⟨name, expr⟩ := binding
    intro env world
    rw [List.cons_append, evalBindings, evalBindings]
    cases P.eval enter expr env world with
    | ok v world => exact ih _ _
    | err e => rfl
    | timeout => rfl
    | departs => rfl

end RefProgram

/-! ## The library -/

/-- `(if (or (= n 0) (empty? xs)) xs (drop (- n 1) (tail xs)))`. -/
def dropFunc : FuncDef where
  params := ["n", "xs"]
  body := .ite (.call "or" [.call "=" [.load "n", .int 0], .call "empty?" [.load "xs"]])
    (.load "xs")
    (.call "drop" [.call "-" [.load "n", .int 1], .call "tail" [.load "xs"]])
  contracts := {}

/-- The program has the `drop` of `prelude.airl`, with what it calls, and no `at` of its own. -/
structure HasParts {World : Type} (P : RefProgram World) : Prop where
  drop : P.functions "drop" = some dropFunc
  undefined : ∀ name ∈ ["at", "or", "=", "-", "empty?", "tail"], P.functions name = none
  known : ∀ name ∈ ["or", "empty?", "tail"], P.builtins.known name = true
  or_ : ∀ a b world, P.builtins.dispatch "or" [.bool a, .bool b] world =
    (.ok (.bool (a || b)), world)
  empty : ∀ xs world, P.builtins.dispatch "empty?" [.list xs] world =
    (.ok (.bool xs.isEmpty), world)
  tail : ∀ x xs world, P.builtins.dispatch "tail" [.list (x :: xs)] world = (.ok (.list xs), world)

theorem ofNat_not_neg {idx : Nat} (h : idx < 2 ^ 63) : ¬ Int64.ofNat idx < 0 := by
  rw [Int64.lt_iff_toInt_lt, Int64.toInt_ofNat_of_lt h]
  simp

theorem toNat_ofNat {idx : Nat} (h : idx < 2 ^ 63) : (Int64.ofNat idx).toInt.toNat = idx := by
  rw [Int64.toInt_ofNat_of_lt h, Int.toNat_natCast]

namespace RefProgram

variable {World : Type} {P : RefProgram World}
  {enter : Target → List RefValue → World → Res World RefValue}

section HasParts

variable (hp : HasParts P)

include hp

theorem applyCall_part {name : String} {env : Env} {args : List RefValue} {v : RefValue}
    {world : World} (hname : name ∈ ["or", "empty?", "tail"]) (hlocal : env.lookup name = none)
    (hfull : builtinPartial name args = none)
    (hdispatch : P.builtins.dispatch name args world = (.ok v, world)) :
    P.applyCall enter name env args world = .ok v world := by
  have hmem : name ∈ ["at", "or", "=", "-", "empty?", "tail"] := by
    simp only [List.mem_cons, List.not_mem_nil, or_false] at hname ⊢
    tauto
  have hop : operator name args = none := by
    simp only [List.mem_cons, List.not_mem_nil, or_false] at hname
    rcases hname with rfl | rfl | rfl <;> unfold operator <;> split <;> simp_all [directOp]
  have hspawn : name ≠ "thread-spawn" := by
    rintro rfl
    exact absurd hname (by decide)
  have hmeta : name ≠ "fn-metadata" := by
    rintro rfl
    exact absurd hname (by decide)
  rw [applyCall_builtin hlocal (hp.undefined name hmem) hop hfull hspawn hmeta
    (hp.known name hname),
    hdispatch]
  rfl

theorem drop_condition (n : Int64) (items : List RefValue) (world : World) :
    P.eval enter (.call "or" [.call "=" [.load "n", .int 0], .call "empty?" [.load "xs"]])
        [("xs", .list items), ("n", .int n)] world =
      .ok (.bool (decide (n = 0) || items.isEmpty)) world := by
  have heq : P.applyCall enter "=" [("xs", .list items), ("n", .int n)] [.int n, .int 0] world =
      .ok (.bool (decide (n = 0))) world := by
    rw [applyCall_operator rfl (hp.undefined _ (by simp)) rfl]
    by_cases hn : n = 0
    · subst hn
      rfl
    · have hne : (Value.int n : RefValue).rtValuesEqual (.int 0 : RefValue) = false := by
        rw [← Bool.not_eq_true, Value.rtValuesEqual_iff]
        intro h
        exact hn (Value.int.inj h.1)
      simp [binaryOp, hne, hn, Transition.Outcome.lift]
  have hempty :
      P.applyCall enter "empty?" [("xs", .list items), ("n", .int n)] [.list items] world =
      .ok (.bool items.isEmpty) world :=
    applyCall_part hp (by simp) rfl rfl (hp.empty items world)
  have hor : P.applyCall enter "or" [("xs", .list items), ("n", .int n)]
      [.bool (decide (n = 0)), .bool items.isEmpty] world =
      .ok (.bool (decide (n = 0) || items.isEmpty)) world :=
    applyCall_part hp (by simp) rfl rfl (hp.or_ _ _ world)
  simp [eval, evalArgs, List.lookup_cons, heq, hempty, hor]

/-- `drop` of nothing answers the list. -/
theorem drop_zero (items : List RefValue) (world : World) :
    P.activate enter (.named "drop" dropFunc) [.int 0, .list items] world =
      .ok (.list items) world := by
  have hcondition := @drop_condition World P enter hp 0 items world
  unfold dropFunc
  rw [activate_uncontracted]
  show P.eval enter _ [("xs", .list items), ("n", .int 0)] world = _
  rw [eval, hcondition]
  simp [eval]

/-- `drop` takes the head off and calls itself. -/
theorem drop_cons {n : Int64} (hn : n ≠ 0) (x : RefValue) (xs : List RefValue) (world : World) :
    P.activate enter (.named "drop" dropFunc) [.int n, .list (x :: xs)] world =
      enter (.named "drop" dropFunc) [.int (n - 1), .list xs] world := by
  let env : Env := [("xs", .list (x :: xs)), ("n", .int n)]
  have hcondition := @drop_condition World P enter hp n (x :: xs) world
  have hsub : P.applyCall enter "-" env [.int n, .int 1] world = .ok (.int (n - 1)) world := by
    rw [applyCall_operator rfl (hp.undefined _ (by simp)) rfl]
    rfl
  have htail : P.applyCall enter "tail" env [.list (x :: xs)] world = .ok (.list xs) world :=
    applyCall_part hp (by simp) rfl rfl (hp.tail x xs world)
  have hdrop : P.applyCall enter "drop" env [.int (n - 1), .list xs] world =
      enter (.named "drop" dropFunc) [.int (n - 1), .list xs] world :=
    applyCall_function rfl hp.drop rfl world
  rw [← hdrop]
  conv_lhs => unfold dropFunc
  rw [activate_uncontracted]
  show P.eval enter _ env world = _
  simp only [env] at hcondition hsub htail ⊢
  rw [eval, hcondition]
  simp [hn, eval, evalArgs, List.lookup_cons, hsub, htail]

/-- `drop` takes as many elements off as asked, given a call for each. -/
theorem drop_call {world : World} {idx : Nat} :
    ∀ {items : List RefValue} {depth : Nat}, idx < depth → idx < 2 ^ 63 → idx ≤ items.length →
      P.call depth (.named "drop" dropFunc) [.int (.ofNat idx), .list items] world =
        .ok (.list (items.drop idx)) world := by
  induction idx with
  | zero =>
    intro items depth hdepth _ _
    obtain ⟨depth, rfl⟩ := Nat.exists_eq_succ_of_ne_zero (Nat.ne_of_gt hdepth)
    exact drop_zero hp items world
  | succ idx ih =>
    intro items depth hdepth hidx hlen
    obtain ⟨depth, rfl⟩ := Nat.exists_eq_succ_of_ne_zero (Nat.ne_of_gt (Nat.zero_lt_of_lt hdepth))
    obtain ⟨x, xs, rfl⟩ := List.exists_cons_of_length_pos (Nat.zero_lt_of_lt hlen)
    have hne : Int64.ofNat (idx + 1) ≠ 0 := by
      intro hzero
      have htoNat := toNat_ofNat hidx
      rw [hzero] at htoNat
      cases htoNat
    have hprev : Int64.ofNat (idx + 1) - 1 = Int64.ofNat idx := by
      have hsucc : Int64.ofNat (idx + 1) = Int64.ofNat idx + 1 := Int64.ofNat_add idx 1
      grind
    show P.activate (P.call depth) (.named "drop" dropFunc) _ world = _
    rw [drop_cons hp hne, hprev]
    exact ih (Nat.lt_of_succ_lt_succ hdepth) (Nat.lt_of_succ_lt hidx) (Nat.le_of_succ_le_succ hlen)

/-- A program with the library's own functions reads elements and rests. -/
theorem keepsLibrary {depth bound : Nat} (hdepth : bound < depth) :
    KeepsLibrary P (P.call depth) [] bound where
  element _ items idx v world hidx hv := by
    rw [applyCall_builtin rfl (hp.undefined _ (by simp)) rfl rfl (by decide) (by decide)
      P.builtins.known_at, P.builtins.dispatch_at, airlAt, if_neg (ofNat_not_neg hidx),
      toNat_ofNat hidx, hv]
    rfl
  rest _ items idx world hidx hbound hlen := by
    rw [applyCall_function rfl hp.drop rfl]
    exact drop_call hp (Nat.lt_of_le_of_lt hbound hdepth) hidx hlen

end HasParts

end RefProgram

/-! ## Hygienic patterns keep their meaning -/

section Keeps

variable {World : Type} {P : RefProgram World}
  {enter : Target → List RefValue → World → Res World RefValue} {replaced : List String}
  {bound : Nat}

/-- A slot whose function is not replaced reads its part of the list. -/
theorem KeepsLibrary.slot (hlib : KeepsLibrary P enter replaced bound) {slot : Slot} {idx : Nat}
    {items : List RefValue} (hcallee : slot.callee ∉ replaced) (hidx : idx < 2 ^ 63)
    (hbound : idx ≤ bound) (hlen : slot.next idx ≤ items.length) (world : World) :
    P.applyCall enter slot.callee [] (slot.operands (.list items) idx) world =
      .ok (slot.value items idx) world := by
  cases slot with
  | elem name =>
    have hlt : idx < items.length := hlen
    apply hlib.element hcallee items idx _ world hidx
    simp [Slot.value, hlt]
  | rest name => exact hlib.rest hcallee items idx world hidx hbound hlen

/-- A slot of a hygienic pattern leaves the list in the temporary. -/
theorem Hygienic.lookup_gs {gs : String} {slot : Slot} {idx : Nat} {items : List RefValue}
    {env : Env} (hslot : slot.name ≠ gs ∨ slot = .rest gs ∧ idx = 0)
    (hgs : env.lookup gs = some (.list items)) :
    List.lookup gs ((slot.name, slot.value items idx) :: env) = some (.list items) := by
  rcases hslot with hne | ⟨rfl, rfl⟩
  · rw [List.lookup_cons, beq_eq_false_iff_ne.mpr hne.symm]
    exact hgs
  · simp [Slot.name, Slot.value]

/-- Hygienic slots are bound to the parts of the list. -/
theorem Hygienic.evalBindings (hlib : KeepsLibrary P enter replaced bound) {gs : String}
    {items : List RefValue} (span : Span) (world : World) {slots : List Slot} :
    ∀ {locals : List String} {idx : Nat} {env : Env}, Hygienic replaced gs locals idx slots →
      idx + elements slots ≤ items.length → idx + elements slots ≤ bound →
      env.lookup gs = some (.list items) →
      (∀ name, (env.lookup name).isSome → name ∈ locals) →
      P.evalBindings enter (AstToIr.compileBindings (slotBindings span gs idx slots)) env world =
        .ok (bindSlots items idx slots env) world := by
  induction slots with
  | nil =>
    intro locals idx env _ _ _ _ _
    rfl
  | cons slot slots ih =>
    intro locals idx env h hlen hbound hgs hlocals
    obtain ⟨hreplaced, hlocal, hidx, hkeeps, hrest⟩ := h
    rw [← next_add_elements] at hlen hbound
    -- the callee is not a local, so the library's function is called
    have hglobal : env.lookup slot.callee = none := by
      by_contra hsome
      exact hlocal (hlocals _ (Option.isSome_iff_ne_none.mpr hsome))
    have hcall :=
      hlib.slot hreplaced hidx (by cases slot <;> simp only [Slot.next] at hbound <;> omega)
      (Nat.le_of_add_right_le hlen) world
    rw [slotBindings, Slot.binding, AstToIr.compileBindings, RefProgram.evalBindings,
      RefProgram.eval_slot hgs, RefProgram.applyCall_global hglobal, hcall,
      Transition.Outcome.bind_ok]
    rcases hkeeps with rfl | hkeeps
    · rfl
    · apply ih hrest hlen hbound (Hygienic.lookup_gs hkeeps hgs)
      intro name hname
      rw [List.lookup_cons] at hname
      split at hname
      next heq => exact List.mem_cons.mpr (.inl (beq_iff_eq.mp heq))
      next heq => exact List.mem_cons_of_mem _ (hlocals name hname)

end Keeps

/-! ## Patterns that keep their meaning are hygienic -/

/-- `at`, and `drop` as a builtin. -/
def partsBuiltins : Builtins Lambda Unit where
  known name := name ∈ ["at", "drop"]
  dispatch name args world :=
    (match name, args with
      | "at", args => airlAt args
      | "drop", [.int n, .list items] =>
        if n < 0 then .error .exit else .ok (.list (items.drop n.toInt.toNat))
      | _, _ => .error .exit, world)
  threadSpawn _ world := (.error .exit, world)
  fnMetadata _ world := (.error .exit, world)
  known_at := by decide
  dispatch_at _ _ := rfl

/-- A program that defines the names in `replaced` as functions of nothing. -/
def replacingProgram (replaced : List String) : RefProgram Unit where
  functions name := if name ∈ replaced then some ⟨[], .nil, {}⟩ else none
  builtins := partsBuiltins

section Replacing

variable {replaced : List String} {enter : Target → List RefValue → Unit → Res Unit RefValue}

/-- What the call of a slot comes to in this program. -/
def partOf (u : RefValue) (idx : Nat) (slot : Slot) : Except Fault RefValue :=
  (partsBuiltins.dispatch slot.callee (slot.operands u idx) ()).1

theorem partOf_elem {idx : Nat} (h : idx < 2 ^ 63) {items : List RefValue} {name : String}
    {v : RefValue} : partOf (.list items) idx (.elem name) = .ok v ↔ items[idx]? = some v := by
  unfold partOf
  conv_lhs => simp only [Slot.callee, Slot.operands, partsBuiltins, airlAt]
  rw [if_neg (ofNat_not_neg h), toNat_ofNat h]
  cases items[idx]? <;> simp

theorem partOf_rest {idx : Nat} (h : idx < 2 ^ 63) (items : List RefValue) (name : String) :
    partOf (.list items) idx (.rest name) = .ok (.list (items.drop idx)) := by
  unfold partOf
  conv_lhs => simp only [Slot.callee, Slot.operands, partsBuiltins]
  rw [if_neg (ofNat_not_neg h), toNat_ofNat h]

theorem applyCall_replacing {slot : Slot} (h : slot.callee ∉ replaced) (u : RefValue) (idx : Nat)
    (world : Unit) :
    (replacingProgram replaced).applyCall enter slot.callee [] (slot.operands u idx) world =
      .lift (partOf u idx slot) world := by
  have hfunc : (replacingProgram replaced).functions slot.callee = none := if_neg h
  cases slot with
  | elem name | rest name =>
    rw [RefProgram.applyCall_builtin rfl hfunc rfl rfl]
    · rfl
    all_goals simp [Slot.callee, replacingProgram, partsBuiltins]

theorem replacingProgram_keepsLibrary (bound : Nat) :
    KeepsLibrary (replacingProgram replaced) enter replaced bound where
  element h items idx v world hidx hv := by
    have hcall := @applyCall_replacing replaced enter (.elem "") h (.list items) idx world
    rwa [(partOf_elem hidx).mpr hv] at hcall
  rest h items idx world hidx hbound hlen := by
    have hcall := @applyCall_replacing replaced enter (.rest "") h (.list items) idx world
    rwa [partOf_rest hidx] at hcall

/-- A value that cannot be called. -/
def Inert (v : RefValue) : Prop := v = .nil ∨ (∃ n, v = .int n) ∨ ∃ items, v = .list items

/-- A slot that answers calls the library's function, not a local. -/
theorem library_of_applyCall {slot : Slot} {u v : RefValue} {idx : Nat} {env : Env} {world' : Unit}
    (hinert : ∀ name v, env.lookup name = some v → Inert v)
    (h : (replacingProgram replaced).applyCall enter slot.callee env (slot.operands u idx) () =
      .ok v world') :
    slot.callee ∉ replaced ∧ env.lookup slot.callee = none ∧ partOf u idx slot = .ok v := by
  have hlocal : env.lookup slot.callee = none := by
    cases hlookup : env.lookup slot.callee with
    | none => rfl
    | some callee =>
      unfold RefProgram.applyCall at h
      rw [hlookup] at h
      rcases hinert _ _ hlookup with rfl | ⟨n, rfl⟩ | ⟨items, rfl⟩ <;> cases h
  rw [RefProgram.applyCall_global hlocal] at h
  have hreplaced : slot.callee ∉ replaced := by
    intro hmem
    have hfunc : (replacingProgram replaced).functions slot.callee = some ⟨[], .nil, {}⟩ :=
      if_pos hmem
    unfold RefProgram.applyCall RefProgram.applyNamed at h
    rw [List.lookup_nil, hfunc] at h
    cases slot <;> cases h
  rw [applyCall_replacing hreplaced] at h
  refine ⟨hreplaced, hlocal, ?_⟩
  cases hpart : partOf u idx slot with
  | error e => rw [hpart] at h; cases h
  | ok v' => rw [hpart] at h; cases h; rfl

theorem partOf_outside {u v : RefValue} {slot : Slot} (hu : ∃ items, u = .list items) :
    partOf u (2 ^ 63) slot ≠ .ok v := by
  obtain ⟨items, rfl⟩ := hu
  cases slot with
  | elem name | rest name =>
    intro h
    cases h

theorem partOf_nil {idx : Nat} {slot : Slot} {v : RefValue} : partOf .nil idx slot ≠ .ok v := by
  cases slot with
  | elem name | rest name =>
    intro h
    cases h

/-! ### Lists and scopes that tell everything apart -/

/-- Every element is nil or zero. -/
def Plain (items : List RefValue) : Prop := ∀ v ∈ items, v = .nil ∨ v = .int 0

theorem Plain.value {items : List RefValue} (h : Plain items) (idx : Nat) (slot : Slot) :
    Inert (slot.value items idx) := by
  cases slot with
  | rest name => exact .inr (.inr ⟨_, rfl⟩)
  | elem name =>
    cases hitem : items[idx]? with
    | none => exact .inl (by simp [Slot.value, hitem])
    | some v =>
      rcases h v (List.mem_of_getElem? hitem) with rfl | rfl
      · exact .inl (by simp [Slot.value, hitem])
      · exact .inr (.inl ⟨0, by simp [Slot.value, hitem]⟩)

/-- An environment for each list: the list is in the temporary, and just `locals` are bound. -/
structure Probe (gs : String) (locals : List String) (env : List RefValue → Env) : Prop where
  lookup_gs : ∀ items, (env items).lookup gs = some (.list items)
  names : ∀ items, HasNames (env items) locals
  inert : ∀ items, Plain items → ∀ name v, (env items).lookup name = some v → Inert v

theorem inert_cons {items : List RefValue} (hplain : Plain items) {env : Env}
    {slot : Slot} {idx : Nat}
    (h : ∀ name v, env.lookup name = some v → Inert v) (name : String) (v : RefValue)
    (hv : List.lookup name ((slot.name, slot.value items idx) :: env) = some v) : Inert v := by
  rw [List.lookup_cons] at hv
  split at hv
  · cases hv
    exact hplain.value idx slot
  · exact h name v hv

/-- Binding a slot keeps the environment a probe. -/
theorem Probe.bind {gs : String} {locals : List String} {env : List RefValue → Env}
    (h : Probe gs locals env) {slot : Slot} {idx : Nat}
    (hslot : slot.name ≠ gs ∨ slot = .rest gs ∧ idx = 0) :
    Probe gs (slot.name :: locals) fun items => (slot.name, slot.value items idx) :: env items where
  lookup_gs items := Hygienic.lookup_gs hslot (h.lookup_gs items)
  names items name := by
    rw [List.lookup_cons, List.mem_cons]
    split
    next heq => simp [beq_iff_eq.mp heq]
    next heq => simp [h.names items name, beq_eq_false_iff_ne.mp heq]
  inert items hplain := inert_cons hplain (h.inert items hplain)

/-! ### From a run to the condition -/

/-- The first slot of evaluated bindings answers its part. -/
theorem evalBindings_slot {World : Type} {P : RefProgram World}
    {enter : Target → List RefValue → World → Res World RefValue} {gs : String} {span : Span}
    {slot : Slot} {slots : List Slot} {idx : Nat} {items : List RefValue} {u : RefValue} {env : Env}
    {world world' : World} (hgs : env.lookup gs = some u)
    (h : P.evalBindings enter
      (AstToIr.compileBindings (slotBindings span gs idx (slot :: slots))) env
      world = .ok (bindSlots items idx (slot :: slots) env) world') :
    ∃ world₁, P.applyCall enter slot.callee env (slot.operands u idx) world =
        .ok (slot.value items idx) world₁ ∧
      P.evalBindings enter (AstToIr.compileBindings (slotBindings span gs (slot.next idx) slots))
        ((slot.name, slot.value items idx) :: env) world₁ =
        .ok (bindSlots items (slot.next idx) slots ((slot.name, slot.value items idx) ::
          env)) world' := by
  rw [slotBindings, Slot.binding, AstToIr.compileBindings, RefProgram.evalBindings,
    RefProgram.eval_slot hgs, Transition.Outcome.bind_eq_ok] at h
  obtain ⟨v, world₁, hcall, hrest⟩ := h
  -- the environments at the end have the same bindings, so the first one is the same too
  obtain ⟨binds, hnames, heq⟩ := RefProgram.evalBindings_ok hrest
  obtain ⟨binds', hnames', heq'⟩ :=
    bindSlots_append items slots (slot.next idx) ((slot.name, slot.value items idx) :: env)
  rw [slotBindings_names] at hnames
  have hlen : binds'.length = binds.length := by
    simpa using congrArg List.length (hnames'.trans hnames.symm)
  rw [bindSlots, heq'] at heq
  obtain ⟨-, htail⟩ := List.append_inj heq hlen
  have hv : slot.value items idx = v := by
    injection htail with hhead
    exact (Prod.mk.inj hhead).2
  subst hv
  exact ⟨world₁, hcall, by rw [hrest, bindSlots]⟩

/-- A list whose elements are zero but for the one at `idx`. -/
def nilAt (idx count : Nat) : List RefValue :=
  List.replicate idx (.int 0) ++ .nil :: List.replicate count (.int 0)

theorem nilAt_plain (idx count : Nat) : Plain (nilAt idx count) := by
  intro v hv
  simp only [nilAt, List.mem_append, List.mem_cons, List.mem_replicate] at hv
  tauto

theorem length_nilAt (idx count : Nat) : (nilAt idx count).length = idx + (count + 1) := by
  simp [nilAt]

theorem drop_nilAt (idx count : Nat) :
    (nilAt idx count).drop idx = .nil :: List.replicate count (.int 0) := by
  simp [nilAt]

/-- A slot read from a rebound name does not answer its part. -/
theorem partOf_rebound {slot slot' : Slot} {idx count : Nat}
    (hslot : ¬ (slot = .rest slot.name ∧ idx = 0))
    (hidx : idx < 2 ^ 63) :
    partOf (slot.value (nilAt idx count) idx) (slot.next idx) slot' ≠
      .ok (slot'.value (nilAt idx count) (slot.next idx)) := by
  intro h
  cases slot with
  | elem name =>
    have hvalue : (Slot.elem name).value (nilAt idx count) idx = .nil := by
      simp [Slot.value, nilAt]
    rw [hvalue] at h
    exact partOf_nil h
  | rest name =>
    have hpos : idx ≠ 0 := fun hzero => hslot ⟨rfl, hzero⟩
    rw [Slot.value, Slot.next, drop_nilAt] at h
    cases slot' with
    | elem name' =>
      rw [partOf_elem hidx] at h
      have hitem : (Slot.elem name').value (nilAt idx count) idx = .nil := by
        simp [Slot.value, nilAt]
      obtain ⟨k, rfl⟩ := Nat.exists_eq_succ_of_ne_zero hpos
      rw [hitem, List.getElem?_cons_succ] at h
      have hmem := List.mem_of_getElem? h
      simp at hmem
    | rest name' =>
      rw [partOf_rest hidx, Slot.value, drop_nilAt] at h
      injection h with h
      injection h with h
      have hlen := congrArg List.length h
      rw [List.length_drop, List.length_cons] at hlen
      omega

/-- Slots that are bound to the parts of every list are hygienic. -/
theorem hygienic_of_evalBindings {gs : String} {span : Span} {slots : List Slot} :
    ∀ {locals : List String} {idx : Nat} {env : List RefValue → Env}, idx ≤ 2 ^ 63 →
      Probe gs locals env →
      (∀ items, Plain items → idx + elements slots ≤ items.length →
        (replacingProgram replaced).evalBindings enter
            (AstToIr.compileBindings (slotBindings span gs idx slots)) (env items) () =
          .ok (bindSlots items idx slots (env items)) ()) →
      Hygienic replaced gs locals idx slots := by
  induction slots with
  | nil =>
    intro locals idx env _ _ _
    trivial
  | cons slot slots ih =>
    intro locals idx env hidx hprobe hrun
    have hfirst : ∀ items, Plain items → idx + elements (slot :: slots) ≤ items.length → _ :=
      fun items hplain hlen => evalBindings_slot (hprobe.lookup_gs items) (hrun items hplain hlen)
    have hcall : ∀ items, Plain items → idx + elements (slot :: slots) ≤ items.length →
        slot.callee ∉ replaced ∧ (env items).lookup slot.callee = none ∧
          partOf (.list items) idx slot = .ok (slot.value items idx) := by
      intro items hplain hlen
      obtain ⟨world₁, happly, -⟩ := hfirst items hplain hlen
      exact library_of_applyCall (hprobe.inert items hplain) happly
    have hrest : ∀ items, Plain items → idx + elements (slot :: slots) ≤ items.length →
        (replacingProgram replaced).evalBindings enter
            (AstToIr.compileBindings (slotBindings span gs (slot.next idx) slots))
            ((slot.name, slot.value items idx) :: env items) () =
          .ok (bindSlots items (slot.next idx) slots
            ((slot.name, slot.value items idx) :: env items)) () := by
      intro items hplain hlen
      obtain ⟨world₁, -, hbindings⟩ := hfirst items hplain hlen
      exact hbindings
    -- a list that shows each way to fail
    obtain ⟨hreplaced, hlookup, hpart⟩ := hcall (nilAt idx (elements (slot :: slots)))
      (nilAt_plain _ _) (by rw [length_nilAt]; omega)
    have hlocal : slot.callee ∉ locals := by
      rw [← hprobe.names (nilAt idx (elements (slot :: slots))), hlookup]
      exact Bool.false_ne_true
    have hlt : idx < 2 ^ 63 := by
      apply Nat.lt_of_le_of_ne hidx
      rintro rfl
      exact partOf_outside ⟨_, rfl⟩ hpart
    have hkeeps : slots = [] ∨ slot.name ≠ gs ∨ slot = .rest gs ∧ idx = 0 := by
      cases slots with
      | nil => exact .inl rfl
      | cons slot' slots' =>
        right
        by_contra hnot
        rw [not_or, not_not] at hnot
        obtain ⟨hname, hslot⟩ := hnot
        have hgs : List.lookup gs
            ((slot.name, slot.value (nilAt idx (elements (slot :: slot' :: slots'))) idx)
            :: env (nilAt idx (elements (slot :: slot' :: slots')))) =
            some (slot.value (nilAt idx (elements (slot :: slot' :: slots'))) idx) := by
          rw [hname, List.lookup_cons_self]
        obtain ⟨world₁, happly, -⟩ := evalBindings_slot hgs
          (hrest _ (nilAt_plain _ _) (by rw [length_nilAt]; omega))
        obtain ⟨-, -, hpart'⟩ := library_of_applyCall
          (inert_cons (nilAt_plain _ _) (hprobe.inert _ (nilAt_plain _ _))) happly
        exact partOf_rebound (hname ▸ hslot) hlt hpart'
    refine ⟨hreplaced, hlocal, hlt, hkeeps, ?_⟩
    rcases hkeeps with rfl | hkeeps
    · trivial
    · apply ih (by cases slot <;> simp only [Slot.next] <;> omega) (hprobe.bind hkeeps)
      intro items hplain hlen
      exact hrest items hplain (by rwa [next_add_elements] at hlen)

end Replacing

/-! ## When a `let` keeps its meaning -/

theorem hasNames_map (names : List String) :
    HasNames (names.map fun name => (name, .nil)) names := by
  intro name
  induction names with
  | nil => simp
  | cons head names ih =>
    rw [List.map_cons, List.lookup_cons, List.mem_cons]
    split
    next heq => simp [beq_iff_eq.mp heq]
    next heq => simp [ih, beq_eq_false_iff_ne.mp heq]

theorem lookup_map_nil {names : List String} {name : String} {v : RefValue}
    (h : List.lookup name (names.map fun name => (name, (.nil : RefValue))) = some v) :
      v = .nil := by
  induction names with
  | nil => cases h
  | cons head names ih =>
    rw [List.map_cons, List.lookup_cons] at h
    split at h
    · cases h
      rfl
    · exact ih h

theorem probe_initial (gs : String) (locals : List String) :
    Probe gs (gs :: locals) fun items => (gs, .list items) :: locals.map fun name =>
      (name, .nil) where
  lookup_gs items := List.lookup_cons_self
  names items name := by
    rw [List.lookup_cons, List.mem_cons]
    split
    next heq => simp [beq_iff_eq.mp heq]
    next heq => simp [hasNames_map locals name, beq_eq_false_iff_ne.mp heq]
  inert items hplain name v hv := by
    rw [List.lookup_cons] at hv
    split at hv
    · cases hv
      exact .inr (.inr ⟨items, rfl⟩)
    · exact .inl (lookup_map_nil hv)

/-- The temporary is no name that the user wrote, unless the pattern binds that name itself. -/
def Unwritten (written : Set String) (gs : String) (slots : List Slot) : Prop :=
  gs ∈ written → gs ∈ slots.map Slot.name

/-- A pattern keeps its meaning just if it is hygienic and its name is not written. -/
theorem keepsPattern_iff {replaced locals : List String} {written : Set String} {span : Span}
    {gs : String} {slots : List Slot} :
    KeepsPattern replaced locals written span gs slots ↔
      Hygienic replaced gs (gs :: locals) 0 slots ∧ Unwritten written gs slots := by
  constructor
  · intro h
    have hrun := h Unit (replacingProgram replaced) (fun _ _ _ => .timeout)
      (replacingProgram_keepsLibrary _) (locals.map fun name => (name, .nil))
    constructor
    · apply hygienic_of_evalBindings (Nat.zero_le _) (probe_initial gs locals)
      intro items _ hlen
      exact (hrun items () (hasNames_map locals) (by omega)).1
    · intro hwritten
      by_contra hnot
      have hlookup := (hrun (List.replicate (elements slots) .nil) () (hasNames_map locals)
        (by simp)).2 gs hwritten
      rw [lookup_bindSlots_of_not_mem hnot, lookup_bindSlots_of_not_mem hnot,
        List.lookup_cons_self] at hlookup
      cases lookup_map_nil hlookup.symm
  · intro ⟨hhygienic, hunwritten⟩ World P enter hlib env items world hnames hlen
    constructor
    · apply hhygienic.evalBindings hlib span world (by omega) (by omega) List.lookup_cons_self
      intro name hname
      rw [List.lookup_cons] at hname
      split at hname
      next heq => exact List.mem_cons.mpr (.inl (beq_iff_eq.mp heq))
      next heq => exact List.mem_cons_of_mem _ ((hnames name).mp hname)
    · intro name hname
      by_cases hmem : name ∈ slots.map Slot.name
      · exact lookup_bindSlots_of_mem hmem _ _ _
      · have hne : name ≠ gs := by
          rintro rfl
          exact hmem (hunwritten hname)
        rw [lookup_bindSlots_of_not_mem hmem, lookup_bindSlots_of_not_mem hmem, List.lookup_cons,
          beq_eq_false_iff_ne.mpr hne]

/-- Each list pattern keeps its meaning where the names before it are bound. -/
def KeepsMeaning (replaced : List String) (written : Set String) :
    List String → List BindingGroup → Prop
  | _, [] => True
  | locals, .plain bindings :: groups =>
    KeepsMeaning replaced written (bindings.map LetBinding.name ++ locals) groups
  | locals, .list gs _ slots span :: groups =>
    KeepsPattern replaced locals written span gs slots ∧
      KeepsMeaning replaced written (slots.map Slot.name ++ gs :: locals) groups

/-- Each list pattern is hygienic where the names before it are bound. -/
def HygienicLet (replaced : List String) (written : Set String) :
    List String → List BindingGroup → Prop
  | _, [] => True
  | locals, .plain bindings :: groups =>
    HygienicLet replaced written (bindings.map LetBinding.name ++ locals) groups
  | locals, .list gs _ slots _ :: groups =>
    (Hygienic replaced gs (gs :: locals) 0 slots ∧ Unwritten written gs slots) ∧
      HygienicLet replaced written (slots.map Slot.name ++ gs :: locals) groups

/-- Groups keep their meaning just if each pattern is hygienic where it stands. -/
theorem keepsMeaning_iff {replaced : List String} {written : Set String}
    {groups : List BindingGroup} :
    ∀ {locals : List String}, KeepsMeaning replaced written locals groups ↔
      HygienicLet replaced written locals groups := by
  induction groups with
  | nil => intro locals; exact Iff.rfl
  | cons group groups ih =>
    intro locals
    cases group with
    | plain bindings => exact ih
    | list gs value slots span => exact and_congr keepsPattern_iff ih

/-- The bindings of a `let`, each pattern binding its names to the parts of its list; undefined
where a list is too short. -/
def evalGroups {World : Type} (P : RefProgram World)
    (enter : Target → List RefValue → World → Res World RefValue) :
    List BindingGroup → Env → World → Res World Env
  | [], env, world => .ok env world
  | .plain bindings :: groups, env, world =>
    (P.evalBindings enter (AstToIr.compileBindings bindings) env world).bind fun env world =>
      evalGroups P enter groups env world
  | .list gs value slots _ :: groups, env, world =>
    (P.eval enter (AstToIr.compileExpr value) env world).bind fun v world =>
      match v with
      | .list items =>
        if elements slots ≤ items.length then
          evalGroups P enter groups (bindSlots items 0 slots ((gs, .list items) :: env)) world
        else .departs
      | _ => .departs

theorem HasNames.append {env binds : Env} {locals names : List String} (h : HasNames env locals)
    (hbinds : binds.map Prod.fst = names.reverse) : HasNames (binds ++ env) (names ++ locals) := by
  intro name
  have hmem : (∃ p ∈ binds, (name == p.1) = true) ↔ name ∈ names := by
    rw [← List.mem_reverse, ← hbinds, List.mem_map]
    constructor
    · rintro ⟨p, hp, heq⟩
      exact ⟨p, hp, (beq_iff_eq.mp heq).symm⟩
    · rintro ⟨p, hp, heq⟩
      exact ⟨p, hp, beq_iff_eq.mpr heq.symm⟩
  rw [List.lookup_append, Option.isSome_or, Bool.or_eq_true, List.mem_append, h name,
    List.lookup_isSome_iff, hmem]

theorem KeepsLibrary.mono {World : Type} {P : RefProgram World}
    {enter : Target → List RefValue → World → Res World RefValue} {replaced : List String}
    {bound bound' : Nat} (h : KeepsLibrary P enter replaced bound') (hle : bound ≤ bound') :
    KeepsLibrary P enter replaced bound where
  element := h.element
  rest hdrop items idx world hidx hbound :=
    h.rest hdrop items idx world hidx (Nat.le_trans hbound hle)

/-- No pattern names more than `bound` elements. -/
def Bounded (bound : Nat) (groups : List BindingGroup) : Prop :=
  ∀ gs value slots span, .list gs value slots span ∈ groups → elements slots ≤ bound

/-- Groups that keep their meaning are bound to the parts of their lists. -/
theorem KeepsMeaning.evalBindings {World : Type} {P : RefProgram World}
    {enter : Target → List RefValue → World → Res World RefValue} {replaced : List String}
    {written : Set String} {bound : Nat} {groups : List BindingGroup}
    (hlib : KeepsLibrary P enter replaced bound) (hbounded : Bounded bound groups) :
    ∀ {locals : List String} {env env' : Env} {world world' : World},
      KeepsMeaning replaced written locals groups → HasNames env locals →
      evalGroups P enter groups env world = .ok env' world' →
      P.evalBindings enter (AstToIr.compileBindings (groups.flatMap BindingGroup.bindings)) env
        world = .ok env' world' := by
  induction groups with
  | nil =>
    intro locals env env' world world' _ _ h
    exact h
  | cons group groups ih =>
    have hrest : Bounded bound groups := fun gs value slots span hmem =>
      hbounded gs value slots span (List.mem_cons_of_mem _ hmem)
    intro locals env env' world world' hkeeps hnames h
    rw [List.flatMap_cons, compileBindings_append, RefProgram.evalBindings_append]
    cases group with
    | plain bindings =>
      rw [evalGroups, Transition.Outcome.bind_eq_ok] at h
      obtain ⟨env₁, world₁, hfirst, h⟩ := h
      obtain ⟨binds, hbinds, rfl⟩ := RefProgram.evalBindings_ok hfirst
      rw [BindingGroup.bindings, hfirst, Transition.Outcome.bind_ok]
      exact ih hrest hkeeps (hnames.append hbinds) h
    | list gs value slots span =>
      rw [evalGroups, Transition.Outcome.bind_eq_ok] at h
      obtain ⟨v, world₁, hvalue, h⟩ := h
      split at h
      next items =>
        split at h
        next hlen =>
          -- the value is in the temporary, and the pattern keeps its meaning from there
          have hpattern := (hkeeps.1 World P enter
            (hlib.mono (hbounded gs value slots span List.mem_cons_self)) env items world₁ hnames
            hlen).1
          obtain ⟨binds, hbinds, heq⟩ :=
            bindSlots_append items slots 0 ((gs, .list items) :: env)
          have htemporary : HasNames ((gs, .list items) :: env) (gs :: locals) :=
            @HasNames.append env [(gs, .list items)] locals [gs] hnames rfl
          rw [BindingGroup.bindings, AstToIr.compileBindings, RefProgram.evalBindings, hvalue,
            Transition.Outcome.bind_ok, hpattern, Transition.Outcome.bind_ok]
          apply ih hrest hkeeps.2 _ h
          rw [heq]
          exact htemporary.append hbinds
        next hlen => cases h
      next => cases h

/-- A `let` with list patterns is read as bindings that keep its meaning exactly if each of its
patterns is hygienic. -/
theorem destructuring_keeps_meaning_iff {debug : SExpr → String} {span : Span}
    {items : List SExpr} {e : Expr} {s s' : ParserState}
    (h : Yields (parseLetExpr debug span items) s e s') (replaced locals : List String)
    (written : Set String) :
    ∃ groups body, ReadsBindings debug items s groups ∧
      e = ⟨.let (groups.flatMap BindingGroup.bindings) body, span⟩ ∧
      (KeepsMeaning replaced written locals groups ↔
        HygienicLet replaced written locals groups) := by
  obtain ⟨groups, body, hreads, heq⟩ := parseLetExpr_reads h
  exact ⟨groups, body, hreads, heq, keepsMeaning_iff⟩

/-- `([at b] [1 2]) b`. -/
def atCaptured : List SExpr :=
  [.list [.bracketList [.atom (.symbol "at") .dummy, .atom (.symbol "b") .dummy] .dummy,
      .bracketList [.atom (.integer 1) .dummy, .atom (.integer 2) .dummy] .dummy] .dummy,
    .atom (.symbol "b") .dummy]

/-- `(__d0 : i64 5) ([a] [1]) __d0`. -/
def temporaryWritten : List SExpr :=
  [.list [.atom (.symbol "__d0") .dummy, .atom (.symbol ":") .dummy, .atom (.symbol "i64") .dummy,
      .atom (.integer 5) .dummy] .dummy,
    .list [.bracketList [.atom (.symbol "a") .dummy] .dummy,
      .bracketList [.atom (.integer 1) .dummy] .dummy] .dummy,
    .atom (.symbol "__d0") .dummy]

/-- The second element of `[1 2]` is looked up with the first, and `__d0` is the list `[1]`. -/
theorem destructuring_captures :
    (∃ e s', Yields (parseLetExpr (fun _ => "") .dummy atCaptured) ⟨0, []⟩ e s' ∧
      (replacingProgram []).eval (fun _ _ _ => .timeout) (AstToIr.compileExpr e) [] () =
        .err (.error .notCallable)) ∧
    ∃ e s', Yields (parseLetExpr (fun _ => "") .dummy temporaryWritten) ⟨0, []⟩ e s' ∧
      (replacingProgram []).eval (fun _ _ _ => .timeout) (AstToIr.compileExpr e) [] () =
        .ok (.list [.int 1]) () :=
  ⟨⟨_, _, rfl, rfl⟩, _, _, rfl, rfl⟩

def atCapturedLet : Expr :=
  ⟨.let [⟨"__d0", wildTy .dummy, ⟨.listLit [⟨.intLit 1, .dummy⟩, ⟨.intLit 2, .dummy⟩], .dummy⟩,
        .dummy⟩,
      (Slot.elem "at").binding .dummy "__d0" 0, (Slot.elem "b").binding .dummy "__d0" 1]
    (symbolRef "b" .dummy), .dummy⟩

theorem atCaptured_yields :
    Yields (parseLetExpr (fun _ => "") .dummy atCaptured) ⟨0, []⟩ atCapturedLet ⟨1, []⟩ := rfl

theorem atCaptured_keeps_meaning_iff :
    ∃ groups body, ReadsBindings (fun _ => "") atCaptured ⟨0, []⟩ groups ∧
      atCapturedLet = ⟨.let (groups.flatMap BindingGroup.bindings) body, .dummy⟩ ∧
      (KeepsMeaning [] {"at", "b"} [] groups ↔ HygienicLet [] {"at", "b"} [] groups) :=
  destructuring_keeps_meaning_iff atCaptured_yields [] [] {"at", "b"}

/-! ## The whole `let` -/

/-- Where the patterns are hygienic and the lists long enough, the lowered `let` is its body among
the parts of the lists, in every program that has the library's `drop`. -/
theorem eval_destructured_let {World : Type} {P : RefProgram World} (hp : HasParts P)
    {debug : SExpr → String} {span : Span} {items : List SExpr} {e : Expr} {s s' : ParserState}
    (h : Yields (parseLetExpr debug span items) s e s') {env : Env} {locals : List String}
    (hnames : HasNames env locals) (written : Set String) (depth : Nat) (world : World) :
    ∃ groups body, ReadsBindings debug items s groups ∧
      e = ⟨.let (groups.flatMap BindingGroup.bindings) body, span⟩ ∧
      ∀ bound < depth, Bounded bound groups → HygienicLet [] written locals groups →
        ∀ env' world', evalGroups P (P.call depth) groups env world = .ok env' world' →
          P.eval (P.call depth) (AstToIr.compileExpr e) env world =
            P.eval (P.call depth) (AstToIr.compileExpr body) env' world' := by
  obtain ⟨groups, body, hreads, rfl⟩ := parseLetExpr_reads h
  refine ⟨groups, body, hreads, rfl, fun bound hbound hbounded hhygienic env' world' heval => ?_⟩
  have hbindings := (keepsMeaning_iff.mpr hhygienic).evalBindings
    (RefProgram.keepsLibrary hp hbound) hbounded hnames heval
  show (P.evalBindings (P.call depth) (AstToIr.compileBindings _) env world).bind _ = _
  rw [hbindings, Transition.Outcome.bind_ok]

/-- A program that consists of the library's `drop` and what it calls. -/
def dropProgram : RefProgram Unit where
  functions name := if name = "drop" then some dropFunc else none
  builtins :=
    { known name := name ∈ ["at", "or", "empty?", "tail"]
      dispatch name args world :=
        (match name, args with
          | "at", args => airlAt args
          | "or", [.bool a, .bool b] => .ok (.bool (a || b))
          | "empty?", [.list xs] => .ok (.bool xs.isEmpty)
          | "tail", [.list (_ :: xs)] => .ok (.list xs)
          | _, _ => .error .exit, world)
      threadSpawn _ world := (.error .exit, world)
      fnMetadata _ world := (.error .exit, world)
      known_at := by decide
      dispatch_at _ _ := rfl }

theorem dropProgram_hasParts : HasParts dropProgram where
  drop := rfl
  undefined := by decide
  known := by decide
  or_ _ _ _ := rfl
  empty _ _ := rfl
  tail _ _ _ := rfl

/-- `([a & r] [1 2])`. -/
def restBinding : SExpr :=
  .list [.bracketList [.atom (.symbol "a") .dummy, .atom (.symbol "&") .dummy,
      .atom (.symbol "r") .dummy] .dummy,
    .bracketList [.atom (.integer 1) .dummy, .atom (.integer 2) .dummy] .dummy] .dummy

/-- `([a & r] [1 2]) r`. -/
def restRead : List SExpr :=
  [restBinding, .atom (.symbol "r") .dummy]

/-- The value `[1 2]` as it is parsed. -/
def restValue : Expr :=
  ⟨.listLit [⟨.intLit 1, .dummy⟩, ⟨.intLit 2, .dummy⟩], .dummy⟩

def restGroup : BindingGroup := .list "__d0" restValue [.elem "a", .rest "r"] .dummy

theorem restRead_yields : Yields (parseLetExpr (fun _ => "") .dummy restRead) ⟨0, []⟩
    ⟨.let restGroup.bindings (symbolRef "r" .dummy), .dummy⟩ ⟨1, []⟩ := rfl

/-- There is one way to read the bindings of `restRead`. -/
theorem restRead_groups {groups : List BindingGroup}
    (h : ReadsBindings (fun _ => "") restRead ⟨0, []⟩ groups) : groups = [restGroup] := by
  have hyields : Yields (parseLetBindingsFrom (fun _ => "") restBinding) ⟨0, []⟩
      restGroup.bindings ⟨1, []⟩ := rfl
  cases h with
  | done hbinding => cases hbinding
  | plain _ hpattern => cases hpattern
  | list _ hread hrest =>
    have heq := hread.symm.trans hyields
    cases heq
    cases hrest with
    | done => rfl
    | plain hbinding => cases hbinding

/-- `(let ([a & r] [1 2]) r)` is the rest, `[2]`. -/
theorem eval_restRead : dropProgram.eval (dropProgram.call 8)
    (AstToIr.compileExpr ⟨.let restGroup.bindings (symbolRef "r" .dummy), .dummy⟩) [] () =
      .ok (.list [.int 2]) () := by
  have hnames : HasNames [] [] := by simp [HasNames]
  obtain ⟨groups, body, hreads, heq, heval⟩ :=
    eval_destructured_let dropProgram_hasParts restRead_yields hnames {"a", "r"} 8 ()
  cases restRead_groups hreads
  have hbody : body = symbolRef "r" .dummy := by
    cases heq
    rfl
  have hbounded : Bounded 2 [restGroup] := by
    intro gs value slots span hmem
    cases List.mem_singleton.mp hmem
    decide
  have hhygienic : HygienicLet [] {"a", "r"} [] [restGroup] := by
    refine ⟨⟨?_, ?_⟩, trivial⟩
    · simp [Hygienic, Slot.callee, Slot.name, Slot.next]
    · -- the user writes no name that begins with `__`
      rintro (hwritten | hwritten)
      · exact absurd hwritten (by decide)
      · have heq : "__d0" = "r" := hwritten
        exact absurd heq (by decide)
  rw [heval 2 (by decide) hbounded hhygienic
    (bindSlots [.int 1, .int 2] 0 [.elem "a", .rest "r"] [("__d0", .list [.int 1, .int 2])]) ()
    rfl, hbody]
  rfl

end Airl
