import Airl.Correctness.Program

/-! # Three loaders

The machine, the native compiler and the marshaller of self-hosted bytecode each
turn a list of functions into a table by name. What a name means there depends
on which of two namesakes stays, and a compiled call asks the table of runtime
functions first.
-/

namespace Airl

/-- `HashMap<String, BytecodeFunc>` collected from a list. -/
def funcMap (funcs : List BytecodeFunc) : List BytecodeFunc := funcs.foldl loadFunction []

/-- `aot_symbol_name`. -/
def aotSymbolName (name : String) : String :=
  if name = "main" then "__airl_user_main"
  else if name = "__main__" then "__airl_main_entry__"
  else "__airl_fn_" ++ name.map fun c => if c = '-' then '_' else c

/-- What a compiled call jumps to: a variadic runtime function, one of the table, or whatever the
linker finds under a symbol. -/
inductive CallTarget where
  | variadic (name : String)
  | builtin (name : String)
  | symbol (name : String)
  deriving DecidableEq

/-- The target that `compile_func` gives `Op::Call`; `builtinMap` are the names of `builtin_map`. -/
def callTarget (builtinMap : String → Bool) (caller callee : String) (argc : Nat) : CallTarget :=
  if (callee = "print" ∧ argc ≠ 1) ∨ callee = "str" ∨ callee = "format" then .variadic callee
  else if callee = caller then .symbol (aotSymbolName caller)
  else if builtinMap callee then .builtin callee
  else .symbol (aotSymbolName callee)

/-- The target of `Op::TailCall`: the start of the function itself. Another callee is refused. -/
def tailCallTarget (caller callee : String) : Option CallTarget :=
  if callee = caller then some (.symbol (aotSymbolName caller)) else none

/-- The functions under a symbol in the objects that are linked together. `compile_with_deps`
compiles each function of a map once, in an order that the map does not fix. -/
def LinkedAs (objects : List (List BytecodeFunc)) (symbol : String) (func : BytecodeFunc) : Prop :=
  ∃ object ∈ objects, func ∈ object ∧ aotSymbolName func.name = symbol

/-- The one object of `compile_to_executable_impl`. -/
def executableObjects (funcs : List BytecodeFunc) : List (List BytecodeFunc) := [funcMap funcs]

/-- `bc_funcs.retain(|f| seen.insert(f.name.clone()))`: what stays, and the names seen. -/
def retainNew : List BytecodeFunc → List String → List BytecodeFunc × List String
  | [], seen => ([], seen)
  | func :: funcs, seen =>
    if func.name ∈ seen then retainNew funcs seen
    else
      let rest := retainNew funcs (func.name :: seen)
      (func :: rest.1, rest.2)

/-- `compile_bytecode_to_executable_with_target`: one object. -/
def marshalledObjects (funcs : List BytecodeFunc) : List (List BytecodeFunc) :=
  [funcMap (retainNew funcs []).1]

/-- The batches of `compile_bytecode_streaming` from one on, each with its object; `global_seen`
is carried along. -/
def streamedFrom : List (List BytecodeFunc) → List String → List (List BytecodeFunc)
  | [], _ => []
  | batch :: batches, seen =>
    let kept := retainNew batch seen
    if kept.1.isEmpty then streamedFrom batches kept.2
    else funcMap kept.1 :: streamedFrom batches kept.2

/-- `compile_bytecode_streaming`. -/
def streamedObjects (batches : List (List BytecodeFunc)) : List (List BytecodeFunc) :=
  streamedFrom batches []

/-- The first function of its name in the list. -/
def IsFirst (funcs : List BytecodeFunc) (func : BytecodeFunc) : Prop :=
  funcs.find? (fun f => f.name == func.name) = some func

/-- The last function of its name in the list. -/
def IsLast (funcs : List BytecodeFunc) (func : BytecodeFunc) : Prop := IsFirst funcs.reverse func

theorem isFirst_cons {f func : BytecodeFunc} {funcs : List BytecodeFunc} :
    IsFirst (f :: funcs) func ↔ f = func ∨ f.name ≠ func.name ∧ IsFirst funcs func := by
  unfold IsFirst
  rw [List.find?_cons]
  by_cases hname : f.name = func.name
  · simp [hname]
  · have hne : f ≠ func := fun heq => hname (heq ▸ rfl)
    rw [beq_eq_false_iff_ne.mpr hname]
    simp [hname, hne]

theorem isFirst_append {funcs funcs' : List BytecodeFunc} {func : BytecodeFunc} :
    IsFirst (funcs ++ funcs') func ↔
      IsFirst funcs func ∨ (∀ f ∈ funcs, f.name ≠ func.name) ∧ IsFirst funcs' func := by
  induction funcs with
  | nil => simp [IsFirst]
  | cons f funcs ih =>
    rw [List.cons_append, isFirst_cons, isFirst_cons, ih, List.forall_mem_cons]
    tauto

theorem IsFirst.mem {funcs : List BytecodeFunc} {func : BytecodeFunc} (h : IsFirst funcs func) :
    func ∈ funcs := List.mem_of_find?_eq_some h

theorem IsFirst.unique {funcs : List BytecodeFunc} {func func' : BytecodeFunc}
    (h : IsFirst funcs func) (h' : IsFirst funcs func') (hname : func.name = func'.name) :
    func = func' := by
  unfold IsFirst at h h'
  rw [← hname, h] at h'
  exact Option.some.inj h'

/-- No other function of the list has the name of this one. -/
structure SoleDefinition (funcs : List BytecodeFunc) (func : BytecodeFunc) : Prop where
  mem : func ∈ funcs
  sole : ∀ g ∈ funcs, g.name = func.name → g = func

theorem SoleDefinition.isFirst {funcs : List BytecodeFunc} {func : BytecodeFunc}
    (h : SoleDefinition funcs func) : IsFirst funcs func := by
  unfold IsFirst
  cases hfind : funcs.find? fun f => f.name == func.name with
  | none => simpa using List.find?_eq_none.mp hfind func h.mem
  | some g =>
    have hname : g.name = func.name := by simpa using List.find?_some hfind
    rw [h.sole g (List.mem_of_find?_eq_some hfind) hname]

theorem SoleDefinition.isLast {funcs : List BytecodeFunc} {func : BytecodeFunc}
    (h : SoleDefinition funcs func) : IsLast funcs func :=
  SoleDefinition.isFirst ⟨List.mem_reverse.mpr h.mem, fun g hg => h.sole g (List.mem_reverse.mp hg)⟩

theorem mem_funcMap {funcs : List BytecodeFunc} {func : BytecodeFunc} :
    func ∈ funcMap funcs ↔ IsLast funcs func := by
  induction funcs using List.reverseRecOn with
  | nil => simp [funcMap, IsLast, IsFirst]
  | append_singleton funcs f ih =>
    rw [IsLast, List.reverse_append, List.reverse_singleton, List.singleton_append, isFirst_cons,
      ← IsLast, ← ih, funcMap, List.foldl_append, List.foldl_cons, List.foldl_nil, ← funcMap,
      loadFunction, List.mem_append, List.mem_filter, List.mem_singleton, bne_iff_ne]
    tauto

theorem mem_retainNew_seen {funcs : List BytecodeFunc} {seen : List String} {name : String} :
    name ∈ (retainNew funcs seen).2 ↔ name ∈ seen ∨ ∃ f ∈ funcs, f.name = name := by
  induction funcs generalizing seen with
  | nil => simp [retainNew]
  | cons f funcs ih =>
    rw [retainNew]
    split
    next hseen =>
      rw [ih, List.exists_mem_cons_iff]
      constructor
      · tauto
      · rintro (h | rfl | h) <;> tauto
    next =>
      rw [ih, List.mem_cons, List.exists_mem_cons_iff]
      tauto

theorem mem_retainNew {funcs : List BytecodeFunc} {seen : List String} {func : BytecodeFunc} :
    func ∈ (retainNew funcs seen).1 ↔ func.name ∉ seen ∧ IsFirst funcs func := by
  induction funcs generalizing seen with
  | nil => simp [retainNew, IsFirst]
  | cons f funcs ih =>
    rw [retainNew, isFirst_cons]
    split
    next hseen =>
      rw [ih]
      constructor
      · rintro ⟨hnew, hfirst⟩
        exact ⟨hnew, Or.inr ⟨fun heq => hnew (heq ▸ hseen), hfirst⟩⟩
      · rintro ⟨hnew, rfl | ⟨_, hfirst⟩⟩
        · exact absurd hseen hnew
        · exact ⟨hnew, hfirst⟩
    next hseen =>
      rw [List.mem_cons, ih, List.mem_cons]
      constructor
      · rintro (rfl | ⟨hnew, hfirst⟩)
        · exact ⟨hseen, Or.inl rfl⟩
        · exact ⟨fun h => hnew (Or.inr h), Or.inr ⟨fun heq => hnew (Or.inl heq.symm), hfirst⟩⟩
      · rintro ⟨hnew, rfl | ⟨hne, hfirst⟩⟩
        · exact Or.inl rfl
        · refine Or.inr ⟨?_, hfirst⟩
          rintro (heq | h)
          · exact hne heq.symm
          · exact hnew h

theorem mem_funcMap_retainNew {funcs : List BytecodeFunc} {seen : List String}
    {func : BytecodeFunc} :
    func ∈ funcMap (retainNew funcs seen).1 ↔ func.name ∉ seen ∧ IsFirst funcs func := by
  rw [mem_funcMap]
  constructor
  · intro hlast
    exact mem_retainNew.mp (List.mem_reverse.mp hlast.mem)
  · intro hfirst
    apply SoleDefinition.isLast
    refine ⟨mem_retainNew.mpr hfirst, fun g hg hname => ?_⟩
    exact (mem_retainNew.mp hg).2.unique hfirst.2 hname

theorem mem_streamedFrom {batches : List (List BytecodeFunc)} {seen : List String}
    {func : BytecodeFunc} :
    (∃ object ∈ streamedFrom batches seen, func ∈ object) ↔
      func.name ∉ seen ∧ IsFirst batches.flatten func := by
  induction batches generalizing seen with
  | nil => simp [streamedFrom, IsFirst]
  | cons batch batches ih =>
    have hrest : (∃ object ∈ streamedFrom (batch :: batches) seen, func ∈ object) ↔
        func ∈ funcMap (retainNew batch seen).1 ∨
          ∃ object ∈ streamedFrom batches (retainNew batch seen).2, func ∈ object := by
      rw [streamedFrom]
      split
      next hempty =>
        rw [List.isEmpty_iff.mp hempty]
        simp [funcMap]
      next => rw [List.exists_mem_cons_iff]
    rw [hrest, mem_funcMap_retainNew, ih, mem_retainNew_seen, List.flatten_cons, isFirst_append]
    constructor
    · rintro (⟨hnew, hfirst⟩ | ⟨hnew, hfirst⟩)
      · exact ⟨hnew, Or.inl hfirst⟩
      · push Not at hnew
        exact ⟨hnew.1, Or.inr ⟨hnew.2, hfirst⟩⟩
    · rintro ⟨hnew, hfirst | ⟨hbatch, hfirst⟩⟩
      · exact Or.inl ⟨hnew, hfirst⟩
      · refine Or.inr ⟨?_, hfirst⟩
        push Not
        exact ⟨hnew, hbatch⟩

/-- No function of another name is compiled to the same symbol. -/
def SoleSymbol (funcs : List BytecodeFunc) (name : String) : Prop :=
  ∀ g ∈ funcs, aotSymbolName g.name = aotSymbolName name → g.name = name

theorem linkedAs_iff {objects : List (List BytecodeFunc)} {funcs : List BytecodeFunc}
    {func : BytecodeFunc} (hobjects : ∀ g, (∃ object ∈ objects, g ∈ object) ↔ IsFirst funcs g)
    (hfirst : IsFirst funcs func) (hsymbol : SoleSymbol funcs func.name) (g : BytecodeFunc) :
    LinkedAs objects (aotSymbolName func.name) g ↔ g = func := by
  constructor
  · rintro ⟨object, hobject, hg, heq⟩
    have hkept := (hobjects g).mp ⟨object, hobject, hg⟩
    exact hkept.unique hfirst (hsymbol g hkept.mem heq)
  · rintro rfl
    obtain ⟨object, hobject, hmem⟩ := (hobjects g).mpr hfirst
    exact ⟨object, hobject, hmem, rfl⟩

theorem linkedAs_executable {funcs : List BytecodeFunc} {func : BytecodeFunc}
    (hlast : IsLast funcs func) (hsymbol : SoleSymbol funcs func.name) (g : BytecodeFunc) :
    LinkedAs (executableObjects funcs) (aotSymbolName func.name) g ↔ g = func := by
  refine linkedAs_iff (fun g => ?_) hlast (fun g hg => hsymbol g (List.mem_reverse.mp hg)) g
  rw [executableObjects, List.exists_mem_cons_iff, mem_funcMap, IsLast]
  simp

theorem linkedAs_marshalled {funcs : List BytecodeFunc} {func : BytecodeFunc}
    (hfirst : IsFirst funcs func) (hsymbol : SoleSymbol funcs func.name) (g : BytecodeFunc) :
    LinkedAs (marshalledObjects funcs) (aotSymbolName func.name) g ↔ g = func := by
  refine linkedAs_iff (fun g => ?_) hfirst hsymbol g
  rw [marshalledObjects, List.exists_mem_cons_iff, mem_funcMap_retainNew]
  simp

theorem linkedAs_streamed {batches : List (List BytecodeFunc)} {func : BytecodeFunc}
    (hfirst : IsFirst batches.flatten func) (hsymbol : SoleSymbol batches.flatten func.name)
    (g : BytecodeFunc) :
    LinkedAs (streamedObjects batches) (aotSymbolName func.name) g ↔ g = func := by
  refine linkedAs_iff (fun g => ?_) hfirst hsymbol g
  rw [streamedObjects, mem_streamedFrom]
  simp

theorem lookup_loadProgram {World : Type} {functions : List BytecodeFunc} {main : BytecodeFunc}
    {builtins : Builtins String World} {maxCallDepth : Nat} {func : BytecodeFunc} :
    (loadProgram functions main builtins maxCallDepth).lookup func.name = some func ↔
      IsLast (functions ++ [main]) func := by
  rw [loadProgram, Machine.lookup, find?_loaded, IsLast, IsFirst]

end Airl
