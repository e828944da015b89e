import Airl.Bytecode.Linking

/-! # Linker symbols

`aot_symbol_name` writes a hyphen as an underscore and nothing else of a name differently. The
symbols of two functions are the same exactly if their names differ in that alone, and the runtime
library has a few symbols of the same form.
-/

namespace Airl

/-- One character under `replace('-', "_")`. -/
def underscore (c : Char) : Char := if c = '-' then '_' else c

/-- The two names that are written as one. -/
def SameUnderscored (a b : String) : Prop := a.toList.map underscore = b.toList.map underscore

instance (a b : String) : Decidable (SameUnderscored a b) := inferInstanceAs (Decidable (_ = _))

/-- The symbols that `terminal.rs` exports for names which no program declares. -/
def terminalWrappers : List String :=
  ["__airl_fn_canopy_stdout_write", "__airl_fn_canopy_stdin_read_byte",
    "__airl_fn_canopy_stdin_read_available", "__airl_fn_canopy_terminal_size",
    "__airl_fn_canopy_raw_mode_enable", "__airl_fn_canopy_raw_mode_disable",
    "__airl_fn_canopy_on_resize"]

/-- The symbols of the libraries that an executable is linked with. Apart from the wrappers none
begins as the symbols of compiled functions do. -/
structure RuntimeSymbols (runtime : String → Prop) : Prop where
  wrappers : ∀ symbol ∈ terminalWrappers, runtime symbol
  others : ∀ symbol, runtime symbol → "__airl_".toList <+: symbol.toList →
    symbol ∈ terminalWrappers

theorem aotSymbolName_ordinary {name : String} (hmain : name ≠ "main")
    (hentry : name ≠ "__main__") :
    (aotSymbolName name).toList = "__airl_fn_".toList ++ name.toList.map underscore := by
  unfold aotSymbolName
  rw [if_neg hmain, if_neg hentry, String.toList_append, String.toList_map]
  rfl

@[simp] theorem aotSymbolName_main : aotSymbolName "main" = "__airl_user_main" := by
  decide

@[simp] theorem aotSymbolName_entry : aotSymbolName "__main__" = "__airl_main_entry__" := by
  decide

theorem eq_of_map_underscore {cs ds : List Char} (hds : '_' ∉ ds) (h : cs.map underscore = ds) :
    cs = ds := by
  induction cs generalizing ds with
  | nil => exact h
  | cons c cs ih =>
    subst h
    rw [List.map_cons, List.mem_cons, not_or] at hds
    rw [List.map_cons, ← ih hds.2 rfl]
    congr 1
    have hkept := hds.1
    unfold underscore at hkept ⊢
    split at hkept
    next => exact absurd rfl hkept
    next hne => exact (if_neg hne).symm

theorem eq_main_of_same {name : String} (h : SameUnderscored name "main") : name = "main" :=
  String.ext (eq_of_map_underscore (by decide) h)

theorem aotSymbolName_eq_iff {a b : String} (hne : a ≠ b) :
    aotSymbolName a = aotSymbolName b ↔ a ≠ "__main__" ∧ b ≠ "__main__" ∧ SameUnderscored a b := by
  -- an ordinary symbol is neither that of `main` nor that of the entry point
  have hspecial : ∀ {name : String}, name ≠ "main" → name ≠ "__main__" →
      aotSymbolName name ≠ "__airl_user_main" ∧ aotSymbolName name ≠ "__airl_main_entry__" := by
    intro name hmain hentry
    constructor <;>
    · intro heq
      have hchars := congrArg String.toList heq
      rw [aotSymbolName_ordinary hmain hentry] at hchars
      simp at hchars
  by_cases hentryA : a = "__main__"
  · subst hentryA
    simp only [ne_eq, not_true_eq_false, false_and, iff_false, aotSymbolName_entry]
    by_cases hmainB : b = "main"
    · subst hmainB
      decide
    · exact fun heq => (hspecial hmainB (Ne.symm hne)).2 heq.symm
  by_cases hentryB : b = "__main__"
  · subst hentryB
    simp only [ne_eq, not_true_eq_false, false_and, and_false, iff_false, aotSymbolName_entry]
    by_cases hmainA : a = "main"
    · subst hmainA
      decide
    · exact (hspecial hmainA hne).2
  simp only [ne_eq, hentryA, hentryB, not_false_eq_true, true_and]
  by_cases hmainA : a = "main"
  · subst hmainA
    rw [aotSymbolName_main]
    constructor
    · exact fun heq => absurd heq.symm (hspecial (Ne.symm hne) hentryB).1
    · exact fun h => absurd (eq_main_of_same h.symm) (Ne.symm hne)
  by_cases hmainB : b = "main"
  · subst hmainB
    rw [aotSymbolName_main]
    constructor
    · exact fun heq => absurd heq (hspecial hmainA hentryA).1
    · exact fun h => absurd (eq_main_of_same h) hmainA
  rw [← String.toList_inj, aotSymbolName_ordinary hmainA hentryA,
    aotSymbolName_ordinary hmainB hentryB, List.append_cancel_left_eq]
  rfl

theorem runtime_aotSymbolName_iff {runtime : String → Prop} (hruntime : RuntimeSymbols runtime)
    (name : String) :
    runtime (aotSymbolName name) ↔
      ∃ symbol ∈ terminalWrappers, symbol.toList = "__airl_fn_".toList ++
        name.toList.map underscore := by
  have hbegins : "__airl_".toList <+: (aotSymbolName name).toList := by
    by_cases hmain : name = "main"
    · subst hmain
      decide
    by_cases hentry : name = "__main__"
    · subst hentry
      decide
    rw [aotSymbolName_ordinary hmain hentry]
    exact ⟨"fn_".toList ++ name.toList.map underscore, rfl⟩
  have hmem : runtime (aotSymbolName name) ↔ aotSymbolName name ∈ terminalWrappers :=
    ⟨fun h => hruntime.others _ h hbegins, hruntime.wrappers _⟩
  rw [hmem]
  by_cases hmain : name = "main"
  · subst hmain
    decide
  by_cases hentry : name = "__main__"
  · subst hentry
    decide
  constructor
  · exact fun h => ⟨_, h, aotSymbolName_ordinary hmain hentry⟩
  · rintro ⟨symbol, hsymbol, heq⟩
    rw [← aotSymbolName_ordinary hmain hentry, String.toList_inj] at heq
    exact heq ▸ hsymbol

/-- No two of the names are written alike, and none is written as a wrapper is. -/
structure Distinguished (names : List String) : Prop where
  apart : ∀ a ∈ names, ∀ b ∈ names, a ≠ b → a ≠ "__main__" → b ≠ "__main__" → ¬ SameUnderscored a b
  free : ∀ a ∈ names, ∀ symbol ∈ terminalWrappers,
    symbol.toList ≠ "__airl_fn_".toList ++ a.toList.map underscore

/-- The functions have symbols of their own, and the linker finds behind a call the function that
the call names. -/
structure KeptApart (runtime : String → Prop) (builtinMap : String → Bool)
    (funcs : List BytecodeFunc) : Prop where
  symbols : ∀ f ∈ funcs, ∀ g ∈ funcs, f.name ≠ g.name → aotSymbolName f.name ≠ aotSymbolName g.name
  runtime : ∀ f ∈ funcs, ¬ runtime (aotSymbolName f.name)
  calls : ∀ func, IsLast funcs func → ∀ caller argc symbol,
    callTarget builtinMap caller func.name argc = .symbol symbol →
      ∀ g, LinkedAs (executableObjects funcs) symbol g ↔ g = func

theorem callTarget_eq_symbol {builtinMap : String → Bool} {caller callee symbol : String}
    {argc : Nat} (h : callTarget builtinMap caller callee argc = .symbol symbol) :
    symbol = aotSymbolName callee := by
  unfold callTarget at h
  split at h
  next => exact nomatch h
  split at h
  next hself =>
    cases h
    rw [hself]
  split at h
  next => exact nomatch h
  next =>
    cases h
    rfl

theorem Distinguished.soleSymbol {funcs : List BytecodeFunc}
    (h : Distinguished (funcs.map BytecodeFunc.name)) {func : BytecodeFunc} (hfunc : func ∈ funcs) :
    SoleSymbol funcs func.name := by
  intro g hg heq
  by_contra hne
  obtain ⟨hg', hfunc', hsame⟩ := (aotSymbolName_eq_iff hne).mp heq
  exact h.apart g.name (List.mem_map_of_mem hg) func.name (List.mem_map_of_mem hfunc) hne hg' hfunc'
    hsame

/-- The wrappers and two more symbols. -/
def someRuntime (symbol : String) : Prop :=
  symbol ∈ terminalWrappers ++ ["airl_flush_stdout", "getenv"]

theorem someRuntime_symbols : RuntimeSymbols someRuntime where
  wrappers _ hsymbol := List.mem_append_left _ hsymbol
  others symbol hsymbol hprefix := by
    rcases List.mem_append.mp hsymbol with h | h
    · exact h
    · simp only [List.mem_cons, List.not_mem_nil, or_false] at h
      rcases h with rfl | rfl <;> exact absurd hprefix (by decide)

/-- `(defn to-text () 1) (defn of_text () 2)`. -/
def dissimilar : List IRNode := [.func "to-text" [] (.int 1), .func "of_text" [] (.int 2)]

/-- `(defn to-text () 1) (defn to_text () 2)`. -/
def similar : List IRNode := [.func "to-text" [] (.int 1), .func "to_text" [] (.int 2)]

end Airl
