import Airl.Library.Returns
import Airl.Parser.Runs

/-! # Destructuring

What a `let` with list patterns is read as.
-/

namespace Airl.Parser

/-- A name of a list pattern: that of one element, or of all that are left. -/
inductive Slot where
  | elem (name : String)
  | rest (name : String)
  deriving Repr, DecidableEq

namespace Slot

def name : Slot → String
  | elem name => name
  | rest name => name

/-- The function that is called for the name. -/
def callee : Slot → String
  | elem _ => "at"
  | rest _ => "drop"

/-- The position of what stands behind. -/
def next (idx : Nat) : Slot → Nat
  | elem _ => idx + 1
  | rest _ => idx

def args (span : Span) (gs : String) (idx : Nat) : Slot → List Expr
  | elem _ => [symbolRef gs span, ⟨.intLit (.ofNat idx), span⟩]
  | rest _ => [⟨.intLit (.ofNat idx), span⟩, symbolRef gs span]

def binding (span : Span) (gs : String) (idx : Nat) (slot : Slot) : LetBinding :=
  ⟨slot.name, wildTy span, ⟨.fnCall (symbolRef slot.callee span) (slot.args span gs idx), span⟩,
    span⟩

end Slot

/-- The names of a list pattern, in order. -/
def slots : List SExpr → List Slot
  | [] => []
  | item :: items =>
    if item.asSymbol = some "&" then
      match items with
      | [] => []
      | rest :: items => .rest (rest.asSymbol.getD "") :: slots items
    else .elem (item.asSymbol.getD "") :: slots items

/-- An `&` and the name behind it are the rest of the list. -/
theorem slots_rest {item rest : SExpr} {items : List SExpr} (h : item.asSymbol = some "&") :
    slots (item :: rest :: items) = .rest (rest.asSymbol.getD "") :: slots items := by
  conv_lhs => unfold slots
  rw [if_pos h]

/-- Any other item is an element. -/
theorem slots_elem {item : SExpr} {items : List SExpr} (h : ¬ item.asSymbol = some "&") :
    slots (item :: items) = .elem (item.asSymbol.getD "") :: slots items := by
  conv_lhs => unfold slots
  rw [if_neg h]

def slotBindings (span : Span) (gs : String) : Nat → List Slot → List LetBinding
  | _, [] => []
  | idx, slot :: slots => slot.binding span gs idx :: slotBindings span gs (slot.next idx) slots

section Parse

variable {debug : SExpr → String} {span : Span} {s s' : ParserState}

theorem expectSymbol_eq_ok {sexpr : SExpr} {name : String} :
    expectSymbol debug sexpr = .ok name ↔ sexpr.asSymbol = some name := by
  unfold expectSymbol SExpr.asSymbol
  split <;> simp

/-- The bindings of the elements follow the slots of the pattern. -/
theorem elementBindings_eq {gs : String} {items : List SExpr} {idx : Nat}
    {bindings : List LetBinding} (h : elementBindings debug span gs idx items = .ok bindings) :
    bindings = slotBindings span gs idx (slots items) := by
  fun_induction elementBindings debug span gs idx items generalizing bindings with
  | case1 idx =>
    cases h
    rfl
  | case2 idx item hrest => cases h
  | case3 idx item hrest name items ih =>
    obtain ⟨restName, hname, h⟩ := except_bind_eq_ok.mp h
    obtain ⟨more, hmore, h⟩ := except_bind_eq_ok.mp h
    cases h
    rw [slots_rest hrest, expectSymbol_eq_ok.mp hname, ih hmore]
    rfl
  | case4 idx item items hrest ih =>
    obtain ⟨elemName, hname, h⟩ := except_bind_eq_ok.mp h
    obtain ⟨more, hmore, h⟩ := except_bind_eq_ok.mp h
    cases h
    rw [slots_elem hrest, expectSymbol_eq_ok.mp hname, ih hmore]
    rfl

/-- What one binding form is read as. -/
inductive BindingGroup where
  | plain (bindings : List LetBinding)
  | list (gs : String) (value : Expr) (slots : List Slot) (span : Span)

def BindingGroup.bindings : BindingGroup → List LetBinding
  | plain bindings => bindings
  | list gs value slots span => ⟨gs, wildTy span, value, span⟩ :: slotBindings span gs 0 slots

def isListPattern : SExpr → Bool
  | .list (.bracketList _ _ :: _) _ => true
  | _ => false

/-- The binding forms at the front of `items` are read as `groups`, the parser beginning in `s`. -/
inductive ReadsBindings (debug : SExpr → String) :
    List SExpr → ParserState → List BindingGroup → Prop where
  | done {item : SExpr} {items : List SExpr} {s : ParserState}
      (hbinding : isLetBinding item = false) :
      ReadsBindings debug (item :: items) s []
  | plain {item : SExpr} {items : List SExpr} {s s₁ : ParserState} {bindings : List LetBinding}
      {groups : List BindingGroup} (hbinding : isLetBinding item = true)
      (hpattern : isListPattern item = false)
      (hread : Yields (parseLetBindingsFrom debug item) s bindings s₁)
      (hrest : ReadsBindings debug items s₁ groups) :
      ReadsBindings debug (item :: items) s (.plain bindings :: groups)
  | list {pats tail items : List SExpr} {pspan span : Span} {s s₁ : ParserState} {value : Expr}
      {groups : List BindingGroup}
      (hbinding : isLetBinding (.list (.bracketList pats pspan :: tail) span) = true)
      (hread : Yields (parseLetBindingsFrom debug (.list (.bracketList pats pspan :: tail) span)) s
        (BindingGroup.list (gensymName s.gensyms) value (slots pats) span).bindings s₁)
      (hrest : ReadsBindings debug items s₁ groups) :
      ReadsBindings debug (.list (.bracketList pats pspan :: tail) span :: items) s
        (.list (gensymName s.gensyms) value (slots pats) span :: groups)

/-- A list pattern is read as its group, over a fresh temporary. -/
theorem destructureList_eq {pats : List SExpr} {value : Parse Expr} {bindings : List LetBinding}
    (h : Yields (destructureList debug pats span value) s bindings s') :
    ∃ e, bindings = (BindingGroup.list (gensymName s.gensyms) e (slots pats) span).bindings := by
  obtain ⟨gs, s₁, hgs, h⟩ := yields_bind.mp h
  obtain ⟨hname, -⟩ := yields_gensym.mp hgs
  obtain ⟨e, s₂, -, h⟩ := yields_bind.mp h
  obtain ⟨elements, s₃, helements, h⟩ := yields_bind.mp h
  obtain ⟨helements, -⟩ := yields_ofExcept.mp helements
  obtain ⟨heq, -⟩ := yields_pure.mp h
  refine ⟨e, ?_⟩
  rw [heq, elementBindings_eq helements, hname]
  rfl

/-- So it is with a type annotation and without. -/
theorem parseListDestructure_eq {pats items : List SExpr} {bindings : List LetBinding}
    (h : Yields (parseListDestructure debug pats span items) s bindings s') :
    ∃ e, bindings = (BindingGroup.list (gensymName s.gensyms) e (slots pats) span).bindings := by
  match items with
  | [] =>
    rw [parseListDestructure] at h
    exact absurd h not_yields_throw
  | [first] | [first, _] =>
    rw [parseListDestructure] at h
    · exact destructureList_eq h
    · simp
  | first :: ty :: value :: _ =>
    rw [parseListDestructure] at h
    split at h
    · -- the annotation is read, and thrown away
      obtain ⟨_, s₁, hty, hvalue⟩ := yields_bind.mp h
      obtain ⟨-, rfl⟩ := yields_ofExcept.mp hty
      exact destructureList_eq hvalue
    · exact destructureList_eq h

theorem ReadsBindings.cons {item : SExpr} {items : List SExpr} {s₁ : ParserState}
    {bindings : List LetBinding} {groups : List BindingGroup} (hbinding : isLetBinding item = true)
    (hread : Yields (parseLetBindingsFrom debug item) s bindings s₁)
    (hrest : ReadsBindings debug items s₁ groups) :
    ∃ group, ReadsBindings debug (item :: items) s (group :: groups) ∧
      group.bindings = bindings := by
  by_cases hpattern : isListPattern item = true
  · unfold isListPattern at hpattern
    split at hpattern
    · have hlist := hread
      rw [parseLetBindingsFrom] at hlist
      obtain ⟨e, rfl⟩ := parseListDestructure_eq hlist
      exact ⟨_, .list hbinding hread hrest, rfl⟩
    · cases hpattern
  · exact ⟨_, .plain hbinding (by simpa using hpattern) hread hrest, rfl⟩

/-- The bindings are read group by group, up to the body. -/
theorem parseLetRest_reads {items : List SExpr} {before : List LetBinding} {e : Expr}
    (h : Yields (parseLetRest debug span before items) s e s') :
    ∃ groups body, ReadsBindings debug items s groups ∧
      e = ⟨.let (before ++ groups.flatMap BindingGroup.bindings) body, span⟩ := by
  induction items generalizing before s with
  | nil =>
    rw [parseLetRest] at h
    exact absurd h not_yields_throw
  | cons item items ih =>
    rw [parseLetRest] at h
    split at h
    next hbinding =>
      obtain ⟨bindings, s₁, hread, hrest⟩ := yields_bind.mp h
      obtain ⟨groups, body, hgroups, rfl⟩ := ih hrest
      obtain ⟨group, hgroup, rfl⟩ := hgroups.cons hbinding hread
      exact ⟨group :: groups, body, hgroup, by simp⟩
    next hbinding =>
      obtain ⟨body, s₁, -, hextra⟩ := yields_bind.mp h
      obtain ⟨u, s₂, -, hend⟩ := yields_bind.mp hextra
      obtain ⟨rfl, -⟩ := yields_pure.mp hend
      exact ⟨[], body, .done (by simpa using hbinding), by simp⟩

theorem parseLetExpr_reads {items : List SExpr} {e : Expr}
    (h : Yields (parseLetExpr debug span items) s e s') :
    ∃ groups body, ReadsBindings debug items s groups ∧
      e = ⟨.let (groups.flatMap BindingGroup.bindings) body, span⟩ := by
  cases items with
  | nil =>
    rw [parseLetExpr] at h
    exact absurd h not_yields_throw
  | cons item items =>
    rw [parseLetExpr] at h
    split at h
    next hbinding =>
      obtain ⟨bindings, s₁, hread, hrest⟩ := yields_bind.mp h
      obtain ⟨groups, body, hgroups, rfl⟩ := parseLetRest_reads hrest
      obtain ⟨group, hgroup, rfl⟩ := hgroups.cons hbinding hread
      exact ⟨group :: groups, body, hgroup, by simp⟩
    next hbinding =>
      split at h
      · exact absurd h not_yields_throw
      · obtain ⟨body, s₁, -, hextra⟩ := yields_bind.mp h
        obtain ⟨u, s₂, -, hend⟩ := yields_bind.mp hextra
        obtain ⟨rfl, -⟩ := yields_pure.mp hend
        exact ⟨[], body, .done (by simpa using hbinding), by simp⟩

end Parse

end Airl.Parser
