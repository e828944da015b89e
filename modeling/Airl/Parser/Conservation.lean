import Mathlib.Data.List.Forall2
import Airl.Parser.Runs

/-! # The conditions of a definition

Which of the conditions that a `defn` form writes its contract lists keep.
-/

namespace Airl.Parser

/-- The clauses of a form, each with the form behind its keyword. -/
def scanClauses : List SExpr → List (Clause × SExpr)
  | [] => []
  | item :: items =>
    match item.asKeyword.map clauseKeyword with
    | some (.valued clause) =>
      match items with
      | [] => []
      | value :: items => (clause, value) :: scanClauses items
    | _ => scanClauses items

/-- Is `:pure` or `:total` among the clauses? -/
def declaresPure : List SExpr → Bool
  | [] => false
  | item :: items =>
    match item.asKeyword.map clauseKeyword with
    | some (.valued _) =>
      match items with
      | [] => false
      | _ :: items => declaresPure items
    | some .pure => true
    | some .total => true
    | _ => declaresPure items

def writtenClauses (items : List SExpr) : List (Clause × SExpr) :=
  scanClauses (clauseItems items.tail)

/-- The lists of conditions that a definition has. -/
inductive Contract where
  | requires
  | ensures
  | invariants
  deriving Repr, DecidableEq

namespace Contract

def ofClauses : Contract → Clauses → List Expr
  | .requires, acc => acc.requires
  | .ensures, acc => acc.ensures
  | .invariants, acc => acc.invariants

/-- Does the clause begin the list anew? -/
def assigns : Contract → Clause → Bool
  | .requires, clause => clause = .requires
  | .ensures, clause => clause = .ensures
  | .invariants, clause => clause = .invariant

/-- Does the clause add to the list? -/
def extends_ : Contract → Clause → Bool
  | .requires, clause => clause = .pre
  | .ensures, clause => clause = .post
  | .invariants, _ => false

def writes (c : Contract) (clause : Clause) : Bool := c.assigns clause || c.extends_ clause

/-- The conditions that one clause writes for the list. -/
def conditions (c : Contract) (p : Clause × SExpr) : List SExpr :=
  if c.writes p.1 then conditionsOf p.2 else []

/-- Every condition that is written for the list, in order. -/
def written (c : Contract) (clauses : List (Clause × SExpr)) : List SExpr :=
  clauses.flatMap c.conditions

/-- What a clause leaves of the conditions before it, with its own. -/
def leave (c : Contract) (before : List SExpr) (p : Clause × SExpr) : List SExpr :=
  if c.assigns p.1 then conditionsOf p.2 else before ++ c.conditions p

def left (c : Contract) (clauses : List (Clause × SExpr)) : List SExpr :=
  clauses.foldl c.leave []

/-- No clause that begins the list anew stands behind a condition. -/
def NothingReplaced (c : Contract) (clauses : List (Clause × SExpr)) : Prop :=
  clauses.Pairwise fun p q => c.assigns q.1 → c.conditions p = []

/-- Behind every condition stands a clause that begins the list anew. -/
def NothingLeft (c : Contract) : List (Clause × SExpr) → Prop
  | [] => True
  | p :: clauses =>
    (c.conditions p = [] ∨ ∃ q ∈ clauses, c.assigns q.1) ∧ NothingLeft c clauses

@[simp] theorem written_cons (c : Contract) (p : Clause × SExpr)
    (clauses : List (Clause × SExpr)) :
    c.written (p :: clauses) = c.conditions p ++ c.written clauses := by
  simp [written]

/-- A clause that assigns a list brings all that is written in it. -/
theorem conditions_of_assigns {c : Contract} {p : Clause × SExpr} (h : c.assigns p.1) :
    c.conditions p = conditionsOf p.2 := by
  simp [conditions, writes, h]

/-- It leaves nothing of what was read before. -/
theorem leave_of_assigns {c : Contract} {p : Clause × SExpr} (h : c.assigns p.1)
    (before : List SExpr) : c.leave before p = c.conditions p := by
  simp [leave, h, conditions_of_assigns h]

/-- Any other clause leaves what was read before and adds its own. -/
theorem leave_of_not_assigns {c : Contract} {p : Clause × SExpr} (h : ¬ c.assigns p.1)
    (before : List SExpr) : c.leave before p = before ++ c.conditions p := by
  simp [leave, h]

/-- No more conditions are left than are written. -/
theorem length_foldl_leave_le (c : Contract) (clauses : List (Clause × SExpr)) :
    ∀ before, (clauses.foldl c.leave before).length
      ≤ before.length + (c.written clauses).length := by
  induction clauses with
  | nil => intro before; simp
  | cons p clauses ih =>
    intro before
    have hle := ih (c.leave before p)
    by_cases h : c.assigns p.1
    · rw [leave_of_assigns h] at hle
      simp only [List.foldl_cons, leave_of_assigns h, written_cons, List.length_append]
      omega
    · rw [leave_of_not_assigns h, List.length_append] at hle
      simp only [List.foldl_cons, leave_of_not_assigns h, written_cons, List.length_append]
      omega

/-- Where nothing is replaced, all that is written is left. -/
theorem foldl_leave_of_nothingReplaced {c : Contract} {clauses : List (Clause × SExpr)}
    (h : c.NothingReplaced clauses) :
    ∀ before, (∀ q ∈ clauses, c.assigns q.1 → before = []) →
      clauses.foldl c.leave before = before ++ c.written clauses := by
  induction clauses with
  | nil => intro before _; simp [written]
  | cons p clauses ih =>
    intro before hbefore
    obtain ⟨hp, hrest⟩ := List.pairwise_cons.mp h
    rw [List.foldl_cons, written_cons]
    by_cases ha : c.assigns p.1
    · obtain rfl := hbefore p List.mem_cons_self ha
      rw [leave_of_assigns ha, ih hrest _ hp, List.nil_append]
    · rw [leave_of_not_assigns ha, ih hrest, List.append_assoc]
      intro q hq hqa
      rw [hbefore q (List.mem_cons_of_mem _ hq) hqa, hp q hq hqa, List.nil_append]

/-- Where all that is written is left, nothing was replaced. -/
theorem nothingReplaced_of_length {c : Contract} {clauses : List (Clause × SExpr)} :
    ∀ before, (clauses.foldl c.leave before).length
        = before.length + (c.written clauses).length →
      c.NothingReplaced clauses ∧ ∀ q ∈ clauses, c.assigns q.1 → before = [] := by
  induction clauses with
  | nil => intro before _; exact ⟨.nil, by simp⟩
  | cons p clauses ih =>
    intro before hlen
    have hle := length_foldl_leave_le c clauses (c.leave before p)
    rw [List.foldl_cons, written_cons, List.length_append] at hlen
    by_cases ha : c.assigns p.1
    · -- the list begins anew with the conditions of `p`
      rw [leave_of_assigns ha] at hlen hle
      have hnil : before = [] := List.length_eq_zero_iff.mp (by omega)
      obtain ⟨hrest, hp⟩ := ih (c.conditions p) (by omega)
      exact ⟨List.pairwise_cons.mpr ⟨hp, hrest⟩, fun _ _ _ => hnil⟩
    · rw [leave_of_not_assigns ha] at hlen
      obtain ⟨hrest, hp⟩ := ih (before ++ c.conditions p) (by rw [List.length_append]; omega)
      refine ⟨List.pairwise_cons.mpr ⟨fun q hq hqa => ?_, hrest⟩, fun q hq hqa => ?_⟩
      · exact (List.append_eq_nil_iff.mp (hp q hq hqa)).2
      · rcases List.mem_cons.mp hq with rfl | hq
        · exact absurd hqa ha
        · exact (List.append_eq_nil_iff.mp (hp q hq hqa)).1

/-- Whether something is replaced can be told from the lengths. -/
theorem nothingReplaced_iff {c : Contract} {clauses : List (Clause × SExpr)} :
    c.NothingReplaced clauses ↔ (c.left clauses).length = (c.written clauses).length := by
  constructor
  · intro h
    rw [left, foldl_leave_of_nothingReplaced h [] (by simp), List.nil_append]
  · intro h
    exact (nothingReplaced_of_length [] (by simpa [left] using h)).1

theorem left_of_nothingReplaced {c : Contract} {clauses : List (Clause × SExpr)}
    (h : c.NothingReplaced clauses) : c.left clauses = c.written clauses := by
  rw [left, foldl_leave_of_nothingReplaced h [] (by simp), List.nil_append]

/-- Nothing is left just if nothing stood before and no clause leaves anything. -/
theorem foldl_leave_eq_nil {c : Contract} {clauses : List (Clause × SExpr)} :
    ∀ before, clauses.foldl c.leave before = [] ↔
      (before = [] ∨ ∃ q ∈ clauses, c.assigns q.1) ∧ c.NothingLeft clauses := by
  induction clauses with
  | nil => intro before; simp [NothingLeft]
  | cons p clauses ih =>
    intro before
    rw [List.foldl_cons, ih, NothingLeft]
    by_cases ha : c.assigns p.1
    · simp [leave_of_assigns ha, ha]
    · simp only [leave_of_not_assigns ha, List.append_eq_nil_iff, List.mem_cons,
        exists_eq_or_imp, ha, Bool.false_eq_true, false_or]
      tauto

theorem left_eq_nil_iff {c : Contract} {clauses : List (Clause × SExpr)} :
    c.left clauses = [] ↔ c.NothingLeft clauses := by
  rw [left, foldl_leave_eq_nil]
  simp

end Contract

section Loop

variable {debug : SExpr → String}

/-- A condition is read as an expression. -/
def ReadAs (debug : SExpr → String) (sexpr : SExpr) (e : Expr) : Prop :=
  ∃ s s', Yields (parseExpr debug sexpr) s e s'

/-- A list of expressions is read one by one. -/
theorem parseExprs_readAs {items : List SExpr} :
    ∀ {s es s'}, Yields (parseExprs debug items) s es s' →
      List.Forall₂ (ReadAs debug) items es := by
  induction items with
  | nil =>
    intro s es s' h
    rw [parseExprs] at h
    obtain ⟨rfl, -⟩ := yields_pure.mp h
    exact .nil
  | cons item items ih =>
    intro s es s' h
    rw [parseExprs] at h
    obtain ⟨e, s₁, he, h⟩ := yields_bind.mp h
    obtain ⟨rest, s₂, hrest, h⟩ := yields_bind.mp h
    obtain ⟨rfl, -⟩ := yields_pure.mp h
    exact .cons ⟨s, s₁, he⟩ (ih hrest)

/-- What one clause does to each list of conditions. -/
theorem parseClause_ofClauses {acc acc' : Clauses} {value : SExpr} {clause : Clause}
    {s s' : ParserState} (h : Yields (parseClause debug acc value clause) s acc' s')
    (c : Contract) :
    (∃ es, List.Forall₂ (ReadAs debug) (c.conditions (clause, value)) es ∧
      c.ofClauses acc' = if c.assigns clause then es else c.ofClauses acc ++ es) := by
  cases clause with
  | requires | ensures | invariant | pre | post =>
    rw [parseClause] at h
    obtain ⟨es, s₁, hes, h⟩ := yields_bind.mp h
    obtain ⟨rfl, -⟩ := yields_pure.mp h
    cases c with
    | requires | ensures | invariants =>
      -- the clause writes either this list or another
      first
      | exact ⟨es, parseExprs_readAs hes, rfl⟩
      | exact ⟨[], .nil, (List.append_nil _).symm⟩
  | sig =>
    rw [parseClause] at h
    obtain ⟨⟨params, ret⟩, s₁, -, h⟩ := yields_bind.mp h
    obtain ⟨rfl, -⟩ := yields_pure.mp h
    refine ⟨[], ?_, ?_⟩
    · cases c <;> exact .nil
    · cases c <;> exact (List.append_nil _).symm
  | intent | body | executeOn | priority | verify =>
    rw [parseClause] at h
    obtain ⟨a, s₁, -, h⟩ := yields_bind.mp h
    obtain ⟨rfl, -⟩ := yields_pure.mp h
    refine ⟨[], ?_, ?_⟩
    · cases c <;> exact .nil
    · cases c <;> exact (List.append_nil _).symm

/-- A step of the loop: the conditions read are those that `leave` leaves. -/
theorem parseClause_leave {acc acc' : Clauses} {value : SExpr} {clause : Clause}
    {s s' : ParserState} (h : Yields (parseClause debug acc value clause) s acc' s')
    (c : Contract) {before : List SExpr}
    (hbefore : List.Forall₂ (ReadAs debug) before (c.ofClauses acc)) :
    List.Forall₂ (ReadAs debug) (c.leave before (clause, value)) (c.ofClauses acc') := by
  obtain ⟨es, hes, heq⟩ := parseClause_ofClauses h c
  by_cases ha : c.assigns clause
  · rw [Contract.leave_of_assigns ha, heq, if_pos ha]
    exact hes
  · rw [Contract.leave_of_not_assigns ha, heq, if_neg ha]
    exact List.rel_append hbefore hes

/-- No valued clause declares purity. -/
theorem parseClause_isPure {acc acc' : Clauses} {value : SExpr} {clause : Clause}
    {s s' : ParserState} (h : Yields (parseClause debug acc value clause) s acc' s') :
    acc'.isPure = acc.isPure := by
  cases clause with
  | sig =>
    rw [parseClause] at h
    obtain ⟨⟨params, ret⟩, s₁, -, h⟩ := yields_bind.mp h
    obtain ⟨rfl, -⟩ := yields_pure.mp h
    rfl
  | _ =>
    rw [parseClause] at h
    obtain ⟨a, s₁, -, h⟩ := yields_bind.mp h
    obtain ⟨rfl, -⟩ := yields_pure.mp h
    rfl

/-- `M` holds of what is still to read, what is collected and the state, before and after each
turn of the loop. -/
structure LoopInvariant (debug : SExpr → String) (span : Span)
    (M : List SExpr → Clauses → ParserState → Prop) : Prop where
  other : ∀ {item items acc s}, item.asKeyword.map clauseKeyword = none →
    M (item :: items) acc s → M items acc s
  pure : ∀ {item items acc s}, item.asKeyword.map clauseKeyword = some .pure →
    M (item :: items) acc s → M items { acc with isPure := true } s
  total : ∀ {item items acc s}, item.asKeyword.map clauseKeyword = some .total →
    M (item :: items) acc s → M items { acc with isTotal := true, isPure := true } s
  unknown : ∀ {item items acc s message}, item.asKeyword.map clauseKeyword = some .unknown →
    M (item :: items) acc s →
    M items acc { s with diags := s.diags ++ [.warning message item.span] }
  valued : ∀ {item value items acc s clause acc₁ s₁},
    item.asKeyword.map clauseKeyword = some (.valued clause) →
    Yields (parseClause debug acc value clause) s acc₁ s₁ →
    M (item :: value :: items) acc s → M items acc₁ s₁

/-- What each step of the clause loop keeps, the loop keeps. -/
theorem parseClauses_keeps {span : Span} {M : List SExpr → Clauses → ParserState → Prop}
    (hM : LoopInvariant debug span M) {items : List SExpr} {acc acc' : Clauses}
    {s s' : ParserState} (h : Yields (parseClauses debug span acc items) s acc' s')
    (hstart : M items acc s) : M [] acc' s' := by
  fun_induction parseClauses debug span acc items generalizing s with
  | case1 acc =>
    obtain ⟨rfl, rfl⟩ := yields_pure.mp h
    exact hstart
  | case2 acc item items hkw ih => exact ih h (hM.other (by simp [hkw]) hstart)
  | case3 acc item items kw hkw hc ih => exact ih h (hM.pure (by simp [hkw, hc]) hstart)
  | case4 acc item items kw hkw hc ih => exact ih h (hM.total (by simp [hkw, hc]) hstart)
  | case5 acc item items kw hkw hc ih =>
    obtain ⟨_, s₁, hs₁, h⟩ := yields_bind.mp h
    obtain rfl := yields_report.mp hs₁
    exact ih h (hM.unknown (by simp [hkw, hc]) hstart)
  | case6 acc item kw hkw clause hc => exact absurd h not_yields_throw
  | case7 acc item kw hkw clause hc value items ih =>
    obtain ⟨acc₁, s₁, hacc, h⟩ := yields_bind.mp h
    exact ih acc₁ h (hM.valued (by simp [hkw, hc]) hacc hstart)

/-- The loop over the clauses leaves what the fold of `leave` does. -/
theorem leave_invariant (span : Span) (c : Contract) (left : List SExpr) :
    LoopInvariant debug span fun items acc _ => ∃ before,
      List.Forall₂ (ReadAs debug) before (c.ofClauses acc) ∧
        (scanClauses items).foldl c.leave before = left where
  other hkw := by
    rintro ⟨before, hread, hleft⟩
    exact ⟨before, hread, by simpa [scanClauses, hkw] using hleft⟩
  pure hkw := by
    rintro ⟨before, hread, hleft⟩
    refine ⟨before, ?_, by simpa [scanClauses, hkw] using hleft⟩
    cases c <;> exact hread
  total hkw := by
    rintro ⟨before, hread, hleft⟩
    refine ⟨before, ?_, by simpa [scanClauses, hkw] using hleft⟩
    cases c <;> exact hread
  unknown hkw := by
    rintro ⟨before, hread, hleft⟩
    exact ⟨before, hread, by simpa [scanClauses, hkw] using hleft⟩
  valued hkw hclause := by
    rintro ⟨before, hread, hleft⟩
    exact ⟨_, parseClause_leave hclause c hread, by simpa [scanClauses, hkw] using hleft⟩

theorem declaresPure_cons (item : SExpr) (items : List SExpr) :
    declaresPure (item :: items) = match item.asKeyword.map clauseKeyword with
      | some (.valued _) => declaresPure items.tail
      | some .pure => true
      | some .total => true
      | _ => declaresPure items := by
  cases items with
  | nil =>
    conv_lhs => unfold declaresPure
    split <;> rfl
  | cons value items =>
    conv_lhs => unfold declaresPure
    split <;> rfl

/-- At every clause it is decided whether the function will be pure. -/
theorem isPure_invariant (span : Span) (isPure : Bool) :
    LoopInvariant debug span fun items acc _ => (acc.isPure || declaresPure items) = isPure where
  other hkw h := by simpa [declaresPure_cons, hkw] using h
  pure hkw h := by simpa [declaresPure_cons, hkw] using h
  total hkw h := by simpa [declaresPure_cons, hkw] using h
  unknown hkw h := by simpa [declaresPure_cons, hkw] using h
  valued hkw hclause h := by
    rw [parseClause_isPure hclause]
    simpa [declaresPure_cons, hkw] using h

/-- Through the whole loop the diagnostics only grow, by warnings. -/
theorem grown_invariant (span : Span) (s₀ : ParserState) :
    LoopInvariant debug span fun _ _ s => Grown s₀ s where
  other _ h := h
  pure _ h := h
  total _ h := h
  unknown _ h := h.trans ⟨Nat.le_refl _, [_], rfl, by simp [Diagnostic.warning]⟩
  valued _ hclause h := h.trans (parseClause_grows debug _ _ _ _ _ _ hclause)

end Loop

section Definition

variable {debug : SExpr → String} {span : Span} {items : List SExpr} {d : Defn}
  {s s' : ParserState}

/-- The parser has added an error to the diagnostics. -/
def Reported (s s' : ParserState) : Prop := ∃ d ∈ s'.diags.drop s.diags.length, d.severity = .error

/-- Beside the conditions that `:pure` and `:total` generate, the contract lists of `d` are the
conditions that are written, each read once and in order. -/
structure Conserved (debug : SExpr → String) (span : Span) (clauses : List (Clause × SExpr))
    (d : Defn) : Prop where
  requires : ∃ es, List.Forall₂ (ReadAs debug) (Contract.requires.written clauses) es ∧
    d.requires = generatedRequires span d.isPure d.params ++ es
  ensures : ∃ es, List.Forall₂ (ReadAs debug) (Contract.ensures.written clauses) es ∧
    d.ensures = es ++ generatedEnsures span d.isPure (Contract.ensures.left clauses).isEmpty
  invariants : List.Forall₂ (ReadAs debug) (Contract.invariants.written clauses) d.invariants

/-- A definition that is read has the conditions that its clauses leave. -/
theorem parseDefn_spec (h : Yields (parseDefn debug span items) s d s') :
    ∃ name acc s₁, (∀ c, List.Forall₂ (ReadAs debug) (c.left (writtenClauses items))
        (Contract.ofClauses c acc)) ∧
      acc.isPure = declaresPure (clauseItems items.tail) ∧ Grown s s₁ ∧
      d = (acc.expand span).toDefn name (startsPublic items.tail) span ∧
      Yields (do
        checkContracts name span (acc.expand span)
        checkIntent name span (acc.expand span)) s₁ () s' := by
  cases items with
  | nil => exact absurd h not_yields_throw
  | cons nameItem items =>
    rw [parseDefn] at h
    obtain ⟨name, s₀, hname, hloop⟩ := yields_bind.mp h
    obtain ⟨-, rfl⟩ := yields_ofExcept.mp hname
    obtain ⟨acc, s₁, hacc, hchecks⟩ := yields_bind.mp hloop
    obtain ⟨u, s₂, hcontracts, hrest⟩ := yields_bind.mp hchecks
    obtain ⟨u', s₃, hintent, hend⟩ := yields_bind.mp hrest
    obtain ⟨rfl, rfl⟩ := yields_pure.mp hend
    refine ⟨name, acc, s₁, ?_, ?_, ?_, rfl, yields_bind.mpr ⟨(), s₂, hcontracts, hintent⟩⟩
    · intro c
      obtain ⟨before, hread, hleft⟩ := parseClauses_keeps
        (leave_invariant span c (c.left (writtenClauses (nameItem :: items)))) hacc
        ⟨[], by cases c <;> exact .nil, rfl⟩
      exact hleft ▸ hread
    · have hpure := parseClauses_keeps (isPure_invariant span _) hacc rfl
      simpa [declaresPure, Clauses.initial] using hpure
    · exact parseClauses_keeps (grown_invariant span s₀) hacc (.refl _)

/-- An error is reported just if neither preconditions nor postconditions are left. -/
theorem reported_iff {name : String} {acc : Clauses} {s₁ : ParserState} (hgrown : Grown s s₁)
    (h : Yields (do checkContracts name span acc; checkIntent name span acc) s₁ () s') :
    Reported s s' ↔ acc.requires = [] ∧ acc.ensures = [] := by
  obtain ⟨-, ws, hws, hwarn⟩ := hgrown
  have hintent : ∀ s₂, Yields (checkIntent name span acc) s₂ () s' →
      ∃ ws', s'.diags = s₂.diags ++ ws' ∧ ∀ d ∈ ws', d.severity = .warning := by
    intro s₂ h₂
    unfold checkIntent at h₂
    split at h₂
    · obtain rfl := yields_report.mp h₂
      exact ⟨[_], rfl, by simp [Diagnostic.warning]⟩
    · obtain ⟨-, rfl⟩ := yields_pure.mp h₂
      exact ⟨[], by simp, by simp⟩
  obtain ⟨u, s₂, hcontracts, hrest⟩ := yields_bind.mp h
  obtain ⟨ws', hws', hwarn'⟩ := hintent s₂ hrest
  unfold checkContracts at hcontracts
  split at hcontracts
  next hempty =>
    obtain rfl := yields_report.mp hcontracts
    have hlists : acc.requires = [] ∧ acc.ensures = [] := by simpa using hempty
    refine iff_of_true ⟨.error ("function '" ++ name
      ++ "' must have :requires and/or :ensures contracts") span, ?_, rfl⟩ hlists
    rw [hws', hws]
    simp
  next hempty =>
    obtain ⟨-, rfl⟩ := yields_pure.mp hcontracts
    refine iff_of_false ?_ (by simpa using hempty)
    rintro ⟨d, hd, herror⟩
    rw [hws', hws, List.append_assoc, List.drop_left] at hd
    rcases List.mem_append.mp hd with hd | hd
    · simp [hwarn d hd] at herror
    · simp [hwarn' d hd] at herror

/-- Where the loop has read what is left, the lists are kept exactly where nothing is replaced. -/
theorem conserved_iff {clauses : List (Clause × SExpr)} {acc : Clauses} {name : String}
    {isPublic : Bool}
    (hread : ∀ c, List.Forall₂ (ReadAs debug) (c.left clauses) (Contract.ofClauses c acc)) :
    Conserved debug span clauses ((acc.expand span).toDefn name isPublic span) ↔
      ∀ c : Contract, c.NothingReplaced clauses := by
  have hempty : (Contract.ensures.left clauses).isEmpty = acc.ensures.isEmpty := by
    have hboth : ∀ {l : List SExpr} {es : List Expr}, List.Forall₂ (ReadAs debug) l es →
        l.isEmpty = es.isEmpty := by
      intro l es h
      cases h <;> rfl
    exact hboth (hread .ensures)
  constructor
  · intro h c
    -- a list that was read in full is as long as what was written for it
    have hwritten : List.Forall₂ (ReadAs debug) (c.written clauses) (c.ofClauses acc) := by
      cases c with
      | requires =>
        obtain ⟨es, hes, heq⟩ := h.requires
        rwa [← List.append_cancel_left heq] at hes
      | ensures =>
        obtain ⟨es, hes, heq⟩ := h.ensures
        rw [hempty] at heq
        rwa [← List.append_cancel_right heq] at hes
      | invariants => exact h.invariants
    rw [Contract.nothingReplaced_iff, hwritten.length_eq, (hread c).length_eq]
  · intro h
    have hwritten : ∀ c : Contract,
        List.Forall₂ (ReadAs debug) (c.written clauses) (c.ofClauses acc) := by
      intro c
      rw [← Contract.left_of_nothingReplaced (h c)]
      exact hread c
    refine ⟨⟨_, hwritten .requires, rfl⟩, ⟨_, hwritten .ensures, ?_⟩, hwritten .invariants⟩
    rw [hempty]
    rfl

/-- Both lists are empty exactly where nothing is left and nothing is generated. -/
theorem expand_eq_nil_iff {clauses : List (Clause × SExpr)} {acc : Clauses}
    (hread : ∀ c, List.Forall₂ (ReadAs debug) (c.left clauses) (Contract.ofClauses c acc)) :
    ((acc.expand span).requires = [] ∧ (acc.expand span).ensures = []) ↔
      Contract.requires.NothingLeft clauses ∧ Contract.ensures.NothingLeft clauses ∧
        acc.isPure = false := by
  have hnil : ∀ c : Contract, c.NothingLeft clauses ↔ c.ofClauses acc = [] := by
    intro c
    rw [← Contract.left_eq_nil_iff, ← List.length_eq_zero_iff, (hread c).length_eq,
      List.length_eq_zero_iff]
  rw [hnil, hnil]
  cases hpure : acc.isPure with
  | false => simp [Clauses.expand, generatedRequires, generatedEnsures, hpure, Contract.ofClauses]
  | true =>
    -- where a definition is pure, `(valid result)` takes the place of an empty list
    have hne : acc.ensures ++ generatedEnsures span true acc.ensures.isEmpty ≠ [] := by
      cases acc.ensures <;> simp [generatedEnsures]
    simp [Clauses.expand, hpure, hne]

/-- A definition keeps every written condition, or an error is reported, exactly where no clause
replaces a condition, or where all conditions are replaced and none is generated. -/
theorem clauses_conserved_iff (h : Yields (parseDefn debug span items) s d s') :
    (Reported s s' ∨ Conserved debug span (writtenClauses items) d) ↔
      (∀ c : Contract, c.NothingReplaced (writtenClauses items)) ∨
        Contract.requires.NothingLeft (writtenClauses items) ∧
        Contract.ensures.NothingLeft (writtenClauses items) ∧
        declaresPure (clauseItems items.tail) = false := by
  obtain ⟨name, acc, s₁, hread, hpure, hgrown, rfl, hchecks⟩ := parseDefn_spec h
  rw [reported_iff hgrown hchecks, conserved_iff hread, expand_eq_nil_iff hread, hpure, or_comm]

/-- `f :requires [a] :requires [b]`. -/
def requiredTwice : List SExpr :=
  [.atom (.symbol "f") .dummy,
    .atom (.keyword "requires") .dummy, .bracketList [.atom (.symbol "a") .dummy] .dummy,
    .atom (.keyword "requires") .dummy, .bracketList [.atom (.symbol "b") .dummy] .dummy]

def requiredTwiceDefn : Defn :=
  { Clauses.initial .dummy with requires := [symbolRef "b" .dummy] }.toDefn "f" false .dummy

def intentWarning : Diagnostic := .warning "function 'f' is missing :intent" .dummy

theorem requiredTwice_yields (debug : SExpr → String) :
    Yields (parseDefn debug .dummy requiredTwice) ⟨0, []⟩ requiredTwiceDefn ⟨0, [intentWarning]⟩ :=
  rfl

theorem requiredTwice_conserved_iff :
    (Reported ⟨0, []⟩ ⟨0, [intentWarning]⟩ ∨
        Conserved (fun _ => "") .dummy (writtenClauses requiredTwice) requiredTwiceDefn) ↔
      (∀ c : Contract, c.NothingReplaced (writtenClauses requiredTwice)) ∨
        Contract.requires.NothingLeft (writtenClauses requiredTwice) ∧
        Contract.ensures.NothingLeft (writtenClauses requiredTwice) ∧
        declaresPure (clauseItems requiredTwice.tail) = false :=
  clauses_conserved_iff (requiredTwice_yields fun _ => "")

/-- The first condition is dropped and nothing is said. -/
theorem requiredTwice_not_conserved :
    ∃ items d s s', Yields (parseDefn (fun _ => "") .dummy items) s d s' ∧
      ¬ (Reported s s' ∨ Conserved (fun _ => "") .dummy (writtenClauses items) d) := by
  refine ⟨requiredTwice, requiredTwiceDefn, ⟨0, []⟩, ⟨0, [intentWarning]⟩,
    requiredTwice_yields _, ?_⟩
  rintro (⟨d, hd, herror⟩ | hconserved)
  · obtain rfl : d = intentWarning := by simpa using hd
    cases herror
  · obtain ⟨es, hes, heq⟩ := hconserved.requires
    have hlen : es.length = 2 := hes.length_eq.symm
    have hone : 1 = es.length := congrArg List.length heq
    omega

end Definition

end Airl.Parser
