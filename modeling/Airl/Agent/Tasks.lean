import Airl.Agent.Written

/-! # Tasks come back

A task that is written and read again is the same task exactly if its strings are
short, its arguments are clean, and neither the depth limit of the parser nor the
token limit of the lexer is reached.
-/

namespace Airl.Agent

open Airl.Syntax Lexer Datum

variable {F : FloatFormat} {s r rest : List Char} {ts ts' : List Token} {e : SExpr}
  {es items : List SExpr} {levels : Nat} {kind : AtomKind} {tok close : Token}

theorem lexes_space : Lexes F.parse (' ' :: s) ts ↔ Lexes F.parse s ts :=
  lexes_congr (nextToken_space s)

theorem lexes_string : Lexes F.parse ('"' :: (escapeStr s ++ '"' :: rest)) ts ↔
    IsShort s ∧ ∃ ts', ts = .str s :: ts' ∧ Lexes F.parse rest ts' := by
  have hnext : nextToken F.parse ('"' :: (escapeStr s ++ '"' :: rest)) =
      (lexString [] (escapeStr s ++ '"' :: rest)).map fun p => some (.str p.1, p.2) :=
    nextToken_quote
  cases hread : lexString [] (escapeStr s ++ '"' :: rest) with
  | error err =>
    rw [hread] at hnext
    constructor
    · exact fun h => absurd h (not_lexes_of_error hnext)
    · rintro ⟨hshort, -⟩
      have hok : lexString [] (escapeStr s ++ '"' :: rest) = .ok (s, rest) :=
        lexString_escapeStr_iff.mpr ⟨hshort, rfl, rfl⟩
      rw [hread] at hok
      cases hok
  | ok p =>
    obtain ⟨w, t⟩ := p
    obtain ⟨hshort, rfl, rfl⟩ := lexString_escapeStr_iff.mp hread
    rw [hread] at hnext
    rw [lexes_iff_of_token hnext]
    exact (and_iff_right hshort).symm

theorem lexes_symbol {name : List Char} (hname : IsName name)
    (hhead : name.head?.any Char.isAlpha = true)
    (hconstant : name ∉ ["true".toList, "false".toList, "nil".toList]) :
    Lexes F.parse (name ++ ' ' :: rest) ts ↔
      ∃ ts', ts = .symbol name :: ts' ∧ Lexes F.parse rest ts' := by
  have hblank : Delimited (' ' :: rest) := ⟨_, _, rfl, by simp⟩
  have hnext : nextToken F.parse (name ++ ' ' :: rest) = _ :=
    nextToken_name hname hhead hblank.breaks
  simp only [List.mem_cons, List.not_mem_nil, or_false, not_or] at hconstant
  rw [if_neg hconstant.1, if_neg hconstant.2.1, if_neg hconstant.2.2] at hnext
  rw [lexes_iff_of_token hnext]
  exact exists_congr fun ts' => and_congr_right fun _ => lexes_space

/-- A name that can stand behind a colon. -/
def isField (name : List Char) : Bool := !name.isEmpty && name.all isSymbolChar

theorem lexes_keyword {name : List Char} (hname : isField name = true) :
    Lexes F.parse (':' :: (name ++ ' ' :: rest)) ts ↔
      ∃ ts', ts = .keyword name :: ts' ∧ Lexes F.parse rest ts' := by
  have hblank : Delimited (' ' :: rest) := ⟨_, _, rfl, by simp⟩
  obtain ⟨hne, hchars⟩ : name ≠ [] ∧ ∀ c ∈ name, isSymbolChar c = true := by
    simpa [isField] using hname
  have hnext : nextToken F.parse (':' :: name ++ ' ' :: rest) = _ :=
    nextToken_keyword hne hchars hblank.breaks
  rw [List.cons_append] at hnext
  rw [lexes_iff_of_token hnext]
  exact exists_congr fun ts' => and_congr_right fun _ => lexes_space

theorem parsesList_atom_iff (hatom : tokenToAtom tok = .ok kind) (hcomma : tok ≠ .comma)
    (hclose : tok ≠ close) : ParsesList (levels + 1) close (tok :: ts) items ts' ↔
      ∃ more, items = .atom kind :: more ∧ ParsesList (levels + 1) close ts more ts' := by
  rw [parsesList_cons_iff hcomma hclose]
  constructor
  · rintro ⟨first, more, next, rfl, hfirst, hmore⟩
    obtain ⟨-, rfl, rfl⟩ := (parses_atom_iff hatom).mp hfirst
    exact ⟨more, rfl, hmore⟩
  · rintro ⟨more, rfl, hmore⟩
    exact ⟨_, _, _, rfl, (parses_atom_iff hatom).mpr ⟨Nat.succ_pos _, rfl, rfl⟩, hmore⟩

theorem parseSexprAll_eq_cons_iff : parseSexprAll ts = .ok (e :: es) ↔
    ∃ rest, Parses (maxParseDepth + 1) ts e rest ∧ parseSexprAll rest = .ok es := by
  cases ts with
  | nil =>
    rw [parseSexprAll]
    constructor
    · intro h
      cases h
    · rintro ⟨rest, h, -⟩
      exact absurd h not_parses_nil
  | cons t ts =>
    rw [parseSexprAll]
    constructor
    · intro h
      split at h
      · cases h
      · next first rest hlt hfirst =>
        cases hrest : parseSexprAll rest with
        | error err =>
          rw [hrest] at h
          cases h
        | ok others =>
          rw [hrest] at h
          cases h
          exact ⟨rest, ⟨hlt, hfirst⟩, hrest⟩
    · rintro ⟨rest, ⟨hlt, hfirst⟩, hrest⟩
      simp only [hfirst, hrest]
      rfl

theorem lexAndParse_eq_cons_iff {input : List Char} :
    lexAndParse F.parse input = .ok (e :: es) ↔ ∃ ts rest, Lexes F.parse input ts ∧
      ts.length < maxTokenCount ∧ Parses (maxParseDepth + 1) ts e rest ∧
        parseSexprAll rest = .ok es := by
  unfold lexAndParse
  constructor
  · intro h
    cases htokens : lexAll F.parse 0 input with
    | error err =>
      rw [htokens] at h
      cases h
    | ok ts =>
      rw [htokens] at h
      obtain ⟨rest, hparses, hrest⟩ := parseSexprAll_eq_cons_iff.mp h
      obtain ⟨hts, hcount⟩ := lexAll_eq_ok_iff.mp htokens
      refine ⟨ts, rest, hts, ?_, hparses, hrest⟩
      rcases hcount with rfl | hcount
      · exact absurd hparses not_parses_nil
      · rwa [Nat.zero_add] at hcount
  · rintro ⟨ts, rest, hts, hcount, hparses, hrest⟩
    have htokens : lexAll F.parse 0 input = .ok ts :=
      lexAll_eq_ok_iff.mpr ⟨hts, Or.inr (by rwa [Nat.zero_add])⟩
    rw [htokens]
    exact parseSexprAll_eq_cons_iff.mpr ⟨rest, hparses, hrest⟩

theorem lexes_form {form id : List Char} (hname : IsName form)
    (hhead : form.head?.any Char.isAlpha = true)
    (hconstant : form ∉ ["true".toList, "false".toList, "nil".toList]) :
    Lexes F.parse ('(' :: (form ++ ' ' :: '"' :: (escapeStr id ++ '"' :: ' ' :: rest))) ts ↔
      IsShort id ∧ ∃ ts', ts = .lparen :: .symbol form :: .str id :: ts' ∧
        Lexes F.parse rest ts' := by
  rw [lexes_iff_of_token nextToken_lparen]
  simp only [lexes_symbol hname hhead hconstant, lexes_string, lexes_space]
  constructor
  · rintro ⟨_, rfl, _, rfl, hshort, ts', rfl, hts⟩
    exact ⟨hshort, ts', rfl, hts⟩
  · rintro ⟨hshort, ts', rfl, hts⟩
    exact ⟨_, rfl, _, rfl, hshort, ts', rfl, hts⟩

theorem lexes_field {name : List Char} (hname : isField name = true) :
    Lexes F.parse (':' :: (name ++ ' ' :: '"' :: (escapeStr s ++ '"' :: rest))) ts ↔
      IsShort s ∧ ∃ ts', ts = .keyword name :: .str s :: ts' ∧ Lexes F.parse rest ts' := by
  simp only [lexes_keyword hname, lexes_string]
  constructor
  · rintro ⟨_, rfl, hshort, ts', rfl, hts⟩
    exact ⟨hshort, ts', rfl, hts⟩
  · rintro ⟨hshort, ts', rfl, hts⟩
    exact ⟨_, rfl, hshort, ts', rfl, hts⟩

/-- When a task comes back. -/
structure TaskMessage.Clean (t : TaskMessage) : Prop where
  id : IsShort t.id
  sender : IsShort t.sender ∧ t.sender ≠ []
  call : IsShort t.call ∧ t.call ≠ []
  args : ∀ v ∈ t.args, CleanArg v
  nesting : nesting (.list t.args) < maxParseDepth
  tokens : (tokens (.list t.args)).length + 9 < maxTokenCount

/-- The tokens in front of the arguments. -/
def taskHeader (t : TaskMessage) : List Token :=
  [.lparen, .symbol "task".toList, .str t.id, .keyword "from".toList, .str t.sender,
    .keyword "call".toList, .str t.call, .keyword "args".toList]

theorem serializeTask_eq (t : TaskMessage) : serializeTask F t =
    '(' :: ("task".toList ++ ' ' :: '"' :: (escapeStr t.id ++ '"' :: ' ' ::
      ':' :: ("from".toList ++ ' ' :: '"' :: (escapeStr t.sender ++ '"' :: ' ' ::
        ':' :: ("call".toList ++ ' ' :: '"' :: (escapeStr t.call ++ '"' :: ' ' ::
          ':' :: ("args".toList ++ ' ' :: '[' ::
            itemsText (valueToWire F) t.args [')']))))))) := by
  have hwire : serializeTask F t = '(' :: ("task".toList ++ [' ', '"']) ++ escapeStr t.id ++
      ('"' :: ' ' :: ':' :: ("from".toList ++ [' ', '"'])) ++ escapeStr t.sender ++
      ('"' :: ' ' :: ':' :: ("call".toList ++ [' ', '"'])) ++ escapeStr t.call ++
      ('"' :: ' ' :: ':' :: ("args".toList ++ [' ', '['])) ++
      [' '].intercalate (t.args.map (valueToWire F)) ++ [']', ')'] := rfl
  rw [hwire, itemsText]
  simp only [List.append_assoc, List.cons_append, List.nil_append]

/-- Stated for any names, so that no proof step compares their characters. -/
theorem lexes_fields {form field1 field2 field3 id value1 value2 : List Char}
    (hname : IsName form) (hhead : form.head?.any Char.isAlpha = true)
    (hconstant : form ∉ ["true".toList, "false".toList, "nil".toList])
    (hfield1 : isField field1 = true) (hfield2 : isField field2 = true)
    (hfield3 : isField field3 = true) :
    Lexes F.parse ('(' :: (form ++ ' ' :: '"' :: (escapeStr id ++ '"' :: ' ' ::
      ':' :: (field1 ++ ' ' :: '"' :: (escapeStr value1 ++ '"' :: ' ' ::
        ':' :: (field2 ++ ' ' :: '"' :: (escapeStr value2 ++ '"' :: ' ' ::
          ':' :: (field3 ++ ' ' :: rest)))))))) ts ↔
      (IsShort id ∧ IsShort value1 ∧ IsShort value2) ∧ ∃ ts', ts = [.lparen, .symbol form, .str id,
        .keyword field1, .str value1, .keyword field2, .str value2, .keyword field3] ++ ts' ∧
          Lexes F.parse rest ts' := by
  simp only [lexes_form hname hhead hconstant, lexes_field hfield1, lexes_field hfield2,
    lexes_keyword hfield3, lexes_space]
  constructor
  · rintro ⟨hid, _, rfl, hvalue1, _, rfl, hvalue2, _, rfl, ts', rfl, hts⟩
    exact ⟨⟨hid, hvalue1, hvalue2⟩, ts', rfl, hts⟩
  · rintro ⟨⟨hid, hvalue1, hvalue2⟩, ts', rfl, hts⟩
    exact ⟨hid, _, rfl, hvalue1, _, rfl, hvalue2, _, rfl, ts', rfl, hts⟩

theorem lexes_serializeTask (t : TaskMessage) : Lexes F.parse (serializeTask F t) ts ↔
    (IsShort t.id ∧ IsShort t.sender ∧ IsShort t.call) ∧ ∃ ts', ts = taskHeader t ++ ts' ∧
      Lexes F.parse ('[' :: itemsText (valueToWire F) t.args [')']) ts' := by
  rw [serializeTask_eq]
  exact lexes_fields (by decide) (by decide) (by decide) (by decide) (by decide) (by decide)

theorem parsesList_atoms_iff {atoms : List (Token × AtomKind)}
    (hatoms : ∀ a ∈ atoms, tokenToAtom a.1 = .ok a.2 ∧ a.1 ≠ .comma ∧ a.1 ≠ close) :
    ParsesList (levels + 1) close (atoms.map Prod.fst ++ ts) items ts' ↔
      ∃ more, items = atoms.map (fun a => .atom a.2) ++ more ∧
        ParsesList (levels + 1) close ts more ts' := by
  induction atoms generalizing items with
  | nil => simp
  | cons a atoms ih =>
    obtain ⟨hatom, hcomma, hclose⟩ := hatoms a (by simp)
    have hothers (more : List SExpr) :
        ParsesList (levels + 1) close (atoms.map Prod.fst ++ ts) more ts' ↔
          ∃ others, more = atoms.map (fun a => .atom a.2) ++ others ∧
            ParsesList (levels + 1) close ts others ts' :=
      ih fun b hb => hatoms b (by simp [hb])
    rw [List.map_cons, List.cons_append, parsesList_atom_iff hatom hcomma hclose]
    simp only [hothers]
    constructor
    · rintro ⟨_, rfl, more, rfl, hmore⟩
      exact ⟨more, rfl, hmore⟩
    · rintro ⟨more, rfl, hmore⟩
      exact ⟨_, rfl, more, rfl, hmore⟩

/-- The atoms behind the opening parenthesis of a task. -/
def taskAtoms (t : TaskMessage) : List (Token × AtomKind) :=
  [(.symbol "task".toList, .symbol "task".toList), (.str t.id, .str t.id),
    (.keyword "from".toList, .keyword "from".toList), (.str t.sender, .str t.sender),
    (.keyword "call".toList, .keyword "call".toList), (.str t.call, .str t.call),
    (.keyword "args".toList, .keyword "args".toList)]

theorem parses_taskHeader (t : TaskMessage) :
    Parses (levels + 2) (taskHeader t ++ .lbracket :: ts) e ts' ↔ ∃ values others next,
      e = .list ((taskAtoms t).map (fun a => .atom a.2) ++ .bracketList values :: others) ∧
        ParsesList levels .rbracket ts values next ∧
          ParsesList (levels + 1) .rparen next others ts' := by
  have hatoms : ∀ a ∈ taskAtoms t,
      tokenToAtom a.1 = .ok a.2 ∧ a.1 ≠ .comma ∧ a.1 ≠ .rparen := by
    simp [taskAtoms, tokenToAtom]
  have hheader : taskHeader t ++ .lbracket :: ts =
      .lparen :: ((taskAtoms t).map Prod.fst ++ .lbracket :: ts) := rfl
  rw [hheader, parses_lparen_iff]
  constructor
  · rintro ⟨items, rfl, hlist⟩
    obtain ⟨more, rfl, hmore⟩ := (parsesList_atoms_iff hatoms).mp hlist
    obtain ⟨first, others, next, rfl, hfirst, hothers⟩ :=
      (parsesList_cons_iff (by simp) (by simp)).mp hmore
    obtain ⟨values, rfl, hvalues⟩ := parses_lbracket_iff.mp hfirst
    exact ⟨values, others, next, rfl, hvalues, hothers⟩
  · rintro ⟨values, others, next, rfl, hvalues, hothers⟩
    refine ⟨_, rfl, (parsesList_atoms_iff hatoms).mpr ⟨_, rfl, ?_⟩⟩
    exact (parsesList_cons_iff (by simp) (by simp)).mpr
      ⟨_, _, next, rfl, parses_lbracket_iff.mpr ⟨values, rfl, hvalues⟩, hothers⟩

theorem taskOfList_atoms (t : TaskMessage) (values others : List SExpr) :
    taskOfList ((taskAtoms t).map (fun a => .atom a.2) ++ .bracketList values :: others) =
      do
        let msg ← taskFields { t with args := sexprsToValues values } others
        if msg.call = [] then throw "task missing required :call field"
        if msg.sender = [] then throw "task missing required :from field"
        return msg :=
  rfl

theorem args_prefix_of_taskFields {msg m : TaskMessage} (h : taskFields msg items = .ok m) :
    msg.args <+: m.args := by
  fun_induction taskFields msg items with
  | case1 =>
    cases h
    exact List.prefix_refl _
  | case2 msg _ _ s rest ih => exact ih h
  | case5 msg _ _ _ s rest ih => exact ih h
  | case8 msg _ _ _ _ values rest ih => exact (List.prefix_append _ _).trans (ih h)
  | case11 msg _ _ _ _ _ ih => exact ih h
  | _ => cases h

theorem taskOfList_eq_ok_iff {t m : TaskMessage} {values others : List SExpr} :
    taskOfList ((taskAtoms t).map (fun a => .atom a.2) ++ .bracketList values :: others) = .ok m ↔
      taskFields { t with args := sexprsToValues values } others = .ok m ∧ m.call ≠ [] ∧
        m.sender ≠ [] := by
  rw [taskOfList_atoms]
  cases taskFields { t with args := sexprsToValues values } others with
  | error err =>
    constructor
    · intro h
      cases h
    · rintro ⟨h, -⟩
      cases h
  | ok msg =>
    have hbind : (do
        let msg ← (.ok msg : Except String TaskMessage)
        if msg.call = [] then throw "task missing required :call field"
        if msg.sender = [] then throw "task missing required :from field"
        return msg) = if msg.call = [] then .error "task missing required :call field"
          else if msg.sender = [] then .error "task missing required :from field"
          else .ok msg := by
      by_cases hcall : msg.call = []
      · simp [hcall, bind, Except.bind, throw, throwThe, MonadExceptOf.throw]
      · by_cases hsender : msg.sender = [] <;>
          simp [hcall, hsender, bind, Except.bind, throw, throwThe, MonadExceptOf.throw, pure,
            Except.pure]
    rw [hbind]
    by_cases hcall : msg.call = []
    · rw [if_pos hcall]
      constructor
      · intro h
        cases h
      · rintro ⟨h, hne, -⟩
        cases h
        exact absurd hcall hne
    · by_cases hsender : msg.sender = []
      · rw [if_neg hcall, if_pos hsender]
        constructor
        · intro h
          cases h
        · rintro ⟨h, -, hne⟩
          cases h
          exact absurd hsender hne
      · rw [if_neg hcall, if_neg hsender]
        constructor
        · intro h
          cases h
          exact ⟨rfl, hcall, hsender⟩
        · exact fun h => h.1

theorem parseTask_eq_ok_iff {input : List Char} {t : TaskMessage} :
    parseTask F.parse input = .ok t ↔ ∃ items es,
      lexAndParse F.parse input = .ok (.list items :: es) ∧ taskOfList items = .ok t := by
  unfold parseTask
  constructor
  · intro h
    cases hexprs : lexAndParse F.parse input with
    | error err =>
      rw [hexprs] at h
      cases h
    | ok exprs =>
      rw [hexprs] at h
      match exprs, h with
      | .list items :: es, h => exact ⟨items, es, rfl, h⟩
  · rintro ⟨items, es, hexprs, h⟩
    rw [hexprs]
    exact h

theorem parseTask_serializeTask_iff (hF : F.Lawful) (t : TaskMessage) :
    parseTask F.parse (serializeTask F t) = .ok t ↔ t.Clean := by
  have hargs : ∀ v ∈ t.args, ReadAs F (valueToWire F v) v (CleanArg v) :=
    fun v _ => readAs_valueToWire hF v
  have hlength : (tokens (.list t.args)).length = (itemsTokens t.args).length + 2 := by
    simp [tokens]
  rw [parseTask_eq_ok_iff]
  constructor
  · rintro ⟨items, es, hexprs, htask⟩
    obtain ⟨ts, rest, hts, hcount, hparses, -⟩ := lexAndParse_eq_cons_iff.mp hexprs
    obtain ⟨⟨hid, hsender, hcall⟩, ts', rfl, hlist⟩ := (lexes_serializeTask t).mp hts
    obtain ⟨ts'', rfl, hitems⟩ := (lexes_iff_of_token nextToken_lbracket).mp hlist
    obtain ⟨values, others, next, heq, hvalues, hothers⟩ := (parses_taskHeader t).mp hparses
    cases heq
    obtain ⟨hfields, hcallNe, hsenderNe⟩ := taskOfList_eq_ok_iff.mp htask
    obtain ⟨⟨hC, hnesting⟩, -, rfl, hclose⟩ :=
      reads_items hargs hitems hvalues (args_prefix_of_taskFields hfields)
    obtain ⟨ts3, rfl, hend⟩ := (lexes_iff_of_token nextToken_rparen).mp hclose
    obtain rfl := (lexes_iff_of_end nextToken_nil).mp hend
    refine ⟨hid, ⟨hsender, hsenderNe⟩, ⟨hcall, hcallNe⟩, hC, Nat.lt_succ_of_le hnesting, ?_⟩
    simp only [taskHeader, List.length_append, List.length_cons, List.length_nil] at hcount
    omega
  · intro h
    obtain ⟨es, hes, hvalues⟩ := parses_items hargs h.args (Nat.le_of_lt_succ h.nesting)
    have hrest : Lexes F.parse [')'] [.rparen] := .next nextToken_rparen (.done nextToken_nil)
    have hts := (lexes_serializeTask t).mpr ⟨⟨h.id, h.sender.1, h.call.1⟩, _, rfl,
      .next nextToken_lbracket (lexes_items hargs h.args hrest)⟩
    have hend : ParsesList (maxParseDepth - 1 + 1) .rparen [.rparen] [] [] :=
      (parsesList_close_iff (by simp)).mpr ⟨rfl, rfl⟩
    have hparses := (parses_taskHeader t).mpr ⟨es, [], _, rfl, hes _, hend⟩
    refine ⟨_, [], lexAndParse_eq_cons_iff.mpr ⟨_, [], hts, ?_, hparses, ?_⟩, ?_⟩
    · have := h.tokens
      simp only [taskHeader, List.length_append, List.length_cons, List.length_nil]
      omega
    · rw [parseSexprAll]
    · refine taskOfList_eq_ok_iff.mpr ⟨?_, h.call.2, h.sender.2⟩
      rw [hvalues, taskFields]

end Airl.Agent
