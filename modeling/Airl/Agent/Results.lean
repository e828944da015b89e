import Airl.Agent.Tasks
import Airl.Agent.Texts

/-! # Results come back

A result that is written and read again is the same result exactly if it says what
it is and nothing else: a payload and no error text, or the other way round.
-/

namespace Airl.Agent

open Airl.Syntax Lexer Datum

variable {F : FloatFormat} {rest : List Char} {ts ts' : List Token} {e : SExpr}
  {items more : List SExpr} {levels : Nat} {id : List Char}

theorem lexes_rparen_iff : Lexes F.parse [')'] ts ↔ ts = [.rparen] := by
  rw [lexes_iff_of_token nextToken_rparen]
  simp only [lexes_iff_of_end nextToken_nil]
  constructor
  · rintro ⟨_, rfl, rfl⟩
    rfl
  · rintro rfl
    exact ⟨_, rfl, rfl⟩

/-- When a result comes back: it says what it is, and nothing else. -/
structure ResultMessage.Clean (r : ResultMessage) : Prop where
  id : IsShort r.id
  complete : r.success = true → r.error = none ∧ ∃ v, r.payload = some v ∧ CleanArg v ∧
    Datum.nesting v < maxParseDepth ∧ (Datum.tokens v).length + 7 < maxTokenCount
  failed : r.success = false → r.payload = none ∧ ∃ text, r.error = some text ∧ IsShort text

/-- The tokens in front of the payload or the error text. -/
def resultHeader (id status field : List Char) : List Token :=
  [.lparen, .symbol "result".toList, .str id, .keyword "status".toList, .keyword status,
    .keyword field]

theorem lexes_statusFields {form id status1 status2 field : List Char} (hname : IsName form)
    (hhead : form.head?.any Char.isAlpha = true)
    (hconstant : form ∉ ["true".toList, "false".toList, "nil".toList])
    (hstatus1 : isField status1 = true) (hstatus2 : isField status2 = true)
    (hfield : isField field = true) :
    Lexes F.parse ('(' :: (form ++ ' ' :: '"' :: (escapeStr id ++ '"' :: ' ' ::
      ':' :: (status1 ++ ' ' :: ':' :: (status2 ++ ' ' :: ':' :: (field ++ ' ' :: rest)))))) ts ↔
      IsShort id ∧ ∃ ts', ts = [.lparen, .symbol form, .str id, .keyword status1,
        .keyword status2, .keyword field] ++ ts' ∧ Lexes F.parse rest ts' := by
  simp only [lexes_form hname hhead hconstant, lexes_keyword hstatus1, lexes_keyword hstatus2,
    lexes_keyword hfield]
  constructor
  · rintro ⟨hid, _, rfl, _, rfl, _, rfl, ts', rfl, hts⟩
    exact ⟨hid, ts', rfl, hts⟩
  · rintro ⟨hid, ts', rfl, hts⟩
    exact ⟨hid, _, rfl, _, rfl, _, rfl, ts', rfl, hts⟩

theorem lexes_serializeResult_complete {r : ResultMessage} (h : r.success = true) :
    Lexes F.parse (serializeResult F r) ts ↔ IsShort r.id ∧ ∃ ts',
      ts = resultHeader r.id "complete".toList "payload".toList ++ ts' ∧
        Lexes F.parse (valueToWire F (r.payload.getD .nil) ++ [')']) ts' := by
  have hwire : serializeResult F r = '(' :: ("result".toList ++ [' ', '"']) ++ escapeStr r.id ++
      ('"' :: ' ' :: ':' :: ("status".toList ++ (' ' :: ':' :: ("complete".toList ++
        (' ' :: ':' :: ("payload".toList ++ [' '])))))) ++
      valueToWire F (r.payload.getD .nil) ++ [')'] := by
    rw [serializeResult, if_pos h]
    cases r.payload <;> rfl
  have htext : serializeResult F r = '(' :: ("result".toList ++ ' ' :: '"' :: (escapeStr r.id ++
      '"' :: ' ' :: ':' :: ("status".toList ++ ' ' :: ':' :: ("complete".toList ++ ' ' ::
        ':' :: ("payload".toList ++ ' ' ::
          (valueToWire F (r.payload.getD .nil) ++ [')'])))))) := by
    rw [hwire]
    simp only [List.append_assoc, List.cons_append, List.nil_append]
  rw [htext]
  exact lexes_statusFields (by decide) (by decide) (by decide) (by decide) (by decide) (by decide)

theorem lexes_serializeResult_failed {r : ResultMessage} (h : r.success = false) :
    Lexes F.parse (serializeResult F r) ts ↔ (IsShort r.id ∧
      IsShort (r.error.getD "unknown error".toList)) ∧
        ts = resultHeader r.id "error".toList "message".toList ++
          [.str (r.error.getD "unknown error".toList), .rparen] := by
  have hwire : serializeResult F r = '(' :: ("result".toList ++ [' ', '"']) ++ escapeStr r.id ++
      ('"' :: ' ' :: ':' :: ("status".toList ++ (' ' :: ':' :: ("error".toList ++
        (' ' :: ':' :: ("message".toList ++ [' ', '"'])))))) ++
      escapeStr (r.error.getD "unknown error".toList) ++ ['"', ')'] := by
    rw [serializeResult, if_neg (by simp [h])]
    rfl
  have htext : serializeResult F r = '(' :: ("result".toList ++ ' ' :: '"' :: (escapeStr r.id ++
      '"' :: ' ' :: ':' :: ("status".toList ++ ' ' :: ':' :: ("error".toList ++ ' ' ::
        ':' :: ("message".toList ++ ' ' ::
          ('"' :: (escapeStr (r.error.getD "unknown error".toList) ++ '"' :: [')']))))))) := by
    rw [hwire]
    simp only [List.append_assoc, List.cons_append, List.nil_append]
  rw [htext]
  refine (lexes_statusFields (by decide) (by decide) (by decide) (by decide) (by decide)
    (by decide)).trans ?_
  rw [and_assoc]
  refine and_congr_right fun _ => ?_
  simp only [lexes_string, lexes_rparen_iff]
  constructor
  · rintro ⟨_, rfl, hshort, _, rfl, rfl⟩
    exact ⟨hshort, rfl⟩
  · rintro ⟨hshort, rfl⟩
    exact ⟨_, rfl, hshort, _, rfl, rfl⟩

theorem parseResult_eq_ok_iff {input : List Char} {r : ResultMessage} :
    parseResult F.parse input = .ok r ↔ ∃ items es,
      lexAndParse F.parse input = .ok (.list items :: es) ∧ resultOfList items = .ok r := by
  unfold parseResult
  constructor
  · intro h
    cases hexprs : lexAndParse F.parse input with
    | error err =>
      rw [hexprs] at h
      cases h
    | ok exprs =>
      rw [hexprs] at h
      match exprs, h with
      | .list items :: es, h => exact ⟨items, es, rfl, h⟩
  · rintro ⟨items, es, hexprs, h⟩
    rw [hexprs]
    exact h

/-- The atoms behind the opening parenthesis of a result. -/
def resultAtoms (id status field : List Char) : List (Token × AtomKind) :=
  [(.symbol "result".toList, .symbol "result".toList), (.str id, .str id),
    (.keyword "status".toList, .keyword "status".toList), (.keyword status, .keyword status),
    (.keyword field, .keyword field)]

theorem parses_resultHeader {status field : List Char} :
    Parses (levels + 2) (resultHeader id status field ++ ts) e ts' ↔ ∃ more,
      e = .list ((resultAtoms id status field).map (fun a => .atom a.2) ++ more) ∧
        ParsesList (levels + 1) .rparen ts more ts' := by
  have hatoms : ∀ a ∈ resultAtoms id status field,
      tokenToAtom a.1 = .ok a.2 ∧ a.1 ≠ .comma ∧ a.1 ≠ .rparen := by
    simp [resultAtoms, tokenToAtom]
  have hheader : resultHeader id status field ++ ts =
      .lparen :: ((resultAtoms id status field).map Prod.fst ++ ts) := rfl
  rw [hheader, parses_lparen_iff]
  simp only [parsesList_atoms_iff hatoms]
  constructor
  · rintro ⟨_, rfl, more, rfl, hmore⟩
    exact ⟨more, rfl, hmore⟩
  · rintro ⟨more, rfl, hmore⟩
    exact ⟨_, rfl, more, rfl, hmore⟩

theorem payload_of_resultFields {msg m : ResultMessage} (h : resultFields msg items = .ok m) :
    m.payload = msg.payload ∨ ∃ e ∈ items, m.payload = some (sexprToValue e) := by
  fun_induction resultFields msg items with
  | case1 =>
    cases h
    exact Or.inl rfl
  | case3 msg _ _ _ _ _ _ ih =>
    exact (ih h).imp_right fun ⟨e, he, hm⟩ => ⟨e, by simp [he], hm⟩
  | case5 msg _ _ _ expr rest ih =>
    right
    rcases ih h with hm | ⟨e, he, hm⟩
    · exact ⟨expr, by simp, hm⟩
    · exact ⟨e, by simp [he], hm⟩
  | case7 msg _ _ _ _ s rest ih =>
    exact (ih h).imp_right fun ⟨e, he, hm⟩ => ⟨e, by simp [he], hm⟩
  | case10 msg _ _ _ _ _ ih =>
    exact (ih h).imp_right fun ⟨e, he, hm⟩ => ⟨e, by simp [he], hm⟩
  | _ => cases h

theorem resultFields_of_no_keyword (h : ∀ e ∈ items, e.asKeyword = none) (msg : ResultMessage) :
    resultFields msg items = .ok msg := by
  induction items with
  | nil => rfl
  | cons e items ih =>
    have hnone := h e (by simp)
    rw [resultFields.eq_def]
    simp only [hnone]
    exact ih fun e he => h e (by simp [he])

theorem resultFields_payload (msg : ResultMessage) (items : List SExpr) :
    resultFields msg (.atom (.keyword "payload".toList) :: e :: items) =
      resultFields { msg with payload := some (sexprToValue e) } items := by
  rw [resultFields.eq_def]
  rfl

theorem resultOfList_complete : resultOfList
    ((resultAtoms id "complete".toList "payload".toList).map (fun a => .atom a.2) ++ more) =
      resultFields ⟨id, true, none, none⟩ (.atom (.keyword "payload".toList) :: more) :=
  rfl

theorem payload_of_complete {r : ResultMessage} (h : resultOfList
    ((resultAtoms id "complete".toList "payload".toList).map (fun a => .atom a.2) ++ more) =
      .ok r) : ∃ first others, more = first :: others ∧
        (resultFields ⟨id, true, some (sexprToValue first), none⟩ others = .ok r) ∧
          ∃ e ∈ more, r.payload = some (sexprToValue e) := by
  rw [resultOfList_complete] at h
  cases more with
  | nil => cases h
  | cons first others =>
    rw [resultFields_payload] at h
    refine ⟨first, others, rfl, h, ?_⟩
    rcases payload_of_resultFields h with hr | ⟨e, he, hr⟩
    · exact ⟨first, by simp, hr⟩
    · exact ⟨e, by simp [he], hr⟩

theorem asKeyword_of_atoms (hatoms : (itemsAtoms items).Sublist (ts.filterMap atomOf))
    (hfree : ∀ k, .keyword k ∉ ts) : ∀ e ∈ items, e.asKeyword = none := by
  intro e he
  cases hkeyword : e.asKeyword with
  | none => rfl
  | some k =>
    exfalso
    have hatom : e = .atom (.keyword k) := by
      unfold SExpr.asKeyword at hkeyword
      split at hkeyword
      · cases hkeyword
        rfl
      · cases hkeyword
    subst hatom
    have hmem : .keyword k ∈ ts.filterMap atomOf :=
      ((atoms_sublist_of_mem he).trans hatoms).subset (by simp [SExpr.atoms])
    obtain ⟨tok, htok, hk⟩ := List.mem_filterMap.mp hmem
    cases tok <;> cases hk
    exact hfree k htok

theorem keywordFree_payload (hF : F.Lawful) {v : Datum}
    (hts : Lexes F.parse (valueToWire F v ++ [')']) ts)
    (hatoms : e.atoms.Sublist (ts.filterMap atomOf)) (hvalue : sexprToValue e = v) :
    ∀ k, .keyword k ∉ ts := by
  have hfree : KeywordFree F (valueToWire F v) := by
    by_cases hstr : ∃ s, v = .str s
    · obtain ⟨s, rfl⟩ := hstr
      exact keywordFree_string s
    · have hwire : valueToWire F v = display F v := by
        unfold valueToWire
        split
        · next s => exact absurd ⟨s, rfl⟩ hstr
        · rfl
      rw [hwire] at hts ⊢
      refine keywordFree_display hF (isPlain_of_read hF hts hatoms hvalue) ?_
      rw [← hvalue]
      exact tagged_sexprToValue e ((namedSymbols_of_lexes hts).of_sublist hatoms)
  obtain ⟨front, ts', rfl, hfront, hrest⟩ := hfree _ _ ⟨_, _, rfl, by simp⟩ hts
  rw [lexes_rparen_iff] at hrest
  subst hrest
  intro k
  simpa using hfront k

theorem parseResult_complete_iff (hF : F.Lawful) {r : ResultMessage} (hr : r.success = true) :
    parseResult F.parse (serializeResult F r) = .ok r ↔ r.Clean := by
  rw [parseResult_eq_ok_iff]
  constructor
  · rintro ⟨items, es, hexprs, hresult⟩
    obtain ⟨ts, rest, hts, hcount, hparses, -⟩ := lexAndParse_eq_cons_iff.mp hexprs
    obtain ⟨hid, ts', rfl, hwire⟩ := (lexes_serializeResult_complete hr).mp hts
    obtain ⟨more, heq, hmore⟩ := parses_resultHeader.mp hparses
    cases heq
    obtain ⟨first, others, rfl, hfields, e, he, hpayload⟩ := payload_of_complete hresult
    rw [hpayload, Option.getD_some] at hwire
    obtain ⟨front, hfront, hatoms⟩ := atoms_of_parsesList rfl atoms_of_parses hmore
    have hsub : (itemsAtoms (first :: others)).Sublist (ts'.filterMap atomOf) := by
      rw [hfront, List.filterMap_append, hatoms]
      exact List.sublist_append_left _ _
    have hfree := keywordFree_payload hF hwire ((atoms_sublist_of_mem he).trans hsub) rfl
    have hothers : ∀ e ∈ others, e.asKeyword = none :=
      fun e he => asKeyword_of_atoms hsub hfree e (by simp [he])
    rw [resultFields_of_no_keyword hothers] at hfields
    have hvalue : r.payload = some (sexprToValue first) := by
      rw [← Except.ok.inj hfields]
    rw [hvalue, Option.some.injEq] at hpayload
    rw [← hpayload] at hwire
    have hread := readAs_valueToWire hF (sexprToValue first)
    have hclose : Delimited [')'] := ⟨_, _, rfl, by simp⟩
    obtain ⟨tok, tail, rfl, hopens⟩ := hread.opens hclose hwire
    obtain ⟨_, _, next, hcons, hfirst, hlist⟩ :=
      (parsesList_cons_iff hopens.1 hopens.2.1).mp hmore
    cases hcons
    obtain ⟨hclean, hnesting, htokens, hend⟩ := hread.reads hclose hwire hfirst rfl
    refine ⟨hid, fun _ => ⟨?_, _, hvalue, hclean, hnesting, ?_⟩, fun hfalse => ?_⟩
    · rw [← Except.ok.inj hfields]
    · rw [lexes_rparen_iff] at hend
      rw [htokens, hend] at hcount
      simp only [resultHeader, List.length_append, List.length_cons, List.length_nil] at hcount
      omega
    · rw [hr] at hfalse
      cases hfalse
  · intro h
    obtain ⟨herror, v, hpayload, hclean, hnesting, hcount⟩ := h.complete hr
    have hread := readAs_valueToWire hF v
    have hclose : Delimited [')'] := ⟨_, _, rfl, by simp⟩
    obtain ⟨e, hparses, hvalue⟩ := hread.parses hclean hnesting
    have hwire := hread.lexes hclean hclose (lexes_rparen_iff.mpr rfl)
    have hts := (lexes_serializeResult_complete hr).mpr ⟨h.id, _, rfl, by
      rw [hpayload, Option.getD_some]
      exact hwire⟩
    obtain ⟨tok, tail, htok, hopens⟩ := tokens_opens v
    have hmore : ParsesList maxParseDepth .rparen (tokens v ++ [.rparen]) [e] [] := by
      have hfirst := hparses [.rparen]
      rw [htok, List.cons_append] at hfirst ⊢
      exact (parsesList_cons_iff hopens.1 hopens.2.1).mpr
        ⟨e, [], _, rfl, hfirst, (parsesList_close_iff (by simp)).mpr ⟨rfl, rfl⟩⟩
    refine ⟨_, [], lexAndParse_eq_cons_iff.mpr
      ⟨_, [], hts, ?_, parses_resultHeader.mpr ⟨[e], rfl, hmore⟩, ?_⟩, ?_⟩
    · simp only [resultHeader, List.length_append, List.length_cons, List.length_nil]
      omega
    · rw [parseSexprAll]
    · rw [resultOfList_complete, resultFields_payload, resultFields, hvalue]
      cases r
      cases hr
      cases herror
      cases hpayload
      rfl

theorem parseResult_failed_iff {r : ResultMessage} (hr : r.success = false) :
    parseResult F.parse (serializeResult F r) = .ok r ↔ r.Clean := by
  have hlist (text : List Char) : resultOfList
      ((resultAtoms r.id "error".toList "message".toList).map (fun a => .atom a.2) ++
        [.atom (.str text)]) = .ok ⟨r.id, false, none, some text⟩ := rfl
  rw [parseResult_eq_ok_iff]
  constructor
  · rintro ⟨items, es, hexprs, hresult⟩
    obtain ⟨ts, rest, hts, -, hparses, -⟩ := lexAndParse_eq_cons_iff.mp hexprs
    obtain ⟨⟨hid, hshort⟩, rfl⟩ := (lexes_serializeResult_failed hr).mp hts
    obtain ⟨more, heq, hmore⟩ := parses_resultHeader.mp hparses
    cases heq
    obtain ⟨more', rfl, hend⟩ := (parsesList_atom_iff rfl (by simp) (by simp)).mp hmore
    obtain ⟨rfl, -⟩ := (parsesList_close_iff (by simp)).mp hend
    rw [hlist, Except.ok.injEq] at hresult
    refine ⟨hid, fun htrue => ?_, fun _ => ⟨?_, _, ?_, hshort⟩⟩
    · rw [hr] at htrue
      cases htrue
    · exact (congrArg ResultMessage.payload hresult).symm
    · exact (congrArg ResultMessage.error hresult).symm
  · intro h
    obtain ⟨hpayload, text, herror, hshort⟩ := h.failed hr
    have htext : r.error.getD "unknown error".toList = text := by rw [herror, Option.getD_some]
    have hts := (lexes_serializeResult_failed (F := F) hr).mpr ⟨⟨h.id, htext ▸ hshort⟩, rfl⟩
    rw [htext] at hts
    have hcount : 8 < maxTokenCount := by decide
    have hmore : ParsesList maxParseDepth .rparen [.str text, .rparen] [.atom (.str text)] [] :=
      (parsesList_atom_iff rfl (by simp) (by simp)).mpr
        ⟨[], rfl, (parsesList_close_iff (by simp)).mpr ⟨rfl, rfl⟩⟩
    refine ⟨_, [], lexAndParse_eq_cons_iff.mpr
      ⟨_, [], hts, hcount, parses_resultHeader.mpr ⟨_, rfl, hmore⟩, ?_⟩, ?_⟩
    · rw [parseSexprAll]
    · rw [hlist]
      cases r
      cases hr
      cases herror
      cases hpayload
      rfl

theorem parseResult_serializeResult_iff (hF : F.Lawful) (r : ResultMessage) :
    parseResult F.parse (serializeResult F r) = .ok r ↔ r.Clean := by
  cases hr : r.success with
  | true => exact parseResult_complete_iff hF hr
  | false => exact parseResult_failed_iff hr

end Airl.Agent
