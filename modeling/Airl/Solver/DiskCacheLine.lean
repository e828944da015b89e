import Airl.Solver.DiskCacheText

/-! # Reading back a written line

The fields of a line are found by their labels in quotation marks. A name or a
clause without quotation marks cannot be taken for a label, since no colon
follows it.
-/

namespace Airl.Solver.DiskCache

/-- The search for the pattern passes over the text. -/
def Passed (pat s : List Char) : Prop := ∀ t, Text.after pat (s ++ t) = Text.after pat t

/-- A label with the colon that follows it, and what the pattern goes on with. -/
def labelled (label more : List Char) : List Char := '"' :: (label ++ '"' :: ':' :: more)

section Passed

variable {pat s t x label more : List Char} {d : Char}

theorem Passed.append (hs : Passed pat s) (ht : Passed pat t) : Passed pat (s ++ t) := by
  intro u
  rw [List.append_assoc, hs, ht]

theorem Passed.of_not_mem (h : '"' ∉ s) : Passed (labelled label more) s :=
  fun t => Text.after_append_of_not_mem h t

theorem prefix_quoted (hlabel : '"' ∉ label) (hx : '"' ∉ x)
    (h : label ++ '"' :: ':' :: more <+: x ++ '"' :: d :: t) : label = x ∧ d = ':' := by
  induction label generalizing x with
  | nil =>
    cases x with
    | nil =>
      have htail := (List.cons_prefix_cons.mp h).2
      exact ⟨rfl, (List.cons_prefix_cons.mp htail).1.symm⟩
    | cons y x =>
      have hhead : '"' = y := (List.cons_prefix_cons.mp h).1
      exact absurd (by simp [← hhead]) hx
  | cons c label ih =>
    cases x with
    | nil =>
      have hhead : c = '"' := (List.cons_prefix_cons.mp h).1
      exact absurd (by simp [hhead]) hlabel
    | cons y x =>
      obtain ⟨hhead, htail⟩ := List.cons_prefix_cons.mp h
      obtain ⟨rfl, hd⟩ := ih (fun hmem => hlabel (by simp [hmem]))
        (fun hmem => hx (by simp [hmem])) htail
      exact ⟨by rw [hhead], hd⟩

/-- A label of a line: no quotation mark in it, and none of the characters that follow one
elsewhere at its head. -/
structure IsLabel (label : List Char) : Prop where
  unquoted : '"' ∉ label
  head : ∀ c ∈ label.head?, c ∉ [':', ',', ']']
  ne_nil : label ≠ []

theorem Passed.quoted (hlabel : IsLabel label) (hx : '"' ∉ x) (hne : label = x → d ≠ ':')
    (hd : d ∈ [':', ',', ']']) : Passed (labelled label more) ('"' :: x ++ ['"', d]) := by
  intro t
  have hquote : d ≠ '"' := by
    rintro rfl
    simp at hd
  have hfirst : ¬ labelled label more <+: '"' :: (x ++ '"' :: d :: t) := by
    intro h
    obtain ⟨heq, hcolon⟩ := prefix_quoted hlabel.unquoted hx (List.cons_prefix_cons.mp h).2
    exact hne heq hcolon
  have hsecond : ¬ labelled label more <+: '"' :: d :: t := by
    intro h
    have hmore := (List.cons_prefix_cons.mp h).2
    obtain ⟨c, cs, rfl⟩ := List.exists_cons_of_ne_nil hlabel.ne_nil
    have hc : c = d := (List.cons_prefix_cons.mp hmore).1
    exact hlabel.head c rfl (hc ▸ hd)
  have hthird : ¬ labelled label more <+: d :: t := fun h =>
    hquote (List.cons_prefix_cons.mp h).1.symm
  calc Text.after (labelled label more) ('"' :: x ++ ['"', d] ++ t)
      = Text.after (labelled label more) ('"' :: (x ++ '"' :: d :: t)) := by simp
    _ = Text.after (labelled label more) (x ++ '"' :: d :: t) := Text.after_cons hfirst
    _ = Text.after (labelled label more) ('"' :: d :: t) := Passed.of_not_mem hx _
    _ = Text.after (labelled label more) (d :: t) := Text.after_cons hsecond
    _ = Text.after (labelled label more) t := Text.after_cons hthird

theorem labelled_eq (label more : List Char) :
    labelled label more = ('"' :: label ++ ['"', ':']) ++ more := by
  simp [labelled]

theorem Passed.otherLabel {other : List Char} (hlabel : IsLabel label) (hother : '"' ∉ other)
    (hne : label ≠ other) : Passed (labelled label more) (labelled other []) := by
  rw [labelled_eq other, List.append_nil]
  exact Passed.quoted hlabel hother (fun h => absurd h hne) (by simp)

theorem Passed.clauses (hlabel : IsLabel label) {rs : List (List Char × List Char)}
    (hrs : ∀ r ∈ rs, '"' ∉ r.1 ∧ '"' ∉ r.2) : Passed (labelled label more) (clausesToJson rs) := by
  have hpair : ∀ r ∈ rs, Passed (labelled label more) (pairToJson r) := fun r hr => by
    obtain ⟨hclause, htag⟩ := hrs r hr
    have hopen : Passed (labelled label more) ['['] := Passed.of_not_mem (by simp)
    have hfirst : Passed (labelled label more) ('"' :: r.1 ++ ['"', ',']) :=
      Passed.quoted hlabel hclause (fun _ => by decide) (by simp)
    have hsecond : Passed (labelled label more) ('"' :: r.2 ++ ['"', ']']) :=
      Passed.quoted hlabel htag (fun _ => by decide) (by simp)
    have hall := hopen.append (hfirst.append hsecond)
    rw [pairToJson_eq, escapeQuotes_eq hclause, escapeQuotes_eq htag]
    simpa using hall
  have hbody : Passed (labelled label more) (body rs) := by
    clear hrs
    induction rs with
    | nil => exact Passed.of_not_mem (by simp [body])
    | cons r rs ih =>
      have hr := hpair r (by simp)
      have hrest := ih fun r' hr' => hpair r' (by simp [hr'])
      cases rs with
      | nil => rwa [body_singleton]
      | cons r' rs =>
        rw [body_cons_cons, ← List.singleton_append]
        exact hr.append ((Passed.of_not_mem (by simp)).append hrest)
  rw [clausesToJson_eq, ← List.singleton_append]
  exact (Passed.of_not_mem (by simp)).append (hbody.append (Passed.of_not_mem (by simp)))

end Passed

theorem keyLabel : "\"key\":".toList = labelled "key".toList [] := rfl

theorem fnLabel : "\"fn\":\"".toList = labelled "fn".toList ['"'] := rfl

theorem ensuresLabel : "\"ensures\":".toList = labelled "ensures".toList [] := rfl

theorem invariantsLabel : "\"invariants\":".toList = labelled "invariants".toList [] := rfl

/-- The rest of a line behind its last label. -/
def invariantsRest (entry : CacheEntry) : List Char :=
  clausesToJson entry.invariantsResults ++ ['\x7d']

def ensuresRest (entry : CacheEntry) : List Char :=
  clausesToJson entry.ensuresResults ++
    ([','] ++ (labelled "invariants".toList [] ++ invariantsRest entry))

def fnRest (entry : CacheEntry) : List Char :=
  entry.functionName ++ (['"', ','] ++ (labelled "ensures".toList [] ++ ensuresRest entry))

def keyRest (key : UInt64) (entry : CacheEntry) : List Char :=
  Nat.toDigits 10 key.toNat ++ ([','] ++ (labelled "fn".toList ['"'] ++ fnRest entry))

theorem renderLine_eq (key : UInt64) (entry : CacheEntry) :
    renderLine (key, entry) = ['\x7b'] ++ (labelled "key".toList [] ++ keyRest key entry) := by
  have hline : renderLine (key, entry) =
      (['\x7b'] ++ labelled "key".toList []) ++ Nat.toDigits 10 key.toNat ++
        ([','] ++ labelled "fn".toList ['"']) ++ entry.functionName ++
        (['"', ','] ++ labelled "ensures".toList []) ++ clausesToJson entry.ensuresResults ++
        ([','] ++ labelled "invariants".toList []) ++ clausesToJson entry.invariantsResults ++
        ['\x7d'] := rfl
  rw [hline]
  simp only [keyRest, fnRest, ensuresRest, invariantsRest, List.append_assoc]

section Fields

variable {key : UInt64} {entry : CacheEntry}

theorem isLabel_fn : IsLabel "fn".toList := ⟨by decide, by simp, by decide⟩

theorem isLabel_ensures : IsLabel "ensures".toList := ⟨by decide, by simp, by decide⟩

theorem isLabel_invariants : IsLabel "invariants".toList := ⟨by decide, by simp, by decide⟩

theorem isDigit_toDigits (n : Nat) : ∀ c ∈ Nat.toDigits 10 n, c.isDigit = true :=
  fun _ hc => Nat.isDigit_of_mem_toDigits (by decide) (by decide) hc

theorem quote_not_mem_toDigits (n : Nat) : '"' ∉ Nat.toDigits 10 n := fun hmem =>
  absurd (isDigit_toDigits n _ hmem) (by decide)

theorem after_key : Text.after "\"key\":".toList (renderLine (key, entry)) =
    some (keyRest key entry) := by
  have hopen : Passed (labelled "key".toList []) ['\x7b'] := Passed.of_not_mem (by decide)
  rw [keyLabel, renderLine_eq, hopen, Text.after_prefix]

theorem passed_head {label more : List Char} (hlabel : IsLabel label) (hkey : label ≠ "key".toList)
    (t : List Char) : Text.after (labelled label more)
      (['\x7b'] ++ (labelled "key".toList [] ++ (Nat.toDigits 10 key.toNat ++ ([','] ++ t)))) =
    Text.after (labelled label more) t := by
  have hopen : Passed (labelled label more) ['\x7b'] := Passed.of_not_mem (by decide)
  have hdigits : Passed (labelled label more) (Nat.toDigits 10 key.toNat) :=
    Passed.of_not_mem (quote_not_mem_toDigits _)
  have hcomma : Passed (labelled label more) [','] := Passed.of_not_mem (by decide)
  rw [hopen, Passed.otherLabel hlabel (by decide) hkey, hdigits, hcomma]

theorem after_fn : Text.after "\"fn\":\"".toList (renderLine (key, entry)) =
    some (fnRest entry) := by
  rw [fnLabel, renderLine_eq, keyRest, passed_head isLabel_fn (by decide), Text.after_prefix]

theorem passed_name {label more : List Char} (hlabel : IsLabel label) (hkey : label ≠ "key".toList)
    (hfn : label ≠ "fn".toList) (hname : '"' ∉ entry.functionName) :
    Text.after (labelled label more) (renderLine (key, entry)) =
      Text.after (labelled label more) (labelled "ensures".toList [] ++ ensuresRest entry) := by
  have hlabelFn : Passed (labelled label more) (labelled "fn".toList []) :=
    Passed.otherLabel hlabel (by decide) hfn
  have hquoted : Passed (labelled label more) ('"' :: entry.functionName ++ ['"', ',']) :=
    Passed.quoted hlabel hname (fun _ => by decide) (by simp)
  rw [renderLine_eq, keyRest, passed_head hlabel hkey, fnRest]
  have hregroup : labelled "fn".toList ['"'] ++ (entry.functionName ++ (['"', ','] ++
      (labelled "ensures".toList [] ++ ensuresRest entry))) =
      labelled "fn".toList [] ++ (('"' :: entry.functionName ++ ['"', ',']) ++
        (labelled "ensures".toList [] ++ ensuresRest entry)) := by
    rw [labelled_eq _ ['"'], labelled_eq "fn".toList []]
    simp only [List.append_assoc, List.cons_append, List.nil_append]
  rw [hregroup, hlabelFn, hquoted]

theorem after_ensures (hname : '"' ∉ entry.functionName) :
    Text.after "\"ensures\":".toList (renderLine (key, entry)) = some (ensuresRest entry) := by
  rw [ensuresLabel, passed_name isLabel_ensures (by decide) (by decide) hname, Text.after_prefix]

theorem after_invariants (hname : '"' ∉ entry.functionName)
    (hclauses : ∀ r ∈ entry.ensuresResults, '"' ∉ r.1 ∧ '"' ∉ r.2) :
    Text.after "\"invariants\":".toList (renderLine (key, entry)) =
      some (invariantsRest entry) := by
  have hcomma : Passed (labelled "invariants".toList []) [','] := Passed.of_not_mem (by decide)
  rw [invariantsLabel, passed_name isLabel_invariants (by decide) (by decide) hname,
    Passed.otherLabel isLabel_invariants (by decide) (by decide), ensuresRest,
    Passed.clauses isLabel_invariants hclauses, hcomma, Text.after_prefix]

theorem extractU64_renderLine :
    extractU64 (renderLine (key, entry)) "\"key\":".toList = some key := by
  have hcut : Text.cut (fun c => !c.isDigit) (keyRest key entry) =
      some (Nat.toDigits 10 key.toNat, labelled "fn".toList ['"'] ++ fnRest entry) :=
    Text.cut_append (fun c hc => by simp [isDigit_toDigits _ c hc]) (by decide) _
  rw [extractU64, after_key]
  simp only [bind, Option.bind, hcut]
  rw [if_neg Nat.toDigits_ne_nil, Nat.ofDigitChars_ten_toDigits, if_pos key.toNat_lt,
    UInt64.ofNat_toNat]

/-- The name that is read ends at its first quotation mark. -/
theorem extractString_renderLine (hname : '"' ∉ entry.functionName) :
    extractString (renderLine (key, entry)) "\"fn\":\"".toList = some entry.functionName := by
  have hcut : Text.cut (· == '"') (fnRest entry) =
      some (entry.functionName, ',' :: (labelled "ensures".toList [] ++ ensuresRest entry)) :=
    Text.cut_append (fun c hc => beq_eq_false_iff_ne.mpr (ne_of_mem_of_not_mem hc hname)) rfl _
  rw [extractString, after_fn]
  simp only [bind, Option.bind, hcut]

theorem extractClauseResults_eq {line pat post : List Char} {rs : List (List Char × List Char)}
    (h : Text.after pat line = some (clausesToJson rs ++ post)) :
    extractClauseResults line pat = (listResults (body rs ++ ']' :: post)).map some := by
  have hcut : Text.cut (· == '[') (clausesToJson rs ++ post) =
      some ([], body rs ++ ']' :: post) := by
    rw [clausesToJson_eq, List.cons_append, List.append_assoc]
    exact Text.cut_append (fun _ h => absurd h List.not_mem_nil) rfl _
  simp only [extractClauseResults, h, hcut]

theorem raises_clauses {rs : List (List Char × List Char)}
    (h : ∀ r ∈ rs, IsTag r.2 ∧ ']' ∉ r.1) : ∃ k, Raises k (clausesToJson rs) := by
  have hopen := Raises.opens.append (raises_body h)
  rw [Nat.add_comm] at hopen
  have hclosed := hopen.closed
  rw [clausesToJson_eq]
  exact ⟨_, hclosed⟩

/-- The entry's tags are tags, and no clause holds a closing bracket or a comma. -/
structure Closed (entry : CacheEntry) : Prop where
  name : '"' ∉ entry.functionName
  ensures : ∀ r ∈ entry.ensuresResults, IsTag r.2 ∧ ']' ∉ r.1 ∧ ',' ∉ r.1
  invariants : ∀ r ∈ entry.invariantsResults, IsTag r.2 ∧ ']' ∉ r.1 ∧ ',' ∉ r.1

/-- The name holds no quotation mark, the clauses are plain ASCII. -/
structure Clean (entry : CacheEntry) : Prop where
  name : '"' ∉ entry.functionName
  ensures : ∀ r ∈ entry.ensuresResults, Plain r.1 ∧ Ascii r.1
  invariants : ∀ r ∈ entry.invariantsResults, Plain r.1 ∧ Ascii r.1

theorem raises_ensuresPost (h : Closed entry) : ∃ k, Raises k
    ([','] ++ (labelled "invariants".toList [] ++ invariantsRest entry)) := by
  obtain ⟨k, hk⟩ := raises_clauses fun r hr => ⟨(h.invariants r hr).1, (h.invariants r hr).2.1⟩
  have hcomma : Raises 0 [','] := Raises.plain (by decide) (by decide)
  have hlabel := Raises.of_not_mem (show ']' ∉ labelled "invariants".toList [] by decide)
  have hclose : Raises 0 ['\x7d'] := Raises.plain (by decide) (by decide)
  exact ⟨_, hcomma.append (hlabel.append (hk.append hclose))⟩

theorem raises_invariantsPost : Raises 0 ['\x7d'] := Raises.plain (by decide) (by decide)

theorem parseLine_eq_some {line : List Char} :
    parseLine line = .ok (some (key, entry)) ↔
      extractU64 line "\"key\":".toList = some key ∧
      extractString line "\"fn\":\"".toList = some entry.functionName ∧
      extractClauseResults line "\"ensures\":".toList = .ok (some entry.ensuresResults) ∧
      extractClauseResults line "\"invariants\":".toList = .ok (some entry.invariantsResults) := by
  unfold parseLine
  cases hkey : extractU64 line "\"key\":".toList with
  | none => simp
  | some k =>
    cases hname : extractString line "\"fn\":\"".toList with
    | none => simp
    | some name =>
      cases hensures : extractClauseResults line "\"ensures\":".toList with
      | error p => simp [bind, Except.bind]
      | ok ensures =>
        cases hinvariants : extractClauseResults line "\"invariants\":".toList with
        | error p => cases ensures <;> simp [bind, Except.bind]
        | ok invariants =>
          obtain ⟨functionName, ensuresResults, invariantsResults⟩ := entry
          cases ensures <;> cases invariants <;> simp [bind, Except.bind]

theorem parseLine_renderLine (h : Closed entry) (hclean : Clean entry) :
    parseLine (renderLine (key, entry)) = .ok (some (key, entry)) := by
  obtain ⟨k, hpost⟩ := raises_ensuresPost h
  have hquotes : ∀ r ∈ entry.ensuresResults, '"' ∉ r.1 ∧ '"' ∉ r.2 := fun r hr =>
    ⟨fun hmem => ((hclean.ensures r hr).1 _ hmem).1 rfl,
      fun hmem => ((h.ensures r hr).1.plain _ hmem).1 rfl⟩
  refine parseLine_eq_some.mpr ⟨extractU64_renderLine, extractString_renderLine h.name, ?_, ?_⟩
  · rw [extractClauseResults_eq (after_ensures h.name),
      listResults_clean (fun r hr => (h.ensures r hr).1) hpost hclean.ensures]
    rfl
  · rw [extractClauseResults_eq (after_invariants h.name hquotes),
      listResults_clean (fun r hr => (h.invariants r hr).1) raises_invariantsPost hclean.invariants]
    rfl

theorem eq_ok_of_map_some {α : Type} {r : Except Panic α} {a : α}
    (h : r.map some = .ok (some a)) : r = .ok a := by
  cases r with
  | error p => cases h
  | ok b =>
    cases h
    rfl

theorem clean_of_parseLine (h : Closed entry) {read : CacheEntry}
    (hread : parseLine (renderLine (key, entry)) = .ok (some (key, read)))
    (hens : read.ensuresResults.map Prod.fst = entry.ensuresResults.map Prod.fst)
    (hinv : read.invariantsResults.map Prod.fst = entry.invariantsResults.map Prod.fst) :
    Clean entry := by
  obtain ⟨k, hpost⟩ := raises_ensuresPost h
  obtain ⟨-, -, hensures, hinvariants⟩ := parseLine_eq_some.mp hread
  rw [extractClauseResults_eq (after_ensures h.name)] at hensures
  have hcleanEnsures := clean_of_listResults h.ensures hpost (eq_ok_of_map_some hensures) hens
  have hquotes : ∀ r ∈ entry.ensuresResults, '"' ∉ r.1 ∧ '"' ∉ r.2 := fun r hr =>
    ⟨fun hmem => ((hcleanEnsures r hr).1 _ hmem).1 rfl,
      fun hmem => ((h.ensures r hr).1.plain _ hmem).1 rfl⟩
  rw [extractClauseResults_eq (after_invariants h.name hquotes)] at hinvariants
  exact ⟨h.name, hcleanEnsures, clean_of_listResults h.invariants raises_invariantsPost
    (eq_ok_of_map_some hinvariants) hinv⟩

end Fields

end Airl.Solver.DiskCache
