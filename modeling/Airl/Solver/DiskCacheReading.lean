import Airl.Solver.DiskCacheLine

/-! # What any file is read as

For every content of the file: which clauses a line can yield, from which pairs
of its text they come, and on which lines the reader stops with a panic.
-/

namespace Airl.Solver.DiskCache

/-- The text holds, in brackets one behind the other, a pair whose first comma stands between `p`
and `q`. -/
inductive PairAt : List Char → List Char → List Char → Prop
  | here {skipped p q : List Char} (rest : List Char) (hskipped : '[' ∉ skipped) (hcomma : ',' ∉ p)
      (hclose : ']' ∉ p ++ ',' :: q) : PairAt (skipped ++ '[' :: (p ++ ',' :: q ++ ']' :: rest)) p q
  | behind {skipped pair rest p q : List Char} (hskipped : '[' ∉ skipped) (hclose : ']' ∉ pair)
      (hrest : PairAt rest p q) : PairAt (skipped ++ '[' :: (pair ++ ']' :: rest)) p q

section Pairs

variable {inner opened text line pat clause tag p q : List Char}

theorem cut_bracket {skipped : List Char} {c : Char} (h : c ∉ skipped) (rest : List Char) :
    Text.cut (· == c) (skipped ++ c :: rest) = some (skipped, rest) :=
  Text.cut_append (fun _ hd => beq_eq_false_iff_ne.mpr (ne_of_mem_of_not_mem hd h))
    (beq_self_eq_true c)
    rest

theorem pairLoop_group {skipped pair : List Char} (hskipped : '[' ∉ skipped) (hclose : ']' ∉ pair)
    (rest : List Char) : pairLoop (skipped ++ '[' :: (pair ++ ']' :: rest)) =
      (pairOf pair).toList ++ pairLoop rest := by
  rw [pairLoop_eq, cut_bracket hskipped]
  dsimp only
  rw [cut_bracket hclose]

/-- The loop reads the pairs of the text. -/
theorem mem_pairLoop {r : List Char × List Char} :
    r ∈ pairLoop inner ↔ ∃ p q, PairAt inner p q ∧ r = (unquote p, unquote q) := by
  constructor
  · induction hn : inner.length using Nat.strong_induction_on generalizing inner with
    | _ n ih =>
      subst hn
      intro h
      rw [pairLoop_eq] at h
      cases hopen : Text.cut (· == '[') inner with
      | none => simp [hopen] at h
      | some s =>
        obtain ⟨skipped, opened⟩ := s
        obtain ⟨c, rfl, hc, hskip⟩ := Text.eq_of_cut hopen
        rw [hopen] at h
        dsimp only at h
        cases hclose : Text.cut (· == ']') opened with
        | none => simp [hclose] at h
        | some s =>
          obtain ⟨pair, rest⟩ := s
          obtain ⟨d, rfl, hd, hpair⟩ := Text.eq_of_cut hclose
          rw [hclose] at h
          obtain rfl : c = '[' := by simpa using hc
          obtain rfl : d = ']' := by simpa using hd
          have hskipped : '[' ∉ skipped := fun hmem => absurd (hskip _ hmem) (by decide)
          have hbracket : ']' ∉ pair := fun hmem => absurd (hpair _ hmem) (by decide)
          rcases List.mem_append.mp h with h | h
          · rw [Option.mem_toList, pairOf, Option.map_eq_some_iff] at h
            obtain ⟨⟨p, q⟩, hcomma, rfl⟩ := h
            obtain ⟨e, rfl, he, hp⟩ := Text.eq_of_cut hcomma
            obtain rfl : e = ',' := by simpa using he
            have hp : ',' ∉ p := fun hmem => absurd (hp _ hmem) (by decide)
            exact ⟨p, q, .here rest hskipped hp hbracket, rfl⟩
          · obtain ⟨p, q, hat, hr⟩ := ih rest.length (by simp; omega) rfl h
            exact ⟨p, q, .behind hskipped hbracket hat, hr⟩
  · rintro ⟨p, q, hat, rfl⟩
    induction hat with
    | here rest hskipped hcomma hclose =>
      rw [pairLoop_group hskipped hclose, pairOf, cut_bracket hcomma]
      exact List.mem_append_left _ List.mem_cons_self
    | behind hskipped hclose _ ih =>
      rw [pairLoop_group hskipped hclose]
      exact List.mem_append_right _ ih

theorem mem_of_mem_unquote {c : Char} (h : c ∈ unquote text) : c ∈ text :=
  Text.mem_of_mem_trimMatches (Text.mem_of_mem_trimMatches h)

theorem PairAt.chars (h : PairAt inner p q) {c : Char} (hc : c ∈ unquote p) :
    c ∈ inner ∧ c ≠ ']' ∧ c ≠ ',' := by
  have hmem := mem_of_mem_unquote hc
  clear hc
  induction h with
  | here rest _ hcomma hclose =>
    refine ⟨by simp [hmem], ?_, ne_of_mem_of_not_mem hmem hcomma⟩
    exact ne_of_mem_of_not_mem (List.mem_append_left _ hmem) hclose
  | behind _ _ _ ih =>
    obtain ⟨hin, hne⟩ := ih hmem
    exact ⟨by simp [hin], hne⟩

theorem PairAt.isInfix (h : PairAt inner p q) : '[' :: (p ++ ',' :: q ++ [']']) <:+: inner := by
  induction h with
  | @here skipped _ _ rest _ _ _ => exact ⟨skipped, rest, by simp⟩
  | @behind skipped pair _ _ _ _ _ _ ih =>
    exact ih.trans ⟨skipped ++ '[' :: (pair ++ [']']), [], by simp⟩

theorem PairAt.mem_open (h : PairAt inner p q) : '[' ∈ inner :=
  h.isInfix.subset List.mem_cons_self

theorem extractString_chars {name : List Char} (h : extractString line pat = some name) {c : Char}
    (hc : c ∈ name) : c ∈ line ∧ c ≠ '"' := by
  unfold extractString at h
  cases hafter : Text.after pat line with
  | none => simp [hafter] at h
  | some rest =>
    cases hcut : Text.cut (· == '"') rest with
    | none => simp [hafter, hcut] at h
    | some s =>
      obtain ⟨text, more⟩ := s
      obtain rfl : text = name := by simpa [hafter, hcut] using h
      obtain ⟨d, rfl, -, htext⟩ := Text.eq_of_cut hcut
      refine ⟨(Text.suffix_of_after hafter).subset (by simp [hc]), ?_⟩
      rintro rfl
      exact absurd (htext _ hc) (by decide)

end Pairs

/-- The text closes `depth` brackets more than it opens, and never more. -/
structure Closes (depth : Nat) (text : List Char) : Prop where
  whole : text.count ']' = text.count '[' + depth
  part : ∀ front, front <+: text → front.count ']' ≤ front.count '[' + depth

section Closes

variable {depth n : Nat} {s : List Char} {c : Char}

theorem closes_nil : Closes depth [] ↔ depth = 0 := by
  constructor
  · intro h
    have := h.whole
    simpa using this.symm
  · rintro rfl
    refine ⟨rfl, fun front hfront => ?_⟩
    rw [List.prefix_nil.mp hfront]
    simp

theorem forall_prefix_cons {P : List Char → Prop} :
    (∀ front, front <+: c :: s → P front) ↔ P [] ∧ ∀ front, front <+: s → P (c :: front) := by
  constructor
  · exact fun h => ⟨h [] List.nil_prefix, fun front hfront =>
      h _ (List.cons_prefix_cons.mpr ⟨rfl, hfront⟩)⟩
  · rintro ⟨hnil, hcons⟩ front hfront
    rcases List.prefix_cons_iff.mp hfront with rfl | ⟨rest, rfl, hrest⟩
    · exact hnil
    · exact hcons rest hrest

theorem closes_cons {depth' : Nat} (h : ∀ front : List Char,
    ((c :: front).count ']' = (c :: front).count '[' + depth ↔
        front.count ']' = front.count '[' + depth') ∧
      ((c :: front).count ']' ≤ (c :: front).count '[' + depth ↔
        front.count ']' ≤ front.count '[' + depth')) :
    Closes depth (c :: s) ↔ Closes depth' s := by
  constructor
  · rintro ⟨hwhole, hpart⟩
    exact ⟨(h s).1.mp hwhole, fun front hfront =>
      (h front).2.mp ((forall_prefix_cons.mp hpart).2 front hfront)⟩
  · rintro ⟨hwhole, hpart⟩
    exact ⟨(h s).1.mpr hwhole, forall_prefix_cons.mpr
      ⟨by simp, fun front hfront => (h front).2.mpr (hpart front hfront)⟩⟩

theorem closes_open : Closes depth ('[' :: s) ↔ Closes (depth + 1) s := by
  apply closes_cons
  intro front
  simp only [List.count_cons_self, List.count_cons_of_ne (show '[' ≠ ']' by decide)]
  omega

theorem closes_close : Closes (depth + 1) (']' :: s) ↔ Closes depth s := by
  apply closes_cons
  intro front
  simp only [List.count_cons_self, List.count_cons_of_ne (show ']' ≠ '[' by decide)]
  omega

theorem not_closes_close : ¬ Closes 0 (']' :: s) := fun h =>
  absurd (h.part [']'] (List.cons_prefix_cons.mpr ⟨rfl, List.nil_prefix⟩)) (by decide)

theorem closes_other (hopen : c ≠ '[') (hclose : c ≠ ']') :
    Closes depth (c :: s) ↔ Closes depth s := by
  apply closes_cons
  intro front
  simp only [List.count_cons_of_ne hopen, List.count_cons_of_ne hclose, and_self, iff_self]

theorem closing_eq_some : closing (depth + 1) s = some n ↔
    ∃ inside rest, s = inside ++ ']' :: rest ∧ inside.length = n ∧ Closes depth inside := by
  induction s generalizing depth n with
  | nil => simp [closing]
  | cons c s ih =>
    have hstep : ∀ {depth'}, (∀ inside, Closes depth (c :: inside) ↔ Closes depth' inside) →
        (c = ']' → depth ≠ 0) →
        ((closing (depth' + 1) s).map (· + 1) = some n ↔ ∃ inside rest,
          c :: s = inside ++ ']' :: rest ∧ inside.length = n ∧ Closes depth inside) := by
      intro depth' hcloses hzero
      simp only [Option.map_eq_some_iff, ih]
      constructor
      · rintro ⟨m, ⟨inside, rest, rfl, rfl, h⟩, rfl⟩
        exact ⟨c :: inside, rest, rfl, rfl, (hcloses inside).mpr h⟩
      · rintro ⟨inside, rest, heq, rfl, h⟩
        cases inside with
        | nil => exact absurd (closes_nil.mp h) (hzero (List.cons.inj heq).1)
        | cons d inside =>
          obtain ⟨rfl, rfl⟩ := List.cons.inj heq
          exact ⟨_, ⟨inside, rest, rfl, rfl, (hcloses inside).mp h⟩, rfl⟩
    by_cases hopen : c = '['
    · subst hopen
      rw [closing, if_pos rfl]
      exact hstep (fun _ => closes_open) (by simp)
    by_cases hclose : c = ']'
    · subst hclose
      rw [closing, if_neg hopen, if_pos rfl]
      cases depth with
      | zero =>
        rw [if_pos rfl, Option.some.injEq]
        constructor
        · rintro rfl
          exact ⟨[], s, rfl, rfl, closes_nil.mpr rfl⟩
        · rintro ⟨inside, rest, heq, rfl, h⟩
          cases inside with
          | nil => rfl
          | cons d inside =>
            obtain ⟨rfl, -⟩ := List.cons.inj heq
            exact absurd h not_closes_close
      | succ depth =>
        rw [if_neg (by omega)]
        exact hstep (fun _ => closes_close) (by simp)
    · rw [closing, if_neg hopen, if_neg hclose]
      exact hstep (fun _ => closes_other hopen hclose) fun h => absurd h hclose

end Closes

/-- Behind the opening bracket of a list no closing one follows, or the list's length in
characters is no place in it to cut by bytes. -/
def BrokenList (opened : List Char) : Prop :=
  ¬ ∃ inside rest front, opened = inside ++ ']' :: rest ∧ Closes 0 inside ∧ front <+: opened ∧
    Text.byteLength front = inside.length

/-- The list behind a label, from its opening bracket on. -/
def ListAfter (line pat opened : List Char) : Prop :=
  ∃ rest skipped, Text.after pat line = some rest ∧
    Text.cut (· == '[') rest = some (skipped, opened)

/-- A line with a key, a name and a list of which the first one that is broken. -/
def Broken (line : List Char) : Prop :=
  (∃ key, extractU64 line "\"key\":".toList = some key) ∧
    (∃ name, extractString line "\"fn\":\"".toList = some name) ∧
    ∃ ensures, ListAfter line "\"ensures\":".toList ensures ∧
      (BrokenList ensures ∨
        ∃ invariants, ListAfter line "\"invariants\":".toList invariants ∧ BrokenList invariants)

section Broken

variable {line pat opened : List Char}

theorem listResults_eq_error : listResults opened = .error .slice ↔ BrokenList opened := by
  have hclosing : ∀ {n}, closing 1 opened = some n ↔ ∃ inside rest,
      opened = inside ++ ']' :: rest ∧ inside.length = n ∧ Closes 0 inside := closing_eq_some
  unfold listResults BrokenList
  cases hcount : closing 1 opened with
  | none =>
    refine iff_of_true rfl ?_
    rintro ⟨inside, rest, front, heq, hcloses, -⟩
    have hsome := hclosing.mpr ⟨inside, rest, heq, rfl, hcloses⟩
    rw [hcount] at hsome
    cases hsome
  | some count =>
    obtain ⟨inside, rest, heq, hlength, hcloses⟩ := hclosing.mp hcount
    have htake : (∃ inner, Text.takeBytes count opened = some inner) ↔
        ∃ inside rest front, opened = inside ++ ']' :: rest ∧ Closes 0 inside ∧ front <+: opened ∧
          Text.byteLength front = inside.length := by
      constructor
      · rintro ⟨inner, hinner⟩
        obtain ⟨hfront, hbytes⟩ := Text.takeBytes_eq_some.mp hinner
        exact ⟨inside, rest, inner, heq, hcloses, hfront, by rw [hbytes, hlength]⟩
      · rintro ⟨inside', rest', front, heq', hcloses', hfront, hbytes⟩
        have hsame := hclosing.mpr ⟨inside', rest', heq', rfl, hcloses'⟩
        obtain rfl := Option.some.inj (hcount.symm.trans hsame)
        exact ⟨front, Text.takeBytes_eq_some.mpr ⟨hfront, hbytes⟩⟩
    rw [← htake]
    cases h : Text.takeBytes count opened with
    | none => simp [h]
    | some inner => simp [h]

theorem extract_eq_error : extractClauseResults line pat = .error .slice ↔
    ∃ opened, ListAfter line pat opened ∧ BrokenList opened := by
  unfold extractClauseResults ListAfter
  cases hafter : Text.after pat line with
  | none => simp
  | some rest =>
    cases hcut : Text.cut (· == '[') rest with
    | none => simp [hcut]
    | some s =>
      obtain ⟨skipped, opened⟩ := s
      have hmap : (listResults opened).map some = .error .slice ↔
          listResults opened = .error .slice := by
        cases listResults opened <;> simp [Except.map]
      simp [hcut, hmap, listResults_eq_error]

/-- Whether there is a list behind a label, broken or not. -/
theorem extract_eq_none : extractClauseResults line pat = .ok none ↔
    ¬ ∃ opened, ListAfter line pat opened := by
  unfold extractClauseResults ListAfter
  cases hafter : Text.after pat line with
  | none => simp
  | some rest =>
    cases hcut : Text.cut (· == '[') rest with
    | none => simp [hcut]
    | some s =>
      obtain ⟨skipped, opened⟩ := s
      cases h : listResults opened <;> simp [hcut, h, Except.map]

theorem parseLine_eq_error : parseLine line = .error .slice ↔ Broken line := by
  unfold parseLine Broken
  cases hkey : extractU64 line "\"key\":".toList with
  | none => simp
  | some key =>
    cases hname : extractString line "\"fn\":\"".toList with
    | none => simp
    | some name =>
      have hinv : extractClauseResults line "\"invariants\":".toList = .error .slice ↔
          ∃ opened, ListAfter line "\"invariants\":".toList opened ∧ BrokenList opened :=
        extract_eq_error
      cases hensures : extractClauseResults line "\"ensures\":".toList with
      | error p =>
        cases p
        obtain ⟨ensures, hlist, hbroken⟩ := extract_eq_error.mp hensures
        exact iff_of_true rfl ⟨⟨key, rfl⟩, ⟨name, rfl⟩, ensures, hlist, Or.inl hbroken⟩
      | ok results =>
        have hwhole : ∀ ensures, ListAfter line "\"ensures\":".toList ensures →
            ¬ BrokenList ensures :=
          fun ensures hlist hbroken => by
            rw [extract_eq_error.mpr ⟨ensures, hlist, hbroken⟩] at hensures
            cases hensures
        cases results with
        | none =>
          refine iff_of_false (by simp [bind, Except.bind]) ?_
          rintro ⟨-, -, ensures, hlist, -⟩
          exact extract_eq_none.mp hensures ⟨ensures, hlist⟩
        | some results =>
          have hlist : ∃ ensures, ListAfter line "\"ensures\":".toList ensures := by
            by_contra hlist
            rw [extract_eq_none.mpr hlist] at hensures
            cases hensures
          obtain ⟨ensures, hlist⟩ := hlist
          trans extractClauseResults line "\"invariants\":".toList = .error .slice
          · cases extractClauseResults line "\"invariants\":".toList with
            | error p => simp [bind, Except.bind]
            | ok invariants => cases invariants <;> simp [bind, Except.bind]
          · rw [hinv]
            constructor
            · exact fun h => ⟨⟨key, rfl⟩, ⟨name, rfl⟩, ensures, hlist, Or.inr h⟩
            · rintro ⟨-, -, ensures', hlist', hbroken | h⟩
              · exact absurd hbroken (hwhole _ hlist')
              · exact h

end Broken

/-- What is cut out of a list behind its opening bracket: as many bytes as characters stand before
the closing one. -/
def Inner (opened inner : List Char) : Prop :=
  ∃ inside rest, opened = inside ++ ']' :: rest ∧ Closes 0 inside ∧ inner <+: opened ∧
    Text.byteLength inner = inside.length

/-- A pair of the list of ensures clauses or of that of invariants. -/
def PairIn (line p q : List Char) : Prop :=
  ∃ pat ∈ ["\"ensures\":".toList, "\"invariants\":".toList], ∃ opened inner,
    ListAfter line pat opened ∧ Inner opened inner ∧ PairAt inner p q

section Lines

variable {opened inner line pat p q : List Char} {results : List (List Char × List Char)}
  {r : List Char × List Char} {key : UInt64} {entry : CacheEntry}

theorem inner_iff : Inner opened inner ↔
    ∃ count, closing 1 opened = some count ∧ Text.takeBytes count opened = some inner := by
  constructor
  · rintro ⟨inside, rest, heq, hcloses, hfront, hbytes⟩
    exact ⟨inside.length, closing_eq_some.mpr ⟨inside, rest, heq, rfl, hcloses⟩,
      Text.takeBytes_eq_some.mpr ⟨hfront, hbytes⟩⟩
  · rintro ⟨count, hcount, htake⟩
    obtain ⟨inside, rest, heq, rfl, hcloses⟩ := closing_eq_some.mp hcount
    obtain ⟨hfront, hbytes⟩ := Text.takeBytes_eq_some.mp htake
    exact ⟨inside, rest, heq, hcloses, hfront, hbytes⟩

theorem trim_ne_nil (h : '[' ∈ inner) : Text.trim inner ≠ [] := by
  intro hnil
  rw [Text.trim, Text.trimMatches, List.rdropWhile_eq_nil_iff] at hnil
  have hall : ∀ c ∈ inner, Text.isWhitespace c = true := by
    intro c hc
    rw [← @List.takeWhile_append_dropWhile _ Text.isWhitespace inner] at hc
    rcases List.mem_append.mp hc with hc | hc
    · exact List.mem_takeWhile_imp hc
    · exact hnil c hc
  exact absurd (hall _ h) (by decide)

theorem mem_listResults (h : listResults opened = .ok results) :
    r ∈ results ↔ ∃ inner, Inner opened inner ∧
      ∃ p q, PairAt inner p q ∧ r = (unquote p, unquote q) := by
  unfold listResults at h
  cases hcount : closing 1 opened with
  | none => simp [hcount] at h
  | some count =>
    rw [hcount] at h
    dsimp only at h
    cases htake : Text.takeBytes count opened with
    | none => simp [htake] at h
    | some inner =>
      rw [htake] at h
      obtain rfl := Except.ok.inj h
      have hinner : ∀ inner', Inner opened inner' ↔ inner' = inner := by
        intro inner'
        simp [inner_iff, hcount, htake, eq_comm]
      simp only [hinner, exists_eq_left, ← mem_pairLoop]
      split
      · next hblank =>
        have hnone : r ∉ pairLoop inner := fun hmem => by
          obtain ⟨p, q, hat, -⟩ := mem_pairLoop.mp hmem
          exact trim_ne_nil hat.mem_open hblank
        simp [hnone]
      · rfl

theorem mem_extract (h : extractClauseResults line pat = .ok (some results)) :
    r ∈ results ↔ ∃ opened, ListAfter line pat opened ∧ ∃ inner, Inner opened inner ∧
      ∃ p q, PairAt inner p q ∧ r = (unquote p, unquote q) := by
  unfold extractClauseResults at h
  cases hafter : Text.after pat line with
  | none => simp [hafter] at h
  | some rest =>
    cases hcut : Text.cut (· == '[') rest with
    | none => simp [hafter, hcut] at h
    | some s =>
      obtain ⟨skipped, opened⟩ := s
      simp only [hafter, hcut] at h
      have hlist : ∀ opened', ListAfter line pat opened' ↔ opened' = opened := by
        intro opened'
        simp [ListAfter, hafter, hcut, eq_comm]
      simp only [hlist, exists_eq_left, mem_listResults (eq_ok_of_map_some h)]

/-- What a line is read as has its pairs, without blanks and quotation marks. -/
theorem mem_parseLine (h : parseLine line = .ok (some (key, entry))) :
    r ∈ entry.ensuresResults ++ entry.invariantsResults ↔
      ∃ p q, PairIn line p q ∧ r = (unquote p, unquote q) := by
  obtain ⟨-, -, hensures, hinvariants⟩ := parseLine_eq_some.mp h
  rw [List.mem_append, mem_extract hensures, mem_extract hinvariants]
  simp only [PairIn, List.mem_cons, List.not_mem_nil, or_false, exists_eq_or_imp,
    exists_eq_left]
  constructor
  · rintro (⟨opened, hlist, inner, hinner, p, q, hat, hr⟩ |
      ⟨opened, hlist, inner, hinner, p, q, hat, hr⟩)
    · exact ⟨p, q, Or.inl ⟨opened, inner, hlist, hinner, hat⟩, hr⟩
    · exact ⟨p, q, Or.inr ⟨opened, inner, hlist, hinner, hat⟩, hr⟩
  · rintro ⟨p, q, ⟨opened, inner, hlist, hinner, hat⟩ | ⟨opened, inner, hlist, hinner, hat⟩, hr⟩
    · exact Or.inl ⟨opened, hlist, inner, hinner, p, q, hat, hr⟩
    · exact Or.inr ⟨opened, hlist, inner, hinner, p, q, hat, hr⟩

theorem Inner.isInfix (hlist : ListAfter line pat opened) (h : Inner opened inner) :
    inner <:+: line := by
  obtain ⟨rest, skipped, hafter, hcut⟩ := hlist
  obtain ⟨_, _, _, _, hfront, _⟩ := h
  obtain ⟨c, rfl, -, -⟩ := Text.eq_of_cut hcut
  exact hfront.isInfix.trans (((List.suffix_cons c opened).trans
    (List.suffix_append skipped _)).isInfix.trans (Text.suffix_of_after hafter).isInfix)

theorem PairIn.chars (h : PairIn line p q) {c : Char} (hc : c ∈ unquote p) :
    c ∈ line ∧ c ≠ ']' ∧ c ≠ ',' := by
  obtain ⟨pat, -, opened, inner, hlist, hinner, hat⟩ := h
  obtain ⟨hmem, hne⟩ := hat.chars hc
  exact ⟨(Inner.isInfix hlist hinner).subset hmem, hne⟩

theorem PairIn.isInfix (h : PairIn line p q) : '[' :: (p ++ ',' :: q ++ [']']) <:+: line := by
  obtain ⟨pat, -, opened, inner, hlist, hinner, hat⟩ := h
  exact hat.isInfix.trans (Inner.isInfix hlist hinner)

/-- A line that has a key, a name and both lists. -/
def Readable (line : List Char) (key : UInt64) : Prop :=
  extractU64 line "\"key\":".toList = some key ∧
    (∃ name, extractString line "\"fn\":\"".toList = some name) ∧
    (∃ opened, ListAfter line "\"ensures\":".toList opened) ∧
      ∃ opened, ListAfter line "\"invariants\":".toList opened

theorem extract_eq_some (hbroken : extractClauseResults line pat ≠ .error .slice) :
    (∃ results, extractClauseResults line pat = .ok (some results)) ↔
      ∃ opened, ListAfter line pat opened := by
  cases h : extractClauseResults line pat with
  | error e =>
    cases e
    exact absurd h hbroken
  | ok results =>
    cases results with
    | none => simp [extract_eq_none.mp h]
    | some results =>
      refine iff_of_true ⟨results, rfl⟩ ?_
      by_contra hnone
      rw [extract_eq_none.mpr hnone] at h
      cases h

theorem readable_iff (hbroken : parseLine line ≠ .error .slice) :
    Readable line key ↔ ∃ entry, parseLine line = .ok (some (key, entry)) := by
  simp only [parseLine_eq_some]
  constructor
  · rintro ⟨hkey, ⟨name, hname⟩, hensures, hinvariants⟩
    rw [Ne, parseLine_eq_error] at hbroken
    have hfirst : extractClauseResults line "\"ensures\":".toList ≠ .error .slice := fun h => by
      obtain ⟨opened, hlist, hlost⟩ := extract_eq_error.mp h
      exact hbroken ⟨⟨key, hkey⟩, ⟨name, hname⟩, opened, hlist, Or.inl hlost⟩
    obtain ⟨opened, hopened⟩ := hensures
    have hsecond : extractClauseResults line "\"invariants\":".toList ≠ .error .slice := fun h =>
      hbroken ⟨⟨key, hkey⟩, ⟨name, hname⟩, opened, hopened, Or.inr (extract_eq_error.mp h)⟩
    obtain ⟨es, hes⟩ := (extract_eq_some hfirst).mpr ⟨opened, hopened⟩
    obtain ⟨is, his⟩ := (extract_eq_some hsecond).mpr hinvariants
    exact ⟨⟨name, es, is⟩, hkey, hname, hes, his⟩
  · rintro ⟨entry, hkey, hname, hensures, hinvariants⟩
    refine ⟨hkey, ⟨_, hname⟩, ?_, ?_⟩
    · exact (extract_eq_some (by rw [hensures]; simp)).mp ⟨_, hensures⟩
    · exact (extract_eq_some (by rw [hinvariants]; simp)).mp ⟨_, hinvariants⟩

end Lines

end Airl.Solver.DiskCache
