import Airl.Library.Returns
import Airl.Policy.Baseline

/-! # Writing a baseline and reading it back

A baseline is read back from the file it is written to just if no key of it uses a character with
which the file is made: a comma, a closing bracket, a line end, or a number sign that the reader
takes for the end of the path or for a comment.
-/

namespace Airl.Policy

/-- The two baselines allow the same. -/
structure SameEntries (a b : Baseline) : Prop where
  version : a.version = b.version
  checked : ∀ key, key ∈ a.grandfatheredChecked ↔ key ∈ b.grandfatheredChecked
  trusted : ∀ key, key ∈ a.grandfatheredTrusted ↔ key ∈ b.grandfatheredTrusted

/-- The key is an element of an array and nothing else: no number sign stands in its path, none
behind quotation marks that are paired, and no comma, bracket or line end anywhere. -/
structure Plain (key : BaselineKey) : Prop where
  path : '#' ∉ key.path
  element : ',' ∉ key.text
  array : ']' ∉ key.text
  line : '\n' ∉ key.text
  quoted : stripComment true key.text = key.text

/-! ## Keys -/

theorem not_mem_of_cut {p : Char → Bool} {s : List Char} (h : Text.cut p s = none) :
    ∀ c ∈ s, p c = false := by
  induction s with
  | nil =>
    intro c hc
    cases hc
  | cons d s ih =>
    unfold Text.cut at h
    split at h
    · cases h
    · next hd =>
        intro c hc
        rcases List.mem_cons.mp hc with rfl | hc
        · exact Bool.eq_false_iff.mpr hd
        · exact ih (Option.map_eq_none_iff.mp h) c hc

/-- A parsed key has the text it was read from, and no `#` in its path. -/
theorem BaselineKey.parse_spec (s : List Char) :
    (BaselineKey.parse s).text = s ∧ '#' ∉ (BaselineKey.parse s).path := by
  unfold BaselineKey.parse
  cases hcut : Text.cut (· == '#') s with
  | none =>
    refine ⟨rfl, ?_⟩
    intro h
    have hfalse := not_mem_of_cut hcut '#' h
    cases hfalse
  | some parts =>
    obtain ⟨path, name⟩ := parts
    obtain ⟨c, rfl, hc, hpath⟩ := Text.eq_of_cut hcut
    rw [eq_of_beq hc]
    refine ⟨rfl, ?_⟩
    intro h
    have hfalse := hpath '#' h
    cases hfalse

/-- A key without `#` in its path reads back as itself. -/
theorem BaselineKey.parse_text {key : BaselineKey} (h : '#' ∉ key.path) :
    BaselineKey.parse key.text = key := by
  have hpath : ∀ c ∈ key.path, (c == '#') = false := by
    intro c hc
    apply beq_eq_false_iff_ne.mpr
    rintro rfl
    exact h hc
  obtain ⟨path, name⟩ := key
  cases name with
  | none =>
    unfold BaselineKey.parse BaselineKey.text
    rw [Text.cut_eq_none hpath]
  | some n =>
    unfold BaselineKey.parse BaselineKey.text
    rw [Text.cut_append hpath (by decide)]

theorem mem_dedup {key : BaselineKey} (keys : List BaselineKey) : key ∈ dedup keys ↔
    key ∈ keys := by
  fun_induction dedup keys with
  | case1 b keys ih =>
    rw [ih]
    simp only [List.mem_cons]
    tauto
  | case2 a b keys hne ih =>
    rw [List.mem_cons, ih]
    exact List.mem_cons.symm
  | case3 keys hshort => rfl

theorem mem_sorted {key : BaselineKey} {keys : List BaselineKey} :
    key ∈ sorted keys ↔ key ∈ keys := by
  rw [sorted, mem_dedup, List.mem_mergeSort]

/-! ## What is read -/

variable {buf inner : List Char} {lines : List (List Char)} {entries : List (List Char)}

theorem mem_of_mem_stripComment {c : Char} {inString : Bool} {line : List Char}
    (h : c ∈ stripComment inString line) : c ∈ line := by
  fun_induction stripComment inString line with
  | case1 => exact h
  | case2 inString cs ih =>
    rcases List.mem_cons.mp h with rfl | h
    · exact List.mem_cons_self
    · exact List.mem_cons_of_mem _ (ih h)
  | case3 => cases h
  | case4 inString d cs hquote hsign ih =>
    rcases List.mem_cons.mp h with rfl | h
    · exact List.mem_cons_self
    · exact List.mem_cons_of_mem _ (ih h)

theorem mem_of_mem_trim {c : Char} {s : List Char} (h : c ∈ Text.trim s) : c ∈ s :=
  Text.mem_of_mem_trimMatches h

theorem mem_of_mem_content {c : Char} {line : List Char} (h : c ∈ content line) : c ∈ line :=
  mem_of_mem_stripComment (mem_of_mem_trim h)

/-- Gathering an array takes whole lines. -/
theorem gather_lines (hbuf : '\n' ∉ buf) (hlines : ∀ line ∈ lines, '\n' ∉ line) :
    '\n' ∉ (gather buf lines).1 ∧ ∀ line ∈ (gather buf lines).2.1, '\n' ∉ line := by
  induction lines generalizing buf with
  | nil => exact ⟨hbuf, hlines⟩
  | cons next lines ih =>
    have hnext : '\n' ∉ buf ++ ' ' :: content next := by
      intro h
      rcases List.mem_append.mp h with h | h
      · exact hbuf h
      · rcases List.mem_cons.mp h with h | h
        · cases h
        · exact hlines next List.mem_cons_self (mem_of_mem_content h)
    have hlater : ∀ line ∈ lines, '\n' ∉ line := fun line h =>
      hlines line (List.mem_cons_of_mem _ h)
    rw [gather]
    split
    · exact ⟨hnext, hlater⟩
    · exact ih hnext hlater

/-- Unquoting takes the outer quotes off and nothing else. -/
theorem unquote_eq_ok {p s : List Char} : unquote p = .ok s ↔ p = '"' :: (s ++ ['"']) := by
  unfold unquote
  cases hopen : ['"'].isPrefixOf? p with
  | none =>
    constructor
    · intro h
      cases h
    · rintro rfl
      cases hopen
  | some opened =>
    have hp : '"' :: opened = p := List.append_eq_of_isPrefixOf?_eq_some hopen
    rw [← hp, List.cons.injEq]
    cases hclose : ['"'].isSuffixOf? opened with
    | none =>
      rw [Option.bind_some, hclose]
      constructor
      · intro h
        cases h
      · intro h
        rw [List.isSuffixOf?_eq_some_iff_append_eq.mpr h.2.symm] at hclose
        cases hclose
    | some s' =>
      have hs : s' ++ ['"'] = opened := List.append_eq_of_isSuffixOf?_eq_some hclose
      rw [Option.bind_some, hclose, ← hs]
      constructor
      · intro h
        cases h
        exact ⟨rfl, rfl⟩
      · intro h
        exact congrArg Except.ok (List.append_cancel_right h.2)

theorem of_mem_elements (h : elements inner = .ok entries) :
    ∀ e ∈ entries, ∃ piece ∈ inner.splitOn ',', Text.trim piece = '"' :: (e ++ ['"']) := by
  unfold elements at h
  split at h
  · cases h
    intro e he
    cases he
  · intro e he
    obtain ⟨p, hp, hunquote⟩ := exists_of_mem_mapM h he
    obtain ⟨piece, hpiece, rfl⟩ := List.mem_map.mp (List.mem_of_mem_filter hp)
    exact ⟨piece, hpiece, unquote_eq_ok.mp hunquote⟩

/-- What can be read as a key. -/
structure Readable (key : BaselineKey) : Prop where
  path : '#' ∉ key.path
  element : ',' ∉ key.text
  line : '\n' ∉ key.text

theorem readable_of_elements (hinner : '\n' ∉ inner) (h : elements inner = .ok entries) :
    ∀ key ∈ entries.map BaselineKey.parse, Readable key := by
  intro key hkey
  obtain ⟨e, he, rfl⟩ := List.mem_map.mp hkey
  obtain ⟨piece, hpiece, htrim⟩ := of_mem_elements h e he
  obtain ⟨htext, hpath⟩ := BaselineKey.parse_spec e
  have hmem {c : Char} (hc : c ∈ e) : c ∈ piece := by
    apply mem_of_mem_trim
    rw [htrim]
    exact List.mem_cons_of_mem _ (List.mem_append_left _ hc)
  refine ⟨hpath, ?_, ?_⟩
  · rw [htext]
    intro hc
    exact Text.not_mem_of_mem_splitOn hpiece (hmem hc)
  · rw [htext]
    intro hc
    exact hinner ((Text.sublist_of_mem_splitOn hpiece).mem (hmem hc))

theorem mem_of_unbracket {c : Char} (h : unbracket buf = .ok inner) (hc : c ∈ inner) : c ∈ buf := by
  unfold unbracket at h
  split at h
  · cases h
  · next opened hopened =>
    split at h
    · cases h
    · next inner' hinner =>
      cases h
      have hclosed := List.append_eq_of_isSuffixOf?_eq_some hinner
      have htrim := List.append_eq_of_isPrefixOf?_eq_some hopened
      have hc : c ∈ inner' ++ [']'] := List.mem_append_left _ (mem_of_mem_trim hc)
      rw [hclosed] at hc
      have hc := (List.rdropWhile_prefix _ _).mem hc
      apply mem_of_mem_trim
      rw [← htrim]
      exact List.mem_append_right _ hc

theorem readable_of_parseArray {afterName : List Char}
    {rest : {rest : List (List Char) // rest.length ≤ lines.length}} (hname : '\n' ∉ afterName)
    (hlines : ∀ line ∈ lines, '\n' ∉ line) (h : parseArray afterName lines = .ok (entries, rest)) :
    (∀ key ∈ entries.map BaselineKey.parse, Readable key) ∧ ∀ line ∈ rest.1, '\n' ∉ line := by
  unfold parseArray at h
  split at h
  · cases h
  · next opened hopened =>
    have hbuf : '\n' ∉ opened.dropWhile Text.isWhitespace := by
      intro hc
      have hc : '\n' ∈ ['='] ++ opened :=
        List.mem_append_right _ ((List.dropWhile_sublist _).mem hc)
      rw [List.append_eq_of_isPrefixOf?_eq_some hopened] at hc
      exact hname ((List.dropWhile_sublist _).mem hc)
    dsimp only at h
    split at h
    · cases h
    · next inner hinner =>
      cases helements : elements inner with
      | error e =>
        rw [helements] at h
        cases h
      | ok read =>
        rw [helements] at h
        cases h
        by_cases hclosed : ']' ∈ opened.dropWhile Text.isWhitespace
        · rw [if_pos hclosed] at hinner ⊢
          exact ⟨readable_of_elements (fun hc => hbuf (mem_of_unbracket hinner hc)) helements,
            hlines⟩
        · rw [if_neg hclosed] at hinner ⊢
          obtain ⟨hjoined, hrest⟩ := gather_lines hbuf hlines
          exact ⟨readable_of_elements (fun hc => hjoined (mem_of_unbracket hinner hc)) helements,
            hrest⟩

theorem readable_of_readLines {st st' : Reading} (hlines : ∀ line ∈ lines, '\n' ∉ line)
    (hchecked : ∀ key ∈ st.checked, Readable key) (htrusted : ∀ key ∈ st.trusted, Readable key)
    (h : readLines st lines = .ok st') :
    (∀ key ∈ st'.checked, Readable key) ∧ ∀ key ∈ st'.trusted, Readable key := by
  induction hn : lines.length using Nat.strongRecOn generalizing lines st with
  | _ n ih =>
    subst hn
    cases lines with
    | nil =>
      rw [readLines] at h
      cases h
      exact ⟨hchecked, htrusted⟩
    | cons raw lines =>
      have hlater : ∀ line ∈ lines, '\n' ∉ line := fun line hline =>
        hlines line (List.mem_cons_of_mem _ hline)
      have hcontent {rest name : List Char} (hname : name.isPrefixOf? (content raw) = some rest) :
          '\n' ∉ rest := by
        intro hc
        have hc : '\n' ∈ name ++ rest := List.mem_append_right _ hc
        rw [List.append_eq_of_isPrefixOf?_eq_some hname] at hc
        exact hlines raw List.mem_cons_self (mem_of_mem_content hc)
      rw [readLines] at h
      split at h
      · exact ih lines.length (Nat.lt_succ_self _) hlater hchecked htrusted h rfl
      split at h
      · split at h
        · cases h
        · next n hversion =>
          exact @ih lines.length (Nat.lt_succ_self _) lines { st with version := some n } hlater
            hchecked htrusted h rfl
      split at h
      · next rest hname =>
        split at h
        · cases h
        · next entries rest' hrest harray =>
          obtain ⟨hkeys, hrest'⟩ := readable_of_parseArray (hcontent hname) hlater harray
          exact @ih rest'.length (Nat.lt_succ_of_le hrest) rest'
            { st with checked := entries.map BaselineKey.parse } hrest' hkeys htrusted h rfl
      split at h
      · next rest hname =>
        split at h
        · cases h
        · next entries rest' hrest harray =>
          obtain ⟨hkeys, hrest'⟩ := readable_of_parseArray (hcontent hname) hlater harray
          exact @ih rest'.length (Nat.lt_succ_of_le hrest) rest'
            { st with trusted := entries.map BaselineKey.parse } hrest' hchecked hkeys h rfl
      · cases h

theorem parse_eq_ok {src : List Char} {b : Baseline} :
    parse src = .ok b ↔ ∃ st, readLines ⟨none, [], []⟩ (Text.textLines src) = .ok st ∧
      st.version = some b.version ∧ st.checked = b.grandfatheredChecked ∧
      st.trusted = b.grandfatheredTrusted := by
  unfold parse
  cases hread : readLines ⟨none, [], []⟩ (Text.textLines src) with
  | error e =>
    constructor
    · intro h
      cases h
    · intro h
      obtain ⟨st, hst, -⟩ := h
      cases hst
  | ok st =>
    constructor
    · intro h
      dsimp only at h
      cases hversion : st.version with
      | none =>
        rw [hversion] at h
        cases h
      | some version =>
        rw [hversion] at h
        cases h
        exact ⟨st, rfl, hversion, rfl, rfl⟩
    · intro h
      obtain ⟨st', hst, hversion, hchecked, htrusted⟩ := h
      cases hst
      dsimp only
      rw [hversion, hchecked, htrusted]

/-- Every key of a parsed baseline is readable. -/
theorem readable_of_parse {src : List Char} {b : Baseline} (h : parse src = .ok b) :
    (∀ key ∈ b.grandfatheredChecked, Readable key) ∧
      ∀ key ∈ b.grandfatheredTrusted, Readable key := by
  obtain ⟨st, hread, -, hchecked, htrusted⟩ := parse_eq_ok.mp h
  have hkeys := readable_of_readLines (fun line hline => Text.not_mem_of_mem_textLines hline)
    (fun key hkey => absurd hkey List.not_mem_nil) (fun key hkey => absurd hkey List.not_mem_nil)
    hread
  rw [hchecked, htrusted] at hkeys
  exact hkeys

/-! ## The lines that are written -/

/-- Each number sign stands in quotation marks, of which none are open behind a comma. -/
def signsQuoted (inString : Bool) : List Char → Bool
  | [] => true
  | c :: cs =>
    if c = '"' then signsQuoted (!inString) cs
    else if c = '#' then inString && signsQuoted inString cs
    else if c = ',' then signsQuoted false cs
    else signsQuoted inString cs

/-- Whether quotation marks are open at the end. -/
def openAfter (inString : Bool) : List Char → Bool
  | [] => inString
  | c :: cs =>
    if c = '"' then openAfter (!inString) cs
    else if c = ',' then openAfter false cs
    else openAfter inString cs

/-- The signs of a joined text are quoted if those of both parts are. -/
theorem signsQuoted_append (inString : Bool) (s t : List Char) :
    signsQuoted inString (s ++ t) =
      (signsQuoted inString s && signsQuoted (openAfter inString s) t) := by
  induction s generalizing inString with
  | nil => rfl
  | cons c s ih =>
    simp only [List.cons_append, signsQuoted, openAfter, ih]
    split
    · rfl
    · split
      · next hsign =>
        rw [if_neg (by rw [hsign]; decide), Bool.and_assoc]
      · split
        · rfl
        · rfl

theorem openAfter_append (inString : Bool) (s t : List Char) :
    openAfter inString (s ++ t) = openAfter (openAfter inString s) t := by
  induction s generalizing inString with
  | nil => rfl
  | cons c s ih =>
    simp only [List.cons_append, openAfter, ih]
    split
    · rfl
    · split
      · rfl
      · rfl

theorem signsQuoted_space {s : List Char} (h : ∀ c ∈ s, Text.isWhitespace c = true)
    (inString : Bool) : signsQuoted inString s = true ∧ openAfter inString s = inString := by
  induction s with
  | nil => exact ⟨rfl, rfl⟩
  | cons c s ih =>
    have hc := h c List.mem_cons_self
    have hrest := ih fun d hd => h d (List.mem_cons_of_mem _ hd)
    have hother {d : Char} (hd : Text.isWhitespace d = false) : c ≠ d := by
      rintro rfl
      rw [hc] at hd
      cases hd
    rw [signsQuoted, openAfter, if_neg (hother (by decide)), if_neg (hother (by decide)),
      if_neg (hother (by decide)), if_neg (hother (by decide)), if_neg (hother (by decide))]
    exact hrest

theorem trim_parts (s : List Char) : ∃ before after, s = before ++ Text.trim s ++ after ∧
    (∀ c ∈ before, Text.isWhitespace c = true) ∧ ∀ c ∈ after, Text.isWhitespace c = true := by
  refine ⟨s.takeWhile Text.isWhitespace,
    (s.dropWhile Text.isWhitespace).rtakeWhile Text.isWhitespace, ?_,
    fun c hc => List.mem_takeWhile_imp hc, fun c hc => List.mem_rtakeWhile_imp hc⟩
  rw [List.append_assoc, Text.trim, Text.trimMatches, List.rdropWhile_append_rtakeWhile,
    List.takeWhile_append_dropWhile]

theorem signsQuoted_trim (inString : Bool) (s : List Char) :
    signsQuoted inString (Text.trim s) = signsQuoted inString s ∧
      openAfter inString (Text.trim s) = openAfter inString s := by
  obtain ⟨before, after, hs, hbefore, hafter⟩ := trim_parts s
  obtain ⟨hquoted, hopen⟩ := signsQuoted_space hbefore inString
  obtain ⟨hquoted', hopen'⟩ :=
    signsQuoted_space hafter (openAfter inString (Text.trim s))
  have hsigns := congrArg (signsQuoted inString) hs
  have hopens := congrArg (openAfter inString) hs
  rw [List.append_assoc, signsQuoted_append, hquoted, hopen, signsQuoted_append, hquoted',
    Bool.true_and, Bool.and_true] at hsigns
  rw [List.append_assoc, openAfter_append, hopen, openAfter_append, hopen'] at hopens
  exact ⟨hsigns.symm, hopens.symm⟩

/-- A line with one comma, at its end, has its signs quoted once its comment is gone. -/
theorem stripComment_closed {line : List Char} (h : ',' ∉ line) (inString : Bool) :
    signsQuoted inString (stripComment inString (line ++ [','])) = true ∧
      openAfter inString (stripComment inString (line ++ [','])) = false := by
  induction line generalizing inString with
  | nil => exact ⟨rfl, rfl⟩
  | cons c line ih =>
    have hc : c ≠ ',' := fun heq => h (by rw [heq]; exact List.mem_cons_self)
    have hrest := ih fun hmem => h (List.mem_cons_of_mem _ hmem)
    rw [List.cons_append, stripComment]
    by_cases hquote : c = '"'
    · rw [if_pos hquote, signsQuoted, openAfter, if_pos hquote, if_pos hquote]
      exact hrest _
    · rw [if_neg hquote]
      by_cases hsign : c = '#' ∧ inString = false
      · rw [if_pos hsign]
        exact ⟨rfl, hsign.2⟩
      · rw [if_neg hsign, signsQuoted, openAfter, if_neg hquote, if_neg hquote, if_neg hc,
          if_neg hc]
        refine ⟨?_, (hrest _).2⟩
        split
        · next heq =>
          have hin : inString = true := by
            cases inString with
            | false => exact absurd ⟨heq, rfl⟩ hsign
            | true => rfl
          rw [(hrest _).1, hin]
          rfl
        · exact (hrest _).1

/-- Of a text whose signs are quoted every piece between commas has them quoted. -/
theorem signsQuoted_pieces {inString : Bool} {s : List Char} (h : signsQuoted inString s = true) :
    ∃ first pieces, s.splitOn ',' = first :: pieces ∧ signsQuoted inString first = true ∧
      ∀ piece ∈ pieces, signsQuoted false piece = true := by
  induction s generalizing inString with
  | nil => exact ⟨[], [], rfl, rfl, fun piece hp => absurd hp List.not_mem_nil⟩
  | cons c s ih =>
    rw [signsQuoted] at h
    rw [List.splitOn_cons_eq_if_modifyHead]
    by_cases hcomma : c = ','
    · subst hcomma
      rw [if_neg (by decide), if_neg (by decide), if_pos rfl] at h
      obtain ⟨first, pieces, hsplit, hfirst, hpieces⟩ := ih h
      refine ⟨[], first :: pieces, by simp [hsplit], rfl, ?_⟩
      intro piece hpiece
      rcases List.mem_cons.mp hpiece with rfl | hpiece
      · exact hfirst
      · exact hpieces piece hpiece
    · have hne : (c == ',') = false := beq_eq_false_iff_ne.mpr hcomma
      rw [hne]
      by_cases hquote : c = '"'
      · rw [if_pos hquote] at h
        obtain ⟨first, pieces, hsplit, hfirst, hpieces⟩ := ih h
        refine ⟨c :: first, pieces, by simp [hsplit], ?_, hpieces⟩
        rw [signsQuoted, if_pos hquote]
        exact hfirst
      · rw [if_neg hquote] at h
        by_cases hsign : c = '#'
        · rw [if_pos hsign, Bool.and_eq_true] at h
          obtain ⟨first, pieces, hsplit, hfirst, hpieces⟩ := ih h.2
          refine ⟨c :: first, pieces, by simp [hsplit], ?_, hpieces⟩
          rw [signsQuoted, if_neg hquote, if_pos hsign, h.1, Bool.true_and]
          rw [h.1] at hfirst
          exact hfirst
        · rw [if_neg hsign, if_neg hcomma] at h
          obtain ⟨first, pieces, hsplit, hfirst, hpieces⟩ := ih h
          refine ⟨c :: first, pieces, by simp [hsplit], ?_, hpieces⟩
          rw [signsQuoted, if_neg hquote, if_neg hsign, if_neg hcomma]
          exact hfirst

/-- A text whose `#` are quoted has no comment. -/
theorem stripComment_of_signsQuoted {inString : Bool} {s : List Char} (hcomma : ',' ∉ s)
    (h : signsQuoted inString s = true) : stripComment inString s = s := by
  induction s generalizing inString with
  | nil => rfl
  | cons c s ih =>
    have hc : c ≠ ',' := fun heq => hcomma (by rw [heq]; exact List.mem_cons_self)
    have hrest : ',' ∉ s := fun hmem => hcomma (List.mem_cons_of_mem _ hmem)
    rw [signsQuoted] at h
    rw [stripComment]
    by_cases hquote : c = '"'
    · rw [if_pos hquote] at h ⊢
      rw [ih hrest h]
    · rw [if_neg hquote] at h ⊢
      by_cases hsign : c = '#'
      · rw [if_pos hsign, Bool.and_eq_true] at h
        rw [if_neg (fun hout => by rw [h.1] at hout; cases hout.2), ih hrest h.2]
      · rw [if_neg hsign, if_neg hc] at h
        rw [if_neg (fun hout => hsign hout.1), ih hrest h]

/-! ## Arrays that are written -/

variable {key : BaselineKey} {keys : List BaselineKey} {tail : List (List Char)} {st st' : Reading}

theorem content_entry (key : BaselineKey) : content (entryLine key) =
    ('"' :: stripComment true (key.text ++ ['"', ','])).rdropWhile Text.isWhitespace :=
  rfl

theorem content_entryLine_head (key : BaselineKey) : ∃ s, content (entryLine key) = '"' :: s := by
  have hprefix : content (entryLine key) <+: '"' :: stripComment true (key.text ++ ['"', ',']) := by
    rw [content_entry]
    exact List.rdropWhile_prefix _ _
  cases hcontent : content (entryLine key) with
  | nil =>
    rw [content_entry, List.rdropWhile_eq_nil_iff] at hcontent
    have hquote := hcontent '"' List.mem_cons_self
    cases hquote
  | cons c s =>
    rw [hcontent] at hprefix
    rw [(List.cons_prefix_cons.mp hprefix).1]
    exact ⟨s, rfl⟩

theorem stripComment_append {inString : Bool} {s : List Char} (h : stripComment inString s = s) :
    stripComment inString (s ++ ['"', ',']) = s ++ ['"', ','] := by
  induction s generalizing inString with
  | nil => rfl
  | cons c s ih =>
    rw [stripComment] at h
    rw [List.cons_append, stripComment]
    by_cases hquote : c = '"'
    · rw [if_pos hquote] at h ⊢
      rw [ih (List.cons.inj h).2]
    · rw [if_neg hquote] at h ⊢
      by_cases hsign : c = '#' ∧ inString = false
      · rw [if_pos hsign] at h
        cases h
      · rw [if_neg hsign] at h ⊢
        rw [ih (List.cons.inj h).2]

/-- The line of a key without a comment sign is read as it was written. -/
theorem content_entryLine (h : stripComment true key.text = key.text) :
    content (entryLine key) = '"' :: (key.text ++ ['"', ',']) := by
  rw [content_entry, stripComment_append h]
  have hends := Text.rdropWhile_ends (d := ',') (by decide) ('"' :: (key.text ++ ['"']))
  rw [List.cons_append, List.append_assoc] at hends
  exact hends

theorem content_entryLine_closed (h : ',' ∉ key.text) :
    signsQuoted false (content (entryLine key)) = true ∧
      openAfter false (content (entryLine key)) = false := by
  have hline : entryLine key = ("  \"".toList ++ key.text ++ ['"']) ++ [','] := by
    unfold entryLine
    rw [List.append_assoc _ ['"']]
    rfl
  have hcomma : ',' ∉ "  \"".toList ++ key.text ++ ['"'] := by
    intro hc
    rcases List.mem_append.mp hc with hc | hc
    · rcases List.mem_append.mp hc with hc | hc
      · exact absurd hc (by decide)
      · exact h hc
    · exact absurd hc (by decide)
  obtain ⟨hsigns, hopen⟩ := signsQuoted_trim false (stripComment false (entryLine key))
  obtain ⟨hsigns', hopen'⟩ := stripComment_closed hcomma false
  rw [← hline] at hsigns' hopen'
  exact ⟨hsigns.trans hsigns', hopen.trans hopen'⟩

/-- The contents of the lines, each behind a space. -/
def joined (lines : List (List Char)) : List Char := lines.flatMap fun line => ' ' :: content line

/-- The lines of an array without `]` are gathered up to the closing line. -/
theorem gather_closed (hbuf : ']' ∉ buf) (h : ∀ line ∈ lines, ']' ∉ content line)
    (tail : List (List Char)) :
    (gather buf (lines ++ [']'] :: tail)).1 = buf ++ (joined lines ++ [' ', ']']) ∧
      (gather buf (lines ++ [']'] :: tail)).2.1 = tail := by
  induction lines generalizing buf with
  | nil =>
    have hclose : ']' ∈ buf ++ ' ' :: content [']'] :=
      List.mem_append_right _ (List.mem_cons_of_mem _ List.mem_cons_self)
    rw [List.nil_append, gather]
    dsimp only
    rw [if_pos hclose]
    exact ⟨rfl, rfl⟩
  | cons line lines ih =>
    have hline : ']' ∉ buf ++ ' ' :: content line := by
      intro hc
      rcases List.mem_append.mp hc with hc | hc
      · exact hbuf hc
      · rcases List.mem_cons.mp hc with hc | hc
        · cases hc
        · exact h line List.mem_cons_self hc
    obtain ⟨hjoined, hrest⟩ := ih hline fun l hl => h l (List.mem_cons_of_mem _ hl)
    rw [List.cons_append, gather]
    dsimp only
    rw [if_neg hline]
    refine ⟨?_, hrest⟩
    rw [hjoined, joined, joined, List.flatMap_cons]
    simp only [List.append_assoc, List.cons_append]

/-- A closing bracket in an element ends the array too soon. -/
theorem gather_early (h : ∃ line ∈ lines, ']' ∈ content line) (tail : List (List Char)) :
    ∃ after, after <:+ lines ∧ (gather buf (lines ++ tail)).2.1 = after ++ tail := by
  induction lines generalizing buf with
  | nil =>
    obtain ⟨line, hline, -⟩ := h
    cases hline
  | cons line lines ih =>
    rw [List.cons_append, gather]
    dsimp only
    by_cases hclosed : ']' ∈ buf ++ ' ' :: content line
    · rw [if_pos hclosed]
      exact ⟨lines, List.suffix_cons line lines, rfl⟩
    · rw [if_neg hclosed]
      have hlater : ∃ line ∈ lines, ']' ∈ content line := by
        obtain ⟨l, hl, hmem⟩ := h
        rcases List.mem_cons.mp hl with rfl | hl
        · exact absurd (List.mem_append_right _ (List.mem_cons_of_mem _ hmem)) hclosed
        · exact ⟨l, hl, hmem⟩
      obtain ⟨after, hafter, hrest⟩ := @ih (buf ++ ' ' :: content line) hlater
      exact ⟨after, hafter.trans (List.suffix_cons line lines), hrest⟩

/-- A quoted line or a closing bracket outside an array is refused. -/
theorem readLines_stray {raw : List Char} (h : (∃ s, content raw = '"' :: s) ∨ content raw = [']'])
    (lines : List (List Char)) : readLines st (raw :: lines) ≠ .ok st' := by
  rw [readLines]
  rcases h with ⟨s, hcontent⟩ | hcontent
  · rw [hcontent]
    intro h
    cases h
  · rw [hcontent]
    intro h
    cases h

/-- An array that opens on its line is gathered and split at commas. -/
theorem parseArray_opened (lines : List (List Char)) :
    parseArray " = [".toList lines = (unbracket (gather ['['] lines).1 >>= elements).map
      (·, (gather ['['] lines).2) := by
  unfold parseArray
  have hname : ['='].isPrefixOf? (" = [".toList.dropWhile Text.isWhitespace) =
      some [' ', '['] := rfl
  rw [hname]
  dsimp only
  rw [if_neg (by decide)]
  have hbuf : [' ', '['].dropWhile Text.isWhitespace = ['['] := rfl
  rw [hbuf]
  cases unbracket (gather ['['] lines).1 with
  | error e => rfl
  | ok inner => rfl

theorem unbracket_closed (s : List Char) :
    unbracket (['['] ++ (s ++ [' ', ']'])) = .ok (Text.trim (s ++ [' '])) := by
  have htext : ['['] ++ (s ++ [' ', ']']) = '[' :: ((s ++ [' ']) ++ [']']) := by
    rw [List.append_assoc]
    rfl
  have hopen : ['['].isPrefixOf? ('[' :: ((s ++ [' ']) ++ [']'])) = some ((s ++ [' ']) ++ [']']) :=
    List.isPrefixOf?_eq_some_iff_append_eq.mpr rfl
  have hclose : [']'].isSuffixOf? ((s ++ [' ']) ++ [']']) = some (s ++ [' ']) :=
    List.isSuffixOf?_eq_some_iff_append_eq.mpr rfl
  unfold unbracket
  rw [htext, Text.trim_ends (by decide) (by decide), hopen]
  dsimp only
  rw [Text.rdropWhile_ends (by decide), hclose]

theorem joined_cons (line : List Char) (lines : List (List Char)) :
    joined (line :: lines) = (' ' :: content line) ++ joined lines :=
  List.flatMap_cons

theorem signsQuoted_joined (h : ∀ key ∈ keys, ',' ∉ key.text) :
    signsQuoted false (joined (keys.map entryLine)) = true ∧
      openAfter false (joined (keys.map entryLine)) = false := by
  induction keys with
  | nil => exact ⟨rfl, rfl⟩
  | cons key keys ih =>
    obtain ⟨hsigns, hopen⟩ := content_entryLine_closed (h key List.mem_cons_self)
    have hspace : signsQuoted false (' ' :: content (entryLine key)) = true := hsigns
    have hclosed : openAfter false (' ' :: content (entryLine key)) = false := hopen
    rw [List.map_cons, joined_cons, signsQuoted_append, openAfter_append, hspace, hclosed,
      Bool.true_and]
    exact ih fun k hk => h k (List.mem_cons_of_mem _ hk)

theorem stripComment_of_elements (h : ∀ key ∈ keys, ',' ∉ key.text)
    (helements : elements (Text.trim (joined (keys.map entryLine) ++ [' '])) = .ok entries) :
    ∀ e ∈ entries, stripComment true e = e := by
  intro e he
  obtain ⟨hsigns, hopen⟩ := signsQuoted_joined h
  have hinner : signsQuoted false (Text.trim (joined (keys.map entryLine) ++ [' '])) = true := by
    rw [(signsQuoted_trim false _).1, signsQuoted_append, hsigns, hopen]
    rfl
  obtain ⟨piece, hpiece, htrim⟩ := of_mem_elements helements e he
  have hquoted : signsQuoted false piece = true := by
    obtain ⟨first, pieces, hsplit, hfirst, hpieces⟩ := signsQuoted_pieces hinner
    rw [hsplit] at hpiece
    rcases List.mem_cons.mp hpiece with rfl | hpiece
    · exact hfirst
    · exact hpieces piece hpiece
  rw [← (signsQuoted_trim false piece).1, htrim] at hquoted
  have hopened : signsQuoted true (e ++ ['"']) = true := hquoted
  rw [signsQuoted_append, Bool.and_eq_true] at hopened
  refine stripComment_of_signsQuoted ?_ hopened.1
  intro hc
  apply Text.not_mem_of_mem_splitOn hpiece
  apply mem_of_mem_trim
  rw [htrim]
  exact List.mem_cons_of_mem _ (List.mem_append_left _ hc)

section Listed

variable (h : ∀ key ∈ keys, ',' ∉ key.text ∧ stripComment true key.text = key.text)

theorem joined_entry (h : stripComment true key.text = key.text) (lines : List (List Char)) :
    joined (entryLine key :: lines) = (' ' :: '"' :: (key.text ++ ['"'])) ++ ',' ::
      joined lines := by
  rw [joined_cons, content_entryLine h]
  simp only [List.append_assoc, List.cons_append, List.nil_append]

include h

/-- The joined lines split at their commas into the keys. -/
theorem splitOn_joined : (joined (keys.map entryLine)).splitOn ',' =
    (keys.map fun key => ' ' :: '"' :: (key.text ++ ['"'])) ++ [[]] := by
  induction keys with
  | nil => rfl
  | cons key keys ih =>
    obtain ⟨hcomma, hquoted⟩ := h key List.mem_cons_self
    have hnot : ',' ∉ ' ' :: '"' :: (key.text ++ ['"']) := by simp [hcomma]
    rw [List.map_cons, joined_entry hquoted, List.splitOn_append_cons_self_of_not_mem hnot,
      ih fun k hk => h k (List.mem_cons_of_mem _ hk)]
    rfl

theorem getLast?_joined : (',' :: joined (keys.map entryLine)).getLast? = some ',' := by
  induction keys with
  | nil => rfl
  | cons key keys ih =>
    have hlast := ih fun k hk => h k (List.mem_cons_of_mem _ hk)
    rw [List.map_cons, joined_entry (h key List.mem_cons_self).2, ← List.cons_append,
      List.getLast?_append, hlast]
    rfl

/-- The joined lines of keys read as the keys. -/
theorem elements_joined :
    elements (Text.trim (joined (keys.map entryLine) ++ [' '])) =
      .ok (keys.map BaselineKey.text) := by
  cases keys with
  | nil => rfl
  | cons key keys =>
    obtain ⟨hcomma, hquoted⟩ := h key List.mem_cons_self
    have hlater : ∀ k ∈ keys, ',' ∉ k.text ∧ stripComment true k.text = k.text :=
      fun k hk => h k (List.mem_cons_of_mem _ hk)
    have hnot : ',' ∉ '"' :: (key.text ++ ['"']) := by simp [hcomma]
    have htrim : Text.trim (joined ((key :: keys).map entryLine) ++ [' ']) =
        ('"' :: (key.text ++ ['"'])) ++ ',' :: joined (keys.map entryLine) := by
      have hlast : (('"' :: (key.text ++ ['"'])) ++
          ',' :: joined (keys.map entryLine)).getLast? = some ',' := by
        rw [List.getLast?_append, getLast?_joined hlater]
        rfl
      obtain ⟨init, hinit⟩ := List.getLast?_eq_some_iff.mp hlast
      have hfront : (joined ((key :: keys).map entryLine) ++ [' ']).dropWhile Text.isWhitespace =
          (init ++ [',']) ++ [' '] := by
        rw [List.map_cons, joined_entry hquoted, ← hinit]
        rfl
      rw [Text.trim, Text.trimMatches, hfront, List.rdropWhile_concat_pos _ _ _ (by decide),
        Text.rdropWhile_ends (by decide), hinit]
    have hne : ('"' :: (key.text ++ ['"'])) ++ ',' :: joined (keys.map entryLine) ≠ [] :=
      List.cons_ne_nil _ _
    have hpiece (k : BaselineKey) : Text.trim (' ' :: '"' :: (k.text ++ ['"'])) =
        '"' :: (k.text ++ ['"']) :=
      @Text.trim_ends '"' '"' (by decide) (by decide) k.text
    rw [htrim, elements, if_neg hne, List.splitOn_append_cons_self_of_not_mem hnot,
      splitOn_joined hlater, mapM_eq_ok]
    have hpieces : ((('"' :: (key.text ++ ['"'])) ::
          ((keys.map fun k => ' ' :: '"' :: (k.text ++ ['"'])) ++ [[]])).map Text.trim).filter
            (fun x => decide (x ≠ [])) =
        (key :: keys).map fun k => '"' :: (k.text ++ ['"']) := by
      have hfirst : Text.trim ('"' :: (key.text ++ ['"'])) = '"' :: (key.text ++ ['"']) :=
        @Text.trim_ends '"' '"' (by decide) (by decide) key.text
      rw [List.map_cons, List.map_append, List.map_map, hfirst]
      simp only [Function.comp_def, hpiece]
      rw [List.filter_cons_of_pos (by simp), List.filter_append, List.filter_eq_self.mpr]
      · simp [Text.trim, Text.trimMatches]
      · intro x hx
        obtain ⟨k, -, rfl⟩ := List.mem_map.mp hx
        simp
    rw [hpieces, List.forall₂_map_left_iff, List.forall₂_map_right_iff, List.forall₂_same]
    intro k _
    exact unquote_eq_ok.mpr rfl

end Listed

/-! ## Arrays that are read -/

/-- The written array of plain keys reads as those keys. -/
theorem parseArray_plain (h : ∀ key ∈ keys, Plain key) (tail : List (List Char)) :
    ∃ htail, parseArray " = [".toList (keys.map entryLine ++ [']'] :: tail) =
      .ok (keys.map BaselineKey.text, ⟨tail, htail⟩) := by
  have hclosed : ∀ line ∈ keys.map entryLine, ']' ∉ content line := by
    intro line hline
    obtain ⟨key, hkey, rfl⟩ := List.mem_map.mp hline
    have harray := (h key hkey).array
    rw [content_entryLine (h key hkey).quoted]
    simp [harray]
  obtain ⟨hbuf, hrest⟩ := @gather_closed ['['] _ (by decide) hclosed tail
  have helements := elements_joined fun key hkey => ⟨(h key hkey).element, (h key hkey).quoted⟩
  have htail : tail.length ≤ (keys.map entryLine ++ [']'] :: tail).length := by
    rw [List.length_append, List.length_cons]
    omega
  refine ⟨htail, ?_⟩
  rw [parseArray_opened, hbuf, unbracket_closed]
  have hbound : (gather ['['] (keys.map entryLine ++ [']'] :: tail)).2 = ⟨tail, htail⟩ :=
    Subtype.ext hrest
  rw [hbound]
  show (elements _).map _ = _
  rw [helements]
  rfl

/-- If the rest of the file is read, too, then all elements have been read. -/
theorem parseArray_exact (h : ∀ key ∈ keys, ',' ∉ key.text)
    {rest : {rest : List (List Char) // rest.length ≤ (keys.map entryLine ++ [']'] :: tail).length}}
    (harray : parseArray " = [".toList (keys.map entryLine ++ [']'] :: tail) = .ok (entries, rest))
    (hread : readLines st rest.1 = .ok st') :
    (∀ e ∈ entries, stripComment true e = e) ∧ (∀ key ∈ keys, ']' ∉ content (entryLine key)) ∧
      rest.1 = tail := by
  rw [parseArray_opened] at harray
  have hrest : rest = (gather ['['] (keys.map entryLine ++ [']'] :: tail)).2 := by
    cases hread : unbracket (gather ['['] (keys.map entryLine ++ [']'] :: tail)).1 >>= elements with
    | error e =>
      rw [hread] at harray
      cases harray
    | ok read =>
      rw [hread] at harray
      cases harray
      rfl
  by_cases hearly : ∃ line ∈ keys.map entryLine, ']' ∈ content line
  · -- the line behind the bracket cannot be read
    obtain ⟨after, hafter, heq⟩ := @gather_early ['['] _ hearly ([']'] :: tail)
    rw [hrest, heq] at hread
    cases after with
    | nil => exact absurd hread (readLines_stray (.inr rfl) tail)
    | cons line after =>
      obtain ⟨key, -, rfl⟩ := List.mem_map.mp (hafter.mem List.mem_cons_self)
      exact absurd hread (readLines_stray (.inl (content_entryLine_head key)) _)
  · have hclosed : ∀ line ∈ keys.map entryLine, ']' ∉ content line :=
      fun line hline hmem => hearly ⟨line, hline, hmem⟩
    obtain ⟨hbuf, htail⟩ := @gather_closed ['['] _ (by decide) hclosed tail
    rw [hbuf, unbracket_closed] at harray
    refine ⟨?_, fun key hkey => hclosed _ (List.mem_map_of_mem hkey), by rw [hrest, htail]⟩
    apply stripComment_of_elements h
    cases helements : elements (Text.trim (joined (keys.map entryLine) ++ [' '])) with
    | error e =>
      have herror := harray.symm.trans (congrArg (Except.map _) helements)
      cases herror
    | ok read =>
      have hok := harray.symm.trans (congrArg (Except.map _) helements)
      cases hok
      rfl

/-! ## The whole file -/

theorem readLines_blank {raw : List Char} (h : content raw = []) (lines : List (List Char)) :
    readLines st (raw :: lines) = readLines st lines := by
  rw [readLines, if_pos h]

/-- The checked array is read where it was written. -/
theorem readLines_checked (lines : List (List Char)) :
    readLines st ("grandfathered_checked = [".toList :: lines) = .ok st' ↔
      ∃ entries rest, parseArray " = [".toList lines = .ok (entries, rest) ∧
        readLines { st with checked := entries.map BaselineKey.parse } rest.1 = .ok st' := by
  have hcontent : content "grandfathered_checked = [".toList =
      "grandfathered_checked = [".toList := rfl
  have hversion : "version".toList.isPrefixOf? "grandfathered_checked = [".toList = none := rfl
  have hchecked : "grandfathered_checked".toList.isPrefixOf? "grandfathered_checked = [".toList =
      some " = [".toList := rfl
  rw [readLines, hcontent, if_neg (by decide), hversion, hchecked]
  dsimp only
  cases parseArray " = [".toList lines with
  | error e =>
    constructor
    · intro h
      cases h
    · intro h
      obtain ⟨entries, rest, harray, -⟩ := h
      cases harray
  | ok read =>
    obtain ⟨entries, rest, hrest⟩ := read
    constructor
    · intro h
      exact ⟨entries, ⟨rest, hrest⟩, rfl, h⟩
    · intro h
      obtain ⟨entries', rest', harray, h⟩ := h
      cases harray
      exact h

/-- The trusted array is read where it was written. -/
theorem readLines_trusted (lines : List (List Char)) :
    readLines st ("grandfathered_trusted = [".toList :: lines) = .ok st' ↔
      ∃ entries rest, parseArray " = [".toList lines = .ok (entries, rest) ∧
        readLines { st with trusted := entries.map BaselineKey.parse } rest.1 = .ok st' := by
  have hcontent : content "grandfathered_trusted = [".toList =
      "grandfathered_trusted = [".toList := rfl
  have hversion : "version".toList.isPrefixOf? "grandfathered_trusted = [".toList = none := rfl
  have hchecked : "grandfathered_checked".toList.isPrefixOf? "grandfathered_trusted = [".toList =
      none := rfl
  have htrusted : "grandfathered_trusted".toList.isPrefixOf? "grandfathered_trusted = [".toList =
      some " = [".toList := rfl
  rw [readLines, hcontent, if_neg (by decide), hversion, hchecked, htrusted]
  dsimp only
  cases parseArray " = [".toList lines with
  | error e =>
    constructor
    · intro h
      cases h
    · intro h
      obtain ⟨entries, rest, harray, -⟩ := h
      cases harray
  | ok read =>
    obtain ⟨entries, rest, hrest⟩ := read
    constructor
    · intro h
      exact ⟨entries, ⟨rest, hrest⟩, rfl, h⟩
    · intro h
      obtain ⟨entries', rest', harray, h⟩ := h
      cases harray
      exact h

theorem digit_spec {c : Char} (h : c.isDigit = true) :
    Text.isWhitespace c = false ∧ c ≠ '"' ∧ c ≠ '#' ∧ c ≠ '+' ∧ c ≠ '\n' ∧ c ≠ '\r' := by
  have hbounds : 48 ≤ c.toNat ∧ c.toNat ≤ 57 := by
    simp only [Char.isDigit, Bool.and_eq_true, decide_eq_true_eq, ge_iff_le,
      UInt32.le_iff_toNat_le] at h
    exact h
  refine ⟨?_, ?_⟩
  · unfold Text.isWhitespace
    simp only [Bool.or_eq_false_iff, Bool.and_eq_false_imp, decide_eq_true_eq,
      decide_eq_false_iff_not,
      beq_eq_false_iff_ne]
    omega
  · refine ⟨?_, ?_, ?_, ?_, ?_⟩
    all_goals
      rintro rfl
      revert hbounds
      decide

theorem stripComment_digits {s : List Char} (h : ∀ c ∈ s, c.isDigit = true) :
    stripComment false s = s := by
  induction s with
  | nil => rfl
  | cons c s ih =>
    obtain ⟨-, hquote, hsign, -⟩ := digit_spec (h c List.mem_cons_self)
    rw [stripComment, if_neg hquote, if_neg fun hc => hsign hc.1,
      ih fun d hd => h d (List.mem_cons_of_mem _ hd)]

theorem rdropWhile_digits {s : List Char} (hne : s ≠ []) (h : ∀ c ∈ s, c.isDigit = true)
    (front : List Char) : (front ++ s).rdropWhile Text.isWhitespace = front ++ s := by
  obtain ⟨init, last, rfl⟩ : ∃ init last, s = init ++ [last] :=
    ⟨s.dropLast, s.getLast hne, (List.dropLast_append_getLast hne).symm⟩
  have hlast := (digit_spec (h last (by simp))).1
  rw [← List.append_assoc]
  exact Text.rdropWhile_ends hlast _

theorem isDigit_decimal (n : Nat) : ∀ c ∈ Nat.toDigits 10 n, c.isDigit = true :=
  fun _ hc => Nat.isDigit_of_mem_toDigits (by decide) (by decide) hc

/-- A version number reads back from its decimals. -/
theorem parseU32_decimal (n : UInt32) : parseU32 (Nat.toDigits 10 n.toNat) = some n := by
  have hdigits := isDigit_decimal n.toNat
  have hsign : (Nat.toDigits 10 n.toNat).head? ≠ some '+' := by
    intro h
    have hplus := hdigits '+' (List.mem_of_head? h)
    cases hplus
  have hvalid : ¬ (Nat.toDigits 10 n.toNat = [] ∨
      (Nat.toDigits 10 n.toNat).any (fun c => !c.isDigit) = true) := by
    rintro (h | h)
    · exact Nat.toDigits_ne_nil h
    · obtain ⟨c, hc, hnot⟩ := List.any_eq_true.mp h
      rw [hdigits c hc] at hnot
      cases hnot
  unfold parseU32
  rw [if_neg hsign]
  dsimp only
  rw [if_neg hvalid, Nat.ofDigitChars_ten_toDigits, if_pos n.toNat_lt, UInt32.ofNat_toNat]

theorem parseVersion_decimal (n : UInt32) :
    parseVersion (" = ".toList ++ Nat.toDigits 10 n.toNat) = .ok n := by
  have hdigits := isDigit_decimal n.toNat
  have hequals : ['='].isPrefixOf? ((" = ".toList ++ Nat.toDigits 10 n.toNat).dropWhile
      Text.isWhitespace) = some (' ' :: Nat.toDigits 10 n.toNat) :=
    List.isPrefixOf?_eq_some_iff_append_eq.mpr rfl
  have hfront : (' ' :: Nat.toDigits 10 n.toNat).dropWhile Text.isWhitespace =
      Nat.toDigits 10 n.toNat := by
    rw [List.dropWhile_cons_of_pos (by decide)]
    cases hcases : Nat.toDigits 10 n.toNat with
    | nil => exact absurd hcases Nat.toDigits_ne_nil
    | cons c s =>
      have hc := (digit_spec (hdigits c (by rw [hcases]; exact List.mem_cons_self))).1
      rw [List.dropWhile_cons_of_neg (by simp [hc])]
  have htrim : Text.trim (' ' :: Nat.toDigits 10 n.toNat) = Nat.toDigits 10 n.toNat := by
    have hback := rdropWhile_digits Nat.toDigits_ne_nil hdigits []
    rw [List.nil_append] at hback
    rw [Text.trim, Text.trimMatches, hfront, hback]
  unfold parseVersion
  rw [hequals]
  dsimp only
  rw [htrim, parseU32_decimal]

theorem readLines_version (n : UInt32) (lines : List (List Char)) :
    readLines st (("version = ".toList ++ Nat.toDigits 10 n.toNat) :: lines) =
      readLines { st with version := some n } lines := by
  have hdigits := isDigit_decimal n.toNat
  have hstrip : stripComment false ("version = ".toList ++ Nat.toDigits 10 n.toNat) =
      "version = ".toList ++ stripComment false (Nat.toDigits 10 n.toNat) := rfl
  have hfront : ("version = ".toList ++ Nat.toDigits 10 n.toNat).dropWhile Text.isWhitespace =
      "version = ".toList ++ Nat.toDigits 10 n.toNat := rfl
  have hcontent : content ("version = ".toList ++ Nat.toDigits 10 n.toNat) =
      "version = ".toList ++ Nat.toDigits 10 n.toNat := by
    rw [content, hstrip, stripComment_digits hdigits, Text.trim, Text.trimMatches, hfront,
      rdropWhile_digits Nat.toDigits_ne_nil hdigits]
  have hversion : "version".toList.isPrefixOf? ("version = ".toList ++ Nat.toDigits 10 n.toNat) =
      some (" = ".toList ++ Nat.toDigits 10 n.toNat) :=
    List.isPrefixOf?_eq_some_iff_append_eq.mpr rfl
  have hne : "version = ".toList ++ Nat.toDigits 10 n.toNat ≠ [] := List.cons_ne_nil _ _
  rw [readLines, hcontent, if_neg hne, hversion]
  dsimp only
  rw [parseVersion_decimal]

/-- The lines from the second array on. -/
def trustedLines (b : Baseline) : List (List Char) :=
  [] :: "grandfathered_trusted = [".toList ::
    ((sorted b.grandfatheredTrusted).map entryLine ++ [']'] :: [])

/-- The lines from the first array on. -/
def checkedLines (b : Baseline) : List (List Char) :=
  "grandfathered_checked = [".toList ::
    ((sorted b.grandfatheredChecked).map entryLine ++ [']'] :: trustedLines b)

/-- A rendered baseline is comments, the version and the two arrays. -/
theorem rendered_eq (b : Baseline) : ∃ comments : List (List Char),
    rendered b = comments ++ ("version = ".toList ++ Nat.toDigits 10 b.version.toNat) :: [] ::
      checkedLines b ∧ ∀ raw ∈ comments, content raw = [] ∧ '\n' ∉ raw ∧
        raw.getLast? ≠ some '\r' := by
  refine ⟨["# Managed by `airl verify-policy`. Hand-edits are allowed; CI validates".toList,
    "# consistency on every run. Remove an entry to ratchet — requires upgrading".toList,
    "# the module's :verify to proven and adding :ensures to every :pub defn.".toList], ?_, ?_⟩
  · unfold rendered checkedLines trustedLines
    simp only [List.append_assoc, List.cons_append, List.nil_append]
    rfl
  · intro raw hraw
    rcases List.mem_cons.mp hraw with rfl | hraw
    · exact ⟨rfl, by decide, by decide⟩
    rcases List.mem_cons.mp hraw with rfl | hraw
    · exact ⟨rfl, by decide, by decide⟩
    · rw [List.mem_singleton.mp hraw]
      exact ⟨rfl, by decide, by decide⟩

theorem readLines_rendered (b : Baseline) :
    readLines ⟨none, [], []⟩ (rendered b) =
      readLines ⟨some b.version, [], []⟩ (checkedLines b) := by
  obtain ⟨comments, hrendered, hcomments⟩ := rendered_eq b
  have hskip : ∀ lines, readLines ⟨none, [], []⟩ (comments ++ lines) =
      readLines ⟨none, [], []⟩ lines := by
    intro lines
    clear hrendered
    induction comments with
    | nil => rfl
    | cons raw comments ih =>
      rw [List.cons_append, readLines_blank (hcomments raw List.mem_cons_self).1]
      exact ih fun raw' h => hcomments raw' (List.mem_cons_of_mem _ h)
  rw [hrendered, hskip, readLines_version, readLines_blank rfl]

theorem entryLine_written (h : '\n' ∉ key.text) :
    '\n' ∉ entryLine key ∧ (entryLine key).getLast? ≠ some '\r' := by
  have hline : entryLine key = ("  \"".toList ++ key.text ++ ['"']) ++ [','] := by
    unfold entryLine
    rw [List.append_assoc _ ['"']]
    rfl
  constructor
  · intro hc
    rw [hline] at hc
    simp only [List.mem_append, h] at hc
    revert hc
    decide
  · rw [hline, List.getLast?_concat]
    decide

/-- The lines of the rendered text are the lines it was rendered from. -/
theorem textLines_render (b : Baseline) (hchecked : ∀ key ∈ b.grandfatheredChecked, '\n' ∉ key.text)
    (htrusted : ∀ key ∈ b.grandfatheredTrusted, '\n' ∉ key.text) :
    Text.textLines (render b) = rendered b := by
  obtain ⟨comments, hrendered, hcomments⟩ := rendered_eq b
  apply Text.textLines_flatMap
  have hentries {keys : List BaselineKey} (h : ∀ key ∈ keys, '\n' ∉ key.text) :
      ∀ raw ∈ (sorted keys).map entryLine, '\n' ∉ raw ∧ raw.getLast? ≠ some '\r' := by
    intro raw hraw
    obtain ⟨key, hkey, rfl⟩ := List.mem_map.mp hraw
    exact entryLine_written (h key (mem_sorted.mp hkey))
  have hversion : '\n' ∉ "version = ".toList ++ Nat.toDigits 10 b.version.toNat ∧
      ("version = ".toList ++ Nat.toDigits 10 b.version.toNat).getLast? ≠ some '\r' := by
    have hdigits := isDigit_decimal b.version.toNat
    constructor
    · intro hc
      rcases List.mem_append.mp hc with hc | hc
      · revert hc
        decide
      · exact (digit_spec (hdigits _ hc)).2.2.2.2.1 rfl
    · intro hlast
      rw [List.getLast?_append] at hlast
      cases hd : (Nat.toDigits 10 b.version.toNat).getLast? with
      | none => exact Nat.toDigits_ne_nil (List.getLast?_eq_none_iff.mp hd)
      | some d =>
        rw [hd] at hlast
        cases hlast
        exact (digit_spec (hdigits _ (List.mem_of_getLast? hd))).2.2.2.2.2 rfl
  intro raw hraw
  rw [hrendered, checkedLines, trustedLines] at hraw
  simp only [List.mem_append, List.mem_cons, List.not_mem_nil, or_false] at hraw
  rcases hraw with hraw | rfl | rfl | rfl | hraw | rfl | rfl | rfl | hraw | rfl
  · exact (hcomments raw hraw).2
  · exact hversion
  · decide
  · decide
  · exact hentries hchecked raw hraw
  · decide
  · decide
  · decide
  · exact hentries htrusted raw hraw
  · decide

/-- Keys that read back as the same set are plain. -/
theorem plain_of_read (hreadable : ∀ key ∈ keys, Readable key)
    (hquoted : ∀ e ∈ entries, stripComment true e = e)
    (hclosed : ∀ key ∈ sorted keys, ']' ∉ content (entryLine key))
    (hsame : ∀ key, key ∈ entries.map BaselineKey.parse ↔ key ∈ keys) :
    ∀ key ∈ keys, Plain key := by
  intro key hkey
  obtain ⟨e, he, hparse⟩ := List.mem_map.mp ((hsame key).mpr hkey)
  have htext : key.text = e := by rw [← hparse, (BaselineKey.parse_spec e).1]
  have hstrip : stripComment true key.text = key.text := by
    rw [htext]
    exact hquoted e he
  refine ⟨(hreadable key hkey).path, (hreadable key hkey).element, ?_, (hreadable key hkey).line,
    hstrip⟩
  have hnot := hclosed key (mem_sorted.mpr hkey)
  rw [content_entryLine hstrip] at hnot
  intro hc
  exact hnot (List.mem_cons_of_mem _ (List.mem_append_left _ hc))

/-- Plain keys read back as the same set. -/
theorem readKeys_of_plain (h : ∀ key ∈ keys, Plain key) (key : BaselineKey) :
    key ∈ ((sorted keys).map BaselineKey.text).map BaselineKey.parse ↔ key ∈ keys := by
  have hall : ((sorted keys).map BaselineKey.text).map BaselineKey.parse = sorted keys := by
    rw [List.map_map]
    calc
      (sorted keys).map (BaselineKey.parse ∘ BaselineKey.text) = (sorted keys).map id := by
        apply List.map_congr_left
        intro k hk
        exact BaselineKey.parse_text (h k (mem_sorted.mp hk)).path
      _ = sorted keys := List.map_id _
  rw [hall, mem_sorted]

/-- A baseline, however it came about, is what its file is read as, just if its keys are plain. -/
theorem baseline_exact (b : Baseline) :
    (∃ b', parse (render b) = .ok b' ∧ SameEntries b' b) ↔
      (∀ key ∈ b.grandfatheredChecked, Plain key) ∧ ∀ key ∈ b.grandfatheredTrusted, Plain key := by
  constructor
  · intro h
    obtain ⟨b', hparse, hsame⟩ := h
    obtain ⟨hchecked, htrusted⟩ := readable_of_parse hparse
    have hchecked : ∀ key ∈ b.grandfatheredChecked, Readable key := fun key hkey =>
      hchecked key ((hsame.checked key).mpr hkey)
    have htrusted : ∀ key ∈ b.grandfatheredTrusted, Readable key := fun key hkey =>
      htrusted key ((hsame.trusted key).mpr hkey)
    obtain ⟨st, hread, -, hst, hst'⟩ := parse_eq_ok.mp hparse
    rw [textLines_render b (fun key hkey => (hchecked key hkey).line)
      (fun key hkey => (htrusted key hkey).line), readLines_rendered, checkedLines] at hread
    obtain ⟨entries, rest, harray, hread⟩ := (readLines_checked _).mp hread
    obtain ⟨hquoted, hclosed, hrest⟩ := parseArray_exact
      (fun key hkey => (hchecked key (mem_sorted.mp hkey)).element) harray hread
    rw [hrest, trustedLines, readLines_blank rfl] at hread
    obtain ⟨entries', rest', harray', hread⟩ := (readLines_trusted _).mp hread
    obtain ⟨hquoted', hclosed', hrest'⟩ := parseArray_exact
      (fun key hkey => (htrusted key (mem_sorted.mp hkey)).element) harray' hread
    rw [hrest', readLines] at hread
    cases hread
    have hkeys : ∀ key, key ∈ entries.map BaselineKey.parse ↔ key ∈ b.grandfatheredChecked := by
      intro key
      rw [← hsame.checked key, ← hst]
    have hkeys' : ∀ key, key ∈ entries'.map BaselineKey.parse ↔ key ∈ b.grandfatheredTrusted := by
      intro key
      rw [← hsame.trusted key, ← hst']
    exact ⟨plain_of_read hchecked hquoted hclosed hkeys,
      plain_of_read htrusted hquoted' hclosed' hkeys'⟩
  · intro h
    obtain ⟨hchecked, htrusted⟩ := h
    have hlines := textLines_render b (fun key hkey => (hchecked key hkey).line)
      (fun key hkey => (htrusted key hkey).line)
    obtain ⟨hbound, harray⟩ := parseArray_plain
      (fun key hkey => hchecked key (mem_sorted.mp hkey)) (trustedLines b)
    obtain ⟨hbound', harray'⟩ := parseArray_plain
      (fun key hkey => htrusted key (mem_sorted.mp hkey)) []
    let checked := ((sorted b.grandfatheredChecked).map BaselineKey.text).map BaselineKey.parse
    let trusted := ((sorted b.grandfatheredTrusted).map BaselineKey.text).map BaselineKey.parse
    have hread : readLines ⟨none, [], []⟩ (Text.textLines (render b)) =
        .ok ⟨some b.version, checked, trusted⟩ := by
      rw [hlines, readLines_rendered]
      refine (readLines_checked _).mpr ⟨_, _, harray, ?_⟩
      refine (readLines_blank rfl _).trans ?_
      refine (readLines_trusted _).mpr ⟨_, _, harray', ?_⟩
      rw [readLines]
    exact ⟨⟨b.version, checked, trusted⟩, parse_eq_ok.mpr ⟨_, hread, rfl, rfl, rfl⟩, rfl,
      readKeys_of_plain hchecked, readKeys_of_plain htrusted⟩

/-- The file `a,b.airl` is listed, and the baseline cannot be read any more. -/
theorem baseline_of_comma :
    ¬ ∃ b', parse (render ⟨1, [⟨"a,b.airl".toList, none⟩], []⟩) = .ok b' ∧
      SameEntries b' ⟨1, [⟨"a,b.airl".toList, none⟩], []⟩ := by
  intro h
  obtain ⟨b', hparse, hsame⟩ := h
  have hkey := (hsame.checked ⟨"a,b.airl".toList, none⟩).mpr List.mem_cons_self
  have helement := ((readable_of_parse hparse).1 _ hkey).element
  revert helement
  decide

end Airl.Policy
