import Airl.Solver.DiskCache

/-! # Reading back a written list of clauses

The brackets of a written list are balanced unless a clause holds an opening
one, its characters are its bytes unless a clause is not ASCII, and its pairs
come back unless a clause holds a comma, a closing bracket or a quotation mark.
-/

namespace Airl.Solver.DiskCache

/-- The text opens `k` more brackets than it closes, and closes none that it did not open. -/
def Raises (k : Nat) (s : List Char) : Prop :=
  ∀ depth t, closing (depth + 1) (s ++ t) = (closing (depth + 1 + k) t).map (· + s.length)

section Raises

variable {j k depth : Nat} {s t : List Char} {c : Char}

theorem Raises.nil : Raises 0 [] := fun depth t => by simp

theorem Raises.append (hs : Raises j s) (ht : Raises k t) : Raises (j + k) (s ++ t) := by
  intro depth u
  have hnext := ht (depth + j) u
  rw [show depth + j + 1 = depth + 1 + j by omega] at hnext
  rw [List.append_assoc, hs, hnext, Option.map_map]
  congr 1
  · funext n
    simp only [Function.comp, List.length_append]
    omega
  · congr 1
    omega

theorem Raises.plain (hopen : c ≠ '[') (hclose : c ≠ ']') : Raises 0 [c] := fun depth t => by
  simp [closing, hopen, hclose]

theorem Raises.opens : Raises 1 ['['] := fun depth t => by simp [closing]

theorem Raises.closed (hs : Raises (k + 1) s) : Raises k (s ++ [']']) := by
  intro depth t
  have hstep : closing (depth + 1 + (k + 1)) ([']'] ++ t) =
      (closing (depth + 1 + k) t).map (· + 1) := by
    rw [List.singleton_append, closing, if_neg (by decide), if_pos rfl, if_neg (by omega)]
    congr 1
  rw [List.append_assoc, hs, hstep, Option.map_map]
  congr 1
  funext n
  simp only [Function.comp, List.length_append, List.length_singleton]
  omega

/-- Without closing brackets a text raises by its opening ones. -/
theorem Raises.of_not_mem (h : ']' ∉ s) : Raises (s.count '[') s := by
  induction s with
  | nil => exact Raises.nil
  | cons c s ih =>
    have hs := ih fun hmem => h (by simp [hmem])
    have hclose : c ≠ ']' := fun heq => h (by simp [heq])
    by_cases hopen : c = '['
    · subst hopen
      have := Raises.opens.append hs
      rw [List.count_cons_self, Nat.add_comm]
      exact this
    · rw [List.count_cons_of_ne hopen]
      have := (Raises.plain hopen hclose).append hs
      rwa [Nat.zero_add] at this

theorem Raises.closing_eq_none (hs : Raises k s) : closing (depth + 1) s = none := by
  have := hs depth []
  simpa [closing] using this

end Raises

/-- No quotation mark, bracket or comma. -/
def Plain (text : List Char) : Prop := ∀ c ∈ text, c ≠ '"' ∧ c ≠ '[' ∧ c ≠ ']' ∧ c ≠ ','

def Ascii (text : List Char) : Prop := ∀ c ∈ text, c.utf8Size = 1

/-- A tag as `result_tag` makes it. -/
structure IsTag (tag : List Char) : Prop where
  plain : Plain tag
  ascii : Ascii tag

/-- The pairs of a written list, between its brackets. -/
def body (rs : List (List Char × List Char)) : List Char :=
  [','].intercalate (rs.map pairToJson)

theorem clausesToJson_eq (rs : List (List Char × List Char)) :
    clausesToJson rs = '[' :: (body rs ++ [']']) := by
  unfold clausesToJson
  split
  · next h =>
    subst h
    rfl
  · simp [body]

theorem body_cons_cons (r r' : List Char × List Char) (rs : List (List Char × List Char)) :
    body (r :: r' :: rs) = pairToJson r ++ ',' :: body (r' :: rs) := by
  simp [body, List.intercalate_cons_cons]

theorem body_singleton (r : List Char × List Char) : body [r] = pairToJson r := by
  simp [body]

theorem pairToJson_eq (r : List Char × List Char) :
    pairToJson r = '[' :: ('"' :: escapeQuotes r.1 ++ '"' :: ',' :: '"' :: escapeQuotes r.2 ++
      ['"', ']']) := by
  simp [pairToJson]

section Escape

variable {x : Char} {text : List Char}

theorem escapeQuotes_cons (c : Char) (text : List Char) :
    escapeQuotes (c :: text) = (if c = '"' then ['\\', '"'] else [c]) ++ escapeQuotes text := rfl

theorem escapeQuotes_eq (h : '"' ∉ text) : escapeQuotes text = text := by
  induction text with
  | nil => rfl
  | cons c text ih =>
    rw [escapeQuotes_cons, if_neg fun hc => h (by simp [hc]), ih fun hmem => h (by simp [hmem])]
    rfl

theorem mem_escapeQuotes_iff (h : x ≠ '\\') : x ∈ escapeQuotes text ↔ x ∈ text := by
  induction text with
  | nil => simp [escapeQuotes]
  | cons c text ih =>
    rw [escapeQuotes_cons, List.mem_append, ih, List.mem_cons]
    split
    · next hc => simp [hc, h]
    · simp

theorem count_escapeQuotes (text : List Char) : (escapeQuotes text).count '[' = text.count '[' := by
  induction text with
  | nil => rfl
  | cons c text ih =>
    rw [escapeQuotes_cons, List.count_append, ih, List.count_cons]
    split
    · next hc => simp [hc]
    · simp [List.count_cons, Nat.add_comm]

theorem Plain.escapeQuotes (h : Plain text) : escapeQuotes text = text :=
  escapeQuotes_eq fun hmem => (h _ hmem).1 rfl

end Escape

variable {rs : List (List Char × List Char)} {r : List Char × List Char}

theorem raises_pair (htag : IsTag r.2) (hr : ']' ∉ r.1) :
    Raises (r.1.count '[') (pairToJson r) := by
  have hinner : Raises (r.1.count '[' + 1)
      ('[' :: ('"' :: escapeQuotes r.1 ++ '"' :: ',' :: '"' :: escapeQuotes r.2 ++ ['"'])) := by
    have hmem : ']' ∉ '[' :: ('"' :: escapeQuotes r.1 ++ '"' :: ',' :: '"' :: escapeQuotes r.2 ++
        ['"']) := by
      simp [mem_escapeQuotes_iff, hr, htag.plain.escapeQuotes]
      exact fun hmem => (htag.plain _ hmem).2.2.1 rfl
    have hcount : ('[' :: ('"' :: escapeQuotes r.1 ++ '"' :: ',' :: '"' :: escapeQuotes r.2 ++
        ['"'])).count '[' = r.1.count '[' + 1 := by
      have htag0 : r.2.count '[' = 0 :=
        List.count_eq_zero.mpr fun hmem => (htag.plain _ hmem).2.1 rfl
      simp [count_escapeQuotes, htag0]
    exact hcount ▸ Raises.of_not_mem hmem
  have := hinner.closed
  rw [pairToJson_eq]
  simpa using this

/-- The opening brackets in the clauses. -/
def openings : List (List Char × List Char) → Nat
  | [] => 0
  | r :: rs => r.1.count '[' + openings rs

theorem openings_eq_zero : openings rs = 0 ↔ ∀ r ∈ rs, '[' ∉ r.1 := by
  induction rs with
  | nil => simp [openings]
  | cons r rs ih =>
    rw [openings, Nat.add_eq_zero_iff, ih, List.forall_mem_cons, List.count_eq_zero]

theorem raises_body (h : ∀ r ∈ rs, IsTag r.2 ∧ ']' ∉ r.1) : Raises (openings rs) (body rs) := by
  induction rs with
  | nil => exact Raises.nil
  | cons r rs ih =>
    have hr := raises_pair (h r (by simp)).1 (h r (by simp)).2
    have hrs := ih fun r' hr' => h r' (by simp [hr'])
    cases rs with
    | nil => simpa [body_singleton, openings] using hr
    | cons r' rs =>
      rw [body_cons_cons, openings]
      have := hr.append ((Raises.plain (c := ',') (by decide) (by decide)).append hrs)
      simpa using this

theorem pairLoop_eq (inner : List Char) : pairLoop inner =
    match Text.cut (· == '[') inner with
    | none => []
    | some (_, opened) =>
      match Text.cut (· == ']') opened with
      | none => []
      | some (pair, rest) => (pairOf pair).toList ++ pairLoop rest := by
  rw [pairLoop]
  split
  · next h => rw [h]
  · next opened h =>
    rw [h]
    dsimp only
    split
    · next h' => rw [h']
    · next pair rest h' => rw [h']

theorem pairLoop_nil : pairLoop [] = [] := by
  rw [pairLoop_eq]
  rfl

theorem pairLoop_comma (inner : List Char) : pairLoop (',' :: inner) = pairLoop inner := by
  rw [pairLoop_eq, pairLoop_eq inner, Text.cut, if_neg (by decide)]
  cases Text.cut (· == '[') inner <;> rfl

theorem pairLoop_pair {pair : List Char} (h : ']' ∉ pair) (rest : List Char) :
    pairLoop ('[' :: (pair ++ ']' :: rest)) = (pairOf pair).toList ++ pairLoop rest := by
  rw [pairLoop_eq, Text.cut, if_pos (by decide)]
  have hcut : Text.cut (· == ']') (pair ++ ']' :: rest) = some (pair, rest) :=
    Text.cut_append (fun c hc => beq_eq_false_iff_ne.mpr (ne_of_mem_of_not_mem hc h)) (by decide)
      rest
  simp [hcut]

theorem pairLoop_length_le (inner : List Char) : (pairLoop inner).length ≤ inner.count ']' := by
  induction h : inner.length using Nat.strong_induction_on generalizing inner with
  | _ n ih =>
    subst h
    rw [pairLoop_eq]
    cases hopen : Text.cut (· == '[') inner with
    | none => simp
    | some r =>
      obtain ⟨skipped, opened⟩ := r
      obtain ⟨c, rfl, -, -⟩ := Text.eq_of_cut hopen
      dsimp only
      cases hclose : Text.cut (· == ']') opened with
      | none => simp
      | some r =>
        obtain ⟨pair, rest⟩ := r
        obtain ⟨d, rfl, hd, -⟩ := Text.eq_of_cut hclose
        have hrest := ih rest.length (by simp; omega) rest rfl
        have hpair : (pairOf pair).toList.length ≤ 1 := by
          cases pairOf pair <;> simp
        obtain rfl : d = ']' := by simpa using hd
        simp only [List.length_append, List.count_append, List.count_cons, beq_self_eq_true,
          if_true]
        omega

theorem trim_quoted (text : List Char) :
    Text.trim ('"' :: text ++ ['"']) = '"' :: text ++ ['"'] := by
  have hquote : ¬ Text.isWhitespace '"' = true := by decide
  rw [Text.trim, Text.trimMatches, List.cons_append, List.dropWhile_cons_of_neg hquote,
    ← List.cons_append, List.rdropWhile_concat_neg _ _ _ hquote]

theorem escapeQuotes_concat_quote (text : List Char) :
    escapeQuotes (text ++ ['"']) = escapeQuotes text ++ ['\\'] ++ ['"'] := by
  simp [escapeQuotes]

theorem length_escapeQuotes (text : List Char) :
    (escapeQuotes text).length = text.length + text.count '"' := by
  induction text with
  | nil => rfl
  | cons c text ih =>
    rw [escapeQuotes_cons, List.length_append, ih, List.length_cons, List.count_cons]
    by_cases hc : c = '"'
    · simp [hc]
      omega
    · simp [hc]
      omega

theorem unquote_quoted_iff (text : List Char) :
    unquote ('"' :: escapeQuotes text ++ ['"']) = text ↔ '"' ∉ text := by
  rw [unquote, trim_quoted, Text.trimMatches, List.cons_append,
    List.dropWhile_cons_of_pos (p := fun c => c == '"') rfl]
  rcases List.eq_nil_or_concat text with rfl | ⟨init, last, rfl⟩
  · simp [escapeQuotes]
  have hhead : ∀ text : List Char, (escapeQuotes text ++ ['"']).dropWhile (· == '"') =
      if text = [] then [] else escapeQuotes text ++ ['"'] := fun text => by
    cases text with
    | nil => rfl
    | cons c text =>
      rw [escapeQuotes_cons]
      by_cases hc : c = '"' <;> simp [hc]
  rw [List.concat_eq_append, hhead, if_neg (by simp), List.rdropWhile_concat_pos _ _ _ rfl]
  by_cases hlast : last = '"'
  · subst hlast
    rw [escapeQuotes_concat_quote, List.rdropWhile_concat_pos _ _ _ rfl,
      List.rdropWhile_concat_neg _ _ _ (by decide)]
    simp
  · have hconcat : escapeQuotes (init ++ [last]) = escapeQuotes init ++ [last] := by
      simp [escapeQuotes, hlast]
    rw [hconcat, List.rdropWhile_concat_neg _ _ _ (by simpa using hlast), ← hconcat]
    constructor
    · intro h hmem
      have hlength := length_escapeQuotes (init ++ [last])
      have hcount := List.count_pos_iff.mpr hmem
      rw [h] at hlength
      omega
    · exact escapeQuotes_eq

/-- The inside of a written pair. -/
def pairText (r : List Char × List Char) : List Char :=
  ('"' :: escapeQuotes r.1 ++ ['"']) ++ ',' :: ('"' :: escapeQuotes r.2 ++ ['"'])

theorem pairToJson_eq_pairText (r : List Char × List Char) :
    pairToJson r = '[' :: (pairText r ++ [']']) := by
  simp [pairToJson, pairText]

theorem pairOf_pairText (htag : IsTag r.2) (hcomma : ',' ∉ r.1) :
    pairOf (pairText r) = some (unquote ('"' :: escapeQuotes r.1 ++ ['"']), r.2) := by
  have hpart : ∀ c ∈ '"' :: escapeQuotes r.1 ++ ['"'], (c == ',') = false := by
    intro c hc
    apply beq_eq_false_iff_ne.mpr
    rintro rfl
    simp [mem_escapeQuotes_iff, hcomma] at hc
  have htext : unquote ('"' :: escapeQuotes r.2 ++ ['"']) = r.2 :=
    (unquote_quoted_iff r.2).mpr fun hmem => (htag.plain _ hmem).1 rfl
  rw [pairOf, pairText, Text.cut_append hpart rfl, Option.map_some, htext]

theorem pairLoop_body (h : ∀ r ∈ rs, IsTag r.2 ∧ ']' ∉ r.1 ∧ ',' ∉ r.1) :
    pairLoop (body rs) = rs.map fun r => (unquote ('"' :: escapeQuotes r.1 ++ ['"']), r.2) := by
  induction rs with
  | nil => exact pairLoop_nil
  | cons r rs ih =>
    obtain ⟨htag, hclose, hcomma⟩ := h r (by simp)
    have hpair : ']' ∉ pairText r := by
      have htext : ']' ∉ r.2 := fun hmem => (htag.plain _ hmem).2.2.1 rfl
      simp [pairText, mem_escapeQuotes_iff, hclose, htext]
    have hrs := ih fun r' hr' => h r' (by simp [hr'])
    cases rs with
    | nil =>
      rw [body_singleton, pairToJson_eq_pairText, pairLoop_pair hpair, pairOf_pairText htag hcomma,
        pairLoop_nil]
      rfl
    | cons r' rs =>
      rw [body_cons_cons, pairToJson_eq_pairText, List.cons_append, List.append_assoc,
        List.singleton_append, pairLoop_pair hpair, pairOf_pairText htag hcomma, pairLoop_comma,
        hrs]
      rfl

theorem count_body (h : ∀ r ∈ rs, IsTag r.2 ∧ ']' ∉ r.1) : (body rs).count ']' = rs.length := by
  induction rs with
  | nil => rfl
  | cons r rs ih =>
    have hpair : (pairToJson r).count ']' = 1 := by
      have htext : ']' ∉ r.2 := fun hmem => ((h r (by simp)).1.plain _ hmem).2.2.1 rfl
      have hnot : ']' ∉ pairText r := by
        simp [pairText, mem_escapeQuotes_iff, (h r (by simp)).2, htext]
      simp [pairToJson_eq_pairText, List.count_eq_zero.mpr hnot]
    have hrs := ih fun r' hr' => h r' (by simp [hr'])
    cases rs with
    | nil => simpa [body_singleton] using hpair
    | cons r' rs =>
      rw [body_cons_cons, List.count_append, hpair, List.count_cons_of_ne (by decide), hrs]
      simp [Nat.add_comm]

theorem body_ends (h : rs ≠ []) : ∃ init, body rs = '[' :: init ++ [']'] := by
  induction rs with
  | nil => exact absurd rfl h
  | cons r rs ih =>
    cases rs with
    | nil => exact ⟨pairText r, by rw [body_singleton, pairToJson_eq_pairText]; rfl⟩
    | cons r' rs =>
      obtain ⟨init, hinit⟩ := ih (by simp)
      refine ⟨pairText r ++ ']' :: ',' :: '[' :: init, ?_⟩
      rw [body_cons_cons, hinit, pairToJson_eq_pairText]
      simp

theorem trim_body_ne (h : rs ≠ []) : Text.trim (body rs) ≠ [] := by
  obtain ⟨init, hinit⟩ := body_ends h
  have hopen : ¬ Text.isWhitespace '[' = true := by decide
  have hclose : ¬ Text.isWhitespace ']' = true := by decide
  rw [hinit, Text.trim, Text.trimMatches, List.cons_append, List.dropWhile_cons_of_neg hopen,
    ← List.cons_append, List.rdropWhile_concat_neg _ _ _ hclose]
  simp

theorem ascii_append {s t : List Char} : Ascii (s ++ t) ↔ Ascii s ∧ Ascii t :=
  List.forall_mem_append

theorem ascii_cons {c : Char} {s : List Char} : Ascii (c :: s) ↔ c.utf8Size = 1 ∧ Ascii s :=
  List.forall_mem_cons

theorem ascii_escapeQuotes (text : List Char) : Ascii (escapeQuotes text) ↔ Ascii text := by
  induction text with
  | nil => rfl
  | cons c text ih =>
    rw [escapeQuotes_cons, ascii_append, ih, ascii_cons]
    apply and_congr_left
    intro _
    split
    · next hc =>
      subst hc
      simp [Ascii, Char.utf8Size]
    · simp [Ascii]

theorem ascii_pairToJson (htag : IsTag r.2) : Ascii (pairToJson r) ↔ Ascii r.1 := by
  have hquotes : Ascii ("[\"".toList) ∧ Ascii ("\",\"".toList) ∧ Ascii ("\"]".toList) := by
    simp [Ascii, Char.utf8Size]
  simp only [pairToJson, ascii_append, ascii_escapeQuotes, hquotes.1, hquotes.2.1, hquotes.2.2,
    htag.ascii, true_and, and_true]

theorem ascii_body_iff (h : ∀ r ∈ rs, IsTag r.2) : Ascii (body rs) ↔ ∀ r ∈ rs, Ascii r.1 := by
  induction rs with
  | nil => simp [body, Ascii]
  | cons r rs ih =>
    have hpair := ascii_pairToJson (h r (by simp))
    have hrs := ih fun r' hr' => h r' (by simp [hr'])
    rw [List.forall_mem_cons]
    cases rs with
    | nil => simp [body_singleton, hpair]
    | cons r' rs =>
      have hcomma : Ascii [','] := by
        simp [Ascii, Char.utf8Size]
      rw [body_cons_cons, ← List.singleton_append, ascii_append, ascii_append, hpair, hrs]
      simp [hcomma]

section List

variable {post : List Char} {k : Nat}

/-- A clause with an opening bracket leaves the list without its end. -/
theorem closing_body (h : ∀ r ∈ rs, IsTag r.2 ∧ ']' ∉ r.1) (hpost : Raises k post) :
    closing 1 (body rs ++ ']' :: post) =
      if ∀ r ∈ rs, '[' ∉ r.1 then some (body rs).length else none := by
  have hbody := raises_body h 0 (']' :: post)
  have hsum : openings rs = 0 ↔ ∀ r ∈ rs, '[' ∉ r.1 := openings_eq_zero
  rw [Nat.zero_add] at hbody
  rw [hbody]
  generalize openings rs = total at hsum ⊢
  cases total with
  | zero =>
    rw [if_pos (hsum.mp rfl), closing, if_neg (by decide), if_pos rfl, if_pos rfl]
    simp
  | succ total =>
    rw [if_neg fun hall => absurd (hsum.mpr hall) (by omega), closing, if_neg (by decide),
      if_pos rfl, if_neg (by omega), show 1 + (total + 1) - 1 = total + 1 by omega,
      hpost.closing_eq_none]
    rfl

theorem byteLength_body (hascii : Ascii (body rs)) :
    Text.byteLength (body rs) = (body rs).length :=
  Text.byteLength_eq_length_iff.mpr hascii

/-- What is cut out of a list that is not ASCII lacks the end of its last pair. -/
theorem count_lt_of_takeBytes (h : ∀ r ∈ rs, IsTag r.2 ∧ ']' ∉ r.1) (hascii : ¬ Ascii (body rs))
    {inner : List Char}
    (htake : Text.takeBytes (body rs).length (body rs ++ ']' :: post) = some inner) :
    inner.count ']' < rs.length := by
  obtain ⟨hfront, hlength⟩ := Text.takeBytes_eq_some.mp htake
  have hshort : ¬ body rs <+: inner := by
    rintro ⟨more, rfl⟩
    rw [Text.byteLength_append] at hlength
    have := Text.length_le_byteLength (body rs)
    exact hascii (Text.byteLength_eq_length_iff.mp (by omega))
  have hne : rs ≠ [] := by
    rintro rfl
    exact hascii fun _ hc => absurd hc (by simp [body])
  obtain ⟨init, hinit⟩ := body_ends hne
  have hinner : inner <+: '[' :: init := by
    rcases List.prefix_or_prefix_of_prefix hfront (List.prefix_append (body rs) _) with hin | hin
    · rw [hinit] at hin
      rcases List.prefix_concat_iff.mp hin with heq | hin
      · exact absurd (heq ▸ hinit ▸ List.prefix_refl (body rs)) hshort
      · exact hin
    · exact absurd hin hshort
  have hcount := count_body h
  have hle := hinner.sublist.count_le ']'
  rw [hinit, List.count_append, List.count_singleton_self] at hcount
  omega

theorem listResults_eq (h : ∀ r ∈ rs, IsTag r.2 ∧ ']' ∉ r.1 ∧ ',' ∉ r.1) (hpost : Raises k post)
    (hopen : ∀ r ∈ rs, '[' ∉ r.1) (hascii : Ascii (body rs)) :
    listResults (body rs ++ ']' :: post) =
      .ok (rs.map fun r => (unquote ('"' :: escapeQuotes r.1 ++ ['"']), r.2)) := by
  have htake : Text.takeBytes (body rs).length (body rs ++ ']' :: post) = some (body rs) :=
    Text.takeBytes_eq_some.mpr ⟨List.prefix_append _ _, byteLength_body hascii⟩
  rw [listResults, closing_body (fun r hr => ⟨(h r hr).1, (h r hr).2.1⟩) hpost, if_pos hopen]
  dsimp only
  rw [htake]
  dsimp only
  by_cases hrs : rs = []
  · subst hrs
    rfl
  · rw [if_neg (trim_body_ne hrs), pairLoop_body h]

theorem listResults_clean (h : ∀ r ∈ rs, IsTag r.2) (hpost : Raises k post)
    (hclean : ∀ r ∈ rs, Plain r.1 ∧ Ascii r.1) : listResults (body rs ++ ']' :: post) = .ok rs := by
  rw [listResults_eq _ hpost _ ((ascii_body_iff h).mpr fun r hr => (hclean r hr).2)]
  · congr 1
    refine (List.map_congr_left fun r hr => ?_).trans (List.map_id rs)
    rw [(unquote_quoted_iff r.1).mpr fun hmem => ((hclean r hr).1 _ hmem).1 rfl]
    rfl
  · exact fun r hr => ⟨h r hr, fun hmem => ((hclean r hr).1 _ hmem).2.2.1 rfl,
      fun hmem => ((hclean r hr).1 _ hmem).2.2.2 rfl⟩
  · exact fun r hr hmem => ((hclean r hr).1 _ hmem).2.1 rfl

theorem clean_of_listResults (h : ∀ r ∈ rs, IsTag r.2 ∧ ']' ∉ r.1 ∧ ',' ∉ r.1)
    (hpost : Raises k post) {results : List (List Char × List Char)}
    (hread : listResults (body rs ++ ']' :: post) = .ok results)
    (hsame : results.map Prod.fst = rs.map Prod.fst) : ∀ r ∈ rs, Plain r.1 ∧ Ascii r.1 := by
  have hclose : ∀ r ∈ rs, IsTag r.2 ∧ ']' ∉ r.1 := fun r hr => ⟨(h r hr).1, (h r hr).2.1⟩
  have hlength : results.length = rs.length := by
    simpa using congrArg List.length hsame
  have hopen : ∀ r ∈ rs, '[' ∉ r.1 := by
    by_contra hopen
    rw [listResults, closing_body hclose hpost, if_neg hopen] at hread
    cases hread
  have hascii : Ascii (body rs) := by
    by_contra hascii
    rw [listResults, closing_body hclose hpost, if_pos hopen] at hread
    dsimp only at hread
    cases htake : Text.takeBytes (body rs).length (body rs ++ ']' :: post) with
    | none => simp [htake] at hread
    | some inner =>
      have hcount := count_lt_of_takeBytes hclose hascii htake
      have hpairs := pairLoop_length_le inner
      rw [htake] at hread
      obtain rfl := Except.ok.inj hread
      split at hlength
      · simp only [List.length_nil] at hlength
        omega
      · omega
  rw [listResults_eq h hpost hopen hascii] at hread
  obtain rfl := Except.ok.inj hread
  intro r hr
  refine ⟨fun c hc => ⟨?_, ?_, ?_, ?_⟩, (ascii_body_iff fun r hr => (h r hr).1).mp hascii r hr⟩
  · rintro rfl
    rw [List.map_map] at hsame
    have := List.map_inj_left.mp hsame r hr
    exact (unquote_quoted_iff r.1).mp this hc
  · exact ne_of_mem_of_not_mem hc (hopen r hr)
  · exact ne_of_mem_of_not_mem hc (h r hr).2.1
  · exact ne_of_mem_of_not_mem hc (h r hr).2.2

end List

end Airl.Solver.DiskCache
