import Mathlib.Data.List.Flatten
import Airl.Agent.Written
import Airl.Syntax.Atoms

/-! # The strings of a value

The strings and tags of a value that was read are atoms of the text it was read from.
A written value holds one backslash for each of its own, too few for a string that
takes one, so a value can only be read from its own text if all its strings are plain.
-/

namespace Airl.Agent

open Airl.Syntax Lexer

namespace Datum

mutual

/-- The characters of all strings and tags. -/
def text : Datum → List Char
  | .str s => s
  | .list items => textOfItems items
  | .variant tag inner => tag ++ text inner
  | .constant tag => tag
  | .nil | .bool _ | .int _ | .float _ => []

def textOfItems : List Datum → List Char
  | [] => []
  | v :: vs => text v ++ textOfItems vs

end

mutual

/-- Every tag could have been read. -/
def Tagged : Datum → Prop
  | .list items => TaggedItems items
  | .variant tag inner => IsTag tag ∧ Tagged inner
  | .constant _ => False
  | .nil | .bool _ | .int _ | .float _ | .str _ => True

def TaggedItems : List Datum → Prop
  | [] => True
  | v :: vs => Tagged v ∧ TaggedItems vs

end

end Datum

open Datum

mutual

theorem text_sexprToValue : ∀ e : SExpr,
    (sexprToValue e).text = e.atoms.flatMap AtomKind.text
  | .atom kind => by cases kind <;> simp [sexprToValue, atomValue, text, SExpr.atoms, AtomKind.text]
  | .list items => by
    rw [SExpr.atoms, ← text_sexprsToValues items]
    rcases sexprToValue_list items with h | ⟨name, inner, rfl, -, h⟩
    · rw [h, text]
    · rw [h, text, sexprsToValues, textOfItems, sexprsToValues, textOfItems, sexprsToValues,
        textOfItems, List.append_nil]
      rfl
  | .bracketList items => by
    rw [sexprToValue, text, SExpr.atoms]
    exact text_sexprsToValues items

theorem text_sexprsToValues : ∀ es : List SExpr,
    textOfItems (sexprsToValues es) = (itemsAtoms es).flatMap AtomKind.text
  | [] => rfl
  | e :: es => by
    rw [sexprsToValues, textOfItems, itemsAtoms, List.flatMap_append, text_sexprToValue e,
      text_sexprsToValues es]

end

/-- The symbols that can be tags are names. -/
def NamedSymbols (atoms : List AtomKind) : Prop :=
  ∀ name, .symbol name ∈ atoms → startsUppercase name = true → IsName name

theorem NamedSymbols.of_sublist {atoms all : List AtomKind} (h : NamedSymbols all)
    (hsub : atoms.Sublist all) : NamedSymbols atoms :=
  fun name hmem => h name (hsub.subset hmem)

mutual

theorem tagged_sexprToValue : ∀ e : SExpr, NamedSymbols e.atoms → (sexprToValue e).Tagged
  | .atom kind, _ => by cases kind <;> simp [sexprToValue, atomValue, Tagged]
  | .list items, h => by
    have hitems := tagged_sexprsToValues items h
    rcases sexprToValue_list items with hvalue | ⟨name, inner, rfl, hupper, hvalue⟩
    · rwa [hvalue, Tagged]
    · have hname : IsName name := h name (by simp [SExpr.atoms, itemsAtoms]) hupper
      simp only [sexprsToValues, TaggedItems] at hitems
      rw [hvalue, Tagged]
      exact ⟨⟨hupper, hname⟩, hitems.2.1⟩
  | .bracketList items, h => by
    rw [sexprToValue, Tagged]
    exact tagged_sexprsToValues items h

theorem tagged_sexprsToValues : ∀ es : List SExpr, NamedSymbols (itemsAtoms es) →
    TaggedItems (sexprsToValues es)
  | [], _ => trivial
  | e :: es, h => by
    rw [itemsAtoms] at h
    rw [sexprsToValues, TaggedItems]
    exact ⟨tagged_sexprToValue e (h.of_sublist (List.sublist_append_left _ _)),
      tagged_sexprsToValues es (h.of_sublist (List.sublist_append_right _ _))⟩

end

section Written

variable {F : FloatFormat}

theorem count_slash_of_chars {s : List Char} (h : ∀ c ∈ s, c ≠ '\\') : s.count '\\' = 0 :=
  List.count_eq_zero.mpr fun hmem => h _ hmem rfl

theorem count_slash_int (n : Int64) : (intText n).count '\\' = 0 := by
  obtain ⟨negative, k, htext, -⟩ := parseI64_toString n
  rw [intText, htext]
  refine count_slash_of_chars fun c hc => ?_
  rcases List.mem_append.mp hc with hc | hc
  · rintro rfl
    cases negative <;> simp [signText] at hc
  · rintro rfl
    exact absurd ((isDigits_toDigits k).2 _ hc) (by decide)

theorem count_slash_float (hF : F.Lawful) (bits : UInt64) :
    (display F (.float bits)).count '\\' = 0 := by
  rcases display_float hF bits with ⟨-, negative, ds, fs, hds, hfs, htext, -⟩ | ⟨-, hname⟩
  · rw [htext]
    refine count_slash_of_chars fun c hc => ?_
    rintro rfl
    have hsign : '\\' ∉ signText negative := by cases negative <;> simp [signText]
    have hds' : '\\' ∉ ds := fun hmem => absurd (hds.2 _ hmem) (by decide)
    have hfs' : '\\' ∉ fs := fun hmem => absurd (hfs.2 _ hmem) (by decide)
    simp [fractionText, hsign, hds', hfs'] at hc
  · rw [List.mem_cons, List.mem_cons, List.mem_singleton] at hname
    rcases hname with h | h | h
    · rw [h]
      decide
    · rw [h]
      decide
    · rw [h]
      decide

theorem count_slash_items {items : List Datum}
    (h : ∀ v ∈ items, (display F v).count '\\' = v.text.count '\\') :
    (displayItems F items).count '\\' = (textOfItems items).count '\\' := by
  induction items with
  | nil => rfl
  | cons v vs ih =>
    have hvs := ih fun w hw => h w (by simp [hw])
    have hv := h v (by simp)
    cases vs with
    | nil => rw [displayItems, textOfItems, textOfItems, List.append_nil, hv]
    | cons w ws =>
      have hitems : displayItems F (v :: w :: ws) =
          display F v ++ ' ' :: displayItems F (w :: ws) := by
        rw [displayItems]
        exact List.cons_ne_nil w ws
      rw [hitems, textOfItems, List.count_append, List.count_append,
        List.count_cons_of_ne (by decide), hv, hvs]

theorem count_slash_display (hF : F.Lawful) (v : Datum) :
    (display F v).count '\\' = v.text.count '\\' := by
  induction v using Datum.induct with
  | nil => rfl
  | bool b => cases b <;> rfl
  | int n => exact count_slash_int n
  | float bits => exact count_slash_float hF bits
  | str s => simp [display, text]
  | list items ih => simp [display, text, count_slash_items ih]
  | variant tag inner ih => simp [display, text, ih]
  | constant tag => simp [display, text]

theorem namedSymbols_of_lexes {s : List Char} {ts : List Token} (hts : Lexes F.parse s ts) :
    NamedSymbols (ts.filterMap atomOf) := by
  intro name hmem hupper
  obtain ⟨tok, htok, hatom⟩ := List.mem_filterMap.mp hmem
  cases tok with
  | symbol name' =>
    cases hatom
    rcases isName_of_lexes hts htok with hname | rfl
    · exact hname
    · cases hupper
  | colon =>
    cases hatom
    cases hupper
  | _ => cases hatom

theorem isPlain_of_read (hF : F.Lawful) {v : Datum} {e : SExpr} {ts : List Token}
    (hts : Lexes F.parse (display F v ++ [')']) ts) (hatoms : e.atoms.Sublist (ts.filterMap atomOf))
    (hvalue : sexprToValue e = v) : IsPlain v.text := by
  have hread : v.text.Sublist (ts.flatMap Token.text) := by
    rw [flatMap_tokenText, ← hvalue, text_sexprToValue]
    exact hatoms.flatMap _
  have hcost := Nat.le_trans (escapes_le_of_sublist hread) (escapes_of_lexes hts)
  have hcount : (display F v ++ [')']).count '\\' = v.text.count '\\' := by
    rw [List.count_append, count_slash_display hF]
    rfl
  rw [hcount] at hcost
  rw [← escapes_eq_zero_iff]
  unfold escapes at hcost ⊢
  omega

/-- The text `x` in a delimited place gives tokens of its own, none of them a keyword. -/
def KeywordFree (F : FloatFormat) (x : List Char) : Prop :=
  ∀ rest ts, Delimited rest → Lexes F.parse (x ++ rest) ts →
    ∃ front ts', ts = front ++ ts' ∧ (∀ k, .keyword k ∉ front) ∧ Lexes F.parse rest ts'

theorem keywordFree_of_token {x : List Char} {tok : Token} (htok : ∀ k, tok ≠ .keyword k)
    (hnext : ∀ rest, Delimited rest → nextToken F.parse (x ++ rest) = .ok (some (tok, rest))) :
    KeywordFree F x := by
  intro rest ts hrest hts
  obtain ⟨ts', rfl, hts'⟩ := (lexes_iff_of_token (hnext rest hrest)).mp hts
  exact ⟨[tok], ts', rfl, fun k => by simpa using (htok k).symm, hts'⟩

theorem keywordFree_name {name : List Char} (hname : IsName name)
    (hhead : name.head?.any Char.isAlpha = true) : KeywordFree F name := by
  refine keywordFree_of_token (fun k => ?_) fun _ hrest => nextToken_name hname hhead hrest.breaks
  split_ifs <;> simp

theorem escapeStr_of_isPlain {s : List Char} (h : IsPlain s) : escapeStr s = s := by
  induction s with
  | nil => rfl
  | cons c s ih =>
    obtain ⟨hquote, hslash⟩ := h
    rw [List.mem_cons, not_or] at hquote hslash
    rw [escapeStr_cons, if_neg (Ne.symm hslash.1), if_neg (Ne.symm hquote.1),
      ih ⟨hquote.2, hslash.2⟩]
    rfl

theorem keywordFree_string (s : List Char) : KeywordFree F ('"' :: escapeStr s ++ ['"']) := by
  intro rest ts _ hts
  have htext : '"' :: escapeStr s ++ ['"'] ++ rest = '"' :: (escapeStr s ++ '"' :: rest) := by
    simp
  rw [htext] at hts
  have hnext : nextToken F.parse ('"' :: (escapeStr s ++ '"' :: rest)) = _ := nextToken_quote
  cases hread : lexString [] (escapeStr s ++ '"' :: rest) with
  | error e =>
    rw [hread] at hnext
    exact absurd hts (not_lexes_of_error hnext)
  | ok p =>
    obtain ⟨w, t⟩ := p
    rw [hread] at hnext
    obtain ⟨ts', rfl, hts'⟩ := (lexes_iff_of_token hnext).mp hts
    obtain ⟨-, -, rfl⟩ := lexString_escapeStr_iff.mp hread
    exact ⟨[.str w], ts', rfl, by simp, hts'⟩

theorem keywordFree_items {f : Datum → List Char} {items : List Datum} {rest : List Char}
    {ts : List Token} (h : ∀ v ∈ items, KeywordFree F (f v))
    (hts : Lexes F.parse (itemsText f items rest) ts) :
    ∃ front ts', ts = front ++ ts' ∧ (∀ k, .keyword k ∉ front) ∧ Lexes F.parse rest ts' := by
  induction items generalizing ts with
  | nil =>
    obtain ⟨ts', rfl, hts'⟩ := (lexes_iff_of_token nextToken_rbracket).mp hts
    exact ⟨[.rbracket], ts', rfl, by simp, hts'⟩
  | cons v vs ih =>
    obtain ⟨tail, htext, htail, hlexes⟩ := itemsText_cons F f rest v vs
    rw [htext] at hts
    obtain ⟨front, ts', rfl, hfree, hts'⟩ := h v (by simp) _ _ htail hts
    obtain ⟨front', ts'', rfl, hfree', hts''⟩ :=
      ih (fun w hw => h w (by simp [hw])) ((hlexes _).mp hts')
    refine ⟨front ++ front', ts'', (List.append_assoc _ _ _).symm, fun k => ?_, hts''⟩
    rw [List.mem_append, not_or]
    exact ⟨hfree k, hfree' k⟩

theorem keywordFree_variant {tag x : List Char} (htag : IsTag tag) (h : KeywordFree F x) :
    KeywordFree F ('(' :: tag ++ ' ' :: x ++ [')']) := by
  intro rest ts _ hts
  have hblank : Delimited (' ' :: (x ++ ')' :: rest)) := ⟨_, _, rfl, by simp⟩
  have htext : '(' :: tag ++ ' ' :: x ++ [')'] ++ rest =
      '(' :: (tag ++ ' ' :: (x ++ ')' :: rest)) := by
    simp
  rw [htext] at hts
  obtain ⟨ts1, rfl, hts1⟩ := (lexes_iff_of_token nextToken_lparen).mp hts
  obtain ⟨ts2, rfl, hts2⟩ := (lexes_iff_of_token (nextToken_tag htag hblank)).mp hts1
  obtain ⟨front, ts3, rfl, hfree, hts3⟩ :=
    h _ _ ⟨_, _, rfl, by simp⟩ ((lexes_congr (nextToken_space _)).mp hts2)
  obtain ⟨ts4, rfl, hts4⟩ := (lexes_iff_of_token nextToken_rparen).mp hts3
  refine ⟨.lparen :: .symbol tag :: front ++ [.rparen], ts4, by simp, fun k => ?_, hts4⟩
  simpa using hfree k

theorem isPlain_items {items : List Datum} (h : IsPlain (textOfItems items)) :
    ∀ v ∈ items, IsPlain v.text := by
  induction items with
  | nil => simp
  | cons v vs ih =>
    obtain ⟨hquote, hslash⟩ := h
    rw [textOfItems, List.mem_append, not_or] at hquote hslash
    exact List.forall_mem_cons.mpr ⟨⟨hquote.1, hslash.1⟩, ih ⟨hquote.2, hslash.2⟩⟩

theorem taggedItems_iff {items : List Datum} : TaggedItems items ↔ ∀ v ∈ items, v.Tagged := by
  induction items with
  | nil => simp [TaggedItems]
  | cons v vs ih => rw [TaggedItems, ih, List.forall_mem_cons]

theorem keywordFree_display (hF : F.Lawful) {v : Datum} (hplain : IsPlain v.text)
    (htagged : v.Tagged) : KeywordFree F (display F v) := by
  induction v using Datum.induct with
  | nil =>
    exact keywordFree_name (by decide : IsName "nil".toList) rfl
  | bool b =>
    cases b with
    | true => exact keywordFree_name (by decide : IsName "true".toList) rfl
    | false => exact keywordFree_name (by decide : IsName "false".toList) rfl
  | int n => exact keywordFree_of_token (by simp) fun _ hrest => nextToken_int n hrest.breaks
  | float bits =>
    rcases display_float hF bits with ⟨-, negative, ds, fs, hds, hfs, htext, hparse⟩ | ⟨-, hname⟩
    · rw [htext]
      exact keywordFree_of_token (by simp) fun _ hrest =>
        nextToken_float hds hfs hparse hrest.breaks
    · exact keywordFree_of_token (by simp) fun _ hrest => nextToken_notFinite hname hrest.breaks
  | str s =>
    have hplain' : escapeStr s = s := escapeStr_of_isPlain hplain
    rw [display, ← hplain']
    exact keywordFree_string s
  | list items ih =>
    intro rest ts _ hts
    have hitems : ∀ v ∈ items, KeywordFree F (display F v) := fun v hv =>
      ih v hv (isPlain_items hplain v hv) (taggedItems_iff.mp htagged v hv)
    have htext : display F (.list items) ++ rest = '[' :: itemsText (display F) items rest := by
      rw [display, displayItems_eq]
      simp [itemsText]
    rw [htext] at hts
    obtain ⟨ts', rfl, hts'⟩ := (lexes_iff_of_token nextToken_lbracket).mp hts
    obtain ⟨front, ts'', rfl, hfree, hts''⟩ := keywordFree_items hitems hts'
    exact ⟨.lbracket :: front, ts'', rfl, fun k => by simpa using hfree k, hts''⟩
  | variant tag inner ih =>
    obtain ⟨hquote, hslash⟩ := hplain
    rw [text, List.mem_append, not_or] at hquote hslash
    rw [display]
    exact keywordFree_variant htagged.1 (ih ⟨hquote.2, hslash.2⟩ htagged.2)
  | constant tag => exact htagged.elim

end Written

end Airl.Agent
