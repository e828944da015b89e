import Airl.Agent.Protocol
import Airl.Agent.RoundTrip
import Airl.Syntax.Rereading

/-! # The formatter

`fmt.rs`: a source text is read as expressions and printed again. A list whose text is longer than
eighty bytes is broken behind each of its items.

Every token of a printed expression is read again as itself, except a float without a fraction:
its text is that of an integer or, if it is infinite, of a symbol.
-/

namespace Airl.Fmt

section Printing

open Airl.Syntax (AtomKind SExpr)
open Airl.Agent (FloatFormat escapeStr intText lexAndParse)

variable (F : FloatFormat)

/-- `{}` of the numbers of a version, with points between them. -/
def versionText (major minor patch : Nat) : List Char :=
  Nat.toDigits 10 major ++ '.' :: (Nat.toDigits 10 minor ++ '.' :: Nat.toDigits 10 patch)

def formatAtom : AtomKind → List Char
  | .integer v => intText v
  | .float v => F.text v
  | .str v => '"' :: (escapeStr v ++ ['"'])
  | .symbol v => v
  | .keyword v => ':' :: v
  | .bool true => "true".toList
  | .bool false => "false".toList
  | .nil => "nil".toList
  | .arrow => "->".toList
  | .version major minor patch => versionText major minor patch

mutual

def prettyPrintInner (indent : Nat) : SExpr → List Char
  | .atom kind => formatAtom F kind
  | .list items =>
    if items.isEmpty then "()".toList
    else
      let parts := printParts (indent + 2) items
      let oneLine := '(' :: ([' '].intercalate parts ++ [')'])
      if Text.byteLength oneLine ≤ 80 then oneLine
      else '(' :: (('\n' :: List.replicate (indent + 1) ' ').intercalate parts ++ [')'])
  | .bracketList items => '[' :: ([' '].intercalate (printParts (indent + 1) items) ++ [']'])

/-- The printed items. -/
def printParts (indent : Nat) : List SExpr → List (List Char)
  | [] => []
  | item :: items => prettyPrintInner indent item :: printParts indent items

end

def prettyPrint (sexpr : SExpr) : List Char := prettyPrintInner F 0 sexpr

/-- The expressions, each on lines of its own. -/
def output (sexprs : List SExpr) : List Char := ['\n'].intercalate (sexprs.map (prettyPrint F))

def formatSource (source : List Char) : Except String (List Char) := do
  let sexprs ← lexAndParse F.parse source
  return output F sexprs

end Printing

/-! ## What a formatted text is read as -/

open Airl.Syntax Lexer
open Airl.Agent (FloatFormat escapeStr intText lexAndParse isFinite isWhole)

variable {F : FloatFormat} {s rest x y : List Char} {ts us vs : List Token} {e : SExpr}
  {items exprs : List SExpr} {kind : AtomKind}

/-- A float whose text holds a point. -/
def Fractional (bits : UInt64) : Prop := isFinite bits = true ∧ isWhole bits = false

instance : DecidablePred Fractional := fun _ => inferInstanceAs (Decidable (_ ∧ _))

/-- What the text of a token is read as. -/
def reread (F : FloatFormat) : Token → Option Token
  | .float bits =>
    if isFinite bits then
      if isWhole bits then (parseI64 (F.text bits)).map .integer else some (.float bits)
    else some (.symbol (F.text bits))
  | t => some t.respelled

/-- The tokens that the texts of tokens are read as. -/
def rereadAll (F : FloatFormat) : List Token → Option (List Token)
  | [] => some []
  | t :: ts => do return (← reread F t) :: (← rereadAll F ts)

theorem rereadAll_cons_iff {t : Token} : rereadAll F (t :: us) = some ts ↔
    ∃ t' ts', reread F t = some t' ∧ rereadAll F us = some ts' ∧ ts = t' :: ts' := by
  rw [rereadAll]
  cases reread F t <;> cases rereadAll F us <;> simp [eq_comm]

theorem rereadAll_append_iff : rereadAll F (us ++ vs) = some ts ↔
    ∃ front back, rereadAll F us = some front ∧ rereadAll F vs = some back ∧
      ts = front ++ back := by
  induction us generalizing ts with
  | nil => simp [rereadAll, eq_comm]
  | cons t us ih =>
    rw [List.cons_append, rereadAll_cons_iff]
    constructor
    · rintro ⟨t', ts', ht, hts, rfl⟩
      obtain ⟨front, back, hfront, hback, rfl⟩ := ih.mp hts
      exact ⟨t' :: front, back, rereadAll_cons_iff.mpr ⟨t', front, ht, hfront, rfl⟩, hback, rfl⟩
    · rintro ⟨front, back, hfront, hback, rfl⟩
      obtain ⟨t', ts', ht, hts, rfl⟩ := rereadAll_cons_iff.mp hfront
      exact ⟨t', ts' ++ back, ht, ih.mpr ⟨ts', back, hts, hback, rfl⟩, rfl⟩

/-- The text `x` is read as the tokens `us` are read again, whatever stands behind it. -/
def LexesAs (F : FloatFormat) (x : List Char) (us : List Token) : Prop :=
  ∀ rest ts, Breaks rest → (Lexes F.parse (x ++ rest) ts ↔
    ∃ front back, rereadAll F us = some front ∧ Lexes F.parse rest back ∧ ts = front ++ back)

/-! ## Atoms -/

theorem lexesAs_token {t t' : Token} (ht : reread F t = some t')
    (hnext : ∀ rest, Breaks rest → nextToken F.parse (x ++ rest) = .ok (some (t', rest))) :
    LexesAs F x [t] := by
  intro rest ts hrest
  have hreread : rereadAll F [t] = some [t'] := rereadAll_cons_iff.mpr ⟨t', [], ht, rfl, rfl⟩
  rw [lexes_iff_of_token (hnext rest hrest), hreread]
  constructor
  · rintro ⟨back, rfl, hback⟩
    exact ⟨[t'], back, rfl, hback, rfl⟩
  · rintro ⟨front, back, hfront, hback, rfl⟩
    cases hfront
    exact ⟨back, rfl, hback⟩

theorem lexesAs_error {t : Token} (ht : reread F t = none)
    (hnext : ∀ rest, Breaks rest → ∃ message, nextToken F.parse (x ++ rest) = .error message) :
    LexesAs F x [t] := by
  intro rest ts hrest
  obtain ⟨message, hmessage⟩ := hnext rest hrest
  constructor
  · exact fun h => absurd h (not_lexes_of_error hmessage)
  · rintro ⟨front, -, hfront, -, -⟩
    obtain ⟨t', -, ht', -⟩ := rereadAll_cons_iff.mp hfront
    rw [ht] at ht'
    cases ht'

theorem lexesAs_float (hF : F.Lawful) (bits : UInt64) : LexesAs F (F.text bits) [.float bits] := by
  by_cases hfinite : isFinite bits = true
  · by_cases hwhole : isWhole bits = true
    · obtain ⟨negative, ds, hds, htext, -⟩ := hF.whole bits hfinite hwhole
      have hnext (rest : List Char) (hrest : Breaks rest) :
          nextToken F.parse (F.text bits ++ rest) =
            (finishNumber F.parse (F.text bits) rest).map some := by
        rw [htext]
        exact nextToken_digits hds hrest
      have hreread : reread F (.float bits) = (parseI64 (F.text bits)).map .integer := by
        rw [reread, if_pos hfinite, if_pos hwhole]
      have hchars := @signText_digits negative ds hds
      rw [← htext] at hchars
      cases hparse : parseI64 (F.text bits) with
      | some n =>
        rw [hparse] at hreread
        refine lexesAs_token hreread fun rest hrest => ?_
        rw [hnext rest hrest, finishNumber_integer hparse hchars]
        rfl
      | none =>
        rw [hparse] at hreread
        refine lexesAs_error hreread fun rest hrest => ⟨"invalid integer literal", ?_⟩
        rw [hnext rest hrest, finishNumber_invalid hparse hchars]
        rfl
    · obtain ⟨negative, ds, fs, hds, hfs, htext, hparse⟩ :=
        hF.fraction bits hfinite (by simpa using hwhole)
      have hreread : reread F (.float bits) = some (.float bits) := by
        rw [reread, if_pos hfinite, if_neg hwhole]
      rw [htext] at hparse ⊢
      exact lexesAs_token hreread fun rest hrest => nextToken_float hds hfs hparse hrest
  · have hreread : reread F (.float bits) = some (.symbol (F.text bits)) := by
      rw [reread, if_neg hfinite]
    have hname := hF.notFinite bits (by simpa using hfinite)
    exact lexesAs_token hreread fun rest hrest => Agent.nextToken_notFinite hname hrest

theorem lexesAs_symbol {name : List Char} (h : IsSymbol name ∨ name = "->>".toList) :
    LexesAs F name [.symbol name] := by
  have hcolon : name ≠ [':'] := by
    rintro rfl
    rcases h with h | h
    · exact absurd h.start (by decide)
    · exact absurd h (by decide)
  have hreread : reread F (.symbol name) = some (.symbol name) := by
    have hsame : Token.respelled (.symbol name) = .symbol name := by
      rw [Token.respelled]
      intro heq
      exact hcolon (Token.symbol.inj heq)
    exact congrArg some hsame
  rcases h with h | rfl
  · exact lexesAs_token hreread fun rest hrest => nextToken_symbol h hrest
  · exact lexesAs_token hreread fun rest _ => nextToken_thread rest

theorem lexesAs_atom (hF : F.Lawful) {t : Token} (hlexed : t.Lexed)
    (ht : tokenToAtom t = .ok kind) : LexesAs F (formatAtom F kind) [kind.token] := by
  cases t with
  | lparen | rparen | lbracket | rbracket | comma => cases ht
  | integer n =>
    cases ht
    exact lexesAs_token rfl fun rest hrest => nextToken_int n hrest
  | float bits =>
    cases ht
    exact lexesAs_float hF bits
  | version a b c =>
    cases ht
    obtain ⟨ha, hb, hc⟩ := hlexed
    exact lexesAs_token rfl fun rest hrest => nextToken_version ha hb hc hrest
  | str s =>
    cases ht
    refine lexesAs_token rfl fun rest _ => ?_
    have htext : formatAtom F (.str s) ++ rest = '"' :: (escapeStr s ++ '"' :: rest) := by
      simp [formatAtom]
    have hread : lexString [] (escapeStr s ++ '"' :: rest) = .ok (s, rest) :=
      Agent.lexString_escapeStr_iff.mpr ⟨hlexed, rfl, rfl⟩
    rw [htext, nextToken_quote, hread]
    rfl
  | symbol s =>
    cases ht
    exact lexesAs_symbol hlexed
  | keyword s =>
    cases ht
    exact lexesAs_token rfl fun rest hrest => nextToken_keyword hlexed.1 hlexed.2 hrest
  | bool b =>
    cases ht
    have htrue : IsName "true".toList := by decide
    have hfalse : IsName "false".toList := by decide
    cases b with
    | true => exact lexesAs_token rfl fun rest hrest => nextToken_name htrue rfl hrest
    | false => exact lexesAs_token rfl fun rest hrest => nextToken_name hfalse rfl hrest
  | nil =>
    cases ht
    have hnil : IsName "nil".toList := by decide
    exact lexesAs_token rfl fun rest hrest => nextToken_name hnil rfl hrest
  | arrow =>
    cases ht
    exact lexesAs_token rfl fun rest hrest => nextToken_arrow hrest
  | colon =>
    cases ht
    exact lexesAs_token rfl fun rest hrest => nextToken_colon hrest

/-! ## Trees -/

/-- Blanks, and at least one. -/
def IsBlank (sep : List Char) : Prop := sep ≠ [] ∧ ∀ c ∈ sep, isAsciiWhitespace c = true

theorem IsBlank.breaks {sep : List Char} (h : IsBlank sep) (s : List Char) : Breaks (sep ++ s) := by
  obtain ⟨hne, hblank⟩ := h
  cases sep with
  | nil => exact absurd rfl hne
  | cons c cs => exact breaks_cons (isSymbolChar_of_blank (hblank c List.mem_cons_self)) _

theorem lexes_blank {sep : List Char} (h : ∀ c ∈ sep, isAsciiWhitespace c = true) :
    Lexes F.parse (sep ++ s) ts ↔ Lexes F.parse s ts := by
  induction sep with
  | nil => rfl
  | cons c cs ih =>
    rw [List.forall_mem_cons] at h
    rw [List.cons_append, lexes_congr (nextToken_blank h.1 _), ih h.2]

theorem lexesAs_nil : LexesAs F [] [] := by
  intro rest ts _
  rw [List.nil_append]
  constructor
  · exact fun h => ⟨[], ts, rfl, h, rfl⟩
  · rintro ⟨front, back, hfront, hback, rfl⟩
    cases hfront
    exact hback

theorem LexesAs.append {sep : List Char} (hx : LexesAs F x us) (hsep : IsBlank sep)
    (hy : LexesAs F y vs) : LexesAs F (x ++ sep ++ y) (us ++ vs) := by
  intro rest ts hrest
  rw [List.append_assoc, List.append_assoc, hx _ _ (hsep.breaks _)]
  constructor
  · rintro ⟨front, back, hfront, hback, rfl⟩
    obtain ⟨middle, last, hmiddle, hlast, rfl⟩ :=
      (hy rest _ hrest).mp ((lexes_blank hsep.2).mp hback)
    exact ⟨front ++ middle, last, rereadAll_append_iff.mpr ⟨front, middle, hfront, hmiddle, rfl⟩,
      hlast, (List.append_assoc ..).symm⟩
  · rintro ⟨both, last, hboth, hlast, rfl⟩
    obtain ⟨front, middle, hfront, hmiddle, rfl⟩ := rereadAll_append_iff.mp hboth
    refine ⟨front, middle ++ last, hfront, (lexes_blank hsep.2).mpr ?_, List.append_assoc ..⟩
    exact (hy rest _ hrest).mpr ⟨middle, last, hmiddle, hlast, rfl⟩

theorem lexesAs_join {f : SExpr → List Char} {sep : List Char} (hsep : IsBlank sep)
    (h : ∀ e ∈ items, LexesAs F (f e) e.flatten) :
    LexesAs F (sep.intercalate (items.map f)) (flattenAll items) := by
  induction items with
  | nil => exact lexesAs_nil
  | cons e items ih =>
    rw [List.forall_mem_cons] at h
    cases items with
    | nil =>
      rw [List.map_singleton, List.intercalate_singleton, flattenAll, flattenAll, List.append_nil]
      exact h.1
    | cons e' items =>
      rw [List.map_cons, List.map_cons, List.intercalate_cons_cons, flattenAll]
      exact h.1.append hsep (ih h.2)

theorem LexesAs.enclose {b : Bracket} {l r : Char} (h : LexesAs F x us)
    (hl : ∀ s, nextToken F.parse (l :: s) = .ok (some (b.opening, s)))
    (hr : ∀ s, nextToken F.parse (r :: s) = .ok (some (b.closing, s)))
    (hbreak : isSymbolChar r = false) :
    LexesAs F (l :: (x ++ [r])) (b.opening :: (us ++ [b.closing])) := by
  have hopening : reread F b.opening = some b.opening := by cases b <;> rfl
  have hclosing : rereadAll F [b.closing] = some [b.closing] := by cases b <;> rfl
  intro rest ts _
  rw [List.cons_append, List.append_assoc, List.singleton_append, lexes_iff_of_token (hl _)]
  constructor
  · rintro ⟨inside, rfl, hinside⟩
    obtain ⟨front, back, hfront, hback, rfl⟩ := (h _ _ (breaks_cons hbreak rest)).mp hinside
    obtain ⟨last, rfl, hlast⟩ := (lexes_iff_of_token (hr rest)).mp hback
    refine ⟨b.opening :: (front ++ [b.closing]), last, ?_, hlast, by simp⟩
    exact rereadAll_cons_iff.mpr ⟨_, _, hopening,
      rereadAll_append_iff.mpr ⟨front, _, hfront, hclosing, rfl⟩, rfl⟩
  · rintro ⟨all, last, hall, hlast, rfl⟩
    obtain ⟨t', inside, ht', hinside, rfl⟩ := rereadAll_cons_iff.mp hall
    obtain ⟨front, back, hfront, hback, rfl⟩ := rereadAll_append_iff.mp hinside
    cases hopening.symm.trans ht'
    cases hclosing.symm.trans hback
    refine ⟨front ++ b.closing :: last, by simp, ?_⟩
    refine (h _ _ (breaks_cons hbreak rest)).mpr ⟨front, _, hfront, ?_, rfl⟩
    exact (lexes_iff_of_token (hr rest)).mpr ⟨last, rfl, hlast⟩

theorem printParts_eq_map (indent : Nat) (items : List SExpr) :
    printParts F indent items = items.map (prettyPrintInner F indent) := by
  induction items with
  | nil => rfl
  | cons e items ih => rw [printParts, ih, List.map_cons]

theorem isBlank_indented (n : Nat) : IsBlank ('\n' :: List.replicate n ' ') := by
  refine ⟨List.cons_ne_nil _ _, ?_⟩
  rw [List.forall_mem_cons]
  refine ⟨rfl, fun c hc => ?_⟩
  rw [List.eq_of_mem_replicate hc]
  rfl

theorem prettyPrintInner_list (indent : Nat) (items : List SExpr) : ∃ sep, IsBlank sep ∧
    prettyPrintInner F indent (.list items) =
      '(' :: (sep.intercalate (items.map (prettyPrintInner F (indent + 2))) ++ [')']) := by
  have hspace : IsBlank [' '] := ⟨List.cons_ne_nil _ _, by simp [isAsciiWhitespace]⟩
  rw [prettyPrintInner, printParts_eq_map]
  dsimp only
  by_cases hempty : items.isEmpty = true
  · rw [if_pos hempty, List.isEmpty_iff.mp hempty]
    exact ⟨[' '], hspace, rfl⟩
  rw [if_neg hempty]
  split
  · exact ⟨[' '], hspace, rfl⟩
  · exact ⟨_, isBlank_indented (indent + 1), rfl⟩

mutual

theorem lexesAs_prettyPrintInner (e : SExpr) (indent : Nat)
    (h : ∀ kind, kind.token ∈ e.flatten → LexesAs F (formatAtom F kind) [kind.token]) :
    LexesAs F (prettyPrintInner F indent e) e.flatten := by
  cases e with
  | atom kind =>
    rw [prettyPrintInner]
    exact h kind List.mem_cons_self
  | list items =>
    obtain ⟨sep, hsep, htext⟩ := prettyPrintInner_list (F := F) indent items
    rw [htext]
    apply LexesAs.enclose (b := .paren)
    · refine lexesAs_join hsep (lexesAs_items items (indent + 2) fun kind hkind => h kind ?_)
      exact List.mem_cons_of_mem _ (List.mem_append_left _ hkind)
    · exact fun s => nextToken_lparen
    · exact fun s => nextToken_rparen
    · rfl
  | bracketList items =>
    rw [prettyPrintInner, printParts_eq_map]
    apply LexesAs.enclose (b := .bracket)
    · refine lexesAs_join ⟨List.cons_ne_nil _ _, by simp [isAsciiWhitespace]⟩
        (lexesAs_items items (indent + 1) fun kind hkind => h kind ?_)
      exact List.mem_cons_of_mem _ (List.mem_append_left _ hkind)
    · exact fun s => nextToken_lbracket
    · exact fun s => nextToken_rbracket
    · rfl

theorem lexesAs_items (items : List SExpr) (indent : Nat)
    (h : ∀ kind, kind.token ∈ flattenAll items → LexesAs F (formatAtom F kind) [kind.token]) :
    ∀ e ∈ items, LexesAs F (prettyPrintInner F indent e) e.flatten := by
  cases items with
  | nil => exact fun _ hmem => absurd hmem List.not_mem_nil
  | cons first items =>
    rw [List.forall_mem_cons]
    rw [flattenAll] at h
    constructor
    · exact lexesAs_prettyPrintInner first indent fun kind hkind =>
        h kind (List.mem_append_left _ hkind)
    · exact lexesAs_items items indent fun kind hkind => h kind (List.mem_append_right _ hkind)

end

/-- The tokens of the printed expressions are those that their tokens are read as. -/
theorem lexes_output
    (h : ∀ kind, kind.token ∈ flattenAll exprs → LexesAs F (formatAtom F kind) [kind.token]) :
    Lexes F.parse (output F exprs) ts ↔ rereadAll F (flattenAll exprs) = some ts := by
  have hjoin : LexesAs F (output F exprs) (flattenAll exprs) :=
    lexesAs_join (isBlank_indented 0) (lexesAs_items exprs 0 h)
  have hend : ∀ {back}, Lexes F.parse [] back ↔ back = [] := lexes_iff_of_end nextToken_nil
  rw [← List.append_nil (output F exprs), hjoin [] ts breaks_nil]
  constructor
  · rintro ⟨front, back, hfront, hback, rfl⟩
    rw [hend.mp hback, List.append_nil]
    exact hfront
  · exact fun hts => ⟨ts, [], hts, hend.mpr rfl, (List.append_nil ts).symm⟩

/-! ## The same expressions -/

theorem rereadAll_of_fractional (h : ∀ bits, .float bits ∈ us → Fractional bits) :
    rereadAll F us = some (us.map Token.respelled) := by
  induction us with
  | nil => rfl
  | cons t us ih =>
    have hfirst : reread F t = some t.respelled := by
      cases t with
      | float bits =>
        obtain ⟨hfinite, hwhole⟩ := h bits List.mem_cons_self
        rw [reread, if_pos hfinite, if_neg (by simp [hwhole])]
        rfl
      | _ => rfl
    exact rereadAll_cons_iff.mpr ⟨_, _, hfirst, ih fun bits hmem => h bits (.tail t hmem), rfl⟩

theorem fractional_of_reread {bits bits' : UInt64}
    (h : reread F (.float bits) = some (.float bits')) : Fractional bits := by
  rw [reread] at h
  split at h
  · next hfinite =>
    split at h
    · cases hparse : parseI64 (F.text bits) with
      | none =>
        rw [hparse] at h
        cases h
      | some n =>
        rw [hparse] at h
        cases h
    · next hwhole => exact ⟨hfinite, by simpa using hwhole⟩
  · cases h

theorem reread_ne_comma {t : Token} (ht : t ≠ .comma) (h : reread F t = some .comma) : False := by
  cases t with
  | comma => exact ht rfl
  | float bits =>
    rw [reread] at h
    split at h
    · split at h
      · cases hparse : parseI64 (F.text bits) <;> rw [hparse] at h <;> cases h
      · cases h
    · cases h
  | symbol s =>
    have hsome : (some (Token.respelled (.symbol s))) = some .comma := h
    unfold Token.respelled at hsome
    split at hsome <;> cases hsome
  | _ => cases h

theorem separated_cons {t : Token} (ht : t ≠ .comma) (ts : List Token) : ∃ t',
    separated (t :: ts) = t' :: separated ts ∧ ∀ bits, t' = .float bits → t = .float bits := by
  cases t with
  | comma => exact absurd rfl ht
  | colon => exact ⟨_, rfl, fun bits h => by cases h⟩
  | _ => exact ⟨_, rfl, fun bits h => h⟩

theorem comma_not_mem_separated (ts : List Token) : .comma ∉ separated ts := by
  induction ts with
  | nil => exact List.not_mem_nil
  | cons t ts ih =>
    cases t with
    | comma => exact ih
    | _ => exact List.not_mem_cons_of_ne_of_not_mem Token.noConfusion ih

theorem fractional_of_rereadAll (hcomma : .comma ∉ us) (h : rereadAll F us = some ts)
    (hsame : separated ts = us) : ∀ bits, .float bits ∈ us → Fractional bits := by
  induction us generalizing ts with
  | nil => exact fun _ hmem => absurd hmem List.not_mem_nil
  | cons t us ih =>
    rw [List.mem_cons, not_or] at hcomma
    obtain ⟨t', ts', ht', hts', rfl⟩ := rereadAll_cons_iff.mp h
    have hnot : t' ≠ .comma := by
      rintro rfl
      exact reread_ne_comma (Ne.symm hcomma.1) ht'
    obtain ⟨t'', hcons, hfloat⟩ := separated_cons hnot ts'
    rw [hcons] at hsame
    obtain ⟨rfl, hrest⟩ := List.cons.inj hsame
    intro bits hmem
    rcases List.mem_cons.mp hmem with hhead | htail
    · rw [← hhead, hfloat bits hhead.symm] at ht'
      exact fractional_of_reread ht'
    · exact ih hcomma.2 hts' hrest bits htail

theorem length_separated_le (ts : List Token) : (separated ts).length ≤ ts.length := by
  induction ts with
  | nil => exact Nat.le_refl 0
  | cons t ts ih =>
    cases t with
    | comma => exact Nat.le_succ_of_le ih
    | _ => exact Nat.succ_le_succ ih

theorem exists_of_mem_separated (h : kind.token ∈ separated ts) :
    ∃ t ∈ ts, tokenToAtom t = .ok kind := by
  induction ts with
  | nil => cases h
  | cons t ts ih =>
    have hlater (h : kind.token ∈ separated ts) : ∃ t' ∈ t :: ts, tokenToAtom t' = .ok kind := by
      obtain ⟨t', ht', hatom⟩ := ih h
      exact ⟨t', List.mem_cons_of_mem t ht', hatom⟩
    rcases tokenToAtom_cases t with ⟨b, rfl⟩ | ⟨b, rfl⟩ | rfl | ⟨kind', hkind⟩
    · rw [separated_opening] at h
      exact hlater ((List.mem_cons.mp h).resolve_left (kind.token_ne_opening b))
    · rw [separated_closing] at h
      exact hlater ((List.mem_cons.mp h).resolve_left (kind.token_ne_closing b))
    · exact hlater h
    · rw [separated_atom hkind] at h
      rcases List.mem_cons.mp h with hhead | htail
      · exact ⟨t, List.mem_cons_self, by rw [hkind, AtomKind.token_inj hhead]⟩
      · exact hlater htail

theorem lexAndParse_ok_iff {parse : ParseFloat} : lexAndParse parse s = .ok exprs ↔
    ∃ ts, Lexes parse s ts ∧ (ts = [] ∨ ts.length < maxTokenCount) ∧
      parseSexprAll ts = .ok exprs := by
  unfold lexAndParse
  constructor
  · intro h
    cases htokens : lexAll parse 0 s with
    | error message =>
      rw [htokens] at h
      cases h
    | ok ts =>
      rw [htokens] at h
      obtain ⟨hts, hcount⟩ := lexAll_eq_ok_iff.mp htokens
      exact ⟨ts, hts, by rwa [Nat.zero_add] at hcount, h⟩
  · rintro ⟨ts, hts, hcount, h⟩
    have htokens : lexAll parse 0 s = .ok ts :=
      lexAll_eq_ok_iff.mpr ⟨hts, by rwa [Nat.zero_add]⟩
    rw [htokens]
    exact h

theorem lexAndParse_output_iff (hF : F.Lawful) (h : lexAndParse F.parse s = .ok exprs) :
    lexAndParse F.parse (output F exprs) = .ok exprs ↔
      ∀ bits, .float bits ∈ flattenAll exprs → Fractional bits := by
  obtain ⟨ts, hts, hcount, hparse⟩ := lexAndParse_ok_iff.mp h
  have htokens := (flattenAll_of_parseSexprAll hparse).2
  have hatoms : ∀ kind, kind.token ∈ flattenAll exprs →
      LexesAs F (formatAtom F kind) [kind.token] := by
    intro kind hkind
    rw [htokens] at hkind
    obtain ⟨t, ht, hatom⟩ := exists_of_mem_separated hkind
    exact lexesAs_atom hF (lexed_of_lexes hts t ht) hatom
  rw [lexAndParse_ok_iff]
  constructor
  · rintro ⟨ts', hts', -, hparse'⟩
    have hsame := (flattenAll_of_parseSexprAll hparse').2
    have hcomma : .comma ∉ flattenAll exprs := by
      rw [htokens]
      exact comma_not_mem_separated ts
    exact fractional_of_rereadAll hcomma ((lexes_output hatoms).mp hts') hsame.symm
  · intro hfractional
    refine ⟨_, (lexes_output hatoms).mpr (rereadAll_of_fractional hfractional), ?_,
      parseSexprAll_respelled hparse⟩
    have hlength := length_separated_le ts
    rw [List.length_map, htokens]
    rcases hcount with rfl | hcount
    · exact Or.inl rfl
    · exact Or.inr (Nat.lt_of_le_of_lt hlength hcount)

/-- Formatting keeps what the source is read as, and changes nothing the second time. -/
def FormatHolds (F : FloatFormat) (source : List Char) : Prop :=
  ∀ exprs, lexAndParse F.parse source = .ok exprs → ∃ out, formatSource F source = .ok out ∧
    lexAndParse F.parse out = .ok exprs ∧ formatSource F out = .ok out

theorem formatSource_eq (h : lexAndParse F.parse s = .ok exprs) :
    formatSource F s = .ok (output F exprs) := by
  rw [formatSource, h]
  rfl

/-- The formatter does what it should just if no float of the source is whole or infinite. -/
theorem format_exact (hF : F.Lawful) (source : List Char) : FormatHolds F source ↔
    ∀ exprs, lexAndParse F.parse source = .ok exprs →
      ∀ bits, .float bits ∈ flattenAll exprs → Fractional bits := by
  refine forall₂_congr fun exprs hread => ?_
  rw [← lexAndParse_output_iff hF hread]
  constructor
  · rintro ⟨out, hout, hsame, -⟩
    rw [formatSource_eq hread] at hout
    cases hout
    exact hsame
  · exact fun hsame => ⟨_, formatSource_eq hread, hsame, formatSource_eq hsame⟩

/-- The bits of `1.5`. -/
def oneAndHalf : UInt64 := 0x3ff8000000000000

/-- Exchanges the numbers of `1.5` and of the float whose bits are 1. -/
def renumbered (bits : UInt64) : UInt64 :=
  if bits = 1 then oneAndHalf else if bits = oneAndHalf then 1 else bits

theorem renumbered_renumbered (bits : UInt64) : renumbered (renumbered bits) = bits := by
  by_cases hone : bits = 1
  · rw [hone]
    decide
  · by_cases hhalf : bits = oneAndHalf
    · rw [hhalf]
      decide
    · simp only [renumbered, if_neg hone, if_neg hhalf]

/-- The numbered floats with `1.5` where it is written so. -/
def halfFloats : FloatFormat where
  text bits :=
    if isFinite bits then
      if isWhole bits then Nat.toDigits 10 (renumbered bits).toNat
      else Nat.toDigits 10 (renumbered bits).toNat ++ ".5".toList
    else "NaN".toList
  parse s := (Agent.numberedFloats.parse s).map renumbered

theorem halfFloats_parse (bits : UInt64) (fs : List Char) :
    halfFloats.parse (Nat.toDigits 10 (renumbered bits).toNat ++ '.' :: fs) = some bits := by
  show (Agent.numberedFloats.parse _).map renumbered = some bits
  rw [Agent.numberedFloats_parse, Option.map_some, renumbered_renumbered]

theorem halfFloats_lawful : halfFloats.Lawful := by
  constructor
  · intro bits hfinite hwhole
    have htext : halfFloats.text bits = Nat.toDigits 10 (renumbered bits).toNat := by
      simp [halfFloats, hfinite, hwhole]
    rw [htext]
    exact ⟨false, _, isDigits_toDigits _, rfl, halfFloats_parse bits _⟩
  · intro bits hfinite hwhole
    have htext : halfFloats.text bits =
        Nat.toDigits 10 (renumbered bits).toNat ++ ".5".toList := by
      simp [halfFloats, hfinite, hwhole]
    rw [htext]
    exact ⟨false, _, ['5'], isDigits_toDigits _, ⟨by simp, by simp⟩, rfl, halfFloats_parse bits _⟩
  · intro bits hfinite
    have htext : halfFloats.text bits = "NaN".toList := by simp [halfFloats, hfinite]
    rw [htext]
    simp

/-- `(f [:k 1.5])` -/
def callSource : List Char := "(f [:k 1.5])".toList

theorem lexAndParse_callSource : lexAndParse halfFloats.parse callSource = .ok [.list
    [.atom (.symbol ['f']), .bracketList [.atom (.keyword ['k']), .atom (.float oneAndHalf)]]] := by
  have hname : IsName ['f'] := by decide
  have hkey : ∀ c ∈ ['k'], isSymbolChar c = true := by simp [isSymbolChar, isSymbolStart]
  have hone : IsDigits ['1'] := ⟨List.cons_ne_nil _ _, by simp⟩
  have hfive : IsDigits ['5'] := ⟨List.cons_ne_nil _ _, by simp⟩
  have hparse : halfFloats.parse (fractionText false ['1'] ['5']) = some oneAndHalf :=
    halfFloats_parse oneAndHalf ['5']
  have hlexes : Lexes halfFloats.parse callSource
      [.lparen, .symbol ['f'], .lbracket, .keyword ['k'], .float oneAndHalf, .rbracket,
        .rparen] := by
    refine .next nextToken_lparen (.next (nextToken_name hname rfl (breaks_cons rfl _)) ?_)
    refine (lexes_congr (nextToken_space _)).mpr (.next nextToken_lbracket ?_)
    refine .next (nextToken_keyword (List.cons_ne_nil _ _) hkey (breaks_cons rfl _)) ?_
    refine (lexes_congr (nextToken_space _)).mpr ?_
    refine .next (nextToken_float hone hfive hparse (breaks_cons rfl _)) ?_
    exact .next nextToken_rbracket (.next nextToken_rparen (.done nextToken_nil))
  refine lexAndParse_ok_iff.mpr ⟨_, hlexes, Or.inr (by decide), ?_⟩
  simp [parseSexprAll, maxParseDepth, parseSexpr, parseList, tokenToAtom, Except.map]

theorem callSource_holds : FormatHolds halfFloats callSource := by
  refine (format_exact halfFloats_lawful callSource).mpr fun exprs hread bits hmem => ?_
  rw [lexAndParse_callSource] at hread
  cases hread
  have hbits : bits = oneAndHalf := by
    simpa [flattenAll, SExpr.flatten, AtomKind.token] using hmem
  rw [hbits]
  decide

/-- A zero with a fraction is printed, and read again, as an integer. -/
theorem format_zero : lexAndParse Agent.numberedFloats.parse "0.0".toList =
      .ok [.atom (.float 0)] ∧
    formatSource Agent.numberedFloats "0.0".toList = .ok "0".toList ∧
      lexAndParse Agent.numberedFloats.parse "0".toList = .ok [.atom (.integer 0)] ∧
        ¬ FormatHolds Agent.numberedFloats "0.0".toList := by
  have hzero : IsDigits ['0'] := ⟨List.cons_ne_nil _ _, by simp⟩
  have hparse : Agent.numberedFloats.parse (fractionText false ['0'] ['0']) = some 0 :=
    Agent.numberedFloats_parse 0 ['0']
  have hfloat : Lexes Agent.numberedFloats.parse "0.0".toList [.float 0] :=
    .next (nextToken_float hzero hzero hparse breaks_nil) (.done nextToken_nil)
  have hinteger : Lexes Agent.numberedFloats.parse "0".toList [.integer 0] :=
    .next (nextToken_int 0 breaks_nil) (.done nextToken_nil)
  have hread : lexAndParse Agent.numberedFloats.parse "0.0".toList = .ok [.atom (.float 0)] := by
    refine lexAndParse_ok_iff.mpr ⟨_, hfloat, Or.inr (by decide), ?_⟩
    simp [parseSexprAll, parseSexpr, tokenToAtom, Except.map]
  refine ⟨hread, formatSource_eq hread, ?_, fun h => ?_⟩
  · refine lexAndParse_ok_iff.mpr ⟨_, hinteger, Or.inr (by decide), ?_⟩
    simp [parseSexprAll, parseSexpr, tokenToAtom, Except.map]
  · obtain ⟨out, hout, hsame, -⟩ := h _ hread
    rw [formatSource_eq hread] at hout
    cases hout
    have hfraction := (lexAndParse_output_iff Agent.numberedFloats_lawful hread).mp hsame 0
      List.mem_cons_self
    exact absurd hfraction (by decide)

end Airl.Fmt
