import Airl.Agent.Protocol
import Airl.Syntax.Lexing

/-! # What a written value is read as

The tokens of a written value and the expression they are parsed into. A nested
string is written without escapes, so it comes back only if it needs none; a
variant without an argument never comes back.
-/

namespace Airl.Agent

open Airl.Syntax Lexer

/-- What is known of the texts of floats: digits with a point in them unless the float is whole,
never an exponent, and enough of them to be parsed as the same float. -/
structure FloatFormat.Lawful (F : FloatFormat) : Prop where
  whole : ∀ bits, isFinite bits = true → isWhole bits = true → ∃ negative ds, IsDigits ds ∧
    F.text bits = signText negative ++ ds ∧ F.parse (F.text bits ++ ['.', '0']) = some bits
  fraction : ∀ bits, isFinite bits = true → isWhole bits = false → ∃ negative ds fs,
    IsDigits ds ∧ IsDigits fs ∧ F.text bits = fractionText negative ds fs ∧
      F.parse (F.text bits) = some bits
  notFinite : ∀ bits, isFinite bits = false →
    F.text bits ∈ ["inf".toList, "-inf".toList, "NaN".toList]

namespace Datum

mutual

/-- The tokens a value is meant to be read as. -/
def tokens : Datum → List Token
  | .nil => [.nil]
  | .bool b => [.bool b]
  | .int n => [.integer n]
  | .float bits => [.float bits]
  | .str s => [.str s]
  | .list items => .lbracket :: itemsTokens items ++ [.rbracket]
  | .variant tag inner => .lparen :: .symbol tag :: tokens inner ++ [.rparen]
  | .constant tag => [.lparen, .symbol tag, .rparen]

def itemsTokens : List Datum → List Token
  | [] => []
  | v :: vs => tokens v ++ itemsTokens vs

end

mutual

/-- How many lists and variants stand inside one another. -/
def nesting : Datum → Nat
  | .list items => itemsNesting items
  | .variant _ inner => nesting inner + 1
  | .constant _ => 1
  | _ => 0

def itemsNesting : List Datum → Nat
  | [] => 0
  | v :: vs => max (nesting v + 1) (itemsNesting vs)

end

/-- A tag the language could have made. -/
def IsTag (tag : List Char) : Prop := startsUppercase tag = true ∧ IsName tag

instance : DecidablePred IsTag := fun _ => inferInstanceAs (Decidable (_ ∧ _))

mutual

/-- A value that comes back from where it is nested. -/
def Clean : Datum → Prop
  | .nil | .bool _ | .int _ => True
  | .float bits => isFinite bits = true
  | .str s => IsPlain s ∧ IsShort s
  | .list items => CleanItems items
  | .variant tag inner => IsTag tag ∧ Clean inner
  | .constant _ => False

def CleanItems : List Datum → Prop
  | [] => True
  | v :: vs => Clean v ∧ CleanItems vs

end

/-- A value that comes back as an argument or a payload; there a string is escaped. -/
def CleanArg : Datum → Prop
  | .str s => IsShort s
  | other => Clean other

theorem induct {P : Datum → Prop} (nil : P .nil) (bool : ∀ b, P (.bool b)) (int : ∀ n, P (.int n))
    (float : ∀ bits, P (.float bits)) (str : ∀ s, P (.str s))
    (list : ∀ items, (∀ v ∈ items, P v) → P (.list items))
    (variant : ∀ tag inner, P inner → P (.variant tag inner))
    (constant : ∀ tag, P (.constant tag)) : ∀ v, P v
  | .nil => nil
  | .bool b => bool b
  | .int n => int n
  | .float bits => float bits
  | .str s => str s
  | .list items => list items fun v _ =>
    induct nil bool int float str list variant constant v
  | .variant tag inner => variant tag inner
      (induct nil bool int float str list variant constant inner)
  | .constant tag => constant tag

end Datum

open Datum

theorem cleanItems_iff {items : List Datum} : CleanItems items ↔ ∀ v ∈ items, Clean v := by
  induction items with
  | nil => simp [CleanItems]
  | cons v vs ih => rw [CleanItems, ih, List.forall_mem_cons]

theorem displayItems_eq {F : FloatFormat} (items : List Datum) :
    displayItems F items = [' '].intercalate (items.map (display F)) := by
  induction items with
  | nil => rfl
  | cons v vs ih =>
    cases vs with
    | nil => simp [displayItems]
    | cons w ws => simp [displayItems, ih]

/-- A token at which a value can begin. -/
def Opens (tok : Token) : Prop := tok ≠ .comma ∧ tok ≠ .rparen ∧ tok ≠ .rbracket

/-- The text `x` in a delimited place is read as the value exactly if `C` holds. -/
structure ReadAs (F : FloatFormat) (x : List Char) (v : Datum) (C : Prop) : Prop where
  opens : ∀ {rest ts}, Delimited rest → Lexes F.parse (x ++ rest) ts →
    ∃ tok ts', ts = tok :: ts' ∧ Opens tok
  lexes : ∀ {rest ts}, C → Delimited rest → Lexes F.parse rest ts →
    Lexes F.parse (x ++ rest) (tokens v ++ ts)
  parses : ∀ {levels}, C → nesting v < levels →
    ∃ e, (∀ ts, Parses levels (tokens v ++ ts) e ts) ∧ sexprToValue e = v
  reads : ∀ {rest ts levels e ts'}, Delimited rest → Lexes F.parse (x ++ rest) ts →
    Parses levels ts e ts' → sexprToValue e = v →
      C ∧ nesting v < levels ∧ ts = tokens v ++ ts' ∧ Lexes F.parse rest ts'

section Atoms

variable {F : FloatFormat} {x s body : List Char} {v : Datum} {C : Prop} {tok : Token}
  {kind : AtomKind}

theorem opens_of_atom (hatom : tokenToAtom tok = .ok kind) : Opens tok := by
  refine ⟨?_, ?_, ?_⟩ <;> rintro rfl <;> cases hatom

/-- A text that is one token whatever delimiter follows. -/
theorem readAs_atom (hatom : tokenToAtom tok = .ok kind) (hvalue : atomValue kind = v)
    (htokens : tokens v = [tok]) (hnesting : nesting v = 0)
    (hnext : ∀ rest, Delimited rest → nextToken F.parse (x ++ rest) = .ok (some (tok, rest))) :
    ReadAs F x v True where
  opens := by
    intro rest ts hrest hts
    obtain ⟨ts', rfl, -⟩ := (lexes_iff_of_token (hnext rest hrest)).mp hts
    exact ⟨tok, ts', rfl, opens_of_atom hatom⟩
  lexes := by
    intro rest ts _ hrest hts
    rw [htokens]
    exact .next (hnext rest hrest) hts
  parses := by
    intro levels _ hlevels
    refine ⟨.atom kind, fun ts => ?_, by rw [sexprToValue, hvalue]⟩
    rw [htokens]
    exact (parses_atom_iff hatom).mpr ⟨by omega, rfl, rfl⟩
  reads := by
    intro rest ts levels e ts' hrest hts hparses _
    obtain ⟨ts'', rfl, hrestTokens⟩ := (lexes_iff_of_token (hnext rest hrest)).mp hts
    obtain ⟨hlevels, -, rfl⟩ := (parses_atom_iff hatom).mp hparses
    refine ⟨trivial, ?_, ?_, hrestTokens⟩
    · omega
    · rw [htokens, List.singleton_append]

/-- A text in quotation marks, whose characters `body` stand for `s`. -/
theorem readAs_string (hok : C → ∀ rest, lexString [] (body ++ '"' :: rest) = .ok (s, rest))
    (hinv : ∀ rest t, lexString [] (body ++ '"' :: rest) = .ok (s, t) → C ∧ t = rest) :
    ReadAs F ('"' :: body ++ ['"']) (.str s) C := by
  have hnext : ∀ rest, nextToken F.parse ('"' :: body ++ ['"'] ++ rest) =
      (lexString [] (body ++ '"' :: rest)).map fun p => some (.str p.1, p.2) := by
    intro rest
    rw [List.cons_append, List.cons_append, nextToken_quote, List.append_assoc,
      List.singleton_append]
  have hfirst : ∀ {rest ts}, Lexes F.parse ('"' :: body ++ ['"'] ++ rest) ts →
      ∃ w t ts', lexString [] (body ++ '"' :: rest) = .ok (w, t) ∧ ts = .str w :: ts' ∧
        Lexes F.parse t ts' := by
    intro rest ts hts
    cases hread : lexString [] (body ++ '"' :: rest) with
    | error e =>
      have herror := hnext rest
      rw [hread] at herror
      exact absurd hts (not_lexes_of_error herror)
    | ok p =>
      have hsome := hnext rest
      rw [hread] at hsome
      obtain ⟨ts', hts', hrest⟩ := (lexes_iff_of_token hsome).mp hts
      exact ⟨p.1, p.2, ts', rfl, hts', hrest⟩
  constructor
  · intro rest ts _ hts
    obtain ⟨w, t, ts', -, rfl, -⟩ := hfirst hts
    have hatom : tokenToAtom (.str w) = .ok (.str w) := rfl
    exact ⟨_, ts', rfl, opens_of_atom hatom⟩
  · intro rest ts hC _ hts
    refine .next (t := rest) ?_ hts
    rw [hnext, hok hC]
    rfl
  · intro levels _ hlevels
    have hatom : tokenToAtom (.str s) = .ok (.str s) := rfl
    exact ⟨.atom (.str s), fun ts => (parses_atom_iff hatom).mpr ⟨by omega, rfl, rfl⟩, rfl⟩
  · intro rest ts levels e ts' _ hts hparses hvalue
    obtain ⟨w, t, ts'', hread, rfl, hrest⟩ := hfirst hts
    have hatom : tokenToAtom (.str w) = .ok (.str w) := rfl
    obtain ⟨hlevels, rfl, rfl⟩ := (parses_atom_iff hatom).mp hparses
    have hw : w = s := by
      rw [sexprToValue, atomValue, Datum.str.injEq] at hvalue
      exact hvalue
    subst hw
    obtain ⟨hC, rfl⟩ := hinv rest t hread
    exact ⟨hC, hlevels, rfl, hrest⟩

end Atoms

section Constants

variable {F : FloatFormat}

theorem readAs_nil : ReadAs F "nil".toList .nil True :=
  readAs_atom rfl rfl rfl rfl fun _ hrest => nextToken_name (by decide) (by decide) hrest.breaks

theorem readAs_bool (b : Bool) : ReadAs F (if b then "true".toList else "false".toList)
    (.bool b) True := by
  cases b with
  | true => exact readAs_atom rfl rfl rfl rfl fun _ hrest =>
    nextToken_name (by decide) (by decide) hrest.breaks
  | false => exact readAs_atom rfl rfl rfl rfl fun _ hrest =>
    nextToken_name (by decide) (by decide) hrest.breaks

theorem readAs_int (n : Int64) : ReadAs F (intText n) (.int n) True :=
  readAs_atom rfl rfl rfl rfl fun _ hrest => nextToken_int n hrest.breaks

theorem readAs_symbol {x : List Char} {bits : UInt64} {name : List Char}
    (hfinite : isFinite bits = false)
    (hnext : ∀ rest, Delimited rest →
      nextToken F.parse (x ++ rest) = .ok (some (.symbol name, rest))) :
    ReadAs F x (.float bits) (isFinite bits = true) := by
  have hatom : tokenToAtom (.symbol name) = .ok (.symbol name) := rfl
  have hfalse : ∀ {P : Prop}, isFinite bits = true → P := by
    intro P h
    rw [hfinite] at h
    cases h
  constructor
  · intro rest ts hrest hts
    obtain ⟨ts', rfl, -⟩ := (lexes_iff_of_token (hnext rest hrest)).mp hts
    exact ⟨_, ts', rfl, opens_of_atom hatom⟩
  · exact fun h _ _ => hfalse h
  · exact fun h _ => hfalse h
  · intro rest ts levels e ts' hrest hts hparses hvalue
    obtain ⟨ts'', rfl, -⟩ := (lexes_iff_of_token (hnext rest hrest)).mp hts
    obtain ⟨-, rfl, -⟩ := (parses_atom_iff hatom).mp hparses
    cases hvalue

theorem display_float (hF : F.Lawful) (bits : UInt64) :
    (isFinite bits = true ∧ ∃ negative ds fs, IsDigits ds ∧ IsDigits fs ∧
      display F (.float bits) = fractionText negative ds fs ∧
        F.parse (fractionText negative ds fs) = some bits) ∨
    (isFinite bits = false ∧
      display F (.float bits) ∈ ["inf".toList, "-inf".toList, "NaN".toList]) := by
  cases hfinite : isFinite bits with
  | true =>
    left
    cases hwhole : isWhole bits with
    | true =>
      obtain ⟨negative, ds, hds, htext, hparse⟩ := hF.whole bits hfinite hwhole
      have hfraction : F.text bits ++ ['.', '0'] = fractionText negative ds ['0'] := by
        rw [htext, fractionText]
      rw [display, hwhole, hfinite, if_pos (by decide), hfraction]
      rw [hfraction] at hparse
      exact ⟨rfl, negative, ds, ['0'], hds, ⟨by simp, by simp⟩, rfl, hparse⟩
    | false =>
      obtain ⟨negative, ds, fs, hds, hfs, htext, hparse⟩ := hF.fraction bits hfinite hwhole
      rw [display, hwhole, hfinite, if_neg (by decide), htext]
      rw [htext] at hparse
      exact ⟨rfl, negative, ds, fs, hds, hfs, rfl, hparse⟩
  | false =>
    right
    rw [display, hfinite, Bool.and_false, if_neg (by decide)]
    exact ⟨rfl, hF.notFinite bits hfinite⟩

theorem nextToken_notFinite {name rest : List Char}
    (hname : name ∈ ["inf".toList, "-inf".toList, "NaN".toList]) (hrest : Breaks rest) :
    nextToken F.parse (name ++ rest) = .ok (some (.symbol name, rest)) := by
  rw [List.mem_cons, List.mem_cons, List.mem_singleton] at hname
  rcases hname with h | h | h
  · rw [h]
    exact nextToken_name (by decide) (by decide) hrest
  · rw [h]
    exact nextToken_minusName rfl (by decide) hrest
  · rw [h]
    exact nextToken_name (by decide) (by decide) hrest

theorem readAs_float (hF : F.Lawful) (bits : UInt64) :
    ReadAs F (display F (.float bits)) (.float bits) (isFinite bits = true) := by
  rcases display_float hF bits with ⟨hfinite, negative, ds, fs, hds, hfs, htext, hparse⟩ |
    ⟨hfinite, hname⟩
  · have hatom : ReadAs F (display F (.float bits)) (.float bits) True := by
      rw [htext]
      exact readAs_atom rfl rfl rfl rfl fun _ hrest => nextToken_float hds hfs hparse hrest.breaks
    simpa [hfinite] using hatom
  · exact readAs_symbol hfinite fun _ hrest => nextToken_notFinite hname hrest.breaks

end Constants

theorem tokens_opens (v : Datum) : ∃ tok ts, tokens v = tok :: ts ∧ Opens tok := by
  cases v with
  | list items => exact ⟨_, _, rfl, by simp [Opens]⟩
  | variant tag inner => exact ⟨_, _, rfl, by simp [Opens]⟩
  | _ => exact ⟨_, _, rfl, by simp [Opens]⟩

section Items

variable {F : FloatFormat} {f : Datum → List Char} {C : Datum → Prop} {items : List Datum}
  {rest : List Char} {ts ts' : List Token} {levels : Nat}

/-- The items with blanks between them and the closing bracket behind them. -/
def itemsText (f : Datum → List Char) (items : List Datum) (rest : List Char) : List Char :=
  [' '].intercalate (items.map f) ++ ']' :: rest

theorem itemsText_cons (F : FloatFormat) (f : Datum → List Char) (rest : List Char) (v : Datum)
    (vs : List Datum) : ∃ tail,
    itemsText f (v :: vs) rest = f v ++ tail ∧ Delimited tail ∧
      ∀ ts, Lexes F.parse tail ts ↔ Lexes F.parse (itemsText f vs rest) ts := by
  cases vs with
  | nil =>
    refine ⟨']' :: rest, by simp [itemsText], ⟨_, _, rfl, by simp⟩, fun ts => ?_⟩
    simp [itemsText]
  | cons w ws =>
    refine ⟨' ' :: itemsText f (w :: ws) rest, by simp [itemsText], ⟨_, _, rfl, by simp⟩, ?_⟩
    exact fun ts => lexes_congr (nextToken_space _)

theorem lexes_items (h : ∀ v ∈ items, ReadAs F (f v) v (C v)) (hC : ∀ v ∈ items, C v)
    (hts : Lexes F.parse rest ts) :
    Lexes F.parse (itemsText f items rest) (itemsTokens items ++ .rbracket :: ts) := by
  induction items with
  | nil => exact .next nextToken_rbracket hts
  | cons v vs ih =>
    obtain ⟨tail, htext, htail, hlexes⟩ := itemsText_cons F f rest v vs
    have hvs := ih (fun w hw => h w (by simp [hw])) (fun w hw => hC w (by simp [hw]))
    rw [htext, itemsTokens, List.append_assoc]
    exact (h v (by simp)).lexes (hC v (by simp)) htail ((hlexes _).mpr hvs)

theorem parses_items (h : ∀ v ∈ items, ReadAs F (f v) v (C v)) (hC : ∀ v ∈ items, C v)
    (hnesting : itemsNesting items ≤ levels) : ∃ es,
      (∀ ts, ParsesList levels .rbracket (itemsTokens items ++ .rbracket :: ts) es ts) ∧
        sexprsToValues es = items := by
  induction items with
  | nil => exact ⟨[], fun ts => (parsesList_close_iff (by simp)).mpr ⟨rfl, rfl⟩, rfl⟩
  | cons v vs ih =>
    rw [itemsNesting] at hnesting
    obtain ⟨es, hes, hvalues⟩ := ih (fun w hw => h w (by simp [hw]))
      (fun w hw => hC w (by simp [hw])) (by omega)
    obtain ⟨e, he, hvalue⟩ := (h v (by simp)).parses (hC v (by simp))
      (show nesting v < levels by omega)
    refine ⟨e :: es, fun ts => ?_, by rw [sexprsToValues, hvalue, hvalues]⟩
    have hfirst := he (itemsTokens vs ++ .rbracket :: ts)
    obtain ⟨tok, more, htok, hopens⟩ := tokens_opens v
    rw [itemsTokens, List.append_assoc]
    rw [htok, List.cons_append] at hfirst ⊢
    exact (parsesList_cons_iff hopens.1 hopens.2.2).mpr ⟨e, es, _, rfl, hfirst, hes ts⟩

theorem reads_items {es : List SExpr} (h : ∀ v ∈ items, ReadAs F (f v) v (C v))
    (hts : Lexes F.parse (itemsText f items rest) ts)
    (hparses : ParsesList levels .rbracket ts es ts') (hvalues : sexprsToValues es <+: items) :
    ((∀ v ∈ items, C v) ∧ itemsNesting items ≤ levels) ∧ sexprsToValues es = items ∧
      ts = itemsTokens items ++ .rbracket :: ts' ∧ Lexes F.parse rest ts' := by
  induction items generalizing ts es with
  | nil =>
    have hes : es = [] := by
      cases es with
      | nil => rfl
      | cons e es => exact absurd (List.prefix_nil.mp hvalues) (by simp [sexprsToValues])
    subst hes
    obtain ⟨ts'', rfl, hrest⟩ := (lexes_iff_of_token nextToken_rbracket).mp hts
    obtain ⟨-, rfl⟩ := (parsesList_close_iff (by simp)).mp hparses
    exact ⟨⟨by simp, Nat.zero_le _⟩, rfl, rfl, hrest⟩
  | cons v vs ih =>
    obtain ⟨tail, htext, htail, hlexes⟩ := itemsText_cons F f rest v vs
    have hv := h v (by simp)
    rw [htext] at hts
    obtain ⟨tok, more, rfl, hopens⟩ := hv.opens htail hts
    obtain ⟨e, es, next, rfl, hfirst, hothers⟩ :=
      (parsesList_cons_iff hopens.1 hopens.2.2).mp hparses
    rw [sexprsToValues, List.cons_prefix_cons] at hvalues
    obtain ⟨hC, hnesting, htokens, hnext⟩ := hv.reads htail hts hfirst hvalues.1
    obtain ⟨⟨hCs, hnestings⟩, hes, rfl, hrest⟩ := ih (fun w hw => h w (by simp [hw]))
      ((hlexes _).mp hnext) hothers hvalues.2
    refine ⟨⟨List.forall_mem_cons.mpr ⟨hC, hCs⟩, ?_⟩, ?_, ?_, hrest⟩
    · rw [itemsNesting]
      omega
    · rw [sexprsToValues, hvalues.1, hes]
    · rw [htokens, itemsTokens, List.append_assoc]

theorem readAs_list (h : ∀ v ∈ items, ReadAs F (f v) v (C v)) :
    ReadAs F ('[' :: [' '].intercalate (items.map f) ++ [']']) (.list items)
      (∀ v ∈ items, C v) := by
  have htext : ∀ rest, '[' :: [' '].intercalate (items.map f) ++ [']'] ++ rest =
      '[' :: itemsText f items rest := by
    intro rest
    simp [itemsText]
  have htokens : ∀ ts, tokens (.list items) ++ ts =
      .lbracket :: (itemsTokens items ++ .rbracket :: ts) := by
    intro ts
    simp [tokens]
  constructor
  · intro rest ts _ hts
    rw [htext] at hts
    obtain ⟨ts', rfl, -⟩ := (lexes_iff_of_token nextToken_lbracket).mp hts
    exact ⟨_, ts', rfl, by simp [Opens]⟩
  · intro rest ts hC _ hts
    rw [htext, htokens]
    exact .next nextToken_lbracket (lexes_items h hC hts)
  · intro levels hC hnesting
    cases levels with
    | zero => exact absurd hnesting (Nat.not_lt_zero _)
    | succ levels =>
      obtain ⟨es, hes, hvalues⟩ := parses_items h hC (Nat.le_of_lt_succ hnesting)
      refine ⟨.bracketList es, fun ts => ?_, by rw [sexprToValue, hvalues]⟩
      rw [htokens]
      exact parses_lbracket_iff.mpr ⟨es, rfl, hes ts⟩
  · intro rest ts levels e ts' _ hts hparses hvalue
    rw [htext] at hts
    obtain ⟨ts'', rfl, hitems⟩ := (lexes_iff_of_token nextToken_lbracket).mp hts
    cases levels with
    | zero => exact absurd (parses_levels hparses) (Nat.lt_irrefl 0)
    | succ levels =>
      obtain ⟨es, rfl, hlist⟩ := parses_lbracket_iff.mp hparses
      rw [sexprToValue, Datum.list.injEq] at hvalue
      obtain ⟨⟨hC, hnesting⟩, -, rfl, hrest⟩ :=
        reads_items h hitems hlist (hvalue ▸ List.prefix_refl _)
      exact ⟨hC, Nat.lt_succ_of_le hnesting, (htokens ts').symm, hrest⟩

end Items

/-! ## Variants -/

section Variants

variable {F : FloatFormat} {tag : List Char} {inner : Datum}

theorem isAlpha_of_startsUppercase {c : Char} {cs : List Char}
    (h : startsUppercase (c :: cs) = true) : c.isAlpha = true :=
  isAlpha_of_isUpper (by simpa [startsUppercase] using h)

theorem nextToken_tag {rest : List Char} (htag : IsTag tag) (hrest : Delimited rest) :
    nextToken F.parse (tag ++ rest) = .ok (some (.symbol tag, rest)) := by
  obtain ⟨hupper, hname⟩ := htag
  have hne : ∀ s : List Char, startsUppercase s = false → tag ≠ s := by
    rintro s hs rfl
    rw [hs] at hupper
    cases hupper
  have hhead : tag.head?.any Char.isAlpha = true := by
    cases tag with
    | nil => cases hupper
    | cons c cs => simpa using isAlpha_of_startsUppercase hupper
  rw [nextToken_name hname hhead hrest.breaks, if_neg (hne _ rfl), if_neg (hne _ rfl),
    if_neg (hne _ rfl)]

theorem opens_of_upper {s t : List Char} {tok : Token} (hupper : startsUppercase s = true)
    (hnext : nextToken F.parse s = .ok (some (tok, t))) : Opens tok := by
  cases s with
  | nil => cases hupper
  | cons c cs =>
    rw [nextToken_alpha (isAlpha_of_startsUppercase hupper)] at hnext
    have htok := congrArg Prod.fst (Option.some.inj (Except.ok.inj hnext))
    rw [lexSymbol] at htok
    dsimp only at htok
    rw [← htok]
    split_ifs <;> simp [Opens]

theorem isTag_of_token {rest t : List Char} {tok : Token} (hupper : startsUppercase tag = true)
    (hrest : Delimited rest) (hnext : nextToken F.parse (tag ++ rest) = .ok (some (tok, t)))
    (hatom : tokenToAtom tok = .ok (.symbol tag)) : IsTag tag ∧ t = rest := by
  cases tag with
  | nil => cases hupper
  | cons c cs =>
    rw [List.cons_append, nextToken_alpha (isAlpha_of_startsUppercase hupper)] at hnext
    have hlex := Option.some.inj (Except.ok.inj hnext)
    have htok := congrArg Prod.fst hlex
    have hname : (symbolSpan (c :: (cs ++ rest))).1 = c :: cs := by
      rw [lexSymbol] at htok
      dsimp only at htok
      rw [← htok] at hatom
      split_ifs at hatom
      · cases hatom
      · cases hatom
      · cases hatom
      · exact AtomKind.symbol.inj (Except.ok.inj hatom)
    have ht : (symbolSpan (c :: (cs ++ rest))).2 = t := congrArg Prod.snd hlex
    have hspan : symbolSpan (c :: cs ++ rest) = (c :: cs, t) := Prod.ext hname ht
    obtain ⟨hisName, rfl⟩ := (symbolSpan_breaks hrest.breaks).mp hspan
    exact ⟨⟨hupper, hisName⟩, rfl⟩

theorem sexprToValue_list (items : List SExpr) :
    sexprToValue (.list items) = .list (sexprsToValues items) ∨
      ∃ name inner, items = [.atom (.symbol name), inner] ∧ startsUppercase name = true ∧
        sexprToValue (.list items) = .variant name (sexprToValue inner) := by
  rw [sexprToValue.eq_def]
  split
  · next heq => cases heq
  · next name inner heq =>
    cases heq
    by_cases hupper : startsUppercase name = true
    · rw [if_pos hupper]
      exact Or.inr ⟨name, inner, rfl, hupper, rfl⟩
    · rw [if_neg hupper]
      exact Or.inl rfl
  · next heq =>
    cases heq
    exact Or.inl rfl
  · next heq => cases heq

theorem sexprToValue_eq_variant {e : SExpr} (h : sexprToValue e = .variant tag inner) :
    ∃ expr, e = .list [.atom (.symbol tag), expr] ∧ startsUppercase tag = true ∧
      sexprToValue expr = inner := by
  cases e with
  | atom kind => cases kind <;> cases h
  | bracketList items => cases h
  | list items =>
    rcases sexprToValue_list items with hlist | ⟨name, expr, rfl, hupper, hvariant⟩
    · rw [hlist] at h
      cases h
    · rw [hvariant] at h
      cases h
      exact ⟨expr, rfl, hupper, rfl⟩

theorem sexprToValue_ne_constant (e : SExpr) : sexprToValue e ≠ .constant tag := by
  intro h
  cases e with
  | atom kind => cases kind <;> cases h
  | bracketList items => cases h
  | list items =>
    rcases sexprToValue_list items with hlist | ⟨_, _, -, -, hvariant⟩
    · rw [hlist] at h
      cases h
    · rw [hvariant] at h
      cases h

theorem readAs_constant : ReadAs F (display F (.constant tag)) (.constant tag) False := by
  constructor
  · intro rest ts _ hts
    rw [display, List.cons_append, List.cons_append] at hts
    obtain ⟨ts', rfl, -⟩ := (lexes_iff_of_token nextToken_lparen).mp hts
    exact ⟨_, ts', rfl, by simp [Opens]⟩
  · exact fun h _ _ => h.elim
  · exact fun h _ => h.elim
  · exact fun _ _ _ hvalue => absurd hvalue (sexprToValue_ne_constant _)

theorem readAs_variant {x : List Char} {C : Prop} (h : ReadAs F x inner C) :
    ReadAs F ('(' :: tag ++ ' ' :: x ++ [')']) (.variant tag inner) (IsTag tag ∧ C) := by
  have htext : ∀ rest, '(' :: tag ++ ' ' :: x ++ [')'] ++ rest =
      '(' :: (tag ++ ' ' :: (x ++ ')' :: rest)) := by
    intro rest
    simp
  have htokens : ∀ ts, tokens (.variant tag inner) ++ ts =
      .lparen :: .symbol tag :: (tokens inner ++ .rparen :: ts) := by
    intro ts
    simp [tokens]
  have hblank : ∀ rest : List Char, Delimited (' ' :: rest) := fun _ => ⟨_, _, rfl, by simp⟩
  have hclose : ∀ rest : List Char, Delimited (')' :: rest) := fun _ => ⟨_, _, rfl, by simp⟩
  have hspace : ∀ {s ts}, Lexes F.parse (' ' :: s) ts ↔ Lexes F.parse s ts :=
    lexes_congr (nextToken_space _)
  constructor
  · intro rest ts _ hts
    rw [htext] at hts
    obtain ⟨ts', rfl, -⟩ := (lexes_iff_of_token nextToken_lparen).mp hts
    exact ⟨_, ts', rfl, by simp [Opens]⟩
  · intro rest ts hC _ hts
    rw [htext, htokens]
    exact .next nextToken_lparen (.next (nextToken_tag hC.1 (hblank _))
      (hspace.mpr (h.lexes hC.2 (hclose rest) (.next nextToken_rparen hts))))
  · intro levels hC hnesting
    cases levels with
    | zero => exact absurd hnesting (Nat.not_lt_zero _)
    | succ levels =>
      have hinner : nesting inner < levels := Nat.lt_of_succ_lt_succ hnesting
      obtain ⟨e, he, hvalue⟩ := h.parses hC.2 hinner
      refine ⟨.list [.atom (.symbol tag), e], fun ts => ?_, ?_⟩
      · rw [htokens]
        refine parses_lparen_iff.mpr ⟨_, rfl, ?_⟩
        have htag : Parses levels (.symbol tag :: (tokens inner ++ .rparen :: ts))
            (.atom (.symbol tag)) (tokens inner ++ .rparen :: ts) :=
          (parses_atom_iff rfl).mpr ⟨Nat.zero_lt_of_lt hinner, rfl, rfl⟩
        have hparses := he (.rparen :: ts)
        obtain ⟨tok, more, htok, hopens⟩ := tokens_opens inner
        refine (parsesList_cons_iff (by simp) (by simp)).mpr ⟨_, _, _, rfl, htag, ?_⟩
        rw [htok, List.cons_append] at hparses ⊢
        exact (parsesList_cons_iff hopens.1 hopens.2.1).mpr ⟨e, [], _, rfl, hparses,
          (parsesList_close_iff (by simp)).mpr ⟨rfl, rfl⟩⟩
      · rw [sexprToValue, if_pos hC.1.1, hvalue]
  · intro rest ts levels e ts' _ hts hparses hvalue
    rw [htext] at hts
    obtain ⟨ts1, rfl, hts1⟩ := (lexes_iff_of_token nextToken_lparen).mp hts
    cases levels with
    | zero => exact absurd (parses_levels hparses) (Nat.lt_irrefl 0)
    | succ levels =>
      obtain ⟨expr, rfl, hupper, hinner⟩ := sexprToValue_eq_variant hvalue
      obtain ⟨items, hitems, hlist⟩ := parses_lparen_iff.mp hparses
      cases hitems
      cases hts1 with
      | done => exact absurd hlist not_parsesList_nil
      | next hnext hts2 =>
        have hupper' : startsUppercase (tag ++ ' ' :: (x ++ ')' :: rest)) = true := by
          cases tag with
          | nil => cases hupper
          | cons c cs => exact hupper
        have hopens := opens_of_upper hupper' hnext
        obtain ⟨_, _, next, hcons, hsymbol, hothers⟩ :=
          (parsesList_cons_iff hopens.1 hopens.2.1).mp hlist
        cases hcons
        obtain ⟨hatom, rfl⟩ := tokenToAtom_of_parses hsymbol
        obtain ⟨htag, rfl⟩ := isTag_of_token hupper (hblank _) hnext hatom
        rw [nextToken_tag htag (hblank _)] at hnext
        cases hnext
        have hts2 := hspace.mp hts2
        obtain ⟨tok, more, rfl, hopens⟩ := h.opens (hclose rest) hts2
        obtain ⟨_, _, next, hcons, hexpr, hend⟩ :=
          (parsesList_cons_iff hopens.1 hopens.2.1).mp hothers
        cases hcons
        obtain ⟨hC, hnesting, htoks, hnext⟩ := h.reads (hclose rest) hts2 hexpr hinner
        obtain ⟨ts3, rfl, hrest⟩ := (lexes_iff_of_token nextToken_rparen).mp hnext
        obtain ⟨-, rfl⟩ := (parsesList_close_iff (by simp)).mp hend
        refine ⟨⟨htag, hC⟩, Nat.succ_lt_succ hnesting, ?_, hrest⟩
        rw [htokens, htoks]

end Variants

/-! ## Whole values -/

section Values

variable {F : FloatFormat}

theorem readAs_display (hF : F.Lawful) (v : Datum) : ReadAs F (display F v) v (Clean v) := by
  induction v using Datum.induct with
  | nil => exact readAs_nil
  | bool b => exact readAs_bool b
  | int n => exact readAs_int n
  | float bits => exact readAs_float hF bits
  | str s =>
    rw [display]
    refine readAs_string (fun hC rest => lexString_plain hC.1 hC.2) fun rest t hread => ?_
    have hwhole : [] ++ (List.replicate 0 '\\' ++ s) = s := by simp
    rw [← hwhole] at hread
    obtain ⟨-, hplain, hshort, ht⟩ := lexString_inv hread
    exact ⟨⟨hplain, hshort⟩, ht⟩
  | list items ih =>
    rw [display, displayItems_eq, Clean]
    have := readAs_list ih
    rwa [← cleanItems_iff] at this
  | variant tag inner ih =>
    rw [display, Clean]
    exact readAs_variant ih
  | constant tag => exact readAs_constant

theorem escapeStr_cons (c : Char) (s : List Char) : escapeStr (c :: s) =
    (if c = '\\' then ['\\', '\\'] else if c = '"' then ['\\', '"'] else [c]) ++
      escapeStr s := by
  unfold escapeStr replaceChar
  rw [List.flatMap_cons, List.flatMap_append]
  congr 1
  by_cases hslash : c = '\\'
  · subst hslash
    rfl
  · by_cases hquote : c = '"'
    · subst hquote
      rfl
    · simp [hslash, hquote]

theorem lexString_escapeStr {value s rest : List Char} (hshort : IsShort (value ++ s)) :
    lexString value (escapeStr s ++ '"' :: rest) = .ok (value ++ s, rest) := by
  induction s generalizing value with
  | nil =>
    rw [List.append_nil] at hshort ⊢
    exact lexString_quote hshort
  | cons c s ih =>
    have hsplit : value ++ c :: s = (value ++ [c]) ++ s := by simp
    rw [hsplit] at hshort ⊢
    have hvalue := hshort.of_append.of_append
    rw [escapeStr_cons, List.append_assoc]
    by_cases hslash : c = '\\'
    · subst hslash
      rw [if_pos rfl, List.cons_append, List.singleton_append,
        lexString_escape hvalue rfl, ih hshort]
    rw [if_neg hslash]
    by_cases hquote : c = '"'
    · subst hquote
      rw [if_pos rfl, List.cons_append, List.singleton_append,
        lexString_escape hvalue rfl, ih hshort]
    · rw [if_neg hquote, List.singleton_append, lexString_char hvalue hquote hslash, ih hshort]

theorem lexString_escapeStr_iff {value s rest w t : List Char} :
    lexString value (escapeStr s ++ '"' :: rest) = .ok (w, t) ↔
      IsShort (value ++ s) ∧ w = value ++ s ∧ t = rest := by
  constructor
  · intro h
    by_cases hshort : IsShort (value ++ s)
    · rw [lexString_escapeStr hshort] at h
      cases h
      exact ⟨hshort, rfl, rfl⟩
    · exfalso
      induction s generalizing value with
      | nil =>
        rw [List.append_nil] at hshort
        exact hshort (isShort_of_lexString h)
      | cons c s ih =>
        have hvalue := isShort_of_lexString h
        have hsplit : value ++ c :: s = (value ++ [c]) ++ s := by simp
        rw [hsplit] at hshort
        refine ih ?_ hshort
        rw [escapeStr_cons, List.append_assoc] at h
        by_cases hslash : c = '\\'
        · subst hslash
          rwa [if_pos rfl, List.cons_append, List.singleton_append,
            lexString_escape hvalue rfl] at h
        rw [if_neg hslash] at h
        by_cases hquote : c = '"'
        · subst hquote
          rwa [if_pos rfl, List.cons_append, List.singleton_append,
            lexString_escape hvalue rfl] at h
        · rwa [if_neg hquote, List.singleton_append, lexString_char hvalue hquote hslash] at h
  · rintro ⟨hshort, rfl, rfl⟩
    exact lexString_escapeStr hshort

/-- An argument or a payload comes back exactly if it is clean, its quotation marks apart. -/
theorem readAs_valueToWire (hF : F.Lawful) (v : Datum) :
    ReadAs F (valueToWire F v) v (CleanArg v) := by
  have hdisplay := readAs_display hF v
  cases v with
  | str s =>
    refine readAs_string (fun hC rest => lexString_escapeStr hC) fun rest t hread => ?_
    obtain ⟨hshort, -, ht⟩ := lexString_escapeStr_iff.mp hread
    exact ⟨hshort, ht⟩
  | _ => exact hdisplay

end Values

end Airl.Agent
