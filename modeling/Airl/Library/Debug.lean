import Mathlib.Data.List.Basic

/-! # Derived `Debug` text

What `#[derive(Debug)]` writes with `{:?}`: a tree of words, strings, tuples, records and lists, and
its text on one line. The text determines the tree, also in front of whatever may follow it.
-/

namespace Debug

/-! ## Numerals -/

theorem digitChar_injective {m n : Nat} (hm : m < 16) (hn : n < 16)
    (h : Nat.digitChar m = Nat.digitChar n) : m = n := by
  have hall : ∀ m < 16, ∀ n < 16, Nat.digitChar m = Nat.digitChar n → m = n := by decide
  exact hall m hm n hn h

theorem toDigits_injective {b : Nat} (hb : 1 < b) (hb' : b ≤ 16) {m n : Nat}
    (h : Nat.toDigits b m = Nat.toDigits b n) : m = n := by
  have hdigits : ∀ k, Nat.toDigits b k =
      if k < b then [k.digitChar] else Nat.toDigits b (k / b) ++ [(k % b).digitChar] :=
    fun _ => Nat.toDigits_eq_if hb
  induction m using Nat.strongRecOn generalizing n with
  | ind m ih =>
    rw [hdigits m, hdigits n] at h
    split at h
    next hm =>
      split at h
      next hn =>
        exact digitChar_injective (Nat.lt_of_lt_of_le hm hb') (Nat.lt_of_lt_of_le hn hb')
          (List.cons.inj h).1
      next =>
        have hlength := congrArg List.length h
        have hpos : 0 < (Nat.toDigits b (n / b)).length := Nat.length_toDigits_pos
        rw [List.length_append, List.length_singleton, List.length_singleton] at hlength
        omega
    next hm =>
      split at h
      next =>
        have hlength := congrArg List.length h
        have hpos : 0 < (Nat.toDigits b (m / b)).length := Nat.length_toDigits_pos
        rw [List.length_append, List.length_singleton, List.length_singleton] at hlength
        omega
      next hn =>
        obtain ⟨hhigh, hlow⟩ := List.append_inj' h rfl
        have hquotient := ih (m / b) (Nat.div_lt_self (by omega) hb) hhigh
        have hremainder := digitChar_injective
          (Nat.lt_of_lt_of_le (Nat.mod_lt m (by omega)) hb')
          (Nat.lt_of_lt_of_le (Nat.mod_lt n (by omega)) hb') (List.cons.inj hlow).1
        rw [← Nat.div_add_mod m b, ← Nat.div_add_mod n b, hquotient, hremainder]

/-- Two texts that are cut where a property ends are cut alike. -/
theorem append_inj_of_stops {α : Type} {p : α → Bool} {xs ys r r' : List α}
    (hxs : ∀ x ∈ xs, p x = true) (hys : ∀ y ∈ ys, p y = true)
    (hr : ∀ c ∈ r.head?, p c = false) (hr' : ∀ c ∈ r'.head?, p c = false)
    (h : xs ++ r = ys ++ r') : xs = ys ∧ r = r' := by
  induction xs generalizing ys with
  | nil =>
    cases ys with
    | nil => exact ⟨rfl, h⟩
    | cons y ys =>
      have hstop := hr y (by rw [show r = (y :: ys) ++ r' from h]; rfl)
      rw [hys y List.mem_cons_self] at hstop
      exact nomatch hstop
  | cons x xs ih =>
    cases ys with
    | nil =>
      have hstop := hr' x (by rw [← show (x :: xs) ++ r = r' from h]; rfl)
      rw [hxs x List.mem_cons_self] at hstop
      exact nomatch hstop
    | cons y ys =>
      obtain ⟨hhead, htail⟩ := List.cons.inj h
      obtain ⟨hrest, hstop⟩ := ih (fun x hx => hxs x (List.mem_cons_of_mem _ hx))
        (fun y hy => hys y (List.mem_cons_of_mem _ hy)) htail
      rw [hhead, hrest]
      exact ⟨rfl, hstop⟩

/-! ## Words -/

/-- The characters of names and numbers. -/
def isWordChar (c : Char) : Bool := c.isAlphanum || c == '-' || c == '.' || c == '_'

/-- The name of a type, a field or a variant, or a number. -/
structure Word where
  text : List Char
  nonempty : text ≠ []
  chars : ∀ c ∈ text, isWordChar c = true

namespace Word

theorem ext {v w : Word} (h : v.text = w.text) : v = w := by
  cases v
  cases w
  cases h
  rfl

/-- Some characters, all of them a word's. -/
def isText (cs : List Char) : Bool := !cs.isEmpty && cs.all isWordChar

def of (s : String) (h : isText s.toList = true := by decide) : Word where
  text := s.toList
  nonempty := by
    intro hnil
    rw [hnil] at h
    exact nomatch h
  chars := List.all_eq_true.mp (Bool.and_eq_true_iff.mp h).2

@[simp] theorem of_inj {s t : String} {hs : isText s.toList = true} {ht : isText t.toList = true} :
    of s hs = of t ht ↔ s = t := by
  constructor
  · intro h
    exact String.toList_inj.mp (congrArg Word.text h)
  · intro h
    subst h
    rfl

theorem digit_chars (n : Nat) : ∀ c ∈ Nat.toDigits 10 n, isWordChar c = true := by
  intro c hc
  have hdigit : c.isDigit = true :=
    Nat.isDigit_of_mem_toDigits (by decide) (by decide) hc
  simp [isWordChar, Char.isAlphanum, hdigit]

def nat (n : Nat) : Word := ⟨Nat.toDigits 10 n, Nat.toDigits_ne_nil, digit_chars n⟩

@[simp] theorem nat_inj {m n : Nat} : nat m = nat n ↔ m = n := by
  constructor
  · exact fun h => toDigits_injective (by decide) (by decide) (congrArg Word.text h)
  · exact fun h => congrArg nat h

/-- A sign, if there is one, and the digits. -/
def int (n : Int) : Word where
  text := (if n < 0 then ['-'] else []) ++ Nat.toDigits 10 n.natAbs
  nonempty := by
    intro h
    exact Nat.toDigits_ne_nil (List.append_eq_nil_iff.mp h).2
  chars := by
    intro c hc
    rcases List.mem_append.mp hc with hc | hc
    · split at hc
      next =>
        rw [List.mem_singleton.mp hc]
        decide
      next => exact absurd hc List.not_mem_nil
    · exact digit_chars _ c hc

theorem minus_not_digit (n : Nat) : '-' ∉ Nat.toDigits 10 n := fun h =>
  absurd (Nat.isDigit_of_mem_toDigits (by decide) (by decide) h) (by decide)

@[simp] theorem int_inj {m n : Int} : int m = int n ↔ m = n := by
  constructor
  · intro h
    have htext : (if m < 0 then ['-'] else []) ++ Nat.toDigits 10 m.natAbs =
        (if n < 0 then ['-'] else []) ++ Nat.toDigits 10 n.natAbs := congrArg Word.text h
    -- the sign can be told, since it is no digit
    have hsign : m < 0 ↔ n < 0 := by
      constructor
      · intro hm
        by_contra hn
        rw [if_pos hm, if_neg hn] at htext
        exact minus_not_digit n.natAbs (by rw [← List.nil_append (Nat.toDigits _ _), ← htext]; simp)
      · intro hn
        by_contra hm
        rw [if_neg hm, if_pos hn] at htext
        exact minus_not_digit m.natAbs (by rw [← List.nil_append (Nat.toDigits _ _), htext]; simp)
    have hdigits : Nat.toDigits 10 m.natAbs = Nat.toDigits 10 n.natAbs := by
      by_cases hm : m < 0
      · rw [if_pos hm, if_pos (hsign.mp hm)] at htext
        exact List.append_cancel_left htext
      · rw [if_neg hm, if_neg (mt hsign.mpr hm)] at htext
        exact htext
    have habs := toDigits_injective (by decide) (by decide) hdigits
    omega
  · exact fun h => congrArg int h

end Word

/-! ## Strings -/

/-- The letter that stands for a character after a backslash. -/
def short (c : Char) : Option Char :=
  if c = '\x00' then some '0'
  else if c = '\t' then some 't'
  else if c = '\r' then some 'r'
  else if c = '\n' then some 'n'
  else if c = '"' then some '"'
  else if c = '\\' then some '\\'
  else none

/-- What the letter stands for. -/
def long (k : Char) : Char :=
  if k = '0' then '\x00'
  else if k = 't' then '\t'
  else if k = 'r' then '\r'
  else if k = 'n' then '\n'
  else k

theorem long_short {c k : Char} (h : short c = some k) : long k = c := by
  unfold short at h
  split_ifs at h <;> cases h <;> exact Eq.symm ‹_›

theorem short_injective {c d k : Char} (hc : short c = some k) (hd : short d = some k) : c = d :=
  (long_short hc).symm.trans (long_short hd)

theorem short_ne_u (c : Char) : short c ≠ some 'u' := by
  grind [short]

theorem plain_of_short {c : Char} (h : short c = none) : c ≠ '"' ∧ c ≠ '\\' := by
  constructor
  · rintro rfl
    exact absurd h (by decide)
  · rintro rfl
    exact absurd h (by decide)

section Strings

-- the characters that are written by their number: those that do not print, and those that extend
-- the one before them
variable (hidden : Char → Bool)

def escapeChar (c : Char) : List Char :=
  match short c with
  | some k => ['\\', k]
  | none => if hidden c then '\\' :: 'u' :: '{' :: Nat.toDigits 16 c.toNat ++ ['}'] else [c]

def escape (cs : List Char) : List Char := cs.flatMap (escapeChar hidden)

/-- `{:?}` of a string. -/
def quoted (s : String) : List Char := '"' :: escape hidden s.toList ++ ['"']

variable {hidden}

theorem escapeChar_head (c : Char) (rest : List Char) :
    ∃ d ds, escapeChar hidden c ++ rest = d :: ds ∧ d ≠ '"' := by
  unfold escapeChar
  split
  next k _ => exact ⟨'\\', k :: rest, rfl, by decide⟩
  next hshort =>
    split
    next => exact ⟨'\\', _, rfl, by decide⟩
    next => exact ⟨c, rest, rfl, (plain_of_short hshort).1⟩

theorem hexDigit_ne_brace (n : Nat) : '}' ∉ Nat.toDigits 16 n := by
  intro h
  have hdigits : ∀ k, Nat.toDigits 16 k =
      if k < 16 then [k.digitChar] else Nat.toDigits 16 (k / 16) ++ [(k % 16).digitChar] :=
    fun _ => Nat.toDigits_eq_if (by decide)
  have hdigit : ∀ k < 16, '}' ≠ Nat.digitChar k := by decide
  induction n using Nat.strongRecOn with
  | ind n ih =>
    rw [hdigits n] at h
    split at h
    next hn => exact hdigit n hn (List.mem_singleton.mp h)
    next =>
      rcases List.mem_append.mp h with h | h
      · exact ih (n / 16) (by omega) h
      · exact hdigit (n % 16) (Nat.mod_lt n (by decide)) (List.mem_singleton.mp h)

theorem hexDigits_stop (n : Nat) : ∀ c ∈ Nat.toDigits 16 n, (c != '}') = true := by
  intro c hc
  rw [bne_iff_ne]
  rintro rfl
  exact hexDigit_ne_brace n hc

theorem escapeChar_append_inj {c d : Char} {xs ys : List Char}
    (h : escapeChar hidden c ++ xs = escapeChar hidden d ++ ys) : c = d ∧ xs = ys := by
  unfold escapeChar at h
  cases hc : short c with
  | some k =>
    rw [hc] at h
    cases hd : short d with
    | some l =>
      rw [hd] at h
      simp only [List.cons_append, List.nil_append, List.cons.injEq, true_and] at h
      exact ⟨short_injective hc (h.1 ▸ hd), h.2⟩
    | none =>
      rw [hd] at h
      dsimp only at h
      split at h
      next =>
        simp only [List.cons_append, List.nil_append, List.cons.injEq, true_and] at h
        exact absurd (h.1 ▸ hc) (short_ne_u c)
      next =>
        simp only [List.cons_append, List.nil_append, List.cons.injEq] at h
        exact absurd h.1.symm (plain_of_short hd).2
  | none =>
    rw [hc] at h
    cases hd : short d with
    | some l =>
      rw [hd] at h
      dsimp only at h
      split at h
      next =>
        simp only [List.cons_append, List.nil_append, List.cons.injEq, true_and] at h
        exact absurd (h.1 ▸ hd) (short_ne_u d)
      next =>
        simp only [List.cons_append, List.nil_append, List.cons.injEq] at h
        exact absurd h.1 (plain_of_short hc).2
    | none =>
      rw [hd] at h
      dsimp only at h
      split at h
      next =>
        split at h
        next =>
          simp only [List.cons_append, List.append_assoc, List.nil_append, List.cons.injEq,
            true_and] at h
          obtain ⟨hdigits, hrest⟩ := append_inj_of_stops (p := (· != '}'))
            (hexDigits_stop c.toNat) (hexDigits_stop d.toNat) (by simp) (by simp) h
          have hnumber := toDigits_injective (by decide) (by decide) hdigits
          exact ⟨Char.toNat_inj.mp hnumber, (List.cons.inj hrest).2⟩
        next =>
          simp only [List.cons_append, List.nil_append, List.cons.injEq] at h
          exact absurd h.1.symm (plain_of_short hd).2
      next =>
        split at h
        next =>
          simp only [List.cons_append, List.nil_append, List.cons.injEq] at h
          exact absurd h.1 (plain_of_short hc).2
        next =>
          simp only [List.cons_append, List.nil_append, List.cons.injEq] at h
          exact h

theorem escape_append_inj {cs ds r r' : List Char}
    (h : escape hidden cs ++ '"' :: r = escape hidden ds ++ '"' :: r') : cs = ds ∧ r = r' := by
  induction cs generalizing ds with
  | nil =>
    cases ds with
    | nil => exact ⟨rfl, (List.cons.inj h).2⟩
    | cons d ds =>
      simp only [escape, List.flatMap_cons, List.flatMap_nil, List.nil_append,
        List.append_assoc] at h
      obtain ⟨e, es, heq, hne⟩ := @escapeChar_head hidden d
        (List.flatMap (escapeChar hidden) ds ++ '"' :: r')
      rw [heq] at h
      exact absurd (List.cons.inj h).1.symm hne
  | cons c cs ih =>
    cases ds with
    | nil =>
      simp only [escape, List.flatMap_cons, List.flatMap_nil, List.nil_append,
        List.append_assoc] at h
      obtain ⟨e, es, heq, hne⟩ := @escapeChar_head hidden c
        (List.flatMap (escapeChar hidden) cs ++ '"' :: r)
      rw [heq] at h
      exact absurd (List.cons.inj h).1 hne
    | cons d ds =>
      simp only [escape, List.flatMap_cons, List.append_assoc] at h
      obtain ⟨hhead, htail⟩ := escapeChar_append_inj h
      obtain ⟨hrest, hstop⟩ := ih htail
      rw [hhead, hrest]
      exact ⟨rfl, hstop⟩

theorem quoted_append_inj {s t : String} {r r' : List Char}
    (h : quoted hidden s ++ r = quoted hidden t ++ r') : s = t ∧ r = r' := by
  simp only [quoted, List.cons_append, List.append_assoc, List.nil_append, List.cons.injEq,
    true_and] at h
  obtain ⟨hlist, hrest⟩ := escape_append_inj h
  exact ⟨String.toList_inj.mp hlist, hrest⟩

end Strings

/-! ## Trees -/

/-- What is written: the calls on the formatter. -/
inductive Value where
  | word (w : Word)
  | str (s : String)
  | field (name : Word) (v : Value)
  | tuple (name : Word) (args : List Value)
  | anon (args : List Value)
  | record (name : Word) (fields : List Value)
  | list (items : List Value)

namespace Value

/-- The trees that stand directly in one. -/
def children : Value → List Value
  | .field _ v => [v]
  | .tuple _ args => args
  | .anon args => args
  | .record _ fields => fields
  | .list items => items
  | _ => []

section Induction

variable {p : Value → Prop}

mutual

theorem childInduction (h : ∀ v : Value, (∀ c ∈ v.children, p c) → p v) : ∀ v : Value, p v
  | .word _ => h _ nofun
  | .str _ => h _ nofun
  | .field _ v => h _ fun _ hc => List.mem_singleton.mp hc ▸ childInduction h v
  | .tuple _ args => h _ (listInduction h args)
  | .anon args => h _ (listInduction h args)
  | .record _ fields => h _ (listInduction h fields)
  | .list items => h _ (listInduction h items)

theorem listInduction (h : ∀ v : Value, (∀ c ∈ v.children, p c) → p v) :
    ∀ vs : List Value, ∀ c ∈ vs, p c
  | [], _, hc => nomatch hc
  | v :: vs, c, hc => by
    rcases List.mem_cons.mp hc with heq | hc
    · exact heq ▸ childInduction h v
    · exact listInduction h vs c hc

end

end Induction

variable (hidden : Char → Bool)

mutual

def render : Value → List Char
  | .word w => w.text
  | .str s => quoted hidden s
  | .field name v => name.text ++ ':' :: ' ' :: render v
  | .tuple name args => name.text ++ '(' :: renderItems args ++ [')']
  | .anon args => '(' :: renderItems args ++ [')']
  | .record name fields => name.text ++ ' ' :: '{' :: ' ' :: renderItems fields ++ [' ', '}']
  | .list items => '[' :: renderItems items ++ [']']

def renderItems : List Value → List Char
  | [] => []
  | v :: vs => render v ++ renderRest vs

def renderRest : List Value → List Char
  | [] => []
  | v :: vs => ',' :: ' ' :: render v ++ renderRest vs

end

/-! ## Reading back -/

/-- The word that a tree begins with. -/
def lead : Value → List Char
  | .word w => w.text
  | .field name _ => name.text
  | .tuple name _ => name.text
  | .record name _ => name.text
  | _ => []

/-- What follows that word. -/
def remainder : Value → List Char
  | .word _ => []
  | .str s => quoted hidden s
  | .field _ v => ':' :: ' ' :: render hidden v
  | .tuple _ args => '(' :: renderItems hidden args ++ [')']
  | .anon args => '(' :: renderItems hidden args ++ [')']
  | .record _ fields => ' ' :: '{' :: ' ' :: renderItems hidden fields ++ [' ', '}']
  | .list items => '[' :: renderItems hidden items ++ [']']

variable {hidden}

theorem render_eq (v : Value) : render hidden v = v.lead ++ remainder hidden v := by
  cases v <;> simp [render, lead, remainder]

theorem lead_chars (v : Value) : ∀ c ∈ v.lead, isWordChar c = true := by
  cases v with
  | word w => exact w.chars
  | field name v => exact name.chars
  | tuple name args => exact name.chars
  | record name fields => exact name.chars
  | _ => exact nofun

/-- What may follow a sequence: the end of what it stands in. -/
inductive Ends : List Char → Prop
  | paren (rest : List Char) : Ends (')' :: rest)
  | bracket (rest : List Char) : Ends (']' :: rest)
  | brace (rest : List Char) : Ends (' ' :: '}' :: rest)

/-- What may follow a tree. -/
inductive Closed : List Char → Prop
  | nil : Closed []
  | comma (rest : List Char) : Closed (',' :: rest)
  | ends {rest : List Char} (h : Ends rest) : Closed rest

theorem Closed.remainder_head {r : List Char} (hr : Closed r) (v : Value) :
    ∀ c ∈ (remainder hidden v ++ r).head?, isWordChar c = false := by
  cases v with
  | word w =>
    rcases hr with _ | _ | ⟨⟨⟩⟩ <;> simp [remainder] <;> decide
  | _ =>
    simp [remainder, quoted]
    decide

theorem Closed.is_word {v : Value} {r : List Char} (h : Closed (remainder hidden v ++ r)) :
    ∃ w, v = .word w := by
  cases v with
  | word w => exact ⟨w, rfl⟩
  | _ =>
    simp only [remainder, quoted, List.cons_append] at h
    rcases h with _ | _ | ⟨⟨⟩⟩

theorem Ends.closed_rest {r : List Char} (hr : Ends r) (vs : List Value) :
    Closed (renderRest hidden vs ++ r) := by
  cases vs with
  | nil => exact .ends hr
  | cons v vs => exact .comma _

theorem render_not_ends (v : Value) (r : List Char) : ¬ Ends (render hidden v ++ r) := by
  intro hends
  rw [render_eq, List.append_assoc] at hends
  cases hlead : v.lead with
  | cons c cs =>
    have hword := lead_chars v c (by rw [hlead]; exact List.mem_cons_self)
    rw [hlead, List.cons_append] at hends
    generalize cs ++ (remainder hidden v ++ r) = rest at hends
    cases hends <;> exact absurd hword (by decide)
  | nil =>
    rw [hlead] at hends
    cases v with
    | word w => exact w.nonempty hlead
    | field name v => exact name.nonempty hlead
    | tuple name args => exact name.nonempty hlead
    | record name fields => exact name.nonempty hlead
    | str s => exact nomatch hends
    | anon args => exact nomatch hends
    | list items => exact nomatch hends

variable (hidden)

/-- The tree can be read off its text and what closes it. -/
def Reads (v : Value) : Prop :=
  ∀ w r r', Closed r → Closed r' → render hidden v ++ r = render hidden w ++ r' → v = w ∧ r = r'

variable {hidden}

theorem renderRest_append_inj {vs ws : List Value} {r r' : List Char}
    (hvs : ∀ v ∈ vs, Reads hidden v) (hr : Ends r) (hr' : Ends r')
    (h : renderRest hidden vs ++ r = renderRest hidden ws ++ r') : vs = ws ∧ r = r' := by
  induction vs generalizing ws with
  | nil =>
    cases ws with
    | nil => exact ⟨rfl, h⟩
    | cons w ws =>
      have hcomma : r = ',' :: ' ' :: (render hidden w ++ (renderRest hidden ws ++ r')) := by
        simpa [renderRest] using h
      rw [hcomma] at hr
      exact nomatch hr
  | cons v vs ih =>
    cases ws with
    | nil =>
      have hcomma : ',' :: ' ' :: (render hidden v ++ (renderRest hidden vs ++ r)) = r' := by
        simpa [renderRest] using h
      rw [← hcomma] at hr'
      exact nomatch hr'
    | cons w ws =>
      simp only [renderRest, List.cons_append, List.append_assoc, List.cons.injEq,
        true_and] at h
      obtain ⟨hhead, htail⟩ :=
        hvs v List.mem_cons_self w _ _ (hr.closed_rest vs) (hr'.closed_rest ws) h
      obtain ⟨hrest, hstop⟩ := ih (fun v hv => hvs v (List.mem_cons_of_mem _ hv)) htail
      rw [hhead, hrest]
      exact ⟨rfl, hstop⟩

theorem renderItems_append_inj {vs ws : List Value} {r r' : List Char}
    (hvs : ∀ v ∈ vs, Reads hidden v) (hr : Ends r) (hr' : Ends r')
    (h : renderItems hidden vs ++ r = renderItems hidden ws ++ r') : vs = ws ∧ r = r' := by
  cases vs with
  | nil =>
    cases ws with
    | nil => exact ⟨rfl, h⟩
    | cons w ws =>
      have hfirst : r = render hidden w ++ (renderRest hidden ws ++ r') := by
        simpa [renderItems] using h
      rw [hfirst] at hr
      exact absurd hr (render_not_ends w _)
  | cons v vs =>
    cases ws with
    | nil =>
      have hfirst : render hidden v ++ (renderRest hidden vs ++ r) = r' := by
        simpa [renderItems] using h
      rw [← hfirst] at hr'
      exact absurd hr' (render_not_ends v _)
    | cons w ws =>
      simp only [renderItems, List.append_assoc] at h
      obtain ⟨hhead, htail⟩ :=
        hvs v List.mem_cons_self w _ _ (hr.closed_rest vs) (hr'.closed_rest ws) h
      obtain ⟨hrest, hstop⟩ :=
        renderRest_append_inj (fun v hv => hvs v (List.mem_cons_of_mem _ hv)) hr hr' htail
      rw [hhead, hrest]
      exact ⟨rfl, hstop⟩

theorem reads (v : Value) : Reads hidden v := by
  induction v using childInduction with
  | h v ih =>
    intro w r r' hr hr' h
    rw [render_eq, render_eq, List.append_assoc, List.append_assoc] at h
    obtain ⟨hlead, hafter⟩ := append_inj_of_stops (lead_chars v) (lead_chars w)
      (hr.remainder_head v) (hr'.remainder_head w) h
    -- a word against a word is settled by what follows, the rest by the two heads
    by_cases hword : ∃ a, w = .word a
    · obtain ⟨b, rfl⟩ := hword
      have hclosed : Closed (remainder hidden v ++ r) := hafter ▸ hr'
      obtain ⟨a, rfl⟩ := hclosed.is_word
      exact ⟨congrArg Value.word (Word.ext hlead), hafter⟩
    · cases v with
      | word a =>
        have hclosed : Closed (remainder hidden w ++ r') := hafter ▸ hr
        exact absurd hclosed.is_word hword
      | str s =>
        cases w with
        | word b => exact absurd ⟨b, rfl⟩ hword
        | str t =>
          obtain ⟨hs, hrest⟩ := quoted_append_inj hafter
          exact ⟨congrArg Value.str hs, hrest⟩
        | _ => simp [remainder, quoted] at hafter
      | field name v =>
        cases w with
        | word b => exact absurd ⟨b, rfl⟩ hword
        | field name' w =>
          simp only [remainder, List.cons_append, List.cons.injEq, true_and] at hafter
          obtain ⟨hv, hrest⟩ := ih v List.mem_cons_self w r r' hr hr' hafter
          rw [hv, Word.ext hlead]
          exact ⟨rfl, hrest⟩
        | _ => simp [remainder, quoted] at hafter
      | tuple name args =>
        cases w with
        | word b => exact absurd ⟨b, rfl⟩ hword
        | tuple name' args' =>
          simp only [remainder, List.cons_append, List.append_assoc, List.nil_append,
            List.cons.injEq, true_and] at hafter
          obtain ⟨hargs, hrest⟩ := renderItems_append_inj ih (.paren r) (.paren r') hafter
          subst hargs
          rw [Word.ext hlead]
          exact ⟨rfl, (List.cons.inj hrest).2⟩
        | anon args' => exact absurd hlead name.nonempty
        | _ => simp [remainder, quoted] at hafter
      | anon args =>
        cases w with
        | word b => exact absurd ⟨b, rfl⟩ hword
        | tuple name' args' => exact absurd hlead.symm name'.nonempty
        | anon args' =>
          simp only [remainder, List.cons_append, List.append_assoc, List.nil_append,
            List.cons.injEq, true_and] at hafter
          obtain ⟨hargs, hrest⟩ := renderItems_append_inj ih (.paren r) (.paren r') hafter
          subst hargs
          exact ⟨rfl, (List.cons.inj hrest).2⟩
        | _ => simp [remainder, quoted] at hafter
      | record name fields =>
        cases w with
        | word b => exact absurd ⟨b, rfl⟩ hword
        | record name' fields' =>
          simp only [remainder, List.cons_append, List.append_assoc, List.nil_append,
            List.cons.injEq, true_and] at hafter
          obtain ⟨hfields, hrest⟩ := renderItems_append_inj ih (.brace r) (.brace r') hafter
          subst hfields
          rw [Word.ext hlead]
          exact ⟨rfl, (List.cons.inj (List.cons.inj hrest).2).2⟩
        | _ => simp [remainder, quoted] at hafter
      | list items =>
        cases w with
        | word b => exact absurd ⟨b, rfl⟩ hword
        | list items' =>
          simp only [remainder, List.cons_append, List.append_assoc, List.nil_append,
            List.cons.injEq, true_and] at hafter
          obtain ⟨hitems, hrest⟩ :=
            renderItems_append_inj ih (.bracket r) (.bracket r') hafter
          subst hitems
          exact ⟨rfl, (List.cons.inj hrest).2⟩
        | _ => simp [remainder, quoted] at hafter

theorem render_injective {v w : Value} (h : render hidden v = render hidden w) : v = w := by
  have happended : render hidden v ++ [] = render hidden w ++ [] := by rw [h]
  exact (reads v w [] [] .nil .nil happended).1

end Value

end Debug
