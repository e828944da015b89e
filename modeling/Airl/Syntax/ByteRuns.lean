import Airl.Syntax.ByteLexer

/-! # Reading a piece of text

What the steps of the byte lexer do where the bytes ahead are those of a text. The classes of
characters that it tells apart are all of one byte, and all bytes of a longer character are in none.
The byte lexer passes a piece of text unless a counter runs over on the way. What it makes of the
text is stated for all sources, with that one exception.
-/

namespace Airl.Syntax.ByteLexer

section Bytes

open Lexer (isSymbolStart isSymbolChar isAsciiWhitespace isHexDigit)

theorem toNat_asChar (b : UInt8) : (asChar b).toNat = b.toNat := by
  have hlt : b.toNat < 256 := b.toNat_lt
  unfold asChar Char.ofNat
  rw [dif_pos (Or.inl (by omega))]
  rfl

theorem asChar_low {a : Char} (ha : a.toNat < 128) : asChar (UInt8.ofNat a.toNat) = a := by
  unfold asChar
  rw [Utf8.toNat_ofNat_lt (by omega)]
  exact Char.ofNat_toNat a

theorem encode_low {a : Char} (ha : a.toNat < 128) (s : List Char) :
    Utf8.encode (a :: s) = UInt8.ofNat a.toNat :: Utf8.encode s := by
  rw [Utf8.encode_cons, Utf8.utf8EncodeChar_low (Nat.le_of_lt_succ ha)]
  rfl

theorem encodeChar_ne_nil (a : Char) : String.utf8EncodeChar a ≠ [] := by
  intro h
  have hlength := String.length_utf8EncodeChar a
  rw [h] at hlength
  exact absurd hlength.symm (Nat.ne_of_gt a.utf8Size_pos)

/-- A class that either holds all characters of several bytes or none. -/
def Uniform (p : Char → Bool) (v : Bool) : Prop := ∀ a : Char, 128 ≤ a.toNat → p a = v

theorem Uniform.byte {p : Char → Bool} {v : Bool} (hp : Uniform p v) {a : Char}
    (ha : 128 ≤ a.toNat) : ∀ b ∈ String.utf8EncodeChar a, p (asChar b) = v := by
  intro b hb
  apply hp
  rw [toNat_asChar]
  exact Utf8.utf8EncodeChar_high (Nat.lt_of_succ_le ha) b hb

theorem uniform_of_low {p : Char → Bool} (h : ∀ a : Char, p a = true → a.toNat < 128) :
    Uniform p false := by
  intro a ha
  cases hp : p a with
  | false => rfl
  | true => exact absurd (h a hp) (Nat.not_lt.mpr ha)

theorem low_of_isDigit {a : Char} (h : a.isDigit = true) : a.toNat < 128 := by
  simp only [Char.isDigit, Bool.and_eq_true, decide_eq_true_eq, ge_iff_le,
    UInt32.le_iff_toNat_le] at h
  exact Nat.lt_of_le_of_lt h.2 (by decide)

theorem low_of_isAlpha {a : Char} (h : a.isAlpha = true) : a.toNat < 128 := by
  have hletter : (decide (a.val ≥ 'A'.val ∧ a.val ≤ 'Z'.val) ||
      (decide (a.val ≥ 'a'.val) && decide (a.val ≤ 'z'.val))) = true := h
  simp only [Bool.or_eq_true, Bool.and_eq_true, decide_eq_true_eq, ge_iff_le,
    UInt32.le_iff_toNat_le] at hletter
  rcases hletter with hupper | hlower
  · exact Nat.lt_of_le_of_lt hupper.2 (by decide)
  · exact Nat.lt_of_le_of_lt hlower.2 (by decide)

theorem low_of_isSymbolStart {a : Char} (h : isSymbolStart a = true) : a.toNat < 128 := by
  unfold Lexer.isSymbolStart at h
  rcases Bool.or_eq_true_iff.mp h with halpha | hmem
  · exact low_of_isAlpha halpha
  · have hlow : ['_', '+', '-', '*', '/', '%', '<', '>', '=', '!', '&', '|', '?', '.'].all
        (fun c => c.toNat < 128) = true := by decide
    exact of_decide_eq_true (List.all_eq_true.mp hlow a (of_decide_eq_true hmem))

theorem low_of_beq {a d : Char} (hd : d.toNat < 128) (h : (a == d) = true) : a.toNat < 128 := by
  rw [beq_iff_eq.mp h]
  exact hd

theorem uniform_isDigit : Uniform Char.isDigit false := uniform_of_low fun _ => low_of_isDigit

theorem uniform_isSymbolStart : Uniform isSymbolStart false :=
  uniform_of_low fun _ => low_of_isSymbolStart

theorem uniform_isSymbolChar : Uniform isSymbolChar false := by
  apply uniform_of_low
  intro a h
  simp only [Lexer.isSymbolChar, Bool.or_eq_true] at h
  rcases h with ((hstart | hdigit) | hminus) | hcolon
  · exact low_of_isSymbolStart hstart
  · exact low_of_isDigit hdigit
  · exact low_of_beq (by decide) hminus
  · exact low_of_beq (by decide) hcolon

theorem uniform_isAsciiWhitespace : Uniform isAsciiWhitespace false := by
  apply uniform_of_low
  intro a h
  simp only [Lexer.isAsciiWhitespace, Bool.or_eq_true] at h
  rcases h with (((hspace | htab) | hline) | hfeed) | hreturn
  · exact low_of_beq (by decide) hspace
  · exact low_of_beq (by decide) htab
  · exact low_of_beq (by decide) hline
  · exact low_of_beq (by decide) hfeed
  · exact low_of_beq (by decide) hreturn

theorem uniform_isHexDigit : Uniform isHexDigit false := by
  apply uniform_of_low
  intro a h
  simp only [Lexer.isHexDigit, Bool.or_eq_true, Bool.and_eq_true, decide_eq_true_eq] at h
  rcases h with (hdigit | hlower) | hupper
  · exact low_of_isDigit hdigit
  · have hle : a.toNat ≤ 'f'.toNat := hlower.2
    exact Nat.lt_of_le_of_lt hle (by decide)
  · have hle : a.toNat ≤ 'F'.toNat := hupper.2
    exact Nat.lt_of_le_of_lt hle (by decide)

theorem uniform_isBit : Uniform (fun a => a == '0' || a == '1') false := by
  apply uniform_of_low
  intro a h
  rcases Bool.or_eq_true_iff.mp h with hzero | hone
  · exact low_of_beq (by decide) hzero
  · exact low_of_beq (by decide) hone

theorem uniform_notNewline : Uniform (· != '\n') true := by
  intro a ha
  rw [bne_iff_ne]
  rintro rfl
  exact absurd ha (by decide)

variable {p : Char → Bool} {v : Bool}

theorem takeWhile_encode (hp : Uniform p v) (s : List Char) :
    ((Utf8.encode s).takeWhile fun b => p (asChar b)) = Utf8.encode (s.takeWhile p) := by
  induction s with
  | nil => rfl
  | cons a s ih =>
    by_cases ha : a.toNat < 128
    · rw [encode_low ha, List.takeWhile_cons, List.takeWhile_cons, asChar_low ha]
      split
      next => rw [ih, encode_low ha]
      next => rfl
    · have hbytes := hp.byte (Nat.not_lt.mp ha)
      have hpa := hp a (Nat.not_lt.mp ha)
      rw [Utf8.encode_cons, List.takeWhile_cons, hpa]
      cases v with
      | true =>
        rw [List.takeWhile_append_of_pos hbytes, ih]
        rfl
      | false =>
        obtain ⟨b, bs, hcons⟩ := List.exists_cons_of_ne_nil (encodeChar_ne_nil a)
        have hb := hbytes b (hcons ▸ List.mem_cons_self)
        rw [hcons, List.cons_append, List.takeWhile_cons, hb]
        rfl

/-- A character of several bytes is no character of one byte, seen from its first byte. -/
theorem any_head_encode (hp : Uniform p false) (s : List Char) :
    ((Utf8.encode s).head?.any fun b => p (asChar b)) = s.head?.any p := by
  cases s with
  | nil => rfl
  | cons a s =>
    by_cases ha : a.toNat < 128
    · rw [encode_low ha, List.head?_cons, Option.any_some, asChar_low ha]
      rfl
    · obtain ⟨b, bs, hcons⟩ := List.exists_cons_of_ne_nil (encodeChar_ne_nil a)
      have hb := hp.byte (Nat.not_lt.mp ha) b (hcons ▸ List.mem_cons_self)
      rw [Utf8.encode_cons, hcons, List.cons_append, List.head?_cons, Option.any_some, hb,
        List.head?_cons, Option.any_some, hp a (Nat.not_lt.mp ha)]

end Bytes

/-- The text lies ahead. -/
def Ahead (s : List Char) (c : Cursor) : Prop := c.rest = Utf8.encode s

/-- Past a piece of text. -/
def Cursor.past (xs : List Char) (c : Cursor) : Outcome Cursor := c.advances (Utf8.encode xs).length

variable {α β : Type} {c c' : Cursor} {s xs ys : List Char} {a : Char}

theorem ok_bind (x : α) (f : α → Outcome β) : (Except.ok x >>= f) = f x := rfl

theorem error_bind (e : Stop) (f : α → Outcome β) : (Except.error e >>= f) = .error e := rfl

theorem advances_add (m n : Nat) (c : Cursor) :
    c.advances (m + n) = c.advances m >>= fun c' => c'.advances n := by
  induction m generalizing c with
  | zero => rw [Nat.zero_add, Cursor.advances, ok_bind]
  | succ m ih =>
    rw [Nat.succ_add, Cursor.advances, Cursor.advances]
    cases c.advance with
    | error e => rfl
    | ok next =>
      rw [ok_bind, ok_bind]
      exact ih next

theorem advances_one (c : Cursor) : c.advances 1 = c.advance := by
  rw [Cursor.advances]
  cases c.advance with
  | error e => rfl
  | ok next => rfl

theorem advance_error {e : Stop} (h : c.advance = .error e) : e = .panicked := by
  unfold Cursor.advance at h
  split at h
  next => cases h
  next =>
    split at h
    next =>
      split at h
      next => cases h
      next =>
        cases h
        rfl
    next =>
      split at h
      next => cases h
      next =>
        cases h
        rfl

theorem advances_error {n : Nat} {e : Stop} (h : c.advances n = .error e) : e = .panicked := by
  induction n generalizing c with
  | zero => cases h
  | succ n ih =>
    rw [Cursor.advances] at h
    cases hstep : c.advance with
    | error e' =>
      rw [hstep] at h
      cases h
      exact advance_error hstep
    | ok next =>
      rw [hstep, ok_bind] at h
      exact ih h

theorem advance_ok {b : UInt8} {rest : List UInt8} (hrest : c.rest = b :: rest)
    (h : c.advance = .ok c') : c'.rest = rest ∧ c'.pos = c.pos + 1 := by
  unfold Cursor.advance at h
  simp only [hrest] at h
  split at h
  next =>
    split at h
    next =>
      cases h
      exact ⟨rfl, rfl⟩
    next => cases h
  next =>
    split at h
    next =>
      cases h
      exact ⟨rfl, rfl⟩
    next => cases h

theorem advances_ok {bytes rest : List UInt8} (hrest : c.rest = bytes ++ rest)
    (h : c.advances bytes.length = .ok c') : c'.rest = rest ∧ c'.pos = c.pos + bytes.length := by
  induction bytes generalizing c with
  | nil =>
    cases h
    exact ⟨hrest, rfl⟩
  | cons b bytes ih =>
    rw [List.length_cons, Cursor.advances] at h
    cases hstep : c.advance with
    | error e =>
      rw [hstep] at h
      cases h
    | ok next =>
      rw [hstep, ok_bind] at h
      obtain ⟨hnext, hposNext⟩ := advance_ok hrest hstep
      obtain ⟨hend, hpos⟩ := ih hnext h
      refine ⟨hend, ?_⟩
      rw [hpos, hposNext, List.length_cons]
      omega

theorem past_append (xs ys : List Char) (c : Cursor) :
    c.past (xs ++ ys) = c.past xs >>= fun c' => c'.past ys := by
  unfold Cursor.past
  rw [Utf8.encode_append, List.length_append, advances_add]

theorem past_low (ha : a.toNat < 128) (c : Cursor) : c.past [a] = c.advance := by
  unfold Cursor.past
  rw [encode_low ha]
  exact advances_one c

theorem past_error {e : Stop} (h : c.past xs = .error e) : e = .panicked := advances_error h

theorem Ahead.past (h : Ahead (xs ++ ys) c) (hpast : c.past xs = .ok c') : Ahead ys c' := by
  unfold Ahead at h
  rw [Utf8.encode_append] at h
  exact (advances_ok h hpast).1

theorem Ahead.pos (h : Ahead (xs ++ ys) c) (hpast : c.past xs = .ok c') :
    c'.pos = c.pos + (Utf8.encode xs).length := by
  unfold Ahead at h
  rw [Utf8.encode_append] at h
  exact (advances_ok h hpast).2

theorem Ahead.text (h : Ahead (xs ++ ys) c) (hpast : c.past xs = .ok c') :
    textBetween c c' = xs := by
  unfold textBetween
  rw [h.pos hpast, Nat.add_sub_cancel_left, h, Utf8.encode_append, List.take_left,
    Utf8.decode_eq_some.mpr rfl]
  rfl

theorem advanceWhile_eq {p : Char → Bool} {v : Bool} (hp : Uniform p v) (h : Ahead s c) :
    c.advanceWhile p = c.past (s.takeWhile p) := by
  unfold Cursor.advanceWhile Cursor.past
  rw [h, takeWhile_encode hp]

theorem Ahead.rest_eq_nil (h : Ahead s c) : c.rest = [] ↔ s = [] := by
  rw [h]
  constructor
  · intro hnil
    cases s with
    | nil => rfl
    | cons a s => exact absurd (List.append_eq_nil_iff.mp hnil).1 (encodeChar_ne_nil a)
  · intro hnil
    rw [hnil]
    rfl

theorem Ahead.rest_ne_nil (h : Ahead (a :: s) c) : c.rest ≠ [] := fun hnil =>
  List.cons_ne_nil a s (h.rest_eq_nil.mp hnil)

theorem Ahead.any_peek {p : Char → Bool} (hp : Uniform p false) (h : Ahead s c) :
    (c.peekAt 0).any p = s.head?.any p := by
  unfold Cursor.peekAt
  rw [h, ← any_head_encode hp, ← List.head?_eq_getElem?, Option.any_map]

/-- The first byte of a character tells it from a character of one byte. -/
theorem Ahead.peek {d : Char} (hd : d.toNat < 128) (h : Ahead s c) :
    c.peekAt 0 = some d ↔ s.head? = some d := by
  have huniform : Uniform (fun a => a == d) false := uniform_of_low fun _ => low_of_beq hd
  have hany := h.any_peek huniform
  rw [Bool.eq_iff_iff, Option.any_eq_true, Option.any_eq_true] at hany
  simpa only [beq_iff_eq, exists_eq_right] using hany

theorem Ahead.behind (ha : a.toNat < 128) (h : Ahead (a :: s) c) :
    ∃ next, Ahead s next ∧ ∀ n, c.peekAt (n + 1) = next.peekAt n := by
  refine ⟨⟨Utf8.encode s, 0, 0, 0⟩, rfl, fun n => ?_⟩
  unfold Cursor.peekAt
  rw [h, encode_low ha, List.getElem?_cons_succ]

theorem Ahead.peek_two {x y : Char} (hx : x.toNat < 128) (hy : y.toNat < 128) (h : Ahead s c) :
    (c.peekAt 0 = some x ∧ c.peekAt 1 = some y) ↔ ∃ t, s = x :: y :: t := by
  rw [h.peek hx]
  constructor
  · intro hpeek
    obtain ⟨hhead, hnext⟩ := hpeek
    obtain ⟨u, rfl⟩ := List.head?_eq_some_iff.mp hhead
    obtain ⟨next, hat, hbehind⟩ := h.behind hx
    rw [hbehind, hat.peek hy] at hnext
    obtain ⟨t, rfl⟩ := List.head?_eq_some_iff.mp hnext
    exact ⟨t, rfl⟩
  · intro hcons
    obtain ⟨t, rfl⟩ := hcons
    obtain ⟨next, hat, hbehind⟩ := h.behind hx
    rw [hbehind, hat.peek hy]
    exact ⟨rfl, rfl⟩

theorem Ahead.current (ha : a.toNat < 128) (h : Ahead (a :: s) c) :
    c.current = .ok (UInt8.ofNat a.toNat) := by
  unfold Cursor.current
  rw [h, encode_low ha]

theorem Ahead.current_high (ha : ¬ a.toNat < 128) (h : Ahead (a :: s) c) :
    ∃ b, c.current = .ok b ∧ (String.utf8EncodeChar a).head? = some b ∧ 128 ≤ b.toNat := by
  obtain ⟨b, bs, hcons⟩ := List.exists_cons_of_ne_nil (encodeChar_ne_nil a)
  have hb := Utf8.utf8EncodeChar_high (Nat.lt_of_succ_le (Nat.not_lt.mp ha)) b
    (hcons ▸ List.mem_cons_self)
  refine ⟨b, ?_, ?_, hb⟩
  · unfold Cursor.current
    rw [h, Utf8.encode_cons, hcons]
    rfl
  · rw [hcons]
    rfl

theorem Ahead.tail (h : Ahead (a :: s) c) (hpast : c.past [a] = .ok c') : Ahead s c' :=
  @Ahead.past _ _ [a] _ h hpast

/-- A cursor on the way to the end of the source comes nearer to it. -/
theorem length_encode_sublist (h : s.Sublist t) :
    (Utf8.encode s).length ≤ (Utf8.encode t).length := by
  induction h with
  | slnil => exact Nat.le_refl _
  | cons a _ ih =>
    rw [Utf8.encode_cons, List.length_append]
    omega
  | cons_cons a _ ih =>
    rw [Utf8.encode_cons, Utf8.encode_cons, List.length_append, List.length_append]
    omega

theorem length_encode_lt (a : Char) (s : List Char) :
    (Utf8.encode s).length < (Utf8.encode (a :: s)).length := by
  have hpos := a.utf8Size_pos
  rw [Utf8.encode_cons, List.length_append, String.length_utf8EncodeChar]
  omega

theorem Ahead.shorter (h : Ahead (a :: s) c) (hat : Ahead s c') {fuel : Nat}
    (hfuel : c.rest.length < fuel + 1) : c'.rest.length < fuel := by
  have hlt := length_encode_lt a s
  rw [h] at hfuel
  rw [hat]
  omega

theorem bind_assoc (x : Outcome α) (f : α → Outcome β) {γ : Type} (g : β → Outcome γ) :
    x >>= f >>= g = x >>= fun y => f y >>= g := by
  cases x with
  | error e => rfl
  | ok y => rfl

theorem past_congr {f g : Cursor → Outcome α} (h : ∀ c', c.past xs = .ok c' → f c' = g c') :
    c.past xs >>= f = c.past xs >>= g := by
  cases hpast : c.past xs with
  | error e => rfl
  | ok next => exact h next hpast

theorem past_panics {f : Cursor → Outcome α}
    (h : ∀ c', c.past xs = .ok c' → f c' = .error .panicked) :
    c.past xs >>= f = .error .panicked := by
  cases hpast : c.past xs with
  | error e => rw [error_bind, past_error hpast]
  | ok next => exact h next hpast

theorem past_past {f : Cursor → Outcome α} {g : Cursor → Outcome α}
    (h : ∀ c', c.past xs = .ok c' → f c' = c'.past ys >>= g) :
    c.past xs >>= f = c.past (xs ++ ys) >>= g := by
  rw [past_append, bind_assoc]
  exact past_congr h

theorem past_two {x y : Char} (hx : x.toNat < 128) (hy : y.toNat < 128) (c : Cursor) :
    c.advances 2 = c.past [x, y] := by
  unfold Cursor.past
  rw [encode_low hx, encode_low hy]
  rfl

theorem exists_fuel {n fuel : Nat} (h : n < fuel) : ∃ fuel', fuel = fuel' + 1 :=
  Nat.exists_eq_succ_of_ne_zero (Nat.ne_of_gt (Nat.zero_lt_of_lt h))

/-- Reading came to its end at the cursor. -/
def Ends (r : LexResult α) (c' : Cursor) (r' : Outcome (α × Cursor)) : Prop :=
  match r with
  | .ok x => r' = .ok (x, c')
  | .error e => ∃ d, r' = .error (.error d) ∧ d.message = e

/-- Reading passes `xs` and ends in `r`, unless a counter runs over on the way. -/
structure Reads (c : Cursor) (xs : List Char) (r : LexResult α) (r' : Outcome (α × Cursor)) :
    Prop where
  ends : ∀ c', c.past xs = .ok c' → Ends r c' r'
  overrun : c.past xs = .error .panicked → r' = .error .panicked

theorem Ends.fail (message : String) (span : Span) (c' : Cursor) :
    Ends (.error message : LexResult α) c' (fail message span) := ⟨_, rfl, rfl⟩

theorem Ends.reads {r : LexResult α} {r' : Outcome (α × Cursor)} (h : Ends r c r') :
    Reads c [] r r' := by
  constructor
  · intro c' hpast
    cases hpast
    exact h
  · intro hpast
    cases hpast

theorem Reads.pure (x : α) (c : Cursor) : Reads c [] (.ok x) (.ok (x, c)) := Ends.reads rfl

theorem Reads.fail (message : String) (span : Span) (c : Cursor) :
    Reads c [] (.error message : LexResult α) (fail message span) :=
  (Ends.fail message span c).reads

theorem Reads.past {r : LexResult α} {f : Cursor → Outcome (α × Cursor)}
    (h : ∀ c', c.past xs = .ok c' → Reads c' ys r (f c')) :
    Reads c (xs ++ ys) r (c.past xs >>= f) := by
  constructor
  · intro c' hpast
    rw [past_append] at hpast
    cases hfirst : c.past xs with
    | error e =>
      rw [hfirst] at hpast
      cases hpast
    | ok next =>
      rw [hfirst, ok_bind] at hpast
      rw [ok_bind]
      exact (h next hfirst).ends c' hpast
  · intro hpast
    rw [past_append] at hpast
    cases hfirst : c.past xs with
    | error e =>
      rw [error_bind, past_error hfirst]
    | ok next =>
      rw [hfirst, ok_bind] at hpast
      rw [ok_bind]
      exact (h next hfirst).overrun hpast

theorem Reads.bind {x : α} {r : LexResult β} {r' : Outcome (α × Cursor)}
    {f : α × Cursor → Outcome (β × Cursor)} (hfirst : Reads c xs (.ok x) r')
    (h : ∀ c', c.past xs = .ok c' → Reads c' ys r (f (x, c'))) :
    Reads c (xs ++ ys) r (r' >>= f) := by
  have heq : (r' >>= f) = c.past xs >>= fun c' => f (x, c') := by
    cases hpast : c.past xs with
    | error e =>
      rw [hfirst.overrun (past_error hpast ▸ hpast), past_error hpast]
      rfl
    | ok next =>
      have hread : r' = .ok (x, next) := hfirst.ends next hpast
      rw [hread]
      rfl
  rw [heq]
  exact Reads.past h

theorem Reads.bind_error {e : String} {r' : Outcome (α × Cursor)}
    {f : α × Cursor → Outcome (β × Cursor)}
    (hfirst : Reads c xs (.error e : LexResult α) r') :
    Reads c xs (.error e : LexResult β) (r' >>= f) := by
  constructor
  · intro c' hpast
    obtain ⟨d, hread, hmessage⟩ := hfirst.ends c' hpast
    exact ⟨d, by rw [hread]; rfl, hmessage⟩
  · intro hpast
    rw [hfirst.overrun hpast]
    rfl

theorem Reads.map {r : LexResult α} {r' : Outcome (α × Cursor)} (h : Reads c xs r r')
    (g : α → β) : Reads c xs (r.map g) (r' >>= fun p => Pure.pure (g p.1, p.2)) := by
  cases r with
  | error e => exact h.bind_error
  | ok x =>
    rw [← List.append_nil xs]
    exact h.bind fun c' _ => Reads.pure (g x) c'

/-- A cursor as the outcome of a reader without a value. -/
def located (r : Outcome Cursor) : Outcome (Unit × Cursor) := r >>= fun c => .ok ((), c)

theorem located_bind (x : Outcome Cursor) (f : Cursor → Outcome Cursor) :
    located (x >>= f) = x >>= fun c => located (f c) := bind_assoc _ _ _

theorem Reads.located_error {e : String} {x : Outcome Cursor} {f : Cursor → Outcome (β × Cursor)}
    (hfirst : Reads c xs (.error e : LexResult Unit) (located x)) :
    Reads c xs (.error e : LexResult β) (x >>= f) := by
  have heq : (x >>= f) = located x >>= fun p => f p.2 := by
    unfold located
    rw [bind_assoc]
    rfl
  rw [heq]
  exact hfirst.bind_error

theorem located_eq {x : Outcome Cursor} (h : Reads c xs (.ok ()) (located x)) :
    x = c.past xs := by
  cases hpast : c.past xs with
  | error e =>
    have hpanicked := past_error hpast
    subst hpanicked
    have hover := h.overrun hpast
    cases x with
    | error e =>
      cases hover
      rfl
    | ok next => cases hover
  | ok next =>
    have hend : located x = .ok ((), next) := h.ends next hpast
    cases x with
    | error e => cases hend
    | ok other =>
      cases hend
      rfl

theorem Reads.located_past (xs : List Char) (c : Cursor) :
    Reads c xs (.ok ()) (located (c.past xs)) := by
  have hread : Reads c (xs ++ []) (.ok ()) (c.past xs >>= fun c' => .ok ((), c')) :=
    Reads.past fun c' _ => Reads.pure () c'
  rw [List.append_nil] at hread
  exact hread

end Airl.Syntax.ByteLexer
