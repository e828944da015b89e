import Airl.Syntax.ByteBlanks
import Airl.Syntax.Literals

/-! # The byte lexer reads tokens

On the bytes of a text it reads the token that the lexer on characters reads, or complains as that
does. It panics where a counter runs over, and nowhere else.
-/

namespace Airl.Syntax.ByteLexer

open Lexer (isSymbolStart isSymbolChar isHexDigit escape parseRadix parseI64 parseU32
  maxStringLength)

variable {α : Type} {c c' start : Cursor} {s t u xs ys : List Char} {a : Char}

/-! ## Strings -/

/-- Where the reader of a string stops, with the string or without it. -/
def stringStop (value : List Char) : List Char → List Char
  | [] => []
  | c :: cs =>
    if maxStringLength ≤ Text.byteLength value then c :: cs
    else if c = '"' then cs
    else if c = '\\' then
      match cs with
      | [] => []
      | e :: cs =>
        match escape e with
        | some d => stringStop (value ++ [d]) cs
        | none => e :: cs
    else stringStop (value ++ [c]) cs

theorem suffix_stringStop (value s : List Char) : stringStop value s <:+ s := by
  fun_induction stringStop value s with
  | case1 => exact List.suffix_refl _
  | case2 => exact List.suffix_refl _
  | case3 => exact List.suffix_cons _ _
  | case4 => exact List.nil_suffix
  | case5 value _ e cs d hd _ ih =>
      exact (ih.trans (List.suffix_cons _ _)).trans (List.suffix_cons _ _)
  | case6 => exact List.suffix_cons _ _
  | case7 value c cs _ _ _ ih => exact ih.trans (List.suffix_cons _ _)

theorem stringStop_of_ok {value w : List Char} (h : Lexer.lexString value s = .ok (w, t)) :
    stringStop value s = t := by
  fun_induction Lexer.lexString value s with
  | case1 | case2 | case4 | case6 => cases h
  | case3 value cs hshort =>
    cases h
    unfold stringStop
    rw [if_neg hshort, if_pos rfl]
  | case5 value hshort e cs d hd _ ih =>
    rw [stringStop, if_neg hshort, if_neg (by decide), if_pos rfl, hd]
    exact ih h
  | case7 value c cs hshort hquote hslash ih =>
    unfold stringStop
    rw [if_neg hshort, if_neg hquote, if_neg hslash]
    exact ih h

theorem sequenceLength_of_toNat (b : UInt8) : sequenceLength b =
    if 0xC0 ≤ b.toNat ∧ b.toNat < 0xE0 then 2
    else if 0xE0 ≤ b.toNat ∧ b.toNat < 0xF0 then 3
    else if 0xF0 ≤ b.toNat ∧ b.toNat < 0xF8 then 4
    else 1 := by
  have hall : ∀ n : Fin 256, sequenceLength (UInt8.ofNat n) =
      if 0xC0 ≤ n.val ∧ n.val < 0xE0 then 2
      else if 0xE0 ≤ n.val ∧ n.val < 0xF0 then 3
      else if 0xF0 ≤ n.val ∧ n.val < 0xF8 then 4
      else 1 := by decide +kernel
  have hb := hall ⟨b.toNat, b.toNat_lt⟩
  rw [UInt8.ofNat_toNat] at hb
  exact hb

/-- The first byte of a character says how many there are. -/
theorem sequenceLength_eq {b : UInt8} (ha : ¬ a.toNat < 128)
    (hb : (String.utf8EncodeChar a).head? = some b) :
    sequenceLength b = (String.utf8EncodeChar a).length := by
  have hvalid : a.val.toNat < 0x110000 := by
    rcases a.valid with hv | ⟨-, hv⟩
    · exact Nat.lt_trans hv (by decide)
    · exact hv
  have hhigh : ¬ a.val.toNat ≤ 127 := fun hle => ha (Nat.lt_succ_of_le hle)
  unfold String.utf8EncodeChar at hb ⊢
  simp only at hb ⊢
  rw [if_neg hhigh] at hb
  rw [if_neg hhigh, sequenceLength_of_toNat]
  by_cases htwo : a.val.toNat ≤ 0x7ff
  · rw [if_pos htwo] at hb ⊢
    cases hb
    rw [Utf8.toNat_ofNat_lt (by omega), if_pos (by omega)]
    rfl
  · rw [if_neg htwo] at hb ⊢
    by_cases hthree : a.val.toNat ≤ 0xffff
    · rw [if_pos hthree] at hb ⊢
      cases hb
      rw [Utf8.toNat_ofNat_lt (by omega), if_neg (by omega), if_pos (by omega)]
      rfl
    · rw [if_neg hthree] at hb ⊢
      cases hb
      rw [Utf8.toNat_ofNat_lt (by omega), if_neg (by omega), if_neg (by omega), if_pos (by omega)]
      rfl

theorem low_of_escape {d : Char} (h : escape a = some d) : a.toNat < 128 := by
  unfold Lexer.escape at h
  split at h
  all_goals first
    | decide
    | cases h

theorem escape_high (ha : ¬ a.toNat < 128) : escape a = none := by
  cases hd : escape a with
  | none => rfl
  | some d => exact absurd (low_of_escape hd) ha

theorem byteText_low (ha : a.toNat < 128) : Lexer.byteText a = String.ofList [a] := by
  unfold Lexer.byteText
  rw [encode_low ha, List.head?_cons]
  exact congrArg (fun c => String.ofList [c]) (asChar_low ha)

theorem byteText_high {b : UInt8} (hb : (String.utf8EncodeChar a).head? = some b) :
    Lexer.byteText a = String.ofList [asChar b] := by
  unfold Lexer.byteText
  rw [Utf8.encode_cons, Utf8.encode_nil, List.append_nil, hb]
  rfl

theorem asChar_ne {b : UInt8} (hb : 128 ≤ b.toNat) {d : Char} (hd : d.toNat < 128) :
    asChar b ≠ d := by
  intro heq
  have hchar := congrArg Char.toNat heq
  rw [toNat_asChar] at hchar
  omega

theorem toNat_low (ha : a.toNat < 128) : (UInt8.ofNat a.toNat).toNat = a.toNat :=
  Utf8.toNat_ofNat_lt (Nat.lt_trans ha (by decide))

theorem Ahead.decode_high {b : UInt8} (ha : ¬ a.toNat < 128) (h : Ahead (a :: s) c)
    (hb : (String.utf8EncodeChar a).head? = some b) :
    Utf8.decode (c.rest.take (sequenceLength b)) = some [a] := by
  rw [sequenceLength_eq ha hb, h, Utf8.encode_cons, List.take_left, Utf8.decode_eq_some,
    Utf8.encode_cons, Utf8.encode_nil, List.append_nil]

section Loop

variable {fuel : Nat} {value : List Char}

theorem readString_char (hshort : ¬ maxStringLength ≤ Text.byteLength value) (hquote : a ≠ '"')
    (hslash : a ≠ '\\') (h : Ahead (a :: s) c) :
    readString start (fuel + 1) value c =
      c.past [a] >>= readString start fuel (value ++ [a]) := by
  rw [readString, if_neg h.rest_ne_nil, if_neg hshort]
  by_cases ha : a.toNat < 128
  · have hbyte : UInt8.ofNat a.toNat < 0x80 := by
      rw [UInt8.lt_iff_toNat_lt, toNat_low ha]
      exact ha
    rw [h.current ha, ok_bind, asChar_low ha, if_neg hquote, if_neg hslash, if_pos hbyte,
      past_low ha]
  · obtain ⟨b, hcurrent, hb, hhigh⟩ := h.current_high ha
    have hbyte : ¬ b < 0x80 := by
      rw [UInt8.lt_iff_toNat_lt]
      exact Nat.not_lt.mpr hhigh
    have hsize : a.utf8Size = (Utf8.encode [a]).length := by
      rw [Utf8.encode_cons, Utf8.encode_nil, List.append_nil, String.length_utf8EncodeChar]
    rw [hcurrent, ok_bind, if_neg (asChar_ne hhigh (by decide)),
      if_neg (asChar_ne hhigh (by decide)), if_neg hbyte, h.decode_high ha hb]
    dsimp only
    rw [hsize]
    rfl

theorem readString_escape {d e : Char} (hshort : ¬ maxStringLength ≤ Text.byteLength value)
    (hd : escape e = some d) (h : Ahead ('\\' :: e :: s) c) :
    readString start (fuel + 1) value c =
      c.past ['\\', e] >>= readString start fuel (value ++ [d]) := by
  have he := low_of_escape hd
  have hboth : ['\\', e] = ['\\'] ++ [e] := rfl
  rw [readString, if_neg h.rest_ne_nil, if_neg hshort, h.current (by decide), ok_bind,
    if_neg (by decide), if_pos (by decide), ← past_low (a := '\\') (by decide), hboth]
  apply past_past
  intro c' hpast
  have hat := h.tail hpast
  rw [if_neg hat.rest_ne_nil, hat.current he, ok_bind, asChar_low he, hd]
  dsimp only
  rw [past_low he]

end Loop

theorem Reads.past_end {r : LexResult α} {f : Cursor → Outcome (α × Cursor)}
    (h : ∀ c', c.past xs = .ok c' → Ends r c' (f c')) : Reads c xs r (c.past xs >>= f) := by
  have hread : Reads c (xs ++ []) r (c.past xs >>= f) :=
    Reads.past fun c' hpast => (h c' hpast).reads
  rw [List.append_nil] at hread
  exact hread

theorem split_behind {b : Char} {rest : List Char} (h : b :: s = xs ++ rest) (hrest : rest = s) :
    xs = [b] := by
  subst hrest
  exact ((List.append_left_inj rest).mp (h : [b] ++ rest = xs ++ rest)).symm

theorem readString_reads (start : Cursor) {fuel : Nat} {value : List Char}
    (hfuel : c.rest.length < fuel) (h : Ahead s c) (hs : s = xs ++ stringStop value s) :
    Reads c xs ((Lexer.lexString value s).map Prod.fst) (readString start fuel value c) := by
  fun_induction Lexer.lexString value s generalizing c fuel xs with
  | case1 value =>
    obtain ⟨fuel, rfl⟩ := exists_fuel hfuel
    have hnil : xs = [] := List.self_eq_append_left.mp hs
    rw [hnil, readString, if_pos (h.rest_eq_nil.mpr rfl)]
    exact Reads.fail _ _ c
  | case2 value a s hlong =>
    obtain ⟨fuel, rfl⟩ := exists_fuel hfuel
    unfold stringStop at hs
    rw [if_pos hlong] at hs
    have hnil : xs = [] := List.self_eq_append_left.mp hs
    rw [hnil, readString, if_neg h.rest_ne_nil, if_pos hlong]
    exact Reads.fail _ _ c
  | case3 value s hshort =>
    obtain ⟨fuel, rfl⟩ := exists_fuel hfuel
    unfold stringStop at hs
    rw [if_neg hshort, if_pos rfl] at hs
    rw [split_behind hs rfl, readString, if_neg h.rest_ne_nil, if_neg hshort,
      h.current (by decide), ok_bind, if_pos (by decide), ← past_low (a := '"') (by decide)]
    exact Reads.past_end fun c' _ => rfl
  | case4 value hshort =>
    obtain ⟨fuel, rfl⟩ := exists_fuel hfuel
    unfold stringStop at hs
    rw [if_neg hshort, if_neg (by decide), if_pos rfl] at hs
    rw [split_behind hs rfl, readString, if_neg h.rest_ne_nil, if_neg hshort,
      h.current (by decide), ok_bind, if_neg (by decide), if_pos (by decide),
      ← past_low (a := '\\') (by decide)]
    apply Reads.past_end
    intro c' hpast
    rw [if_pos ((h.tail hpast).rest_eq_nil.mpr rfl)]
    exact Ends.fail _ _ c'
  | case5 value hshort e s d hd _ ih =>
    obtain ⟨fuel, rfl⟩ := exists_fuel hfuel
    unfold stringStop at hs
    rw [if_neg hshort, if_neg (by decide), if_pos rfl] at hs
    dsimp only at hs
    rw [hd] at hs
    obtain ⟨ys, rfl, hys⟩ := split_front ['\\', e] hs (suffix_stringStop _ s)
    rw [readString_escape hshort hd h]
    apply Reads.past
    intro c' hpast
    obtain ⟨hat, hshorter⟩ := h.shorter_two hfuel hpast
    exact ih hshorter hat hys
  | case6 value hshort e s hd _ =>
    obtain ⟨fuel, rfl⟩ := exists_fuel hfuel
    unfold stringStop at hs
    rw [if_neg hshort, if_neg (by decide), if_pos rfl] at hs
    dsimp only at hs
    rw [hd] at hs
    rw [split_behind hs rfl, readString, if_neg h.rest_ne_nil, if_neg hshort,
      h.current (by decide), ok_bind, if_neg (by decide), if_pos (by decide),
      ← past_low (a := '\\') (by decide)]
    apply Reads.past_end
    intro c' hpast
    have hat := h.tail hpast
    rw [if_neg hat.rest_ne_nil]
    by_cases he : e.toNat < 128
    · rw [hat.current he, ok_bind, asChar_low he, hd, byteText_low he]
      exact Ends.fail _ _ c'
    · obtain ⟨b, hcurrent, hb, hhigh⟩ := hat.current_high he
      have hnone : escape (asChar b) = none := by
        apply escape_high
        rw [toNat_asChar]
        omega
      rw [hcurrent, ok_bind, hnone, byteText_high hb]
      exact Ends.fail _ _ c'
  | case7 value a s hshort hquote hslash ih =>
    obtain ⟨fuel, rfl⟩ := exists_fuel hfuel
    unfold stringStop at hs
    rw [if_neg hshort, if_neg hquote, if_neg hslash] at hs
    obtain ⟨ys, rfl, hys⟩ := split_front [a] hs (suffix_stringStop _ s)
    rw [readString_char hshort hquote hslash h]
    apply Reads.past
    intro c' hpast
    exact ih (h.shorter (h.tail hpast) hfuel) (h.tail hpast) hys

theorem lexString_reads (h : Ahead ('"' :: s) c) (hs : s = xs ++ stringStop [] s) :
    Reads c ('"' :: xs) ((Lexer.lexString [] s).map fun p => Token.str p.1) (lexString c) := by
  have hquote : '"' :: xs = ['"'] ++ xs := rfl
  unfold lexString
  rw [hquote, ← past_low (a := '"') (by decide)]
  apply Reads.past
  intro inside hpast
  have hread := readString_reads c (Nat.lt_succ_self _) (h.tail hpast) hs
  have hmap := hread.map Token.str
  rw [show ((Lexer.lexString [] s).map Prod.fst).map Token.str =
    (Lexer.lexString [] s).map fun p => Token.str p.1 from by
      cases Lexer.lexString [] s with
      | error e => rfl
      | ok p => rfl] at hmap
  exact hmap

/-! ## Where a number stops -/

def tailStop (s : List Char) : List Char := (Lexer.lexSuffix (Lexer.lexExponent s).2).2

/-- A point and a digit behind it. -/
def isFraction (s : List Char) : Bool := s.head? == some '.' && s.tail.head?.any Char.isDigit

/-- Behind the digits of the numbers that stand behind points. -/
def decimalStop (s : List Char) : List Char :=
  let afterInt := s.dropWhile Char.isDigit
  if isFraction afterInt then
    let afterMinor := afterInt.tail.dropWhile Char.isDigit
    if isFraction afterMinor then afterMinor.tail.dropWhile Char.isDigit else tailStop afterMinor
  else tailStop afterInt

def unsignedStop (s : List Char) : List Char :=
  match s with
  | '0' :: x :: t =>
    if x = 'x' ∨ x = 'X' then t.dropWhile isHexDigit
    else if x = 'b' ∨ x = 'B' then t.dropWhile fun c => c == '0' || c == '1'
    else decimalStop s
  | _ => decimalStop s

def numberStop : List Char → List Char
  | '-' :: s => unsignedStop s
  | s => unsignedStop s

section Stops

variable {parseFloat : ParseFloat} {tok : Token}

theorem lexDecimal_stop {negative : Bool}
    (h : Lexer.lexDecimal parseFloat negative s = .ok (tok, t)) : decimalStop s = t := by
  unfold Lexer.lexDecimal at h
  unfold decimalStop isFraction
  dsimp only at h ⊢
  split at h
  next hpoint =>
    rw [if_pos hpoint]
    split at h
    next hpatch =>
      rw [if_pos hpatch]
      exact (Lexer.lexVersion_rest h).symm
    next hpatch =>
      rw [if_neg hpatch]
      exact (Lexer.finishNumber_rest h).symm
  next hpoint =>
    rw [if_neg hpoint]
    exact (Lexer.finishNumber_rest h).symm

theorem lexRadix_stop {negative : Bool} {radix : Nat} {p : Char → Bool} {name : String}
    (h : Lexer.lexRadix negative radix p name s = .ok (tok, t)) : s.dropWhile p = t := by
  unfold Lexer.lexRadix at h
  split at h
  next =>
    cases h
    rfl
  next => cases h

theorem unsignedStop_zero (x : Char) (t : List Char) : unsignedStop ('0' :: x :: t) =
    if x = 'x' ∨ x = 'X' then t.dropWhile isHexDigit
    else if x = 'b' ∨ x = 'B' then t.dropWhile fun c => c == '0' || c == '1'
    else decimalStop ('0' :: x :: t) := rfl

theorem lexUnsigned_stop {negative : Bool}
    (h : Lexer.lexUnsigned parseFloat negative s = .ok (tok, t)) : unsignedStop s = t := by
  unfold Lexer.lexUnsigned at h
  split at h
  next x u =>
    rw [unsignedStop_zero]
    split at h
    next hhex =>
      rw [if_pos hhex]
      exact lexRadix_stop h
    next hhex =>
      rw [if_neg hhex]
      split at h
      next hbinary =>
        rw [if_pos hbinary]
        exact lexRadix_stop h
      next hbinary =>
        rw [if_neg hbinary]
        exact lexDecimal_stop h
  next hother =>
    unfold unsignedStop
    split
    next x u => exact absurd rfl (hother x u)
    next => exact lexDecimal_stop h

theorem lexNumber_stop (h : Lexer.lexNumber parseFloat s = .ok (tok, t)) : numberStop s = t := by
  unfold Lexer.lexNumber at h
  split at h
  next => exact lexUnsigned_stop h
  next hother =>
    unfold numberStop
    split
    next u => exact absurd rfl (hother u)
    next => exact lexUnsigned_stop h

theorem suffix_tailStop (s : List Char) : tailStop s <:+ s :=
  (Lexer.suffix_lexSuffix _).trans (Lexer.suffix_lexExponent s)

theorem suffix_tail_dropWhile (p : Char → Bool) (s : List Char) : s.tail.dropWhile p <:+ s :=
  (List.dropWhile_suffix _).trans (List.tail_suffix s)

theorem suffix_decimalStop (s : List Char) : decimalStop s <:+ s := by
  have hint : s.dropWhile Char.isDigit <:+ s := List.dropWhile_suffix _
  have hminor := (suffix_tail_dropWhile Char.isDigit (s.dropWhile Char.isDigit)).trans hint
  unfold decimalStop
  dsimp only
  split
  next =>
    split
    next => exact (suffix_tail_dropWhile Char.isDigit _).trans hminor
    next => exact (suffix_tailStop _).trans hminor
  next => exact (suffix_tailStop _).trans hint

theorem suffix_unsignedStop (s : List Char) : unsignedStop s <:+ s := by
  unfold unsignedStop
  split
  next x u =>
    have hbehind (p : Char → Bool) : u.dropWhile p <:+ '0' :: x :: u :=
      ((List.dropWhile_suffix _).trans (List.suffix_cons _ _)).trans (List.suffix_cons _ _)
    split
    next => exact hbehind isHexDigit
    next =>
      split
      next => exact hbehind fun c => c == '0' || c == '1'
      next => exact suffix_decimalStop _
  next => exact suffix_decimalStop _

end Stops

/-! ## Numbers -/

theorem parseRadix_ne_minValue {radix : Nat} {digits : List Char} {n : Int64}
    (h : parseRadix radix digits = some n) : n ≠ Int64.minValue := by
  unfold Lexer.parseRadix at h
  dsimp only at h
  split at h
  next hfits =>
    cases h
    intro heq
    have hmin := congrArg Int64.toInt heq
    rw [Int64.toInt_ofNat_of_lt hfits.2] at hmin
    have hneg : (Int64.minValue).toInt < 0 := by decide
    omega
  next => cases h

theorem map_fst_lexRadix (negative : Bool) (radix : Nat) (p : Char → Bool) (name : String)
    (s : List Char) : (Lexer.lexRadix negative radix p name s).map Prod.fst =
      match parseRadix radix (s.takeWhile p) with
      | some n => .ok (.integer (if negative then -n else n))
      | none => .error ("invalid " ++ name ++ " literal") := by
  unfold Lexer.lexRadix
  cases parseRadix radix (s.takeWhile p) with
  | none => rfl
  | some n => rfl

theorem lexRadix_reads (start : Cursor) (negative : Bool) (radix : Nat) {p : Char → Bool}
    (hp : Uniform p false) (name : String) {x y : Char} (hx : x.toNat < 128) (hy : y.toNat < 128)
    (h : Ahead (x :: y :: s) c) :
    Reads c (x :: y :: s.takeWhile p) ((Lexer.lexRadix negative radix p name s).map Prod.fst)
      (lexRadix start negative radix p name c) := by
  have hfront : x :: y :: s.takeWhile p = [x, y] ++ s.takeWhile p := rfl
  unfold lexRadix
  rw [hfront, past_two hx hy, map_fst_lexRadix]
  apply Reads.past
  intro digits hdigits
  have hat : Ahead s digits := @Ahead.past _ _ [x, y] _ h hdigits
  rw [advanceWhile_eq hp hat]
  apply Reads.past_end
  intro c' hpast
  have hsplit : Ahead (s.takeWhile p ++ s.dropWhile p) digits := by
    rw [List.takeWhile_append_dropWhile]
    exact hat
  rw [hsplit.text hpast]
  cases hparse : parseRadix radix (s.takeWhile p) with
  | none => exact Ends.fail _ _ c'
  | some n =>
    cases negative with
    | false => rfl
    | true =>
      have hnegate : negate n = .ok (-n) := if_neg (parseRadix_ne_minValue hparse)
      dsimp only
      rw [if_pos rfl, hnegate]
      rfl

theorem Ahead.peek_or {x y : Char} (hx : x.toNat < 128) (hy : y.toNat < 128) (h : Ahead s c) :
    (c.peekAt 0 = some x ∨ c.peekAt 0 = some y) ↔ ∃ a t, s = a :: t ∧ (a = x ∨ a = y) := by
  rw [h.peek hx, h.peek hy]
  cases s with
  | nil => simp
  | cons a s => simp

theorem low_of_or {x y : Char} (hx : x.toNat < 128) (hy : y.toNat < 128) (ha : a = x ∨ a = y) :
    a.toNat < 128 := by
  rcases ha with rfl | rfl
  · exact hx
  · exact hy

theorem lexExponent_eq (h : Ahead s c) : lexExponent c = c.past (Lexer.lexExponent s).1 := by
  unfold lexExponent
  by_cases hexponent : ∃ a t, s = a :: t ∧ (a = 'e' ∨ a = 'E')
  · have hpeek := (h.peek_or (by decide) (by decide)).mpr hexponent
    obtain ⟨a, s, rfl, ha⟩ := hexponent
    unfold Lexer.lexExponent
    rw [if_pos hpeek, ← past_low (low_of_or (by decide) (by decide) ha)]
    dsimp only
    rw [if_pos ha]
    by_cases hsign : ∃ d t, s = d :: t ∧ (d = '+' ∨ d = '-')
    · obtain ⟨d, t, rfl, hd⟩ := hsign
      have htext : a :: d :: t.takeWhile Char.isDigit = [a] ++ ([d] ++ t.takeWhile Char.isDigit) :=
        rfl
      dsimp only
      rw [if_pos hd, htext, past_append]
      apply past_congr
      intro c' hpast
      have hat := h.tail hpast
      rw [if_pos ((hat.peek_or (by decide) (by decide)).mpr ⟨d, t, rfl, hd⟩), past_append,
        ← past_low (low_of_or (by decide) (by decide) hd)]
      apply past_congr
      intro c'' hpast'
      exact advanceWhile_eq uniform_isDigit (hat.tail hpast')
    · have htext : c.past [a] >>= (fun c => c.past (s.takeWhile Char.isDigit)) =
          c.past (a :: s.takeWhile Char.isDigit) := (past_append [a] _ c).symm
      have hrun : c.past [a] >>= (fun c =>
          if c.peekAt 0 = some '+' ∨ c.peekAt 0 = some '-' then
            c.advance >>= fun c => c.advanceWhile Char.isDigit
          else c.advanceWhile Char.isDigit) = c.past (a :: s.takeWhile Char.isDigit) := by
        rw [← htext]
        apply past_congr
        intro c' hpast
        have hat := h.tail hpast
        rw [if_neg fun hpeek => hsign ((hat.peek_or (by decide) (by decide)).mp hpeek)]
        exact advanceWhile_eq uniform_isDigit hat
      refine hrun.trans ?_
      cases s with
      | nil => rfl
      | cons d t =>
        dsimp only
        rw [if_neg fun hd => hsign ⟨d, t, rfl, hd⟩]
  · rw [if_neg fun hpeek => hexponent ((h.peek_or (by decide) (by decide)).mp hpeek)]
    cases s with
    | nil => rfl
    | cons a s =>
      unfold Lexer.lexExponent
      dsimp only
      rw [if_neg fun ha => hexponent ⟨a, s, rfl, ha⟩]
      rfl

theorem lexSuffix_eq (h : Ahead s c) : lexSuffix c = c.past (Lexer.lexSuffix s).1 := by
  have hf : c.peekAt 0 = some 'f' ↔ s.head? = some 'f' := h.peek (by decide)
  unfold lexSuffix
  split
  next hpeek =>
    obtain ⟨t, rfl⟩ := List.head?_eq_some_iff.mp (hf.mp hpeek)
    have htext : (Lexer.lexSuffix ('f' :: t)).1 = ['f'] ++ t.takeWhile Char.isDigit := rfl
    rw [htext, past_append, ← past_low (a := 'f') (by decide)]
    apply past_congr
    intro c' hpast
    exact advanceWhile_eq uniform_isDigit (h.tail hpast)
  next hpeek =>
    unfold Lexer.lexSuffix
    split
    next t => exact absurd (hf.mpr rfl) hpeek
    next => rfl

section Numbers

variable {parseFloat : ParseFloat}

/-- The cursor is behind the beginning of a number. -/
structure Begun (start c : Cursor) (text s : List Char) : Prop where
  ahead : Ahead (text ++ s) start
  past : start.past text = .ok c

theorem Begun.here (h : Ahead s c) : Begun c c [] s := ⟨h, rfl⟩

theorem Begun.rest {text : List Char} (h : Begun start c text s) : Ahead s c :=
  h.ahead.past h.past

theorem Begun.on {text : List Char} (h : Begun start c text (xs ++ ys))
    (hpast : c.past xs = .ok c') : Begun start c' (text ++ xs) ys := by
  constructor
  · rw [List.append_assoc]
    exact h.ahead
  · rw [past_append, h.past, ok_bind]
    exact hpast

theorem Begun.point {text : List Char} (h : Begun start c text ('.' :: s))
    (hpast : c.past ['.'] = .ok c') : Begun start c' (text ++ ['.']) s :=
  @Begun.on _ _ _ ['.'] s text h hpast

theorem finishNumber_ends {text : List Char} (h : Begun start c text s) :
    Ends ((Lexer.finishNumber parseFloat text s).map Prod.fst) c
      (finishNumber parseFloat start c) := by
  unfold finishNumber Lexer.finishNumber
  rw [h.ahead.text h.past]
  dsimp only
  split
  next =>
    cases parseFloat (text.takeWhile (· != 'f')) with
    | none => exact Ends.fail _ _ c
    | some bits => rfl
  next =>
    cases parseI64 text with
    | none => exact Ends.fail _ _ c
    | some n => rfl

theorem lexTail_reads {text : List Char} (h : Begun start c text s) :
    Reads c ((Lexer.lexExponent s).1 ++ (Lexer.lexSuffix (Lexer.lexExponent s).2).1)
      ((Lexer.lexTail parseFloat text s).map Prod.fst) (lexTail parseFloat start c) := by
  have hexponent : Begun start c text ((Lexer.lexExponent s).1 ++ (Lexer.lexExponent s).2) := by
    rw [lexExponent_append]
    exact h
  unfold lexTail
  rw [lexExponent_eq h.rest]
  apply Reads.past
  intro c₁ hpast₁
  have hbegun := hexponent.on hpast₁
  have hsuffix : Begun start c₁ (text ++ (Lexer.lexExponent s).1)
      ((Lexer.lexSuffix (Lexer.lexExponent s).2).1 ++
        (Lexer.lexSuffix (Lexer.lexExponent s).2).2) := by
    rw [lexSuffix_append]
    exact hbegun
  rw [lexSuffix_eq hbegun.rest]
  apply Reads.past_end
  intro c₂ hpast₂
  exact finishNumber_ends (hsuffix.on hpast₂)

theorem tail_append (s : List Char) :
    s = ((Lexer.lexExponent s).1 ++ (Lexer.lexSuffix (Lexer.lexExponent s).2).1) ++ tailStop s := by
  unfold tailStop
  rw [List.append_assoc, lexSuffix_append, lexExponent_append]

theorem lexVersion_ends (start : Cursor) (negative : Bool) (major minor patch rest : List Char)
    (c : Cursor) : Ends ((Lexer.lexVersion negative major minor patch rest).map Prod.fst) c
      (lexVersion start negative major minor patch c) := by
  unfold lexVersion Lexer.lexVersion
  split
  next => exact Ends.fail _ _ c
  next =>
    cases parseU32 major with
    | none => exact Ends.fail _ _ c
    | some a =>
      cases parseU32 minor with
      | none => exact Ends.fail _ _ c
      | some b =>
        cases parseU32 patch with
        | none => exact Ends.fail _ _ c
        | some d => rfl

theorem Ahead.peek_fraction (h : Ahead s c) :
    (c.peekAt 0 = some '.' ∧ (c.peekAt 1).any Char.isDigit = true) ↔ isFraction s = true := by
  unfold isFraction
  rw [h.peek (by decide), Bool.and_eq_true, beq_iff_eq]
  apply and_congr_right
  intro hhead
  obtain ⟨t, rfl⟩ := List.head?_eq_some_iff.mp hhead
  obtain ⟨next, hat, hbehind⟩ := h.behind (by decide)
  rw [hbehind, hat.any_peek uniform_isDigit]
  rfl

theorem isFraction_iff : isFraction s = true ↔
    ∃ t, s = '.' :: t ∧ t.head?.any Char.isDigit = true := by
  unfold isFraction
  rw [Bool.and_eq_true, beq_iff_eq]
  constructor
  · intro h
    obtain ⟨t, rfl⟩ := List.head?_eq_some_iff.mp h.1
    exact ⟨t, rfl, h.2⟩
  · intro h
    obtain ⟨t, rfl, ht⟩ := h
    exact ⟨rfl, ht⟩

theorem lexDecimal_reads (negative : Bool) (h : Begun start c (if negative then ['-'] else []) s)
    (hs : s = xs ++ decimalStop s) :
    Reads c xs ((Lexer.lexDecimal parseFloat negative s).map Prod.fst)
      (lexDecimal parseFloat start negative c) := by
  have hwhole : s = s.takeWhile Char.isDigit ++ s.dropWhile Char.isDigit :=
    List.takeWhile_append_dropWhile.symm
  unfold decimalStop at hs
  unfold lexDecimal Lexer.lexDecimal
  rw [advanceWhile_eq uniform_isDigit h.rest]
  generalize s.takeWhile Char.isDigit = major at hwhole ⊢
  generalize s.dropWhile Char.isDigit = u at hs hwhole ⊢
  subst hwhole
  dsimp only at hs ⊢
  cases hpoint : isFraction u with
  | false =>
    have hpoint' : (u.head? == some '.' && u.tail.head?.any Char.isDigit) = false := hpoint
    rw [hpoint, if_neg Bool.false_ne_true] at hs
    have hxs : xs = major ++ ((Lexer.lexExponent u).1 ++
        (Lexer.lexSuffix (Lexer.lexExponent u).2).1) := by
      apply (List.append_left_inj (tailStop u)).mp
      rw [← hs, List.append_assoc, ← tail_append]
    rw [hpoint', if_neg Bool.false_ne_true, hxs]
    apply Reads.past
    intro afterInt hpast
    have hbegun := h.on hpast
    have hpeek : ¬ (afterInt.peekAt 0 = some '.' ∧ (afterInt.peekAt 1).any Char.isDigit) := by
      rw [hbegun.rest.peek_fraction, hpoint]
      exact Bool.false_ne_true
    rw [if_neg hpeek]
    exact lexTail_reads hbegun
  | true =>
    have hpoint' : (u.head? == some '.' && u.tail.head?.any Char.isDigit) = true := hpoint
    rw [hpoint, if_pos rfl] at hs
    rw [hpoint', if_pos rfl]
    have hpeek := fun afterInt (hat : Ahead u afterInt) => hat.peek_fraction.mpr hpoint
    obtain ⟨v, rfl, -⟩ := isFraction_iff.mp hpoint
    have hminorWhole : v = v.takeWhile Char.isDigit ++ v.dropWhile Char.isDigit :=
      List.takeWhile_append_dropWhile.symm
    have hminorRun := fun c (hat : Ahead v c) => advanceWhile_eq uniform_isDigit hat
    rw [List.tail_cons] at hs ⊢
    generalize v.takeWhile Char.isDigit = minor at hminorWhole hminorRun ⊢
    generalize v.dropWhile Char.isDigit = w at hs hminorWhole ⊢
    subst hminorWhole
    cases hpatch : isFraction w with
    | false =>
      have hpatch' : (w.head? == some '.' && w.tail.head?.any Char.isDigit) = false := hpatch
      rw [hpatch, if_neg Bool.false_ne_true] at hs
      have hxs : xs = major ++ (['.'] ++ (minor ++ ((Lexer.lexExponent w).1 ++
          (Lexer.lexSuffix (Lexer.lexExponent w).2).1))) := by
        apply (List.append_left_inj (tailStop w)).mp
        rw [← hs]
        conv_lhs => rw [tail_append w]
        simp only [List.append_assoc, List.cons_append, List.nil_append]
      rw [hpatch', if_neg Bool.false_ne_true, hxs]
      apply Reads.past
      intro afterInt hpast
      have hbegun := h.on hpast
      rw [if_pos (hpeek afterInt hbegun.rest), ← past_low (a := '.') (by decide)]
      apply Reads.past
      intro minorStart hpoints
      have hminor := hbegun.point hpoints
      rw [hminorRun minorStart hminor.rest]
      apply Reads.past
      intro afterMinor hdigits
      have hafter := hminor.on hdigits
      have hstop : ¬ (afterMinor.peekAt 0 = some '.' ∧
          (afterMinor.peekAt 1).any Char.isDigit) := by
        rw [hafter.rest.peek_fraction, hpatch]
        exact Bool.false_ne_true
      rw [if_neg hstop]
      have htail := @lexTail_reads _ _ _ parseFloat _ hafter
      rw [List.append_assoc, List.singleton_append] at htail
      exact htail
    | true =>
      have hpatch' : (w.head? == some '.' && w.tail.head?.any Char.isDigit) = true := hpatch
      rw [hpatch, if_pos rfl] at hs
      rw [hpatch', if_pos rfl]
      have hpeek' := fun afterMinor (hat : Ahead w afterMinor) =>
        hat.peek_fraction.mpr hpatch
      obtain ⟨x, rfl, -⟩ := isFraction_iff.mp hpatch
      rw [List.tail_cons] at hs ⊢
      have hxs : xs = major ++ (['.'] ++ (minor ++ (['.'] ++ x.takeWhile Char.isDigit))) := by
        apply (List.append_left_inj (x.dropWhile Char.isDigit)).mp
        rw [← hs]
        simp only [List.append_assoc, List.cons_append, List.nil_append,
          List.takeWhile_append_dropWhile]
      rw [hxs]
      apply Reads.past
      intro afterInt hpast
      have hbegun := h.on hpast
      rw [if_pos (hpeek afterInt hbegun.rest), ← past_low (a := '.') (by decide)]
      apply Reads.past
      intro minorStart hpoints
      have hminor := hbegun.point hpoints
      rw [hminorRun minorStart hminor.rest]
      apply Reads.past
      intro afterMinor hdigits
      have hafter := hminor.on hdigits
      rw [if_pos (hpeek' afterMinor hafter.rest), ← past_low (a := '.') (by decide)]
      apply Reads.past
      intro patchStart hpoints'
      have hpatchAt := hafter.point hpoints'
      rw [advanceWhile_eq uniform_isDigit hpatchAt.rest]
      apply Reads.past_end
      intro end_ hend
      have hlast : Ahead (x.takeWhile Char.isDigit ++ x.dropWhile Char.isDigit) patchStart := by
        rw [List.takeWhile_append_dropWhile]
        exact hpatchAt.rest
      rw [h.rest.text hpast, hminor.rest.text hdigits, hlast.text hend]
      exact lexVersion_ends start negative major minor _ _ end_

/-- `0` with one of two letters behind it. -/
def Prefixed (x y : Char) (s : List Char) : Prop := ∃ d t, s = '0' :: d :: t ∧ (d = x ∨ d = y)

theorem Ahead.peek_prefixed {x y : Char} (ha : a.toNat < 128) (hx : x.toNat < 128)
    (hy : y.toNat < 128) (h : Ahead (a :: s) c) :
    (a = '0' ∧ (c.peekAt 1 = some x ∨ c.peekAt 1 = some y)) ↔ Prefixed x y (a :: s) := by
  obtain ⟨next, hat, hbehind⟩ := h.behind ha
  rw [hbehind, hat.peek_or hx hy]
  constructor
  · intro hpeek
    obtain ⟨rfl, d, t, rfl, hd⟩ := hpeek
    exact ⟨d, t, rfl, hd⟩
  · intro hbefore
    obtain ⟨d, t, hcons, hd⟩ := hbefore
    exact ⟨(List.cons.inj hcons).1, d, t, (List.cons.inj hcons).2, hd⟩

theorem lexUnsigned_decimal (negative : Bool) (hhex : ¬ Prefixed 'x' 'X' s)
    (hbinary : ¬ Prefixed 'b' 'B' s) :
    Lexer.lexUnsigned parseFloat negative s = Lexer.lexDecimal parseFloat negative s := by
  unfold Lexer.lexUnsigned
  split
  next d t =>
    rw [if_neg fun hd => hhex ⟨d, t, rfl, hd⟩, if_neg fun hd => hbinary ⟨d, t, rfl, hd⟩]
  next => rfl

theorem unsignedStop_decimal (hhex : ¬ Prefixed 'x' 'X' s) (hbinary : ¬ Prefixed 'b' 'B' s) :
    unsignedStop s = decimalStop s := by
  unfold unsignedStop
  split
  next d t =>
    rw [if_neg fun hd => hhex ⟨d, t, rfl, hd⟩, if_neg fun hd => hbinary ⟨d, t, rfl, hd⟩]
  next => rfl

theorem lexUnsigned_zero (negative : Bool) (d : Char) (t : List Char) :
    Lexer.lexUnsigned parseFloat negative ('0' :: d :: t) =
      if d = 'x' ∨ d = 'X' then Lexer.lexRadix negative 16 isHexDigit "hex" t
      else if d = 'b' ∨ d = 'B' then
        Lexer.lexRadix negative 2 (fun c => c == '0' || c == '1') "binary" t
      else Lexer.lexDecimal parseFloat negative ('0' :: d :: t) := rfl

theorem lexUnsigned_reads (negative : Bool) (ha : a.isDigit = true)
    (h : Begun start c (if negative then ['-'] else []) (a :: s))
    (hs : a :: s = xs ++ unsignedStop (a :: s)) :
    Reads c xs ((Lexer.lexUnsigned parseFloat negative (a :: s)).map Prod.fst)
      (lexUnsigned parseFloat start negative c) := by
  have hlow := low_of_isDigit ha
  have hradix : ∀ {d : Char} {t : List Char} (p : Char → Bool),
      '0' :: d :: t = xs ++ t.dropWhile p → xs = '0' :: d :: t.takeWhile p := by
    intro d t p hxs
    apply (List.append_left_inj (t.dropWhile p)).mp
    rw [← hxs, List.cons_append, List.cons_append, List.takeWhile_append_dropWhile]
  unfold lexUnsigned
  rw [h.rest.current hlow, ok_bind, asChar_low hlow]
  by_cases hhex : Prefixed 'x' 'X' (a :: s)
  · rw [if_pos ((h.rest.peek_prefixed hlow (by decide) (by decide)).mpr hhex)]
    obtain ⟨d, t, hcons, hd⟩ := hhex
    rw [hcons, unsignedStop_zero, if_pos hd] at hs
    have hat := h.rest
    rw [hcons] at hat ⊢
    rw [lexUnsigned_zero, if_pos hd, hradix isHexDigit hs]
    exact lexRadix_reads start negative 16 uniform_isHexDigit "hex" (by decide)
      (low_of_or (by decide) (by decide) hd) hat
  · rw [if_neg fun hpeek => hhex ((h.rest.peek_prefixed hlow (by decide) (by decide)).mp hpeek)]
    by_cases hbinary : Prefixed 'b' 'B' (a :: s)
    · rw [if_pos ((h.rest.peek_prefixed hlow (by decide) (by decide)).mpr hbinary)]
      obtain ⟨d, t, hcons, hd⟩ := hbinary
      have hnotHex : ¬ (d = 'x' ∨ d = 'X') := fun hd' => hhex ⟨d, t, hcons, hd'⟩
      rw [hcons, unsignedStop_zero, if_neg hnotHex, if_pos hd] at hs
      have hat := h.rest
      rw [hcons] at hat ⊢
      rw [lexUnsigned_zero, if_neg hnotHex, if_pos hd, hradix (fun c => c == '0' || c == '1') hs]
      exact lexRadix_reads start negative 2 uniform_isBit "binary" (by decide)
        (low_of_or (by decide) (by decide) hd) hat
    · rw [unsignedStop_decimal hhex hbinary] at hs
      rw [if_neg fun hpeek =>
        hbinary ((h.rest.peek_prefixed hlow (by decide) (by decide)).mp hpeek),
        lexUnsigned_decimal negative hhex hbinary]
      exact lexDecimal_reads negative h hs

theorem lexNumber_minus (s : List Char) :
    Lexer.lexNumber parseFloat ('-' :: s) = Lexer.lexUnsigned parseFloat true s := rfl

theorem numberStop_minus (s : List Char) : numberStop ('-' :: s) = unsignedStop s := rfl

theorem minus_ne_of_isDigit (ha : a.isDigit = true) : a ≠ '-' := by
  rintro rfl
  exact absurd ha (by decide)

theorem lexNumber_digit (ha : a.isDigit = true) (s : List Char) :
    Lexer.lexNumber parseFloat (a :: s) = Lexer.lexUnsigned parseFloat false (a :: s) := by
  unfold Lexer.lexNumber
  split
  next heq => exact absurd (List.cons.inj heq).1 (minus_ne_of_isDigit ha)
  next => rfl

theorem numberStop_digit (ha : a.isDigit = true) (s : List Char) :
    numberStop (a :: s) = unsignedStop (a :: s) := by
  unfold numberStop
  split
  next heq => exact absurd (List.cons.inj heq).1 (minus_ne_of_isDigit ha)
  next => rfl

/-- What a number may begin with. -/
def startsNumber (c : Char) (cs : List Char) : Bool :=
  c.isDigit || (c == '-' && cs.head?.any Char.isDigit)

theorem startsNumber_cases (h : startsNumber a s = true) :
    a.isDigit = true ∨ ∃ d t, a = '-' ∧ s = d :: t ∧ d.isDigit = true := by
  unfold startsNumber at h
  rw [Bool.or_eq_true, Bool.and_eq_true, beq_iff_eq] at h
  refine h.imp id fun hminus => ?_
  obtain ⟨d, hd, hdigit⟩ := (Option.any_eq_true _ _).mp hminus.2
  obtain ⟨t, rfl⟩ := List.head?_eq_some_iff.mp hd
  exact ⟨d, t, hminus.1, rfl, hdigit⟩

theorem lexNumber_reads (h : Ahead (a :: s) c) (hstart : startsNumber a s = true)
    (hs : a :: s = xs ++ numberStop (a :: s)) :
    Reads c xs ((Lexer.lexNumber parseFloat (a :: s)).map Prod.fst) (lexNumber parseFloat c) := by
  unfold lexNumber
  rcases startsNumber_cases hstart with hdigit | ⟨d, t, rfl, rfl, hdigit⟩
  · have hlow := low_of_isDigit hdigit
    rw [numberStop_digit hdigit] at hs
    rw [h.current hlow, ok_bind, asChar_low hlow, if_neg (minus_ne_of_isDigit hdigit),
      lexNumber_digit hdigit]
    exact lexUnsigned_reads false hdigit (Begun.here h) hs
  · rw [numberStop_minus] at hs
    obtain ⟨ys, rfl, hys⟩ := split_front ['-'] hs (suffix_unsignedStop (d :: t))
    rw [h.current (by decide), ok_bind, if_pos (by decide), ← past_low (a := '-') (by decide),
      lexNumber_minus]
    apply Reads.past
    intro unsigned hpast
    exact lexUnsigned_reads true hdigit ⟨h, hpast⟩ hys

end Numbers

/-! ## Names -/

theorem lexKeywordOrColon_reads (h : Ahead (':' :: s) c)
    (hs : ':' :: s = xs ++ (Lexer.lexKeywordOrColon s).2) :
    Reads c xs (.ok (Lexer.lexKeywordOrColon s).1) (lexKeywordOrColon c) := by
  have hxs : ∀ {front rest : List Char}, front ++ rest = s → ':' :: s = xs ++ rest →
      xs = [':'] ++ front := by
    intro front rest hfront hwhole
    apply (List.append_left_inj rest).mp
    rw [← hwhole, List.append_assoc, hfront]
    rfl
  unfold lexKeywordOrColon
  unfold Lexer.lexKeywordOrColon at hs ⊢
  rw [← past_low (a := ':') (by decide)]
  split at hs
  next hname =>
    rw [if_pos hname, hxs List.takeWhile_append_dropWhile hs]
    apply Reads.past
    intro start hpast
    have hat := h.tail hpast
    rw [hat.any_peek uniform_isSymbolChar, if_pos hname, advanceWhile_eq uniform_isSymbolChar hat]
    apply Reads.past_end
    intro c' hname
    have hsplit : Ahead (s.takeWhile isSymbolChar ++ s.dropWhile isSymbolChar) start := by
      rw [List.takeWhile_append_dropWhile]
      exact hat
    rw [hsplit.text hname]
    rfl
  next hname =>
    rw [if_neg hname, hxs (List.nil_append s) hs]
    apply Reads.past_end
    intro c' hpast
    rw [(h.tail hpast).any_peek uniform_isSymbolChar, if_neg hname]
    rfl

theorem symbolLength_encode (s : List Char) :
    symbolLength (Utf8.encode s) = (Utf8.encode (Lexer.symbolSpan s).1).length := by
  induction s with
  | nil => rfl
  | cons a s ih =>
    by_cases ha : a.toNat < 128
    · rw [encode_low ha, symbolLength, asChar_low ha, any_head_encode uniform_isSymbolStart,
        Lexer.symbolSpan]
      split
      next => rw [ih, encode_low ha, List.length_cons]
      next => rfl
    · have hchar := uniform_isSymbolChar a (Nat.not_lt.mp ha)
      obtain ⟨b, bs, hcons⟩ := List.exists_cons_of_ne_nil (encodeChar_ne_nil a)
      have hb := uniform_isSymbolChar.byte (Nat.not_lt.mp ha) b (hcons ▸ List.mem_cons_self)
      rw [Utf8.encode_cons, hcons, List.cons_append, symbolLength, hb, Lexer.symbolSpan, hchar]
      rfl

theorem lexSymbol_reads (h : Ahead s c) :
    Reads c (Lexer.symbolSpan s).1 (.ok (Lexer.lexSymbol s).1) (lexSymbol c) := by
  have hsplit : Ahead ((Lexer.symbolSpan s).1 ++ (Lexer.symbolSpan s).2) c := by
    rw [symbolSpan_fst_append]
    exact h
  have hrun : c.advances (symbolLength c.rest) = c.past (Lexer.symbolSpan s).1 := by
    rw [h, symbolLength_encode]
    rfl
  unfold lexSymbol Lexer.lexSymbol
  rw [hrun]
  apply Reads.past_end
  intro c' hpast
  rw [hsplit.text hpast]
  dsimp only
  split
  next => rfl
  next =>
    split
    next => rfl
    next =>
      split
      next => rfl
      next => rfl

/-! ## Tokens -/

theorem fixed_reads {n : Nat} (hn : (Utf8.encode xs).length = n) (tok : Token) (c : Cursor) :
    Reads c xs (.ok tok) (fixed n tok c) := by
  unfold fixed
  rw [← hn]
  exact Reads.past_end fun c' _ => rfl

theorem Ahead.peek_arrow (h : Ahead ('-' :: s) c) : c.peekAt 1 = some '>' ↔ s.take 1 = ['>'] := by
  obtain ⟨next, hat, hbehind⟩ := h.behind (by decide)
  rw [hbehind, hat.peek (by decide)]
  cases s with
  | nil => simp
  | cons a s => simp

theorem Ahead.peek_longArrow (h : Ahead ('-' :: s) c) :
    (c.peekAt 1 = some '>' ∧ c.peekAt 2 = some '>') ↔ s.take 2 = ['>', '>'] := by
  obtain ⟨next, hat, hbehind⟩ := h.behind (by decide)
  rw [hbehind, hbehind, hat.peek_two (by decide) (by decide)]
  constructor
  · intro hcons
    obtain ⟨t, rfl⟩ := hcons
    rfl
  · intro htake
    exact ⟨s.drop 2, by rw [← List.take_append_drop 2 s, htake]; rfl⟩

section Read

variable (parseFloat : ParseFloat)

/-- Where the reader of a token stops, with the token or without it. -/
def readStop (c : Char) (cs : List Char) : List Char :=
  if c = '"' then stringStop [] cs
  else if startsNumber c cs then numberStop (c :: cs)
  else ((Lexer.readToken parseFloat c cs).toOption.map Prod.snd).getD (c :: cs)

variable {parseFloat} {tok : Token}

theorem readToken_number (h : startsNumber a s = true) :
    Lexer.readToken parseFloat a s = Lexer.lexNumber parseFloat (a :: s) := by
  have hnumber : (a.isDigit || (a == '-' && s.head?.any Char.isDigit)) = true := h
  unfold Lexer.readToken
  rcases startsNumber_cases h with hdigit | ⟨d, t, rfl, rfl, hdigit⟩
  · have hne : ∀ b : Char, b.isDigit = false → a ≠ b := by
      rintro b hb rfl
      rw [hdigit] at hb
      cases hb
    rw [if_neg (hne _ (by decide)), if_neg (hne _ (by decide)), if_neg (hne _ (by decide)),
      if_neg (hne _ (by decide)), if_neg (hne _ (by decide)), if_neg (hne _ (by decide)),
      if_neg (hne _ (by decide)), if_neg fun hminus => hne '-' (by decide) hminus.1,
      if_neg fun hminus => hne '-' (by decide) hminus.1, if_pos hnumber]
  · have hd : d ≠ '>' := by
      rintro rfl
      exact absurd hdigit (by decide)
    rw [if_neg (by decide), if_neg (by decide), if_neg (by decide), if_neg (by decide),
      if_neg (by decide), if_neg (by decide), if_neg (by decide),
      if_neg fun hlong => hd (List.cons.inj hlong.2).1,
      if_neg fun harrow => hd (List.cons.inj harrow.2).1, if_pos hnumber]

theorem readStop_of_ok (h : Lexer.readToken parseFloat a s = .ok (tok, t)) :
    readStop parseFloat a s = t := by
  unfold readStop
  split
  next hquote =>
    subst hquote
    have hstring : (Lexer.lexString [] s).map (fun p => (Token.str p.1, p.2)) = .ok (tok, t) := h
    cases hread : Lexer.lexString [] s with
    | error e =>
      rw [hread] at hstring
      cases hstring
    | ok p =>
      rw [hread] at hstring
      cases hstring
      exact stringStop_of_ok hread
  next =>
    split
    next hnumber =>
      rw [readToken_number hnumber] at h
      exact lexNumber_stop h
    next =>
      rw [h]
      rfl

theorem suffix_numberStop (s : List Char) : numberStop s <:+ s := by
  unfold numberStop
  split
  next => exact (suffix_unsignedStop _).trans (List.suffix_cons _ _)
  next => exact suffix_unsignedStop _

theorem suffix_readStop (a : Char) (s : List Char) : readStop parseFloat a s <:+ a :: s := by
  unfold readStop
  split
  next => exact (suffix_stringStop _ _).trans (List.suffix_cons _ _)
  next =>
    split
    next => exact suffix_numberStop _
    next =>
      cases hread : Lexer.readToken parseFloat a s with
      | error e => exact List.suffix_refl _
      | ok p => exact (Lexer.suffix_readToken hread).trans (List.suffix_cons _ _)

theorem readStop_of_error {e : String} (hquote : a ≠ '"') (hnumber : startsNumber a s = false)
    (h : Lexer.readToken parseFloat a s = .error e) : readStop parseFloat a s = a :: s := by
  unfold readStop
  rw [if_neg hquote, hnumber, if_neg Bool.false_ne_true, h]
  rfl

theorem readToken_high (ha : ¬ a.toNat < 128) (h : Ahead (a :: s) c)
    (hs : a :: s = xs ++ readStop parseFloat a s) :
    Reads c xs ((Lexer.readToken parseFloat a s).map Prod.fst) (readToken parseFloat c) := by
  obtain ⟨b, hcurrent, hb, hhigh⟩ := h.current_high ha
  have hne : ∀ d : Char, d.toNat < 128 → a ≠ d := by
    rintro d hd rfl
    exact ha hd
  have hneByte : ∀ d : Char, d.toNat < 128 → asChar b ≠ d := fun d hd => asChar_ne hhigh hd
  have hbhigh : 128 ≤ (asChar b).toNat := by
    rw [toNat_asChar]
    exact hhigh
  have hchars : Lexer.readToken parseFloat a s =
      .error ("unexpected character: '" ++ Lexer.byteText a ++ "'") := by
    unfold Lexer.readToken
    simp only [hne _ (by decide : '('.toNat < 128), hne _ (by decide : ')'.toNat < 128),
      hne _ (by decide : '['.toNat < 128), hne _ (by decide : ']'.toNat < 128),
      hne _ (by decide : ','.toNat < 128), hne _ (by decide : '"'.toNat < 128),
      hne _ (by decide : ':'.toNat < 128), hne _ (by decide : '-'.toNat < 128), false_and,
      if_false, uniform_isDigit a (Nat.not_lt.mp ha), uniform_isSymbolStart a (Nat.not_lt.mp ha),
      Bool.false_or, beq_eq_false_iff_ne.mpr (hne '-' (by decide)), Bool.false_and,
      Bool.false_eq_true]
  have hbytes : readToken parseFloat c =
      fail ("unexpected character: '" ++ String.ofList [asChar b] ++ "'")
        ⟨c.pos, c.pos + 1, c.line, c.col⟩ := by
    unfold readToken
    rw [hcurrent, ok_bind]
    simp only [hneByte _ (by decide : '('.toNat < 128), hneByte _ (by decide : ')'.toNat < 128),
      hneByte _ (by decide : '['.toNat < 128), hneByte _ (by decide : ']'.toNat < 128),
      hneByte _ (by decide : ','.toNat < 128), hneByte _ (by decide : '"'.toNat < 128),
      hneByte _ (by decide : ':'.toNat < 128), hneByte _ (by decide : '-'.toNat < 128), false_and,
      if_false, uniform_isDigit _ hbhigh, uniform_isSymbolStart _ hbhigh,
      Bool.false_or, beq_eq_false_iff_ne.mpr (hneByte '-' (by decide)), Bool.false_and,
      Bool.false_eq_true]
  have hnumber : startsNumber a s = false := by
    unfold startsNumber
    rw [uniform_isDigit a (Nat.not_lt.mp ha), Bool.false_or,
      beq_eq_false_iff_ne.mpr (hne '-' (by decide)), Bool.false_and]
  rw [readStop_of_error (hne '"' (by decide)) hnumber hchars] at hs
  have hnil : xs = [] := List.self_eq_append_left.mp hs
  rw [hchars, hbytes, byteText_high hb, hnil]
  exact Reads.fail _ _ c

theorem readToken_reads (h : Ahead (a :: s) c) (hs : a :: s = xs ++ readStop parseFloat a s) :
    Reads c xs ((Lexer.readToken parseFloat a s).map Prod.fst) (readToken parseFloat c) := by
  by_cases ha : a.toNat < 128
  · have hok : ∀ {tok : Token} {t : List Char},
        Lexer.readToken parseFloat a s = .ok (tok, t) → a :: s = xs ++ t := by
      intro tok t hread
      rw [← readStop_of_ok hread]
      exact hs
    have herror : ∀ {e : String}, a ≠ '"' → startsNumber a s = false →
        Lexer.readToken parseFloat a s = .error e → xs = [] := by
      intro e hquote hnumber hread
      rw [readStop_of_error hquote hnumber hread] at hs
      exact List.self_eq_append_left.mp hs
    have hone : ∀ tok, Lexer.readToken parseFloat a s = .ok (tok, s) →
        Reads c xs ((Lexer.readToken parseFloat a s).map Prod.fst) (fixed 1 tok c) := by
      intro tok hread
      rw [split_behind (hok hread) rfl, hread]
      apply fixed_reads
      rw [encode_low ha]
      rfl
    obtain ⟨r, hread⟩ : ∃ r, Lexer.readToken parseFloat a s = r := ⟨_, rfl⟩
    have hwhole := hread
    rw [hwhole] at hok hone herror ⊢
    unfold Lexer.readToken at hread
    unfold readToken
    rw [h.current ha, ok_bind, asChar_low ha]
    dsimp only
    -- Both readers try the same characters in the same order.
    by_cases hlparen : a = '('
    · rw [if_pos hlparen] at hread ⊢
      exact hone _ hread.symm
    rw [if_neg hlparen] at hread ⊢
    by_cases hrparen : a = ')'
    · rw [if_pos hrparen] at hread ⊢
      exact hone _ hread.symm
    rw [if_neg hrparen] at hread ⊢
    by_cases hlbracket : a = '['
    · rw [if_pos hlbracket] at hread ⊢
      exact hone _ hread.symm
    rw [if_neg hlbracket] at hread ⊢
    by_cases hrbracket : a = ']'
    · rw [if_pos hrbracket] at hread ⊢
      exact hone _ hread.symm
    rw [if_neg hrbracket] at hread ⊢
    by_cases hcomma : a = ','
    · rw [if_pos hcomma] at hread ⊢
      exact hone _ hread.symm
    rw [if_neg hcomma] at hread ⊢
    by_cases hquote : a = '"'
    · rw [if_pos hquote] at hread ⊢
      subst hquote
      unfold readStop at hs
      rw [if_pos rfl] at hs
      obtain ⟨ys, rfl, hys⟩ := split_front ['"'] hs (suffix_stringStop [] s)
      have hstring := lexString_reads h hys
      rw [← hread]
      cases hvalue : Lexer.lexString [] s with
      | error e =>
        rw [hvalue] at hstring
        exact hstring
      | ok p =>
        rw [hvalue] at hstring
        exact hstring
    rw [if_neg hquote] at hread ⊢
    by_cases hcolon : a = ':'
    · rw [if_pos hcolon] at hread ⊢
      subst hcolon
      rw [← hread]
      exact lexKeywordOrColon_reads h (hok hread.symm)
    rw [if_neg hcolon] at hread ⊢
    by_cases hlong : a = '-' ∧ s.take 2 = ['>', '>']
    · obtain ⟨rfl, htake⟩ := hlong
      rw [if_pos ⟨rfl, htake⟩] at hread
      rw [if_pos ⟨rfl, h.peek_longArrow.mpr htake⟩]
      have hxs : xs = "->>".toList := by
        apply (List.append_left_inj (s.drop 2)).mp
        rw [← hok hread.symm]
        conv_lhs => rw [← List.take_append_drop 2 s, htake]
        rfl
      rw [← hread, hxs]
      exact fixed_reads (by decide) _ c
    have hlong' : ¬ (a = '-' ∧ c.peekAt 1 = some '>' ∧ c.peekAt 2 = some '>') := by
      intro hpeek
      obtain ⟨rfl, hpeek⟩ := hpeek
      exact hlong ⟨rfl, h.peek_longArrow.mp hpeek⟩
    rw [if_neg hlong] at hread
    rw [if_neg hlong']
    by_cases harrow : a = '-' ∧ s.take 1 = ['>']
    · obtain ⟨rfl, htake⟩ := harrow
      rw [if_pos ⟨rfl, htake⟩] at hread
      rw [if_pos ⟨rfl, h.peek_arrow.mpr htake⟩]
      have hxs : xs = "->".toList := by
        apply (List.append_left_inj (s.drop 1)).mp
        rw [← hok hread.symm]
        conv_lhs => rw [← List.take_append_drop 1 s, htake]
        rfl
      rw [← hread, hxs]
      exact fixed_reads (by decide) _ c
    have harrow' : ¬ (a = '-' ∧ c.peekAt 1 = some '>') := by
      intro hpeek
      obtain ⟨rfl, hpeek⟩ := hpeek
      exact harrow ⟨rfl, h.peek_arrow.mp hpeek⟩
    rw [if_neg harrow] at hread
    rw [if_neg harrow']
    obtain ⟨next, hat, hbehind⟩ := h.behind ha
    rw [hbehind, hat.any_peek uniform_isDigit]
    by_cases hnumber : (a.isDigit || (a == '-' && s.head?.any Char.isDigit)) = true
    · have hstart : startsNumber a s = true := hnumber
      rw [if_pos hnumber, ← hread, if_pos hnumber]
      apply lexNumber_reads h hstart
      unfold readStop at hs
      rw [if_neg hquote, if_pos hstart] at hs
      exact hs
    rw [if_neg hnumber] at hread ⊢
    by_cases hsymbol : isSymbolStart a = true
    · rw [if_pos hsymbol] at hread ⊢
      have hxs : xs = (Lexer.symbolSpan (a :: s)).1 := by
        apply (List.append_left_inj ((Lexer.symbolSpan (a :: s)).2)).mp
        rw [symbolSpan_fst_append]
        exact (hok hread.symm).symm
      rw [← hread, hxs]
      exact lexSymbol_reads h
    rw [if_neg hsymbol] at hread ⊢
    rw [herror hquote (Bool.eq_false_iff.mpr hnumber) hread.symm, ← hread, byteText_low ha]
    exact Reads.fail _ _ c
  · exact readToken_high ha h hs

end Read

end Airl.Syntax.ByteLexer
