import Mathlib.Data.List.Basic

/-! # Lossy decoding of UTF-8

`String::from_utf8_lossy` over a list of bytes. A maximal ill-formed part
becomes one replacement character, and what an encoder wrote is read back
character by character.
-/

namespace Utf8

/-- U+FFFD, written in place of ill-formed bytes. -/
def replacement : Char := Char.ofNat 0xFFFD

/-- A continuation byte, `0b10xxxxxx`. -/
def isTail (c : UInt8) : Bool := 0x80 ≤ c && c ≤ 0xBF

/-- Whether `c` may follow the leading byte `b`: no overlong form, no surrogate,
nothing above U+10FFFF. -/
def isSecond (b c : UInt8) : Bool :=
  (if b = 0xE0 then 0xA0 else if b = 0xF0 then 0x90 else 0x80) ≤ c &&
    c ≤ (if b = 0xED then 0x9F else if b = 0xF4 then 0x8F else 0xBF)

/-- How many bytes the character with leading byte `b` takes; zero for a byte that leads none. -/
def charWidth (b : UInt8) : Nat :=
  if b < 0x80 then 1
  else if b < 0xC2 then 0
  else if b < 0xE0 then 2
  else if b < 0xF0 then 3
  else if b < 0xF5 then 4
  else 0

def char2 (b c : UInt8) : Char := Char.ofNat (b.toNat % 32 * 64 + c.toNat % 64)

def char3 (b c d : UInt8) : Char :=
  Char.ofNat (b.toNat % 16 * 4096 + c.toNat % 64 * 64 + d.toNat % 64)

def char4 (b c d e : UInt8) : Char :=
  Char.ofNat (b.toNat % 8 * 262144 + c.toNat % 64 * 4096 + d.toNat % 64 * 64 + e.toNat % 64)

/-- The characters of a byte sequence, ill-formed parts replaced. -/
def decodeLossy : List UInt8 → List Char
  | [] => []
  | b :: rest =>
    match charWidth b with
    | 1 => Char.ofNat b.toNat :: decodeLossy rest
    | 2 =>
      match rest with
      | [] => [replacement]
      | c :: rest =>
        if isSecond b c then char2 b c :: decodeLossy rest
        else replacement :: decodeLossy (c :: rest)
    | 3 =>
      match rest with
      | [] => [replacement]
      | c :: rest =>
        if isSecond b c then
          match rest with
          | [] => [replacement]
          | d :: rest =>
            if isTail d then char3 b c d :: decodeLossy rest
            else replacement :: decodeLossy (d :: rest)
        else replacement :: decodeLossy (c :: rest)
    | 4 =>
      match rest with
      | [] => [replacement]
      | c :: rest =>
        if isSecond b c then
          match rest with
          | [] => [replacement]
          | d :: rest =>
            if isTail d then
              match rest with
              | [] => [replacement]
              | e :: rest =>
                if isTail e then char4 b c d e :: decodeLossy rest
                else replacement :: decodeLossy (e :: rest)
            else replacement :: decodeLossy (d :: rest)
        else replacement :: decodeLossy (c :: rest)
    | _ => replacement :: decodeLossy rest

/-- The bytes of a text. -/
def encode (cs : List Char) : List UInt8 := cs.flatMap String.utf8EncodeChar

@[simp] theorem encode_nil : encode [] = [] := rfl

@[simp] theorem encode_cons (c : Char) (cs : List Char) :
    encode (c :: cs) = String.utf8EncodeChar c ++ encode cs := rfl

theorem encode_append (cs ds : List Char) : encode (cs ++ ds) = encode cs ++ encode ds := by
  simp [encode]

variable {b c d e : UInt8} {rest : List UInt8}

theorem decodeLossy_one (h : charWidth b = 1) :
    decodeLossy (b :: rest) = Char.ofNat b.toNat :: decodeLossy rest := by
  rw [decodeLossy.eq_def]
  simp only [h]

theorem decodeLossy_two (h : charWidth b = 2) (hc : isSecond b c) :
    decodeLossy (b :: c :: rest) = char2 b c :: decodeLossy rest := by
  rw [decodeLossy.eq_def]
  simp only [h, hc, if_true]

theorem decodeLossy_three (h : charWidth b = 3) (hc : isSecond b c) (hd : isTail d) :
    decodeLossy (b :: c :: d :: rest) = char3 b c d :: decodeLossy rest := by
  rw [decodeLossy.eq_def]
  simp only [h, hc, hd, if_true]

theorem decodeLossy_four (h : charWidth b = 4) (hc : isSecond b c) (hd : isTail d)
    (he : isTail e) :
    decodeLossy (b :: c :: d :: e :: rest) = char4 b c d e :: decodeLossy rest := by
  rw [decodeLossy.eq_def]
  simp only [h, hc, hd, he, if_true]

theorem toNat_ofNat_lt {n : Nat} (h : n < 256) : (UInt8.ofNat n).toNat = n := by
  simp [UInt8.toNat_ofNat', Nat.mod_eq_of_lt h]

theorem charWidth_eq (b : UInt8) : charWidth b =
    if b.toNat < 0x80 then 1 else if b.toNat < 0xC2 then 0 else if b.toNat < 0xE0 then 2
    else if b.toNat < 0xF0 then 3 else if b.toNat < 0xF5 then 4 else 0 := by
  simp only [charWidth, UInt8.lt_iff_toNat_lt]
  rfl

theorem isTail_iff : isTail c = true ↔ 0x80 ≤ c.toNat ∧ c.toNat ≤ 0xBF := by
  simp only [isTail, UInt8.le_iff_toNat_le, Bool.and_eq_true, decide_eq_true_eq]
  rfl

theorem isSecond_of_toNat (hc : isTail c)
    (h0 : b.toNat = 0xE0 → 0xA0 ≤ c.toNat) (h1 : b.toNat = 0xED → c.toNat ≤ 0x9F)
    (h2 : b.toNat = 0xF0 → 0x90 ≤ c.toNat) (h3 : b.toNat = 0xF4 → c.toNat ≤ 0x8F) :
    isSecond b c = true := by
  obtain ⟨hlow, hhigh⟩ := isTail_iff.mp hc
  simp only [isSecond, UInt8.le_iff_toNat_le, Bool.and_eq_true, decide_eq_true_eq,
    ← UInt8.toNat_inj]
  constructor
  · split
    · exact h0 (by assumption)
    split
    · exact h2 (by assumption)
    · exact hlow
  · split
    · exact h1 (by assumption)
    split
    · exact h3 (by assumption)
    · exact hhigh

theorem decodeLossy_encodeChar (c : Char) (rest : List UInt8) :
    decodeLossy (String.utf8EncodeChar c ++ rest) = c :: decodeLossy rest := by
  have hvalid : c.val.toNat < 0xD800 ∨ 0xDFFF < c.val.toNat ∧ c.val.toNat < 0x110000 := c.valid
  have hchar : ∀ n, n = c.val.toNat → Char.ofNat n = c := fun n h => h ▸ Char.ofNat_toNat c
  unfold String.utf8EncodeChar
  simp only
  generalize hn : c.val.toNat = n at hvalid hchar ⊢
  split
  · rw [List.cons_append, List.nil_append, decodeLossy_one, hchar]
    · rw [toNat_ofNat_lt (by omega)]
    · rw [charWidth_eq, toNat_ofNat_lt (by omega), if_pos (by omega)]
  have htail : ∀ m, isTail (UInt8.ofNat (m % 0x40 + 0x80)) = true := fun m => by
    rw [isTail_iff, toNat_ofNat_lt (by omega)]
    omega
  split
  · simp only [List.cons_append, List.nil_append]
    rw [decodeLossy_two, char2, hchar]
    · rw [toNat_ofNat_lt (by omega), toNat_ofNat_lt (by omega)]
      omega
    · rw [charWidth_eq, toNat_ofNat_lt (by omega), if_neg (by omega), if_neg (by omega),
        if_pos (by omega)]
    · apply isSecond_of_toNat (htail _) <;> rw [toNat_ofNat_lt (by omega)] <;> omega
  split
  · simp only [List.cons_append, List.nil_append]
    rw [decodeLossy_three _ _ (htail _), char3, hchar]
    · rw [toNat_ofNat_lt (by omega), toNat_ofNat_lt (by omega), toNat_ofNat_lt (by omega)]
      omega
    · rw [charWidth_eq, toNat_ofNat_lt (by omega), if_neg (by omega), if_neg (by omega),
        if_neg (by omega), if_pos (by omega)]
    · apply isSecond_of_toNat (htail _) <;> rw [toNat_ofNat_lt (by omega)] <;>
        rw [toNat_ofNat_lt (by omega)] <;> omega
  · simp only [List.cons_append, List.nil_append]
    rw [decodeLossy_four _ _ (htail _) (htail _), char4, hchar]
    · rw [toNat_ofNat_lt (by omega), toNat_ofNat_lt (by omega), toNat_ofNat_lt (by omega),
        toNat_ofNat_lt (by omega)]
      omega
    · rw [charWidth_eq, toNat_ofNat_lt (by omega), if_neg (by omega), if_neg (by omega),
        if_neg (by omega), if_neg (by omega), if_pos (by omega)]
    · apply isSecond_of_toNat (htail _) <;> rw [toNat_ofNat_lt (by omega)] <;>
        rw [toNat_ofNat_lt (by omega)] <;> omega

theorem decodeLossy_encode (cs : List Char) : decodeLossy (encode cs) = cs := by
  induction cs with
  | nil => rfl
  | cons c cs ih => rw [encode_cons, decodeLossy_encodeChar, ih]

theorem utf8EncodeChar_low {c : Char} (h : c.val.toNat ≤ 127) :
    String.utf8EncodeChar c = [UInt8.ofNat c.val.toNat] := by
  unfold String.utf8EncodeChar
  simp only
  rw [if_pos h]

theorem utf8EncodeChar_bounds {c : Char} :
    ∀ b ∈ String.utf8EncodeChar c, (127 < c.val.toNat → 128 ≤ b.toNat) ∧ b.toNat < 255 := by
  intro b hb
  have hvalid : c.val.toNat < 0x110000 := by
    rcases c.valid with hv | ⟨-, hv⟩
    · exact Nat.lt_trans hv (by decide)
    · exact hv
  unfold String.utf8EncodeChar at hb
  simp only at hb
  split at hb
  · rw [List.mem_singleton.mp hb, toNat_ofNat_lt (by omega)]; omega
  split at hb
  · simp only [List.mem_cons, List.not_mem_nil, or_false] at hb
    rcases hb with rfl | rfl
    · rw [toNat_ofNat_lt (by omega)]; omega
    · rw [toNat_ofNat_lt (by omega)]; omega
  split at hb
  · simp only [List.mem_cons, List.not_mem_nil, or_false] at hb
    rcases hb with rfl | rfl | rfl
    · rw [toNat_ofNat_lt (by omega)]; omega
    · rw [toNat_ofNat_lt (by omega)]; omega
    · rw [toNat_ofNat_lt (by omega)]; omega
  · simp only [List.mem_cons, List.not_mem_nil, or_false] at hb
    rcases hb with rfl | rfl | rfl | rfl
    · rw [toNat_ofNat_lt (by omega)]; omega
    · rw [toNat_ofNat_lt (by omega)]; omega
    · rw [toNat_ofNat_lt (by omega)]; omega
    · rw [toNat_ofNat_lt (by omega)]; omega

theorem utf8EncodeChar_high {c : Char} (h : 127 < c.val.toNat) :
    ∀ b ∈ String.utf8EncodeChar c, 128 ≤ b.toNat :=
  fun b hb => (utf8EncodeChar_bounds b hb).1 h

theorem encode_ne_255 (cs : List Char) : ∀ b ∈ encode cs, (b != 255) = true := by
  intro b hb
  obtain ⟨c, _, hbyte⟩ := List.mem_flatMap.mp hb
  have hlt := (utf8EncodeChar_bounds b hbyte).2
  rw [bne_iff_ne]
  rintro rfl
  exact absurd hlt (by decide)

theorem mem_encode_low {b : UInt8} (hb : b.toNat < 128) (cs : List Char) :
    b ∈ encode cs ↔ Char.ofNat b.toNat ∈ cs := by
  have hchar : (Char.ofNat b.toNat).val.toNat = b.toNat := by
    rw [Char.ofNat, dif_pos (Or.inl (by omega))]
    rfl
  have hone : ∀ c, b ∈ String.utf8EncodeChar c ↔ Char.ofNat b.toNat = c := fun c => by
    by_cases hlow : c.val.toNat ≤ 127
    · rw [utf8EncodeChar_low hlow, List.mem_singleton]
      constructor
      · rintro rfl
        rw [toNat_ofNat_lt (by omega)]
        exact Char.ofNat_toNat c
      · rintro rfl
        rw [hchar, UInt8.ofNat_toNat]
    · constructor
      · intro hmem
        have := utf8EncodeChar_high (by omega) b hmem
        omega
      · rintro rfl
        omega
  induction cs with
  | nil => simp
  | cons c cs ih => simp only [encode_cons, List.mem_append, hone, ih, List.mem_cons]

theorem encode_injective {cs ds : List Char} (h : encode cs = encode ds) : cs = ds := by
  rw [← decodeLossy_encode cs, h, decodeLossy_encode]

/-- `str::from_utf8`: the text of these bytes, if they are the bytes of a text. -/
def decode (bytes : List UInt8) : Option (List Char) :=
  let cs := decodeLossy bytes
  if encode cs = bytes then some cs else none

theorem decode_eq_some {bytes : List UInt8} {cs : List Char} :
    decode bytes = some cs ↔ encode cs = bytes := by
  simp only [decode]
  constructor
  · intro h
    split at h
    · next heq => exact Option.some.inj h ▸ heq
    · cases h
  · rintro rfl
    rw [if_pos (by rw [decodeLossy_encode]), decodeLossy_encode]

theorem decodeLossy_encode_append (cs : List Char) (rest : List UInt8) :
    decodeLossy (encode cs ++ rest) = cs ++ decodeLossy rest := by
  induction cs with
  | nil => rfl
  | cons c cs ih =>
    rw [encode_cons, List.append_assoc, decodeLossy_encodeChar, ih, List.cons_append]

theorem utf8EncodeChar_eq (c : Char) :
    ∃ b tail, String.utf8EncodeChar c = b :: tail ∧ isTail b = false ∧
      ∀ x ∈ tail, isTail x = true := by
  have hvalid : c.val.toNat < 0x110000 := by
    rcases c.valid with hv | ⟨-, hv⟩
    · exact Nat.lt_trans hv (by decide)
    · exact hv
  have hfirst : ∀ n, n < 256 → ¬ (0x80 ≤ n ∧ n ≤ 0xBF) → isTail (UInt8.ofNat n) = false := by
    intro n hn hout
    rw [← Bool.not_eq_true, isTail_iff, toNat_ofNat_lt hn]
    exact hout
  have htail : ∀ m, isTail (UInt8.ofNat (m % 0x40 + 0x80)) = true := by
    intro m
    rw [isTail_iff, toNat_ofNat_lt (by omega)]
    omega
  unfold String.utf8EncodeChar
  simp only
  split
  · exact ⟨_, _, rfl, hfirst _ (by omega) (by omega), by simp⟩
  have hone : ∀ m, ∀ x ∈ [UInt8.ofNat (m % 0x40 + 0x80)], isTail x = true := fun m =>
    List.forall_mem_singleton.mpr (htail m)
  split
  · exact ⟨_, _, rfl, hfirst _ (by omega) (by omega), hone _⟩
  split
  · exact ⟨_, _, rfl, hfirst _ (by omega) (by omega), List.forall_mem_cons.mpr ⟨htail _, hone _⟩⟩
  · exact ⟨_, _, rfl, hfirst _ (by omega) (by omega),
      List.forall_mem_cons.mpr ⟨htail _, List.forall_mem_cons.mpr ⟨htail _, hone _⟩⟩⟩

theorem prefix_of_encode {s t : List Char} (h : encode t <+: encode s) : t <+: s := by
  obtain ⟨rest, hrest⟩ := h
  have hdecoded := congrArg decodeLossy hrest
  rw [decodeLossy_encode_append, decodeLossy_encode] at hdecoded
  exact ⟨_, hdecoded⟩

theorem encode_within {s t : List Char} {k : Nat} (ht : t ≠ [])
    (h : encode t <+: (encode s).drop k) :
    ∃ u v, s = u ++ t ++ v ∧ (encode u).length = k := by
  induction s generalizing k with
  | nil =>
    rw [encode_nil, List.drop_nil] at h
    have hnil := prefix_of_encode (s := []) h
    exact absurd (List.prefix_nil.mp hnil) ht
  | cons c s ih =>
    obtain ⟨b, tail, hc, -, htail⟩ := utf8EncodeChar_eq c
    cases k with
    | zero =>
      obtain ⟨v, hv⟩ := prefix_of_encode h
      exact ⟨[], v, hv.symm, rfl⟩
    | succ k =>
      rw [encode_cons, hc, List.cons_append, List.drop_succ_cons] at h
      by_cases hk : k < tail.length
      · -- a tail byte cannot be the first byte of `t`
        obtain ⟨d, t, rfl⟩ := List.exists_cons_of_ne_nil ht
        obtain ⟨b', tail', hd, hfirst, -⟩ := utf8EncodeChar_eq d
        rw [encode_cons, hd, List.cons_append, List.drop_append_of_le_length (Nat.le_of_lt hk),
          List.drop_eq_getElem_cons hk, List.cons_append] at h
        have hbyte := (List.cons_prefix_cons.mp h).1
        rw [hbyte, htail _ (List.getElem_mem hk)] at hfirst
        cases hfirst
      · rw [List.drop_append, List.drop_eq_nil_of_le (Nat.not_lt.mp hk), List.nil_append] at h
        obtain ⟨u, v, hs, hu⟩ := ih h
        refine ⟨c :: u, v, by rw [hs, List.cons_append, List.cons_append], ?_⟩
        rw [encode_cons, hc, List.length_append, List.length_cons, hu]
        omega

end Utf8
