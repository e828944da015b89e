import Airl.Library.Text
import Airl.Stdlib.Strings

/-! # Strings and their characters

The byte loops say what they say of characters: bytes of one text begin within another only where a
character begins, and the bytes below 128 are the ASCII characters.
-/

namespace Airl.Stdlib

open Airl.Json (Bytes Host byteAt byteToInt bytesFromString bytesToString bytesFromInt8 vmHost)

theorem byteAt_natCast {src : Bytes} {i : Nat} (h : i < src.length) :
    byteAt src i = .ok src[i] := by
  rw [byteAt, if_neg (by omega), Int.toNat_natCast, List.getElem?_eq_getElem h]

/-- The byte comparison decides whether the rest of the needle stands at the offset. -/
theorem bytesMatchAt_eq {haystack needle : Bytes} {offset : Nat}
    (h : offset + needle.length ≤ haystack.length) (i : Nat) :
    bytesMatchAt haystack needle offset needle.length i =
      .ok (decide (needle.drop i <+: haystack.drop (offset + i))) := by
  rw [bytesMatchAt]
  split
  · next hi =>
    rw [List.drop_of_length_le hi, decide_eq_true List.nil_prefix]
    rfl
  · next hi =>
    have hneedle : i < needle.length := Nat.lt_of_not_le hi
    have hhay : offset + i < haystack.length := by omega
    have ih := bytesMatchAt_eq h (i + 1)
    rw [← Int.natCast_add, byteAt_natCast hhay, byteAt_natCast hneedle,
      List.drop_eq_getElem_cons hneedle, List.drop_eq_getElem_cons hhay]
    simp only [List.cons_prefix_cons]
    show (if haystack[offset + i] = needle[i] then _ else _) = _
    split
    · next hbyte => rw [ih, hbyte, Nat.add_assoc]; simp
    · next hbyte =>
      rw [decide_eq_false (fun hp => hbyte hp.1.symm)]
      rfl
termination_by needle.length - i

theorem bytesMatchAt_zero {haystack needle : Bytes} {offset : Nat}
    (h : offset + needle.length ≤ haystack.length) :
    bytesMatchAt haystack needle offset needle.length 0 =
      .ok (decide (needle <+: haystack.drop offset)) := bytesMatchAt_eq h 0

/-- The scan stops at the first position where the needle stands. -/
theorem bytesScan_step {haystack needle : Bytes} {limit pos : Nat}
    (h : limit + needle.length ≤ haystack.length) (hpos : pos ≤ limit) :
    bytesScan haystack needle haystack.length needle.length pos limit =
      if needle <+: haystack.drop pos then .ok (pos : Int)
      else bytesScan haystack needle haystack.length needle.length (pos + 1) limit := by
  rw [bytesScan, if_neg (Nat.not_lt.mpr hpos), bytesMatchAt_zero (by omega)]
  by_cases hmatch : needle <+: haystack.drop pos
  · rw [decide_eq_true hmatch, if_pos hmatch]
    rfl
  · rw [decide_eq_false hmatch, if_neg hmatch]
    rfl

/-- The scan answers -1 if the needle stands nowhere up to the limit, else the first position. -/
theorem bytesScan_eq {haystack needle : Bytes} {limit : Nat}
    (h : limit + needle.length ≤ haystack.length) (pos : Nat) :
    (bytesScan haystack needle haystack.length needle.length pos limit = .ok (-1) ∧
        ∀ k, pos ≤ k → k ≤ limit → ¬ needle <+: haystack.drop k) ∨
      ∃ k : Nat, bytesScan haystack needle haystack.length needle.length pos limit = .ok k ∧
        k ≤ limit ∧ needle <+: haystack.drop k ∧
          ∀ j, pos ≤ j → j < k → ¬ needle <+: haystack.drop j := by
  by_cases hpos : pos ≤ limit
  · rw [bytesScan_step h hpos]
    by_cases hmatch : needle <+: haystack.drop pos
    · rw [if_pos hmatch]
      exact Or.inr ⟨pos, rfl, hpos, hmatch, fun j hj hlt => by omega⟩
    · rw [if_neg hmatch]
      rcases bytesScan_eq h (pos + 1) with ⟨hscan, hnone⟩ | ⟨k, hscan, hk, hfound, hfirst⟩
      · refine Or.inl ⟨hscan, ?_⟩
        intro k hk hlimit
        rcases Nat.eq_or_lt_of_le hk with rfl | hlt
        · exact hmatch
        · exact hnone k hlt hlimit
      · refine Or.inr ⟨k, hscan, hk, hfound, ?_⟩
        intro j hj hlt
        rcases Nat.eq_or_lt_of_le hj with rfl | hnext
        · exact hmatch
        · exact hfirst j hnext hlt
  · rw [bytesScan, if_pos (Nat.lt_of_not_le hpos)]
    exact Or.inl ⟨rfl, fun k hk hlimit => absurd (Nat.le_trans hk hlimit) hpos⟩
termination_by limit + 1 - pos

section Occurrences

variable {s t : String}

/-- The first occurrence of `t` in `s`: what stands before it and what follows. -/
def FirstAt (s t u v : List Char) : Prop :=
  s = u ++ t ++ v ∧ ∀ u' v', s = u' ++ t ++ v' → u.length ≤ u'.length

theorem length_encode (u : List Char) : (Utf8.encode u).length = Text.byteLength u := by
  induction u with
  | nil => rfl
  | cons c u ih =>
    rw [Utf8.encode_cons, List.length_append, String.length_utf8EncodeChar, ih,
      Text.byteLength_cons]

/-- A byte offset at a character boundary splits the encoding there. -/
theorem encode_at {s t u v : List Char} (h : s = u ++ t ++ v) :
    (Utf8.encode s).drop (Text.byteLength u) = Utf8.encode t ++ Utf8.encode v := by
  rw [h, Utf8.encode_append, Utf8.encode_append, List.append_assoc, ← length_encode,
    List.drop_left]

theorem byteLength_at {s t u v : List Char} (h : s = u ++ t ++ v) :
    Text.byteLength s = Text.byteLength u + Text.byteLength t + Text.byteLength v := by
  rw [h, Text.byteLength_append, Text.byteLength_append]

/-- Of two places of one text the earlier in characters is the earlier in bytes. -/
theorem byteLength_lt {s t u v u' v' : List Char} (h : s = u ++ t ++ v) (h' : s = u' ++ t ++ v')
    (hlt : u'.length < u.length) : Text.byteLength u' < Text.byteLength u := by
  have hprefix : u <+: s := ⟨t ++ v, by rw [h, List.append_assoc]⟩
  have hprefix' : u' <+: s := ⟨t ++ v', by rw [h', List.append_assoc]⟩
  obtain ⟨w, rfl⟩ := List.prefix_of_prefix_length_le hprefix' hprefix (Nat.le_of_lt hlt)
  rw [List.length_append] at hlt
  have hbytes := Text.length_le_byteLength w
  rw [Text.byteLength_append]
  omega

theorem length_bytes (s : String) : (bytesFromString s).length = Text.byteLength s.toList :=
  length_encode s.toList

/-- `starts-with` decides the prefix relation on characters. -/
theorem startsWith_eq (s t : String) :
    startsWith s t = .ok (decide (t.toList <+: s.toList)) := by
  have hs := length_bytes s
  have ht := length_bytes t
  rw [startsWith]
  split
  · next hlong =>
    rw [decide_eq_false]
    · rfl
    · rintro ⟨v, hv⟩
      rw [hs, ht, ← hv, Text.byteLength_append] at hlong
      omega
  · next hshort =>
    rw [bytesMatchAt_zero (by omega), List.drop_zero]
    congr 1
    apply decide_eq_decide.mpr
    constructor
    · exact Utf8.prefix_of_encode
    · rintro ⟨v, hv⟩
      exact ⟨Utf8.encode v, by rw [bytesFromString, bytesFromString, ← hv, Utf8.encode_append]⟩

/-- `ends-with` decides the suffix relation on characters. -/
theorem endsWith_eq (s t : String) :
    endsWith s t = .ok (decide (t.toList <:+ s.toList)) := by
  have hs := length_bytes s
  have ht := length_bytes t
  rw [endsWith]
  split
  · next hlong =>
    rw [decide_eq_false]
    · rfl
    · rintro ⟨u, hu⟩
      rw [hs, ht, ← hu, Text.byteLength_append] at hlong
      omega
  · next hshort =>
    rw [bytesMatchAt_zero (by omega), hs, ht]
    congr 1
    apply decide_eq_decide.mpr
    constructor
    · intro h
      by_cases hempty : t.toList = []
      · rw [hempty]
        exact List.nil_suffix
      · -- the place leaves no bytes behind the suffix
        obtain ⟨u, v, hsplit, hu⟩ := Utf8.encode_within hempty h
        have hlength := byteLength_at hsplit
        rw [length_encode] at hu
        have hv : v = [] := Text.byteLength_eq_zero (by omega)
        exact ⟨u, by rw [hsplit, hv, List.append_nil]⟩
    · rintro ⟨u, hu⟩
      have hsplit : s.toList = u ++ t.toList ++ [] := by rw [List.append_nil, hu]
      have hlength := byteLength_at hsplit
      rw [Text.byteLength_nil] at hlength
      have hplace : Text.byteLength s.toList - Text.byteLength t.toList = Text.byteLength u := by
        omega
      rw [hplace]
      exact ⟨Utf8.encode [], (encode_at hsplit).symm⟩

/-- Past the checks for an empty and for a long needle `index-of` is the scan. -/
theorem indexOf_scan (hempty : (bytesFromString t).length ≠ 0)
    (hlong : ¬ (bytesFromString t).length > (bytesFromString s).length) :
    indexOf s t = bytesScan (bytesFromString s) (bytesFromString t) (bytesFromString s).length
      (bytesFromString t).length 0 ((bytesFromString s).length - (bytesFromString t).length) :=
  (if_neg hempty).trans (if_neg hlong)

/-- The number of bytes before the first occurrence, if there is one. -/
theorem indexOf_cases (s t : String) :
    (indexOf s t = .ok (-1) ∧ ¬ ∃ u v, s.toList = u ++ t.toList ++ v) ∨
      ∃ u v, FirstAt s.toList t.toList u v ∧ indexOf s t = .ok (Text.byteLength u : Nat) := by
  have hs := length_bytes s
  have ht := length_bytes t
  by_cases hempty : (bytesFromString t).length = 0
  · refine Or.inr ⟨[], s.toList, ⟨?_, fun _ _ _ => Nat.zero_le _⟩, if_pos hempty⟩
    rw [Text.byteLength_eq_zero (ht.symm.trans hempty)]
    rfl
  have hne : t.toList ≠ [] := by
    intro hnil
    rw [ht, hnil] at hempty
    exact hempty rfl
  by_cases hlong : (bytesFromString t).length > (bytesFromString s).length
  · refine Or.inl ⟨(if_neg hempty).trans (if_pos hlong), ?_⟩
    rintro ⟨u, v, hsplit⟩
    have hlength := byteLength_at hsplit
    omega
  have hindex := indexOf_scan hempty hlong
  have hlimit : (bytesFromString s).length - (bytesFromString t).length +
      (bytesFromString t).length ≤ (bytesFromString s).length := by omega
  rw [hindex]
  rcases bytesScan_eq hlimit 0 with ⟨hscan, hnone⟩ | ⟨k, hscan, -, hfound, hfirst⟩
  · refine Or.inl ⟨hscan, ?_⟩
    rintro ⟨u, v, hsplit⟩
    have hlength := byteLength_at hsplit
    apply hnone (Text.byteLength u) (Nat.zero_le _) (by omega)
    exact ⟨Utf8.encode v, (encode_at hsplit).symm⟩
  · obtain ⟨u, v, hsplit, hu⟩ := Utf8.encode_within hne hfound
    rw [length_encode] at hu
    refine Or.inr ⟨u, v, ⟨hsplit, ?_⟩, by rw [hscan, hu]⟩
    intro u' v' hsplit'
    apply Nat.le_of_not_lt
    intro hlt
    apply hfirst (Text.byteLength u') (Nat.zero_le _)
    · rw [← hu]
      exact byteLength_lt hsplit hsplit' hlt
    · exact ⟨Utf8.encode v', (encode_at hsplit').symm⟩

end Occurrences

section Loops

variable {H : Host} {frames : Nat}

/-- The byte loop answers the mapped bytes just if there is a frame for each. -/
theorem bytesLoop_eq (f : Int64 → Int64) (src : Bytes) {i : Nat} (hi : i ≤ src.length) :
    bytesLoop H f frames src i src.length =
      if src.length - i + 1 ≤ frames then
        .ok ((src.drop i).map fun b => bytesFromInt8 (f (byteToInt b)))
      else H.overflow := by
  induction frames generalizing i with
  | zero => rfl
  | succ frames ih =>
    rw [bytesLoop]
    rcases Nat.eq_or_lt_of_le hi with rfl | hlt
    · rw [if_pos rfl, if_pos (by omega), List.drop_length]
      rfl
    · rw [if_neg (Nat.ne_of_lt hlt), byteAt_natCast hlt, List.drop_eq_getElem_cons hlt]
      cases frames with
      | zero =>
        rw [if_neg (by omega)]
        rfl
      | succ frames =>
        have hneed : src.length - (i + 1) + 1 ≤ frames + 1 ↔
            src.length - i + 1 ≤ frames + 1 + 1 := by
          omega
        have hrest := ih hlt
        simp only [hneed] at hrest
        show (bytesLoop H f (frames + 1) src (i + 1) src.length >>= fun rest => pure
            (_ :: rest)) = _
        rw [hrest]
        split
        · rfl
        · rfl

end Loops

/-- A map of bytes that follows a map of characters below 128 maps the encoding. -/
theorem flatten_bytes_eq {f : Int64 → Int64} {g : Char → Char}
    (hlow : ∀ n < 128, bytesFromInt8 (f (byteToInt (UInt8.ofNat n))) =
      Utf8.encode [g (Char.ofNat n)])
    (hhigh : ∀ b : UInt8, 128 ≤ b.toNat → bytesFromInt8 (f (byteToInt b)) = [b])
    (hchar : ∀ c : Char, 127 < c.val.toNat → g c = c) (s : List Char) :
    ((Utf8.encode s).map fun b => bytesFromInt8 (f (byteToInt b))).flatten =
      Utf8.encode (s.map g) := by
  induction s with
  | nil => rfl
  | cons c s ih =>
    have hone : ((String.utf8EncodeChar c).map fun b => bytesFromInt8 (f (byteToInt b))).flatten =
        Utf8.encode [g c] := by
      by_cases hc : c.val.toNat ≤ 127
      · have h := hlow c.val.toNat (by omega)
        rw [show Char.ofNat c.val.toNat = c from Char.ofNat_toNat c] at h
        rw [Utf8.utf8EncodeChar_low hc, List.map_singleton, List.flatten_singleton, h]
      · have hbytes := Utf8.utf8EncodeChar_high (c := c) (by omega)
        have hsame : (String.utf8EncodeChar c).map (fun b => bytesFromInt8 (f (byteToInt b))) =
            (String.utf8EncodeChar c).map fun b => [b] :=
          List.map_congr_left fun b hb => hhigh b (hbytes b hb)
        rw [hsame, hchar c (by omega), Utf8.encode_cons, Utf8.encode_nil, List.append_nil,
          ← List.flatMap_def, List.flatMap_singleton']
    rw [Utf8.encode_cons, List.map_append, List.flatten_append, hone, ih, List.map_cons,
      ← Utf8.encode_append]
    rfl

theorem length_flatten_bytes (f : Int64 → Int64) (src : Bytes) :
    (src.map fun b => bytesFromInt8 (f (byteToInt b))).flatten.length = src.length := by
  induction src with
  | nil => rfl
  | cons b src ih =>
    rw [List.map_cons, List.flatten_cons, List.length_append, ih, List.length_cons, Nat.add_comm]
    rfl

/-- Reading back the bytes of an encoded text gives the text. -/
theorem bytesToString_eq {buf before behind : Bytes} {u : List Char}
    (h : buf = before ++ Utf8.encode u ++ behind) :
    bytesToString buf before.length (Utf8.encode u).length = String.ofList u := by
  have hlength := congrArg List.length h
  rw [List.length_append, List.length_append] at hlength
  rw [bytesToString, Int.toNat_natCast, Int.toNat_natCast, if_neg (by omega), h,
    List.append_assoc, List.drop_left, List.take_left, Utf8.decodeLossy_encode]

theorem bytesToString_all {buf : Bytes} {u : List Char} {n : Nat} (h : buf = Utf8.encode u)
    (hn : n = buf.length) : bytesToString buf 0 n = String.ofList u := by
  rw [hn, h]
  exact @bytesToString_eq (Utf8.encode u) [] [] u (by simp)

theorem toLowerByte_low :
    ∀ n : Fin 128, bytesFromInt8 (toLowerByte (byteToInt (UInt8.ofNat n.val))) =
      Utf8.encode [(Char.ofNat n.val).toLower] := by decide

theorem toUpperByte_low :
    ∀ n : Fin 128, bytesFromInt8 (toUpperByte (byteToInt (UInt8.ofNat n.val))) =
      Utf8.encode [(Char.ofNat n.val).toUpper] := by decide

theorem toLowerByte_high : ∀ b : UInt8, 128 ≤ b.toNat →
    bytesFromInt8 (toLowerByte (byteToInt b)) = [b] := by
  apply Json.forall_byte
  decide +kernel

theorem toUpperByte_high : ∀ b : UInt8, 128 ≤ b.toNat →
    bytesFromInt8 (toUpperByte (byteToInt b)) = [b] := by
  apply Json.forall_byte
  decide +kernel

theorem toLower_high (c : Char) (hc : 127 < c.val.toNat) : c.toLower = c := by
  apply dif_neg
  intro h
  exact absurd (Nat.lt_of_lt_of_le hc (UInt32.le_iff_toNat_le.mp h.2)) (by decide)

theorem toUpper_high (c : Char) (hc : 127 < c.val.toNat) : c.toUpper = c := by
  apply dif_neg
  intro h
  exact absurd (Nat.lt_of_lt_of_le hc (UInt32.le_iff_toNat_le.mp h.2)) (by decide)

section Case

variable (H : Host) (frames : Nat)

/-- What `to-lower` and `to-upper` do on `frames` frames, where the loop changes the characters as
`g` does. -/
theorem case_eq {f : Int64 → Int64} {g : Char → Char} (s : String)
    (hbytes : ((Utf8.encode s.toList).map fun b => bytesFromInt8 (f (byteToInt b))).flatten =
      Utf8.encode (s.toList.map g)) :
    (H.enter frames fun frames => do
      let parts ← bytesLoop H f frames (bytesFromString s) 0 (bytesFromString s).length
      return bytesToString (bytesConcatAll parts) 0 (bytesFromString s).length) =
      if Text.byteLength s.toList + 2 ≤ frames then .ok (String.ofList (s.toList.map g))
      else H.overflow := by
  cases frames with
  | zero => rfl
  | succ frames =>
    have hneed : (bytesFromString s).length - 0 + 1 ≤ frames ↔
        Text.byteLength s.toList + 2 ≤ frames + 1 := by
      rw [length_bytes]
      omega
    have htext := bytesToString_all hbytes (length_flatten_bytes f _).symm
    show (bytesLoop H f frames (bytesFromString s) 0 (bytesFromString s).length >>= _) = _
    rw [bytesLoop_eq f _ (Nat.zero_le _), List.drop_zero]
    simp only [hneed]
    split
    · exact congrArg Except.ok htext
    · rfl

/-- `to-lower` maps the characters, with a frame for each byte and two more. -/
theorem toLower_eq (s : String) : toLower H frames s =
    if Text.byteLength s.toList + 2 ≤ frames then .ok (String.ofList (s.toList.map Char.toLower))
    else H.overflow :=
  case_eq H frames s (flatten_bytes_eq (fun n hn => toLowerByte_low ⟨n, hn⟩) toLowerByte_high
    toLower_high s.toList)

/-- `to-upper` maps the characters, with a frame for each byte and two more. -/
theorem toUpper_eq (s : String) : toUpper H frames s =
    if Text.byteLength s.toList + 2 ≤ frames then .ok (String.ofList (s.toList.map Char.toUpper))
    else H.overflow :=
  case_eq H frames s (flatten_bytes_eq (fun n hn => toUpperByte_low ⟨n, hn⟩) toUpperByte_high
    toUpper_high s.toList)

end Case

/-- Space, tab, newline and carriage return. -/
def isSpace (c : Char) : Bool := c == ' ' || (c == '\t' || (c == '\n' || c == '\r'))

theorem isSpace_iff (c : Char) : isSpace c = true ↔ c = ' ' ∨ c = '\t' ∨ c = '\n' ∨ c = '\r' := by
  simp [isSpace]

theorem utf8EncodeChar_space {c : Char} (h : isSpace c = true) :
    ∃ b, String.utf8EncodeChar c = [b] ∧ isWhitespaceByte b = true := by
  rcases (isSpace_iff c).mp h with rfl | rfl | rfl | rfl
  · exact ⟨32, by decide, by decide⟩
  · exact ⟨9, by decide, by decide⟩
  · exact ⟨10, by decide, by decide⟩
  · exact ⟨13, by decide, by decide⟩

theorem utf8EncodeChar_nonspace {c : Char} (h : isSpace c = false) :
    ∀ b ∈ String.utf8EncodeChar c, isWhitespaceByte b = false := by
  intro b hb
  rw [← Bool.not_eq_true]
  intro hspace
  have hmem : b ∈ Utf8.encode [c] := by
    rw [Utf8.encode_cons, Utf8.encode_nil, List.append_nil]
    exact hb
  have hchar : b.toNat < 128 → c = Char.ofNat b.toNat := fun hlow =>
    (List.mem_singleton.mp ((Utf8.mem_encode_low hlow [c]).mp hmem)).symm
  have hcases : b = 32 ∨ b = 9 ∨ b = 10 ∨ b = 13 := by
    simpa [isWhitespaceByte] using hspace
  rw [← Bool.not_eq_true, isSpace_iff] at h
  apply h
  rcases hcases with rfl | rfl | rfl | rfl
  · exact Or.inl (hchar (by decide))
  · exact Or.inr (Or.inl (hchar (by decide)))
  · exact Or.inr (Or.inr (Or.inl (hchar (by decide))))
  · exact Or.inr (Or.inr (Or.inr (hchar (by decide))))

/-- Leading blanks are the same counted in bytes and in characters. -/
theorem takeWhile_encode (s : List Char) :
    (Utf8.encode s).takeWhile isWhitespaceByte = Utf8.encode (s.takeWhile isSpace) := by
  induction s with
  | nil => rfl
  | cons c s ih =>
    cases hc : isSpace c with
    | true =>
      obtain ⟨b, hencode, hb⟩ := utf8EncodeChar_space hc
      rw [Utf8.encode_cons, hencode, List.singleton_append, List.takeWhile_cons_of_pos hb, ih,
        List.takeWhile_cons_of_pos hc, Utf8.encode_cons, hencode, List.singleton_append]
    | false =>
      obtain ⟨b, tail, hencode, -, -⟩ := Utf8.utf8EncodeChar_eq c
      have hb := utf8EncodeChar_nonspace hc b (by rw [hencode]; exact List.mem_cons_self)
      rw [Utf8.encode_cons, hencode, List.cons_append, List.takeWhile_cons_of_neg (by simp [hb]),
        List.takeWhile_cons_of_neg (by simp [hc]), Utf8.encode_nil]

theorem rdropWhile_encode (s : List Char) :
    (Utf8.encode s).rdropWhile isWhitespaceByte = Utf8.encode (s.rdropWhile isSpace) := by
  induction s using List.reverseRecOn with
  | nil => rfl
  | append_singleton s c ih =>
    have hlast : Utf8.encode (s ++ [c]) = Utf8.encode s ++ String.utf8EncodeChar c := by
      rw [Utf8.encode_append, Utf8.encode_cons, Utf8.encode_nil, List.append_nil]
    cases hc : isSpace c with
    | true =>
      obtain ⟨b, hencode, hb⟩ := utf8EncodeChar_space hc
      rw [hlast, hencode, List.rdropWhile_concat_pos _ _ _ hb, ih,
        List.rdropWhile_concat_pos _ _ _ hc]
    | false =>
      have hne : Utf8.encode (s ++ [c]) ≠ [] := by
        obtain ⟨b, tail, hencode, -, -⟩ := Utf8.utf8EncodeChar_eq c
        rw [hlast, hencode]
        simp
      rw [List.rdropWhile_concat_neg _ _ _ (by simp [hc]), List.rdropWhile_eq_self_iff]
      intro hl
      have hmem : (Utf8.encode (s ++ [c])).getLast hl ∈ String.utf8EncodeChar c := by
        obtain ⟨b, tail, hencode, -, -⟩ := Utf8.utf8EncodeChar_eq c
        have hnil : String.utf8EncodeChar c ≠ [] := by rw [hencode]; simp
        simp only [hlast, List.getLast_append_of_ne_nil _ hnil]
        exact List.getLast_mem hnil
      simp [utf8EncodeChar_nonspace hc _ hmem]

/-- The left scan stops behind the leading blanks. -/
theorem trimLeftPos_eq (src : Bytes) (i : Nat) :
    trimLeftPos src i src.length =
      .ok (i + ((src.drop i).takeWhile isWhitespaceByte).length) := by
  rw [trimLeftPos]
  split
  · next hi => rw [List.drop_of_length_le hi]; rfl
  · next hi =>
    have hlt : i < src.length := Nat.lt_of_not_le hi
    have ih := trimLeftPos_eq src (i + 1)
    rw [byteAt_natCast hlt, List.drop_eq_getElem_cons hlt]
    show (if isWhitespaceByte src[i] = true then _ else _) = _
    split
    · next hb =>
      rw [ih, List.takeWhile_cons_of_pos hb, List.length_cons, Nat.add_assoc, Nat.add_comm 1]
    · next hb =>
      rw [List.takeWhile_cons_of_neg hb]
      rfl
termination_by src.length - i

/-- The right scan stops before the trailing blanks. -/
theorem trimRightPos_eq {src : Bytes} {n : Nat} (h : n ≤ src.length) :
    trimRightPos src n = .ok ((src.take n).rdropWhile isWhitespaceByte).length := by
  induction n with
  | zero => rfl
  | succ n ih =>
    rw [trimRightPos, byteAt_natCast h, List.take_succ_eq_append_getElem h]
    show (if isWhitespaceByte src[n] = true then _ else _) = _
    split
    · next hb => rw [ih (Nat.le_of_lt h), List.rdropWhile_concat_pos _ _ _ hb]
    · next hb =>
      rw [List.rdropWhile_concat_neg _ _ _ hb, List.length_append, List.length_take,
        Nat.min_eq_left (Nat.le_of_lt h)]
      rfl

/-- Without the trailing run, the leading run and what trimming leaves. -/
theorem rdropWhile_eq {p : Char → Bool} {s : List Char} (h : Text.trimMatches p s ≠ []) :
    s.rdropWhile p = s.takeWhile p ++ Text.trimMatches p s := by
  have hsplit : (s.takeWhile p ++ s.dropWhile p).rdropWhile p =
      s.takeWhile p ++ (s.dropWhile p).rdropWhile p := by
    rw [Text.trimMatches] at h
    rw [List.rdropWhile, List.reverse_append, List.dropWhile_append, if_neg]
    · rw [List.reverse_append, List.reverse_reverse]
      rfl
    · intro hempty
      apply h
      rw [List.rdropWhile, List.isEmpty_iff.mp hempty, List.reverse_nil]
  rw [List.takeWhile_append_dropWhile] at hsplit
  exact hsplit

theorem takeWhile_eq_self {p : Char → Bool} {s : List Char} (h : Text.trimMatches p s = []) :
    s.takeWhile p = s := by
  have hall := List.rdropWhile_eq_nil_iff.mp h
  have hnil : s.dropWhile p = [] := by
    by_contra hne
    exact Bool.eq_false_iff.mp (List.head_dropWhile_not p hne) (hall _ (List.head_mem hne))
  have hjoin := @List.takeWhile_append_dropWhile _ p s
  rwa [hnil, List.append_nil] at hjoin

/-- `trim` takes the blanks off both ends. -/
theorem trim_eq (s : String) :
    trim s = .ok (String.ofList (Text.trimMatches isSpace s.toList)) := by
  have hleft : trimLeftPos (bytesFromString s) 0 (bytesFromString s).length =
      .ok (Text.byteLength (s.toList.takeWhile isSpace)) := by
    rw [trimLeftPos_eq, List.drop_zero, bytesFromString, takeWhile_encode, length_encode,
      Nat.zero_add]
  have hright : trimRightPos (bytesFromString s) (bytesFromString s).length =
      .ok (Text.byteLength (s.toList.rdropWhile isSpace)) := by
    rw [trimRightPos_eq (Nat.le_refl _), List.take_length, bytesFromString, rdropWhile_encode,
      length_encode]
  have hsuffix := @List.rdropWhile_append_rtakeWhile _ isSpace s.toList
  rw [trim]
  simp only [hleft, hright, bind, Except.bind]
  by_cases h : Text.trimMatches isSpace s.toList = []
  · have hle : Text.byteLength (s.toList.rdropWhile isSpace) ≤
        Text.byteLength (s.toList.takeWhile isSpace) := by
      rw [takeWhile_eq_self h]
      have hbytes := congrArg Text.byteLength hsuffix
      rw [Text.byteLength_append] at hbytes
      omega
    rw [if_pos hle, h]
    rfl
  · have hpos : 0 < Text.byteLength (Text.trimMatches isSpace s.toList) := by
      have := Text.length_le_byteLength (Text.trimMatches isSpace s.toList)
      have := List.length_pos_iff.mpr h
      omega
    have hbytes : bytesFromString s = Utf8.encode (s.toList.takeWhile isSpace) ++
        Utf8.encode (Text.trimMatches isSpace s.toList) ++
          Utf8.encode (s.toList.rtakeWhile isSpace) := by
      rw [← Utf8.encode_append, ← rdropWhile_eq h, ← Utf8.encode_append, hsuffix]
      rfl
    rw [rdropWhile_eq h, Text.byteLength_append, if_neg (by omega), Int.natCast_add,
      Int.add_comm, Int.add_sub_cancel]
    have htext := bytesToString_eq hbytes
    rw [length_encode, length_encode] at htext
    rw [htext]
    rfl

theorem append_iff {s t u v : String} :
    s = u ++ t ++ v ↔ s.toList = u.toList ++ t.toList ++ v.toList := by
  rw [← String.toList_inj, String.toList_append, String.toList_append]

theorem occurs_iff {s t : String} :
    (∃ u v, s.toList = u ++ t.toList ++ v) ↔ ∃ u v, s = u ++ t ++ v := by
  constructor
  · rintro ⟨u, v, h⟩
    refine ⟨String.ofList u, String.ofList v, append_iff.mpr ?_⟩
    rw [String.toList_ofList, String.toList_ofList, h]
  · rintro ⟨u, v, h⟩
    exact ⟨u.toList, v.toList, append_iff.mp h⟩

theorem prefix_iff {s t : String} : t.toList <+: s.toList ↔ ∃ v, s = t ++ v := by
  constructor
  · rintro ⟨v, h⟩
    refine ⟨String.ofList v, String.toList_inj.mp ?_⟩
    rw [String.toList_append, String.toList_ofList, h]
  · rintro ⟨v, rfl⟩
    exact ⟨v.toList, String.toList_append.symm⟩

theorem suffix_iff {s t : String} : t.toList <:+ s.toList ↔ ∃ u, s = u ++ t := by
  constructor
  · rintro ⟨u, h⟩
    refine ⟨String.ofList u, String.toList_inj.mp ?_⟩
    rw [String.toList_append, String.toList_ofList, h]
  · rintro ⟨u, rfl⟩
    exact ⟨u.toList, String.toList_append.symm⟩

/-- `index-of` answers, and -1 just where the text does not occur. -/
theorem indexOf_iff (s t : String) :
    ∃ i, indexOf s t = .ok i ∧ (i = -1 ↔ ¬ ∃ u v, s = u ++ t ++ v) := by
  rw [← occurs_iff]
  rcases indexOf_cases s t with ⟨hindex, hnone⟩ | ⟨u, v, hfirst, hindex⟩
  · exact ⟨-1, hindex, iff_of_true rfl hnone⟩
  · refine ⟨_, hindex, iff_of_false (by omega) ?_⟩
    intro hnone
    exact hnone ⟨u, v, hfirst.1⟩

/-- The byte loops compute what their names say of characters, and every access is in range. The
case functions take a frame for every byte and two more, and with fewer the call stack overflows. -/
theorem strings_refine (H : Host) (frames : Nat) (s t : String) :
    (∃ b, contains s t = .ok b ∧ (b = true ↔ ∃ u v, s = u ++ t ++ v)) ∧
    (∃ b, startsWith s t = .ok b ∧ (b = true ↔ ∃ v, s = t ++ v)) ∧
    (∃ b, endsWith s t = .ok b ∧ (b = true ↔ ∃ u, s = u ++ t)) ∧
    (∃ i, indexOf s t = .ok i ∧ (i = -1 ↔ ¬ ∃ u v, s = u ++ t ++ v)) ∧
    (∃ r, trim s = .ok r ∧ r.toList = Text.trimMatches isSpace s.toList) ∧
    toLower H frames s = (if Text.byteLength s.toList + 2 ≤ frames then
      .ok (String.ofList (s.toList.map Char.toLower)) else H.overflow) ∧
    toUpper H frames s = (if Text.byteLength s.toList + 2 ≤ frames then
      .ok (String.ofList (s.toList.map Char.toUpper)) else H.overflow) := by
  obtain ⟨i, hindex, hi⟩ := indexOf_iff s t
  refine ⟨⟨!(i == -1), ?_, ?_⟩, ⟨_, startsWith_eq s t, ?_⟩, ⟨_, endsWith_eq s t, ?_⟩,
    ⟨i, hindex, hi⟩, ⟨_, trim_eq s, String.toList_ofList⟩, toLower_eq H frames s,
    toUpper_eq H frames s⟩
  · rw [contains, hindex]
    rfl
  · rw [Bool.not_eq_true', beq_eq_false_iff_ne, Ne, hi, not_not]
  · rw [decide_eq_true_iff, prefix_iff]
  · rw [decide_eq_true_iff, suffix_iff]

theorem byteLength_replicate (n : Nat) : Text.byteLength (List.replicate n 'A') = n := by
  induction n with
  | zero => rfl
  | succ n ih =>
    rw [List.replicate_succ, Text.byteLength_cons, ih, Nat.add_comm]
    rfl

/-- Ten thousand letters, from the top of a program. -/
theorem toLower_overflows : toLower vmHost 9999 (String.ofList (List.replicate 10000 'A')) =
    .error (.error (.stackOverflow 10000)) := by
  rw [toLower_eq, String.toList_ofList, byteLength_replicate, if_neg (by decide)]
  rfl

theorem toLower_not_total : ¬ ∀ s, ∃ r, toLower vmHost 9999 s = .ok r ∧
    r.toList = s.toList.map Char.toLower := by
  intro h
  obtain ⟨r, hr, -⟩ := h (String.ofList (List.replicate 10000 'A'))
  rw [toLower_overflows] at hr
  cases hr

end Airl.Stdlib
