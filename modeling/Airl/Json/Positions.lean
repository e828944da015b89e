import Airl.Json.Scan

/-! # Positions are rests of the text

The parser of the source, called at the position where a rest of the text begins,
answers what `Scan` answers on that rest. So no lookup of a byte at a position is
out of range and no clause on a position fails, except where `Scan` says so.
-/

namespace Airl.Json

variable (H : Host) {src r : Bytes} {frames : Nat} {α : Type}

/-- The position at which the rest `r` of `src` begins. -/
def posOf (src r : Bytes) : Int := src.length - r.length

theorem posOf_nonneg (h : r <:+ src) : 0 ≤ posOf src r := by
  have := h.length_le
  simp only [posOf]
  omega

theorem posOf_nil : posOf src [] = src.length := by
  simp [posOf]

theorem posOf_self : posOf src src = 0 := by
  simp [posOf]

theorem posOf_cons (b : UInt8) : posOf src (b :: r) + 1 = posOf src r := by
  simp only [posOf, List.length_cons]
  omega

theorem posOf_drop (n : Nat) (h : n ≤ r.length) : posOf src r + n = posOf src (r.drop n) := by
  simp only [posOf, List.length_drop]
  omega

/-- The position is the end just if nothing is left. -/
theorem posOf_ge_iff : posOf src r ≥ src.length ↔ r = [] := by
  cases r with
  | nil => simp [posOf]
  | cons b r =>
    simp only [posOf, List.length_cons, ge_iff_le, reduceCtorEq, iff_false]
    omega

/-- What is left of the text bounds the loops. -/
theorem left_eq : ((src.length : Int) - posOf src r).toNat = r.length := by
  simp only [posOf]
  omega

theorem suffix_tail {b : UInt8} (h : b :: r <:+ src) : r <:+ src :=
  (List.suffix_cons b r).trans h

/-- The byte at a position is the first that is left there. -/
theorem byteAt_posOf (h : r <:+ src) (i : Nat) : byteAt src (posOf src r + i) = Scan.peek r i := by
  obtain ⟨p, rfl⟩ := h
  have hpos : posOf (p ++ r) r = p.length := by
    simp [posOf]
  have hlt : ¬ ((p.length : Int) + i < 0) := by omega
  have hnat : ((p.length : Int) + i).toNat = p.length + i := by omega
  have hget : (p ++ r)[p.length + i]? = r[i]? := by
    rw [List.getElem?_append_right (by omega), Nat.add_sub_cancel_left]
  cases hbyte : r[i]? with
  | none => simp only [byteAt, Scan.peek, hpos, if_neg hlt, hnat, hget, hbyte]
  | some b => simp only [byteAt, Scan.peek, hpos, if_neg hlt, hnat, hget, hbyte]

theorem byteAt_cons {b : UInt8} (h : b :: r <:+ src) :
    byteAt src (posOf src (b :: r)) = .ok b := by
  have := byteAt_posOf h 0
  simpa [Scan.peek] using this

@[simp] theorem assert_true (kind : ContractKind) (function clause : String) :
    H.assert kind function clause true = .ok () := by
  simp [Host.assert]

theorem requires_of {function clause : String} {p : Prop} [Decidable p] (h : p) :
    H.requires function clause (decide p) = .ok () := by
  simp [Host.requires, h]

theorem requires_pos (function : String) (h : r <:+ src) :
    H.requires function "(>= pos 0)" (decide (0 ≤ posOf src r)) = .ok () :=
  requires_of H (posOf_nonneg h)

theorem requires_len (function : String) :
    H.requires function "(>= len 0)" (decide (0 ≤ (src.length : Int))) = .ok () :=
  requires_of H (Int.natCast_nonneg _)

theorem ok_bind {β : Type} (a : α) (f : α → Run β) : (Except.ok a >>= f) = f a := rfl

/-! ## Whitespace -/

/-- The loop over blanks stops where the scan does. -/
theorem jsonSkipWsLoop_scan (h : r <:+ src) :
    jsonSkipWsLoop H src src.length r.length (posOf src r) = .ok (posOf src (Scan.skipWs r)) := by
  induction r with
  | nil =>
    rw [List.length_nil, jsonSkipWsLoop, requires_pos H _ h, requires_len H]
    rfl
  | cons b r ih =>
    rw [List.length_cons, jsonSkipWsLoop, requires_pos H _ h, requires_len H, byteAt_cons h,
      posOf_cons]
    simp only [ok_bind, Scan.skipWs, List.dropWhile_cons]
    split
    · exact ih (suffix_tail h)
    · rfl

theorem skipWs_suffix (r : Bytes) : Scan.skipWs r <:+ r := List.dropWhile_suffix _

theorem jsonSkipWs_scan (h : r <:+ src) :
    jsonSkipWs H frames src (posOf src r) src.length =
      (Scan.skip H frames r).map (posOf src) := by
  cases frames with
  | zero => rfl
  | succ frames =>
    simp only [jsonSkipWs, Scan.skip, Host.enter, left_eq, jsonSkipWsLoop_scan H h]
    rfl

/-! ## Escapes and strings -/

/-- A reply of `Scan` with positions in place of rests. -/
def locate (src : Bytes) : Run (Reply (α × Bytes)) → Run (Reply (α × Int)) :=
  Except.map (Except.map fun p => (p.1, posOf src p.2))

/-- A `\u` escape reads the four bytes that are left. -/
theorem unicodeEscapeToBytes_scan (h : r <:+ src) :
    unicodeEscapeToBytes H frames src (posOf src r) = Scan.unicode H frames r := by
  cases frames with
  | zero => rfl
  | succ frames =>
    have h0 : byteAt src (posOf src r) = Scan.peek r 0 := by
      simpa using byteAt_posOf h 0
    have h1 : byteAt src (posOf src r + 1) = Scan.peek r 1 := byteAt_posOf h 1
    have h2 : byteAt src (posOf src r + 2) = Scan.peek r 2 := byteAt_posOf h 2
    have h3 : byteAt src (posOf src r + 3) = Scan.peek r 3 := byteAt_posOf h 3
    simp only [unicodeEscapeToBytes, Scan.unicode, Host.enter, requires_pos H _ h, h0, h1, h2, h3,
      ok_bind]

theorem bytesFromInt8_byteToInt (b : UInt8) : bytesFromInt8 (byteToInt b) = [b] := by
  simp [bytesFromInt8, byteToInt]

theorem bind_eq_ok {α β : Type} {m : Run α} {f : α → Run β} {b : β} (h : m >>= f = .ok b) :
    ∃ a, m = .ok a ∧ f a = .ok b := by
  cases m with
  | error e => cases h
  | ok a => exact ⟨a, rfl, h⟩

/-- A chunk is put before the others and the rest stays. -/
theorem push_rest {frames : Nat} {chunk : Bytes} {reply : Reply (List Bytes × Bytes)}
    {parts : List Bytes} {rest : Bytes}
    (h : Scan.push H frames chunk reply = .ok (.ok (parts, rest))) :
    ∃ parts', reply = .ok (parts', rest) := by
  cases reply with
  | error e => cases h
  | ok p =>
    obtain ⟨l, -, h⟩ := bind_eq_ok h
    cases h
    exact ⟨p.1, rfl⟩

/-- What a string leaves is a rest of the text. -/
theorem stringLoop_suffix {parts : List Bytes} {rest : Bytes}
    (h : Scan.stringLoop H frames r = .ok (.ok (parts, rest))) : rest <:+ r := by
  induction frames generalizing r parts with
  | zero => cases h
  | succ frames ih =>
    cases Scan.stringForm r with
    | finished => cases h
    | quote r =>
      cases h
      exact List.suffix_cons _ _
    | backslash => cases h
    | unicode r =>
      rw [Scan.stringLoop_unicode] at h
      obtain ⟨chunk, -, h⟩ := bind_eq_ok h
      obtain ⟨reply, hreply, h⟩ := bind_eq_ok h
      obtain ⟨parts', rfl⟩ := push_rest H h
      exact (ih hreply).trans ((List.drop_suffix 4 r).trans ⟨[92, 117], rfl⟩)
    | escape next r hu =>
      rw [Scan.stringLoop_escape H hu] at h
      obtain ⟨reply, hreply, h⟩ := bind_eq_ok h
      obtain ⟨parts', rfl⟩ := push_rest H h
      exact (ih hreply).trans ⟨[92, next], rfl⟩
    | plain b r hq hb =>
      rw [Scan.stringLoop_plain H hq hb] at h
      obtain ⟨reply, hreply, h⟩ := bind_eq_ok h
      obtain ⟨parts', rfl⟩ := push_rest H h
      exact (ih hreply).trans (List.suffix_cons b r)

/-- A string's chunks with the position of the closing quote. -/
def locateQuote (src : Bytes) : Run (Reply (List Bytes × Bytes)) → Run (Reply (List Bytes × Int)) :=
  Except.map (Except.map fun p => (p.1, posOf src p.2 - 1))

theorem locateQuote_push (chunk : Bytes) (m : Run (Reply (List Bytes × Bytes))) :
    (do match ← locateQuote src m with
        | .ok rest => return .ok (← concat H frames [chunk] rest.1, rest.2)
        | .error e => return .error e) =
      locateQuote src (do Scan.push H frames chunk (← m)) := by
  cases m with
  | error e => rfl
  | ok reply =>
    cases reply with
    | error e => rfl
    | ok p =>
      simp only [locateQuote, Except.map, ok_bind, Scan.push]
      cases concat H frames [chunk] p.1 with
      | error e => rfl
      | ok l => rfl

theorem unicode_length {chunk : Bytes} (h : Scan.unicode H frames r = .ok chunk) :
    4 ≤ r.length := by
  cases frames with
  | zero => cases h
  | succ frames =>
    simp only [Scan.unicode, Host.enter] at h
    obtain ⟨b0, -, h⟩ := bind_eq_ok h
    obtain ⟨d0, -, h⟩ := bind_eq_ok h
    obtain ⟨b1, -, h⟩ := bind_eq_ok h
    obtain ⟨d1, -, h⟩ := bind_eq_ok h
    obtain ⟨b2, -, h⟩ := bind_eq_ok h
    obtain ⟨d2, -, h⟩ := bind_eq_ok h
    obtain ⟨b3, h3, h⟩ := bind_eq_ok h
    by_contra hlen
    rw [Scan.peek, List.getElem?_eq_none (by omega)] at h3
    cases h3

/-- The loop over a string finds what the scan finds, by induction on the frames. -/
theorem jsonParseStringLoop_scan (h : r <:+ src) :
    jsonParseStringLoop H src src.length frames (posOf src r) =
      locateQuote src (Scan.stringLoop H frames r) := by
  induction frames generalizing r with
  | zero => rfl
  | succ frames ih =>
    rw [jsonParseStringLoop, requires_pos H _ h, ok_bind]
    cases Scan.stringForm r with
    | finished =>
      rw [if_pos (posOf_ge_iff.mpr rfl)]
      rfl
    | quote r =>
      rw [if_neg (by simp [posOf_ge_iff]), byteAt_cons h, Scan.stringLoop_quote, ok_bind]
      have hcons : posOf src (34 :: r) + 1 = posOf src r := posOf_cons 34
      simp [locateQuote, Except.map, pure, Except.pure, ← hcons]
    | backslash =>
      rw [if_neg (by simp [posOf_ge_iff]), byteAt_cons h, posOf_cons, Scan.stringLoop_backslash]
      simp only [ok_bind, posOf_ge_iff, if_true]
      rfl
    | unicode r =>
      have h1 : byteAt src (posOf src (92 :: 117 :: r) + 1) = .ok 117 := by
        rw [posOf_cons, byteAt_cons (suffix_tail h)]
      have h2 : posOf src (92 :: 117 :: r) + 2 = posOf src r := posOf_drop 2 (by simp)
      have hr : r <:+ src := suffix_tail (suffix_tail h)
      rw [if_neg (by simp [posOf_ge_iff]), byteAt_cons h, Scan.stringLoop_unicode, h1, h2,
        unicodeEscapeToBytes_scan H hr]
      have hend : ¬ posOf src (92 :: 117 :: r) + 1 ≥ src.length := by
        rw [posOf_cons, posOf_ge_iff]
        simp
      simp only [ok_bind, if_neg hend]
      cases hchunk : Scan.unicode H frames r with
      | error e => rfl
      | ok chunk =>
        have hlen := unicode_length H hchunk
        have h6 : posOf src (92 :: 117 :: r) + 6 = posOf src (r.drop 4) := by
          rw [← posOf_drop 4 hlen, ← h2]
          omega
        have hdrop : r.drop 4 <:+ src := (List.drop_suffix 4 r).trans hr
        rw [h6, ih hdrop]
        exact locateQuote_push H chunk _
    | escape next r hu =>
      have h1 : byteAt src (posOf src (92 :: next :: r) + 1) = .ok next := by
        rw [posOf_cons, byteAt_cons (suffix_tail h)]
      have h2 : posOf src (92 :: next :: r) + 2 = posOf src r := posOf_drop 2 (by simp)
      have hr : r <:+ src := suffix_tail (suffix_tail h)
      have hend : ¬ posOf src (92 :: next :: r) + 1 ≥ src.length := by
        rw [posOf_cons, posOf_ge_iff]
        simp
      rw [if_neg (by simp [posOf_ge_iff]), byteAt_cons h, Scan.stringLoop_escape H hu,
        h1, h2, ih hr]
      simp only [ok_bind, if_neg hend, if_neg hu]
      exact locateQuote_push H _ _
    | plain b r hq hb =>
      rw [if_neg (by simp [posOf_ge_iff]), byteAt_cons h, Scan.stringLoop_plain H hq hb, posOf_cons,
        ih (suffix_tail h)]
      simp only [ok_bind, if_neg hq, if_neg hb, bytesFromInt8_byteToInt]
      exact locateQuote_push H _ _

theorem bytesToString_all (buf : Bytes) :
    bytesToString buf 0 buf.length = String.ofList (Utf8.decodeLossy buf) := by
  simp [bytesToString]

/-- So a string is read alike. -/
theorem jsonParseString_scan (h : r <:+ src) :
    jsonParseString H frames src (posOf src r) src.length =
      locate src (Scan.string H frames r) := by
  cases frames with
  | zero => rfl
  | succ frames =>
    simp only [jsonParseString, Scan.string, Host.enter, requires_pos H _ h, ok_bind,
      jsonParseStringLoop_scan H h]
    cases Scan.stringLoop H frames r with
    | error e => rfl
    | ok reply =>
      cases reply with
      | error e => rfl
      | ok p =>
        obtain ⟨parts, rest⟩ := p
        simp only [locateQuote, locate, Except.map, ok_bind, bytesToString_all]
        split
        · rename_i hparts
          rw [List.length_eq_zero_iff] at hparts
          simp [hparts, Scan.joinChunks, Utf8.decodeLossy, pure, Except.pure]
        · simp [Scan.joinChunks, pure, Except.pure]

theorem string_suffix {s : String} {rest : Bytes}
    (h : Scan.string H frames r = .ok (.ok (s, rest))) : rest <:+ r := by
  cases frames with
  | zero => cases h
  | succ frames =>
    obtain ⟨reply, hreply, h⟩ := bind_eq_ok h
    cases reply with
    | error e => cases h
    | ok p =>
      cases h
      exact stringLoop_suffix H hreply

/-! ## Numbers and words -/

/-- The end of a number is where its bytes end. -/
theorem jsonParseNumberEndLoop_scan (h : r <:+ src) :
    jsonParseNumberEndLoop H src src.length r.length (posOf src r) =
      .ok (posOf src (r.dropWhile isNumberByte)) := by
  induction r with
  | nil =>
    rw [List.length_nil, jsonParseNumberEndLoop, requires_pos H _ h, requires_len H]
    rfl
  | cons b r ih =>
    rw [List.length_cons, jsonParseNumberEndLoop, requires_pos H _ h, requires_len H,
      byteAt_cons h, posOf_cons]
    simp only [ok_bind, List.dropWhile_cons]
    split
    · exact ih (suffix_tail h)
    · rfl

theorem jsonHasDotLoop_scan (text rest : Bytes) (h : text ++ rest <:+ src) :
    jsonHasDotLoop H src (posOf src rest) text.length (posOf src (text ++ rest)) =
      .ok (decide (46 ∈ text)) := by
  have hrest : rest <:+ src := (List.suffix_append text rest).trans h
  have hstop : H.requires "json-has-dot" "(>= end 0)" (decide (0 ≤ posOf src rest)) = .ok () :=
    requires_of H (posOf_nonneg hrest)
  induction text with
  | nil =>
    rw [List.length_nil, jsonHasDotLoop, requires_of H (posOf_nonneg h), hstop]
    rfl
  | cons b text ih =>
    rw [List.cons_append] at h
    rw [List.length_cons, List.cons_append, jsonHasDotLoop, requires_of H (posOf_nonneg h), hstop,
      byteAt_cons h, posOf_cons]
    simp only [ok_bind, List.mem_cons]
    by_cases hdot : b = 46
    · rw [if_pos hdot]
      simp [hdot, pure, Except.pure]
    · rw [if_neg hdot, ih (suffix_tail h)]
      simp [Ne.symm hdot]

/-- The digits are added up alike. -/
theorem jsonParseIntLoop_scan (neg : Bool) (text rest : Bytes) (acc : Int64)
    (h : text ++ rest <:+ src) :
    jsonParseIntLoop H src neg text.length (posOf src (text ++ rest)) acc =
      .ok (Scan.readInt neg text acc) := by
  induction text generalizing acc with
  | nil =>
    rw [List.length_nil, jsonParseIntLoop, requires_pos H _ h]
    rfl
  | cons b text ih =>
    rw [List.cons_append] at h
    rw [List.length_cons, List.cons_append, jsonParseIntLoop, requires_pos H _ h, byteAt_cons h,
      posOf_cons, Scan.readInt]
    simp only [ok_bind]
    split
    · rfl
    · exact ih _ (suffix_tail h)

theorem posOf_sub (text rest : Bytes) :
    posOf src rest - posOf src (text ++ rest) = text.length := by
  simp only [posOf, List.length_append]
  omega

theorem bytesToString_posOf (text rest : Bytes) (h : text ++ rest <:+ src) :
    bytesToString src (posOf src (text ++ rest)) (posOf src rest - posOf src (text ++ rest)) =
      String.ofList (Utf8.decodeLossy text) := by
  obtain ⟨p, rfl⟩ := h
  rw [posOf_sub]
  have hpos : posOf (p ++ (text ++ rest)) (text ++ rest) = p.length := by
    simp [posOf]
  rw [hpos]
  simp only [bytesToString, Int.toNat_natCast, List.drop_left, List.take_left, List.length_append]
  rw [if_neg (by omega)]

theorem posOf_stop (text rest : Bytes) :
    posOf src rest = posOf src (text ++ rest) ↔ text = [] := by
  rw [← List.length_eq_zero_iff]
  simp only [posOf, List.length_append]
  omega

theorem jsonParseNumber_int (text rest : Bytes) (hne : text ≠ []) (h : text ++ rest <:+ src) :
    (do
      let neg := (← byteAt src (posOf src (text ++ rest))) == 45
      let start := if neg then posOf src (text ++ rest) + 1 else posOf src (text ++ rest)
      if start = posOf src rest then return .error "json-parse: invalid number"
      match ← jsonParseInt H (frames + 1) src start (posOf src rest) 0 neg with
      | .ok v => return .ok (.int v, posOf src rest)
      | .error e => return .error e : Run (Reply (VmValue × Int))) =
    .ok ((Scan.readInteger text).map fun v => (v, posOf src rest)) := by
  cases text with
  | nil => exact absurd rfl hne
  | cons b ds =>
    rw [List.cons_append] at h ⊢
    have hds : ds ++ rest <:+ src := suffix_tail h
    rw [byteAt_cons h, ok_bind]
    by_cases hb : b = 45
    · subst hb
      simp only [beq_self_eq_true, if_true, posOf_cons]
      have hend : posOf src (ds ++ rest) = posOf src rest ↔ ds = [] :=
        eq_comm.trans (posOf_stop ds rest)
      by_cases hnil : ds = []
      · rw [if_pos (hend.mpr hnil), hnil]
        rfl
      · rw [if_neg (hend.not.mpr hnil), Scan.readInteger, if_neg (by simpa using hnil)]
        simp only [jsonParseInt, Host.enter, posOf_sub, Int.toNat_natCast,
          jsonParseIntLoop_scan H true ds rest 0 hds, ok_bind, List.head?_cons, if_true,
          List.tail_cons]
        cases Scan.readInt true ds 0 with
        | error e => rfl
        | ok v => rfl
    · have hend : posOf src (b :: (ds ++ rest)) ≠ posOf src rest := by
        have hsub : posOf src rest - posOf src (b :: ds ++ rest) = (b :: ds).length :=
        posOf_sub (b :: ds) rest
        rw [List.cons_append, List.length_cons] at hsub
        omega
      have hb' : (b == 45) = false := by simpa using hb
      simp only [hb', Bool.false_eq_true, if_false, if_neg hend]
      rw [Scan.readInteger, if_neg (by simp [hb]), if_neg (by simpa using hb)]
      have hloop := jsonParseIntLoop_scan H false (b :: ds) rest 0 h
      have hsub : posOf src rest - posOf src (b :: ds ++ rest) = (b :: ds).length :=
        posOf_sub (b :: ds) rest
      rw [List.cons_append] at hloop hsub
      simp only [jsonParseInt, Host.enter, hsub, Int.toNat_natCast, hloop, ok_bind]
      cases Scan.readInt false (b :: ds) 0 with
      | error e => rfl
      | ok v => rfl

/-- So a number is read alike. -/
theorem jsonParseNumber_scan (h : r <:+ src) :
    jsonParseNumber H frames src (posOf src r) src.length =
      locate src (Scan.number H frames r) := by
  rcases frames with _ | _ | frames
  · rfl
  · simp only [jsonParseNumber, Host.enter, requires_pos H _ h]
    rfl
  obtain ⟨text, htext⟩ : ∃ text, text = r.takeWhile isNumberByte := ⟨_, rfl⟩
  obtain ⟨rest, hrest⟩ : ∃ rest, rest = r.dropWhile isNumberByte := ⟨_, rfl⟩
  have hr : r = text ++ rest := by rw [htext, hrest, List.takeWhile_append_dropWhile]
  have hend := jsonParseNumberEndLoop_scan H h
  simp only [jsonParseNumber, Scan.number, Host.enter, requires_pos H _ h, ok_bind,
    jsonParseNumberEnd, left_eq, hend, ← htext, ← hrest]
  rw [hr] at h ⊢
  have hstop : posOf src rest = posOf src (text ++ rest) ↔ text = [] := posOf_stop text rest
  by_cases hnil : text = []
  · rw [if_pos (hstop.mpr hnil), hnil]
    rfl
  rw [if_neg (hstop.not.mpr hnil), bytesToString_posOf text rest h]
  simp only [jsonHasDot, Host.enter, posOf_sub, Int.toNat_natCast,
    jsonHasDotLoop_scan H text rest h,
    ok_bind, decide_eq_true_eq]
  by_cases hdot : 46 ∈ text
  · simp only [Scan.readNumber, if_neg hnil, if_pos hdot]
    cases H.stringToFloat (String.ofList (Utf8.decodeLossy text)) with
    | none => rfl
    | some v => rfl
  · rw [if_neg hdot]
    refine (jsonParseNumber_int H text rest hnil h).trans ?_
    simp only [Scan.readNumber, if_neg hnil, if_neg hdot]
    cases Scan.readInteger text with
    | error e => rfl
    | ok v => rfl

theorem number_rest {v : VmValue} {rest : Bytes}
    (h : Scan.number H frames r = .ok (.ok (v, rest))) :
    r.takeWhile isNumberByte ≠ [] ∧ rest = r.dropWhile isNumberByte := by
  rcases frames with _ | _ | frames
  · cases h
  · cases h
  · simp only [Scan.number, Host.enter] at h
    cases hv : Scan.readNumber H (r.takeWhile isNumberByte) with
    | error e =>
      rw [hv] at h
      cases h
    | ok v =>
      refine ⟨fun hnil => ?_, ?_⟩
      · rw [hnil] at hv
        cases hv
      · rw [hv] at h
        cases h
        rfl

theorem bytesMatchFrom_scan (bs : List UInt8) (h : r <:+ src) (hlen : bs.length ≤ r.length) :
    bytesMatchFrom src (posOf src r) bs = .ok (bs.isPrefixOf r) := by
  induction bs generalizing r with
  | nil => rfl
  | cons b bs ih =>
    cases r with
    | nil => cases hlen
    | cons c r =>
      rw [bytesMatchFrom, byteAt_cons h, ok_bind, posOf_cons]
      by_cases hbc : c = b
      · rw [if_pos hbc, ih (suffix_tail h) (by simpa using hlen)]
        simp [List.isPrefixOf, hbc]
      · rw [if_neg hbc]
        simp [List.isPrefixOf, Ne.symm hbc, pure, Except.pure]

/-- A word is compared with what is left. -/
theorem bytesMatch_scan (function : String) (bs : List UInt8) (h : r <:+ src) :
    bytesMatch H function frames src (posOf src r) src.length bs = Scan.word H frames r bs := by
  cases frames with
  | zero => rfl
  | succ frames =>
    simp only [bytesMatch, Scan.word, Host.enter, requires_pos H _ h, requires_len H, ok_bind]
    have hlen : posOf src r + bs.length > src.length ↔ r.length < bs.length := by
      simp only [posOf]
      omega
    split
    · rename_i hlong
      have hpre : bs.isPrefixOf r = false := by
        rw [← Bool.not_eq_true, List.isPrefixOf_iff_prefix]
        exact fun hpre => absurd hpre.length_le (by omega)
      rw [hpre]
      rfl
    · exact bytesMatchFrom_scan bs h (by omega)

/-! ## Progress -/

/-- `rest` is a proper rest of `r`. -/
def Within (rest r : Bytes) : Prop := rest <:+ r ∧ rest.length < r.length

theorem Within.trans {a b c : Bytes} (h : Within a b) (h' : b <:+ c) : Within a c :=
  ⟨h.1.trans h', Nat.lt_of_lt_of_le h.2 h'.length_le⟩

theorem Within.trans_left {a b c : Bytes} (h : a <:+ b) (h' : Within b c) : Within a c :=
  ⟨h.trans h'.1, Nat.lt_of_le_of_lt h.length_le h'.2⟩

theorem within_cons (b : UInt8) (r : Bytes) : Within r (b :: r) :=
  ⟨List.suffix_cons b r, by simp⟩

theorem skip_ok {rest : Bytes} (h : Scan.skip H frames r = .ok rest) : rest = Scan.skipWs r := by
  cases frames with
  | zero => cases h
  | succ frames =>
    cases h
    rfl

theorem skip_suffix {rest : Bytes} (h : Scan.skip H frames r = .ok rest) : rest <:+ r :=
  skip_ok H h ▸ skipWs_suffix r

theorem dropComma_suffix (r : Bytes) : Scan.dropComma r <:+ r := by
  unfold Scan.dropComma
  split
  · exact List.suffix_cons _ _
  · exact List.suffix_rfl

/-- What an object leaves is a rest of the text. -/
theorem objectLoopIn_within {parseValue : Bytes → Run (Reply (VmValue × Bytes))}
    (hvalue : ∀ {r v rest}, parseValue r = .ok (.ok (v, rest)) → Within rest r)
    {left : Nat} {entries : List (String × VmValue)} {rest : Bytes}
    (h : Scan.objectLoopIn H frames parseValue left r = .ok (.ok (entries, rest))) :
    Within rest r := by
  induction left generalizing r entries with
  | zero =>
    rw [Scan.objectLoopIn] at h
    obtain ⟨r1, -, h⟩ := bind_eq_ok h
    cases h
  | succ left ih =>
    rw [Scan.objectLoopIn] at h
    obtain ⟨r1, hskip, h⟩ := bind_eq_ok h
    refine Within.trans ?_ (skip_suffix H hskip)
    cases r1 with
    | nil => cases h
    | cons b r1 =>
      simp only at h
      split at h
      · cases h
        exact within_cons _ _
      split at h
      · cases h
      refine Within.trans ?_ (List.suffix_cons b r1)
      obtain ⟨key, hkey, h⟩ := bind_eq_ok h
      cases key with
      | error e => cases h
      | ok key =>
        obtain ⟨key, r2⟩ := key
        refine Within.trans ?_ (string_suffix H hkey)
        obtain ⟨r3, hskip3, h⟩ := bind_eq_ok h
        refine Within.trans ?_ (skip_suffix H hskip3)
        cases r3 with
        | nil => cases h
        | cons c r3 =>
          simp only at h
          split at h
          · cases h
          refine Within.trans ?_ (List.suffix_cons c r3)
          obtain ⟨val, hval, h⟩ := bind_eq_ok h
          cases val with
          | error e => cases h
          | ok val =>
            obtain ⟨val, r4⟩ := val
            refine Within.trans ?_ (hvalue hval).1
            obtain ⟨r5, hskip5, h⟩ := bind_eq_ok h
            refine Within.trans ?_ (skip_suffix H hskip5)
            cases r5 with
            | nil => cases h
            | cons d r5 =>
              obtain ⟨more, hmore, h⟩ := bind_eq_ok h
              cases more with
              | error e => cases h
              | ok more =>
                cases h
                exact (ih hmore).trans (dropComma_suffix _)

/-- A number takes at least one byte. -/
theorem number_within {v : VmValue} {rest : Bytes}
    (h : Scan.number H frames r = .ok (.ok (v, rest))) : Within rest r := by
  obtain ⟨hne, rfl⟩ := number_rest H h
  refine ⟨List.dropWhile_suffix _, ?_⟩
  have hlen := congrArg List.length (List.takeWhile_append_dropWhile (p := isNumberByte) (l := r))
  have hpos := List.length_pos_iff.mpr hne
  rw [List.length_append] at hlen
  omega

/-- So does a word, whatever follows it. -/
theorem word_within {b : UInt8} {bs rest : Bytes} {n : Nat} {v w : VmValue} {e : String}
    (h : (do
      if ← Scan.word H frames r bs then return .ok (v, r.drop n) else return .error e :
        Run (Reply (VmValue × Bytes))) = .ok (.ok (w, rest))) : Within rest (b :: r) := by
  obtain ⟨found, -, h⟩ := bind_eq_ok h
  split at h
  · cases h
    exact Within.trans_left (List.drop_suffix _ _) (within_cons _ _)
  · cases h

/-- What a value leaves is shorter than the text. -/
theorem value_within (frames : Nat) :
    (∀ {r v rest}, Scan.value H frames r = .ok (.ok (v, rest)) → Within rest r) ∧
      (∀ {r vs rest}, Scan.arrayLoop H frames r = .ok (.ok (vs, rest)) → Within rest r) ∧
      (∀ {r es rest}, Scan.objectLoop H frames r = .ok (.ok (es, rest)) → Within rest r) := by
  induction frames with
  | zero =>
    refine ⟨fun h => ?_, fun h => ?_, fun h => ?_⟩
    all_goals cases h
  | succ frames ih =>
    obtain ⟨ihv, iha, iho⟩ := ih
    refine ⟨fun {r v rest} h => ?_, fun {r vs rest} h => ?_, fun {r es rest} h => ?_⟩
    · rw [Scan.value] at h
      obtain ⟨r1, hskip, h⟩ := bind_eq_ok h
      refine Within.trans ?_ (skip_suffix H hskip)
      cases r1 with
      | nil => cases h
      | cons b r1 =>
        simp only at h
        split at h
        · obtain ⟨reply, hreply, h⟩ := bind_eq_ok h
          cases reply with
          | error e => cases h
          | ok p =>
            cases h
            exact Within.trans_left (string_suffix H hreply) (within_cons _ _)
        split at h
        · obtain ⟨reply, hreply, h⟩ := bind_eq_ok h
          cases reply with
          | error e => cases h
          | ok p =>
            cases h
            exact (iha hreply).trans (List.suffix_cons _ _)
        split at h
        · obtain ⟨reply, hreply, h⟩ := bind_eq_ok h
          cases reply with
          | error e => cases h
          | ok p =>
            cases h
            exact (iho hreply).trans (List.suffix_cons _ _)
        split at h
        · exact word_within H h
        split at h
        · exact word_within H h
        split at h
        · exact word_within H h
        exact number_within H h
    · rw [Scan.arrayLoop] at h
      obtain ⟨r1, hskip, h⟩ := bind_eq_ok h
      refine Within.trans ?_ (skip_suffix H hskip)
      cases r1 with
      | nil => cases h
      | cons b r1 =>
        simp only at h
        split at h
        · cases h
          exact within_cons _ _
        obtain ⟨val, hval, h⟩ := bind_eq_ok h
        cases val with
        | error e => cases h
        | ok val =>
          obtain ⟨val, r2⟩ := val
          refine Within.trans ?_ (ihv hval).1
          obtain ⟨r3, hskip3, h⟩ := bind_eq_ok h
          refine Within.trans ?_ (skip_suffix H hskip3)
          cases r3 with
          | nil => cases h
          | cons c r3 =>
            obtain ⟨more, hmore, h⟩ := bind_eq_ok h
            cases more with
            | error e => cases h
            | ok more =>
              cases h
              exact (iha hmore).trans (dropComma_suffix _)
    · rw [Scan.objectLoop] at h
      exact objectLoopIn_within H ihv h

/-! ## Values -/

/-- One of the three words. -/
theorem word_scan (function : String) (b : UInt8) (bs : List UInt8) (v : VmValue) (e : String)
    (h : r <:+ src) :
    (do
      if ← bytesMatch H function frames src (posOf src r) src.length bs then
        return .ok (v, posOf src (b :: r) + (bs.length + 1 : Nat))
      else return .error e : Run (Reply (VmValue × Int))) =
    locate src (do
      if ← Scan.word H frames r bs then return .ok (v, r.drop bs.length) else return .error e) := by
  rw [bytesMatch_scan H function bs h]
  cases frames with
  | zero => rfl
  | succ frames =>
    simp only [Scan.word, Host.enter, ok_bind]
    cases hpre : bs.isPrefixOf r with
    | false => rfl
    | true =>
      have hlen : bs.length ≤ r.length := (List.isPrefixOf_iff_prefix.mp hpre).length_le
      have hpos : posOf src (b :: r) + (bs.length + 1 : Nat) = posOf src (r.drop bs.length) := by
        have hcons : posOf src (b :: r) + 1 = posOf src r := posOf_cons b
        rw [← posOf_drop bs.length hlen]
        omega
      rw [hpos]
      rfl

theorem nextPos_scan (c : UInt8) (r : Bytes) :
    (if c = 44 then posOf src (c :: r) + 1 else posOf src (c :: r)) =
      posOf src (Scan.dropComma (c :: r)) := by
  by_cases hc : c = 44
  · rw [if_pos hc, posOf_cons, hc]
    rfl
  · rw [if_neg hc, Scan.dropComma]
    simpa using hc

/-- The entries of an object put into a map one after the other. -/
def setAll (acc : List (String × VmValue)) (entries : List (String × VmValue)) :
    List (String × VmValue) :=
  entries.foldl (fun m e => mapSet m e.1 e.2) acc

/-- The loop over an object, by what its values do. -/
theorem jsonParseObjectLoopIn_scan {parse : Int → Run (Reply (VmValue × Int))}
    {parseValue : Bytes → Run (Reply (VmValue × Bytes))}
    (hparse : ∀ {r}, r <:+ src → parse (posOf src r) = locate src (parseValue r))
    (hwithin : ∀ {r v rest}, parseValue r = .ok (.ok (v, rest)) → Within rest r)
    (left : Nat) (acc : List (String × VmValue)) (h : r <:+ src) :
    jsonParseObjectLoopIn H frames parse src src.length left (posOf src r) acc =
      locate src ((Scan.objectLoopIn H frames parseValue left r).map
        (Except.map fun p => (setAll acc p.1, p.2))) := by
  induction left generalizing r acc with
  | zero =>
    rw [jsonParseObjectLoopIn, requires_pos H _ h, jsonSkipWs_scan H h, Scan.objectLoopIn]
    cases Scan.skip H frames r with
    | error e => rfl
    | ok r1 => rfl
  | succ left ih =>
    rw [jsonParseObjectLoopIn, requires_pos H _ h, jsonSkipWs_scan H h, Scan.objectLoopIn]
    cases hskip : Scan.skip H frames r with
    | error e => rfl
    | ok r1 =>
      have h1 : r1 <:+ src := (skip_suffix H hskip).trans h
      simp only [Except.map, ok_bind, posOf_ge_iff]
      cases r1 with
      | nil => rfl
      | cons b r1 =>
        rw [if_neg (List.cons_ne_nil b r1), byteAt_cons h1]
        simp only [ok_bind, posOf_cons]
        by_cases hb : b = 125
        · rw [if_pos hb, if_pos hb]
          rfl
        rw [if_neg hb, if_neg hb]
        by_cases hb : b ≠ 34
        · rw [if_pos hb, if_pos hb]
          rfl
        rw [if_neg hb, if_neg hb, jsonParseString_scan H (suffix_tail h1)]
        cases hkey : Scan.string H frames r1 with
        | error e => rfl
        | ok key =>
          cases key with
          | error e => rfl
          | ok key =>
            obtain ⟨key, r2⟩ := key
            have h2 : r2 <:+ src := (string_suffix H hkey).trans (suffix_tail h1)
            simp only [locate, Except.map, ok_bind, jsonSkipWs_scan H h2]
            cases hskip3 : Scan.skip H frames r2 with
            | error e => rfl
            | ok r3 =>
              have h3 : r3 <:+ src := (skip_suffix H hskip3).trans h2
              simp only [ok_bind, posOf_ge_iff]
              cases r3 with
              | nil => rfl
              | cons c r3 =>
                rw [if_neg (List.cons_ne_nil c r3), byteAt_cons h3]
                simp only [ok_bind, posOf_cons]
                by_cases hc : c ≠ 58
                · rw [if_pos hc, if_pos hc]
                  rfl
                rw [if_neg hc, if_neg hc, hparse (suffix_tail h3)]
                cases hval : parseValue r3 with
                | error e => rfl
                | ok val =>
                  cases val with
                  | error e => rfl
                  | ok val =>
                    obtain ⟨val, r4⟩ := val
                    have h4 : r4 <:+ src := (hwithin hval).1.trans (suffix_tail h3)
                    simp only [locate, Except.map, ok_bind, jsonSkipWs_scan H h4]
                    cases hskip5 : Scan.skip H frames r4 with
                    | error e => rfl
                    | ok r5 =>
                      have h5 : r5 <:+ src := (skip_suffix H hskip5).trans h4
                      simp only [ok_bind, posOf_ge_iff]
                      cases r5 with
                      | nil => rfl
                      | cons d r5 =>
                        rw [if_neg (List.cons_ne_nil d r5), byteAt_cons h5]
                        simp only [ok_bind, nextPos_scan]
                        rw [ih _ ((dropComma_suffix _).trans h5)]
                        cases Scan.objectLoopIn H frames parseValue left
                            (Scan.dropComma (d :: r5)) with
                        | error e => rfl
                        | ok more =>
                          cases more with
                          | error e => rfl
                          | ok more => rfl


/-- Values, lists and objects together, by induction on the frames. -/
theorem jsonParse_scan_all (src : Bytes) (frames : Nat) :
    (∀ {r}, r <:+ src → jsonParseValue H src src.length frames (posOf src r) =
        locate src (Scan.value H frames r)) ∧
      (∀ {r}, r <:+ src → jsonParseArrayLoop H src src.length frames (posOf src r) =
        locate src (Scan.arrayLoop H frames r)) ∧
      ∀ {r}, r <:+ src → ∀ acc, jsonParseObjectLoop H src src.length frames (posOf src r) acc =
        locate src ((Scan.objectLoop H frames r).map
          (Except.map fun p => (setAll acc p.1, p.2))) := by
  -- The three loops call each other with one frame less each time.
  induction frames with
  | zero =>
    refine ⟨fun _ => ?_, fun _ => ?_, fun _ _ => ?_⟩
    · rw [jsonParseValue, Scan.value]; rfl
    · rw [jsonParseArrayLoop, Scan.arrayLoop]; rfl
    · rw [jsonParseObjectLoop, Scan.objectLoop]; rfl
  | succ frames ih =>
    obtain ⟨ihv, iha, iho⟩ := ih
    refine ⟨fun {r} h => ?_, fun {r} h => ?_, fun {r} h acc => ?_⟩
    · rw [jsonParseValue, Scan.value, requires_pos H _ h, jsonSkipWs_scan H h]
      cases hskip : Scan.skip H frames r with
      | error e => rfl
      | ok r1 =>
        have h1 : r1 <:+ src := (skip_suffix H hskip).trans h
        simp only [Except.map, ok_bind, posOf_ge_iff]
        cases r1 with
        | nil => rfl
        | cons b r1 =>
          have hr : r1 <:+ src := suffix_tail h1
          rw [if_neg (List.cons_ne_nil b r1), byteAt_cons h1]
          simp only [ok_bind, posOf_cons]
          split
          · rw [jsonParseString_scan H hr]
            cases Scan.string H frames r1 with
            | error e => rfl
            | ok reply => cases reply with
              | error e => rfl
              | ok p => rfl
          split
          · rw [iha hr]
            cases Scan.arrayLoop H frames r1 with
            | error e => rfl
            | ok reply => cases reply with
              | error e => rfl
              | ok p => rfl
          split
          · rw [iho hr []]
            cases Scan.objectLoop H frames r1 with
            | error e => rfl
            | ok reply => cases reply with
              | error e => rfl
              | ok p => rfl
          split
          · exact word_scan H "bytes-match-3" b [114, 117, 101] _ _ hr
          split
          · exact word_scan H "bytes-match-4" b [97, 108, 115, 101] _ _ hr
          split
          · exact word_scan H "bytes-match-3" b [117, 108, 108] _ _ hr
          · rw [jsonParseNumber_scan H h1]
    · rw [jsonParseArrayLoop, Scan.arrayLoop, requires_pos H _ h, jsonSkipWs_scan H h]
      cases hskip : Scan.skip H frames r with
      | error e => rfl
      | ok r1 =>
        have h1 : r1 <:+ src := (skip_suffix H hskip).trans h
        simp only [Except.map, ok_bind, posOf_ge_iff]
        cases r1 with
        | nil => rfl
        | cons b r1 =>
          rw [if_neg (List.cons_ne_nil b r1), byteAt_cons h1]
          simp only [ok_bind]
          by_cases hb : b = 93
          · rw [if_pos hb, if_pos hb, posOf_cons]
            rfl
          rw [if_neg hb, if_neg hb, ihv h1]
          cases hval : Scan.value H frames (b :: r1) with
          | error e => rfl
          | ok val =>
            cases val with
            | error e => rfl
            | ok val =>
              obtain ⟨val, r2⟩ := val
              have h2 : r2 <:+ src := ((value_within H frames).1 hval).1.trans h1
              simp only [locate, Except.map, ok_bind, jsonSkipWs_scan H h2]
              cases hskip3 : Scan.skip H frames r2 with
              | error e => rfl
              | ok r3 =>
                have h3 : r3 <:+ src := (skip_suffix H hskip3).trans h2
                simp only [ok_bind, posOf_ge_iff]
                cases r3 with
                | nil => rfl
                | cons c r3 =>
                  rw [if_neg (List.cons_ne_nil c r3), byteAt_cons h3]
                  simp only [ok_bind, nextPos_scan]
                  rw [iha ((dropComma_suffix _).trans h3)]
                  cases Scan.arrayLoop H frames (Scan.dropComma (c :: r3)) with
                  | error e => rfl
                  | ok more => cases more with
                    | error e => rfl
                    | ok more => rfl
    · rw [jsonParseObjectLoop, Scan.objectLoop, left_eq]
      exact jsonParseObjectLoopIn_scan H ihv (value_within H frames).1 r.length acc h

/-- The parser over positions is the scan of what is left. -/
theorem jsonParse_scan (s : String) : jsonParse H frames s =
    Scan.text H frames (bytesFromString s) := by
  cases frames with
  | zero => rfl
  | succ frames =>
    simp only [jsonParse, Scan.text, Host.enter]
    generalize bytesFromString s = src
    by_cases hnil : src = []
    · simp [hnil]
    · have hvalue := (jsonParse_scan_all H src frames).1 (List.suffix_refl src)
      rw [posOf_self] at hvalue
      rw [if_neg (by simpa using hnil), if_neg hnil, hvalue]
      cases hv : Scan.value H frames src with
      | error e => rfl
      | ok reply =>
        cases reply with
        | error e => rfl
        | ok p =>
          obtain ⟨v, rest⟩ := p
          have hrest : rest <:+ src := ((value_within H frames).1 hv).1
          simp only [locate, Except.map, ok_bind, jsonSkipWs_scan H hrest]
          cases Scan.skip H frames rest with
          | error e => rfl
          | ok rest' =>
            have hend : posOf src rest' = src.length ↔ rest' = [] := by
              rw [← posOf_nil, ← List.length_eq_zero_iff]
              simp only [posOf, List.length_nil]
              omega
            simp only [ok_bind, hend]

end Airl.Json
