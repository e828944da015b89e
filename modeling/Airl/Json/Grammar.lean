import Airl.Json.Positions

/-! # The language the parser reads

What `json.airl` accepts, as a grammar over the rest of the text: `ReadsValue src rest`
when a value stands at the front of `src` and `rest` follows it. Commas are optional and
may trail, and a backslash may stand before any byte.
-/

namespace Airl.Json

open Scan

variable (H : Host)

/-- A string, up to and with its closing quote. -/
inductive ReadsString : Bytes → Bytes → Prop
  | quote (rest : Bytes) : ReadsString (34 :: rest) rest
  | unicode {src rest : Bytes} : ReadsString (src.drop 4) rest →
      ReadsString (92 :: 117 :: src) rest
  | escape {next : UInt8} {src rest : Bytes} : next ≠ 117 → ReadsString src rest →
      ReadsString (92 :: next :: src) rest
  | plain {b : UInt8} {src rest : Bytes} : b ≠ 34 → b ≠ 92 → ReadsString src rest →
      ReadsString (b :: src) rest

/-- The first bytes that `json-parse-value` dispatches on; any other begins a number. -/
def leadBytes : List UInt8 := [34, 91, 123, 116, 102, 110]

/-- `true`, `false` and `null`. -/
def words : List (UInt8 × Bytes) :=
  [(116, [114, 117, 101]), (102, [97, 108, 115, 101]), (110, [117, 108, 108])]

mutual

/-- A value, whitespace before it included. -/
inductive ReadsValue : Bytes → Bytes → Prop
  | string {src r rest : Bytes} : skipWs src = 34 :: r → ReadsString r rest → ReadsValue src rest
  | array {src r rest : Bytes} : skipWs src = 91 :: r → ReadsArray r rest → ReadsValue src rest
  | object {src r rest : Bytes} : skipWs src = 123 :: r → ReadsObject r rest → ReadsValue src rest
  | word {src r : Bytes} {b : UInt8} {bs : Bytes} : skipWs src = b :: r → (b, bs) ∈ words →
      bs.isPrefixOf r = true → ReadsValue src (r.drop bs.length)
  | number {src r : Bytes} {b : UInt8} {v : VmValue} : skipWs src = b :: r → b ∉ leadBytes →
      readNumber H ((b :: r).takeWhile isNumberByte) = .ok v →
      ReadsValue src ((b :: r).dropWhile isNumberByte)

/-- The elements of an array, up to and with the closing bracket. -/
inductive ReadsArray : Bytes → Bytes → Prop
  | close {src rest : Bytes} : skipWs src = 93 :: rest → ReadsArray src rest
  | element {src r mid r' rest : Bytes} {b c : UInt8} : skipWs src = b :: r → b ≠ 93 →
      ReadsValue (b :: r) mid → skipWs mid = c :: r' → ReadsArray (dropComma (c :: r')) rest →
      ReadsArray src rest

/-- The entries of an object, up to and with the closing brace. -/
inductive ReadsObject : Bytes → Bytes → Prop
  | close {src rest : Bytes} : skipWs src = 125 :: rest → ReadsObject src rest
  | entry {src r keyEnd r' valEnd r'' rest : Bytes} {c : UInt8} : skipWs src = 34 :: r →
      ReadsString r keyEnd → skipWs keyEnd = 58 :: r' → ReadsValue r' valEnd →
      skipWs valEnd = c :: r'' → ReadsObject (dropComma (c :: r'')) rest → ReadsObject src rest

end

variable {H} {src : Bytes} {frames : Nat}

/-- Whether a reply is an answer does not depend on what was collected before it. -/
theorem push_ok_iff {chunk : Bytes} {reply : Reply (List Bytes × Bytes)}
    {pushed : Reply (List Bytes × Bytes)} (h : push H frames chunk reply = .ok pushed)
    (rest : Bytes) : (∃ parts, pushed = .ok (parts, rest)) ↔
      ∃ parts, reply = .ok (parts, rest) := by
  cases reply with
  | error e =>
    cases h
    simp
  | ok p =>
    obtain ⟨l, -, h⟩ := bind_eq_ok h
    cases h
    obtain ⟨parts, r⟩ := p
    simp

/-- A string that is read is one of the grammar. -/
theorem stringLoop_reads {reply : Reply (List Bytes × Bytes)}
    (h : stringLoop H frames src = .ok reply) (rest : Bytes) :
    ReadsString src rest ↔ ∃ parts, reply = .ok (parts, rest) := by
  induction frames generalizing src reply with
  | zero => cases h
  | succ frames ih =>
    cases stringForm src with
    | finished =>
      cases h
      constructor
      · intro hr; cases hr
      · rintro ⟨parts, hp⟩; cases hp
    | quote r =>
      cases h
      constructor
      · intro hr
        cases hr with
        | quote => exact ⟨[], rfl⟩
        | plain hq => exact absurd rfl hq
      · rintro ⟨parts, hp⟩
        cases hp
        exact .quote _
    | backslash =>
      cases h
      constructor
      · intro hr
        cases hr with
        | plain _ hb => exact absurd rfl hb
      · rintro ⟨parts, hp⟩; cases hp
    | unicode r =>
      rw [stringLoop_unicode] at h
      obtain ⟨chunk, -, h⟩ := bind_eq_ok h
      obtain ⟨more, hmore, h⟩ := bind_eq_ok h
      rw [push_ok_iff h, ← ih hmore]
      constructor
      · intro hr
        cases hr with
        | unicode hr => exact hr
        | escape hu => exact absurd rfl hu
        | plain _ hb => exact absurd rfl hb
      · exact .unicode
    | escape next r hu =>
      rw [stringLoop_escape H hu] at h
      obtain ⟨more, hmore, h⟩ := bind_eq_ok h
      rw [push_ok_iff h, ← ih hmore]
      constructor
      · intro hr
        cases hr with
        | unicode hr => exact absurd rfl hu
        | escape _ hr => exact hr
        | plain _ hb => exact absurd rfl hb
      · exact .escape hu
    | plain b r hq hb =>
      rw [stringLoop_plain H hq hb] at h
      obtain ⟨more, hmore, h⟩ := bind_eq_ok h
      rw [push_ok_iff h, ← ih hmore]
      constructor
      · intro hr
        cases hr with
        | quote => exact absurd rfl hq
        | unicode hr => exact absurd rfl hb
        | escape _ hr => exact absurd rfl hb
        | plain _ _ hr => exact hr
      · exact .plain hq hb

theorem string_reads {reply : Reply (String × Bytes)} (h : Scan.string H frames src = .ok reply)
    (rest : Bytes) : ReadsString src rest ↔ ∃ s, reply = .ok (s, rest) := by
  cases frames with
  | zero => cases h
  | succ frames =>
    obtain ⟨loop, hloop, h⟩ := bind_eq_ok h
    rw [stringLoop_reads hloop]
    cases loop with
    | error e =>
      cases h
      simp
    | ok p =>
      obtain ⟨parts, r⟩ := p
      cases h
      simp

/-! ## The parser reads this language -/

theorem dropComma_length (r : Bytes) : (dropComma r).length ≤ r.length :=
  (dropComma_suffix r).length_le

/-- An object that is read is one, by what its values are. -/
theorem objectLoopIn_reads {parseValue : Bytes → Run (Reply (VmValue × Bytes))}
    (hreads : ∀ {src reply}, parseValue src = .ok reply →
      ∀ rest, ReadsValue H src rest ↔ ∃ v, reply = .ok (v, rest))
    (hwithin : ∀ {r v rest}, parseValue r = .ok (.ok (v, rest)) → Within rest r)
    {left : Nat} (hleft : src.length ≤ left) {reply : Reply (List (String × VmValue) × Bytes)}
    (h : objectLoopIn H frames parseValue left src = .ok reply) (rest : Bytes) :
    ReadsObject H src rest ↔ ∃ entries, reply = .ok (entries, rest) := by
  induction left generalizing src reply with
  | zero =>
    obtain rfl := List.length_eq_zero_iff.mp (Nat.le_zero.mp hleft)
    obtain ⟨r1, -, h⟩ := bind_eq_ok h
    cases h
    constructor
    · intro hr
      cases hr with
      | close hs => cases hs
      | entry hs => cases hs
    · rintro ⟨entries, he⟩; cases he
  | succ left ih =>
    rw [objectLoopIn] at h
    obtain ⟨r1, hskip, h⟩ := bind_eq_ok h
    have hlen1 := (skip_suffix H hskip).length_le
    obtain rfl := skip_ok H hskip
    cases h1 : skipWs src with
    | nil =>
      rw [h1] at h
      cases h
      constructor
      · intro hr
        cases hr with
        | close hs => rw [h1] at hs; cases hs
        | entry hs => rw [h1] at hs; cases hs
      · rintro ⟨entries, he⟩; cases he
    | cons b r1 =>
      rw [h1] at h hlen1
      simp only at h
      by_cases hb : b = 125
      · subst hb
        cases h
        constructor
        · intro hr
          cases hr with
          | close hs =>
            rw [h1] at hs
            cases hs
            exact ⟨[], rfl⟩
          | entry hs => rw [h1] at hs; cases hs
        · rintro ⟨entries, he⟩
          cases he
          exact .close h1
      rw [if_neg hb] at h
      by_cases hq : b ≠ 34
      · rw [if_pos hq] at h
        cases h
        constructor
        · intro hr
          cases hr with
          | close hs => rw [h1] at hs; cases hs; exact absurd rfl hb
          | entry hs => rw [h1] at hs; cases hs; exact absurd rfl hq
        · rintro ⟨entries, he⟩; cases he
      rw [if_neg hq] at h
      obtain rfl := Decidable.not_not.mp hq
      -- an object that goes on at a key is an entry
      have hentry : ReadsObject H src rest ↔ ∃ keyEnd, ReadsString r1 keyEnd ∧
          ∃ r3, skipWs keyEnd = 58 :: r3 ∧ ∃ valEnd, ReadsValue H r3 valEnd ∧
            ∃ c r5, skipWs valEnd = c :: r5 ∧ ReadsObject H (dropComma (c :: r5)) rest := by
        constructor
        · intro hr
          cases hr with
          | close hs => rw [h1] at hs; cases hs
          | entry hs hk hc hv hw ho =>
            rw [h1] at hs
            cases hs
            exact ⟨_, hk, _, hc, _, hv, _, _, hw, ho⟩
        · rintro ⟨_, hk, _, hc, _, hv, _, _, hw, ho⟩
          exact .entry h1 hk hc hv hw ho
      rw [hentry]
      obtain ⟨key, hkey, h⟩ := bind_eq_ok h
      cases key with
      | error e =>
        cases h
        simp [string_reads hkey]
      | ok key =>
        obtain ⟨key, r2⟩ := key
        have hlen2 := (string_suffix H hkey).length_le
        have hk : ∀ x, ReadsString r1 x ↔ x = r2 := by
          intro x
          rw [string_reads hkey]
          simp [eq_comm]
        obtain ⟨r3, hskip3, h⟩ := bind_eq_ok h
        have hlen3 := (skip_suffix H hskip3).length_le
        obtain rfl := skip_ok H hskip3
        simp only [hk, exists_eq_left]
        cases h3 : skipWs r2 with
        | nil =>
          rw [h3] at h
          cases h
          simp
        | cons c r3 =>
          rw [h3] at h hlen3
          simp only at h
          by_cases hc : c ≠ 58
          · rw [if_pos hc] at h
            cases h
            simp [hc]
          rw [if_neg hc] at h
          obtain rfl := Decidable.not_not.mp hc
          simp only [List.cons.injEq, true_and, exists_eq_left']
          obtain ⟨val, hval, h⟩ := bind_eq_ok h
          cases val with
          | error e =>
            cases h
            simp [hreads hval]
          | ok val =>
            obtain ⟨val, r4⟩ := val
            have hlen4 := (hwithin hval).2
            have hv : ∀ x, ReadsValue H r3 x ↔ x = r4 := by
              intro x
              rw [hreads hval]
              simp [eq_comm]
            obtain ⟨r5, hskip5, h⟩ := bind_eq_ok h
            have hlen5 := (skip_suffix H hskip5).length_le
            obtain rfl := skip_ok H hskip5
            simp only [hv, exists_eq_left]
            cases h5 : skipWs r4 with
            | nil =>
              rw [h5] at h
              cases h
              simp
            | cons d r5 =>
              rw [h5] at h hlen5
              obtain ⟨more, hmore, h⟩ := bind_eq_ok h
              have hlen := dropComma_length (d :: r5)
              simp only [List.length_cons] at hlen1 hlen3 hlen5 hlen
              have hmores := ih (by omega) hmore
              have hrest : (∃ c r, d :: r5 = c :: r ∧ ReadsObject H (dropComma (c :: r)) rest) ↔
                  ReadsObject H (dropComma (d :: r5)) rest := by
                constructor
                · rintro ⟨c, r, hcr, ho⟩
                  exact hcr ▸ ho
                · exact fun ho => ⟨d, r5, rfl, ho⟩
              rw [hrest, hmores]
              cases more with
              | error e =>
                cases h
                simp
              | ok more =>
                obtain ⟨more, r6⟩ := more
                cases h
                simp

/-- The first byte decides what a value is. -/
theorem readsValue_iff {b : UInt8} {r : Bytes} (h : skipWs src = b :: r) (rest : Bytes) :
    ReadsValue H src rest ↔ b = 34 ∧ ReadsString r rest ∨ b = 91 ∧ ReadsArray H r rest ∨
      b = 123 ∧ ReadsObject H r rest ∨
      (∃ bs, (b, bs) ∈ words ∧ bs.isPrefixOf r = true ∧ rest = r.drop bs.length) ∨
      b ∉ leadBytes ∧ (∃ v, readNumber H ((b :: r).takeWhile isNumberByte) = .ok v) ∧
        rest = (b :: r).dropWhile isNumberByte := by
  constructor
  · intro hr
    cases hr with
    | string hs hr =>
      rw [h] at hs
      cases hs
      exact .inl ⟨rfl, hr⟩
    | array hs hr =>
      rw [h] at hs
      cases hs
      exact .inr (.inl ⟨rfl, hr⟩)
    | object hs hr =>
      rw [h] at hs
      cases hs
      exact .inr (.inr (.inl ⟨rfl, hr⟩))
    | word hs hw hp =>
      rw [h] at hs
      cases hs
      exact .inr (.inr (.inr (.inl ⟨_, hw, hp, rfl⟩)))
    | number hs hb hn =>
      rw [h] at hs
      cases hs
      exact .inr (.inr (.inr (.inr ⟨hb, ⟨_, hn⟩, rfl⟩)))
  · rintro (⟨rfl, hr⟩ | ⟨rfl, hr⟩ | ⟨rfl, hr⟩ | ⟨bs, hw, hp, rfl⟩ | ⟨hb, ⟨v, hn⟩, rfl⟩)
    · exact .string h hr
    · exact .array h hr
    · exact .object h hr
    · exact .word h hw hp
    · exact .number h hb hn

theorem wrap_ok_iff {α β : Type} {m : Run (Reply (α × Bytes))}
    {wrap : Reply (α × Bytes) → Run (Reply (β × Bytes))} {reply : Reply (β × Bytes)}
    {reads : Bytes → Prop}
    (hreads : ∀ {reply}, m = .ok reply → ∀ rest, reads rest ↔ ∃ a, reply = .ok (a, rest))
    (h : m >>= wrap = .ok reply) (hok : ∀ a rest, ∃ b, wrap (.ok (a, rest)) = .ok (.ok (b, rest)))
    (herror : ∀ e, wrap (.error e) = .ok (.error e)) (rest : Bytes) :
    reads rest ↔ ∃ b, reply = .ok (b, rest) := by
  obtain ⟨r, hr, h⟩ := bind_eq_ok h
  rw [hreads hr]
  cases r with
  | error e =>
    rw [herror] at h
    cases h
    simp
  | ok p =>
    obtain ⟨a, r⟩ := p
    obtain ⟨b, hb⟩ := hok a r
    rw [hb] at h
    cases h
    simp

theorem word_ok_iff {r bs : Bytes} {v : VmValue} {e : String} {reply : Reply (VmValue × Bytes)}
    (h : (do
        if ← word H frames r bs then return .ok (v, r.drop bs.length)
        else return .error e : Run (Reply (VmValue × Bytes))) = .ok reply) (rest : Bytes) :
    (bs.isPrefixOf r = true ∧ rest = r.drop bs.length) ↔ ∃ v, reply = .ok (v, rest) := by
  cases frames with
  | zero => cases h
  | succ frames =>
    simp only [word, Host.enter, ok_bind] at h
    cases hp : bs.isPrefixOf r with
    | false =>
      rw [hp] at h
      cases h
      simp
    | true =>
      rw [hp] at h
      cases h
      simp [eq_comm]

theorem number_ok_iff {r : Bytes} {reply : Reply (VmValue × Bytes)}
    (h : number H frames r = .ok reply) (rest : Bytes) :
    ((∃ v, readNumber H (r.takeWhile isNumberByte) = .ok v) ∧ rest = r.dropWhile isNumberByte) ↔
      ∃ v, reply = .ok (v, rest) := by
  rcases frames with _ | _ | frames
  · cases h
  · cases h
  · simp only [number, Host.enter] at h
    cases hn : readNumber H (r.takeWhile isNumberByte) with
    | error e =>
      rw [hn] at h
      cases h
      simp [Except.map]
    | ok v =>
      rw [hn] at h
      cases h
      simp [Except.map, eq_comm]

/-- A value is read just if it is one of the grammar. -/
theorem value_reads (frames : Nat) :
    (∀ {src reply}, value H frames src = .ok reply →
        ∀ rest, ReadsValue H src rest ↔ ∃ v, reply = .ok (v, rest)) ∧
      (∀ {src reply}, arrayLoop H frames src = .ok reply →
        ∀ rest, ReadsArray H src rest ↔ ∃ vs, reply = .ok (vs, rest)) ∧
      ∀ {src reply}, objectLoop H frames src = .ok reply →
        ∀ rest, ReadsObject H src rest ↔ ∃ entries, reply = .ok (entries, rest) := by
  -- A value and the loops for its members call each other, one frame deeper each time.
  induction frames with
  | zero =>
    refine ⟨fun h => ?_, fun h => ?_, fun h => ?_⟩
    all_goals cases h
  | succ frames ih =>
    obtain ⟨ihv, iha, iho⟩ := ih
    refine ⟨fun {src reply} h rest => ?_, fun {src reply} h rest => ?_,
      fun {src reply} h => ?_⟩
    · rw [value] at h
      obtain ⟨r1, hskip, h⟩ := bind_eq_ok h
      obtain rfl := skip_ok H hskip
      cases h1 : skipWs src with
      | nil =>
        rw [h1] at h
        cases h
        constructor
        · intro hr
          cases hr with
          | string hs => rw [h1] at hs; cases hs
          | array hs => rw [h1] at hs; cases hs
          | object hs => rw [h1] at hs; cases hs
          | word hs => rw [h1] at hs; cases hs
          | number hs => rw [h1] at hs; cases hs
        · rintro ⟨v, hv⟩; cases hv
      | cons b r1 =>
        rw [h1] at h
        rw [readsValue_iff h1]
        simp only at h
        by_cases hb : b = 34
        · subst hb
          rw [if_pos rfl] at h
          refine Iff.trans ?_ (wrap_ok_iff string_reads h (fun _ _ => ⟨_, rfl⟩) (fun _ => rfl) rest)
          simp [words, leadBytes]
        rw [if_neg hb] at h
        by_cases hb : b = 91
        · subst hb
          rw [if_pos rfl] at h
          refine Iff.trans ?_ (wrap_ok_iff iha h (fun _ _ => ⟨_, rfl⟩) (fun _ => rfl) rest)
          simp [words, leadBytes]
        rw [if_neg hb] at h
        by_cases hb : b = 123
        · subst hb
          rw [if_pos rfl] at h
          refine Iff.trans ?_ (wrap_ok_iff iho h (fun _ _ => ⟨_, rfl⟩) (fun _ => rfl) rest)
          simp [words, leadBytes]
        rw [if_neg hb] at h
        by_cases hb : b = 116
        · subst hb
          rw [if_pos rfl] at h
          rw [← word_ok_iff h]
          simp [words, leadBytes]
        rw [if_neg hb] at h
        by_cases hb : b = 102
        · subst hb
          rw [if_pos rfl] at h
          rw [← word_ok_iff h]
          simp [words, leadBytes]
        rw [if_neg hb] at h
        by_cases hb : b = 110
        · subst hb
          rw [if_pos rfl] at h
          rw [← word_ok_iff h]
          simp [words, leadBytes]
        rw [if_neg hb] at h
        rw [← number_ok_iff h]
        simp [words, leadBytes, *]
    · rw [arrayLoop] at h
      obtain ⟨r1, hskip, h⟩ := bind_eq_ok h
      obtain rfl := skip_ok H hskip
      cases h1 : skipWs src with
      | nil =>
        rw [h1] at h
        cases h
        constructor
        · intro hr
          cases hr with
          | close hs => rw [h1] at hs; cases hs
          | element hs => rw [h1] at hs; cases hs
        · rintro ⟨vs, hv⟩; cases hv
      | cons b r1 =>
        rw [h1] at h
        simp only at h
        by_cases hb : b = 93
        · subst hb
          cases h
          constructor
          · intro hr
            cases hr with
            | close hs =>
              rw [h1] at hs
              cases hs
              exact ⟨[], rfl⟩
            | element hs hb => rw [h1] at hs; cases hs; exact absurd rfl hb
          · rintro ⟨vs, hv⟩
            cases hv
            exact .close h1
        rw [if_neg hb] at h
        have helement : ReadsArray H src rest ↔ ∃ mid, ReadsValue H (b :: r1) mid ∧
            ∃ c r3, skipWs mid = c :: r3 ∧ ReadsArray H (dropComma (c :: r3)) rest := by
          constructor
          · intro hr
            cases hr with
            | close hs => rw [h1] at hs; cases hs; exact absurd rfl hb
            | element hs _ hv hw ha =>
              rw [h1] at hs
              cases hs
              exact ⟨_, hv, _, _, hw, ha⟩
          · rintro ⟨_, hv, _, _, hw, ha⟩
            exact .element h1 hb hv hw ha
        rw [helement]
        obtain ⟨val, hval, h⟩ := bind_eq_ok h
        cases val with
        | error e =>
          cases h
          simp [ihv hval]
        | ok val =>
          obtain ⟨val, r2⟩ := val
          have hv : ∀ x, ReadsValue H (b :: r1) x ↔ x = r2 := by
            intro x
            rw [ihv hval]
            simp [eq_comm]
          obtain ⟨r3, hskip3, h⟩ := bind_eq_ok h
          obtain rfl := skip_ok H hskip3
          simp only [hv, exists_eq_left]
          cases h3 : skipWs r2 with
          | nil =>
            rw [h3] at h
            cases h
            simp
          | cons c r3 =>
            rw [h3] at h
            obtain ⟨more, hmore, h⟩ := bind_eq_ok h
            have hrest : (∃ d r, c :: r3 = d :: r ∧ ReadsArray H (dropComma (d :: r)) rest) ↔
                ReadsArray H (dropComma (c :: r3)) rest := by
              constructor
              · rintro ⟨d, r, hdr, ha⟩
                exact hdr ▸ ha
              · exact fun ha => ⟨c, r3, rfl, ha⟩
            rw [hrest, iha hmore]
            cases more with
            | error e =>
              cases h
              simp
            | ok more =>
              obtain ⟨more, r4⟩ := more
              cases h
              simp
    · rw [objectLoop] at h
      exact objectLoopIn_reads ihv (value_within H frames).1 (Nat.le_refl _) h

/-! ## What is read is not empty -/

theorem skipWs_length {b : UInt8} {r : Bytes} (h : skipWs src = b :: r) :
    r.length < src.length := by
  have := (skipWs_suffix src).length_le
  rw [h, List.length_cons] at this
  omega

/-- A string takes at least its quotes. -/
theorem ReadsString.shorter {rest : Bytes} (h : ReadsString src rest) :
    rest.length < src.length := by
  induction h with
  | quote => simp
  | unicode _ ih =>
    simp only [List.length_drop, List.length_cons] at ih ⊢
    omega
  | escape _ _ ih =>
    simp only [List.length_cons]
    omega
  | plain _ _ _ ih =>
    simp only [List.length_cons]
    omega

mutual

/-- A value takes at least a byte. -/
theorem ReadsValue.shorter {src rest : Bytes} : ReadsValue H src rest → rest.length < src.length
  | .string hs hr => by
    have := skipWs_length hs
    have := hr.shorter
    omega
  | .array hs hr => by
    have := skipWs_length hs
    have := hr.shorter
    omega
  | .object hs hr => by
    have := skipWs_length hs
    have := hr.shorter
    omega
  | .word hs _ _ => by
    have := skipWs_length hs
    simp only [List.length_drop]
    omega
  | @ReadsValue.number _ src r b v hs _ hn => by
    have := skipWs_length hs
    have hne : (b :: r).takeWhile isNumberByte ≠ [] := by
      intro hnil
      rw [hnil] at hn
      cases hn
    have hlen := congrArg List.length
      (List.takeWhile_append_dropWhile (p := isNumberByte) (l := b :: r))
    have hpos := List.length_pos_iff.mpr hne
    simp only [List.length_append, List.length_cons] at hlen
    omega

theorem ReadsArray.shorter {src rest : Bytes} : ReadsArray H src rest → rest.length < src.length
  | .close hs => skipWs_length hs
  | @ReadsArray.element _ _ _ _ r' _ _ c hs _ hv hw ha => by
    have := skipWs_length hs
    have := hv.shorter
    have := skipWs_length hw
    have := ha.shorter
    have := dropComma_length (c :: r')
    simp only [List.length_cons] at *
    omega

theorem ReadsObject.shorter {src rest : Bytes} : ReadsObject H src rest → rest.length < src.length
  | .close hs => skipWs_length hs
  | @ReadsObject.entry _ _ _ _ _ _ r'' _ c hs hk hc hv hw ho => by
    have := skipWs_length hs
    have := hk.shorter
    have := skipWs_length hc
    have := hv.shorter
    have := skipWs_length hw
    have := ho.shorter
    have := dropComma_length (c :: r'')
    simp only [List.length_cons] at *
    omega

end

end Airl.Json
