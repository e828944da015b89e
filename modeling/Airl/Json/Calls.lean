import Airl.Json.Grammar
import Airl.Library.CallTree

/-! # The calls of the parser

`json-parse` makes calls, each in a frame of its own; the entries of an object are read
in one frame. Two things can stop it: a stack that is full, and a `\u` escape, whose four
bytes are fetched and converted without a look at what they are. The calls are those
of the source; `leaf` stands for a function that calls none.
-/

namespace Airl.Json

open Scan CallTree

/-- A call of one of the parser's functions, with the rest of the text it works on. -/
inductive Call where
  | parse (src : Bytes)
  | value (src : Bytes)
  | array (src : Bytes)
  | object (src : Bytes)
  | string (src : Bytes)
  | stringLoop (src : Bytes)
  | unicode (src : Bytes)
  | number (src : Bytes)
  /-- `concat` of one chunk and the chunks after it. -/
  | concat
  | leaf

variable (H : Host)

/-- Which calls a call makes. -/
inductive Makes : Call → Call → Prop
  | parse_value {src : Bytes} : src ≠ [] → Makes (.parse src) (.value src)
  | parse_skip {src rest : Bytes} : src ≠ [] → ReadsValue H src rest → Makes (.parse src) .leaf
  | value_skip {src : Bytes} : Makes (.value src) .leaf
  | value_string {src r : Bytes} : skipWs src = 34 :: r → Makes (.value src) (.string r)
  | value_array {src r : Bytes} : skipWs src = 91 :: r → Makes (.value src) (.array r)
  | value_object {src r : Bytes} : skipWs src = 123 :: r → Makes (.value src) (.object r)
  | value_number {src r : Bytes} {b : UInt8} : skipWs src = b :: r → b ∉ leadBytes →
      Makes (.value src) (.number (b :: r))
  | array_skip {src : Bytes} : Makes (.array src) .leaf
  | array_value {src r : Bytes} {b : UInt8} : skipWs src = b :: r → b ≠ 93 →
      Makes (.array src) (.value (b :: r))
  | array_rest {src r mid r' : Bytes} {b c : UInt8} : skipWs src = b :: r → b ≠ 93 →
      ReadsValue H (b :: r) mid → skipWs mid = c :: r' →
      Makes (.array src) (.array (dropComma (c :: r')))
  | object_skip {src : Bytes} : Makes (.object src) .leaf
  | object_key {src r : Bytes} : skipWs src = 34 :: r → Makes (.object src) (.string r)
  | object_value {src r keyEnd r' : Bytes} : skipWs src = 34 :: r → ReadsString r keyEnd →
      skipWs keyEnd = 58 :: r' → Makes (.object src) (.value r')
  | string_loop {src : Bytes} : Makes (.string src) (.stringLoop src)
  | loop_escape {src : Bytes} : Makes (.stringLoop (92 :: 117 :: src)) (.unicode src)
  | loop_unicode {src : Bytes} :
      Makes (.stringLoop (92 :: 117 :: src)) (.stringLoop (src.drop 4))
  | loop_escaped {next : UInt8} {src : Bytes} : next ≠ 117 →
      Makes (.stringLoop (92 :: next :: src)) (.stringLoop src)
  | loop_plain {b : UInt8} {src : Bytes} : b ≠ 34 → b ≠ 92 →
      Makes (.stringLoop (b :: src)) (.stringLoop src)
  | loop_concat {b : UInt8} {src rest : Bytes} : b ≠ 34 → ReadsString (b :: src) rest →
      Makes (.stringLoop (b :: src)) .concat
  | unicode_digit {src : Bytes} : Makes (.unicode src) .leaf
  | number_end {src : Bytes} : Makes (.number src) .leaf
  | concat_tail : Makes .concat .leaf

/-- The entries after the first one are read in the same frame. -/
inductive Continues : Call → Call → Prop
  | entry {src r keyEnd r' valEnd r'' : Bytes} {c : UInt8} : skipWs src = 34 :: r →
      ReadsString r keyEnd → skipWs keyEnd = 58 :: r' → ReadsValue H r' valEnd →
      skipWs valEnd = c :: r'' → Continues (.object src) (.object (dropComma (c :: r'')))

/-- Four bytes follow, and they are hexadecimal digits where the clause of
`hex-digit-to-int` was compiled. -/
def EscapeComplete (contracts : Bool) (src : Bytes) : Prop :=
  4 ≤ src.length ∧ (contracts = true → ∀ b ∈ src.take 4, isHexDigit b = true)

/-- What a call needs of the text. -/
def Call.Meets (contracts : Bool) : Call → Prop
  | .unicode src => EscapeComplete contracts src
  | _ => True

/-- The calls of the JSON parser. -/
def parserCalls : System Call where
  makes := Makes H
  continues := Continues H
  meets := Call.Meets H.contracts

/-- The call comes to an end, whatever it answers. -/
def Call.Completes (frames : Nat) : Call → Prop
  | .parse src => ∃ reply, Scan.text H frames src = .ok reply
  | .value src => ∃ reply, Scan.value H frames src = .ok reply
  | .array src => ∃ reply, Scan.arrayLoop H frames src = .ok reply
  | .object src => ∃ reply, Scan.objectLoop H frames src = .ok reply
  | .string src => ∃ reply, Scan.string H frames src = .ok reply
  | .stringLoop src => ∃ reply, Scan.stringLoop H frames src = .ok reply
  | .unicode src => ∃ bytes, Scan.unicode H frames src = .ok bytes
  | .number src => ∃ reply, Scan.number H frames src = .ok reply
  | .concat => 1 < frames
  | .leaf => 0 < frames

/-! ## What the innermost calls need -/

variable {H} {src : Bytes} {frames : Nat}

theorem enter_ok {α : Type} {frames : Nat} {body : Nat → Run α} {a : α}
    (h : H.enter frames body = .ok a) : ∃ n, frames = n + 1 ∧ body n = .ok a := by
  cases frames with
  | zero => cases h
  | succ n => exact ⟨n, rfl, h⟩

theorem hexValue_bounds (b : UInt8) : isHexDigit b = true → 0 ≤ hexValue b ∧ hexValue b ≤ 15 := by
  revert b
  exact forall_byte (by decide +kernel)

theorem assert_ok_iff {kind : ContractKind} {function clause : String} {holds : Bool} {u : Unit} :
    H.assert kind function clause holds = .ok u ↔ (H.contracts = true → holds = true) := by
  unfold Host.assert
  cases H.contracts <;> cases holds <;> simp

theorem hexDigit_ok_iff {b : UInt8} :
    (∃ n, hexDigitToInt H frames b = .ok n) ↔
      0 < frames ∧ (H.contracts = true → isHexDigit b = true) := by
  cases frames with
  | zero =>
    constructor
    · rintro ⟨n, h⟩; cases h
    · rintro ⟨h, -⟩; cases h
  | succ frames =>
    constructor
    · rintro ⟨n, h⟩
      obtain ⟨u, hu, -⟩ := bind_eq_ok h
      exact ⟨Nat.succ_pos _, assert_ok_iff.mp hu⟩
    · rintro ⟨-, h⟩
      have hreq : H.requires "hex-digit-to-int"
          "(or (and (>= b 48) (<= b 57)) (or (and (>= b 65) (<= b 70)) (and (>= b 97) (<= b 102))))"
          (isHexDigit b) = .ok () := assert_ok_iff.mpr h
      have hens : H.ensures "hex-digit-to-int" "(and (>= result 0) (<= result 15))"
          (decide (0 ≤ hexValue b ∧ hexValue b ≤ 15)) = .ok () :=
        assert_ok_iff.mpr fun hc => decide_eq_true (hexValue_bounds b (h hc))
      simp only [hexDigitToInt, Host.enter, hreq, hens, ok_bind]
      exact ⟨_, rfl⟩

theorem exists_four_cons {bytes : Bytes} (h : 4 ≤ bytes.length) :
    ∃ b0 b1 b2 b3 r, bytes = b0 :: b1 :: b2 :: b3 :: r := by
  obtain ⟨b0, r0, rfl⟩ := List.exists_cons_of_length_pos (Nat.lt_of_lt_of_le (by decide) h)
  obtain ⟨b1, r1, rfl⟩ := List.exists_cons_of_length_pos
    (Nat.lt_of_lt_of_le (by decide) (Nat.le_of_succ_le_succ h))
  obtain ⟨b2, r2, rfl⟩ := List.exists_cons_of_length_pos
    (Nat.lt_of_lt_of_le (by decide) (Nat.le_of_succ_le_succ (Nat.le_of_succ_le_succ h)))
  obtain ⟨b3, r, rfl⟩ := List.exists_cons_of_length_pos
    (Nat.le_of_succ_le_succ (Nat.le_of_succ_le_succ (Nat.le_of_succ_le_succ h)))
  exact ⟨b0, b1, b2, b3, r, rfl⟩

/-- A `\u` escape is converted just if it is complete. -/
theorem unicode_ok_iff : (∃ bytes, Scan.unicode H (frames + 1) src = .ok bytes) ↔
    0 < frames ∧ EscapeComplete H.contracts src := by
  constructor
  · rintro ⟨bytes, h⟩
    have hlen := unicode_length H h
    obtain ⟨b0, b1, b2, b3, r, rfl⟩ := exists_four_cons hlen
    obtain ⟨_, p0, h⟩ := bind_eq_ok h
    cases p0
    obtain ⟨d0, h0, h⟩ := bind_eq_ok h
    obtain ⟨_, p1, h⟩ := bind_eq_ok h
    cases p1
    obtain ⟨d1, h1, h⟩ := bind_eq_ok h
    obtain ⟨_, p2, h⟩ := bind_eq_ok h
    cases p2
    obtain ⟨d2, h2, h⟩ := bind_eq_ok h
    obtain ⟨_, p3, h⟩ := bind_eq_ok h
    cases p3
    obtain ⟨d3, h3, -⟩ := bind_eq_ok h
    obtain ⟨hframes, h0⟩ := hexDigit_ok_iff.mp ⟨d0, h0⟩
    obtain ⟨-, h1⟩ := hexDigit_ok_iff.mp ⟨d1, h1⟩
    obtain ⟨-, h2⟩ := hexDigit_ok_iff.mp ⟨d2, h2⟩
    obtain ⟨-, h3⟩ := hexDigit_ok_iff.mp ⟨d3, h3⟩
    refine ⟨hframes, hlen, fun hc b hb => ?_⟩
    simp only [List.take_succ_cons, List.take_zero, List.mem_cons, List.not_mem_nil,
      or_false] at hb
    rcases hb with rfl | rfl | rfl | rfl
    · exact h0 hc
    · exact h1 hc
    · exact h2 hc
    · exact h3 hc
  · rintro ⟨hframes, hlen, hdigits⟩
    obtain ⟨b0, b1, b2, b3, r, rfl⟩ := exists_four_cons hlen
    have hdigit : ∀ b ∈ [b0, b1, b2, b3], ∃ n, hexDigitToInt H frames b = .ok n :=
      fun b hb => hexDigit_ok_iff.mpr ⟨hframes, fun hc => hdigits hc b hb⟩
    obtain ⟨d0, h0⟩ := hdigit b0 (by simp)
    obtain ⟨d1, h1⟩ := hdigit b1 (by simp)
    obtain ⟨d2, h2⟩ := hdigit b2 (by simp)
    obtain ⟨d3, h3⟩ := hdigit b3 (by simp)
    have hpeek : ∀ i b, (b0 :: b1 :: b2 :: b3 :: r)[i]? = some b →
        peek (b0 :: b1 :: b2 :: b3 :: r) i = .ok b := by
      intro i b hb
      simp only [peek, hb]
    simp only [Scan.unicode, Host.enter, hpeek 0 b0 rfl, hpeek 1 b1 rfl, hpeek 2 b2 rfl,
      hpeek 3 b3 rfl, ok_bind, h0, h1, h2, h3]
    exact ⟨_, rfl⟩

theorem concat_ok_iff {α : Type} {x : α} {xs : List α} :
    (∃ l, concat H frames [x] xs = .ok l) ↔ 1 < frames :=
  (concat_returns [x] xs).exists_iff

/-- A chunk is put in front of what was read, if anything was. -/
theorem push_completes_iff {chunk : Bytes} {reply : Reply (List Bytes × Bytes)} :
    (∃ pushed, push H frames chunk reply = .ok pushed) ↔
      ((∃ p, reply = .ok p) → 1 < frames) := by
  cases reply with
  | error e => simp [push]
  | ok p =>
    have hp : (∃ q, (Except.ok p : Reply (List Bytes × Bytes)) = .ok q) := ⟨p, rfl⟩
    simp only [hp, forall_const]
    rw [← show (∃ l, concat H frames [chunk] p.1 = .ok l) ↔ 1 < frames from concat_ok_iff]
    constructor
    · rintro ⟨pushed, h⟩
      obtain ⟨l, hl, -⟩ := bind_eq_ok h
      exact ⟨l, hl⟩
    · rintro ⟨l, hl⟩
      simp only [push, hl, ok_bind]
      exact ⟨_, rfl⟩

/-- A string's loop goes on: what is read first, then the chunk in front. -/
theorem pushed_completes_iff {chunk rest : Bytes}
    (hreads : ∀ r, ReadsString src r ↔ ReadsString rest r) :
    (∃ pushed, (do push H frames chunk (← Scan.stringLoop H frames rest) : Run _) = .ok pushed) ↔
      (∃ reply, Scan.stringLoop H frames rest = .ok reply) ∧
        ((∃ r, ReadsString src r) → 1 < frames) := by
  constructor
  · rintro ⟨pushed, h⟩
    obtain ⟨reply, hreply, h⟩ := bind_eq_ok h
    refine ⟨⟨reply, hreply⟩, ?_⟩
    rintro ⟨r, hr⟩
    obtain ⟨parts, hparts⟩ := (stringLoop_reads hreply r).mp ((hreads r).mp hr)
    exact push_completes_iff.mp ⟨pushed, h⟩ ⟨_, hparts⟩
  · rintro ⟨⟨reply, hreply⟩, hconcat⟩
    simp only [hreply, ok_bind]
    refine push_completes_iff.mpr ?_
    rintro ⟨⟨parts, r⟩, rfl⟩
    exact hconcat ⟨r, (hreads r).mpr ((stringLoop_reads hreply r).mpr ⟨parts, rfl⟩)⟩

/-! ## Call by call -/

/-- A call completes in one frame more just if the calls that it makes complete. -/
theorem stringLoop_frame : (Call.stringLoop src).Completes H (frames + 1) ↔
    ∀ d, Makes H (.stringLoop src) d → d.Completes H frames := by
  -- The form of the text says which calls the loop makes.
  cases stringForm src with
  | finished =>
    refine ⟨fun _ d hd => ?_, fun _ => ⟨_, rfl⟩⟩
    cases hd
  | quote r =>
    refine ⟨fun _ d hd => ?_, fun _ => ⟨_, rfl⟩⟩
    cases hd with
    | loop_plain hq => exact absurd rfl hq
    | loop_concat hq => exact absurd rfl hq
  | backslash =>
    refine ⟨fun _ d hd => ?_, fun _ => ⟨_, rfl⟩⟩
    cases hd with
    | loop_plain _ hb => exact absurd rfl hb
    | loop_concat _ hr =>
      cases hr with
      | plain _ hb => exact absurd rfl hb
  | unicode r =>
    have hreads : ∀ rest, ReadsString (92 :: 117 :: r) rest ↔ ReadsString (r.drop 4) rest := by
      intro rest
      constructor
      · intro hr
        cases hr with
        | unicode hr => exact hr
        | escape hu => exact absurd rfl hu
        | plain _ hb => exact absurd rfl hb
      · exact .unicode
    rw [Call.Completes, stringLoop_unicode]
    constructor
    · rintro ⟨reply, h⟩ d hd
      obtain ⟨chunk, hchunk, h⟩ := bind_eq_ok h
      obtain ⟨hloop, hconcat⟩ := (pushed_completes_iff hreads).mp ⟨reply, h⟩
      cases hd with
      | loop_escape => exact ⟨chunk, hchunk⟩
      | loop_unicode => exact hloop
      | loop_escaped hu => exact absurd rfl hu
      | loop_plain _ hb => exact absurd rfl hb
      | loop_concat _ hr => exact hconcat ⟨_, hr⟩
    · intro h
      obtain ⟨chunk, hchunk⟩ := h _ .loop_escape
      rw [hchunk, ok_bind]
      exact (pushed_completes_iff hreads).mpr ⟨h _ .loop_unicode, fun ⟨rest, hr⟩ =>
        h _ (.loop_concat (by decide) hr)⟩
  | escape next r hu =>
    have hreads : ∀ rest, ReadsString (92 :: next :: r) rest ↔ ReadsString r rest := by
      intro rest
      constructor
      · intro hr
        cases hr with
        | unicode hr => exact absurd rfl hu
        | escape _ hr => exact hr
        | plain _ hb => exact absurd rfl hb
      · exact .escape hu
    rw [Call.Completes, stringLoop_escape H hu, pushed_completes_iff hreads]
    constructor
    · rintro ⟨hloop, hconcat⟩ d hd
      cases hd with
      | loop_escape => exact absurd rfl hu
      | loop_unicode => exact absurd rfl hu
      | loop_escaped _ => exact hloop
      | loop_plain _ hb => exact absurd rfl hb
      | loop_concat _ hr => exact hconcat ⟨_, hr⟩
    · intro h
      exact ⟨h _ (.loop_escaped hu), fun ⟨rest, hr⟩ => h _ (.loop_concat (by decide) hr)⟩
  | plain b r hq hb =>
    have hreads : ∀ rest, ReadsString (b :: r) rest ↔ ReadsString r rest := by
      intro rest
      constructor
      · intro hr
        cases hr with
        | quote => exact absurd rfl hq
        | unicode hr => exact absurd rfl hb
        | escape _ hr => exact absurd rfl hb
        | plain _ _ hr => exact hr
      · exact .plain hq hb
    rw [Call.Completes, stringLoop_plain H hq hb, pushed_completes_iff hreads]
    constructor
    · rintro ⟨hloop, hconcat⟩ d hd
      cases hd with
      | loop_escape => exact absurd rfl hb
      | loop_unicode => exact absurd rfl hb
      | loop_escaped _ => exact absurd rfl hb
      | loop_plain _ _ => exact hloop
      | loop_concat _ hr => exact hconcat ⟨_, hr⟩
    · intro h
      exact ⟨h _ (.loop_plain hq hb), fun ⟨rest, hr⟩ => h _ (.loop_concat hq hr)⟩

/-- The same of a string. -/
theorem string_frame : (Call.string src).Completes H (frames + 1) ↔
    ∀ d, Makes H (.string src) d → d.Completes H frames := by
  constructor
  · rintro ⟨reply, h⟩ d hd
    cases hd
    obtain ⟨loop, hloop, -⟩ := bind_eq_ok h
    exact ⟨loop, hloop⟩
  · intro h
    obtain ⟨loop, hloop⟩ := h _ .string_loop
    simp only [Call.Completes, Scan.string, Host.enter, hloop, ok_bind]
    cases loop with
    | error e => exact ⟨_, rfl⟩
    | ok p => exact ⟨_, rfl⟩

theorem skip_ok_of {r : Bytes} (h : Call.leaf.Completes H frames) :
    skip H frames r = .ok (skipWs r) := by
  cases frames with
  | zero => cases h
  | succ frames => rfl

theorem leaf_of_skip {r rest : Bytes} (h : skip H frames r = .ok rest) :
    Call.leaf.Completes H frames := by
  obtain ⟨n, rfl, -⟩ := enter_ok h
  exact Nat.succ_pos n

/-- Of a list. -/
theorem array_frame : (Call.array src).Completes H (frames + 1) ↔
    ∀ d, Makes H (.array src) d → d.Completes H frames := by
  constructor
  · rintro ⟨reply, h⟩ d hd
    rw [arrayLoop] at h
    obtain ⟨r1, hskip, h⟩ := bind_eq_ok h
    have hleaf := leaf_of_skip hskip
    obtain rfl := skip_ok H hskip
    cases hd with
    | array_skip => exact hleaf
    | array_value h1 hb =>
      rw [h1] at h
      simp only [if_neg hb] at h
      obtain ⟨val, hval, -⟩ := bind_eq_ok h
      exact ⟨val, hval⟩
    | array_rest h1 hb hv h3 =>
      rw [h1] at h
      simp only [if_neg hb] at h
      obtain ⟨val, hval, h⟩ := bind_eq_ok h
      obtain ⟨v, rfl⟩ := ((value_reads frames).1 hval _).mp hv
      obtain ⟨r3, hskip3, h⟩ := bind_eq_ok h
      obtain rfl := skip_ok H hskip3
      rw [h3] at h
      obtain ⟨more, hmore, -⟩ := bind_eq_ok h
      exact ⟨more, hmore⟩
  · intro h
    have hleaf := h _ .array_skip
    simp only [Call.Completes, arrayLoop, skip_ok_of hleaf, ok_bind]
    cases h1 : skipWs src with
    | nil => exact ⟨_, rfl⟩
    | cons b r1 =>
      by_cases hb : b = 93
      · simp only [if_pos hb]
        exact ⟨_, rfl⟩
      obtain ⟨val, hval⟩ := h _ (.array_value h1 hb)
      simp only [if_neg hb, hval, ok_bind]
      cases val with
      | error e => exact ⟨_, rfl⟩
      | ok val =>
        obtain ⟨v, mid⟩ := val
        have hv : ReadsValue H (b :: r1) mid := ((value_reads frames).1 hval mid).mpr ⟨v, rfl⟩
        dsimp only
        cases h3 : skipWs mid with
        | nil => exact ⟨_, rfl⟩
        | cons c r3 =>
          obtain ⟨more, hmore⟩ := h _ (.array_rest h1 hb hv h3)
          simp only [hmore, ok_bind]
          cases more with
          | error e => exact ⟨_, rfl⟩
          | ok more => exact ⟨_, rfl⟩

/-- Of the whole parser. -/
theorem parse_frame : (Call.parse src).Completes H (frames + 1) ↔
    ∀ d, Makes H (.parse src) d → d.Completes H frames := by
  constructor
  · rintro ⟨reply, h⟩ d hd
    simp only [Scan.text, Host.enter] at h
    cases hd with
    | parse_value hne =>
      rw [if_neg hne] at h
      obtain ⟨val, hval, -⟩ := bind_eq_ok h
      exact ⟨val, hval⟩
    | parse_skip hne hv =>
      rw [if_neg hne] at h
      obtain ⟨val, hval, h⟩ := bind_eq_ok h
      obtain ⟨v, rfl⟩ := ((value_reads frames).1 hval _).mp hv
      obtain ⟨r, hskip, -⟩ := bind_eq_ok h
      exact leaf_of_skip hskip
  · intro h
    simp only [Call.Completes, Scan.text, Host.enter]
    by_cases hne : src = []
    · rw [if_pos hne]
      exact ⟨_, rfl⟩
    obtain ⟨val, hval⟩ := h _ (.parse_value hne)
    rw [if_neg hne, hval, ok_bind]
    cases val with
    | error e => exact ⟨_, rfl⟩
    | ok val =>
      obtain ⟨v, rest⟩ := val
      have hv : ReadsValue H src rest := ((value_reads frames).1 hval rest).mpr ⟨v, rfl⟩
      simp only [skip_ok_of (h _ (.parse_skip hne hv)), ok_bind]
      split
      · exact ⟨_, rfl⟩
      · exact ⟨_, rfl⟩

theorem objectLoopIn_left {parseValue : Bytes → Run (Reply (VmValue × Bytes))}
    (hwithin : ∀ {r v rest}, parseValue r = .ok (.ok (v, rest)) → Within rest r)
    {left left' : Nat} (hleft : src.length ≤ left) (hleft' : src.length ≤ left') :
    objectLoopIn H frames parseValue left src = objectLoopIn H frames parseValue left' src := by
  induction left generalizing src left' with
  | zero =>
    obtain rfl := List.length_eq_zero_iff.mp (Nat.le_zero.mp hleft)
    cases left' with
    | zero => rfl
    | succ left' =>
      rw [objectLoopIn, objectLoopIn]
      cases hskip : skip H frames [] with
      | error e => rfl
      | ok r1 =>
        obtain rfl := skip_ok H hskip
        rfl
  | succ left ih =>
    cases left' with
    | zero =>
      obtain rfl := List.length_eq_zero_iff.mp (Nat.le_zero.mp hleft')
      rw [objectLoopIn, objectLoopIn]
      cases hskip : skip H frames [] with
      | error e => rfl
      | ok r1 =>
        obtain rfl := skip_ok H hskip
        rfl
    | succ left' =>
      rw [objectLoopIn, objectLoopIn]
      cases hskip : skip H frames src with
      | error e => rfl
      | ok r1 =>
        have hlen1 := (skip_suffix H hskip).length_le
        simp only [ok_bind]
        cases r1 with
        | nil => rfl
        | cons b r1 =>
          simp only
          split
          · rfl
          split
          · rfl
          cases hkey : Scan.string H frames r1 with
          | error e => rfl
          | ok key =>
            cases key with
            | error e => rfl
            | ok key =>
              obtain ⟨key, r2⟩ := key
              have hlen2 := (string_suffix H hkey).length_le
              simp only [ok_bind]
              cases hskip3 : skip H frames r2 with
              | error e => rfl
              | ok r3 =>
                have hlen3 := (skip_suffix H hskip3).length_le
                simp only [ok_bind]
                cases r3 with
                | nil => rfl
                | cons c r3 =>
                  simp only
                  split
                  · rfl
                  cases hval : parseValue r3 with
                  | error e => rfl
                  | ok val =>
                    cases val with
                    | error e => rfl
                    | ok val =>
                      obtain ⟨val, r4⟩ := val
                      have hlen4 := (hwithin hval).2
                      simp only [ok_bind]
                      cases hskip5 : skip H frames r4 with
                      | error e => rfl
                      | ok r5 =>
                        have hlen5 := (skip_suffix H hskip5).length_le
                        simp only [ok_bind]
                        cases r5 with
                        | nil => rfl
                        | cons d r5 =>
                          have hlen := dropComma_length (d :: r5)
                          simp only [List.length_cons] at hlen1 hlen3 hlen5 hlen
                          have hih := @ih (dropComma (d :: r5)) left' (by omega) (by omega)
                          simp only [hih]

/-- The object loop may be given more steps than it needs. -/
theorem objectLoop_eq {left : Nat} (hleft : src.length ≤ left) :
    objectLoopIn H frames (fun src => value H frames src) left src =
      objectLoop H (frames + 1) src := by
  rw [objectLoop]
  exact objectLoopIn_left (value_within H frames).1 hleft (Nat.le_refl _)

theorem continues_length {rest : Bytes} (h : Continues H (.object src) (.object rest)) :
    rest.length < src.length := by
  cases h with
  | @entry _ _ _ _ _ r'' c hs hk hc hv hw =>
    have := skipWs_length hs
    have := hk.shorter
    have := skipWs_length hc
    have := hv.shorter
    have := skipWs_length hw
    have := dropComma_length (c :: r'')
    simp only [List.length_cons] at *
    omega

/-- Of an object, whose loop runs in one frame. -/
theorem object_frame : (Call.object src).Completes H (frames + 1) ↔
    (∀ d, Makes H (.object src) d → d.Completes H frames) ∧
      ∀ d, Continues H (.object src) d → d.Completes H (frames + 1) := by
  rw [Call.Completes, ← objectLoop_eq (Nat.le_succ src.length), objectLoopIn]
  constructor
  · rintro ⟨reply, h⟩
    obtain ⟨r1, hskip, h⟩ := bind_eq_ok h
    have hleaf := leaf_of_skip hskip
    obtain rfl := skip_ok H hskip
    constructor
    · intro d hd
      cases hd with
      | object_skip => exact hleaf
      | object_key h1 =>
        rw [h1] at h
        obtain ⟨key, hkey, -⟩ := bind_eq_ok h
        exact ⟨key, hkey⟩
      | object_value h1 hk h3 =>
        rw [h1] at h
        obtain ⟨key, hkey, h⟩ := bind_eq_ok h
        obtain ⟨k, rfl⟩ := (string_reads hkey _).mp hk
        obtain ⟨r3, hskip3, h⟩ := bind_eq_ok h
        obtain rfl := skip_ok H hskip3
        rw [h3] at h
        obtain ⟨val, hval, -⟩ := bind_eq_ok h
        exact ⟨val, hval⟩
    · intro d hd
      cases hd with
      | entry h1 hk h3 hv h5 =>
        rw [h1] at h
        obtain ⟨key, hkey, h⟩ := bind_eq_ok h
        obtain ⟨k, rfl⟩ := (string_reads hkey _).mp hk
        obtain ⟨r3, hskip3, h⟩ := bind_eq_ok h
        obtain rfl := skip_ok H hskip3
        rw [h3] at h
        obtain ⟨val, hval, h⟩ := bind_eq_ok h
        obtain ⟨v, rfl⟩ := ((value_reads frames).1 hval _).mp hv
        obtain ⟨r5, hskip5, h⟩ := bind_eq_ok h
        obtain rfl := skip_ok H hskip5
        rw [h5] at h
        obtain ⟨more, hmore, -⟩ := bind_eq_ok h
        have hlen := continues_length (.entry h1 hk h3 hv h5)
        rw [objectLoop_eq (Nat.le_of_lt hlen)] at hmore
        exact ⟨more, hmore⟩
  · rintro ⟨hmakes, hcontinues⟩
    have hleaf := hmakes _ .object_skip
    simp only [skip_ok_of hleaf, ok_bind]
    cases h1 : skipWs src with
    | nil => exact ⟨_, rfl⟩
    | cons b r1 =>
      by_cases hb : b = 125
      · simp only [if_pos hb]
        exact ⟨_, rfl⟩
      by_cases hq : b ≠ 34
      · simp only [if_neg hb, if_pos hq]
        exact ⟨_, rfl⟩
      simp only [if_neg hb, if_neg hq]
      obtain rfl := Decidable.not_not.mp hq
      obtain ⟨key, hkey⟩ := hmakes _ (.object_key h1)
      rw [hkey, ok_bind]
      cases key with
      | error e => exact ⟨_, rfl⟩
      | ok key =>
        obtain ⟨key, r2⟩ := key
        have hk : ReadsString r1 r2 := (string_reads hkey r2).mpr ⟨key, rfl⟩
        dsimp only
        cases h3 : skipWs r2 with
        | nil => exact ⟨_, rfl⟩
        | cons c r3 =>
          by_cases hc : c ≠ 58
          · simp only [if_pos hc]
            exact ⟨_, rfl⟩
          simp only [if_neg hc]
          obtain rfl := Decidable.not_not.mp hc
          obtain ⟨val, hval⟩ := hmakes _ (.object_value h1 hk h3)
          rw [hval, ok_bind]
          cases val with
          | error e => exact ⟨_, rfl⟩
          | ok val =>
            obtain ⟨val, r4⟩ := val
            have hv : ReadsValue H r3 r4 := ((value_reads frames).1 hval r4).mpr ⟨val, rfl⟩
            dsimp only
            cases h5 : skipWs r4 with
            | nil => exact ⟨_, rfl⟩
            | cons d r5 =>
              obtain ⟨more, hmore⟩ := hcontinues _ (.entry h1 hk h3 hv h5)
              have hlen := continues_length (.entry h1 hk h3 hv h5)
              rw [← objectLoop_eq (Nat.le_of_lt hlen)] at hmore
              simp only [hmore, ok_bind]
              cases more with
              | error e => exact ⟨_, rfl⟩
              | ok more => exact ⟨_, rfl⟩

theorem word_ok_of {r bs : Bytes} (h : Call.leaf.Completes H frames) :
    word H frames r bs = .ok (bs.isPrefixOf r) := by
  cases frames with
  | zero => cases h
  | succ frames => rfl

/-- Of a value. -/
theorem value_frame : (Call.value src).Completes H (frames + 1) ↔
    ∀ d, Makes H (.value src) d → d.Completes H frames := by
  rw [Call.Completes, Scan.value]
  constructor
  · rintro ⟨reply, h⟩ d hd
    obtain ⟨r1, hskip, h⟩ := bind_eq_ok h
    have hleaf := leaf_of_skip hskip
    obtain rfl := skip_ok H hskip
    cases hd with
    | value_skip => exact hleaf
    | value_string h1 =>
      rw [h1] at h
      obtain ⟨s, hs, -⟩ := bind_eq_ok h
      exact ⟨s, hs⟩
    | value_array h1 =>
      rw [h1] at h
      obtain ⟨vs, hvs, -⟩ := bind_eq_ok h
      exact ⟨vs, hvs⟩
    | value_object h1 =>
      rw [h1] at h
      obtain ⟨es, hes, -⟩ := bind_eq_ok h
      exact ⟨es, hes⟩
    | value_number h1 hb =>
      simp only [leadBytes, List.mem_cons, List.not_mem_nil, or_false, not_or] at hb
      obtain ⟨hq, ha, ho, ht, hf, hn⟩ := hb
      rw [h1] at h
      simp only [if_neg hq, if_neg ha, if_neg ho, if_neg ht, if_neg hf, if_neg hn] at h
      exact ⟨reply, h⟩
  · intro h
    have hleaf := h _ .value_skip
    simp only [skip_ok_of hleaf, word_ok_of hleaf, ok_bind]
    cases h1 : skipWs src with
    | nil => exact ⟨_, rfl⟩
    | cons b r1 =>
      dsimp only
      by_cases hq : b = 34
      · subst hq
        obtain ⟨s, hs⟩ := h _ (.value_string h1)
        rw [if_pos rfl, hs, ok_bind]
        cases s with
        | error e => exact ⟨_, rfl⟩
        | ok s => exact ⟨_, rfl⟩
      rw [if_neg hq]
      by_cases ha : b = 91
      · subst ha
        obtain ⟨vs, hvs⟩ := h _ (.value_array h1)
        rw [if_pos rfl, hvs, ok_bind]
        cases vs with
        | error e => exact ⟨_, rfl⟩
        | ok vs => exact ⟨_, rfl⟩
      rw [if_neg ha]
      by_cases ho : b = 123
      · subst ho
        obtain ⟨es, hes⟩ := h _ (.value_object h1)
        rw [if_pos rfl, hes, ok_bind]
        cases es with
        | error e => exact ⟨_, rfl⟩
        | ok es => exact ⟨_, rfl⟩
      rw [if_neg ho]
      by_cases ht : b = 116
      · rw [if_pos ht]
        split
        · exact ⟨_, rfl⟩
        · exact ⟨_, rfl⟩
      rw [if_neg ht]
      by_cases hf : b = 102
      · rw [if_pos hf]
        split
        · exact ⟨_, rfl⟩
        · exact ⟨_, rfl⟩
      rw [if_neg hf]
      by_cases hn : b = 110
      · rw [if_pos hn]
        split
        · exact ⟨_, rfl⟩
        · exact ⟨_, rfl⟩
      rw [if_neg hn]
      exact h _ (.value_number h1 (by simp [leadBytes, hq, ha, ho, ht, hf, hn]))

theorem number_frame : (Call.number src).Completes H (frames + 1) ↔
    ∀ d, Makes H (.number src) d → d.Completes H frames := by
  rw [Call.Completes]
  constructor
  · rintro ⟨reply, h⟩ d hd
    cases hd
    obtain ⟨n, rfl, -⟩ := enter_ok (show H.enter frames _ = .ok reply from h)
    exact Nat.succ_pos n
  · intro h
    cases frames with
    | zero => exact absurd (h _ .number_end) (Nat.lt_irrefl 0)
    | succ frames => exact ⟨_, rfl⟩

theorem concat_frame : Call.concat.Completes H (frames + 1) ↔
    ∀ d, Makes H .concat d → d.Completes H frames := by
  constructor
  · intro h d hd
    cases hd
    exact Nat.lt_of_succ_lt_succ h
  · exact fun h => Nat.succ_lt_succ (h _ .concat_tail)

theorem leaf_frame : Call.leaf.Completes H (frames + 1) ↔
    ∀ d, Makes H .leaf d → d.Completes H frames :=
  ⟨fun _ _ hd => (nomatch hd), fun _ => Nat.succ_pos _⟩

/-- A call that meets its condition and makes no call that fails completes. -/
theorem frame_of_makes {c : Call} (hmeets : c.Meets H.contracts) (hnone : ∀ d, ¬ Continues H c d)
    (h : c.Completes H (frames + 1) ↔ ∀ d, Makes H c d → d.Completes H frames) :
    c.Completes H (frames + 1) ↔ c.Meets H.contracts ∧
      (∀ d, Makes H c d → d.Completes H frames) ∧
        ∀ d, Continues H c d → d.Completes H (frames + 1) :=
  h.trans ⟨fun hd => ⟨hmeets, hd, fun d hc => absurd hc (hnone d)⟩, fun hd => hd.2.1⟩

theorem parserCalls_describes : Describes (parserCalls H)
    (fun frames c => c.Completes H frames) where
  no_frame := by
    rintro c h
    cases c with
    | concat => cases h
    | leaf => cases h
    | _ =>
      obtain ⟨reply, h⟩ := h
      cases h
  frame := by
    intro frames c
    cases c with
    | object src => exact object_frame.trans ⟨fun h => ⟨trivial, h⟩, fun h => h.2⟩
    | unicode src =>
      refine unicode_ok_iff.trans ⟨fun ⟨hframes, hmeets⟩ => ⟨hmeets, fun d hd => ?_, ?_⟩, ?_⟩
      · cases hd
        exact hframes
      · exact fun d hd => nomatch hd
      · rintro ⟨hmeets, hmakes, -⟩
        exact ⟨hmakes _ .unicode_digit, hmeets⟩
    | parse src => exact frame_of_makes trivial (fun d hd => nomatch hd) parse_frame
    | value src => exact frame_of_makes trivial (fun d hd => nomatch hd) value_frame
    | array src => exact frame_of_makes trivial (fun d hd => nomatch hd) array_frame
    | string src => exact frame_of_makes trivial (fun d hd => nomatch hd) string_frame
    | stringLoop src => exact frame_of_makes trivial (fun d hd => nomatch hd) stringLoop_frame
    | number src => exact frame_of_makes trivial (fun d hd => nomatch hd) number_frame
    | concat => exact frame_of_makes trivial (fun d hd => nomatch hd) concat_frame
    | leaf => exact frame_of_makes trivial (fun d hd => nomatch hd) leaf_frame

end Airl.Json
