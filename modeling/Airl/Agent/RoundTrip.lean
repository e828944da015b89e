import Airl.Agent.Results
import Airl.Library.Utf8

/-! # Frames and messages

`transport.rs`: a payload is sent as its length in four bytes and its UTF-8 bytes.
The writer takes any payload; only the reader has a limit. Messages and frames come back.
-/

namespace Airl.Agent

section Frames

open Utf8

def maxFrameSize : Nat := 4194304

inductive FrameError where
  | unexpectedEof
  | tooLong (len : Nat)
  | invalidUtf8
  deriving DecidableEq, Repr

/-- `u32::to_be_bytes`. -/
def toBeBytes (n : Nat) : List UInt8 :=
  [UInt8.ofNat (n / 16777216), UInt8.ofNat (n / 65536), UInt8.ofNat (n / 256), UInt8.ofNat n]

/-- `u32::from_be_bytes`. -/
def fromBeBytes : List UInt8 → Nat
  | [a, b, c, d] => a.toNat * 16777216 + b.toNat * 65536 + c.toNat * 256 + d.toNat
  | _ => 0

def writeFrame (payload : List Char) : List UInt8 :=
  let bytes := encode payload
  let len := bytes.length % 4294967296
  toBeBytes len ++ bytes

/-- The first `n` bytes and those behind them. -/
def readExact (n : Nat) (bytes : List UInt8) : Except FrameError (List UInt8 × List UInt8) :=
  if n ≤ bytes.length then .ok (bytes.take n, bytes.drop n) else .error .unexpectedEof

/-- Behind the length of the frame. -/
def readPayload (len : Nat) (bytes : List UInt8) : Except FrameError (List Char × List UInt8) :=
  if len > maxFrameSize then .error (.tooLong len)
  else
    match readExact len bytes with
    | .error e => .error e
    | .ok (buf, bytes) =>
      match decode buf with
      | some payload => .ok (payload, bytes)
      | none => .error .invalidUtf8

def readFrame (bytes : List UInt8) : Except FrameError (List Char × List UInt8) :=
  match readExact 4 bytes with
  | .error e => .error e
  | .ok (lenBuf, bytes) => readPayload (fromBeBytes lenBuf) bytes

/-- `n` frames, one after another. -/
def readFrames : Nat → List UInt8 → Except FrameError (List (List Char) × List UInt8)
  | 0, bytes => .ok ([], bytes)
  | n + 1, bytes =>
    match readFrame bytes with
    | .error e => .error e
    | .ok (payload, bytes) =>
      (readFrames n bytes).map fun (payloads, bytes) => (payload :: payloads, bytes)

variable {payload : List Char} {payloads : List (List Char)} {bytes rest rest' : List UInt8}

theorem fromBeBytes_toBeBytes {n : Nat} (h : n < 4294967296) : fromBeBytes (toBeBytes n) = n := by
  simp only [toBeBytes, fromBeBytes, UInt8.toNat_ofNat']
  omega

theorem readExact_append (xs ys : List UInt8) : readExact xs.length (xs ++ ys) = .ok (xs, ys) := by
  rw [readExact, if_pos (by simp), List.take_left, List.drop_left]

theorem readFrame_writeFrame : readFrame (writeFrame payload ++ rest) =
    readPayload ((encode payload).length % 4294967296) (encode payload ++ rest) := by
  have hlen : (encode payload).length % 4294967296 < 4294967296 := Nat.mod_lt _ (by decide)
  have hhead : readExact 4 (writeFrame payload ++ rest) =
      .ok (toBeBytes ((encode payload).length % 4294967296), encode payload ++ rest) := by
    rw [writeFrame, List.append_assoc]
    exact readExact_append (toBeBytes ((encode payload).length % 4294967296)) _
  rw [readFrame, hhead]
  dsimp only
  rw [fromBeBytes_toBeBytes hlen]

theorem length_of_readPayload {len : Nat} (h : readPayload len bytes = .ok (payload, rest)) :
    len ≤ maxFrameSize ∧ (encode payload).length = len ∧ bytes = encode payload ++ rest := by
  unfold readPayload at h
  split at h
  · cases h
  · next hlen =>
    refine ⟨Nat.not_lt.mp hlen, ?_⟩
    unfold readExact at h
    by_cases hbytes : len ≤ bytes.length
    · rw [if_pos hbytes] at h
      dsimp only at h
      split at h
      · next hdecode =>
        cases h
        rw [decode_eq_some] at hdecode
        rw [hdecode, List.take_append_drop]
        exact ⟨List.length_take_of_le hbytes, rfl⟩
      · cases h
    · rw [if_neg hbytes] at h
      cases h

theorem readFrame_writeFrame_iff : readFrame (writeFrame payload ++ rest) = .ok (payload, rest') ↔
    (encode payload).length ≤ maxFrameSize ∧ rest' = rest := by
  rw [readFrame_writeFrame]
  constructor
  · intro h
    obtain ⟨hle, hlen, hbytes⟩ := length_of_readPayload h
    exact ⟨hlen ▸ hle, (List.append_cancel_left hbytes).symm⟩
  · rintro ⟨hle, rfl⟩
    have hsmall : (encode payload).length < 4294967296 := Nat.lt_of_le_of_lt hle (by decide)
    rw [Nat.mod_eq_of_lt hsmall, readPayload, if_neg (Nat.not_lt.mpr hle), readExact_append]
    dsimp only
    rw [decode_eq_some.mpr rfl]

theorem readFrames_writeFrames_iff :
    readFrames payloads.length (payloads.flatMap writeFrame) = .ok (payloads, []) ↔
      ∀ payload ∈ payloads, (encode payload).length ≤ maxFrameSize := by
  induction payloads with
  | nil => simp [readFrames]
  | cons payload payloads ih =>
    rw [List.length_cons, readFrames, List.flatMap_cons, List.forall_mem_cons, ← ih]
    constructor
    · intro h
      split at h
      · cases h
      · next first bytes hfirst =>
        cases hothers : readFrames payloads.length bytes with
        | error e =>
          rw [hothers] at h
          cases h
        | ok p =>
          obtain ⟨others, bytes'⟩ := p
          rw [hothers] at h
          cases h
          obtain ⟨hle, rfl⟩ := readFrame_writeFrame_iff.mp hfirst
          exact ⟨hle, hothers⟩
    · rintro ⟨hle, hothers⟩
      rw [readFrame_writeFrame_iff.mpr ⟨hle, rfl⟩]
      dsimp only
      rw [hothers]
      rfl

end Frames

open Airl.Syntax Lexer Utf8

/-- What comes back of what is sent. -/
theorem wire_roundTrip_iff {F : FloatFormat} (hF : F.Lawful) (task : TaskMessage)
    (result : ResultMessage) (payloads : List (List Char)) :
    (parseTask F.parse (serializeTask F task) = .ok task ↔ task.Clean) ∧
      (parseResult F.parse (serializeResult F result) = .ok result ↔ result.Clean) ∧
        (readFrames payloads.length (payloads.flatMap writeFrame) = .ok (payloads, []) ↔
          ∀ payload ∈ payloads, (encode payload).length ≤ maxFrameSize) :=
  ⟨parseTask_serializeTask_iff hF task, parseResult_serializeResult_iff hF result,
    readFrames_writeFrames_iff⟩

/-- A quotation mark in a nested string ends the string for the reader. -/
theorem nested_quote_not_roundTrip :
    ¬ ∃ F : FloatFormat, F.Lawful ∧
      parseTask F.parse (serializeTask F ⟨['1'], ['a'], ['f'], [.list [.str ['"']]]⟩) =
        .ok ⟨['1'], ['a'], ['f'], [.list [.str ['"']]]⟩ := by
  rintro ⟨F, hF, h⟩
  have hclean := (parseTask_serializeTask_iff hF _).mp h
  have harg : Datum.CleanArg (.list [.str ['"']]) := hclean.args _ (by simp)
  have hplain : IsPlain ['"'] := harg.1.1
  exact absurd hplain (by decide)

/-- A format that numbers the floats by their bits. -/
def numberedFloats : FloatFormat where
  text bits :=
    if isFinite bits then
      if isWhole bits then Nat.toDigits 10 bits.toNat else Nat.toDigits 10 bits.toNat ++ ".5".toList
    else "NaN".toList
  parse s := (Text.cut (· == '.') s).map fun p => UInt64.ofNat (Nat.ofDigitChars 10 p.1 0)

theorem numberedFloats_parse (bits : UInt64) (fs : List Char) :
    numberedFloats.parse (Nat.toDigits 10 bits.toNat ++ '.' :: fs) = some bits := by
  have hdigits : ∀ c ∈ Nat.toDigits 10 bits.toNat, (c == '.') = false := by
    intro c hc
    rw [beq_eq_false_iff_ne]
    rintro rfl
    exact absurd ((isDigits_toDigits _).2 _ hc) (by decide)
  have hcut : Text.cut (· == '.') (Nat.toDigits 10 bits.toNat ++ '.' :: fs) =
      some (Nat.toDigits 10 bits.toNat, fs) :=
    Text.cut_append hdigits (by decide) fs
  have hparse : numberedFloats.parse (Nat.toDigits 10 bits.toNat ++ '.' :: fs) =
      (Text.cut (· == '.') (Nat.toDigits 10 bits.toNat ++ '.' :: fs)).map fun p =>
        UInt64.ofNat (Nat.ofDigitChars 10 p.1 0) := rfl
  rw [hparse, hcut, Option.map_some, Nat.ofDigitChars_ten_toDigits, UInt64.ofNat_toNat]

theorem numberedFloats_lawful : numberedFloats.Lawful := by
  constructor
  · intro bits hfinite hwhole
    have htext : numberedFloats.text bits = Nat.toDigits 10 bits.toNat := by
      simp [numberedFloats, hfinite, hwhole]
    rw [htext]
    exact ⟨false, _, isDigits_toDigits _, rfl, numberedFloats_parse bits _⟩
  · intro bits hfinite hwhole
    have htext : numberedFloats.text bits = Nat.toDigits 10 bits.toNat ++ ".5".toList := by
      simp [numberedFloats, hfinite, hwhole]
    rw [htext]
    exact ⟨false, _, ['5'], isDigits_toDigits _, ⟨by simp, by simp⟩, rfl,
      numberedFloats_parse bits _⟩
  · intro bits hfinite
    have htext : numberedFloats.text bits = "NaN".toList := by simp [numberedFloats, hfinite]
    rw [htext]
    simp

theorem wire_roundTrip_iff_small :
    (parseTask numberedFloats.parse (serializeTask numberedFloats
      ⟨['1'], ['a'], ['f'], [.variant ['O', 'k'] (.int 42), .str ['"']]⟩) =
        .ok ⟨['1'], ['a'], ['f'], [.variant ['O', 'k'] (.int 42), .str ['"']]⟩) ∧
      parseResult numberedFloats.parse
        (serializeResult numberedFloats ⟨['1'], false, none, some ['e']⟩) =
          .ok ⟨['1'], false, none, some ['e']⟩ ∧
      readFrames 2 ([['a'], []].flatMap writeFrame) = .ok ([['a'], []], []) := by
  have hiff := wire_roundTrip_iff numberedFloats_lawful
    ⟨['1'], ['a'], ['f'], [.variant ['O', 'k'] (.int 42), .str ['"']]⟩
    ⟨['1'], false, none, some ['e']⟩ [['a'], []]
  refine ⟨hiff.1.mpr ?_, hiff.2.1.mpr ?_, hiff.2.2.mpr (by decide)⟩
  · refine ⟨by decide, by decide, by decide, ?_, by decide, by decide⟩
    have htag : Datum.IsTag ['O', 'k'] := by decide
    have hshort : IsShort ['"'] := by decide
    simp [Datum.CleanArg, Datum.Clean, htag, hshort]
  · exact ⟨by decide, by simp, by
      intro _
      exact ⟨rfl, _, rfl, by decide⟩⟩

end Airl.Agent
