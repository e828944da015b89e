import Airl.Json.Calls

/-! # When the parser returns

`json-parse` answers exactly when every call it makes finds a frame on the stack and
every `\u` escape it converts is complete. A stack of two frames for every byte
suffices; an escape cut off by the end of the text stops it on any stack.
-/

namespace Airl.Json

open Scan CallTree

variable {H : Host} {src : Bytes} {frames : Nat}

/-- What the text of a call measures; the tail calls of an object shorten it. -/
def Call.size : Call → Nat
  | .object src => src.length
  | _ => 0

/-- `json-parse`, called with `frames` frames left, answers `(Ok _)` or `(Err _)` exactly
when every call it makes finds a frame and every `\u` escape it converts is complete:
four bytes follow, hexadecimal digits where the contracts were compiled. -/
theorem jsonParse_returns_iff (H : Host) (frames : Nat) (s : String) :
    (∃ reply, jsonParse H frames s = .ok reply) ↔
      ∀ n c, Reaches (parserCalls H) (.parse (bytesFromString s)) n c →
        n < frames ∧ c.Meets H.contracts := by
  rw [jsonParse_scan]
  show (Call.parse (bytesFromString s)).Completes H frames ↔ Supports (parserCalls H) frames _
  refine parserCalls_describes.completes_iff Call.size ?_
  rintro c d hd
  cases hd with
  | entry hs hk hc hv hw => exact continues_length (.entry hs hk hc hv hw)

/-- A bound on the frames above a call. -/
def Call.weight : Call → Nat
  | .parse src => 2 * src.length + 5
  | .value src => 2 * src.length + 4
  | .array src => 2 * src.length + 5
  | .object src => 2 * src.length + 5
  | .string src => src.length + 4
  | .stringLoop src => src.length + 3
  | .unicode _ => 2
  | .number _ => 2
  | .concat => 2
  | .leaf => 1

theorem Makes.weight_lt {c d : Call} (h : Makes H c d) : d.weight < c.weight := by
  cases h with
  | value_string hs | value_array hs | value_object hs | object_key hs =>
    have := skipWs_length hs
    simp only [Call.weight]
    omega
  | @array_value src r b hs _ =>
    have := skipWs_length hs
    simp only [Call.weight, List.length_cons]
    omega
  | @array_rest _ _ _ r' _ c hs _ hv hw =>
    have := skipWs_length hs
    have := hv.shorter
    have := skipWs_length hw
    have := dropComma_length (c :: r')
    simp only [Call.weight, List.length_cons] at *
    omega
  | object_value hs hk hc =>
    have := skipWs_length hs
    have := hk.shorter
    have := skipWs_length hc
    simp only [Call.weight]
    omega
  | _ =>
    simp only [Call.weight, List.length_cons, List.length_drop]
    omega

theorem Continues.weight_le {c d : Call} (h : Continues H c d) : d.weight ≤ c.weight := by
  cases h with
  | entry hs hk hc hv hw =>
    have := continues_length (.entry hs hk hc hv hw)
    simp only [Call.weight]
    omega

theorem reaches_weight {c d : Call} {n : Nat} (h : Reaches (parserCalls H) c n d) :
    n + d.weight ≤ c.weight := by
  induction h with
  | here c => exact Nat.le_of_eq (Nat.zero_add _)
  | call hcd _ ih =>
    have := Makes.weight_lt hcd
    omega
  | tail hcd _ ih =>
    have := Continues.weight_le hcd
    omega

theorem weight_pos (c : Call) : 0 < c.weight := by
  cases c with
  | _ =>
    simp only [Call.weight]
    omega

/-- On a stack of two frames for every byte and five more, the parser answers unless it
comes to an incomplete escape, however deep the text is nested. -/
theorem jsonParse_returns_of_frames (H : Host) (frames : Nat) (s : String)
    (hframes : 2 * (bytesFromString s).length + 5 ≤ frames) :
    (∃ reply, jsonParse H frames s = .ok reply) ↔
      ∀ n c, Reaches (parserCalls H) (.parse (bytesFromString s)) n c → c.Meets H.contracts := by
  rw [jsonParse_scan]
  have hsize : ∀ c d, (parserCalls H).continues c d → d.size < c.size := by
    rintro c d hd
    cases hd with
    | entry hs hk hc hv hw => exact continues_length (.entry hs hk hc hv hw)
  show (Call.parse (bytesFromString s)).Completes H frames ↔ _
  rw [parserCalls_describes.completes_iff Call.size hsize]
  constructor
  · exact fun h n c hc => (h n c hc).2
  · intro hescapes n c hc
    have hweight := reaches_weight hc
    have hpos := weight_pos c
    have hparse : (Call.parse (bytesFromString s)).weight =
        2 * (bytesFromString s).length + 5 := rfl
    exact ⟨by omega, hescapes n c hc⟩

/-- The text `"\u1"`. -/
def cutEscape : String := "\"\\u1\""

/-- The conversion reads past the end of the text. -/
theorem cutEscape_fails : jsonParse vmHost 9999 cutEscape = .error .exit := by
  rfl

/-- Fifteen frames are enough for its five bytes. -/
theorem cutEscape_frames : (∃ reply, jsonParse vmHost 15 cutEscape = .ok reply) ↔
    ∀ n c, Reaches (parserCalls vmHost) (.parse (bytesFromString cutEscape)) n c →
      c.Meets vmHost.contracts :=
  jsonParse_returns_of_frames vmHost 15 cutEscape (by decide)

theorem jsonParse_not_total : ¬ ∀ s, ∃ reply, jsonParse vmHost 9999 s = .ok reply := by
  intro h
  obtain ⟨reply, hreply⟩ := h cutEscape
  rw [cutEscape_fails] at hreply
  cases hreply

end Airl.Json
