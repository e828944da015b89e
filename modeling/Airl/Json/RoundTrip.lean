import Airl.Json.Layout

/-! # The round trip

`json-stringify` writes no whitespace, and `json-parse` reads what it writes back as the value.
-/

namespace Airl.Json

variable {H : Host} {frames : Nat}

/-- No whitespace. -/
def Layout.compact : Layout where
  inner _ := []
  outer _ := []
  colon := []
  inner_ws _ := rfl
  outer_ws _ := rfl
  colon_ws := rfl

theorem bytes_empty : bytesFromString "" = [] := rfl

theorem bytes_comma : bytesFromString "," = [44] := by decide

theorem bytes_colon : bytesFromString ":" = [58] := by decide

mutual

theorem bytes_render (v : VmValue) (depth : Nat) :
    bytesFromString (render v) = Layout.compact.value depth v := by
  cases v with
  | bool b => cases b <;> rw [render, Layout.value] <;> rfl
  | list items =>
    have hitems := bytes_renderItems items depth true
    rw [if_pos rfl, List.nil_append] at hitems
    rw [render, Layout.value, bytesFromString_append, bytesFromString_append, List.append_assoc,
      ← hitems]
    rfl
  | map m =>
    have hentries := bytes_renderEntries m depth true
    rw [if_pos rfl, List.nil_append] at hentries
    rw [render, Layout.value, bytesFromString_append, bytesFromString_append, List.append_assoc,
      ← hentries]
    rfl
  | _ => simp only [render, Layout.value] <;> rfl

theorem bytes_renderItems (items : List VmValue) (depth : Nat) (first : Bool) :
    bytesFromString (renderItems items first) ++ [93] =
      (if first then [] else Layout.compact.separator depth items.isEmpty) ++
        Layout.compact.items depth items := by
  cases items with
  | nil => cases first <;> rw [renderItems, Layout.items] <;> rfl
  | cons v vs =>
    have hrest := bytes_renderItems vs depth false
    rw [if_neg Bool.false_ne_true] at hrest
    rw [renderItems, Layout.items, bytesFromString_append, bytesFromString_append,
      bytes_render v (depth + 1), List.append_assoc, hrest]
    cases first <;> simp [Layout.compact, Layout.separator, bytes_comma, bytes_empty]

theorem bytes_renderEntries (m : List (String × VmValue)) (depth : Nat) (first : Bool) :
    bytesFromString (renderEntries m first) ++ [125] =
      (if first then [] else Layout.compact.separator depth m.isEmpty) ++
        Layout.compact.entries depth m := by
  rcases m with _ | ⟨⟨k, v⟩, es⟩
  · cases first <;> rw [renderEntries, Layout.entries] <;> rfl
  · have hrest := bytes_renderEntries es depth false
    rw [if_neg Bool.false_ne_true] at hrest
    simp only [renderEntries, Layout.entries, bytesFromString_append,
      bytes_render v (depth + 1), List.append_assoc, hrest]
    cases first <;> simp [Layout.compact, Layout.separator, bytes_comma, bytes_empty, bytes_colon]

end

/-- `(json-parse (json-stringify v))`, both called with `frames` frames left. -/
def roundTrip (H : Host) (frames : Nat) (v : VmValue) : Run (Reply VmValue) := do
  jsonParse H frames (← jsonStringify H frames v)

theorem jsonParse_render {v : VmValue} (hv : Plain v) :
    Returns (jsonParse H frames (render v)) (parseDepth v + 1 ≤ frames) (.ok v) :=
  jsonParse_layout hv (bytes_render v 0)

theorem roundTrip_returns {v : VmValue} (hv : Plain v) :
    Returns (roundTrip H frames v)
      ((H.contracts = true → NoNil v) ∧ stringifyDepth v ≤ frames ∧ parseDepth v + 1 ≤ frames)
      (.ok v) := by
  apply (jsonStringify_returns v frames hv).seq
  · exact jsonParse_render hv
  · rw [and_assoc, and_left_comm]

/-- A list in a list, and so on. -/
def nest : Nat → VmValue
  | 0 => .list []
  | n + 1 => .list [nest n]

theorem nest_plain (n : Nat) : Plain (nest n) ∧ NoNil (nest n) := by
  induction n with
  | zero => exact ⟨trivial, trivial⟩
  | succ n ih => exact ⟨⟨ih.1, trivial⟩, ⟨ih.2, trivial⟩⟩

theorem nest_depths (n : Nat) :
    stringifyDepth (nest n) = 2 * n + 2 ∧ parseDepth (nest n) = 2 * n + 3 := by
  induction n with
  | zero => exact ⟨rfl, rfl⟩
  | succ n ih =>
    simp only [nest, stringifyDepth, itemsDepth, parseDepth, parseItemsDepth, ih]
    omega

end Airl.Json
