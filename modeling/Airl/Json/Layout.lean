import Mathlib.Data.List.TakeWhile
import Airl.Json.Returns
import Airl.Json.Written

/-! # Reading a text back

A text of a value has whitespace between its tokens or none. The parser reads it back as that value:
strings escape by escape, integers digit by digit, lists and maps element by element. It takes
`parseDepth` frames for it, and the text may be followed by anything that is no byte of a number.
-/

namespace Airl.Json

open Scan

variable {H : Host} {frames : Nat}

mutual

def parseDepth : VmValue → Nat
  | .int _ => 3
  | .str s => stringDepth s + 1
  | .list items => parseItemsDepth items + 1
  | .map m => parseEntriesDepth m + 2
  | _ => 2

def parseItemsDepth : List VmValue → Nat
  | [] => 2
  | v :: vs => max (parseDepth v) (parseItemsDepth vs) + 1

/-- The entries of an object are read in one frame. -/
def parseEntriesDepth : List (String × VmValue) → Nat
  | [] => 1
  | (k, v) :: es => max (stringDepth k) (max (parseDepth v) (parseEntriesDepth es))

end

mutual

/-- JSON data, with the entries of a map in any order. -/
def Textual : VmValue → Prop
  | .nil | .bool _ | .int _ | .str _ => True
  | .list items => TextualItems items
  | .map m => TextualEntries m
  | _ => False

def TextualItems : List VmValue → Prop
  | [] => True
  | v :: vs => Textual v ∧ TextualItems vs

def TextualEntries : List (String × VmValue) → Prop
  | [] => True
  | (_, v) :: es => Textual v ∧ TextualEntries es

end

mutual

/-- What the parser makes of the text of a value: it sets the entries of a map one by one. -/
def settled : VmValue → VmValue
  | .list items => .list (settledItems items)
  | .map m => .map (setAll [] (settledEntries m))
  | v => v

def settledItems : List VmValue → List VmValue
  | [] => []
  | v :: vs => settled v :: settledItems vs

def settledEntries : List (String × VmValue) → List (String × VmValue)
  | [] => []
  | (k, v) :: es => (k, settled v) :: settledEntries es

end

theorem parseDepth_pos (v : VmValue) : 2 ≤ parseDepth v := by
  cases v with
  | str s =>
    have := loopDepth_pos (bytesFromString s).length
    simp only [parseDepth, stringDepth]
    omega
  | list items =>
    cases items with
    | nil => simp [parseDepth, parseItemsDepth]
    | cons v vs => simp [parseDepth, parseItemsDepth]
  | _ => simp [parseDepth]

/-- A byte is written as it is, escaped, or as a `\u` escape. -/
theorem escapeChunk_form (b : UInt8) :
    (∃ next, escapeChunk b = [92, next] ∧ next ≠ 117 ∧ unescape next = [b]) ∨
      escapeChunk b = [b] ∧ b ≠ 34 ∧ b ≠ 92 := by
  by_cases hspecial : b ∈ [34, 92, 10, 13, 9, 8, 12]
  · left
    simp only [List.mem_cons, List.not_mem_nil, or_false] at hspecial
    rcases hspecial with rfl | rfl | rfl | rfl | rfl | rfl | rfl
    · exact ⟨34, by decide⟩
    · exact ⟨92, by decide⟩
    · exact ⟨110, by decide⟩
    · exact ⟨114, by decide⟩
    · exact ⟨116, by decide⟩
    · exact ⟨98, by decide⟩
    · exact ⟨102, by decide⟩
  · right
    refine ⟨escapeChunk_plain hspecial, ?_, ?_⟩
    · rintro rfl
      exact hspecial (by decide)
    · rintro rfl
      exact hspecial (by decide)

theorem push_returns {α : Type} (chunk : Bytes) (parts : List Bytes) (rest : α) :
    Returns (push H frames chunk (.ok (parts, rest))) (2 ≤ frames)
      (.ok (chunk :: parts, rest)) :=
  (concat_returns [chunk] parts).map fun l => (Except.ok (l, rest) : Reply _)

/-- Escaped bytes are read back one by one. -/
theorem stringLoop_returns (bs rest : Bytes) :
    Returns (stringLoop H frames (bs.flatMap escapeChunk ++ 34 :: rest))
      (loopDepth bs.length ≤ frames) (.ok (bs.map fun b => [b], rest)) := by
  induction bs generalizing frames with
  | nil =>
    cases frames with
    | zero => exact overflow_returns 0 _
    | succ frames =>
      rw [List.flatMap_nil, List.nil_append, stringLoop_quote]
      exact (Returns.ok _).congr (by simp [loopDepth])
  | cons b bs ih =>
    cases frames with
    | zero => exact overflow_returns _ _
    | succ frames =>
      have hdepth : loopDepth bs.length ≤ frames ∧ 2 ≤ frames ↔
          loopDepth (b :: bs).length ≤ frames + 1 := by
        simp only [List.length_cons, loopDepth]
        omega
      rw [List.flatMap_cons, List.append_assoc]
      rcases escapeChunk_form b with ⟨next, hchunk, hu, hnext⟩ | ⟨hchunk, hq, hb⟩
      · rw [hchunk, List.cons_append, List.cons_append, List.nil_append, stringLoop_escape H hu]
        apply ih.seq
        · rw [hnext]
          exact push_returns _ _ _
        · exact hdepth
      · rw [hchunk, List.cons_append, List.nil_append, stringLoop_plain H hq hb]
        apply ih.seq
        · exact push_returns _ _ _
        · exact hdepth

theorem bytes_quote (s : String) :
    bytesFromString (quote s) = 34 :: ((bytesFromString s).flatMap escapeChunk ++ [34]) := by
  rw [quote, bytesFromString_append, bytesFromString_append, ← escapeChunk_bytes]
  rfl

theorem joinChunks_singletons (s : String) :
    joinChunks ((bytesFromString s).map fun b => [b]) = s := by
  rw [joinChunks, ← List.flatMap_def, List.flatMap_singleton', decode_bytesFromString]

/-- A written string is read back. -/
theorem string_returns (s : String) (rest : Bytes) :
    Returns (Scan.string H frames ((bytesFromString s).flatMap escapeChunk ++ 34 :: rest))
      (stringDepth s ≤ frames) (.ok (s, rest)) := by
  refine enter_returns fun frames => ?_
  apply (stringLoop_returns _ _).seq
  · dsimp only
    rw [joinChunks_singletons]
    exact Returns.pure _
  · exact and_iff_left trivial

/-- What follows a value does not go on with a number. -/
def Stops (rest : Bytes) : Prop := ∀ b r, rest = b :: r → isNumberByte b = false

theorem stops_cons {b : UInt8} (h : isNumberByte b = false) (r : Bytes) : Stops (b :: r) := by
  intro c r' heq
  cases heq
  exact h

theorem skipWs_opens {b : UInt8} (h : isWs b = false) (r : Bytes) : skipWs (b :: r) = b :: r := by
  simp [skipWs, h]

theorem skip_returns (r : Bytes) : Returns (skip H frames r) (1 ≤ frames) (skipWs r) :=
  enter_returns fun n => (Returns.ok _).congr (by simp)

theorem numberByte_leads (b : UInt8) : isNumberByte b = true →
    isWs b = false ∧ b ≠ 93 ∧ b ≠ 34 ∧ b ≠ 91 ∧ b ≠ 123 ∧ b ≠ 116 ∧ b ≠ 102 ∧ b ≠ 110 := by
  revert b
  exact forall_byte (by decide +kernel)

theorem takeWhile_numeral (n : Int64) {rest : Bytes} (hrest : Stops rest) :
    (numeral n ++ rest).takeWhile isNumberByte = numeral n ∧
      (numeral n ++ rest).dropWhile isNumberByte = rest := by
  have hall : ∀ b ∈ numeral n, isNumberByte b = true := fun b hb => (numeral_bytes n b hb).1
  rw [List.takeWhile_append_of_pos hall, List.dropWhile_append_of_pos hall]
  cases rest with
  | nil => simp
  | cons b r => simp [hrest b r rfl]

/-- A written number is read back. -/
theorem number_returns (n : Int64) {rest : Bytes} (hrest : Stops rest) :
    Returns (number H frames (numeral n ++ rest)) (2 ≤ frames) (.ok (.int n, rest)) := by
  obtain ⟨htake, hdrop⟩ := takeWhile_numeral n hrest
  refine enter_returns fun frames => ?_
  rw [htake, hdrop, readNumber_numeral]
  exact enter_returns fun frames => (Returns.ok _).congr (by simp)

/-- Blanks in front are skipped. -/
theorem skipWs_append {ws : Bytes} (h : skipWs ws = []) (src : Bytes) :
    skipWs (ws ++ src) = skipWs src := by
  rw [skipWs, List.dropWhile_append, if_pos]
  · rfl
  · rw [show ws.dropWhile isWs = [] from h]
    rfl

theorem ws_of_skipWs {ws : Bytes} (h : skipWs ws = []) : ∀ b ∈ ws, isWs b = true :=
  List.dropWhile_eq_nil_iff.mp h

theorem wsByte_stops (b : UInt8) : isWs b = true → isNumberByte b = false := by
  revert b
  exact forall_byte (by decide +kernel)

theorem stops_append {ws src : Bytes} (hws : skipWs ws = []) (hsrc : Stops src) :
    Stops (ws ++ src) := by
  cases ws with
  | nil => exact hsrc
  | cons b ws => exact stops_cons (wsByte_stops b (ws_of_skipWs hws b List.mem_cons_self)) _

theorem value_append {ws : Bytes} (h : skipWs ws = []) (src : Bytes) :
    Scan.value H frames (ws ++ src) = Scan.value H frames src := by
  cases frames with
  | zero => rfl
  | succ frames => rw [Scan.value, Scan.value, skip, skip, skipWs_append h]

/-- The whitespace of a text: before an element and before the closing bracket, by how deep the list
or map lies, and after a colon. -/
structure Layout where
  inner : Nat → Bytes
  outer : Nat → Bytes
  colon : Bytes
  inner_ws : ∀ depth, skipWs (inner depth) = []
  outer_ws : ∀ depth, skipWs (outer depth) = []
  colon_ws : skipWs colon = []

namespace Layout

variable (L : Layout)

/-- What stands after an element, where it is the last one and where it is not. -/
def separator (depth : Nat) (last : Bool) : Bytes := if last then L.outer depth else [44]

mutual

def value (depth : Nat) : VmValue → Bytes
  | .nil => [110, 117, 108, 108]
  | .bool b => if b then [116, 114, 117, 101] else [102, 97, 108, 115, 101]
  | .int n => numeral n
  | .str s => bytesFromString (quote s)
  | .list xs => 91 :: items depth xs
  | .map m => 123 :: entries depth m
  | _ => []

/-- From the opening bracket or a comma on. -/
def items (depth : Nat) : List VmValue → Bytes
  | [] => [93]
  | v :: vs =>
    L.inner depth ++ value (depth + 1) v ++ L.separator depth vs.isEmpty ++ items depth vs

def entries (depth : Nat) : List (String × VmValue) → Bytes
  | [] => [125]
  | (k, v) :: es =>
    L.inner depth ++ bytesFromString (quote k) ++ 58 :: L.colon ++ value (depth + 1) v ++
      L.separator depth es.isEmpty ++ entries depth es

end

variable {L}

/-- A written value begins with neither a blank nor a closing bracket. -/
theorem value_head {v : VmValue} (hv : Textual v) (depth : Nat) :
    ∃ b r, L.value depth v = b :: r ∧ isWs b = false ∧ b ≠ 93 := by
  cases v with
  | nil => exact ⟨110, [117, 108, 108], by simp [value], by decide⟩
  | bool b =>
    cases b with
    | false => exact ⟨102, [97, 108, 115, 101], by simp [value], by decide⟩
    | true => exact ⟨116, [114, 117, 101], by simp [value], by decide⟩
  | int n =>
    cases h : numeral n with
    | nil => exact absurd h (numeral_ne_nil n)
    | cons b r =>
      obtain ⟨hws, hclose, -⟩ := numberByte_leads b (numeral_bytes n b (by simp [h])).1
      exact ⟨b, r, by rw [value, h], hws, hclose⟩
  | str s => exact ⟨34, _, by rw [value, bytes_quote], by decide⟩
  | list xs => exact ⟨91, L.items depth xs, by rw [value], by decide⟩
  | map m => exact ⟨123, L.entries depth m, by rw [value], by decide⟩
  | _ => exact False.elim hv

/-- After an element the parser skips to the comma or to the closing bracket, and goes on behind the
comma. -/
theorem separator_next (depth : Nat) {last : Bool} {src : Bytes}
    (hsrc : last = true → ∃ close r, src = close :: r ∧ (close = 93 ∨ close = 125)) :
    Stops (L.separator depth last ++ src) ∧
      ∃ c r, skipWs (L.separator depth last ++ src) = c :: r ∧ dropComma (c :: r) = src := by
  cases last with
  | false => exact ⟨stops_cons (by decide) _, 44, src, skipWs_opens (by decide) _, rfl⟩
  | true =>
    obtain ⟨close, r, rfl, hclose⟩ := hsrc rfl
    have hbyte : isWs close = false ∧ isNumberByte close = false ∧
        dropComma (close :: r) = close :: r := by
      rcases hclose with rfl | rfl
      · exact ⟨by decide, by decide, rfl⟩
      · exact ⟨by decide, by decide, rfl⟩
    refine ⟨?_, close, r, ?_, hbyte.2.2⟩
    · exact stops_append (L.outer_ws depth) (stops_cons hbyte.2.1 r)
    · rw [separator, if_pos rfl, skipWs_append (L.outer_ws depth), skipWs_opens hbyte.1]

theorem items_closed (depth : Nat) (xs : List VmValue) (rest : Bytes) : xs.isEmpty = true →
    ∃ close r, L.items depth xs ++ rest = close :: r ∧ (close = 93 ∨ close = 125) := by
  intro hempty
  rw [List.isEmpty_iff.mp hempty, items]
  exact ⟨93, rest, rfl, .inl rfl⟩

theorem entries_closed (depth : Nat) (m : List (String × VmValue)) (rest : Bytes) :
    m.isEmpty = true →
      ∃ close r, L.entries depth m ++ rest = close :: r ∧ (close = 93 ∨ close = 125) := by
  intro hempty
  rw [List.isEmpty_iff.mp hempty, entries]
  exact ⟨125, rest, rfl, .inr rfl⟩

end Layout

theorem mapSet_last {acc : List (String × VmValue)} {k : String} {v : VmValue}
    (h : ∀ e ∈ acc, e.1 < k) : mapSet acc k v = acc ++ [(k, v)] := by
  induction acc with
  | nil => rfl
  | cons e acc ih =>
    obtain ⟨k', w⟩ := e
    have hlt : k' < k := h (k', w) (by simp)
    have hne : k ≠ k' := fun heq => String.lt_irrefl k (heq ▸ hlt)
    rw [mapSet, if_neg (String.lt_asymm hlt), if_neg hne, ih fun e he => h e (by simp [he])]
    rfl

/-- Entries that come in order are kept as they come. -/
theorem setAll_sorted (acc es : List (String × VmValue))
    (h : ((acc ++ es).map Prod.fst).Pairwise (· < ·)) : setAll acc es = acc ++ es := by
  induction es generalizing acc with
  | nil => simp [setAll]
  | cons e es ih =>
    have hlast : ∀ d ∈ acc, d.1 < e.1 := by
      intro d hd
      rw [List.map_append, List.pairwise_append] at h
      exact h.2.2 d.1 (List.mem_map_of_mem hd) e.1 (by simp)
    have hset : setAll acc (e :: es) = setAll (acc ++ [e]) es := by
      rw [setAll, List.foldl_cons, mapSet_last hlast]
      rfl
    rw [hset, ih (acc ++ [e]) (by simpa using h)]
    simp

theorem parseItemsDepth_pos (items : List VmValue) : 2 ≤ parseItemsDepth items := by
  cases items with
  | nil => exact Nat.le_refl 2
  | cons v vs =>
    have := parseDepth_pos v
    simp only [parseItemsDepth]
    omega

theorem word_returns {bs rest : Bytes} {v : VmValue} {e : String} {n : Nat}
    (hn : bs.length = n) :
    Returns (do
      if ← word H frames (bs ++ rest) bs then return .ok (v, (bs ++ rest).drop n)
      else return .error e : Run (Reply (VmValue × Bytes))) (1 ≤ frames) (.ok (v, rest)) := by
  have hword : Returns (word H frames (bs ++ rest) bs) (0 + 1 ≤ frames) true := by
    refine enter_returns fun frames => ?_
    rw [List.isPrefixOf_iff_prefix.mpr (List.prefix_append bs rest)]
    exact (Returns.ok _).congr (by simp)
  apply hword.seq
  · rw [if_pos rfl, ← hn, List.drop_left]
    exact Returns.pure _
  · exact and_iff_left trivial

variable {L : Layout}

mutual

/-- A written value is read back, in two frames for each level and some more. -/
theorem value_returns (v : VmValue) (frames depth : Nat) (hv : Textual v) {rest : Bytes}
    (hrest : Stops rest) :
    Returns (Scan.value H frames (L.value depth v ++ rest)) (parseDepth v ≤ frames)
      (.ok (settled v, rest)) := by
  cases frames with
  | zero =>
    have := parseDepth_pos v
    exact (Returns.error _ _).congr ⟨False.elim, fun h => by omega⟩
  | succ frames =>
    cases v with
    | nil =>
      have htext : L.value depth .nil ++ rest = 110 :: ([117, 108, 108] ++ rest) := by
        rw [Layout.value]
        rfl
      rw [htext, Scan.value]
      apply (skip_returns _).seq
      · rw [skipWs_opens (by decide)]
        exact word_returns rfl
      · simp only [parseDepth]
        omega
    | bool b =>
      cases b with
      | true =>
        have htext : L.value depth (.bool true) ++ rest = 116 :: ([114, 117, 101] ++ rest) := by
          rw [Layout.value]
          rfl
        rw [htext, Scan.value]
        apply (skip_returns _).seq
        · rw [skipWs_opens (by decide)]
          exact word_returns rfl
        · simp only [parseDepth]
          omega
      | false =>
        have htext : L.value depth (.bool false) ++ rest =
            102 :: ([97, 108, 115, 101] ++ rest) := by
          rw [Layout.value]
          rfl
        rw [htext, Scan.value]
        apply (skip_returns _).seq
        · rw [skipWs_opens (by decide)]
          exact word_returns rfl
        · simp only [parseDepth]
          omega
    | int n =>
      rw [Layout.value]
      cases hhead : numeral n with
      | nil => exact absurd hhead (numeral_ne_nil n)
      | cons b r =>
        have hnumber : isNumberByte b = true := (numeral_bytes n b (by simp [hhead])).1
        obtain ⟨hws, -, h34, h91, h123, h116, h102, h110⟩ := numberByte_leads b hnumber
        rw [List.cons_append, Scan.value]
        apply (skip_returns _).seq
        · rw [skipWs_opens hws]
          simp only [if_neg h34, if_neg h91, if_neg h123, if_neg h116, if_neg h102, if_neg h110]
          rw [← List.cons_append, ← hhead]
          exact number_returns n hrest
        · simp only [parseDepth]
          omega
    | str s =>
      have hpos := loopDepth_pos (bytesFromString s).length
      rw [Layout.value, bytes_quote, List.cons_append, List.append_assoc, Scan.value]
      apply (skip_returns _).seq
      · rw [skipWs_opens (by decide)]
        apply (string_returns s rest).seq
        · exact Returns.pure _
        · exact and_iff_left trivial
      · simp only [parseDepth, stringDepth]
        omega
    | list xs =>
      rw [Layout.value, List.cons_append, Scan.value]
      apply (skip_returns _).seq
      · rw [skipWs_opens (by decide)]
        apply (arrayLoop_returns xs frames depth hv rest).seq
        · exact Returns.pure _
        · exact and_iff_left trivial
      · have := parseItemsDepth_pos xs
        simp only [parseDepth]
        omega
    | map m =>
      rw [Layout.value, List.cons_append, Scan.value]
      apply (skip_returns _).seq
      · rw [skipWs_opens (by decide)]
        apply (objectLoop_returns m frames depth hv rest).seq
        · exact Returns.pure _
        · exact and_iff_left trivial
      · simp only [parseDepth]
        omega
    | _ => exact False.elim hv

/-- A written list is read back. -/
theorem arrayLoop_returns (xs : List VmValue) (frames depth : Nat) (hv : TextualItems xs)
    (rest : Bytes) :
    Returns (arrayLoop H frames (L.items depth xs ++ rest)) (parseItemsDepth xs ≤ frames)
      (.ok (settledItems xs, rest)) := by
  cases frames with
  | zero =>
    have := parseItemsDepth_pos xs
    exact (Returns.error _ _).congr ⟨False.elim, fun h => by omega⟩
  | succ frames =>
    cases xs with
    | nil =>
      rw [Layout.items, List.cons_append, arrayLoop]
      apply (skip_returns _).seq
      · rw [skipWs_opens (by decide)]
        exact Returns.pure _
      · simp only [parseItemsDepth, and_true]
        omega
    | cons v vs =>
      obtain ⟨b, r, hhead, hws, hclose⟩ := L.value_head hv.1 (depth + 1)
      obtain ⟨hstops, c, r', hskip, hcomma⟩ :=
        L.separator_next depth (L.items_closed depth vs rest)
      rw [Layout.items, arrayLoop]
      simp only [List.append_assoc]
      apply (skip_returns _).seq
      · rw [skipWs_append (L.inner_ws depth), hhead, List.cons_append, skipWs_opens hws]
        simp only [if_neg hclose]
        rw [← List.cons_append, ← hhead]
        apply (value_returns v frames (depth + 1) hv.1 hstops).seq
        · apply (skip_returns _).seq
          · rw [hskip]
            dsimp only
            rw [hcomma]
            apply (arrayLoop_returns vs frames depth hv.2 rest).seq
            · exact Returns.pure _
            · exact and_iff_left trivial
          · exact Iff.rfl
        · exact Iff.rfl
      · have := parseItemsDepth_pos vs
        simp only [parseItemsDepth]
        omega

/-- A written object is read back. -/
theorem objectLoop_returns (m : List (String × VmValue)) (frames depth : Nat)
    (hv : TextualEntries m) (rest : Bytes) :
    Returns (objectLoop H frames (L.entries depth m ++ rest)) (parseEntriesDepth m + 1 ≤ frames)
      (.ok (settledEntries m, rest)) := by
  cases frames with
  | zero => exact overflow_returns _ _
  | succ frames =>
    rcases m with _ | ⟨⟨k, v⟩, es⟩
    · rw [Layout.entries, List.cons_append, objectLoop, List.length_cons, objectLoopIn]
      apply (skip_returns _).seq
      · rw [skipWs_opens (by decide)]
        exact Returns.pure _
      · simp only [parseEntriesDepth, and_true]
        omega
    · obtain ⟨hstops, c, r', hskip, hcomma⟩ :=
        L.separator_next depth (L.entries_closed depth es rest)
      have htext : L.entries depth ((k, v) :: es) ++ rest =
          L.inner depth ++ 34 :: ((bytesFromString k).flatMap escapeChunk ++ 34 :: 58 :: (L.colon ++
            (L.value (depth + 1) v ++ (L.separator depth es.isEmpty ++
              (L.entries depth es ++ rest))))) := by
        rw [Layout.entries, bytes_quote]
        simp
      -- what is left for the other entries is shorter, so their loop is a loop of its own
      have hlength : ∀ key ws val : Bytes, (L.entries depth es ++ rest).length ≤
          (key ++ 34 :: 58 :: (ws ++ (val ++ (L.separator depth es.isEmpty ++
            (L.entries depth es ++ rest))))).length := by
        intro key ws val
        simp only [List.length_append, List.length_cons]
        omega
      have hleft : ∃ left, (L.inner depth ++ 34 :: ((bytesFromString k).flatMap escapeChunk ++
          34 :: 58 :: (L.colon ++ (L.value (depth + 1) v ++ (L.separator depth es.isEmpty ++
            (L.entries depth es ++ rest)))))).length = left + 1 ∧
          (L.entries depth es ++ rest).length ≤ left := by
        refine ⟨_, by rw [List.length_append, List.length_cons, ← Nat.add_assoc], ?_⟩
        exact Nat.le_trans (hlength _ _ _) (Nat.le_add_left _ _)
      obtain ⟨left, hleft, hshorter⟩ := hleft
      rw [htext, objectLoop, hleft, objectLoopIn]
      apply (skip_returns _).seq
      · rw [skipWs_append (L.inner_ws depth), skipWs_opens (by decide)]
        apply (string_returns k _).seq
        · apply (skip_returns _).seq
          · rw [skipWs_opens (by decide)]
            dsimp only
            rw [value_append L.colon_ws]
            apply (value_returns v frames (depth + 1) hv.1 hstops).seq
            · apply (skip_returns _).seq
              · rw [hskip]
                dsimp only
                rw [hcomma, objectLoop_eq hshorter]
                apply (objectLoop_returns es (frames + 1) depth hv.2 rest).seq
                · exact Returns.pure _
                · exact and_iff_left trivial
              · exact Iff.rfl
            · exact Iff.rfl
          · exact Iff.rfl
        · exact Iff.rfl
      · have := parseDepth_pos v
        simp only [parseEntriesDepth]
        omega

end

/-- A text that is laid out is read as its value. -/
theorem jsonParse_textual {v : VmValue} (hv : Textual v) {s : String} {depth : Nat}
    (hs : bytesFromString s = L.value depth v) :
    Returns (jsonParse H frames s) (parseDepth v + 1 ≤ frames) (.ok (settled v)) := by
  obtain ⟨b, r, hhead, -⟩ := L.value_head hv depth
  rw [jsonParse_scan, hs]
  refine enter_returns fun frames => ?_
  rw [if_neg (by simp [hhead]), ← List.append_nil (L.value depth v)]
  apply (value_returns v frames depth hv (fun b r heq => by cases heq)).seq
  · apply (skip_returns []).seq
    · exact Returns.pure _
    · exact and_iff_left trivial
  · have := parseDepth_pos v
    omega

mutual

/-- Entries in key order are where the parser puts them. -/
theorem settled_plain : ∀ v : VmValue, Plain v → Textual v ∧ settled v = v
  | .nil, _ | .bool _, _ | .int _, _ | .str _, _ => ⟨trivial, rfl⟩
  | .list items, hv => by
    obtain ⟨htextual, hsettled⟩ := settledItems_plain items hv
    exact ⟨htextual, congrArg Value.list hsettled⟩
  | .map m, hv => by
    obtain ⟨htextual, hsettled⟩ := settledEntries_plain m hv.2
    refine ⟨htextual, ?_⟩
    rw [settled, hsettled, setAll_sorted [] m hv.1, List.nil_append]

theorem settledItems_plain : ∀ items : List VmValue, PlainItems items →
    TextualItems items ∧ settledItems items = items
  | [], _ => ⟨trivial, rfl⟩
  | v :: vs, hv => by
    obtain ⟨htextual, hsettled⟩ := settled_plain v hv.1
    obtain ⟨htextuals, hsettleds⟩ := settledItems_plain vs hv.2
    exact ⟨⟨htextual, htextuals⟩, by rw [settledItems, hsettled, hsettleds]⟩

theorem settledEntries_plain : ∀ es : List (String × VmValue), PlainEntries es →
    TextualEntries es ∧ settledEntries es = es
  | [], _ => ⟨trivial, rfl⟩
  | (k, v) :: es, hv => by
    obtain ⟨htextual, hsettled⟩ := settled_plain v hv.1
    obtain ⟨htextuals, hsettleds⟩ := settledEntries_plain es hv.2
    exact ⟨⟨htextual, htextuals⟩, by rw [settledEntries, hsettled, hsettleds]⟩

end

/-- In every layout a plain value is read back. -/
theorem jsonParse_layout {v : VmValue} (hv : Plain v) {s : String} {depth : Nat}
    (hs : bytesFromString s = L.value depth v) :
    Returns (jsonParse H frames s) (parseDepth v + 1 ≤ frames) (.ok v) := by
  obtain ⟨htextual, hsettled⟩ := settled_plain v hv
  have hreturns := @jsonParse_textual H frames L v htextual s depth hs
  rwa [hsettled] at hreturns

end Airl.Json
