import Airl.Bytecode.Vm
import Airl.Json.RoundTrip
import Airl.Stdlib.Prelude

/-! # Pretty printing in `airq`

`pretty-print` of `format.airl` beside `json-stringify`. Every call takes a frame of the call stack,
those of the functions of `prelude.airl` too. A depth is never negative, so the clauses
`(>= depth 0)` always hold.
-/

namespace Airl.Airq

open Json

section Functions

variable (H : Host) {α : Type}

def take : Nat → Nat → List α → Json.Run (List α)
  | 0, _, _ => H.overflow
  | frames + 1, n, xs => do
    let result ← match xs with
      | [] => pure []
      | x :: xs => if n = 0 then pure [] else do pure (x :: (← take frames (n - 1) xs))
    H.ensures "take" "(<= (length result) n)" (result.length ≤ n)
    return result

/-- A tail call takes no further frame. -/
def drop (frames n : Nat) (xs : List α) : Json.Run (List α) :=
  H.enter frames fun _ => .ok (Stdlib.drop n xs)

def merge (cmp : Nat → α → α → Json.Run Bool) : Nat → List α → List α → Json.Run (List α)
  | 0, _, _ => H.overflow
  | frames + 1, xs, ys => do
    let result ← match xs with
      | [] => pure ys
      | x :: xs => match ys with
        | [] => pure (x :: xs)
        | y :: ys => do
          if ← cmp frames x y then pure (x :: (← merge cmp frames xs (y :: ys)))
          else pure (y :: (← merge cmp frames (x :: xs) ys))
    H.ensures "merge" "(= (length result) (+ (length xs) (length ys)))"
      (result.length = xs.length + ys.length)
    return result

def sort (cmp : Nat → α → α → Json.Run Bool) : Nat → List α → Json.Run (List α)
  | 0, _ => H.overflow
  | frames + 1, xs => do
    let result ← if xs.length ≤ 1 then pure xs
      else do
        let left ← take H frames (xs.length / 2) xs
        let right ← drop H frames (xs.length / 2) xs
        let left ← sort cmp frames left
        let right ← sort cmp frames right
        merge H cmp frames left right
    H.ensures "sort" "(= (length result) (length xs))" (result.length = xs.length)
    return result

/-- `(fn [a b] (<= a b))`. The machine runs so small a closure inline, without a frame, and
`eval_simple` knows no order of texts. -/
def keyLe (_frames : Nat) (a b : String) : Json.Run Bool := do
  return match ← simpleBinaryOp .le (.str a) (.str b) with
    | .bool holds => holds
    | _ => false

/-- `airl_join`. -/
def join (sep : String) : List String → String
  | [] => ""
  | [item] => item
  | item :: next :: items => item ++ sep ++ join sep (next :: items)

variable (indentStr : String) (sortKeys : Bool)

def makeIndent : Nat → Nat → Json.Run String
  | 0, _ => H.overflow
  | _ + 1, 0 => return ""
  | frames + 1, depth + 1 => do return indentStr ++ (← makeIndent frames depth)

/-- `(if sort-keys (sort (fn [a b] (<= a b)) (map-keys m)) (map-keys m))`. -/
def keysOf (frames : Nat) (m : List (String × VmValue)) : Json.Run (List String) :=
  if sortKeys then sort H keyLe frames (m.map Prod.fst) else return m.map Prod.fst

mutual

def prettyPrint : Nat → VmValue → Nat → Json.Run String
  | 0, _, _ => H.overflow
  | frames + 1, val, depth =>
    match val with
    | .nil | .builtinFn _ | .irFuncRef _ => return "null"
    | .bool b => return if b then "true" else "false"
    | .int n => return toString n.toInt
    | .float bits => return H.floatToString bits
    | .str s => do return "\"" ++ (← jsonEscape H frames s) ++ "\""
    | .list lst => prettyPrintList frames lst depth
    | .map m => prettyPrintMap frames m depth
    | val => jsonStringify H frames val
termination_by structural frames => frames

def prettyPrintList : Nat → List VmValue → Nat → Json.Run String
  | 0, _, _ => H.overflow
  | frames + 1, lst, depth => do
    if lst.isEmpty then return "[]"
    let innerIndent ← makeIndent H indentStr frames (depth + 1)
    let outerIndent ← makeIndent H indentStr frames depth
    let items ← mapItems frames innerIndent depth lst
    return "[\n" ++ join ",\n" items ++ "\n" ++ outerIndent ++ "]"
termination_by structural frames => frames

/-- `map` with the function of an item. -/
def mapItems : Nat → String → Nat → List VmValue → Json.Run (List String)
  | 0, _, _, _ => H.overflow
  | frames + 1, innerIndent, depth, xs => do
    let result ← match xs with
      | [] => pure []
      | item :: xs => do
        let text ← itemText frames innerIndent depth item
        pure (text :: (← mapItems frames innerIndent depth xs))
    H.ensures "map" "(= (length result) (length xs))" (result.length = xs.length)
    return result
termination_by structural frames => frames

def itemText : Nat → String → Nat → VmValue → Json.Run String
  | 0, _, _, _ => H.overflow
  | frames + 1, innerIndent, depth, item => do
    return innerIndent ++ (← prettyPrint frames item (depth + 1))
termination_by structural frames => frames

def prettyPrintMap : Nat → List (String × VmValue) → Nat → Json.Run String
  | 0, _, _ => H.overflow
  | frames + 1, m, depth => do
    let keys ← keysOf H sortKeys frames m
    if keys.isEmpty then return "\x7b\x7d"
    let innerIndent ← makeIndent H indentStr frames (depth + 1)
    let outerIndent ← makeIndent H indentStr frames depth
    let items ← mapKeysTo frames innerIndent m depth keys
    return "\x7b\n" ++ join ",\n" items ++ "\n" ++ outerIndent ++ "\x7d"
termination_by structural frames => frames

/-- `map` with the function of a key. -/
def mapKeysTo : Nat → String → List (String × VmValue) → Nat → List String →
    Json.Run (List String)
  | 0, _, _, _, _ => H.overflow
  | frames + 1, innerIndent, m, depth, xs => do
    let result ← match xs with
      | [] => pure []
      | k :: xs => do
        let text ← keyText frames innerIndent m depth k
        pure (text :: (← mapKeysTo frames innerIndent m depth xs))
    H.ensures "map" "(= (length result) (length xs))" (result.length = xs.length)
    return result
termination_by structural frames => frames

def keyText : Nat → String → List (String × VmValue) → Nat → String → Json.Run String
  | 0, _, _, _, _ => H.overflow
  | frames + 1, innerIndent, m, depth, k => do
    let key := "\"" ++ (← jsonEscape H frames k) ++ "\""
    return innerIndent ++ key ++ ": " ++ (← prettyPrint frames (mapGet m k) (depth + 1))
termination_by structural frames => frames

end

end Functions

/-! ## The functions of the prelude -/

section Prelude

variable {H : Host} {frames : Nat} {α : Type}

theorem take_returns (n : Nat) (xs : List α) :
    Returns (take H frames n xs) (min n xs.length + 1 ≤ frames) (xs.take n) := by
  induction frames generalizing n xs with
  | zero => exact overflow_returns _ _
  | succ frames ih =>
    have hlength : (xs.take n).length ≤ n := List.length_take_le n xs
    have hclause : Returns (H.ensures "take" "(<= (length result) n)"
        (decide ((xs.take n).length ≤ n))) True () :=
      (assert_returns _ _ _ _).congr (by simp only [hlength, decide_true, implies_true])
    cases xs with
    | nil =>
      rw [List.take_nil] at hclause
      rw [take, List.take_nil]
      apply (Returns.pure _).seq
      · exact hclause.bind (Returns.pure _)
      · simp
    | cons x xs =>
      rw [take]
      cases n with
      | zero =>
        rw [if_pos rfl]
        apply (Returns.pure _).seq
        · exact hclause.bind (Returns.pure _)
        · simp
      | succ n =>
        rw [if_neg (Nat.succ_ne_zero n), Nat.add_sub_cancel]
        apply (ih n xs).seq
        · exact (Returns.pure _).bind (hclause.bind (Returns.pure _))
        · simp only [and_true, List.length_cons]
          omega

theorem drop_returns (n : Nat) (xs : List α) :
    Returns (drop H frames n xs) (1 ≤ frames) (xs.drop n) := by
  refine enter_returns fun frames => ?_
  rw [Stdlib.drop_natCast]
  exact (Returns.ok _).congr (by simp)

theorem keyLe_eq (n : Nat) (a b : String) : keyLe n a b = .ok false := rfl

/-- No key comes before another one, so the second list is taken first. -/
theorem merge_returns {xs ys : List String} (hxs : xs ≠ []) :
    Returns (merge H keyLe frames xs ys) (ys.length + 1 ≤ frames) (ys ++ xs) := by
  induction frames generalizing ys with
  | zero => exact overflow_returns _ _
  | succ frames ih =>
    have hclause : Returns (H.ensures "merge" "(= (length result) (+ (length xs) (length ys)))"
        (decide ((ys ++ xs).length = xs.length + ys.length))) True () :=
      (assert_returns _ _ _ _).congr (by simp [Nat.add_comm])
    obtain ⟨x, xs, rfl⟩ := List.exists_cons_of_ne_nil hxs
    rcases ys with _ | ⟨y, ys⟩
    · rw [merge]
      apply (Returns.pure _).seq
      · exact hclause.bind (Returns.pure _)
      · simp
    · rw [merge, keyLe_eq]
      apply (Returns.ok false).seq
      · rw [if_neg Bool.false_ne_true]
        apply ih.seq
        · exact (Returns.pure _).bind (hclause.bind (Returns.pure _))
        · exact Iff.rfl
      · simp only [true_and, and_true, List.length_cons]
        omega

/-- The frames of `sort` on keys. -/
def sortDepth (n : Nat) : Nat :=
  if n ≤ 1 then 1
  else max (n - n / 2 + 1) (max (sortDepth (n / 2)) (sortDepth (n - n / 2))) + 1

/-- The keys come out from the last to the first. -/
theorem sort_returns (xs : List String) :
    Returns (sort H keyLe frames xs) (sortDepth xs.length ≤ frames) xs.reverse := by
  induction frames generalizing xs with
  | zero =>
    apply (Returns.error _ _).congr
    rw [sortDepth]
    split <;> simp
  | succ frames ih =>
    have hclause : Returns (H.ensures "sort" "(= (length result) (length xs))"
        (decide (xs.reverse.length = xs.length))) True () :=
      (assert_returns _ _ _ _).congr (by simp)
    rw [sort]
    by_cases hshort : xs.length ≤ 1
    · have hreverse : xs.reverse = xs := by
        match xs, hshort with
        | [], _ => rfl
        | [x], _ => rfl
      rw [hreverse] at hclause ⊢
      rw [if_pos hshort, sortDepth, if_pos hshort]
      apply (Returns.pure _).seq
      · exact hclause.bind (Returns.pure _)
      · simp
    · rw [if_neg hshort]
      have hne : (xs.take (xs.length / 2)).reverse ≠ [] := by
        intro hnil
        have hlength := congrArg List.length hnil
        rw [List.length_reverse, List.length_take, List.length_nil] at hlength
        omega
      have hmerge := @merge_returns H frames _ (xs.drop (xs.length / 2)).reverse hne
      rw [← List.reverse_append, List.take_append_drop] at hmerge
      have hhalf : min (xs.length / 2) xs.length = xs.length / 2 := by omega
      have hdepth : sortDepth xs.length = max (xs.length - xs.length / 2 + 1)
          (max (sortDepth (xs.length / 2)) (sortDepth (xs.length - xs.length / 2))) + 1 := by
        rw [sortDepth, if_neg hshort]
      apply (take_returns _ xs).seq
      · apply (drop_returns _ xs).bind
        apply (ih _).bind
        apply (ih _).bind
        exact hmerge.bind (hclause.bind (Returns.pure _))
      · simp only [hdepth, List.length_reverse, List.length_take, List.length_drop, hhalf, and_true]
        omega

end Prelude

/-! ## The text -/

section Text

variable (indentStr : String)

def indent : Nat → String
  | 0 => ""
  | depth + 1 => indentStr ++ indent depth

mutual

def prettyText (depth : Nat) : VmValue → String
  | .list [] => "[]"
  | .list (v :: vs) =>
    "[\n" ++ join ",\n" (itemTexts depth (v :: vs)) ++ "\n" ++ indent indentStr depth ++ "]"
  | .map [] => "\x7b\x7d"
  | .map (e :: es) =>
    "\x7b\n" ++ join ",\n" (entryTexts depth (e :: es)) ++ "\n" ++ indent indentStr depth ++ "\x7d"
  | v => render v

def itemTexts (depth : Nat) : List VmValue → List String
  | [] => []
  | v :: vs => (indent indentStr (depth + 1) ++ prettyText (depth + 1) v) :: itemTexts depth vs

def entryTexts (depth : Nat) : List (String × VmValue) → List String
  | [] => []
  | (k, v) :: es =>
    (indent indentStr (depth + 1) ++ quote k ++ ": " ++ prettyText (depth + 1) v) ::
      entryTexts depth es

end

theorem bytes_comma_line : bytesFromString ",\n" = [44, 10] := by decide

theorem bytes_colon_blank : bytesFromString ": " = [58, 32] := by decide

/-- Spaces and tabs. -/
def Blank (s : String) : Prop := ∀ c ∈ s.toList, c = ' ' ∨ c = '\t'

variable {indentStr}

theorem skipWs_indent (h : Blank indentStr) (depth : Nat) :
    Scan.skipWs (bytesFromString (indent indentStr depth)) = [] := by
  have hbytes : Scan.skipWs (bytesFromString indentStr) = [] := by
    rw [Scan.skipWs, List.dropWhile_eq_nil_iff, bytesFromString]
    unfold Blank at h
    generalize indentStr.toList = cs at h
    induction cs with
    | nil => exact List.forall_mem_nil _
    | cons c cs ih =>
      intro b hb
      rw [Utf8.encode_cons, List.mem_append] at hb
      rcases hb with hb | hb
      · rcases h c List.mem_cons_self with rfl | rfl
        · rw [List.mem_singleton.mp hb]
          rfl
        · rw [List.mem_singleton.mp hb]
          rfl
      · exact ih (fun c' hc' => h c' (List.mem_cons_of_mem c hc')) b hb
  induction depth with
  | zero => rfl
  | succ depth ih => rw [indent, bytesFromString_append, skipWs_append hbytes, ih]

/-- A line for every element. -/
def pretty (h : Blank indentStr) : Layout where
  inner depth := 10 :: bytesFromString (indent indentStr (depth + 1))
  outer depth := 10 :: bytesFromString (indent indentStr depth)
  colon := [32]
  inner_ws depth := skipWs_indent h (depth + 1)
  outer_ws depth := skipWs_indent h depth
  colon_ws := rfl

variable (h : Blank indentStr)

mutual

theorem bytes_prettyText (v : VmValue) (depth : Nat) :
    bytesFromString (prettyText indentStr depth v) = (pretty h).value depth v := by
  cases v with
  | list items =>
    have hitems := bytes_itemTexts items depth
    cases items with
    | nil =>
      rw [prettyText, Layout.value, Layout.items]
      rfl
    | cons v vs =>
      rw [prettyText, Layout.value, ← hitems (List.cons_ne_nil v vs)]
      simp only [bytesFromString_append, List.append_assoc]
      rfl
  | map m =>
    have hentries := bytes_entryTexts m depth
    cases m with
    | nil =>
      rw [prettyText, Layout.value, Layout.entries]
      rfl
    | cons e es =>
      rw [prettyText, Layout.value, ← hentries (List.cons_ne_nil e es)]
      simp only [bytesFromString_append, List.append_assoc]
      rfl
  | bool b =>
    simp only [prettyText, Layout.value]
    cases b <;> rfl
  | str s => simp only [prettyText, Layout.value, render]
  | _ =>
    simp only [prettyText, Layout.value]
    rfl

theorem bytes_itemTexts (items : List VmValue) (depth : Nat) (hne : items ≠ []) :
    10 :: (bytesFromString (join ",\n" (itemTexts indentStr depth items)) ++
        10 :: (bytesFromString (indent indentStr depth) ++ [93])) =
      (pretty h).items depth items := by
  rcases items with _ | ⟨v, vs⟩
  · exact absurd rfl hne
  · have hv := bytes_prettyText v (depth + 1)
    have hrest := bytes_itemTexts vs depth
    cases vs with
    | nil =>
      rw [Layout.items, Layout.items, itemTexts, itemTexts, join, bytesFromString_append, hv]
      simp [pretty, Layout.separator]
    | cons w ws =>
      rw [Layout.items, ← hrest (List.cons_ne_nil w ws), itemTexts, itemTexts, join, ← itemTexts,
        bytesFromString_append, bytesFromString_append, bytesFromString_append, hv]
      simp [pretty, Layout.separator, bytes_comma_line]

theorem bytes_entryTexts (m : List (String × VmValue)) (depth : Nat) (hne : m ≠ []) :
    10 :: (bytesFromString (join ",\n" (entryTexts indentStr depth m)) ++
        10 :: (bytesFromString (indent indentStr depth) ++ [125])) =
      (pretty h).entries depth m := by
  rcases m with _ | ⟨⟨k, v⟩, es⟩
  · exact absurd rfl hne
  · have hv := bytes_prettyText v (depth + 1)
    have hrest := bytes_entryTexts es depth
    rcases es with _ | ⟨⟨l, w⟩, es⟩
    · rw [Layout.entries, Layout.entries, entryTexts, entryTexts, join, bytesFromString_append,
        bytesFromString_append, bytesFromString_append, hv]
      simp [pretty, Layout.separator, bytes_colon_blank]
    · rw [Layout.entries, ← hrest (List.cons_ne_nil _ es), entryTexts, entryTexts, join,
        ← entryTexts, bytesFromString_append, bytesFromString_append, bytesFromString_append,
        bytesFromString_append, bytesFromString_append, hv]
      simp [pretty, Layout.separator, bytes_comma_line, bytes_colon_blank]

end

end Text

/-! ## The order of the keys -/

section Order

variable (sortKeys : Bool)

mutual

/-- The value with the entries of every map in the order in which they are printed. -/
def laid : VmValue → VmValue
  | .list items => .list (laidItems items)
  | .map m => .map (if sortKeys then (laidEntries m).reverse else laidEntries m)
  | v => v

def laidItems : List VmValue → List VmValue
  | [] => []
  | v :: vs => laid v :: laidItems vs

def laidEntries : List (String × VmValue) → List (String × VmValue)
  | [] => []
  | (k, v) :: es => (k, laid v) :: laidEntries es

end

theorem textualEntries_iff (es : List (String × VmValue)) :
    TextualEntries es ↔ ∀ e ∈ es, Textual e.2 := by
  induction es with
  | nil => simp [TextualEntries]
  | cons e es ih => rw [TextualEntries, ih, List.forall_mem_cons]

theorem settledEntries_eq (es : List (String × VmValue)) :
    settledEntries es = es.map fun e => (e.1, settled e.2) := by
  induction es with
  | nil => rfl
  | cons e es ih => rw [settledEntries, ih, List.map_cons]

theorem laidEntries_keys (es : List (String × VmValue)) :
    (laidEntries sortKeys es).map Prod.fst = es.map Prod.fst := by
  induction es with
  | nil => rfl
  | cons e es ih => rw [laidEntries, List.map_cons, List.map_cons, ih]

/-- From the last key to the first, every entry is set in front of the others. -/
theorem setAll_reverse {m : List (String × VmValue)} (h : (m.map Prod.fst).Pairwise (· < ·)) :
    setAll [] m.reverse = m := by
  induction m with
  | nil => rfl
  | cons e es ih =>
    rw [List.map_cons, List.pairwise_cons] at h
    have hrest := ih h.2
    rw [setAll] at hrest ⊢
    rw [List.reverse_cons, List.foldl_append, hrest]
    rcases es with _ | ⟨d, es⟩
    · rfl
    · exact if_pos (h.1 d.1 List.mem_cons_self)

mutual

/-- In whatever order the entries are printed, the parser finds the value. -/
theorem settled_laid : ∀ v : VmValue, Plain v →
    Textual (laid sortKeys v) ∧ settled (laid sortKeys v) = v
  | .nil, _ | .bool _, _ | .int _, _ | .str _, _ => ⟨trivial, rfl⟩
  | .list items, hv => by
    obtain ⟨htextual, hsettled⟩ := settled_laidItems items hv
    exact ⟨htextual, congrArg Value.list hsettled⟩
  | .map m, hv => by
    obtain ⟨htextual, hsettled⟩ := settled_laidEntries m hv.2
    rw [laid, settled]
    cases sortKeys with
    | false => exact ⟨htextual, by rw [if_neg Bool.false_ne_true, hsettled, setAll_sorted [] m hv.1,
        List.nil_append]⟩
    | true =>
      rw [settledEntries_eq] at hsettled ⊢
      rw [textualEntries_iff] at htextual
      rw [if_pos rfl, List.map_reverse, hsettled, setAll_reverse hv.1]
      exact ⟨(textualEntries_iff _).mpr fun e he => htextual e (List.mem_reverse.mp he), rfl⟩

theorem settled_laidItems : ∀ items : List VmValue, PlainItems items →
    TextualItems (laidItems sortKeys items) ∧ settledItems (laidItems sortKeys items) = items
  | [], _ => ⟨trivial, rfl⟩
  | v :: vs, hv => by
    obtain ⟨htextual, hsettled⟩ := settled_laid v hv.1
    obtain ⟨htextuals, hsettleds⟩ := settled_laidItems vs hv.2
    exact ⟨⟨htextual, htextuals⟩, by rw [laidItems, settledItems, hsettled, hsettleds]⟩

theorem settled_laidEntries : ∀ es : List (String × VmValue), PlainEntries es →
    TextualEntries (laidEntries sortKeys es) ∧ settledEntries (laidEntries sortKeys es) = es
  | [], _ => ⟨trivial, rfl⟩
  | (k, v) :: es, hv => by
    obtain ⟨htextual, hsettled⟩ := settled_laid v hv.1
    obtain ⟨htextuals, hsettleds⟩ := settled_laidEntries es hv.2
    exact ⟨⟨htextual, htextuals⟩, by rw [laidEntries, settledEntries, hsettled, hsettleds]⟩

end

theorem parseEntriesDepth_le {es : List (String × VmValue)} {n : Nat} :
    parseEntriesDepth es ≤ n ↔ 1 ≤ n ∧ ∀ e ∈ es, stringDepth e.1 ≤ n ∧ parseDepth e.2 ≤ n := by
  induction es with
  | nil => simp [parseEntriesDepth]
  | cons e es ih =>
    rw [parseEntriesDepth, List.forall_mem_cons, Nat.max_le, Nat.max_le, ih]
    tauto

theorem parseEntriesDepth_reverse (es : List (String × VmValue)) :
    parseEntriesDepth es.reverse = parseEntriesDepth es := by
  apply eq_of_forall_ge_iff
  intro n
  rw [parseEntriesDepth_le, parseEntriesDepth_le]
  simp only [List.mem_reverse]

mutual

/-- Reading takes the same frames in any order of the entries. -/
theorem parseDepth_laid : ∀ v : VmValue, parseDepth (laid sortKeys v) = parseDepth v
  | .list items => by rw [laid, parseDepth, parseDepth, parseItemsDepth_laid items]
  | .map m => by
    rw [laid, parseDepth, parseDepth, ← parseEntriesDepth_laid m]
    cases sortKeys with
    | false => rfl
    | true => rw [if_pos rfl, parseEntriesDepth_reverse]
  | .int _ | .float _ | .bool _ | .str _ | .nil | .unit | .intList _ | .tuple _ | .variant _ _
  | .builtinFn _ | .irFuncRef _ | .bytecodeClosure _ _ | .bytes _ | .partialApp _ _ _
  | .bcFuncNative _ _ _ _ _ _ _ => rfl

theorem parseItemsDepth_laid : ∀ items : List VmValue,
    parseItemsDepth (laidItems sortKeys items) = parseItemsDepth items
  | [] => rfl
  | v :: vs => by
    rw [laidItems, parseItemsDepth, parseItemsDepth, parseDepth_laid v, parseItemsDepth_laid vs]

theorem parseEntriesDepth_laid : ∀ es : List (String × VmValue),
    parseEntriesDepth (laidEntries sortKeys es) = parseEntriesDepth es
  | [] => rfl
  | (k, v) :: es => by
    rw [laidEntries, parseEntriesDepth, parseEntriesDepth, parseDepth_laid v,
      parseEntriesDepth_laid es]

end

end Order

/-! ## The frames -/

/-- The frames that a list or map takes: none but for its keys where it is empty, and otherwise also
those of the indentation and of the elements. -/
def containerDepth (depth keys elements : Nat) (empty : Bool) : Nat :=
  max keys (if empty then 0 else max (depth + 2) elements) + 2

section Frames

variable (sortKeys : Bool)

mutual

/-- The frames that printing takes, where the entries of a map stand as they are printed. -/
def prettyDepth (depth : Nat) : VmValue → Nat
  | .str s => stringDepth s + 1
  | .list items => containerDepth depth 0 (itemsPrettyDepth depth items) items.isEmpty
  | .map m =>
    containerDepth depth (if sortKeys then sortDepth m.length else 0)
      (entriesPrettyDepth depth m) m.isEmpty
  | _ => 1

def itemsPrettyDepth (depth : Nat) : List VmValue → Nat
  | [] => 1
  | v :: vs => max (prettyDepth (depth + 1) v + 1) (itemsPrettyDepth depth vs) + 1

def entriesPrettyDepth (depth : Nat) : List (String × VmValue) → Nat
  | [] => 1
  | (k, v) :: es =>
    max (max (stringDepth k) (prettyDepth (depth + 1) v) + 1) (entriesPrettyDepth depth es) + 1

end

variable {sortKeys : Bool} {H : Host} {frames : Nat} {indentStr : String}

theorem prettyDepth_pos (depth : Nat) (v : VmValue) : 1 ≤ prettyDepth sortKeys depth v := by
  cases v with
  | str s => exact Nat.le_add_left 1 _
  | list items => exact Nat.le_add_left 1 _
  | map m => exact Nat.le_add_left 1 _
  | _ => exact Nat.le_refl 1

theorem makeIndent_returns (depth : Nat) :
    Returns (makeIndent H indentStr frames depth) (depth + 1 ≤ frames)
      (indent indentStr depth) := by
  induction depth generalizing frames with
  | zero =>
    cases frames with
    | zero => exact overflow_returns _ _
    | succ frames => exact (Returns.pure _).congr (by simp)
  | succ depth ih =>
    cases frames with
    | zero => exact overflow_returns _ _
    | succ frames =>
      rw [makeIndent]
      exact (ih.map (indentStr ++ ·)).congr (by simp)

theorem itemTexts_length (depth : Nat) (items : List VmValue) :
    (itemTexts indentStr depth items).length = items.length := by
  induction items with
  | nil => rw [itemTexts, List.length_nil, List.length_nil]
  | cons v vs ih => rw [itemTexts, List.length_cons, List.length_cons, ih]

theorem entryTexts_length (depth : Nat) (es : List (String × VmValue)) :
    (entryTexts indentStr depth es).length = es.length := by
  induction es with
  | nil => rw [entryTexts, List.length_nil, List.length_nil]
  | cons e es ih =>
    obtain ⟨k, v⟩ := e
    rw [entryTexts, List.length_cons, List.length_cons, ih]

theorem mapClause_returns {α β : Type} {xs : List α} {ys : List β}
    (h : xs.length = ys.length) :
    Returns (do
      H.ensures "map" "(= (length result) (length xs))" (xs.length = ys.length)
      return xs : Json.Run (List α)) True xs := by
  apply (assert_returns _ _ _ _).seq
  · exact Returns.pure _
  · simp [h]

variable (H sortKeys indentStr) in
/-- `v` is printed as `w` lies. -/
def Prints (v w : VmValue) : Prop :=
  ∀ frames depth, Returns (prettyPrint H indentStr sortKeys frames v depth)
    (prettyDepth sortKeys depth w ≤ frames) (prettyText indentStr depth w)

theorem mapItems_returns {items laid : List VmValue} {depth : Nat}
    (h : List.Forall₂ (Prints sortKeys H indentStr) items laid) :
    Returns (mapItems H indentStr sortKeys frames (indent indentStr (depth + 1)) depth items)
      (itemsPrettyDepth sortKeys depth laid ≤ frames) (itemTexts indentStr depth laid) := by
  induction h generalizing frames with
  | nil =>
    cases frames with
    | zero => exact overflow_returns 0 _
    | succ frames =>
      rw [mapItems, itemTexts]
      exact (mapClause_returns rfl).congr (by simp [itemsPrettyDepth])
  | @cons v w vs ws hv hvs ih =>
    cases frames with
    | zero => exact overflow_returns _ _
    | succ frames =>
      have htext : Returns
          (itemText H indentStr sortKeys frames (indent indentStr (depth + 1)) depth v)
          (prettyDepth sortKeys (depth + 1) w + 1 ≤ frames)
          (indent indentStr (depth + 1) ++ prettyText indentStr (depth + 1) w) := by
        cases frames with
        | zero => exact overflow_returns _ _
        | succ frames =>
          rw [itemText]
          exact ((hv frames (depth + 1)).map _).congr (by simp)
      rw [mapItems, itemTexts, itemsPrettyDepth]
      apply htext.seq
      · apply ih.bind
        apply (Returns.pure _).bind
        apply mapClause_returns
        rw [List.length_cons, List.length_cons, itemTexts_length, hvs.length_eq]
      · simp only [and_true]
        omega

theorem mapKeysTo_returns {m es : List (String × VmValue)} {depth : Nat}
    (h : ∀ e ∈ es, Prints sortKeys H indentStr (mapGet m e.1) e.2) :
    Returns (mapKeysTo H indentStr sortKeys frames (indent indentStr (depth + 1)) m depth
        (es.map Prod.fst))
      (entriesPrettyDepth sortKeys depth es ≤ frames) (entryTexts indentStr depth es) := by
  induction es generalizing frames with
  | nil =>
    cases frames with
    | zero => exact overflow_returns 0 _
    | succ frames =>
      rw [List.map_nil, mapKeysTo, entryTexts]
      exact (mapClause_returns rfl).congr (by simp [entriesPrettyDepth])
  | cons e es ih =>
    obtain ⟨k, w⟩ := e
    cases frames with
    | zero => exact overflow_returns _ _
    | succ frames =>
      rw [List.forall_mem_cons] at h
      have hvalue : Prints sortKeys H indentStr (mapGet m k) w := h.1
      have htext : Returns
          (keyText H indentStr sortKeys frames (indent indentStr (depth + 1)) m depth k)
          (max (stringDepth k) (prettyDepth sortKeys (depth + 1) w) + 1 ≤ frames)
          (indent indentStr (depth + 1) ++ quote k ++ ": " ++
            prettyText indentStr (depth + 1) w) := by
        cases frames with
        | zero => exact overflow_returns _ _
        | succ frames =>
          rw [keyText]
          apply (jsonEscape_returns k).seq
          · exact (hvalue frames (depth + 1)).map _
          · omega
      rw [List.map_cons, mapKeysTo, entryTexts, entriesPrettyDepth]
      apply htext.seq
      · apply (ih h.2).bind
        apply (Returns.pure _).bind
        apply mapClause_returns
        rw [List.length_cons, List.length_cons, entryTexts_length, List.length_map]
      · simp only [and_true]
        omega

theorem prettyPrintList_returns {lst laid : List VmValue} {depth : Nat}
    (h : List.Forall₂ (Prints sortKeys H indentStr) lst laid) :
    Returns (prettyPrintList H indentStr sortKeys frames lst depth)
      (prettyDepth sortKeys depth (.list laid) ≤ frames + 1)
      (prettyText indentStr depth (.list laid)) := by
  rw [prettyDepth, containerDepth]
  cases frames with
  | zero => exact (overflow_returns 0 _).congr ⟨fun h => by omega, fun h => by omega⟩
  | succ frames =>
    rw [prettyPrintList]
    cases h with
    | nil =>
      rw [List.isEmpty_nil, if_pos rfl, prettyText]
      exact (Returns.pure _).congr (by simp)
    | cons hv hvs =>
      rw [List.isEmpty_cons, if_neg Bool.false_ne_true, prettyText]
      apply (makeIndent_returns (depth + 1)).seq
      · apply (makeIndent_returns depth).bind
        exact (mapItems_returns (.cons hv hvs)).map fun texts =>
          "[\n" ++ join ",\n" texts ++ "\n" ++ indent indentStr depth ++ "]"
      · rw [List.isEmpty_cons, if_neg Bool.false_ne_true]
        omega

theorem prettyPrintMap_returns {m es : List (String × VmValue)} {depth : Nat}
    (hkeys : es.map Prod.fst = if sortKeys then (m.map Prod.fst).reverse else m.map Prod.fst)
    (h : ∀ e ∈ es, Prints sortKeys H indentStr (mapGet m e.1) e.2) :
    Returns (prettyPrintMap H indentStr sortKeys frames m depth)
      (prettyDepth sortKeys depth (.map es) ≤ frames + 1)
      (prettyText indentStr depth (.map es)) := by
  rw [prettyDepth, containerDepth]
  cases frames with
  | zero => exact (overflow_returns 0 _).congr ⟨fun h => by omega, fun h => by omega⟩
  | succ frames =>
    have hlength : es.length = m.length := by
      have := congrArg List.length hkeys
      split at this <;> simpa using this
    have hsorted : Returns (keysOf H sortKeys frames m)
        ((if sortKeys then sortDepth es.length else 0) ≤ frames) (es.map Prod.fst) := by
      unfold keysOf
      cases sortKeys with
      | true =>
        have hsort := @sort_returns H frames (m.map Prod.fst)
        rw [hkeys, hlength, if_pos rfl, if_pos rfl]
        rwa [List.length_map] at hsort
      | false =>
        rw [hkeys]
        exact (Returns.pure _).congr (by simp)
    rw [prettyPrintMap]
    apply hsorted.seq (q := es.isEmpty = false → depth + 2 ≤ frames ∧
      entriesPrettyDepth sortKeys depth es ≤ frames)
    · cases es with
      | nil =>
        rw [List.map_nil, List.isEmpty_nil, if_pos rfl, prettyText]
        exact (Returns.pure _).congr (by simp)
      | cons e es =>
        rw [List.map_cons, List.isEmpty_cons, if_neg Bool.false_ne_true, prettyText,
          ← List.map_cons]
        apply (makeIndent_returns (depth + 1)).seq
        · apply (makeIndent_returns depth).bind
          exact (mapKeysTo_returns h).map fun texts =>
            "\x7b\n" ++ join ",\n" texts ++ "\n" ++ indent indentStr depth ++ "\x7d"
        · simp only [List.isEmpty_cons, true_implies]
          omega
    · cases es with
      | nil => simp
      | cons e es =>
        simp only [List.isEmpty_cons, Bool.false_eq_true, if_false, true_implies]
        omega

mutual

theorem prettyPrint_returns (v : VmValue) (hv : Plain v) :
    Prints sortKeys H indentStr v (laid sortKeys v) := by
  intro frames depth
  cases frames with
  | zero =>
    have := @prettyDepth_pos sortKeys depth (laid sortKeys v)
    exact (overflow_returns 0 _).congr ⟨fun h => by omega, fun h => by omega⟩
  | succ frames =>
    cases v with
    | nil => exact (Returns.pure _).congr (by simp [laid, prettyDepth])
    | bool b => exact (Returns.pure _).congr (by simp [laid, prettyDepth])
    | int n => exact (Returns.pure _).congr (by simp [laid, prettyDepth])
    | str s =>
      rw [prettyPrint]
      apply ((jsonEscape_returns s).map fun t => "\"" ++ t ++ "\"").congr
      simp [laid, prettyDepth]
    | list items =>
      rw [prettyPrint, laid]
      exact prettyPrintList_returns (items_print items hv)
    | map m =>
      have hkeys := map_mapGet m (nodup_of_sorted hv.1)
      rw [List.map_map] at hkeys
      have hget : ∀ e ∈ m, mapGet m e.1 = e.2 := fun e he =>
        congrArg Prod.snd (List.map_inj_left.mp (hkeys.trans (List.map_id m).symm) e he)
      have hentries := entries_print m hv.2 hget
      rw [prettyPrint, laid]
      apply prettyPrintMap_returns
      · cases sortKeys with
        | true => rw [if_pos rfl, if_pos rfl, List.map_reverse, laidEntries_keys]
        | false => exact laidEntries_keys false m
      · cases sortKeys with
        | true => exact fun e he => hentries e (List.mem_reverse.mp he)
        | false => exact hentries
    | _ => exact False.elim hv

theorem items_print (items : List VmValue) (hv : PlainItems items) :
    List.Forall₂ (Prints sortKeys H indentStr) items (laidItems sortKeys items) := by
  cases items with
  | nil => exact .nil
  | cons v vs => exact .cons (prettyPrint_returns v hv.1) (items_print vs hv.2)

theorem entries_print (es : List (String × VmValue)) (hv : PlainEntries es)
    {m : List (String × VmValue)} (hget : ∀ e ∈ es, mapGet m e.1 = e.2) :
    ∀ e ∈ laidEntries sortKeys es, Prints sortKeys H indentStr (mapGet m e.1) e.2 := by
  rcases es with _ | ⟨⟨k, v⟩, es⟩
  · exact List.forall_mem_nil _
  · rw [List.forall_mem_cons] at hget
    rw [laidEntries, List.forall_mem_cons, hget.1]
    exact ⟨prettyPrint_returns v hv.1, entries_print es hv.2 hget.2⟩

end

end Frames

/-! ## Reading the text back -/

/-- `(json-parse (pretty-print val depth indent-str sort-keys))`. -/
def prettyTrip (H : Host) (indentStr : String) (sortKeys : Bool) (frames : Nat) (val : VmValue)
    (depth : Nat) : Json.Run (Reply VmValue) := do
  jsonParse H frames (← prettyPrint H indentStr sortKeys frames val depth)

theorem prettyTrip_returns {H : Host} {frames depth : Nat} {indentStr : String} {sortKeys : Bool}
    {v : VmValue} (hv : Plain v) (hindent : Blank indentStr) :
    Returns (prettyTrip H indentStr sortKeys frames v depth)
      (prettyDepth sortKeys depth (laid sortKeys v) ≤ frames ∧ parseDepth v + 1 ≤ frames)
      (.ok v) := by
  obtain ⟨htextual, hsettled⟩ := settled_laid sortKeys v hv
  have hparse := @jsonParse_textual H frames _ _ htextual _ depth
    (bytes_prettyText hindent (laid sortKeys v) depth)
  rw [hsettled, parseDepth_laid] at hparse
  exact (prettyPrint_returns v hv frames depth).bind hparse

/-- Both texts of a value come back as the value exactly when all functions have the frames that its
nesting and its texts take and, with contracts, when it holds no nil. -/
theorem pretty_denotes_iff (H : Host) (frames depth : Nat) (indentStr : String) (sortKeys : Bool)
    (v : VmValue) (hv : Plain v) (hindent : Blank indentStr) :
    prettyTrip H indentStr sortKeys frames v depth = .ok (.ok v) ∧
        roundTrip H frames v = .ok (.ok v) ↔
      (H.contracts = true → NoNil v) ∧ prettyDepth sortKeys depth (laid sortKeys v) ≤ frames ∧
        stringifyDepth v ≤ frames ∧ parseDepth v + 1 ≤ frames := by
  rw [(prettyTrip_returns hv hindent).iff_ok, (roundTrip_returns hv).iff_ok]
  tauto

theorem pretty_denotes_iff_nested :
    prettyTrip vmHost "\t" true 9999
        (.list [.int (-7), .map [("a\"b", .bool true), ("k", .list [])]]) 0 =
      .ok (.ok (.list [.int (-7), .map [("a\"b", .bool true), ("k", .list [])]])) := by
  have hplain : Plain (.list [.int (-7), .map [("a\"b", .bool true), ("k", .list [])]]) := by
    have hkeys : ["a\"b", "k"].Pairwise (· < ·) := by decide
    exact ⟨trivial, ⟨hkeys, trivial, trivial, trivial⟩, trivial⟩
  have htab : Blank "\t" := fun c hc => .inr (List.mem_singleton.mp hc)
  refine ((pretty_denotes_iff vmHost 9999 0 "\t" true _ hplain htab).mpr
    ⟨fun _ => ?_, ?_, ?_, ?_⟩).1
  · simp [NoNil, NoNilItems, NoNilEntries]
  · have hkeys : stringDepth "a\"b" = 6 ∧ stringDepth "k" = 4 := by decide
    simp [laid, laidItems, laidEntries, prettyDepth, itemsPrettyDepth, entriesPrettyDepth,
      containerDepth, sortDepth, hkeys]
  · decide
  · decide

theorem le_prettyDepth_nest (n depth : Nat) (sortKeys : Bool) :
    4 * n + 2 ≤ prettyDepth sortKeys depth (laid sortKeys (nest n)) := by
  induction n generalizing depth with
  | zero => exact Nat.le_add_left 2 _
  | succ n ih =>
    have hinner := ih (depth + 1)
    simp only [nest, laid, laidItems, prettyDepth, containerDepth, itemsPrettyDepth,
      List.isEmpty_cons, Bool.false_eq_true, if_false]
    omega

/-- The compact text of a list nested this deep comes back, and the other one is never written. -/
theorem pretty_overflows :
    roundTrip vmHost 9999 (nest 2500) = .ok (.ok (nest 2500)) ∧
      prettyTrip vmHost "  " false 9999 (nest 2500) 0 ≠ .ok (.ok (nest 2500)) := by
  obtain ⟨hplain, hnil⟩ := nest_plain 2500
  obtain ⟨hstringify, hparse⟩ := nest_depths 2500
  have hblank : Blank "  " := by
    intro c hc
    exact .inl (by simpa using hc)
  refine ⟨?_, fun h => ?_⟩
  · apply (roundTrip_returns hplain).iff_ok.mpr
    exact ⟨fun _ => hnil, by omega, by omega⟩
  · have hdepth := le_prettyDepth_nest 2500 0 false
    obtain ⟨hframes, -⟩ := (prettyTrip_returns hplain hblank).iff_ok.mp h
    omega

end Airl.Airq
