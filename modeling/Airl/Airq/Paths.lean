import Mathlib.Data.List.Nodup
import Airl.Json.Layout
import Airl.Runtime.Display

/-! # Paths in `airq`

`paths`, `getpath`, `setpath`, `to_entries` and `from_entries` of `builtins.airl`, compiled with
their contract clauses or without them. The filters for a path and a value have been evaluated.
-/

namespace Airl.Airq

open Json

/-- An element of a path. -/
inductive Step where
  | name (key : String)
  | index (i : Int)
  deriving Repr, DecidableEq

/-- `str`. -/
def Step.text : Step → String
  | .name key => key
  | .index i => toString i

section Functions

variable (H : Host)

/-- A clause `(valid x)`. -/
def valid (kind : ContractKind) (function clause : String) (x : VmValue) : Json.Run Unit :=
  H.assert kind function clause (typeOf x ≠ "nil")

def mapGetOr (m : List (String × VmValue)) (key : String) (default : VmValue) :
    Json.Run VmValue := do
  let result := (m.lookup key).getD default
  valid H .ensures "map-get-or" "(valid result)" result
  return result

/-- `(if (>= key 0) (< key (length input)) false)`. A text and an integer have no order. -/
def inRange (input : List VmValue) : Step → Json.Run Bool
  | .name _ => .error .exit
  | .index i => return 0 ≤ i && i < input.length

/-- `at`. -/
def elementAt (input : List VmValue) : Step → Json.Run VmValue
  | .name _ => .error .exit
  | .index i => match input[i.toNat]? with
    | some v => .ok v
    | none => .error .exit

def navigatePath : List Step → VmValue → Json.Run VmValue
  | path, input => do
    valid H .requires "navigate-path" "(valid input)" input
    let result ← match path with
      | [] => pure input
      | key :: path => match input with
        | .map m => do navigatePath path (← mapGetOr H m key.text .nil)
        | .list lst => do
          if ← inRange lst key then navigatePath path (← elementAt lst key) else pure .nil
        | _ => pure .nil
    valid H .ensures "navigate-path" "(valid result)" result
    return result

def setPathImpl (val : VmValue) : List Step → VmValue → Json.Run VmValue
  | path, input => do
    valid H .requires "set-path-impl" "(valid input)" input
    let result ← match path with
      | [] => pure val
      | key :: path => match input with
        | .map m => do
          let child ← setPathImpl val path (← mapGetOr H m key.text .nil)
          pure (.map (mapSet m key.text child))
        | input => pure input
    valid H .ensures "set-path-impl" "(valid result)" result
    return result

mutual

def biPathsImpl : VmValue → List Step → Json.Run (List (List Step))
  | .map m, path => biPathsFold m path []
  | .list lst, path => biPathsListLoop lst path 0
  | input, _ => do
    valid H .requires "bi-paths-impl" "(valid input)" input
    return []

/-- The `fold` over the keys, each with what `map-get` gives for it. -/
def biPathsFold : List (String × VmValue) → List Step → List (List Step) →
    Json.Run (List (List Step))
  | [], _, acc => return acc
  | (k, v) :: es, start, acc => do
    let path := start ++ [.name k]
    let below ← biPathsImpl v path
    biPathsFold es start (below.foldl (fun a p => a ++ [p]) (acc ++ [path]))

/-- `lst` holds the elements from index `i` on. -/
def biPathsListLoop : List VmValue → List Step → Int → Json.Run (List (List Step))
  | [], _, _ => return []
  | v :: lst, start, i => do
    let path := start ++ [.index i]
    let subPaths ← biPathsImpl v path
    let rest ← biPathsListLoop lst start (i + 1)
    return rest.foldl (fun acc p => acc ++ [p]) (path :: subPaths)

end

def biPaths (input : VmValue) : Json.Run (List (List Step)) := do
  valid H .requires "bi-paths" "(valid input)" input
  biPathsImpl H input []

def biToEntries (input : VmValue) : Json.Run VmValue := do
  valid H .requires "bi-to-entries" "(valid input)" input
  match input with
  | .map m => return .list (m.map fun e => .map [("key", .str e.1), ("value", e.2)])
  | input => return input

/-- An entry that is no map is passed over. -/
def addEntry (acc : List (String × VmValue)) : VmValue → Json.Run (List (String × VmValue))
  | .map entry => do
    let k ← mapGetOr H entry "key" (← mapGetOr H entry "name" (.str ""))
    let v ← mapGetOr H entry "value" .nil
    let key := Value.strVariadic (fun bits => (H.floatToString bits).toList) [k]
    return mapSet acc (String.ofList key) v
  | _ => return acc

def biFromEntries (input : VmValue) : Json.Run VmValue := do
  valid H .requires "bi-from-entries" "(valid input)" input
  match input with
  | .list entries => do return .map (← entries.foldlM (addEntry H) [])
  | input => return input

end Functions

/-! ## Values at paths -/

/-- The value at a path. -/
def valueAt : List Step → VmValue → Option VmValue
  | [], v => some v
  | .name k :: p, .map m => (m.lookup k).bind (valueAt p)
  | .index i :: p, .list lst => if 0 ≤ i then lst[i.toNat]?.bind (valueAt p) else none
  | _ :: _, _ => none

/-- Only maps lie above the value at a path. -/
def MapsAbove : List Step → VmValue → Prop
  | [], _ => True
  | .name k :: p, .map m => ∃ v, m.lookup k = some v ∧ MapsAbove p v
  | _ :: _, _ => False

mutual

/-- Scalars, and lists and maps of such values, with the entries of a map in key order. -/
def JsonValue : VmValue → Prop
  | .nil | .bool _ | .int _ | .float _ | .str _ => True
  | .list items => JsonItems items
  | .map m => (m.map Prod.fst).Pairwise (· < ·) ∧ JsonEntries m
  | _ => False

def JsonItems : List VmValue → Prop
  | [] => True
  | v :: vs => JsonValue v ∧ JsonItems vs

def JsonEntries : List (String × VmValue) → Prop
  | [] => True
  | (_, v) :: es => JsonValue v ∧ JsonEntries es

end

/-- `setpath` where no clause fails. -/
def updated (val : VmValue) : List Step → VmValue → VmValue
  | [], _ => val
  | key :: p, .map m => .map (mapSet m key.text (updated val p ((m.lookup key.text).getD .nil)))
  | _ :: _, v => v

theorem mem_of_lookup {m : List (String × VmValue)} {k : String} {v : VmValue}
    (h : m.lookup k = some v) : (k, v) ∈ m := by
  obtain ⟨_, _, rfl, _⟩ := List.lookup_eq_some_iff.mp h
  exact List.mem_append_right _ List.mem_cons_self

theorem lookup_of_mem {m : List (String × VmValue)} (h : (m.map Prod.fst).Pairwise (· < ·))
    {k : String} {v : VmValue} (hk : (k, v) ∈ m) : m.lookup k = some v := by
  induction m with
  | nil => cases hk
  | cons e m ih =>
    rw [List.map_cons, List.pairwise_cons] at h
    rcases List.mem_cons.mp hk with rfl | hk
    · exact List.lookup_cons_self
    · have hlt : e.1 < k := h.1 k (List.mem_map.mpr ⟨_, hk, rfl⟩)
      have hne : k ≠ e.1 := fun heq => String.lt_irrefl k (heq ▸ hlt)
      rw [List.lookup_cons, beq_eq_false_iff_ne.mpr hne]
      exact ih h.2 hk

theorem mapSet_lookup {m : List (String × VmValue)} (h : (m.map Prod.fst).Pairwise (· < ·))
    {k : String} {v : VmValue} (hk : m.lookup k = some v) : mapSet m k v = m := by
  induction m with
  | nil => cases hk
  | cons e m ih =>
    obtain ⟨k', w⟩ := e
    rw [List.map_cons, List.pairwise_cons] at h
    rw [lookup_cons_if] at hk
    rw [mapSet]
    by_cases heq : k' = k
    · subst heq
      rw [if_pos rfl] at hk
      rw [if_neg (String.lt_irrefl k'), if_pos rfl, Option.some.inj hk]
    · rw [if_neg (Ne.symm heq)] at hk
      have hlt : k' < k := h.1 k (List.mem_map.mpr ⟨_, mem_of_lookup hk, rfl⟩)
      rw [if_neg (String.lt_asymm hlt), if_neg (Ne.symm heq), ih h.2 hk]

section Values

variable {p : List Step} {j v w : VmValue}

/-- Where only maps lie above a path an update puts the value there. -/
theorem MapsAbove.valueAt_updated (h : MapsAbove p j) : valueAt p (updated v p j) = some v := by
  induction p generalizing j with
  | nil => rfl
  | cons s p ih =>
    cases s with
    | index i => exact h.elim
    | name k =>
      cases j with
      | map m =>
        obtain ⟨child, hchild, habove⟩ := h
        rw [updated, Step.text, hchild, Option.getD_some, valueAt, lookup_mapSet, if_pos rfl]
        exact ih habove
      | _ => exact h.elim

theorem MapsAbove.updated (h : MapsAbove p j) : MapsAbove p (Airq.updated v p j) := by
  induction p generalizing j with
  | nil => trivial
  | cons s p ih =>
    cases s with
    | index i => exact h.elim
    | name k =>
      cases j with
      | map m =>
        obtain ⟨child, hchild, habove⟩ := h
        rw [Airq.updated, Step.text, hchild, Option.getD_some]
        exact ⟨_, by rw [lookup_mapSet, if_pos rfl], ih habove⟩
      | _ => exact h.elim

theorem jsonValue_of_lookup {m : List (String × VmValue)} (h : JsonEntries m) {k : String}
    (hk : m.lookup k = some v) : JsonValue v := by
  induction m with
  | nil => cases hk
  | cons e m ih =>
    obtain ⟨k', w⟩ := e
    rw [lookup_cons_if] at hk
    split at hk
    · exact Option.some.inj hk ▸ h.1
    · exact ih h.2 hk

/-- Setting what is there changes nothing, and neither does a path through a list. -/
theorem updated_self (hj : JsonValue j) (hw : valueAt p j = some w)
    (h : v = w ∨ ¬ MapsAbove p j) : updated v p j = j := by
  induction p generalizing j with
  | nil =>
    rcases h with rfl | h
    · exact (Option.some.inj hw).symm
    · exact absurd trivial h
  | cons s p ih =>
    cases j with
    | map m =>
      cases s with
      | index i => cases hw
      | name k =>
        obtain ⟨child, hchild, hw⟩ := Option.bind_eq_some_iff.mp hw
        have hinner : updated v p child = child := by
          refine ih (jsonValue_of_lookup hj.2 hchild) hw ?_
          exact h.imp_right fun hnot habove => hnot ⟨child, hchild, habove⟩
        rw [updated, Step.text, hchild, Option.getD_some, hinner, mapSet_lookup hj.1 hchild]
    | _ => cases s <;> rfl

end Values

/-! ## What the functions return -/

section Returning

variable {H : Host} {p : List Step} {j v w : VmValue}

theorem valid_returns {kind : ContractKind} {function clause : String} (x : VmValue) :
    Returns (valid H kind function clause x) (H.contracts = true → typeOf x ≠ "nil") () :=
  (assert_returns _ _ _ _).congr (by simp)

theorem mapGetOr_returns {m : List (String × VmValue)} {key : String} (default : VmValue) :
    Returns (mapGetOr H m key default)
      (H.contracts = true → typeOf ((m.lookup key).getD default) ≠ "nil")
      ((m.lookup key).getD default) := by
  apply (valid_returns _).seq
  · exact Returns.pure _
  · exact and_iff_left trivial

theorem typeOf_above {s : Step} (h : valueAt (s :: p) j = some w) : typeOf j ≠ "nil" := by
  cases j with
  | map m => simp [typeOf]
  | list lst => simp [typeOf]
  | _ => cases s <;> cases h

theorem typeOf_of_valueAt (h : valueAt p j = some w) (hw : typeOf w ≠ "nil") :
    typeOf j ≠ "nil" := by
  cases p with
  | nil => exact Option.some.inj h ▸ hw
  | cons s p => exact typeOf_above h

/-- `getpath` returns the value at the path. -/
theorem navigatePath_returns (h : valueAt p j = some w) :
    Returns (navigatePath H p j) (H.contracts = true → typeOf w ≠ "nil") w := by
  induction p generalizing j with
  | nil =>
    cases Option.some.inj h
    rw [navigatePath]
    apply (valid_returns _).seq
    · exact (Returns.pure w).bind ((valid_returns w).bind (Returns.pure w))
    · simp
  | cons s p ih =>
    have hj := typeOf_above h
    cases j with
    | map m =>
      cases s with
      | index i => cases h
      | name k =>
        obtain ⟨child, hchild, h⟩ := Option.bind_eq_some_iff.mp h
        have hget := @mapGetOr_returns H m k .nil
        rw [hchild, Option.getD_some] at hget
        have hvalid := typeOf_of_valueAt h
        rw [navigatePath]
        apply (valid_returns _).seq
        · apply hget.bind
          apply (ih h).bind
          exact (valid_returns w).bind (Returns.pure w)
        · tauto
    | list lst =>
      cases s with
      | name k => cases h
      | index i =>
        rw [valueAt] at h
        split at h
        next hi =>
          obtain ⟨child, hchild, h⟩ := Option.bind_eq_some_iff.mp h
          have hlt : i < lst.length := by
            have := (List.getElem?_eq_some_iff.mp hchild).1
            omega
          have hrange : Returns (inRange lst (.index i)) True true := by
            rw [inRange, decide_eq_true hi, decide_eq_true hlt]
            exact Returns.pure _
          have hat : Returns (elementAt lst (.index i)) True child := by
            rw [elementAt, hchild]
            exact Returns.ok _
          rw [navigatePath]
          apply (valid_returns _).seq
          · apply hrange.bind
            rw [if_pos rfl]
            apply hat.bind
            apply (ih h).bind
            exact (valid_returns w).bind (Returns.pure w)
          · tauto
        next => cases h
    | _ => cases s <;> cases h

/-- `setpath` returns the updated value where only maps lie above the path. -/
theorem setPathImpl_returns (hj : valueAt p j = some w) :
    Returns (setPathImpl H v p j)
      (MapsAbove p j → H.contracts = true → typeOf w ≠ "nil" ∧ typeOf v ≠ "nil")
      (updated v p j) := by
  induction p generalizing j with
  | nil =>
    cases Option.some.inj hj
    rw [setPathImpl, updated]
    apply (valid_returns _).seq
    · exact (Returns.pure v).bind ((valid_returns v).bind (Returns.pure v))
    · simp [MapsAbove]
      tauto
  | cons s p ih =>
    have hvalid := typeOf_above hj
    cases j with
    | map m =>
      cases s with
      | index i => cases hj
      | name k =>
        obtain ⟨child, hchild, hj⟩ := Option.bind_eq_some_iff.mp hj
        have hget := @mapGetOr_returns H m k .nil
        rw [hchild, Option.getD_some] at hget
        have hbelow := typeOf_of_valueAt hj
        have hmaps : MapsAbove (.name k :: p) (.map m) ↔ MapsAbove p child := by
          constructor
          · intro h
            obtain ⟨child', hchild', h⟩ := h
            rw [hchild] at hchild'
            exact Option.some.inj hchild' ▸ h
          · exact fun h => ⟨child, hchild, h⟩
        -- a value that is not below a map alone has a list above it
        have hlist : ¬ MapsAbove p child → typeOf child ≠ "nil" := by
          intro hnot
          cases p with
          | nil => exact absurd trivial hnot
          | cons s p => exact typeOf_above hj
        have hmap : ∀ es, typeOf (.map es) ≠ "nil" := fun es => by simp [typeOf]
        rw [setPathImpl, updated, Step.text, hchild, Option.getD_some, hmaps]
        apply (valid_returns _).seq
        · apply hget.bind
          apply (ih hj).bind
          exact (Returns.pure _).bind ((valid_returns _).bind (Returns.pure _))
        · have hresult := hmap (mapSet m k (updated v p child))
          tauto
    | list lst =>
      have hsame : updated v (s :: p) (.list lst) = .list lst := by cases s <;> rfl
      have hmaps : ¬ MapsAbove (s :: p) (.list lst) := by
        intro h
        cases s <;> exact h
      rw [setPathImpl, hsame]
      apply (valid_returns _).seq
      · exact (Returns.pure _).bind ((valid_returns _).bind (Returns.pure _))
      · tauto
    | _ => cases s <;> cases hj

/-! ## Other paths -/

theorem navigatePath_map (s : Step) (p : List Step) (m : List (String × VmValue)) :
    navigatePath H (s :: p) (.map m) = do
      valid H .requires "navigate-path" "(valid input)" (.map m)
      let child ← mapGetOr H m s.text .nil
      let result ← navigatePath H p child
      valid H .ensures "navigate-path" "(valid result)" result
      return result := by
  rw [navigatePath]

theorem mapGetOr_bind {α : Type} {f g : VmValue → Json.Run α} {m m' : List (String × VmValue)}
    {key key' : String} {default : VmValue}
    (htype : typeOf ((m.lookup key).getD default) = typeOf ((m'.lookup key').getD default))
    (h : f ((m.lookup key).getD default) = g ((m'.lookup key').getD default)) :
    (mapGetOr H m key default >>= f) = mapGetOr H m' key' default >>= g := by
  simp only [mapGetOr, valid, htype, bind_assoc, pure_bind, h]

theorem navigatePath_texts {q : List Step} (h : MapsAbove p j)
    (hq : q.map Step.text = p.map Step.text) : navigatePath H q j = navigatePath H p j := by
  induction p generalizing j q with
  | nil => rw [List.map_eq_nil_iff.mp hq]
  | cons s p ih =>
    obtain ⟨s', q, rfl⟩ := List.exists_cons_of_ne_nil (l := q) (by rintro rfl; cases hq)
    obtain ⟨htext, hrest⟩ := List.cons.inj hq
    cases s with
    | index i => exact h.elim
    | name k =>
      cases j with
      | map m =>
        obtain ⟨child, hchild, h⟩ := h
        rw [navigatePath_map, navigatePath_map, htext]
        apply bind_congr
        intro _
        apply mapGetOr_bind rfl
        rw [Step.text, hchild, Option.getD_some, ih h hrest]
      | _ => exact h.elim

/-- An update leaves a path alone that neither begins nor continues it. -/
theorem navigatePath_updated {q : List Step} (h : MapsAbove p j)
    (hnames : ∀ k, Step.name k ∈ p → ∀ i : Int, toString i ≠ k) (hqp : ¬ q <+: p)
    (hpq : ¬ p <+: q) : navigatePath H q (updated v p j) = navigatePath H q j := by
  induction p generalizing j q with
  | nil => exact absurd List.nil_prefix hpq
  | cons s p ih =>
    cases q with
    | nil => exact absurd List.nil_prefix hqp
    | cons s' q =>
      cases s with
      | index i => exact h.elim
      | name k =>
        cases j with
        | map m =>
          obtain ⟨child, hchild, h⟩ := h
          rw [updated, Step.text, hchild, Option.getD_some, navigatePath_map,
            navigatePath_map]
          apply bind_congr
          intro _
          by_cases htext : s'.text = k
          · have hstep : s' = .name k := by
              cases s' with
              | name k' => exact congrArg Step.name htext
              | index i => exact absurd htext (hnames k List.mem_cons_self i)
            subst hstep
            rw [List.cons_prefix_cons, not_and] at hqp hpq
            have hrest := ih h (fun k' hk' => hnames k' (List.mem_cons_of_mem _ hk'))
              (hqp rfl) (hpq rfl)
            have htype : typeOf (updated v p child) = typeOf child := by
              cases p with
              | nil => exact absurd List.nil_prefix (hpq rfl)
              | cons s p =>
                cases child with
                | map es => rfl
                | _ => cases s <;> exact h.elim
            apply mapGetOr_bind
            · rw [Step.text, lookup_mapSet, if_pos rfl, hchild]
              exact htype
            · rw [Step.text, lookup_mapSet, if_pos rfl, hchild, Option.getD_some,
                Option.getD_some, hrest]
          · have hlookup : (mapSet m k (updated v p child)).lookup s'.text =
                m.lookup s'.text := by
              rw [lookup_mapSet, if_neg htext]
            apply mapGetOr_bind
            · rw [hlookup]
            · rw [hlookup]
        | _ => exact h.elim

end Returning

/-! ## One path -/

/-- What is set at a path is found there, what does not lie above or below it stays, and setting
what is there changes nothing. -/
structure Lens (H : Host) (j : VmValue) (p : List Step) (v : VmValue) : Prop where
  get_set : setPathImpl H v p j >>= navigatePath H p = .ok v
  frame : ∀ j', setPathImpl H v p j = .ok j' → ∀ q, ¬ q <+: p → ¬ p <+: q →
    navigatePath H q j' = navigatePath H q j
  set_get : (navigatePath H p j >>= fun w => setPathImpl H w p j) = .ok j

/-- No key on a path reads as an integer. -/
def NoNumerals (p : List Step) : Prop := ∀ k, Step.name k ∈ p → ∀ i : Int, toString i ≠ k

section Lens

variable {H : Host} {p : List Step} {j v w : VmValue}

/-- What was set is read back just if only maps lie above it or nothing changed. -/
theorem get_set_returns (hj : JsonValue j) (hw : valueAt p j = some w) :
    setPathImpl H v p j >>= navigatePath H p = .ok v ↔
      (H.contracts = true → typeOf w ≠ "nil" ∧ typeOf v ≠ "nil") ∧ (MapsAbove p j ∨ v = w) := by
  by_cases habove : MapsAbove p j
  · have hset := (setPathImpl_returns (H := H) (v := v) hw).bind
      (navigatePath_returns (H := H) habove.valueAt_updated)
    rw [hset.iff_ok]
    tauto
  · have hset := setPathImpl_returns (H := H) (v := v) hw
    rw [updated_self hj hw (.inr habove)] at hset
    rw [hset.bind (navigatePath_returns hw) v]
    constructor
    · rintro ⟨⟨-, hvalid⟩, rfl⟩
      exact ⟨fun hc => ⟨hvalid hc, hvalid hc⟩, .inr rfl⟩
    · rintro ⟨hvalid, habove' | rfl⟩
      · exact absurd habove' habove
      · exact ⟨⟨fun h => absurd h habove, fun hc => (hvalid hc).1⟩, rfl⟩

theorem not_prefix_of_texts {q : List Step} (hne : q ≠ p)
    (hq : q.map Step.text = p.map Step.text) : ¬ q <+: p ∧ ¬ p <+: q := by
  have hlength : q.length = p.length := by
    rw [← List.length_map (f := Step.text), hq, List.length_map]
  exact ⟨fun h => hne (h.eq_of_length hlength), fun h => hne (h.eq_of_length hlength.symm).symm⟩

/-- A path is a lens just if only maps lie above it and no key is a numeral, or nothing changes. -/
theorem lens_iff (hj : JsonValue j) (hw : valueAt p j = some w) :
    Lens H j p v ↔ (H.contracts = true → typeOf w ≠ "nil" ∧ typeOf v ≠ "nil") ∧
      (MapsAbove p j ∧ NoNumerals p ∨ v = w) := by
  constructor
  · intro h
    obtain ⟨hvalid, habove⟩ := (get_set_returns hj hw).mp h.get_set
    refine ⟨hvalid, ?_⟩
    by_cases heq : v = w
    · exact .inr heq
    · have habove := habove.resolve_right heq
      refine .inl ⟨habove, fun k hk i hi => heq ?_⟩
      -- the integer in the place of the key sees what was set
      obtain ⟨a, b, rfl⟩ := List.append_of_mem hk
      have htexts : (a ++ Step.index i :: b).map Step.text =
          (a ++ Step.name k :: b).map Step.text := by
        simp [Step.text, hi]
      have hne : a ++ Step.index i :: b ≠ a ++ Step.name k :: b := by simp
      obtain ⟨hqp, hpq⟩ := not_prefix_of_texts hne htexts
      have hset := (setPathImpl_returns (H := H) (v := v) hw).eq_ok fun _ => hvalid
      have hframe := h.frame _ hset _ hqp hpq
      rw [navigatePath_texts habove.updated htexts, navigatePath_texts habove htexts,
        (navigatePath_returns habove.valueAt_updated).eq_ok fun hc => (hvalid hc).2,
        (navigatePath_returns hw).eq_ok fun hc => (hvalid hc).1] at hframe
      exact Except.ok.inj hframe
  · rintro ⟨hvalid, hcases⟩
    have hget := (navigatePath_returns (H := H) hw).eq_ok fun hc => (hvalid hc).1
    refine ⟨(get_set_returns hj hw).mpr ⟨hvalid, hcases.imp_left And.left⟩, ?_, ?_⟩
    · intro j' hj' q hqp hpq
      rw [((setPathImpl_returns hw) j').mp hj' |>.2]
      rcases hcases with ⟨habove, hnames⟩ | rfl
      · exact navigatePath_updated habove hnames hqp hpq
      · rw [updated_self hj hw (.inl rfl)]
    · have hset := (setPathImpl_returns (H := H) (v := w) hw).eq_ok
        fun _ hc => ⟨(hvalid hc).1, (hvalid hc).1⟩
      rw [hget, ok_bind, hset, updated_self hj hw (.inl rfl)]

end Lens

/-! ## All paths -/

mutual

def pathsIn : VmValue → List (List Step)
  | .list lst => itemPaths 0 lst
  | .map m => memberPaths m
  | _ => []

def itemPaths (i : Int) : List VmValue → List (List Step)
  | [] => []
  | v :: vs => ([.index i] :: (pathsIn v).map (.index i :: ·)) ++ itemPaths (i + 1) vs

def memberPaths : List (String × VmValue) → List (List Step)
  | [] => []
  | (k, v) :: es => ([.name k] :: (pathsIn v).map (.name k :: ·)) ++ memberPaths es

end

theorem foldl_concat {α : Type} (xs acc : List α) :
    xs.foldl (fun acc x => acc ++ [x]) acc = acc ++ xs := by
  induction xs generalizing acc with
  | nil => exact (List.append_nil acc).symm
  | cons x xs ih => rw [List.foldl_cons, ih, List.append_assoc, List.singleton_append]

section Paths

variable {H : Host}

mutual

theorem biPathsImpl_returns (v : VmValue) (hv : JsonValue v) (start : List Step) :
    Returns (biPathsImpl H v start) (H.contracts = true → NoNil v)
      ((pathsIn v).map (start ++ ·)) := by
  cases v with
  | list lst =>
    rw [biPathsImpl, pathsIn]
    exact biPathsListLoop_returns lst hv start 0
  | map m =>
    rw [biPathsImpl, pathsIn]
    exact biPathsFold_returns m hv.2 start []
  | nil | bool _ | int _ | float _ | str _ =>
    simp only [biPathsImpl, pathsIn]
    apply (valid_returns _).seq
    · exact Returns.pure _
    · simp [typeOf, NoNil]
  | _ => exact hv.elim

theorem biPathsFold_returns (m : List (String × VmValue)) (hm : JsonEntries m)
    (start : List Step) (acc : List (List Step)) :
    Returns (biPathsFold H m start acc) (H.contracts = true → NoNilEntries m)
      (acc ++ (memberPaths m).map (start ++ ·)) := by
  rcases m with _ | ⟨⟨k, v⟩, es⟩
  · rw [biPathsFold, memberPaths, List.map_nil, List.append_nil]
    exact (Returns.pure _).congr (by simp [NoNilEntries])
  · rw [biPathsFold, memberPaths, NoNilEntries]
    apply (biPathsImpl_returns v hm.1 _).seq
    · have hrest := biPathsFold_returns es hm.2 start
        (acc ++ [start ++ [.name k]] ++ (pathsIn v).map (start ++ [.name k] ++ ·))
      rw [foldl_concat]
      convert hrest using 1
      simp [Function.comp_def]
    · tauto

theorem biPathsListLoop_returns (lst : List VmValue) (hlst : JsonItems lst)
    (start : List Step) (i : Int) :
    Returns (biPathsListLoop H lst start i) (H.contracts = true → NoNilItems lst)
      ((itemPaths i lst).map (start ++ ·)) := by
  cases lst with
  | nil =>
    rw [biPathsListLoop, itemPaths]
    exact (Returns.pure _).congr (by simp [NoNilItems])
  | cons v vs =>
    rw [biPathsListLoop, itemPaths, NoNilItems]
    apply (biPathsImpl_returns v hlst.1 _).seq
    · apply (biPathsListLoop_returns vs hlst.2 start (i + 1)).bind
      rw [foldl_concat]
      convert Returns.pure _ using 1
      simp [Function.comp_def]
    · tauto

end

end Paths

section Listed

variable {p : List Step}

theorem mem_under {s : Step} {ps : List (List Step)} :
    p ∈ [s] :: ps.map (s :: ·) ↔ ∃ q, p = s :: q ∧ (q = [] ∨ q ∈ ps) := by
  rw [List.mem_cons, List.mem_map]
  constructor
  · rintro (rfl | ⟨q, hq, rfl⟩)
    · exact ⟨[], rfl, .inl rfl⟩
    · exact ⟨q, rfl, .inr hq⟩
  · rintro ⟨q, rfl, rfl | hq⟩
    · exact .inl rfl
    · exact .inr ⟨q, hq, rfl⟩

theorem nodup_under {s : Step} {ps : List (List Step)} (hps : ps.Nodup) (hnil : [] ∉ ps) :
    ([s] :: ps.map (s :: ·)).Nodup := by
  rw [List.nodup_cons, List.mem_map]
  constructor
  · rintro ⟨q, hq, heq⟩
    exact hnil ((List.cons.inj heq).2 ▸ hq)
  · exact hps.map fun q q' heq => (List.cons.inj heq).2

mutual

/-- The paths listed are those with a value. -/
theorem mem_pathsIn (v : VmValue) (hv : JsonValue v) {p : List Step} :
    p ∈ pathsIn v ↔ p ≠ [] ∧ (valueAt p v).isSome = true := by
  cases v with
  | list lst =>
    have hitems := @mem_itemPaths lst hv 0 p
    rw [pathsIn, hitems]
    constructor
    · rintro ⟨n, v, q, hn, rfl, hq⟩
      refine ⟨List.cons_ne_nil _ _, ?_⟩
      rw [valueAt, if_pos (by omega), show ((0 : Int) + n).toNat = n by omega, hn]
      exact hq
    · rintro ⟨hne, hsome⟩
      obtain ⟨w, hw⟩ := Option.isSome_iff_exists.mp hsome
      obtain ⟨s, q, rfl⟩ := List.exists_cons_of_ne_nil hne
      cases s with
      | name k => cases hw
      | index i =>
        rw [valueAt] at hw
        split at hw
        next hi =>
          obtain ⟨v, hv, hq⟩ := Option.bind_eq_some_iff.mp hw
          refine ⟨i.toNat, v, q, hv, ?_, Option.isSome_iff_exists.mpr ⟨w, hq⟩⟩
          rw [Int.toNat_of_nonneg hi, Int.zero_add]
        next => cases hw
  | map m =>
    have hmembers := @mem_memberPaths m hv.2 p
    rw [pathsIn, hmembers]
    constructor
    · rintro ⟨k, v, q, hk, rfl, hq⟩
      refine ⟨List.cons_ne_nil _ _, ?_⟩
      rw [valueAt, lookup_of_mem hv.1 hk]
      exact hq
    · rintro ⟨hne, hsome⟩
      obtain ⟨w, hw⟩ := Option.isSome_iff_exists.mp hsome
      obtain ⟨s, q, rfl⟩ := List.exists_cons_of_ne_nil hne
      cases s with
      | index i => cases hw
      | name k =>
        obtain ⟨v, hv, hq⟩ := Option.bind_eq_some_iff.mp hw
        exact ⟨k, v, q, mem_of_lookup hv, rfl, Option.isSome_iff_exists.mpr ⟨w, hq⟩⟩
  | nil | bool _ | int _ | float _ | str _ =>
    cases p with
    | nil => simp [pathsIn]
    | cons s q => cases s <;> simp [pathsIn, valueAt]
  | _ => exact hv.elim

theorem mem_memberPaths (m : List (String × VmValue)) (hm : JsonEntries m) {p : List Step} :
    p ∈ memberPaths m ↔
      ∃ k v q, (k, v) ∈ m ∧ p = .name k :: q ∧ (valueAt q v).isSome = true := by
  rcases m with _ | ⟨⟨k, v⟩, es⟩
  · simp [memberPaths]
  · have hrest := @mem_memberPaths es hm.2 p
    have hbelow : ∀ q, q = [] ∨ q ∈ pathsIn v ↔ (valueAt q v).isSome = true := by
      intro q
      rw [mem_pathsIn v hm.1]
      cases q with
      | nil => simp [valueAt]
      | cons s q => simp
    rw [memberPaths, List.mem_append, mem_under, hrest]
    simp only [hbelow, List.mem_cons, Prod.mk.injEq]
    constructor
    · rintro (⟨q, rfl, hq⟩ | ⟨k', v', q, hmem, rfl, hq⟩)
      · exact ⟨k, v, q, .inl ⟨rfl, rfl⟩, rfl, hq⟩
      · exact ⟨k', v', q, .inr hmem, rfl, hq⟩
    · rintro ⟨k', v', q, ⟨rfl, rfl⟩ | hmem, rfl, hq⟩
      · exact .inl ⟨q, rfl, hq⟩
      · exact .inr ⟨k', v', q, hmem, rfl, hq⟩

theorem mem_itemPaths (lst : List VmValue) (hlst : JsonItems lst) {i : Int} {p : List Step} :
    p ∈ itemPaths i lst ↔
      ∃ (n : Nat) (v : VmValue) (q : List Step), lst[n]? = some v ∧ p = .index (i + n) :: q ∧
        (valueAt q v).isSome = true := by
  cases lst with
  | nil => simp [itemPaths]
  | cons v vs =>
    have hrest := @mem_itemPaths vs hlst.2 (i + 1) p
    have hbelow : ∀ q, q = [] ∨ q ∈ pathsIn v ↔ (valueAt q v).isSome = true := by
      intro q
      rw [mem_pathsIn v hlst.1]
      cases q with
      | nil => simp [valueAt]
      | cons s q => simp
    rw [itemPaths, List.mem_append, mem_under, hrest]
    simp only [hbelow]
    constructor
    · rintro (⟨q, rfl, hq⟩ | ⟨n, v', q, hn, rfl, hq⟩)
      · exact ⟨0, v, q, rfl, by simp, hq⟩
      · refine ⟨n + 1, v', q, hn, ?_, hq⟩
        congr 2
        omega
    · rintro ⟨n, v', q, hn, rfl, hq⟩
      cases n with
      | zero =>
        cases hn
        exact .inl ⟨q, by simp, hq⟩
      | succ n =>
        refine .inr ⟨n, v', q, hn, ?_, hq⟩
        congr 2
        omega

end

mutual

/-- Each path is listed once. -/
theorem nodup_pathsIn (v : VmValue) (hv : JsonValue v) : (pathsIn v).Nodup := by
  cases v with
  | list lst =>
    rw [pathsIn]
    exact nodup_itemPaths lst hv 0
  | map m =>
    rw [pathsIn]
    exact nodup_memberPaths m hv.1 hv.2
  | nil | bool _ | int _ | float _ | str _ =>
    simp only [pathsIn]
    exact List.nodup_nil
  | _ => exact hv.elim

theorem nodup_memberPaths (m : List (String × VmValue))
    (hsorted : (m.map Prod.fst).Pairwise (· < ·)) (hm : JsonEntries m) : (memberPaths m).Nodup := by
  rcases m with _ | ⟨⟨k, v⟩, es⟩
  · rw [memberPaths]
    exact List.nodup_nil
  · rw [List.map_cons, List.pairwise_cons] at hsorted
    have hnil : [] ∉ pathsIn v := fun h => ((mem_pathsIn v hm.1).mp h).1 rfl
    rw [memberPaths, List.nodup_append]
    refine ⟨nodup_under (nodup_pathsIn v hm.1) hnil, nodup_memberPaths es hsorted.2 hm.2, ?_⟩
    intro p hp q hq heq
    subst heq
    obtain ⟨rest, rfl, -⟩ := mem_under.mp hp
    obtain ⟨k', v', q, hmem, heq, -⟩ := (mem_memberPaths es hm.2).mp hq
    cases heq
    exact String.lt_irrefl k (hsorted.1 k (List.mem_map.mpr ⟨_, hmem, rfl⟩))

theorem nodup_itemPaths (lst : List VmValue) (hlst : JsonItems lst) (i : Int) :
    (itemPaths i lst).Nodup := by
  cases lst with
  | nil =>
    rw [itemPaths]
    exact List.nodup_nil
  | cons v vs =>
    have hnil : [] ∉ pathsIn v := fun h => ((mem_pathsIn v hlst.1).mp h).1 rfl
    rw [itemPaths, List.nodup_append]
    refine ⟨nodup_under (nodup_pathsIn v hlst.1) hnil, nodup_itemPaths vs hlst.2 (i + 1), ?_⟩
    intro p hp q hq heq
    subst heq
    obtain ⟨rest, rfl, -⟩ := mem_under.mp hp
    obtain ⟨n, v', q, -, heq, -⟩ := (mem_itemPaths vs hlst.2).mp hq
    injection heq with heq
    injection heq
    omega

end

/-- The paths are listed, each once. -/
def Listed (H : Host) (j : VmValue) : Prop :=
  ∃ ps, biPaths H j = .ok ps ∧ ps.Nodup ∧
    ∀ p, p ∈ ps ↔ p ≠ [] ∧ (valueAt p j).isSome = true

/-- The paths are listed, where clauses are compiled just if no nil occurs. -/
theorem listed_iff {H : Host} {j : VmValue} (hj : JsonValue j) :
    Listed H j ↔ (H.contracts = true → NoNil j) := by
  have hreturns : Returns (biPaths H j) (H.contracts = true → NoNil j) (pathsIn j) := by
    have hpaths := biPathsImpl_returns (H := H) j hj []
    simp only [List.nil_append, List.map_id'] at hpaths
    apply (valid_returns j).seq hpaths
    rw [and_iff_right_iff_imp]
    intro hnil hc
    have := hnil hc
    cases j with
    | nil => exact this.elim
    | bool _ | int _ | float _ | str _ | list _ | map _ => simp [typeOf]
    | _ => exact hj.elim
  constructor
  · rintro ⟨ps, hps, -⟩
    exact ((hreturns ps).mp hps).1
  · intro h
    exact ⟨pathsIn j, hreturns.eq_ok h, nodup_pathsIn j hj, fun p => mem_pathsIn j hj⟩

end Listed

/-! ## Entries -/

section Entries

variable {H : Host}

theorem addEntry_returns (acc : List (String × VmValue)) (k : String) (v : VmValue) :
    Returns (addEntry H acc (.map [("key", .str k), ("value", v)]))
      (H.contracts = true → typeOf v ≠ "nil") (mapSet acc k v) := by
  have hname : Returns (mapGetOr H [("key", .str k), ("value", v)] "name" (.str "")) True
      (.str "") :=
    (mapGetOr_returns (.str "")).congr (iff_true_intro fun _ => by simp [typeOf, List.lookup_cons])
  have hkey : Returns (mapGetOr H [("key", .str k), ("value", v)] "key" (.str "")) True
      (.str k) :=
    (mapGetOr_returns (.str "")).congr (iff_true_intro fun _ => by simp [typeOf])
  have hvalue : Returns (mapGetOr H [("key", .str k), ("value", v)] "value" .nil)
      (H.contracts = true → typeOf v ≠ "nil") v := mapGetOr_returns .nil
  have htext : String.ofList
      (Value.strVariadic (fun bits => (H.floatToString bits).toList) [.str k]) = k := by
    simp [Value.strVariadic]
  rw [addEntry]
  apply hname.seq
  · apply hkey.bind
    apply hvalue.bind
    dsimp only
    rw [htext]
    exact Returns.pure _
  · simp only [true_and, and_true]

theorem addEntries_returns (es acc : List (String × VmValue)) :
    Returns ((es.map fun e => Value.map [("key", .str e.1), ("value", e.2)]).foldlM
        (addEntry H) acc)
      (H.contracts = true → ∀ e ∈ es, typeOf e.2 ≠ "nil")
      (es.foldl (fun m e => mapSet m e.1 e.2) acc) := by
  induction es generalizing acc with
  | nil => exact (Returns.pure acc).congr (by simp)
  | cons e es ih =>
    rw [List.map_cons, List.foldlM_cons, List.foldl_cons]
    apply (addEntry_returns acc e.1 e.2).seq (ih _)
    simp only [List.forall_mem_cons]
    tauto

/-- Entries come back, where clauses are compiled just if no value is nil. -/
theorem entries_iff {m : List (String × VmValue)} (hm : (m.map Prod.fst).Pairwise (· < ·)) :
    biToEntries H (.map m) >>= biFromEntries H = .ok (.map m) ↔
      (H.contracts = true → ∀ e ∈ m, typeOf e.2 ≠ "nil") := by
  have hto : Returns (biToEntries H (.map m)) True
      (.list (m.map fun e => .map [("key", .str e.1), ("value", e.2)])) := by
    rw [biToEntries]
    apply (valid_returns _).seq
    · exact Returns.pure _
    · simp [typeOf]
  have hfrom : Returns
      (biFromEntries H (.list (m.map fun e => .map [("key", .str e.1), ("value", e.2)])))
      (H.contracts = true → ∀ e ∈ m, typeOf e.2 ≠ "nil") (.map m) := by
    have hfold := (@addEntries_returns H m []).map Value.map
    rw [show m.foldl (fun m e => mapSet m e.1 e.2) [] = m from setAll_sorted [] m hm] at hfold
    rw [biFromEntries]
    apply (valid_returns _).seq
    · exact hfold
    · simp [typeOf]
  rw [(hto.bind hfrom).iff_ok, true_and]

end Entries

/-! ## The laws -/

/-- The paths are listed, a path is a lens, and the entries of a map make the map, exactly where no
clause is violated and `setpath` does not come to a list or to a key that reads as an integer. -/
theorem paths_lens_iff (H : Host) (j : VmValue) (hj : JsonValue j) :
    (Listed H j ↔ (H.contracts = true → NoNil j)) ∧
      (∀ p v w, p ≠ [] → valueAt p j = some w →
        (Lens H j p v ↔ (H.contracts = true → typeOf w ≠ "nil" ∧ typeOf v ≠ "nil") ∧
          (MapsAbove p j ∧ NoNumerals p ∨ v = w))) ∧
      ∀ m, j = .map m → (biToEntries H j >>= biFromEntries H = .ok j ↔
        (H.contracts = true → ∀ e ∈ m, typeOf e.2 ≠ "nil")) := by
  refine ⟨listed_iff hj, fun p v w _ hw => lens_iff hj hw, ?_⟩
  rintro m rfl
  exact entries_iff hj.1

/-- The text of an integer begins with a digit or a minus. -/
theorem toString_ne {k : String} {c : Char} (hc : k.toList.head? = some c)
    (hdigit : c.isDigit = false) (hminus : c ≠ '-') (i : Int) : toString i ≠ k := by
  rintro rfl
  cases i with
  | ofNat n =>
    rw [show toString (Int.ofNat n) = n.repr from rfl, Nat.repr_eq_ofList_toDigits,
      String.toList_ofList] at hc
    have htrue := isDigit_toDigits n c (List.mem_of_mem_head? hc)
    rw [hdigit] at htrue
    cases htrue
  | negSucc n =>
    rw [show toString (Int.negSucc n) = "-" ++ (n + 1).repr from rfl, String.toList_append] at hc
    exact hminus (Option.some.inj hc).symm

theorem paths_lens_iff_nested :
    Listed vmHost (.map [("a", .map [("b", .int 1)]), ("c", .list [.int 2])]) ∧
      Lens vmHost (.map [("a", .map [("b", .int 1)]), ("c", .list [.int 2])])
        [.name "a", .name "b"] (.str "x") := by
  have hjson : JsonValue (.map [("a", .map [("b", .int 1)]), ("c", .list [.int 2])]) := by
    have houter : ["a", "c"].Pairwise (· < ·) := by decide
    have hinner : ["b"].Pairwise (· < ·) := by decide
    exact ⟨houter, ⟨hinner, trivial, trivial⟩, ⟨trivial, trivial⟩, trivial⟩
  obtain ⟨hlisted, hlens, -⟩ := paths_lens_iff vmHost _ hjson
  refine ⟨hlisted.mpr fun _ => ?_, ?_⟩
  · simp [NoNil, NoNilEntries, NoNilItems]
  · apply (hlens [.name "a", .name "b"] (.str "x") (.int 1) (List.cons_ne_nil _ _) rfl).mpr
    refine ⟨fun _ => by simp [typeOf], .inl ⟨⟨_, rfl, _, rfl, trivial⟩, fun k hk => ?_⟩⟩
    rcases List.mem_cons.mp hk with heq | hk
    · cases heq
      exact toString_ne (c := 'a') rfl rfl (by decide)
    · cases List.mem_singleton.mp hk
      exact toString_ne (c := 'b') rfl rfl (by decide)

/-- `setpath` leaves an element of a list as it is, a key that reads as an integer is seen under
that integer, and the clauses refuse null members. -/
theorem setpath_passes_lists :
    ¬ Lens vmHost (.list [.int 1]) [.index 0] (.int 9) ∧
      ¬ Lens vmHost (.map [("3", .int 1)]) [.name "3"] (.int 9) ∧
      let checked : Host := { vmHost with contracts := true }
      ¬ Listed checked (.map [("a", .nil)]) ∧
        biToEntries checked (.map [("a", .nil)]) >>= biFromEntries checked ≠
          .ok (.map [("a", .nil)]) := by
  have hlist : JsonValue (.list [.int 1]) := ⟨trivial, trivial⟩
  have hone : ∀ k (v : VmValue), JsonValue v → JsonValue (.map [(k, v)]) :=
    fun k v hv => ⟨List.pairwise_singleton _ _, hv, trivial⟩
  refine ⟨fun h => ?_, fun h => ?_, fun h => ?_, fun h => ?_⟩
  · rcases ((lens_iff hlist (w := .int 1) rfl).mp h).2 with ⟨habove, -⟩ | heq
    · exact habove
    · cases heq
  · rcases ((lens_iff (hone "3" (.int 1) trivial) (w := .int 1) rfl).mp h).2 with ⟨-, hnames⟩ | heq
    · exact hnames "3" List.mem_cons_self 3 rfl
    · cases heq
  · exact ((listed_iff (hone "a" .nil trivial)).mp h rfl).1
  · exact (entries_iff (List.pairwise_singleton _ _)).mp h rfl ("a", .nil) List.mem_cons_self rfl

end Airl.Airq
