import Mathlib.Data.String.Basic
import Airl.Library.CallStack
import Airl.Stdlib.Prelude

/-! # Maps and sets in the standard library

The map builtins of `map.rs` on a hash map that hands out its entries in any order, the functions
of `map.airl` that are loops over them, and the sets of `set.airl`, which are maps to `true`. A call
of a library function takes a frame of the machine's stack, and a self call that is the last thing a
body does takes none; compiled code counts no frames.
-/

namespace Airl.Stdlib

abbrev Run := Except Fault

/-- How a hash map rearranges itself when a key is added. -/
structure Hasher where
  arrange : List (String × RtValue) → List (String × RtValue)
  perm : ∀ entries, (arrange entries).Perm entries

/-- `HashMap<String, *mut RtValue>`, the entries as iteration hands them out. -/
structure HashMap where
  entries : List (String × RtValue)
  nodup : (entries.map Prod.fst).Nodup

theorem lookup_eq_some_iff_mem {l : List (String × RtValue)} (h : (l.map Prod.fst).Nodup)
    {k : String} {v : RtValue} : l.lookup k = some v ↔ (k, v) ∈ l := by
  induction l with
  | nil => simp
  | cons e rest ih =>
    obtain ⟨k', v'⟩ := e
    rw [List.map_cons, List.nodup_cons] at h
    rw [List.lookup_cons]
    by_cases hk : k = k'
    · subst hk
      -- no later entry has this key
      have hlater : (k, v) ∉ rest := fun hmem => h.1 (List.mem_map.mpr ⟨_, hmem, rfl⟩)
      simp [hlater, eq_comm]
    · rw [beq_eq_false_iff_ne.mpr hk]
      simp [ih h.2, hk]

namespace HashMap

def empty : HashMap := ⟨[], List.nodup_nil⟩

def get (m : HashMap) (k : String) : Option RtValue := m.entries.lookup k

def containsKey (m : HashMap) (k : String) : Bool := (m.get k).isSome

/-- The entries with the value of `k` replaced. -/
def replaced (m : HashMap) (k : String) (v : RtValue) : List (String × RtValue) :=
  m.entries.map fun e => if e.1 = k then (k, v) else e

theorem keys_replaced (m : HashMap) (k : String) (v : RtValue) :
    (m.replaced k v).map Prod.fst = m.entries.map Prod.fst := by
  rw [replaced, List.map_map]
  apply List.map_congr_left
  intro e _
  rw [Function.comp]
  split
  · next h => exact h.symm
  · rfl

theorem get_eq_some_iff {m : HashMap} {k : String} {v : RtValue} :
    m.get k = some v ↔ (k, v) ∈ m.entries := lookup_eq_some_iff_mem m.nodup

theorem containsKey_iff {m : HashMap} {k : String} :
    m.containsKey k = true ↔ k ∈ m.entries.map Prod.fst := by
  rw [containsKey, Option.isSome_iff_exists, List.mem_map]
  constructor
  · intro h
    obtain ⟨v, hv⟩ := h
    exact ⟨(k, v), get_eq_some_iff.mp hv, rfl⟩
  · intro h
    obtain ⟨e, he, rfl⟩ := h
    exact ⟨e.2, get_eq_some_iff.mpr he⟩

theorem nodup_arrange (H : Hasher) {m : HashMap} {k : String} {v : RtValue}
    (h : ¬ m.containsKey k = true) :
    ((H.arrange (m.entries ++ [(k, v)])).map Prod.fst).Nodup := by
  have hperm : ((m.entries ++ [(k, v)]).map Prod.fst).Perm (k :: m.entries.map Prod.fst) := by
    rw [List.map_append]
    exact List.perm_append_singleton k _
  rw [((H.perm _).map Prod.fst).nodup_iff, hperm.nodup_iff, List.nodup_cons]
  exact ⟨fun hmem => h (containsKey_iff.mpr hmem), m.nodup⟩

def insert (H : Hasher) (m : HashMap) (k : String) (v : RtValue) : HashMap :=
  if h : m.containsKey k then ⟨m.replaced k v, keys_replaced m k v ▸ m.nodup⟩
  else ⟨H.arrange (m.entries ++ [(k, v)]), nodup_arrange H h⟩

end HashMap

/-- A list by index. -/
def listAt {α : Type} (xs : List α) (i : Nat) : Run α :=
  match xs[i]? with
  | some x => .ok x
  | none => .error .exit

/-- The key of a map operation, which has to be a text. -/
def keyStr : RtValue → Run String
  | .str s => .ok s
  | _ => .error .exit

def airlMapNew : HashMap := HashMap.empty

def airlMapGet (m : HashMap) (key : RtValue) : Run RtValue := do
  return (m.get (← keyStr key)).getD .nil

def airlMapHas (m : HashMap) (key : RtValue) : Run Bool := do
  return m.containsKey (← keyStr key)

/-- The map is always copied entry by entry. -/
def airlMapSet (H : Hasher) (m : HashMap) (key val : RtValue) : Run HashMap := do
  let k ← keyStr key
  let newMap := m.entries.foldl (fun new e => new.insert H e.1 e.2) HashMap.empty
  return newMap.insert H k val

def airlMapRemove (H : Hasher) (m : HashMap) (key : RtValue) : Run HashMap := do
  let k ← keyStr key
  return m.entries.foldl (fun new e => if e.1 = k then new else new.insert H e.1 e.2)
    HashMap.empty

/-- `keys.sort_unstable()`; the keys differ, so there is one sorted list. -/
def sortedKeys (m : HashMap) : List String :=
  (m.entries.map Prod.fst).mergeSort fun a b => decide (a ≤ b)

def airlMapKeys (m : HashMap) : List RtValue := (sortedKeys m).map .str

/-- A loop over the indices from `i` to `len`. -/
def indexLoop {α β : Type} (step : β → α → Run β) (xs : List α) (i len : Nat) (acc : β) :
    Run β :=
  if len ≤ i then return acc
  else do
    let x ← listAt xs i
    indexLoop step xs (i + 1) len (← step acc x)
termination_by len - i

/-- `concat` of `prelude.airl`: a frame for each element of `xs`, and one more. -/
def concatOn {α : Type} : Stack Fault → List α → List α → Run (List α)
  | stack, [], ys => stack.enter fun _ => return ys
  | stack, x :: xs, ys => stack.enter fun stack => do return x :: (← concatOn stack xs ys)

def mapValuesLoop (stack : Stack Fault) (m : HashMap) :
    List RtValue → Nat → Nat → List RtValue → Run (List RtValue) :=
  indexLoop fun acc k => do concatOn stack acc [← airlMapGet m k]

def mapValues (stack : Stack Fault) (m : HashMap) : Run (List RtValue) :=
  stack.enter fun stack =>
    stack.enter fun stack => mapValuesLoop stack m (airlMapKeys m) 0 (airlMapKeys m).length []

def mapSize (stack : Stack Fault) (m : HashMap) : Run Nat :=
  stack.enter fun _ => return (airlMapKeys m).length

def mapGetOr (stack : Stack Fault) (m : HashMap) (key default : RtValue) : Run RtValue :=
  stack.enter fun _ => do
    if ← airlMapHas m key then airlMapGet m key else return default

def mapFromPairsLoop (H : Hasher) (lst : List RtValue) (i len : Nat) (acc : HashMap) :
    Run HashMap :=
  if len ≤ i then return acc
  else do
    let key ← listAt lst i
    let val ← listAt lst (i + 1)
    mapFromPairsLoop H lst (i + 2) len (← airlMapSet H acc key val)
termination_by len - i

def mapFrom (H : Hasher) (stack : Stack Fault) (lst : List RtValue) : Run HashMap :=
  stack.enter fun stack => stack.enter fun _ => mapFromPairsLoop H lst 0 lst.length airlMapNew

def mapEntriesLoop (stack : Stack Fault) (m : HashMap) :
    List RtValue → Nat → Nat → List RtValue → Run (List RtValue) :=
  indexLoop fun acc k => do concatOn stack acc [.list [k, ← airlMapGet m k]]

def mapEntries (stack : Stack Fault) (m : HashMap) : Run (List RtValue) :=
  stack.enter fun stack =>
    stack.enter fun stack => mapEntriesLoop stack m (airlMapKeys m) 0 (airlMapKeys m).length []

/-- `(head pair)` and `(at pair 1)`. -/
def pairOf : RtValue → Run (RtValue × RtValue)
  | .list items => do return (← listAt items 0, ← listAt items 1)
  | _ => .error .exit

def mapFromEntriesLoop (H : Hasher) : List RtValue → Nat → Nat → HashMap → Run HashMap :=
  indexLoop fun acc pair => do
    let (key, val) ← pairOf pair
    airlMapSet H acc key val

def mapMerge (H : Hasher) (stack : Stack Fault) (m₁ m₂ : HashMap) : Run HashMap :=
  stack.enter fun stack => do
    let entries ← mapEntries stack m₂
    let size ← mapSize stack m₂
    stack.enter fun _ => mapFromEntriesLoop H entries 0 size m₁

/-- A closure gets the stack that is left for its call. -/
def mapMapValuesLoop (H : Hasher) (stack : Stack Fault)
    (transform : Stack Fault → RtValue → Run RtValue) :
    List RtValue → Nat → Nat → HashMap → Run HashMap :=
  indexLoop fun acc pair => do
    let (key, val) ← pairOf pair
    airlMapSet H acc key (← transform stack val)

def mapMapValues (H : Hasher) (stack : Stack Fault)
    (transform : Stack Fault → RtValue → Run RtValue) (m : HashMap) : Run HashMap :=
  stack.enter fun stack => do
    let entries ← mapEntries stack m
    stack.enter fun stack =>
      mapMapValuesLoop H stack transform entries 0 entries.length airlMapNew

def mapUpdate (H : Hasher) (stack : Stack Fault) (m : HashMap) (key : RtValue)
    (updater : Stack Fault → RtValue → Run RtValue) : Run HashMap :=
  stack.enter fun stack => do
    if ← airlMapHas m key then airlMapSet H m key (← updater stack (← airlMapGet m key))
    else return m

/-- `fold` of `prelude.airl` on a lambda without calls of its own. -/
def foldLambda {α β : Type} (stack : Stack Fault) (f : β → α → Run β) (init : β) (xs : List α) :
    Run β :=
  stack.enter fun stack => fold (fun acc x => stack.enter fun _ => f acc x) init xs

def setFrom (H : Hasher) (stack : Stack Fault) (xs : List RtValue) : Run HashMap :=
  stack.enter fun stack => foldLambda stack (fun s x => airlMapSet H s x (.bool true)) airlMapNew xs

def setAdd (H : Hasher) (stack : Stack Fault) (s : HashMap) (x : RtValue) : Run HashMap :=
  stack.enter fun _ => airlMapSet H s x (.bool true)

def setRemove (H : Hasher) (stack : Stack Fault) (s : HashMap) (x : RtValue) : Run HashMap :=
  stack.enter fun _ => airlMapRemove H s x

def setUnion (H : Hasher) (stack : Stack Fault) (a b : HashMap) : Run HashMap :=
  stack.enter fun stack =>
    foldLambda stack (fun s x => airlMapSet H s x (.bool true)) a (airlMapKeys b)

def setIntersection (H : Hasher) (stack : Stack Fault) (a b : HashMap) : Run HashMap :=
  stack.enter fun stack =>
    foldLambda stack
      (fun s x => do if ← airlMapHas b x then airlMapSet H s x (.bool true) else return s)
      airlMapNew (airlMapKeys a)

def setDifference (H : Hasher) (stack : Stack Fault) (a b : HashMap) : Run HashMap :=
  stack.enter fun stack =>
    foldLambda stack
      (fun s x => do if ← airlMapHas b x then return s else airlMapSet H s x (.bool true))
      airlMapNew (airlMapKeys a)

def setSubset (stack : Stack Fault) (a b : HashMap) : Run Bool :=
  stack.enter fun stack =>
    stack.enter fun stack => all id (fun x => stack.enter fun _ => airlMapHas b x) (airlMapKeys a)

def setEqual (stack : Stack Fault) (a b : HashMap) : Run Bool :=
  stack.enter fun stack => do
    let sizeA ← mapSize stack a
    let sizeB ← mapSize stack b
    let contained ← setSubset stack a b
    return sizeA == sizeB && contained

end Airl.Stdlib
