import Airl.Types.Ty
import Airl.Runtime.Pattern

/-! # Exhaustiveness

`exhaustiveness.rs`, against the matching of the runtime. The check asks for the names of all
variants and looks at no sub-pattern; which values the arms match is decided by the sub-patterns,
variant by variant and field by field. `coversVariants` decides it by splitting the arms by their
heads, as far down as the patterns reach.
-/

namespace Airl

/-- A wildcard or a binder. -/
def isCatchAll : PatternKind → Bool
  | .wildcard => true
  | .binding _ => true
  | _ => false

def variantName : PatternKind → Option String
  | .variant name _ => some name
  | _ => none

def isBoolLit (b : Bool) : PatternKind → Bool
  | .literal (.bool c) => c == b
  | _ => false

/-- `Err` with what is missing. -/
def orMissing (missing : List String) : Except (List String) Unit :=
  if missing.isEmpty then .ok () else .error missing

def checkBoolExhaustiveness (arms : List PatternKind) : Except (List String) Unit :=
  if arms.any isCatchAll then .ok ()
  else
    let missing := if arms.any (isBoolLit true) then [] else ["true"]
    orMissing (missing ++ if arms.any (isBoolLit false) then [] else ["false"])

def checkSumExhaustiveness (variants : List TyVariant) (arms : List PatternKind) :
    Except (List String) Unit :=
  if arms.any isCatchAll then .ok ()
  else
    let covered := arms.filterMap variantName
    orMissing ((variants.map TyVariant.name).filter fun name => name ∉ covered)

def checkExhaustiveness (scrutineeTy : Ty) (arms : List PatternKind) :
    Except (List String) Unit :=
  if arms.any isCatchAll then .ok ()
  else
    match scrutineeTy with
    | .prim .bool => checkBoolExhaustiveness arms
    | .sum variants => checkSumExhaustiveness variants arms
    | _ => .error ["non-exhaustive patterns: `_` not covered"]

variable {Code : Type}

/-- The bounds of an integer type, as far as the runtime's integers reach. -/
def PrimTy.holdsInt (n : Int64) : PrimTy → Prop
  | .i8 => -128 ≤ n.toInt ∧ n.toInt ≤ 127
  | .i16 => -32768 ≤ n.toInt ∧ n.toInt ≤ 32767
  | .i32 => -2147483648 ≤ n.toInt ∧ n.toInt ≤ 2147483647
  | .i64 => True
  | .u8 => 0 ≤ n.toInt ∧ n.toInt ≤ 255
  | .u16 => 0 ≤ n.toInt ∧ n.toInt ≤ 65535
  | .u32 => 0 ≤ n.toInt ∧ n.toInt ≤ 4294967295
  | .u64 => 0 ≤ n.toInt
  | .nat => 0 ≤ n.toInt
  | _ => False

def PrimTy.holds : PrimTy → Value Code → Prop
  | .bool, .bool _ => True
  | .str, .str _ => True
  | .f16, .float _ => True
  | .f32, .float _ => True
  | .f64, .float _ => True
  | .bf16, .float _ => True
  | p, .int n => p.holdsInt n
  | _, _ => False

/-- A value that patterns do not look into. -/
def Value.Whole : Value Code → Prop
  | .variant _ _ => False
  | .tuple _ => False
  | _ => True

/-- How the types are read that are neither sums nor primitive: the variants that such a type stands
for, as `Result[i32, E]` does, and its other values. -/
structure Reading (Code : Type) where
  others : Ty → Value Code → Prop
  variants : Ty → List TyVariant
  whole : ∀ t v, others t v → v.Whole

namespace Reading

variable (reading : Reading Code)

/-- The values of a type that are no variants. -/
def holds : Ty → Value Code → Prop
  | .prim p, v => p.holds v
  | .unit, v => v = .unit ∨ v = .nil
  | .never, _ => False
  | .sum _, _ => False
  | t, v => reading.others t v

def variantsOf : Ty → List TyVariant
  | .sum variants => variants
  | .prim _ => []
  | .unit => []
  | .never => []
  | t => reading.variants t

theorem whole_of_holds {t : Ty} {v : Value Code} (h : reading.holds t v) : v.Whole := by
  cases t with
  | prim p => cases v <;> first | trivial | cases p <;> exact h.elim
  | unit => rcases h with rfl | rfl <;> trivial
  | never => exact h.elim
  | sum variants => exact h.elim
  | _ => exact reading.whole _ _ h

end Reading

mutual

/-- The value is of the type. -/
inductive HasType (reading : Reading Code) : Value Code → Ty → Prop where
  | plain {v : Value Code} {t : Ty} (h : reading.holds t v) : HasType reading v t
  | variant {t : Ty} {variant : TyVariant} {inner : Value Code}
      (hmem : variant ∈ reading.variantsOf t) (h : Holds reading inner variant.fields) :
      HasType reading (.variant variant.name inner) t

/-- What a variant with these fields holds. -/
inductive Holds (reading : Reading Code) : Value Code → List Ty → Prop where
  | none : Holds reading .unit []
  | one {v : Value Code} {t : Ty} (h : HasType reading v t) : Holds reading v [t]
  | many {items : List (Value Code)} {t u : Ty} {ts : List Ty}
      (h : HaveTypes reading items (t :: u :: ts)) : Holds reading (.tuple items) (t :: u :: ts)

inductive HaveTypes (reading : Reading Code) : List (Value Code) → List Ty → Prop where
  | nil : HaveTypes reading [] []
  | cons {v : Value Code} {vs : List (Value Code)} {t : Ty} {ts : List Ty}
      (h : HasType reading v t) (hs : HaveTypes reading vs ts) :
      HaveTypes reading (v :: vs) (t :: ts)

end

mutual

/-- How far variants nest in the pattern. -/
def patternDepth : Pattern → Nat
  | ⟨.variant _ subPatterns, _⟩ => patternsDepth subPatterns + 1
  | _ => 0

def patternsDepth : List Pattern → Nat
  | [] => 0
  | p :: ps => max (patternDepth p) (patternsDepth ps)

end

/-- A pattern for what a variant holds: any, or sub-patterns. -/
abbrev Payload := Option (List Pattern)

def wildcard : Pattern := ⟨.wildcard, .dummy⟩

/-- What is left of a row when its first part has been looked at; nothing if that does not
match. -/
def keep {A R : Type} (p : A → Bool) (rows : List (A × R)) : List R :=
  rows.filterMap fun row => if p row.1 then some row.2 else none

/-- The first parts taken apart; rows whose first part does not fit are dropped. -/
def takeApart {A B R : Type} (f : A → Option B) (rows : List (A × R)) : List (B × R) :=
  rows.filterMap fun row => (f row.1).map fun b => (b, row.2)

/-- The rows for values of the variant. -/
def ofVariant (name : String) (p : Pattern) : Option Payload :=
  match p.kind with
  | .wildcard => some none
  | .binding _ => some none
  | .variant n subPatterns => if n = name then some (some subPatterns) else none
  | .literal _ => none

/-- The sub-patterns that a variant without fields fits. -/
def takesUnit : Payload → Bool
  | none => true
  | some [] => true
  | some [p] => isCatchAll p.kind
  | some _ => false

/-- The only field of a variant, for values other than the unit value. -/
def single : Payload → Option Pattern
  | none => some wildcard
  | some [p] => some p
  | some _ => none

/-- The fields of a variant that holds a tuple of `n`. -/
def spread (n : Nat) : Payload → Option (List Pattern)
  | none => some (List.replicate n wildcard)
  | some [p] => if isCatchAll p.kind then some (List.replicate n wildcard) else none
  | some ps => if ps.length = n then some ps else none

def splitFirst {R : Type} : List Pattern × R → Option (Pattern × (List Pattern × R))
  | (p :: ps, r) => some (p, ps, r)
  | ([], _) => none

def LitPattern.value : LitPattern → Value Code
  | .int v => .int v
  | .float bits => .float bits
  | .str s => .str s
  | .bool b => .bool b
  | .nil => .nil

def literalOf (p : Pattern) : Option LitPattern :=
  match p.kind with
  | .literal lit => some lit
  | _ => none

def literals {R : Type} (rows : List (Pattern × R)) : List LitPattern :=
  rows.filterMap fun row => literalOf row.1

def namesLiteral (lit : LitPattern) (p : Pattern) : Bool :=
  isCatchAll p.kind || decide (literalOf p = some lit)

def catchesAll (p : Pattern) : Bool := isCatchAll p.kind

/-- Values that are not looked into: those that the rows name, and any other. -/
def coversWhole (values : Value Code → Prop) {R : Type} (rows : List (Pattern × R))
    (k : List R → Prop) : Prop :=
  (∀ lit ∈ literals rows, values lit.value → k (keep (namesLiteral lit) rows)) ∧
    ((∃ v, values v ∧ ∀ lit ∈ literals rows, v ≠ lit.value) → k (keep catchesAll rows))

/-- Whatever value of the type stands in front, the rows it leaves are as asked. -/
abbrev Split := Ty → {R : Type} → List (Pattern × R) → (List R → Prop) → Prop

section Splitting

variable (reading : Reading Code)

/-- All values of the type, where `below` looks after its variants. -/
def coversTy (below : Split) (t : Ty) {R : Type} (rows : List (Pattern × R))
    (k : List R → Prop) : Prop :=
  coversWhole (reading.holds t) rows k ∧ below t rows k

def coversFields (below : Split) :
    List Ty → {R : Type} → List (List Pattern × R) → (List R → Prop) → Prop
  | [], _, rows, k => k (keep List.isEmpty rows)
  | t :: ts, _, rows, k =>
    coversTy reading below t (rows.filterMap splitFirst) fun rows => coversFields below ts rows k

/-- What a variant holds. `(Ok)` takes the unit value where `Ok` has a field. -/
def coversPayload (below : Split) {R : Type} (rows : List (Payload × R)) (k : List R → Prop) :
    List Ty → Prop
  | [] => k (keep takesUnit rows)
  | [t] =>
    (reading.holds t .unit → k (keep takesUnit rows)) ∧
      coversWhole (fun v => reading.holds t v ∧ v ≠ .unit) (takeApart single rows) k ∧
      below t (takeApart single rows) k
  | ts => coversFields reading below ts (takeApart (spread ts.length) rows) k

/-- The variants of the type, for patterns in which at most `n` variants nest. -/
def coversVariants : Nat → Split
  | 0, t, _, rows, k =>
    (∃ name inner, HasType reading (.variant name inner) t) → k (keep catchesAll rows)
  | n + 1, t, _, rows, k =>
    ∀ variant ∈ reading.variantsOf t,
      coversPayload reading (coversVariants n) (takeApart (ofVariant variant.name) rows) k
        variant.fields

end Splitting

section Rows

variable {A B R : Type}

theorem keep_takeApart {p : A → Bool} {q : B → Bool} {f : A → Option B}
    (h : ∀ a, p a = (f a).any q) (rows : List (A × R)) :
    keep p rows = keep q (takeApart f rows) := by
  induction rows with
  | nil => rfl
  | cons row rows ih =>
    obtain ⟨a, r⟩ := row
    unfold keep takeApart at ih ⊢
    rw [List.filterMap_cons, ih, List.filterMap_cons]
    dsimp only
    rw [h a]
    cases f a with
    | none => rfl
    | some b =>
      rw [Option.map_some, List.filterMap_cons]
      rfl

/-- Rows are kept by what they test alone. -/
theorem keep_congr {p q : A → Bool} {rows : List (A × R)}
    (h : ∀ row ∈ rows, p row.1 = q row.1) : keep p rows = keep q rows := by
  unfold keep
  apply List.filterMap_congr
  intro row hrow
  rw [h row hrow]

theorem mem_of_mem_keep {p : A → Bool} {rows : List (A × R)} {r : R} (h : r ∈ keep p rows) :
    ∃ row ∈ rows, row.2 = r := by
  unfold keep at h
  obtain ⟨row, hrow, hkept⟩ := List.mem_filterMap.mp h
  split at hkept
  next hp => exact ⟨row, hrow, Option.some.inj hkept⟩
  next hp => cases hkept

theorem mem_takeApart {f : A → Option B} {rows : List (A × R)} {row : B × R}
    (h : row ∈ takeApart f rows) : ∃ before ∈ rows, f before.1 = some row.1 := by
  unfold takeApart at h
  obtain ⟨before, hbefore, hmap⟩ := List.mem_filterMap.mp h
  obtain ⟨b, hb, rfl⟩ := Option.map_eq_some_iff.mp hmap
  exact ⟨before, hbefore, hb⟩

/-- The patterns match the values one after another. -/
def matchesAll (ps : List Pattern) (vs : List (Value Code)) : Bool :=
  ps.length == vs.length && (tryMatchAll ps vs).isSome

def payloadMatches (inner : Value Code) : Payload → Bool
  | none => true
  | some ps => (tryPayload ps inner).isSome

theorem prepend_isSome (first rest : Option (List (String × Value Code))) :
    (prepend first rest).isSome = (first.isSome && rest.isSome) := by
  cases first with
  | none => rfl
  | some bindings => simp [prepend]

/-- A list of values is matched one by one. -/
theorem matchesAll_cons (p : Pattern) (ps : List Pattern) (v : Value Code)
    (vs : List (Value Code)) :
    matchesAll (p :: ps) (v :: vs) = ((tryMatch p v).isSome && matchesAll ps vs) := by
  unfold matchesAll
  rw [tryMatchAll, prepend_isSome, Bool.and_left_comm]
  simp

/-- A first value takes the rows apart. -/
theorem keep_split (v : Value Code) (vs : List (Value Code)) (rows : List (List Pattern × R)) :
    keep (fun ps => matchesAll ps (v :: vs)) rows =
      keep (fun ps => matchesAll ps vs)
        (keep (fun p => (tryMatch p v).isSome) (rows.filterMap splitFirst)) := by
  induction rows with
  | nil => rfl
  | cons row rows ih =>
    obtain ⟨ps, r⟩ := row
    unfold keep at ih ⊢
    rw [List.filterMap_cons, ih, List.filterMap_cons]
    cases ps with
    | nil => rfl
    | cons p ps =>
      simp only [splitFirst, matchesAll_cons, List.filterMap_cons]
      cases (tryMatch p v).isSome <;> simp [List.filterMap_cons]

end Rows

theorem matchesAll_wildcards (vs : List (Value Code)) :
    matchesAll (List.replicate vs.length wildcard) vs = true := by
  induction vs with
  | nil => rfl
  | cons v vs ih =>
    rw [List.length_cons, List.replicate_succ, matchesAll_cons, ih]
    rfl

/-- A variant is matched by its constructor and its payload. -/
theorem tryMatch_variant (name : String) (inner : Value Code) (p : Pattern) :
    (tryMatch p (.variant name inner)).isSome =
      (ofVariant name p).any (payloadMatches inner) := by
  obtain ⟨kind, span⟩ := p
  cases kind with
  | wildcard => rfl
  | binding n => rfl
  | literal lit => cases lit <;> rfl
  | variant n subPatterns =>
    rw [tryMatch, ofVariant, Pattern.kind]
    dsimp only
    by_cases heq : n = name
    · rw [if_neg (not_not_intro heq.symm), if_pos heq]
      rfl
    · rw [if_pos (Ne.symm heq), if_neg heq]
      rfl

theorem payloadMatches_unit (payload : Payload) :
    payloadMatches (.unit : Value Code) payload = takesUnit payload := by
  match payload with
  | none => rfl
  | some [] => rfl
  | some [p] =>
    obtain ⟨kind, span⟩ := p
    cases kind with
    | literal lit => cases lit <;> rfl
    | _ => rfl
  | some (p :: q :: ps) => rfl

/-- A value that is neither the unit value nor a tuple, as the only field. -/
theorem payloadMatches_single {inner : Value Code} (hunit : inner ≠ .unit)
    (htuple : ∀ items, inner ≠ .tuple items) (payload : Payload) :
    payloadMatches inner payload = (single payload).any fun p => (tryMatch p inner).isSome := by
  match payload with
  | none => rfl
  | some [p] => rfl
  | some [] =>
    cases inner with
    | unit => exact absurd rfl hunit
    | _ => rfl
  | some (p :: q :: ps) =>
    cases inner with
    | tuple items => exact absurd rfl (htuple items)
    | _ => rfl

theorem tryMatch_tuple (items : List (Value Code)) (p : Pattern) :
    (tryMatch p (.tuple items)).isSome = isCatchAll p.kind := by
  obtain ⟨kind, span⟩ := p
  cases kind with
  | wildcard => rfl
  | binding n => rfl
  | literal lit => cases lit <;> rfl
  | variant n subPatterns => rfl

/-- A payload of several fields is matched field by field. -/
theorem payloadMatches_spread (items : List (Value Code)) (hmany : 2 ≤ items.length)
    (payload : Payload) :
    payloadMatches (.tuple items) payload =
      (spread items.length payload).any fun ps => matchesAll ps items := by
  match payload, items with
  | none, items => exact (matchesAll_wildcards items).symm
  | some [], v :: vs => rfl
  | some [p], items =>
    rw [payloadMatches, tryPayload, tryMatch_tuple, spread]
    split
    next hall => rw [hall, Option.any_some, matchesAll_wildcards]
    next hnot =>
      rw [Bool.not_eq_true] at hnot
      rw [hnot]
      rfl
  | some (p :: q :: ps), v :: vs =>
    have hspread : spread (v :: vs).length (some (p :: q :: ps)) =
        if (p :: q :: ps).length = (v :: vs).length then some (p :: q :: ps) else none := rfl
    have hpayload : tryPayload (p :: q :: ps) (.tuple (v :: vs)) =
        if (v :: vs).length ≠ (p :: q :: ps).length then none
        else tryMatchAll (p :: q :: ps) (v :: vs) := rfl
    rw [payloadMatches, hpayload, hspread]
    by_cases hlength : (v :: vs).length = (p :: q :: ps).length
    · rw [if_neg (not_not_intro hlength), if_pos hlength.symm, Option.any_some, matchesAll,
        hlength, beq_self_eq_true, Bool.true_and]
    · rw [if_pos hlength, if_neg (Ne.symm hlength)]
      rfl

/-- A literal pattern matches one value. -/
theorem tryMatch_literal (lit : LitPattern) (span : Span) (v : Value Code) :
    (tryMatch ⟨.literal lit, span⟩ v).isSome = true ↔ v = lit.value := by
  have hmatch : (tryMatch ⟨.literal lit, span⟩ v).isSome = litMatches lit v := by
    rw [tryMatch]
    cases litMatches lit v <;> rfl
  rw [hmatch]
  cases lit <;> cases v <;> simp [litMatches, LitPattern.value, eq_comm]

theorem literal_value_inj {a b : LitPattern} (h : (a.value : Value Code) = b.value) : a = b := by
  cases a <;> cases b <;> simp_all [LitPattern.value]

/-- A literal is matched by its own pattern or a catch-all. -/
theorem tryMatch_value (lit : LitPattern) (p : Pattern) :
    (tryMatch p (lit.value : Value Code)).isSome = namesLiteral lit p := by
  obtain ⟨kind, span⟩ := p
  cases kind with
  | wildcard => rfl
  | binding n => rfl
  | variant n subPatterns => cases lit <;> rfl
  | literal other =>
    rw [Bool.eq_iff_iff, tryMatch_literal]
    constructor
    · intro heq
      rw [literal_value_inj heq]
      simp [namesLiteral, literalOf, Pattern.kind]
    · intro hnames
      have hsame : some other = some lit := by
        simpa [namesLiteral, literalOf, Pattern.kind, isCatchAll] using hnames
      rw [Option.some.inj hsame]

/-- A value that no pattern names is for the patterns that match all. -/
theorem tryMatch_unnamed {p : Pattern} {v : Value Code} (hv : v.Whole)
    (hunnamed : ∀ lit, literalOf p = some lit → v ≠ lit.value) :
    (tryMatch p v).isSome = catchesAll p := by
  obtain ⟨kind, span⟩ := p
  cases kind with
  | wildcard => rfl
  | binding n => rfl
  | literal lit =>
    have hne : ¬ (tryMatch ⟨.literal lit, span⟩ v).isSome = true := by
      rw [tryMatch_literal]
      exact hunnamed lit rfl
    rw [Bool.not_eq_true] at hne
    rw [hne]
    rfl
  | variant n subPatterns =>
    cases v with
    | variant tag inner => exact hv.elim
    | _ => rfl

/-- The rows cover a kind of whole values just if `k` holds of the rows each value keeps. -/
theorem coversWhole_iff {values : Value Code → Prop} (hwhole : ∀ v, values v → v.Whole)
    {R : Type} (rows : List (Pattern × R)) (k : List R → Prop) :
    coversWhole values rows k ↔
      ∀ v, values v → k (keep (fun p => (tryMatch p v).isSome) rows) := by
  have hnamed : ∀ lit : LitPattern,
      keep (fun p => (tryMatch p (lit.value : Value Code)).isSome) rows =
        keep (namesLiteral lit) rows :=
    fun lit => keep_congr fun row _ => tryMatch_value lit row.1
  have hother : ∀ v, values v → (∀ lit ∈ literals rows, v ≠ lit.value) →
      keep (fun p => (tryMatch p v).isSome) rows = keep catchesAll rows := by
    intro v hv hunnamed
    apply keep_congr
    intro row hrow
    apply tryMatch_unnamed (hwhole v hv)
    intro lit hlit
    exact hunnamed lit (List.mem_filterMap.mpr ⟨row, hrow, hlit⟩)
  constructor
  · rintro ⟨hliterals, hrest⟩ v hv
    by_cases hlisted : ∃ lit ∈ literals rows, v = lit.value
    · obtain ⟨lit, hlit, rfl⟩ := hlisted
      rw [hnamed]
      exact hliterals lit hlit hv
    · push Not at hlisted
      rw [hother v hv hlisted]
      exact hrest ⟨v, hv, hlisted⟩
  · intro h
    constructor
    · intro lit _ hv
      rw [← hnamed]
      exact h _ hv
    · rintro ⟨v, hv, hunnamed⟩
      rw [← hother v hv hunnamed]
      exact h v hv

theorem patternsDepth_le {ps : List Pattern} {n : Nat} :
    patternsDepth ps ≤ n ↔ ∀ p ∈ ps, patternDepth p ≤ n := by
  induction ps with
  | nil => simp [patternsDepth]
  | cons p ps ih => rw [patternsDepth, Nat.max_le, ih, List.forall_mem_cons]

/-- At most `n` variants nest in the first patterns of the rows. -/
def Shallow (n : Nat) {R : Type} (rows : List (Pattern × R)) : Prop :=
  ∀ row ∈ rows, patternDepth row.1 ≤ n

def PayloadShallow (n : Nat) (payload : Payload) : Prop :=
  ∀ ps, payload = some ps → ∀ p ∈ ps, patternDepth p ≤ n

theorem ofVariant_shallow {name : String} {n : Nat} {R : Type} {rows : List (Pattern × R)}
    (h : Shallow (n + 1) rows) :
    ∀ row ∈ takeApart (ofVariant name) rows, PayloadShallow n row.1 := by
  intro row hrow ps hps
  obtain ⟨before, hbefore, hof⟩ := mem_takeApart hrow
  have hdepth := h before hbefore
  obtain ⟨⟨kind, span⟩, r⟩ := before
  rw [hps] at hof
  cases kind with
  | variant m subPatterns =>
    simp only [ofVariant, Pattern.kind] at hof
    split at hof
    next hname =>
      cases hof
      rw [patternDepth] at hdepth
      exact patternsDepth_le.mp (Nat.le_of_succ_le_succ hdepth)
    next => cases hof
  | _ => simp [ofVariant, Pattern.kind] at hof

theorem single_shallow {n : Nat} {R : Type} {rows : List (Payload × R)}
    (h : ∀ row ∈ rows, PayloadShallow n row.1) : Shallow n (takeApart single rows) := by
  intro row hrow
  obtain ⟨⟨payload, r⟩, hbefore, hof⟩ := mem_takeApart hrow
  have hdepth := h _ hbefore
  match payload with
  | none =>
    rw [← Option.some.inj hof]
    exact Nat.zero_le n
  | some [p] =>
    rw [← Option.some.inj hof]
    exact hdepth _ rfl _ List.mem_cons_self
  | some [] => cases hof
  | some (p :: q :: ps) => cases hof

theorem wildcards_shallow {n m : Nat} : ∀ p ∈ List.replicate m wildcard, patternDepth p ≤ n := by
  intro p hp
  rw [List.eq_of_mem_replicate hp]
  exact Nat.zero_le n

theorem spread_shallow {n m : Nat} {R : Type} {rows : List (Payload × R)}
    (h : ∀ row ∈ rows, PayloadShallow n row.1) :
    ∀ row ∈ takeApart (spread m) rows, ∀ p ∈ row.1, patternDepth p ≤ n := by
  intro row hrow
  obtain ⟨⟨payload, r⟩, hbefore, hof⟩ := mem_takeApart hrow
  have hdepth := h _ hbefore
  match payload with
  | none =>
    rw [← Option.some.inj hof]
    exact wildcards_shallow
  | some [p] =>
    rw [spread] at hof
    split at hof
    next =>
      rw [← Option.some.inj hof]
      exact wildcards_shallow
    next => cases hof
  | some [] =>
    have hspread : spread m (some []) = if 0 = m then some [] else none := rfl
    rw [hspread] at hof
    split at hof
    next =>
      rw [← Option.some.inj hof]
      exact hdepth _ rfl
    next => cases hof
  | some (p :: q :: ps) =>
    have hspread : spread m (some (p :: q :: ps)) =
        if (p :: q :: ps).length = m then some (p :: q :: ps) else none := rfl
    rw [hspread] at hof
    split at hof
    next =>
      rw [← Option.some.inj hof]
      exact hdepth _ rfl
    next => cases hof

section Coverage

variable {reading : Reading Code} {below : Split} {n : Nat}

/-- `below` looks after the variants of every type, for patterns that nest at most `n` of them. -/
def CoversBelow (reading : Reading Code) (below : Split) (n : Nat) : Prop :=
  ∀ (t : Ty) (R : Type) (rows : List (Pattern × R)) (k : List R → Prop), Shallow n rows →
    (below t rows k ↔ ∀ name inner, HasType reading (.variant name inner) t →
      k (keep (fun p => (tryMatch p (.variant name inner)).isSome) rows))

/-- Rows cover a type just if some row matches each of its values. -/
theorem coversTy_iff (hbelow : CoversBelow reading below n) (t : Ty) {R : Type}
    {rows : List (Pattern × R)} (hrows : Shallow n rows) (k : List R → Prop) :
    coversTy reading below t rows k ↔
      ∀ v, HasType reading v t → k (keep (fun p => (tryMatch p v).isSome) rows) := by
  rw [coversTy, coversWhole_iff fun v hv => reading.whole_of_holds hv, hbelow t R rows k hrows]
  constructor
  · rintro ⟨hplain, hvariant⟩ v hv
    cases hv with
    | plain h => exact hplain v h
    | variant hmem h => exact hvariant _ _ (.variant hmem h)
  · intro h
    exact ⟨fun v hv => h v (.plain hv), fun name inner hv => h _ hv⟩

/-- The same of lists of fields. -/
theorem coversFields_iff (hbelow : CoversBelow reading below n) (ts : List Ty) {R : Type}
    {rows : List (List Pattern × R)} (hrows : ∀ row ∈ rows, ∀ p ∈ row.1, patternDepth p ≤ n)
    (k : List R → Prop) :
    coversFields reading below ts rows k ↔
      ∀ vs, HaveTypes reading vs ts → k (keep (fun ps => matchesAll ps vs) rows) := by
  induction ts generalizing R with
  | nil =>
    have hempty : keep (fun ps => matchesAll ps ([] : List (Value Code))) rows =
        keep List.isEmpty rows := by
      apply keep_congr
      intro row _
      cases row.1 <;> rfl
    constructor
    · intro h vs hvs
      cases hvs
      rw [hempty]
      exact h
    · intro h
      have hnil := h [] .nil
      rw [hempty] at hnil
      exact hnil
  | cons t ts ih =>
    have hsplit : ∀ row ∈ rows.filterMap splitFirst,
        patternDepth row.1 ≤ n ∧ ∀ p ∈ row.2.1, patternDepth p ≤ n := by
      intro row hrow
      obtain ⟨⟨ps, r⟩, hbefore, hof⟩ := List.mem_filterMap.mp hrow
      cases ps with
      | nil => cases hof
      | cons p ps =>
        rw [← Option.some.inj hof]
        exact List.forall_mem_cons.mp (hrows _ hbefore)
    have hrest : ∀ v : Value Code,
        ∀ row ∈ keep (fun p => (tryMatch p v).isSome) (rows.filterMap splitFirst),
          ∀ p ∈ row.1, patternDepth p ≤ n := by
      intro v row hrow
      obtain ⟨before, hbefore, rfl⟩ := mem_of_mem_keep hrow
      exact (hsplit before hbefore).2
    rw [coversFields, coversTy_iff hbelow t fun row hrow => (hsplit row hrow).1]
    constructor
    · intro h vs hvs
      cases hvs with
      | cons hv hvs =>
        rw [keep_split]
        exact (ih (hrest _) k).mp (h _ hv) _ hvs
    · intro h v hv
      rw [ih (hrest v)]
      intro vs hvs
      rw [← keep_split]
      exact h (v :: vs) (.cons hv hvs)

theorem haveTypes_length {vs : List (Value Code)} {ts : List Ty}
    (h : HaveTypes reading vs ts) : vs.length = ts.length := by
  induction ts generalizing vs with
  | nil =>
    cases h
    rfl
  | cons t ts ih =>
    cases h with
    | cons _ hs => rw [List.length_cons, List.length_cons, ih hs]

theorem hasType_unit {t : Ty} : HasType reading .unit t ↔ reading.holds t .unit := by
  constructor
  · intro h
    cases h with
    | plain h => exact h
  · exact .plain

theorem ne_tuple_of_hasType {v : Value Code} {t : Ty} (h : HasType reading v t) :
    ∀ items, v ≠ .tuple items := by
  rintro items rfl
  cases h with
  | plain h => exact reading.whole_of_holds h

theorem coversPayload_one (hbelow : CoversBelow reading below n) (t : Ty) {R : Type}
    {rows : List (Payload × R)} (hrows : ∀ row ∈ rows, PayloadShallow n row.1)
    (k : List R → Prop) :
    coversPayload reading below rows k [t] ↔
      ∀ v, HasType reading v t → k (keep (payloadMatches v) rows) := by
  have hsingle : ∀ v : Value Code, v ≠ .unit → (∀ items, v ≠ .tuple items) →
      keep (payloadMatches v) rows =
        keep (fun p => (tryMatch p v).isSome) (takeApart single rows) :=
    fun v hunit htuple => keep_takeApart (payloadMatches_single hunit htuple) rows
  have hunit : keep (payloadMatches (.unit : Value Code)) rows = keep takesUnit rows :=
    keep_congr fun row _ => payloadMatches_unit row.1
  rw [coversPayload, hbelow t R _ k (single_shallow hrows),
    coversWhole_iff fun v hv => reading.whole_of_holds hv.1]
  constructor
  · rintro ⟨htakes, hplain, hvariant⟩ v hv
    by_cases heq : v = .unit
    · subst heq
      rw [hunit]
      exact htakes (hasType_unit.mp hv)
    · rw [hsingle v heq (ne_tuple_of_hasType hv)]
      cases hv with
      | plain h => exact hplain v ⟨h, heq⟩
      | variant hmem h => exact hvariant _ _ (.variant hmem h)
  · intro h
    refine ⟨?_, ?_, ?_⟩
    · intro hv
      rw [← hunit]
      exact h _ (.plain hv)
    · rintro v ⟨hv, hne⟩
      rw [← hsingle v hne (ne_tuple_of_hasType (.plain hv))]
      exact h v (.plain hv)
    · intro name inner hv
      rw [← hsingle _ (by simp) (by simp)]
      exact h _ hv

/-- The same of payloads. -/
theorem coversPayload_iff (hbelow : CoversBelow reading below n) (fields : List Ty) {R : Type}
    {rows : List (Payload × R)} (hrows : ∀ row ∈ rows, PayloadShallow n row.1)
    (k : List R → Prop) :
    coversPayload reading below rows k fields ↔
      ∀ inner, Holds reading inner fields → k (keep (payloadMatches inner) rows) := by
  match fields with
  | [] =>
    have hunit : keep (payloadMatches (.unit : Value Code)) rows = keep takesUnit rows :=
      keep_congr fun row _ => payloadMatches_unit row.1
    rw [coversPayload, ← hunit]
    constructor
    · intro h inner hinner
      cases hinner
      exact h
    · exact fun h => h _ .none
  | [t] =>
    rw [coversPayload_one hbelow t hrows]
    constructor
    · intro h inner hinner
      cases hinner with
      | one hv => exact h _ hv
    · exact fun h v hv => h v (.one hv)
  | t :: u :: ts =>
    have hfields : coversPayload reading below rows k (t :: u :: ts) ↔
        coversFields reading below (t :: u :: ts) (takeApart (spread (ts.length + 2)) rows) k :=
      Iff.rfl
    have htuple : ∀ items, HaveTypes reading items (t :: u :: ts) →
        keep (payloadMatches (.tuple items)) rows =
          keep (fun ps => matchesAll ps items) (takeApart (spread (ts.length + 2)) rows) := by
      intro items hitems
      have hlength : items.length = ts.length + 2 := haveTypes_length hitems
      rw [← hlength]
      exact keep_takeApart (payloadMatches_spread items (by omega)) rows
    rw [hfields, coversFields_iff hbelow _ (spread_shallow hrows)]
    constructor
    · intro h inner hinner
      cases hinner with
      | many hitems =>
        rw [htuple _ hitems]
        exact h _ hitems
    · intro h items hitems
      rw [← htuple items hitems]
      exact h _ (.many hitems)

/-- Patterns without variants match a variant only if they match all values. -/
theorem tryMatch_shallow {p : Pattern} (h : patternDepth p ≤ 0) (name : String)
    (inner : Value Code) : (tryMatch p (.variant name inner)).isSome = catchesAll p := by
  obtain ⟨kind, span⟩ := p
  cases kind with
  | literal lit => cases lit <;> rfl
  | variant n subPatterns => exact absurd h (by simp [patternDepth])
  | _ => rfl

/-- The same of sums, by induction on the depth of the patterns. -/
theorem coversVariants_iff (n : Nat) : CoversBelow reading (coversVariants reading n) n := by
  induction n with
  | zero =>
    intro t R rows k hrows
    have hall : ∀ name (inner : Value Code),
        keep (fun p => (tryMatch p (.variant name inner)).isSome) rows = keep catchesAll rows :=
      fun name inner => keep_congr fun row hrow => tryMatch_shallow (hrows row hrow) name inner
    simp only [coversVariants, hall]
    constructor
    · exact fun h name inner hv => h ⟨name, inner, hv⟩
    · rintro h ⟨name, inner, hv⟩
      exact h name inner hv
  | succ n ih =>
    intro t R rows k hrows
    have hvariant : ∀ name (inner : Value Code),
        keep (fun p => (tryMatch p (.variant name inner)).isSome) rows =
          keep (payloadMatches inner) (takeApart (ofVariant name) rows) :=
      fun name inner => keep_takeApart (tryMatch_variant name inner) rows
    simp only [coversVariants, hvariant]
    have hshallow := fun name => @ofVariant_shallow name n R rows hrows
    have hpayload := fun variant : TyVariant =>
      coversPayload_iff ih variant.fields (hshallow variant.name) k
    simp only [hpayload]
    constructor
    · intro h name inner hv
      cases hv with
      | plain hplain => exact (reading.whole_of_holds hplain).elim
      | variant hmem hinner => exact h _ hmem inner hinner
    · intro h variant hmem inner hinner
      exact h _ inner (.variant hmem hinner)

end Coverage

/-- The arms as rows that leave nothing behind them. -/
def armRows (arms : List Pattern) : List (Pattern × Unit) := arms.map fun p => (p, ())

theorem keep_armRows_iff (arms : List Pattern) (v : Value Code) :
    keep (fun p => (tryMatch p v).isSome) (armRows arms) ≠ [] ↔
      ∃ p ∈ arms, (tryMatch p v).isSome = true := by
  induction arms with
  | nil => simp [keep, armRows]
  | cons p arms ih =>
    rw [List.exists_mem_cons_iff, ← ih]
    unfold keep armRows
    rw [List.map_cons, List.filterMap_cons]
    cases hp : tryMatch p v with
    | none => simp [hp]
    | some bindings => simp [hp]

/-- Some arm matches each value of the sum. -/
def NeverFails (reading : Reading Code) (variants : List TyVariant) (arms : List Pattern) : Prop :=
  ∀ v, HasType reading v (.sum variants) → ∃ p ∈ arms, (tryMatch p v).isSome = true

/-- Splitting the arms by their heads leaves an arm in every case. -/
def Covered (reading : Reading Code) (variants : List TyVariant) (arms : List Pattern) : Prop :=
  coversVariants reading (patternsDepth arms) (.sum variants) (armRows arms) (· ≠ [])

/-- No arm is for all values, and some variant is named by none. -/
def Unnamed (variants : List TyVariant) (arms : List Pattern) : Prop :=
  (∀ p ∈ arms, isCatchAll p.kind = false) ∧
    ∃ variant ∈ variants, ∀ p ∈ arms, variantName p.kind ≠ some variant.name

/-- No value falls through just if the arms cover it. -/
theorem neverFails_iff_covered (reading : Reading Code) (variants : List TyVariant)
    (arms : List Pattern) : NeverFails reading variants arms ↔ Covered reading variants arms := by
  have hrows : Shallow (patternsDepth arms) (armRows arms) := by
    intro row hrow
    obtain ⟨p, hp, rfl⟩ := List.mem_map.mp hrow
    exact patternsDepth_le.mp le_rfl p hp
  rw [Covered, coversVariants_iff (patternsDepth arms) (.sum variants) Unit _ _ hrows]
  simp only [keep_armRows_iff]
  constructor
  · exact fun h name inner hv => h _ hv
  · intro h v hv
    cases hv with
    | plain hplain => exact hplain.elim
    | variant hmem hinner => exact h _ _ (.variant hmem hinner)

/-- The check refuses just if no arm names some variant and none takes them all. -/
theorem check_ne_ok_iff (variants : List TyVariant) (arms : List Pattern) :
    checkExhaustiveness (.sum variants) (arms.map Pattern.kind) ≠ .ok () ↔
      Unnamed variants arms := by
  have hany : (arms.map Pattern.kind).any isCatchAll = true ↔
      ∃ p ∈ arms, isCatchAll p.kind = true := by simp
  unfold checkExhaustiveness Unnamed
  by_cases hall : (arms.map Pattern.kind).any isCatchAll = true
  · rw [if_pos hall]
    obtain ⟨p, hp, hcatch⟩ := hany.mp hall
    apply iff_of_false (not_not_intro rfl)
    rintro ⟨hnone, -⟩
    rw [hnone p hp] at hcatch
    cases hcatch
  · rw [if_neg hall]
    have hnone : ∀ p ∈ arms, isCatchAll p.kind = false := by
      intro p hp
      rw [← Bool.not_eq_true]
      exact fun hcatch => hall (hany.mpr ⟨p, hp, hcatch⟩)
    simp only [checkSumExhaustiveness, if_neg hall, orMissing]
    rw [and_iff_right hnone]
    have hmissing : ((variants.map TyVariant.name).filter fun name =>
        name ∉ (arms.map Pattern.kind).filterMap variantName).isEmpty = true ↔
          ¬ ∃ variant ∈ variants, ∀ p ∈ arms, variantName p.kind ≠ some variant.name := by
      rw [List.isEmpty_iff, List.filter_eq_nil_iff]
      simp
    split
    next hempty => exact iff_of_false (not_not_intro rfl) (hmissing.mp hempty)
    next hsome =>
      rw [hmissing, not_not] at hsome
      exact iff_of_true (by simp) hsome

/-- A match that the check accepts never fails exactly if its arms cover the sum down to the
fields; the check accepts all matches but those that leave a variant unnamed. -/
theorem exhaustiveness_sound_iff (reading : Reading Code) (variants : List TyVariant)
    (arms : List Pattern) :
    (checkExhaustiveness (.sum variants) (arms.map Pattern.kind) = .ok () →
        NeverFails reading variants arms) ↔
      Unnamed variants arms ∨ Covered reading variants arms := by
  rw [← check_ne_ok_iff, ← neverFails_iff_covered]
  exact imp_iff_not_or

def okErr : List TyVariant := [⟨"Ok", [.prim .i32]⟩, ⟨"Err", [.prim .str]⟩]

def atDummy (kind : PatternKind) : Pattern := ⟨kind, .dummy⟩

/-- `(Ok 1)` and `(Err _)`. -/
def onlyOne : List Pattern :=
  [atDummy (.variant "Ok" [atDummy (.literal (.int 1))]), atDummy (.variant "Err" [wildcard])]

/-- No values but those of sums and primitive types. -/
def noOthers : Reading Unit := ⟨fun _ _ => False, fun _ => [], fun _ _ => False.elim⟩

/-- `(Ok 1)` and `(Err _)` are accepted, and neither matches `(Ok 2)`. -/
theorem onlyOne_fails :
    checkExhaustiveness (.sum okErr) (onlyOne.map Pattern.kind) = .ok () ∧
      ¬ NeverFails noOthers okErr onlyOne := by
  refine ⟨by decide, ?_⟩
  intro h
  have htwo : HasType noOthers (.variant "Ok" (.int 2)) (.sum okErr) := by
    have hone : Holds noOthers (.int 2) [.prim .i32] := .one (.plain ⟨by decide, by decide⟩)
    have hok : (⟨"Ok", [.prim .i32]⟩ : TyVariant) ∈ noOthers.variantsOf (.sum okErr) :=
      List.mem_cons_self
    exact .variant hok hone
  obtain ⟨p, hp, hmatch⟩ := h _ htwo
  revert p
  decide

end Airl
