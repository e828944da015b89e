import Airl.Solver.DiskCacheReading

/-! # What a saved cache is loaded as

Any sequence of insertions, the file written for any order in which the map
iterates, and the cache loaded from it: each key has its function name, its
clauses and their verdicts again exactly if the stored texts are clean.
-/

namespace Airl.Solver

/-- The kind of a verdict. -/
inductive VerdictKind where
  | proven
  | disproven
  | unknown
  | translationError
  deriving Repr, DecidableEq

def VerifyResult.kind : VerifyResult → VerdictKind
  | .proven => .proven
  | .disproven _ => .disproven
  | .unknown _ => .unknown
  | .translationError _ => .translationError

/-- The clause texts of a list in order, with the kinds of their verdicts. -/
def kinds (results : List (List Char × VerifyResult)) : List (List Char × VerdictKind) :=
  results.map fun r => (r.1, r.2.kind)

/-- The same function name and, in order, the same clauses with verdicts of the same kinds. -/
structure SameVerdicts (v w : FunctionVerification) : Prop where
  name : w.functionName = v.functionName
  ensures : kinds w.ensuresResults = kinds v.ensuresResults
  invariants : kinds w.invariantsResults = kinds v.invariantsResults

namespace DiskCache

/-- The cache after a sequence of insertions into an empty one. -/
def insertAll (inserts : List (UInt64 × FunctionVerification)) : DiskCache :=
  inserts.foldl (fun cache i => cache.insert i.1 i.2) new

/-- The last verification inserted under the key, of those without a disproven clause. -/
def lastStored (inserts : List (UInt64 × FunctionVerification)) (key : UInt64) :
    Option FunctionVerification :=
  (inserts.reverse.find? fun i => i.1 == key && !i.2.hasDisproven).map Prod.snd

/-- What is loaded from the file written in this order of iteration is what was stored. -/
def RoundTrips (inserts : List (UInt64 × FunctionVerification))
    (order : List (UInt64 × CacheEntry)) : Prop :=
  ∃ loaded, load (write (insertAll inserts) order none) = .ok loaded ∧
    ∀ key, Option.Rel SameVerdicts (lastStored inserts key) (loaded.get key)

/-- No quotation mark or line end in the name; only ASCII in the clauses, and no quotation mark,
bracket, comma or line end. -/
structure CleanTexts (v : FunctionVerification) : Prop where
  name : ∀ c ∈ v.functionName, c ≠ '"' ∧ c ≠ '\n'
  ensures : ∀ r ∈ v.ensuresResults, ∀ c ∈ r.1, c.utf8Size = 1 ∧ c ∉ ['"', '[', ']', ',', '\n']
  invariants : ∀ r ∈ v.invariantsResults, ∀ c ∈ r.1,
    c.utf8Size = 1 ∧ c ∉ ['"', '[', ']', ',', '\n']

/-! ## The map -/

section Map

variable {cache : DiskCache} {key k : UInt64} {entry e : CacheEntry}

theorem entryAt_eq_some : cache.entryAt key = some entry ↔ (key, entry) ∈ cache.entries := by
  obtain ⟨entries, dirty, distinct⟩ := cache
  simp only [entryAt]
  induction entries with
  | nil => simp
  | cons pair entries ih =>
    obtain ⟨k, e⟩ := pair
    rw [List.map_cons, List.nodup_cons] at distinct
    rw [List.find?_cons, List.mem_cons]
    by_cases hk : k = key
    · subst hk
      simp only [beq_self_eq_true, Option.map_some, Option.some.injEq, Prod.mk.injEq, true_and]
      constructor
      · exact fun h => Or.inl h.symm
      · rintro (rfl | hmem)
        · rfl
        · exact absurd (List.mem_map_of_mem hmem) distinct.1
    · have hne : (k == key) = false := beq_eq_false_iff_ne.mpr hk
      simp only [hne, ih distinct.2, Prod.mk.injEq]
      simp [Ne.symm hk]

theorem entryAt_put : (cache.put k e).entryAt key = if k =
    key then some e else cache.entryAt key := by
  simp only [entryAt, put, List.find?_cons]
  split
  · next h => simp [beq_iff_eq.mp h]
  · next h =>
    have hne : k ≠ key := by simpa using h
    rw [if_neg hne, List.find?_filter]
    congr 1
    apply congrFun (congrArg _ _)
    funext x
    by_cases hx : x.1 = key
    · simp [hx, Ne.symm hne]
    · simp [hx]

theorem entryAt_new : new.entryAt key = none := rfl

/-- An insertion is stored unless a clause was disproven. -/
theorem entryAt_insert (v : FunctionVerification) : (cache.insert k v).entryAt key =
    if k = key ∧ v.hasDisproven = false then some (entryOf v) else cache.entryAt key := by
  unfold insert
  cases hv : v.hasDisproven with
  | true => simp
  | false =>
    have hput : ({ cache.put k (entryOf v) with dirty := true } : DiskCache).entryAt key =
        if k = key then some (entryOf v) else cache.entryAt key := entryAt_put
    rw [if_neg (by simp), hput]
    simp

/-- Of the insertions with a key the last one stored is found. -/
theorem entryAt_insertAll (inserts : List (UInt64 × FunctionVerification)) (key : UInt64) :
    (insertAll inserts).entryAt key = (lastStored inserts key).map entryOf := by
  induction inserts using List.reverseRecOn with
  | nil => rfl
  | append_singleton inserts i ih =>
    have hfold : insertAll (inserts ++ [i]) = (insertAll inserts).insert i.1 i.2 := by
      simp [insertAll]
    rw [hfold, entryAt_insert, ih, lastStored, lastStored, List.reverse_append,
      List.reverse_singleton, List.singleton_append, List.find?_cons]
    by_cases hi : i.1 = key ∧ i.2.hasDisproven = false
    · rw [if_pos hi]
      simp [hi.1, hi.2]
    · rw [if_neg hi]
      have hnot : (i.1 == key && !i.2.hasDisproven) = false := by
        simpa using fun h => by simpa using not_and.mp hi h
      simp [hnot]

theorem dirty_insertAll (inserts : List (UInt64 × FunctionVerification)) :
    (insertAll inserts).dirty = false → (insertAll inserts).entries = [] := by
  induction inserts using List.reverseRecOn with
  | nil => exact fun _ => rfl
  | append_singleton inserts i ih =>
    have hfold : insertAll (inserts ++ [i]) = (insertAll inserts).insert i.1 i.2 := by
      simp [insertAll]
    rw [hfold, insert]
    split
    · exact ih
    · intro h
      cases h

end Map

/-! ## Loading -/

section Loading

variable {cache loaded : DiskCache} {key : UInt64} {entry : CacheEntry}

/-- A line ends the load just if its text is broken. -/
theorem loadLine_eq_error {line : List UInt8} :
    loadLine cache line = .error .slice ↔ ∃ text, Utf8.decode line = some text ∧ Broken text := by
  unfold loadLine
  cases hdecode : Utf8.decode line with
  | none => simp
  | some text =>
    simp only [Option.some.injEq, exists_eq_left', ← parseLine_eq_error]
    cases hparse : parseLine text with
    | error p =>
      cases p
      simp [bind, Except.bind]
    | ok r => cases r <;> simp [bind, Except.bind]

/-- The line is read as an entry. -/
def Reads (line : List UInt8) (key : UInt64) (entry : CacheEntry) : Prop :=
  ∃ text, Utf8.decode line = some text ∧ parseLine text = .ok (some (key, entry))

/-- A line that reads as an entry replaces the entry of its key. -/
theorem entryAt_loadLine {line : List UInt8} (h : loadLine cache line = .ok loaded) :
    loaded.entryAt key = some entry ↔
      Reads line key entry ∨ (¬ ∃ e, Reads line key e) ∧ cache.entryAt key = some entry := by
  unfold loadLine at h
  cases hdecode : Utf8.decode line with
  | none =>
    rw [hdecode] at h
    obtain rfl := Except.ok.inj h
    simp [Reads, hdecode]
  | some text =>
    rw [hdecode] at h
    have hreads : ∀ e, Reads line key e ↔ parseLine text = .ok (some (key, e)) := fun e => by
      simp [Reads, hdecode]
    simp only [hreads]
    cases hparse : parseLine text with
    | error p => simp [hparse, bind, Except.bind] at h
    | ok r =>
      simp only [hparse, bind, Except.bind] at h
      cases r with
      | none =>
        obtain rfl := Except.ok.inj h
        simp
      | some r =>
        obtain ⟨k, e⟩ := r
        obtain rfl := Except.ok.inj h
        rw [entryAt_put]
        by_cases hk : k = key
        · simp [hk]
        · simp [hk]

/-- The last line that is read as an entry of the key counts. -/
theorem entryAt_foldlM {ls : List (List UInt8)} (h : ls.foldlM loadLine cache = .ok loaded) :
    loaded.entryAt key = some entry ↔
      (∃ before line after, ls = before ++ line :: after ∧ Reads line key entry ∧
        ∀ line' ∈ after, ¬ ∃ e, Reads line' key e) ∨
      (∀ line ∈ ls, ¬ ∃ e, Reads line key e) ∧ cache.entryAt key = some entry := by
  induction ls generalizing cache with
  | nil =>
    cases h
    simp
  | cons line ls ih =>
    rw [List.foldlM_cons] at h
    cases hline : loadLine cache line with
    | error p => simp [hline, bind, Except.bind] at h
    | ok next =>
      rw [hline] at h
      rw [ih h, entryAt_loadLine hline, List.forall_mem_cons]
      constructor
      · rintro (⟨before, line', after, rfl, hlast⟩ | ⟨hnone, hreads | ⟨hfirst, hcache⟩⟩)
        · exact Or.inl ⟨line :: before, line', after, rfl, hlast⟩
        · exact Or.inl ⟨[], line, ls, rfl, hreads, hnone⟩
        · exact Or.inr ⟨⟨hfirst, hnone⟩, hcache⟩
      · rintro (⟨before, line', after, heq, hlast⟩ | ⟨⟨hfirst, hnone⟩, hcache⟩)
        · cases before with
          | nil =>
            obtain ⟨rfl, rfl⟩ := List.cons.inj heq
            exact Or.inr ⟨hlast.2, Or.inl hlast.1⟩
          | cons first before =>
            obtain ⟨rfl, rfl⟩ := List.cons.inj heq
            exact Or.inl ⟨before, line', after, rfl, hlast⟩
        · exact Or.inr ⟨hnone, Or.inr ⟨hfirst, hcache⟩⟩

/-- An entry is loaded just if the last line that reads with its key reads as it. -/
theorem reads_of_load {content : List UInt8} (h : load (some content) = .ok loaded) :
    loaded.entryAt key = some entry ↔ ∃ before line after,
      Text.lines content = before ++ line :: after ∧ Reads line key entry ∧
        ∀ line' ∈ after, ¬ ∃ e, Reads line' key e := by
  rw [entryAt_foldlM h, entryAt_new]
  simp

theorem foldlM_eq_error {ls : List (List UInt8)} :
    ls.foldlM loadLine cache = .error .slice ↔
      ∃ line ∈ ls, ∃ text, Utf8.decode line = some text ∧ Broken text := by
  induction ls generalizing cache with
  | nil => simp [pure, Except.pure]
  | cons line ls ih =>
    have hhead : loadLine cache line = .error .slice ↔ _ := loadLine_eq_error
    rw [List.foldlM_cons]
    simp only [List.mem_cons, exists_eq_or_imp, ← hhead]
    cases hline : loadLine cache line with
    | error p =>
      cases p
      simp [bind, Except.bind]
    | ok next => simpa [bind, Except.bind] using ih

/-- Lines that read as what was written load it, in order. -/
theorem foldlM_loadLine {order : List (UInt64 × CacheEntry)}
    (h : ∀ e ∈ order, parseLine (renderLine e) = .ok (some e)) :
    (order.map fun e => Utf8.encode (renderLine e)).foldlM loadLine cache =
      .ok (order.foldl (fun cache e => cache.put e.1 e.2) cache) := by
  induction order generalizing cache with
  | nil => rfl
  | cons e order ih =>
    have hline : loadLine cache (Utf8.encode (renderLine e)) = .ok (cache.put e.1 e.2) := by
      unfold loadLine
      rw [Utf8.decode_eq_some.mpr rfl]
      simp only [h e (by simp), bind, Except.bind]
    rw [List.map_cons, List.foldlM_cons, hline]
    exact ih fun e' he' => h e' (by simp [he'])

theorem entryAt_foldl {order : List (UInt64 × CacheEntry)}
    (hdistinct : (order.map Prod.fst).Nodup) :
    (order.foldl (fun cache e => cache.put e.1 e.2) cache).entryAt key = some entry ↔
      (key, entry) ∈ order ∨ key ∉ order.map Prod.fst ∧ cache.entryAt key = some entry := by
  induction order generalizing cache with
  | nil => simp
  | cons e order ih =>
    obtain ⟨k, e⟩ := e
    rw [List.map_cons, List.nodup_cons] at hdistinct
    rw [List.foldl_cons, ih hdistinct.2, entryAt_put]
    by_cases hk : k = key
    · subst hk
      have hnot : (k, entry) ∉ order := fun hmem =>
        hdistinct.1 (List.mem_map.mpr ⟨_, hmem, rfl⟩)
      simp [hdistinct.1, hnot, eq_comm]
    · simp [hk, Ne.symm hk]

end Loading

/-! ## Stored entries -/

section Stored

variable {v w : FunctionVerification} {results : List (List Char × VerifyResult)}

/-- The tags that `result_tag` writes. -/
def tags : List (List Char) :=
  ["Proven".toList, "Disproven".toList, "Unknown".toList, "TranslationError".toList]

theorem resultTag_mem (r : VerifyResult) : resultTag r ∈ tags := by
  cases r with
  | proven => exact List.mem_cons_self
  | disproven c => exact List.mem_cons_of_mem _ List.mem_cons_self
  | unknown s => exact List.mem_cons_of_mem _ (List.mem_cons_of_mem _ List.mem_cons_self)
  | translationError s =>
    exact List.mem_cons_of_mem _ (List.mem_cons_of_mem _
      (List.mem_cons_of_mem _ List.mem_cons_self))

theorem tags_chars : ∀ tag ∈ tags, ∀ c ∈ tag,
    (c ≠ '"' ∧ c ≠ '[' ∧ c ≠ ']' ∧ c ≠ ',') ∧ c.utf8Size = 1 ∧ c ≠ '\n' := by
  simp [tags, Char.utf8Size]

theorem isTag_resultTag (r : VerifyResult) : IsTag (resultTag r) :=
  ⟨fun c hc => (tags_chars _ (resultTag_mem r) c hc).1,
    fun c hc => (tags_chars _ (resultTag_mem r) c hc).2.1⟩

theorem stored_eq (h : ∀ r ∈ results, r.2.isDisproven = false) :
    stored results = results.map fun r => (r.1, resultTag r.2) := by
  rw [stored, List.filter_eq_self.mpr fun r hr => by simp [h r hr]]

theorem isDisproven_of_hasDisproven (h : v.hasDisproven = false) :
    (∀ r ∈ v.ensuresResults, r.2.isDisproven = false) ∧
      ∀ r ∈ v.invariantsResults, r.2.isDisproven = false := by
  simpa [FunctionVerification.hasDisproven] using h

/-- A tag reads back as a verdict of the same kind. -/
theorem kind_parseResultTag {r : VerifyResult} (h : r.isDisproven = false) :
    (parseResultTag (resultTag r)).kind = r.kind := by
  cases r with
  | disproven counterexample => simp [VerifyResult.isDisproven] at h
  | proven => rfl
  | unknown reason => rfl
  | translationError message => rfl

theorem kinds_stored (h : ∀ r ∈ results, r.2.isDisproven = false) :
    kinds ((stored results).map fun r => (r.1, parseResultTag r.2)) = kinds results := by
  rw [stored_eq h, kinds, kinds, List.map_map, List.map_map]
  refine List.map_congr_left fun r hr => ?_
  simp only [Function.comp, kind_parseResultTag (h r hr)]

/-- What `get` makes of an entry. -/
def verificationOf (entry : CacheEntry) : FunctionVerification where
  functionName := entry.functionName
  ensuresResults := entry.ensuresResults.map fun r => (r.1, parseResultTag r.2)
  invariantsResults := entry.invariantsResults.map fun r => (r.1, parseResultTag r.2)

theorem get_eq (cache : DiskCache) (key : UInt64) :
    cache.get key = (cache.entryAt key).map verificationOf := rfl

/-- The entry of a verification has its verdicts. -/
theorem sameVerdicts_entryOf (h : v.hasDisproven = false) :
    SameVerdicts v (verificationOf (entryOf v)) := by
  obtain ⟨hensures, hinvariants⟩ := isDisproven_of_hasDisproven h
  exact ⟨rfl, kinds_stored hensures, kinds_stored hinvariants⟩

theorem fst_stored (h : ∀ r ∈ results, r.2.isDisproven = false) :
    (stored results).map Prod.fst = results.map Prod.fst := by
  rw [stored_eq h, List.map_map]
  rfl

theorem fst_of_kinds {read : List (List Char × List Char)}
    (h : kinds (read.map fun r => (r.1, parseResultTag r.2)) = kinds results) :
    read.map Prod.fst = results.map Prod.fst := by
  have hfst := congrArg (List.map Prod.fst) h
  simpa [kinds, Function.comp_def] using hfst

theorem lastStored_not_disproven {inserts : List (UInt64 × FunctionVerification)} {key : UInt64}
    (h : lastStored inserts key = some v) : (key, v) ∈ inserts ∧ v.hasDisproven = false := by
  rw [lastStored, Option.map_eq_some_iff] at h
  obtain ⟨⟨k, v'⟩, hfind, rfl⟩ := h
  have hmem := List.mem_of_find?_eq_some hfind
  have hkey := List.find?_some hfind
  simp only [Bool.and_eq_true, beq_iff_eq, Bool.not_eq_true'] at hkey
  exact ⟨hkey.1 ▸ List.mem_reverse.mp hmem, hkey.2⟩

end Stored

/-! ## The file -/

section File

variable {v : FunctionVerification} {entry : CacheEntry} {key : UInt64}
  {inserts : List (UInt64 × FunctionVerification)} {order : List (UInt64 × CacheEntry)}

/-- No text of the entry holds a line end. -/
structure OneLine (entry : CacheEntry) : Prop where
  name : '\n' ∉ entry.functionName
  ensures : ∀ r ∈ entry.ensuresResults, '\n' ∉ r.1 ∧ '\n' ∉ r.2
  invariants : ∀ r ∈ entry.invariantsResults, '\n' ∉ r.1 ∧ '\n' ∉ r.2

theorem newline_not_mem_clausesToJson {rs : List (List Char × List Char)}
    (h : ∀ r ∈ rs, '\n' ∉ r.1 ∧ '\n' ∉ r.2) : '\n' ∉ clausesToJson rs := by
  have hbody : '\n' ∉ body rs := by
    induction rs with
    | nil => simp [body]
    | cons r rs ih =>
      obtain ⟨hclause, htag⟩ := h r (by simp)
      have hpair : '\n' ∉ pairToJson r := by
        rw [pairToJson_eq]
        simp [mem_escapeQuotes_iff, hclause, htag]
      have hrest := ih fun r' hr' => h r' (by simp [hr'])
      cases rs with
      | nil => rwa [body_singleton]
      | cons r' rs =>
        rw [body_cons_cons]
        simp [hpair, hrest]
  rw [clausesToJson_eq]
  simp [hbody]

theorem newline_not_mem_renderLine (h : OneLine entry) : '\n' ∉ renderLine (key, entry) := by
  have hkey : '\n' ∉ labelled "key".toList [] := by decide
  have hfn : '\n' ∉ labelled "fn".toList ['"'] := by decide
  have hens : '\n' ∉ labelled "ensures".toList [] := by decide
  have hinv : '\n' ∉ labelled "invariants".toList [] := by decide
  have hdigits : '\n' ∉ Nat.toDigits 10 key.toNat := fun hmem =>
    absurd (isDigit_toDigits _ _ hmem) (by decide)
  rw [renderLine_eq, keyRest, fnRest, ensuresRest, invariantsRest]
  simp only [List.mem_append, not_or]
  refine ⟨by decide, hkey, hdigits, by decide, hfn, h.name, by decide, hens, ?_, by decide, hinv,
    ?_, by decide⟩
  · exact newline_not_mem_clausesToJson h.ensures
  · exact newline_not_mem_clausesToJson h.invariants

theorem newline_mem_encode (text : List Char) : (10 : UInt8) ∈ Utf8.encode text ↔ '\n' ∈ text :=
  Utf8.mem_encode_low (by decide) text

theorem getLast?_renderLine (e : UInt64 × CacheEntry) :
    (Utf8.encode (renderLine e)).getLast? = some 125 := by
  have hlast : Utf8.encode ['\x7d'] = [125] := by decide
  obtain ⟨key, entry⟩ := e
  rw [renderLine_eq, keyRest, fnRest, ensuresRest, invariantsRest]
  simp only [Utf8.encode_append, hlast, ← List.append_assoc]
  rw [List.getLast?_concat]

/-- The lines of a written file are the lines that were rendered. -/
theorem lines_write (h : ∀ e ∈ order, OneLine e.2) :
    Text.lines (order.flatMap fun e => Utf8.encode (renderLine e ++ ['\n'])) =
      order.map fun e => Utf8.encode (renderLine e) := by
  have hend : Utf8.encode ['\n'] = [10] := by decide
  have hflat : (order.flatMap fun e => Utf8.encode (renderLine e ++ ['\n'])) =
      (order.map fun e => Utf8.encode (renderLine e)).flatMap fun l => l ++ [10] := by
    rw [List.flatMap_map]
    simp only [Utf8.encode_append, hend]
  rw [hflat]
  apply Text.lines_flatMap
  intro l hl
  obtain ⟨e, he, rfl⟩ := List.mem_map.mp hl
  refine ⟨?_, ?_⟩
  · rw [newline_mem_encode]
    exact newline_not_mem_renderLine (h e he)
  · rw [getLast?_renderLine]
    decide

/-- The entries of the cache are those of the stored verifications. -/
theorem mem_order_iff (hperm : order.Perm (insertAll inserts).entries) :
    (key, entry) ∈ order ↔ ∃ v, lastStored inserts key = some v ∧ entry = entryOf v := by
  rw [hperm.mem_iff, ← entryAt_eq_some, entryAt_insertAll, Option.map_eq_some_iff]
  simp only [eq_comm]

theorem stored_forall {results : List (List Char × VerifyResult)}
    {P : List Char → List Char → Prop}
    (hresults : ∀ r ∈ results, r.2.isDisproven = false) (h : ∀ r ∈ results, P r.1 (resultTag r.2)) :
    ∀ r ∈ stored results, P r.1 r.2 := by
  rw [stored_eq hresults]
  intro r hr
  obtain ⟨s, hs, rfl⟩ := List.mem_map.mp hr
  exact h s hs

theorem CleanTexts.oneLine (h : CleanTexts v) (hv : v.hasDisproven = false) :
    OneLine (entryOf v) := by
  obtain ⟨hensures, hinvariants⟩ := isDisproven_of_hasDisproven hv
  refine ⟨fun hmem => (h.name _ hmem).2 rfl, ?_, ?_⟩
  · exact stored_forall (P := fun c t => '\n' ∉ c ∧ '\n' ∉ t) hensures fun r hr =>
      ⟨fun hmem => (h.ensures r hr _ hmem).2 (by simp),
        fun hmem => (tags_chars _ (resultTag_mem r.2) _ hmem).2.2 rfl⟩
  · exact stored_forall (P := fun c t => '\n' ∉ c ∧ '\n' ∉ t) hinvariants fun r hr =>
      ⟨fun hmem => (h.invariants r hr _ hmem).2 (by simp),
        fun hmem => (tags_chars _ (resultTag_mem r.2) _ hmem).2.2 rfl⟩

theorem plain_of_clean {text : List Char}
    (h : ∀ c ∈ text, c.utf8Size = 1 ∧ c ∉ ['"', '[', ']', ',', '\n']) :
    Plain text ∧ Ascii text := by
  refine ⟨fun c hc => ?_, fun c hc => (h c hc).1⟩
  have hnot := (h c hc).2
  simp only [List.mem_cons, List.not_mem_nil, or_false, not_or] at hnot
  exact ⟨hnot.1, hnot.2.1, hnot.2.2.1, hnot.2.2.2.1⟩

/-- Clean clause texts make a clean entry. -/
theorem CleanTexts.clean (h : CleanTexts v) (hv : v.hasDisproven = false) :
    Clean (entryOf v) ∧ Closed (entryOf v) := by
  obtain ⟨hensures, hinvariants⟩ := isDisproven_of_hasDisproven hv
  have hname : '"' ∉ (entryOf v).functionName := fun hmem => (h.name _ hmem).1 rfl
  have hfields : ∀ {results : List (List Char × VerifyResult)},
      (∀ r ∈ results, r.2.isDisproven = false) → (∀ r ∈ results, ∀ c ∈ r.1,
        c.utf8Size = 1 ∧ c ∉ ['"', '[', ']', ',', '\n']) →
      ∀ r ∈ stored results, (Plain r.1 ∧ Ascii r.1) ∧ IsTag r.2 ∧ ']' ∉ r.1 ∧ ',' ∉ r.1 := by
    intro results hresults hclean
    refine stored_forall (P := fun c t => (Plain c ∧ Ascii c) ∧ IsTag t ∧ ']' ∉ c ∧ ',' ∉ c)
      hresults fun r hr => ?_
    have hplain := plain_of_clean (hclean r hr)
    exact ⟨hplain, isTag_resultTag r.2, fun hmem => (hplain.1 _ hmem).2.2.1 rfl,
      fun hmem => (hplain.1 _ hmem).2.2.2 rfl⟩
  have hens := hfields hensures h.ensures
  have hinv := hfields hinvariants h.invariants
  exact ⟨⟨hname, fun r hr => (hens r hr).1, fun r hr => (hinv r hr).1⟩,
    ⟨hname, fun r hr => (hens r hr).2, fun r hr => (hinv r hr).2⟩⟩

/-- A cache of clean texts reads back as it was written. -/
theorem roundTrips_of_clean (hperm : order.Perm (insertAll inserts).entries)
    (hclean : ∀ key v, lastStored inserts key = some v → CleanTexts v) :
    RoundTrips inserts order := by
  have hentry : ∀ {loaded : DiskCache},
      (∀ key entry, loaded.entryAt key = some entry ↔ (key, entry) ∈ order) →
      ∀ key, Option.Rel SameVerdicts (lastStored inserts key) (loaded.get key) := by
    intro loaded hloaded key
    have hsame : loaded.entryAt key = (lastStored inserts key).map entryOf := by
      apply Option.ext
      intro entry
      rw [hloaded, mem_order_iff hperm, Option.map_eq_some_iff]
      simp only [eq_comm]
    rw [get_eq, hsame]
    cases hlast : lastStored inserts key with
    | none => exact .none
    | some v => exact .some (sameVerdicts_entryOf (lastStored_not_disproven hlast).2)
  unfold RoundTrips write
  cases hdirty : (insertAll inserts).dirty with
  | false =>
    rw [dirty_insertAll inserts hdirty] at hperm
    obtain rfl := hperm.eq_nil
    refine ⟨new, rfl, hentry fun key entry => ?_⟩
    simp [entryAt_new]
  | true =>
    have hfields : ∀ e ∈ order, ∃ v, e.2 = entryOf v ∧ CleanTexts v ∧ v.hasDisproven = false := by
      intro e he
      obtain ⟨v, hlast, heq⟩ := (mem_order_iff hperm).mp (show (e.1, e.2) ∈ order from he)
      exact ⟨v, heq, hclean _ v hlast, (lastStored_not_disproven hlast).2⟩
    have hlines : ∀ e ∈ order, OneLine e.2 := fun e he => by
      obtain ⟨v, heq, hv, hstored⟩ := hfields e he
      exact heq ▸ hv.oneLine hstored
    have hparse : ∀ e ∈ order, parseLine (renderLine e) = .ok (some e) := fun e he => by
      obtain ⟨v, heq, hv, hstored⟩ := hfields e he
      obtain ⟨hc, hclosed⟩ := hv.clean hstored
      obtain ⟨key, entry⟩ := e
      obtain rfl : entry = entryOf v := heq
      exact parseLine_renderLine hclosed hc
    have hdistinct : (order.map Prod.fst).Nodup :=
      (hperm.map Prod.fst).nodup_iff.mpr (insertAll inserts).distinct
    refine ⟨order.foldl (fun cache e => cache.put e.1 e.2) new, ?_, hentry fun key entry => ?_⟩
    · simp only [if_true, load]
      rw [lines_write hlines, foldlM_loadLine hparse]
    · rw [entryAt_foldl hdistinct]
      simp [entryAt_new]

/-- What the texts of a verification lack that was read from one line. -/
structure ReadTexts (v : FunctionVerification) : Prop where
  name : ∀ c ∈ v.functionName, c ≠ '"' ∧ c ≠ '\n'
  ensures : ∀ r ∈ v.ensuresResults, ∀ c ∈ r.1, c ≠ ']' ∧ c ≠ ',' ∧ c ≠ '\n'
  invariants : ∀ r ∈ v.invariantsResults, ∀ c ∈ r.1, c ≠ ']' ∧ c ≠ ',' ∧ c ≠ '\n'

/-- A verification that a line reads back as has readable texts. -/
theorem readTexts_of_parseLine {text : List Char} (hline : '\n' ∉ text)
    (hparse : parseLine text = .ok (some (key, entry)))
    (hsame : SameVerdicts v (verificationOf entry)) : ReadTexts v := by
  have hname := (parseLine_eq_some.mp hparse).2.1
  have hclauses : ∀ {results : List (List Char × VerifyResult)}
      {read : List (List Char × List Char)},
      kinds (read.map fun r => (r.1, parseResultTag r.2)) = kinds results →
      (∀ r ∈ read, r ∈ entry.ensuresResults ++ entry.invariantsResults) →
      ∀ r ∈ results, ∀ c ∈ r.1, c ≠ ']' ∧ c ≠ ',' ∧ c ≠ '\n' := by
    intro results read hkinds hread r hr c hc
    have hmem : r.1 ∈ read.map Prod.fst := fst_of_kinds hkinds ▸ List.mem_map.mpr ⟨r, hr, rfl⟩
    obtain ⟨s, hs, heq⟩ := List.mem_map.mp hmem
    obtain ⟨p, q, hpair, rfl⟩ := (mem_parseLine hparse).mp (hread s hs)
    obtain ⟨htext, hclose, hcomma⟩ := hpair.chars (heq ▸ hc)
    exact ⟨hclose, hcomma, ne_of_mem_of_not_mem htext hline⟩
  refine ⟨fun c hc => ?_, ?_, ?_⟩
  · have hchar := extractString_chars hname (hsame.name ▸ hc)
    exact ⟨hchar.2, ne_of_mem_of_not_mem hchar.1 hline⟩
  · exact hclauses hsame.ensures fun r hr => List.mem_append_left _ hr
  · exact hclauses hsame.invariants fun r hr => List.mem_append_right _ hr

theorem ReadTexts.stored (h : ReadTexts v) (hv : v.hasDisproven = false) :
    Closed (entryOf v) ∧ OneLine (entryOf v) := by
  obtain ⟨hensures, hinvariants⟩ := isDisproven_of_hasDisproven hv
  have hfields : ∀ {results : List (List Char × VerifyResult)},
      (∀ r ∈ results, r.2.isDisproven = false) →
      (∀ r ∈ results, ∀ c ∈ r.1, c ≠ ']' ∧ c ≠ ',' ∧ c ≠ '\n') → ∀ r ∈ DiskCache.stored results,
        (IsTag r.2 ∧ ']' ∉ r.1 ∧ ',' ∉ r.1) ∧ '\n' ∉ r.1 ∧ '\n' ∉ r.2 := by
    intro results hresults hread
    refine stored_forall (P := fun c t => (IsTag t ∧ ']' ∉ c ∧ ',' ∉ c) ∧ '\n' ∉ c ∧ '\n' ∉ t)
      hresults fun r hr => ?_
    exact ⟨⟨isTag_resultTag r.2, fun hmem => (hread r hr _ hmem).1 rfl,
      fun hmem => (hread r hr _ hmem).2.1 rfl⟩, fun hmem => (hread r hr _ hmem).2.2 rfl,
      fun hmem => (tags_chars _ (resultTag_mem r.2) _ hmem).2.2 rfl⟩
  have hens := hfields hensures h.ensures
  have hinv := hfields hinvariants h.invariants
  exact ⟨⟨fun hmem => (h.name _ hmem).1 rfl, fun r hr => (hens r hr).1, fun r hr => (hinv r hr).1⟩,
    ⟨fun hmem => (h.name _ hmem).2 rfl, fun r hr => (hens r hr).2, fun r hr => (hinv r hr).2⟩⟩

theorem ReadTexts.clean (h : ReadTexts v) (hv : v.hasDisproven = false)
    (hclean : Clean (entryOf v)) : CleanTexts v := by
  obtain ⟨hensures, hinvariants⟩ := isDisproven_of_hasDisproven hv
  have hclauses : ∀ {results : List (List Char × VerifyResult)},
      (∀ r ∈ results, r.2.isDisproven = false) →
      (∀ r ∈ results, ∀ c ∈ r.1, c ≠ ']' ∧ c ≠ ',' ∧ c ≠ '\n') →
      (∀ r ∈ DiskCache.stored results, Plain r.1 ∧ Ascii r.1) →
      ∀ r ∈ results, ∀ c ∈ r.1, c.utf8Size = 1 ∧ c ∉ ['"', '[', ']', ',', '\n'] := by
    intro results hresults hread hplain r hr c hc
    rw [stored_eq hresults] at hplain
    obtain ⟨hp, ha⟩ := hplain _ (List.mem_map.mpr ⟨r, hr, rfl⟩)
    obtain ⟨hquote, hopen, hclose, hcomma⟩ := hp c hc
    refine ⟨ha c hc, ?_⟩
    simp only [List.mem_cons, List.not_mem_nil, or_false, not_or]
    exact ⟨hquote, hopen, hclose, hcomma, (hread r hr c hc).2.2⟩
  exact ⟨h.name, hclauses hensures h.ensures hclean.ensures,
    hclauses hinvariants h.invariants hclean.invariants⟩

/-- A cache that reads back as it was written has clean texts. -/
theorem clean_of_roundTrips (hperm : order.Perm (insertAll inserts).entries)
    (h : RoundTrips inserts order) : ∀ key v, lastStored inserts key = some v → CleanTexts v := by
  intro key v hlast
  obtain ⟨loaded, hload, hrel⟩ := h
  have hdirty : (insertAll inserts).dirty = true := by
    by_contra hdirty
    have hnil := dirty_insertAll inserts (by simpa using hdirty)
    have hentry := entryAt_insertAll inserts key
    rw [hlast, Option.map_some, entryAt_eq_some, hnil] at hentry
    cases hentry
  simp only [write, hdirty, if_true, load] at hload
  -- each stored verification was read from some line of the file
  have hread : ∀ key v, lastStored inserts key = some v → ∃ entry,
      SameVerdicts v (verificationOf entry) ∧ ∃ line ∈ Text.lines
        (order.flatMap fun e => Utf8.encode (renderLine e ++ ['\n'])), ∃ text,
        Utf8.decode line = some text ∧ parseLine text = .ok (some (key, entry)) := by
    intro key v hlast
    have hkey := hrel key
    rw [hlast, get_eq] at hkey
    cases hentry : loaded.entryAt key with
    | none =>
      rw [hentry] at hkey
      cases hkey
    | some entry =>
      rw [hentry] at hkey
      cases hkey with
      | some hsame =>
        obtain ⟨before, line, after, heq, hreads, -⟩ := (reads_of_load hload).mp hentry
        exact ⟨entry, hsame, line, by rw [heq]; simp, hreads⟩
  have htexts : ∀ key v, lastStored inserts key = some v → ReadTexts v := by
    intro key v hlast
    obtain ⟨entry, hsame, line, hline, text, hdecode, hparse⟩ := hread key v hlast
    refine readTexts_of_parseLine (fun hmem => ?_) hparse hsame
    have hbyte := (newline_mem_encode text).mpr hmem
    rw [Utf8.decode_eq_some.mp hdecode] at hbyte
    exact Text.not_mem_of_mem_lines hline hbyte
  have hstored : ∀ key v, lastStored inserts key = some v →
      Closed (entryOf v) ∧ OneLine (entryOf v) := fun key v hlast =>
    (htexts key v hlast).stored (lastStored_not_disproven hlast).2
  -- so every entry has a line of its own, and the one of this key was read from its line
  have hlines := lines_write fun e he => by
    obtain ⟨v, hlast, heq⟩ := (mem_order_iff hperm).mp (show (e.1, e.2) ∈ order from he)
    exact heq ▸ (hstored _ v hlast).2
  obtain ⟨entry, hsame, line, hline, text, hdecode, hparse⟩ := hread key v hlast
  rw [hlines] at hline
  obtain ⟨⟨k, e⟩, he, rfl⟩ := List.mem_map.mp hline
  obtain rfl : text = renderLine (k, e) :=
    Utf8.encode_injective (Utf8.decode_eq_some.mp hdecode)
  obtain rfl : k = key := by
    have hkey := (parseLine_eq_some.mp hparse).1
    rw [extractU64_renderLine] at hkey
    exact Option.some.inj hkey
  obtain ⟨v', hlast', rfl⟩ := (mem_order_iff hperm).mp he
  obtain rfl : v' = v := Option.some.inj (hlast'.symm.trans hlast)
  have hv := (lastStored_not_disproven hlast).2
  obtain ⟨hensures, hinvariants⟩ := isDisproven_of_hasDisproven hv
  refine (htexts k v' hlast).clean hv (clean_of_parseLine (hstored k v' hlast).1 hparse ?_ ?_)
  · exact (fst_of_kinds hsame.ensures).trans (fst_stored hensures).symm
  · exact (fst_of_kinds hsame.invariants).trans (fst_stored hinvariants).symm

end File

/-! ## The cache as a whole -/

theorem hasDisproven_verificationOf (entry : CacheEntry) :
    (verificationOf entry).hasDisproven = false := by
  have htag : ∀ tag, (parseResultTag tag).isDisproven = false := by
    intro tag
    unfold parseResultTag
    split_ifs <;> rfl
  simp [FunctionVerification.hasDisproven, verificationOf, htag]

/-- What the cache answers was inserted, and nothing of it was disproven. -/
theorem get_insertAll {inserts : List (UInt64 × FunctionVerification)} {key : UInt64}
    {w : FunctionVerification} (h : (insertAll inserts).get key = some w) :
    w.hasDisproven = false ∧
      ∃ v, (key, v) ∈ inserts ∧ v.hasDisproven = false ∧ SameVerdicts v w := by
  rw [get_eq, entryAt_insertAll, Option.map_map, Option.map_eq_some_iff] at h
  obtain ⟨v, hlast, rfl⟩ := h
  obtain ⟨hmem, hv⟩ := lastStored_not_disproven hlast
  exact ⟨hasDisproven_verificationOf _, v, hmem, hv, sameVerdicts_entryOf hv⟩

/-- Only the tag `Proven` reads as proven. -/
theorem parseResultTag_eq_proven {tag : List Char} (h : parseResultTag tag = .proven) :
    tag = "Proven".toList := by
  unfold parseResultTag at h
  split_ifs at h with hproven
  exact hproven

/-- A line of the file with the key holds the verdict as `clauses_to_json` writes it. -/
def ProvenWritten (content : List UInt8) (key : UInt64) (clause : List Char) : Prop :=
  ∃ line ∈ Text.lines content, ∃ text, Utf8.decode line = some text ∧
    extractU64 text "\"key\":".toList = some key ∧ pairToJson (clause, "Proven".toList) <:+: text

/-- The last readable line of the file with the key. -/
def LastWith (content : List UInt8) (key : UInt64) (text : List Char) : Prop :=
  ∃ before line after, Text.lines content = before ++ line :: after ∧
    Utf8.decode line = some text ∧ Readable text key ∧
    ∀ line' ∈ after, ∀ text', Utf8.decode line' = some text' → ¬ Readable text' key

theorem not_broken_of_load {content : List UInt8} {loaded : DiskCache}
    (hload : load (some content) = .ok loaded) {line : List UInt8}
    (hline : line ∈ Text.lines content)
    {text : List Char} (hdecode : Utf8.decode line = some text) :
      parseLine text ≠ .error .slice := by
  intro hbroken
  have herror : load (some content) = .error .slice :=
    foldlM_eq_error.mpr ⟨line, hline, text, hdecode, parseLine_eq_error.mp hbroken⟩
  rw [hload] at herror
  cases herror

/-- The entry loaded for a key is what the last readable line with that key says. -/
theorem entryAt_load {content : List UInt8} {loaded : DiskCache} {key : UInt64}
    {entry : CacheEntry} (hload : load (some content) = .ok loaded) :
    loaded.entryAt key = some entry ↔
      ∃ text, LastWith content key text ∧ parseLine text = .ok (some (key, entry)) := by
  have hreadable : ∀ line ∈ Text.lines content, ∀ text, Utf8.decode line = some text →
      (Readable text key ↔ ∃ e, parseLine text = .ok (some (key, e))) := fun line hline
        text hdecode =>
    readable_iff (not_broken_of_load hload hline hdecode)
  rw [reads_of_load hload]
  constructor
  · rintro ⟨before, line, after, heq, ⟨text, hdecode, hparse⟩, hlast⟩
    have hline : ∀ line' ∈ line :: after, line' ∈ Text.lines content := fun line' hmem => by
      rw [heq]
      exact List.mem_append_right _ hmem
    refine ⟨text, ⟨before, line, after, heq, hdecode, ?_, ?_⟩, hparse⟩
    · exact (hreadable line (hline line List.mem_cons_self) text hdecode).mpr ⟨entry, hparse⟩
    · intro line' hmem text' hdecode' hread
      obtain ⟨e, he⟩ :=
        (hreadable line' (hline line' (List.mem_cons_of_mem _ hmem)) text' hdecode').mp hread
      exact hlast line' hmem ⟨e, text', hdecode', he⟩
  · rintro ⟨text, ⟨before, line, after, heq, hdecode, -, hlast⟩, hparse⟩
    refine ⟨before, line, after, heq, ⟨text, hdecode, hparse⟩, ?_⟩
    rintro line' hmem ⟨e, text', hdecode', he⟩
    have hline : line' ∈ Text.lines content := by
      rw [heq]
      exact List.mem_append_right _ (List.mem_cons_of_mem _ hmem)
    exact hlast line' hmem text' hdecode' ((hreadable line' hline text' hdecode').mpr ⟨e, he⟩)

/-- A clause answers as proven just if its tag is `Proven`. -/
theorem mem_verificationOf {entry : CacheEntry} {clause : List Char} :
    (clause, VerifyResult.proven) ∈
        (verificationOf entry).ensuresResults ++ (verificationOf entry).invariantsResults ↔
      (clause, "Proven".toList) ∈ entry.ensuresResults ++ entry.invariantsResults := by
  simp only [verificationOf, ← List.map_append, List.mem_map, Prod.mk.injEq]
  constructor
  · rintro ⟨⟨c, t⟩, hr, rfl, htag⟩
    rwa [← parseResultTag_eq_proven htag]
  · exact fun h => ⟨_, h, rfl, rfl⟩

/-- The parts of a pair stand in quotation marks, and there are no others. -/
def Quoted (p q : List Char) : Prop :=
  ∃ clause tag, '"' ∉ clause ∧ '"' ∉ tag ∧ p = '"' :: clause ++ ['"'] ∧ q = '"' :: tag ++ ['"']

theorem Quoted.pairToJson_eq {p q : List Char} (h : Quoted p q) :
    pairToJson (unquote p, unquote q) = '[' :: (p ++ ',' :: q ++ [']']) := by
  obtain ⟨clause, tag, hclause, htag, rfl, rfl⟩ := h
  have hunquote : ∀ {text : List Char}, '"' ∉ text → unquote ('"' :: text ++ ['"']) = text :=
    fun {text} hmem => by
      have hquoted := (unquote_quoted_iff text).mpr hmem
      rwa [escapeQuotes_eq hmem] at hquoted
  rw [hunquote hclause, hunquote htag, DiskCache.pairToJson_eq, escapeQuotes_eq hclause,
    escapeQuotes_eq htag]
  simp

theorem LastWith.mem {content : List UInt8} {key : UInt64} {text : List Char}
    (h : LastWith content key text) : ∃ line ∈ Text.lines content, Utf8.decode line = some text ∧
      Readable text key := by
  obtain ⟨before, line, after, heq, hdecode, hread, -⟩ := h
  exact ⟨line, by simp [heq], hdecode, hread⟩

/-- Nothing is loaded as proven that is not written so if and only if each pair that is read as
proven, in a line that counts, stands in quotation marks or is written so elsewhere. -/
theorem proven_iff {content : List UInt8} {loaded : DiskCache}
    (hload : load (some content) = .ok loaded) :
    (∀ key w clause, loaded.get key = some w →
        (clause, VerifyResult.proven) ∈ w.ensuresResults ++ w.invariantsResults →
        ProvenWritten content key clause) ↔
      ∀ key text, LastWith content key text → ∀ p q, PairIn text p q →
        unquote q = "Proven".toList → Quoted p q ∨ ProvenWritten content key (unquote p) := by
  constructor
  · intro h key text hlast p q hpair hq
    obtain ⟨line, hline, hdecode, hread⟩ := hlast.mem
    obtain ⟨entry, hparse⟩ := (readable_iff (not_broken_of_load hload hline hdecode)).mp hread
    have hentry := (entryAt_load hload).mpr ⟨text, hlast, hparse⟩
    refine Or.inr (h key (verificationOf entry) _ ?_ (mem_verificationOf.mpr ?_))
    · rw [get_eq, hentry, Option.map_some]
    · rw [← hq]
      exact (mem_parseLine hparse).mpr ⟨p, q, hpair, rfl⟩
  · intro h key w clause hget hproven
    rw [get_eq, Option.map_eq_some_iff] at hget
    obtain ⟨entry, hentry, rfl⟩ := hget
    obtain ⟨text, hlast, hparse⟩ := (entryAt_load hload).mp hentry
    obtain ⟨p, q, hpair, heq⟩ := (mem_parseLine hparse).mp (mem_verificationOf.mp hproven)
    obtain ⟨rfl, hq⟩ := Prod.mk.inj heq
    rcases h key text hlast p q hpair hq.symm with hquoted | hwritten
    · obtain ⟨line, hline, hdecode, hread⟩ := hlast.mem
      refine ⟨line, hline, text, hdecode, hread.1, ?_⟩
      rw [hq, hquoted.pairToJson_eq]
      exact hpair.isInfix
    · exact hwritten

/-- One function with the clause `(= result "a")`, proven. -/
def quotedClause : List (UInt64 × FunctionVerification) :=
  [(1, ⟨"f".toList, [("(= result \"a\")".toList, .proven)], []⟩)]

/-- One function with the clause `(= result "a,Proven]")`, undecided. -/
def shiftedClause : List (UInt64 × FunctionVerification) :=
  [(1, ⟨"f".toList, [("(= result \"a,Proven]\")".toList, .unknown [])], []⟩)]

theorem shifted_proven : (load (write (insertAll shiftedClause) (insertAll shiftedClause).entries
    none)).map (fun cache => cache.get 1) =
      .ok (some ⟨"f".toList, [("(= result \\\"a".toList, .proven)], []⟩) := by
  decide +kernel

end DiskCache

end Airl.Solver
