import Airl.Library.Text
import Airl.Solver.Z3Cache
import Mathlib.Data.Set.Function

/-! # What the proof cache returns over a history of builds

A history verifies definitions, saves the cache and loads it again, in any order.
Every verdict it returns was given for the very definition it is returned for if
names hold no `|` and no two definitions of the history that differ have one hash.
-/

namespace Airl.Solver.Z3Cache

open Airl.Json (mapSet lookup_mapSet)

inductive Step where
  | verify (d : Defn) (z3 : Verdict)
  | save
  | load

/-- A result that was returned for a definition; `z3` holds what
`z3-verify-function` answered if it was called. -/
structure Event where
  defn : Defn
  verdict : String
  z3 : Option Verdict

/-- The cache in memory, the file, and what was returned so far. -/
structure State where
  cache : Cache
  file : Option (List Char)
  events : List Event

def start : State := ⟨makeEmpty, none, []⟩

section Run

variable (B : Builtins)

def step (s : State) : Step → State
  | .verify d z3 =>
    let answer := verifyWithCache B d s.cache z3
    ⟨answer.cache, s.file,
      s.events ++ [⟨d, answer.verdict, if answer.hit then none else some z3⟩]⟩
  | .save => { s with file := save s.file s.cache }
  | .load => { s with cache := load s.file }

def run (steps : List Step) : State := steps.foldl (step B) start

/-- Every returned verdict is one that `z3-verify-function` gave for the same definition. -/
def Sound (events : List Event) : Prop :=
  ∀ e ∈ events, ∃ e' ∈ events, ∃ z3, e'.z3 = some z3 ∧ e'.defn = e.defn ∧ z3.text = e.verdict

/-- Every history that verifies definitions of `D` is sound. -/
def SoundOver (D : Set Defn) : Prop :=
  ∀ steps, (∀ d z3, Step.verify d z3 ∈ steps → d ∈ D) → Sound (run B steps).events

end Run

variable {B : Builtins} {D : Set Defn} {events events' : List Event} {cache : Cache}
variable {hash name result : String} {line : List Char} {d : Defn}

theorem Builtins.not_mem_sha256 (B : Builtins) (text : List Char) {c : Char}
    (hc : c ∉ "0123456789abcdef".toList) : c ∉ (B.sha256 text).toList :=
  fun hmem => hc (B.sha256_hex text c hmem)

theorem pipe_not_mem_computeHash (d : Defn) : '|' ∉ (computeHash B d).toList :=
  B.not_mem_sha256 _ (by simp)

theorem newline_not_mem_computeHash (d : Defn) : '\n' ∉ (computeHash B d).toList :=
  B.not_mem_sha256 _ (by simp)

theorem Verdict.pipe_not_mem_text (z3 : Verdict) : '|' ∉ z3.text.toList := by
  cases z3 <;> simp [text]

theorem Verdict.newline_not_mem_text (z3 : Verdict) : '\n' ∉ z3.text.toList := by
  cases z3 <;> simp [text]

/-- The three texts were stored for a definition that was verified. -/
def Stored (B : Builtins) (events : List Event) (hash name result : String) : Prop :=
  ∃ e ∈ events, ∃ z3, e.z3 = some z3 ∧ computeHash B e.defn = hash ∧ e.defn.name = name ∧
    z3.text = result

/-- What loading takes from the line was stored. -/
def Readable (B : Builtins) (events : List Event) (line : List Char) : Prop :=
  ∀ hash name result rest, line.splitOn '|' = hash :: name :: result :: rest →
    Stored B events (String.ofList hash) (String.ofList name) (String.ofList result)

/-- A stored verdict stays stored as the history grows. -/
theorem Stored.mono (h : Stored B events hash name result) (hsub : events ⊆ events') :
    Stored B events' hash name result := by
  obtain ⟨e, he, hstored⟩ := h
  exact ⟨e, hsub he, hstored⟩

/-- A line with too few bars is no entry. -/
theorem readable_of_count (h : line.count '|' < 2) : Readable B events line := by
  intro hash name result rest hparts
  have hlength := Text.length_splitOn '|' line
  rw [hparts, List.length_cons, List.length_cons, List.length_cons] at hlength
  omega

/-- A line end in the name leaves no part of the line with two `|`. -/
theorem Stored.readable (h : Stored B events hash name result) (hname : '|' ∉ name.toList) :
    ∀ line ∈ (hash.toList ++ '|' :: name.toList ++ '|' :: result.toList).splitOn '\n',
      Readable B events line := by
  intro line hline
  have hstored := h
  obtain ⟨e, -, z3, -, rfl, -, rfl⟩ := h
  have hhash := pipe_not_mem_computeHash (B := B) e.defn
  have hresult := z3.pipe_not_mem_text
  by_cases hnewline : '\n' ∈ name.toList
  · obtain ⟨front, back, hsplit⟩ := List.append_of_mem hnewline
    rw [hsplit] at hname hline
    simp only [List.mem_append, List.mem_cons, not_or] at hname
    have hwhole : (computeHash B e.defn).toList ++ '|' :: (front ++ '\n' :: back) ++
        '|' :: z3.text.toList = ((computeHash B e.defn).toList ++ '|' :: front) ++
          '\n' :: (back ++ '|' :: z3.text.toList) := by
      simp
    rw [hwhole, List.splitOn_append_cons_self, List.mem_append] at hline
    apply readable_of_count
    rcases hline with hline | hline
    · have := (Text.sublist_of_mem_splitOn hline).count_le '|'
      rw [List.count_append, List.count_cons_self, List.count_eq_zero.mpr hhash,
        List.count_eq_zero.mpr hname.1] at this
      omega
    · have := (Text.sublist_of_mem_splitOn hline).count_le '|'
      rw [List.count_append, List.count_cons_self, List.count_eq_zero.mpr hresult,
        List.count_eq_zero.mpr hname.2.2] at this
      omega
  · have hnot : '\n' ∉ (computeHash B e.defn).toList ++ '|' :: name.toList ++
        '|' :: z3.text.toList := by
      simp [newline_not_mem_computeHash, hnewline, z3.newline_not_mem_text]
    rw [List.splitOn_eq_singleton hnot, List.mem_singleton] at hline
    subst hline
    intro h' n r rest hparts
    rw [List.append_assoc, List.cons_append, List.splitOn_append_cons_self_of_not_mem hhash,
      List.splitOn_append_cons_self_of_not_mem hname, List.splitOn_eq_singleton hresult] at hparts
    injection hparts with h1 hparts
    injection hparts with h2 hparts
    injection hparts with h3 _
    subst h1 h2 h3
    simpa using hstored

/-- Every cached result was stored under its hash for the definition it is named after. -/
def Faithful (B : Builtins) (events : List Event) (cache : Cache) : Prop :=
  ∀ hash result, cache.results.lookup hash = some result →
    ∃ name, cache.names.lookup hash = some name ∧ Stored B events hash name result

theorem Faithful.mono (h : Faithful B events cache) (hsub : events ⊆ events') :
    Faithful B events' cache := by
  intro hash result hresult
  obtain ⟨name, hname, hstored⟩ := h hash result hresult
  exact ⟨name, hname, hstored.mono hsub⟩

theorem faithful_makeEmpty : Faithful B events makeEmpty := by
  intro hash result hresult
  cases hresult

/-- Putting a stored verdict keeps the cache faithful. -/
theorem Faithful.set (h : Faithful B events cache) (hstored : Stored B events hash name result) :
    Faithful B events ⟨mapSet cache.results hash result, mapSet cache.names hash name⟩ := by
  intro hash' result' hresult
  simp only [lookup_mapSet] at hresult ⊢
  by_cases hhash : hash' = hash
  · rw [if_pos hhash] at hresult ⊢
    cases hresult
    exact ⟨name, rfl, hhash ▸ hstored⟩
  · rw [if_neg hhash] at hresult ⊢
    exact h hash' result' hresult

/-- A readable line keeps the cache faithful. -/
theorem Faithful.parseLine (h : Faithful B events cache) (hline : Readable B events line) :
    Faithful B events (parseLine line cache) := by
  unfold Z3Cache.parseLine
  split
  · exact h
  · split
    · next hash name result rest hparts => exact h.set (hline hash name result rest hparts)
    · exact h

theorem Faithful.parseLines {lines : List (List Char)} (h : Faithful B events cache)
    (hlines : ∀ line ∈ lines, Readable B events line) :
    Faithful B events (parseLines lines cache) := by
  induction lines generalizing cache with
  | nil => exact h
  | cons line lines ih =>
    rw [Z3Cache.parseLines]
    exact ih (h.parseLine (hlines line (by simp))) fun l hl => hlines l (by simp [hl])

/-- Every line of the file is readable. -/
def ReadableFile (B : Builtins) (events : List Event) (file : Option (List Char)) : Prop :=
  ∀ content, file = some content → ∀ line ∈ content.splitOn '\n', Readable B events line

theorem Readable.mono (h : Readable B events line) (hsub : events ⊆ events') :
    Readable B events' line :=
  fun hash name result rest hparts => (h hash name result rest hparts).mono hsub

/-- A readable file loads as a faithful cache. -/
theorem faithful_load {file : Option (List Char)} (h : ReadableFile B events file) :
    Faithful B events (load file) := by
  cases file with
  | none => exact faithful_makeEmpty
  | some content => exact faithful_makeEmpty.parseLines (h content rfl)

theorem readable_nil : Readable B events [] := readable_of_count (by simp)

/-- The lines of a faithful cache are readable. -/
theorem readable_buildLines {keys : List String} {acc : List Char}
    (hcache : Faithful B events cache) (hplain : ∀ e ∈ events, '|' ∉ e.defn.name.toList)
    (hkeys : ∀ key ∈ keys, (cache.results.lookup key).isSome)
    (hacc : ∀ line ∈ acc.splitOn '\n', Readable B events line) :
    ∀ line ∈ (buildLines cache keys acc).splitOn '\n', Readable B events line := by
  induction keys generalizing acc with
  | nil => exact hacc
  | cons key keys ih =>
    rw [buildLines]
    refine ih (fun k hk => hkeys k (by simp [hk])) ?_
    obtain ⟨result, hresult⟩ := Option.isSome_iff_exists.mp (hkeys key (by simp))
    obtain ⟨name, hname, hstored⟩ := hcache key result hresult
    have hplainName : '|' ∉ name.toList := by
      obtain ⟨e, he, _, _, _, rfl, _⟩ := hstored
      exact hplain e he
    have hbuilt : ∀ line ∈ (buildLine cache key).splitOn '\n', Readable B events line := by
      rw [buildLine, hname, hresult]
      exact hstored.readable hplainName
    split
    · exact hbuilt
    · intro line hline
      rw [List.splitOn_append_cons_self, List.mem_append] at hline
      exact hline.elim (hacc line) (hbuilt line)

theorem lookup_isSome_of_mem {m : List (String × String)} {key : String}
    (h : key ∈ m.map Prod.fst) : (m.lookup key).isSome := by
  induction m with
  | nil => cases h
  | cons e m ih =>
    rw [Airl.Json.lookup_cons_if]
    split
    · rfl
    · next hne =>
      rw [List.map_cons, List.mem_cons] at h
      exact ih (h.resolve_left hne)

/-- Saving a faithful cache keeps the file readable. -/
theorem readableFile_save {file : Option (List Char)} (hfile : ReadableFile B events file)
    (hcache : Faithful B events cache) (hplain : ∀ e ∈ events, '|' ∉ e.defn.name.toList) :
    ReadableFile B events (save file cache) := by
  unfold save
  dsimp only
  split
  · exact hfile
  · intro content hcontent line hline
    cases hcontent
    rw [List.splitOn_append_cons_self, List.mem_append] at hline
    rcases hline with hline | hline
    · exact readable_buildLines hcache hplain (fun key hkey => lookup_isSome_of_mem hkey)
        (fun line hline => by
          obtain rfl : line = [] := by simpa using hline
          exact readable_nil) line hline
    · obtain rfl : line = [] := by simpa using hline
      exact readable_nil

variable {s : State} {z3 : Verdict}

/-- A definition whose hash is new is verified and its verdict kept. -/
theorem step_miss (h : s.cache.results.lookup (computeHash B d) = none) :
    step B s (.verify d z3) = ⟨put s.cache (computeHash B d) d.name z3.text, s.file,
      s.events ++ [⟨d, z3.text, some z3⟩]⟩ := by
  simp [step, verifyWithCache, lookup, h]

/-- A definition whose hash is known is answered from the cache. -/
theorem step_hit (h : s.cache.results.lookup (computeHash B d) = some result) :
    step B s (.verify d z3) = ⟨s.cache, s.file, s.events ++ [⟨d, result, none⟩]⟩ := by
  simp [step, verifyWithCache, lookup, h]

/-- What holds after every history whose definitions meet the condition. -/
structure Inv (B : Builtins) (D : Set Defn) (s : State) : Prop where
  defns : ∀ e ∈ s.events, e.defn ∈ D
  cache : Faithful B s.events s.cache
  file : ReadableFile B s.events s.file
  sound : Sound s.events

theorem inv_start : Inv B D start where
  defns := by
    intro e he
    cases he
  cache := faithful_makeEmpty
  file := by
    intro content hcontent
    cases hcontent
  sound := by
    intro e he
    cases he

theorem Sound.append {e : Event} (h : Sound events)
    (he : ∃ e' ∈ events ++ [e], ∃ z3, e'.z3 = some z3 ∧ e'.defn = e.defn ∧ z3.text = e.verdict) :
    Sound (events ++ [e]) := by
  intro f hf
  rcases List.mem_append.mp hf with hf | hf
  · obtain ⟨e', he', hgiven⟩ := h f hf
    exact ⟨e', List.mem_append_left _ he', hgiven⟩
  · obtain rfl : f = e := by simpa using hf
    exact he

/-- A verification keeps the invariant, from the cache or from the solver. -/
theorem Inv.verify (h : Inv B D s) (hd : d ∈ D) (hhash : D.InjOn (computeHash B))
    (z3 : Verdict) : Inv B D (step B s (.verify d z3)) := by
  have hdefns : ∀ e : Event, e.defn = d → ∀ f ∈ s.events ++ [e], f.defn ∈ D := by
    intro e he f hf
    rcases List.mem_append.mp hf with hf | hf
    · exact h.defns f hf
    · obtain rfl : f = e := by simpa using hf
      exact he ▸ hd
  cases hlookup : s.cache.results.lookup (computeHash B d) with
  | none =>
    have hsub : s.events ⊆ s.events ++ [⟨d, z3.text, some z3⟩] := List.subset_append_left _ _
    have hlast : (⟨d, z3.text, some z3⟩ : Event) ∈ s.events ++ [⟨d, z3.text, some z3⟩] :=
      List.mem_append_right _ List.mem_cons_self
    rw [step_miss hlookup]
    refine ⟨hdefns _ rfl, ?_, fun content hcontent line hline =>
      (h.file content hcontent line hline).mono hsub, h.sound.append ⟨_, hlast, z3, rfl, rfl, rfl⟩⟩
    show Faithful B _ (put s.cache _ _ _)
    unfold put
    split
    · exact h.cache.mono hsub
    · exact (h.cache.mono hsub).set ⟨_, hlast, z3, rfl, rfl, rfl, rfl⟩
  | some cached =>
    have hsub : s.events ⊆ s.events ++ [⟨d, cached, none⟩] := List.subset_append_left _ _
    rw [step_hit hlookup]
    refine ⟨hdefns _ rfl, h.cache.mono hsub, fun content hcontent line hline =>
      (h.file content hcontent line hline).mono hsub, h.sound.append ?_⟩
    obtain ⟨_, -, e, he, given, hgiven, hsame, -, htext⟩ := h.cache _ _ hlookup
    exact ⟨e, hsub he, given, hgiven, hhash (h.defns e he) hd hsame, htext⟩

/-- Every step keeps the invariant. -/
theorem Inv.step (h : Inv B D s) (hhash : D.InjOn (computeHash B))
    (hplain : ∀ d ∈ D, '|' ∉ d.name.toList) (st : Step)
    (hst : ∀ d z3, st = .verify d z3 → d ∈ D) : Inv B D (step B s st) := by
  cases st with
  | verify d z3 => exact h.verify (hst d z3 rfl) hhash z3
  | save =>
    exact ⟨h.defns, h.cache,
      readableFile_save h.file h.cache fun e he => hplain _ (h.defns e he), h.sound⟩
  | load => exact ⟨h.defns, faithful_load h.file, h.file, h.sound⟩

/-- With hashes that tell the definitions apart every history is sound. -/
theorem soundOver_of_injOn (hhash : D.InjOn (computeHash B))
    (hplain : ∀ d ∈ D, '|' ∉ d.name.toList) : SoundOver B D := by
  have hrun : ∀ (steps : List Step) s, (∀ d z3, Step.verify d z3 ∈ steps → d ∈ D) →
      Inv B D s → Inv B D (steps.foldl (step B) s) := by
    intro steps
    induction steps with
    | nil => exact fun _ _ hs => hs
    | cons st steps ih =>
      intro s hsteps hs
      exact ih _ (fun d z3 hmem => hsteps d z3 (List.mem_cons_of_mem _ hmem))
        (hs.step hhash hplain st fun d z3 hst => hsteps d z3 (hst ▸ List.mem_cons_self))
  exact fun steps hsteps => (hrun steps start hsteps inv_start).sound

/-- The second of two definitions with one hash gets the verdict of the first. -/
theorem injOn_of_soundOver (h : SoundOver B D) : D.InjOn (computeHash B) := by
  intro d hd d' hd' hhash
  have hrun : (run B [.verify d .proven, .verify d' .disproven]).events =
      [⟨d, "proven", some .proven⟩, ⟨d', "proven", none⟩] := by
    simp [run, step, start, verifyWithCache, lookup, makeEmpty, put, Verdict.text, mapSet, hhash]
  have hsound := h [.verify d .proven, .verify d' .disproven] (by
    intro e z3 hmem
    simp only [List.mem_cons, Step.verify.injEq, List.not_mem_nil, or_false] at hmem
    rcases hmem with ⟨rfl, -⟩ | ⟨rfl, -⟩
    · exact hd
    · exact hd')
  rw [hrun] at hsound
  obtain ⟨e, he, z3, hgiven, hdefn, -⟩ := hsound ⟨d', "proven", none⟩ (by simp)
  rcases List.mem_cons.mp he with rfl | he
  · exact hdefn
  · obtain rfl : e = ⟨d', "proven", none⟩ := by simpa using he
    cases hgiven

/-- The text between the first two `|` of the name is loaded as the verdict. -/
theorem pipe_not_mem_of_soundOver (h : SoundOver B D) (hd : d ∈ D)
    (hline : '\n' ∉ d.name.toList) : '|' ∉ d.name.toList := by
  intro hpipe
  obtain ⟨front, back, hname, hfront⟩ := List.eq_append_cons_of_mem hpipe
  obtain ⟨piece, pieces, hback⟩ := List.exists_cons_of_ne_nil (List.splitOn_ne_nil '|' back)
  -- A verdict that is kept, and is not what the line reads as.
  obtain ⟨z3, hz3, hkept⟩ : ∃ z3 : Verdict, z3.text ≠ String.ofList piece ∧
      z3.text ≠ "disproven" := by
    by_cases hproven : String.ofList piece = "proven"
    · exact ⟨.unknown, by simp [Verdict.text, hproven], by simp [Verdict.text]⟩
    · exact ⟨.proven, fun heq => hproven heq.symm, by simp [Verdict.text]⟩
  have hhash := newline_not_mem_computeHash (B := B) d
  have hnot : '\n' ∉ (computeHash B d).toList ++ '|' :: d.name.toList ++ '|' :: z3.text.toList := by
    simp [hhash, hline, z3.newline_not_mem_text]
  have hparts : ((computeHash B d).toList ++ '|' :: d.name.toList ++ '|' :: z3.text.toList).splitOn
      '|' = (computeHash B d).toList :: front :: piece ::
        (pieces ++ z3.text.toList.splitOn '|') := by
    rw [hname, List.append_assoc, List.cons_append, List.append_assoc, List.cons_append,
      List.splitOn_append_cons_self_of_not_mem (pipe_not_mem_computeHash d),
      List.splitOn_append_cons_self_of_not_mem hfront, List.splitOn_append_cons_self, hback,
      List.cons_append]
  have hloaded : (load (save none ⟨[(computeHash B d, z3.text)],
      [(computeHash B d, d.name)]⟩)).results.lookup (computeHash B d) =
        some (String.ofList piece) := by
    have hline : (buildLine ⟨[(computeHash B d, z3.text)], [(computeHash B d, d.name)]⟩
        (computeHash B d)) = (computeHash B d).toList ++ '|' :: d.name.toList ++
          '|' :: z3.text.toList := by
      simp [buildLine]
    have hlines := List.splitOn_append_cons_self_of_not_mem hnot ([] : List Char)
    simp only [save, List.map_cons, List.map_nil, List.cons_ne_nil, if_false, load, buildLines,
      if_true, hline, hlines, List.splitOn_nil, parseLines, parseLine, hparts]
    simp [mapSet, makeEmpty]
  -- Verified, saved, loaded, and answered from the cache with a piece of the name.
  have hsound := h [.verify d z3, .save, .load, .verify d .disproven] (by
    intro e z3' hmem
    simp only [List.mem_cons, Step.verify.injEq, List.not_mem_nil, or_false, reduceCtorEq,
      false_or] at hmem
    rcases hmem with ⟨rfl, -⟩ | ⟨rfl, -⟩ <;> exact hd)
  have hrun : (run B [.verify d z3, .save, .load, .verify d .disproven]).events =
      [⟨d, z3.text, some z3⟩, ⟨d, String.ofList piece, none⟩] := by
    have hput : put makeEmpty (computeHash B d) d.name z3.text =
        ⟨[(computeHash B d, z3.text)], [(computeHash B d, d.name)]⟩ := by
      simp [put, hkept, mapSet, makeEmpty]
    rw [run, List.foldl_cons, step_miss (s := start) rfl, start, hput]
    simp only [List.foldl_cons, List.foldl_nil]
    rw [step_hit hloaded]
    rfl
  rw [hrun] at hsound
  obtain ⟨e, he, given, hgiven, -, htext⟩ := hsound ⟨d, String.ofList piece, none⟩ (by simp)
  rcases List.mem_cons.mp he with rfl | he
  · cases hgiven
    exact hz3 htext
  · obtain rfl : e = ⟨d, String.ofList piece, none⟩ := by simpa using he
    cases hgiven

/-- Histories over `D` are sound if no name holds `|` and no hash is shared. Both are needed; for
names with a line end, which the lexer never makes, only the second is shown to be. -/
theorem verifyWithCache_sound (B : Builtins) (D : Set Defn) :
    ((∀ d ∈ D, '|' ∉ d.name.toList) ∧ D.InjOn (computeHash B) → SoundOver B D) ∧
      (SoundOver B D →
        (∀ d ∈ D, '\n' ∉ d.name.toList → '|' ∉ d.name.toList) ∧ D.InjOn (computeHash B)) := by
  refine ⟨fun h => soundOver_of_injOn h.2 h.1, fun h => ⟨?_, injOn_of_soundOver h⟩⟩
  exact fun d hd hline => pipe_not_mem_of_soundOver h hd hline

/-- `f` with a contract it meets. -/
def original : Defn :=
  ⟨"f", [], [.variant "ASTBool" (.list [.bool true, .int 1, .int 1])], [], .int 1⟩

/-- `f` after an edit of its body. -/
def edited : Defn := { original with body := .int 2 }

/-- An edited body has the hash of the old one, and is answered with its verdict. -/
theorem not_sound_edited : ¬ ∃ B, SoundOver B {original, edited} := by
  rintro ⟨B, h⟩
  have hbody := injOn_of_soundOver h (Set.mem_insert original {edited})
    (Set.mem_insert_of_mem original rfl) rfl
  have hvalue : (Value.int 1 : Node) = .int 2 := congrArg Defn.body hbody
  injection hvalue with hone
  cases hone

end Airl.Solver.Z3Cache
