import Airl.Driver.Resolver
import Airl.Library.Dependencies
import Mathlib.Data.List.Perm.Subperm

/-! # What import resolution returns

A module imports another if the path of an import leads to it. All that is reachable from the entry
is returned in an order of its dependencies, or there is a reason: a module that imports itself,
directly or not, or a module that is broken.
-/

namespace Airl.Resolver

open Paths Dependencies Relation

section Graph

variable (project : Project) (root : Location)

/-- The module in a file. -/
def moduleAt (loc : Location) : Option (List Top) :=
  match project.fs.find loc with
  | some (.file (some text)) => (project.parseFile text).toOption
  | _ => none

/-- Where an import in the module at `v` leads, if that is allowed. -/
def Target (v : Location) (path : List Char) (w : Location) : Prop :=
  ¬ refused path ∧
    canonicalize project.fs project.cwd (join (render v.dropLast) path) = some w ∧ root <+: w

def Imports (v w : Location) : Prop :=
  ∃ tops path alias_ only, moduleAt project v = some tops ∧
    Top.importFile path alias_ only ∈ tops ∧ Target project root v path w

/-- The file cannot be read or parsed, or an import in it leads nowhere, out of the project, or is
refused as it is written. -/
def Broken (v : Location) : Prop :=
  moduleAt project v = none ∨
    ∃ tops path alias_ only, moduleAt project v = some tops ∧
      Top.importFile path alias_ only ∈ tops ∧ ∀ w, ¬ Target project root v path w

def Reaches (entry v : Location) : Prop := ReflTransGen (Imports project root) entry v

def CycleReachable (entry : Location) : Prop :=
  ∃ v, Reaches project root entry v ∧ TransGen (Imports project root) v v

def BrokenReachable (entry : Location) : Prop :=
  ∃ v, Reaches project root entry v ∧ Broken project root v

/-- The reason for an error. -/
def Explained (entry : Location) : ResolveError → Prop
  | .circularDependency _ => CycleReachable project root entry
  | _ => BrokenReachable project root entry

end Graph

def State.paths (st : State) : List Location := st.resolved.map ResolvedModule.path

/-- Every module that is reachable is returned once, as it is parsed, behind what it imports, and no
other. -/
structure Resolves (project : Project) (root entry : Location) (st : State) : Prop where
  members : ∀ v, v ∈ st.paths ↔ Reaches project root entry v
  once : st.paths.Nodup
  parsed : ∀ m ∈ st.resolved, moduleAt project m.path = some m.tops
  behind : ∀ front v back, st.paths = front ++ v :: back → ∀ w, Imports project root v w → w ∈ front
  last : st.paths.getLast? = some entry
  inside : ∀ v ∈ st.paths, root <+: v

/-! ## One module -/

variable {project : Project} {root entry v w : Location} {st st' : State} {stack : List Location}
variable {path filePath : List Char}

theorem canonicalize_again (h : canonicalize project.fs project.cwd filePath = some v) :
    canonicalize project.fs project.cwd (render v) = some v :=
  canonicalize_render project.cwd_directory h

theorem startsWith_found (h : canonicalize project.fs project.cwd filePath = some v) :
    startsWith (render v) root = true ↔ root <+: v := by
  obtain ⟨hlocate, -⟩ := canonicalize_eq_some.mp h
  exact startsWith_render (resolved_of_locate project.cwd_directory hlocate).names

theorem moduleAt_of_read (h : canonicalize project.fs project.cwd filePath = some v) :
    moduleAt project v = (readToString project (render v)).bind fun source =>
      (project.parseFile source).toOption := by
  unfold moduleAt readToString
  rw [canonicalize_again h, Option.bind_some]
  cases hfind : project.fs.find v with
  | none => rfl
  | some node =>
    cases node with
    | dir => rfl
    | link target => rfl
    | file text =>
      cases text with
      | none => rfl
      | some source => rfl

/-- What has been loaded is in order. -/
structure Loaded (project : Project) (root entry : Location) (st : State) : Prop where
  visited : ∀ v, v ∈ st.visited ↔ v ∈ st.paths
  ordered : Ordered (Imports project root) st.paths
  parsed : ∀ m ∈ st.resolved, moduleAt project m.path = some m.tops
  sound : ∀ v ∈ st.paths, ¬ Broken project root v
  inside : ∀ v ∈ st.paths, root <+: v
  reached : ∀ v ∈ st.paths, Reaches project root entry v

/-- More has been loaded, and nothing that is being loaded. -/
structure Grown (stack : List Location) (st st' : State) : Prop where
  before : st.paths <+: st'.paths
  fresh : ∀ w ∈ st'.paths, w ∈ st.paths ∨ w ∉ stack

theorem Grown.refl (stack : List Location) (st : State) : Grown stack st st :=
  ⟨List.prefix_refl _, fun _ hw => .inl hw⟩

theorem Grown.trans {st'' : State} (h : Grown stack st st') (h' : Grown stack st' st'') :
    Grown stack st st'' := by
  refine ⟨h.before.trans h'.before, ?_⟩
  intro w hw
  rcases h'.fresh w hw with hw | hw
  · exact h.fresh w hw
  · exact .inr hw

/-- What loading the module at `v` comes to. -/
structure VisitSpec (project : Project) (root entry : Location) (stack : List Location)
    (v : Location)
    (st : State) (r : Except Halt State) : Prop where
  ok : ∀ st', r = .ok st' → Loaded project root entry st' ∧ Grown stack st st' ∧ v ∈ st'.paths ∧
    (v ∉ st.paths → st'.paths.getLast? = some v)
  error : ∀ e, r = .error (.error e) → Explained project root entry e

/-! ## The imports of a module -/

section Loop

variable {visit : List Char → State → Except Halt State} {tops all : List Top}
variable {directives directives' : List ImportDirective}

theorem importLoop_spec (hmodule : moduleAt project v = some all)
    (hreach : Reaches project root entry v)
    (hvisit : ∀ filePath w st, canonicalize project.fs project.cwd filePath = some w →
      Imports project root v w → Loaded project root entry st →
      VisitSpec project root entry (stack ++ [v]) w st (visit filePath st))
    (hsub : ∀ top ∈ tops, top ∈ all) (hloaded : Loaded project root entry st) :
    (∀ st' directives', importLoop project visit root v.dropLast tops st directives =
        .ok (st', directives') →
      Loaded project root entry st' ∧ Grown (stack ++ [v]) st st' ∧
        ∀ path alias_ only, Top.importFile path alias_ only ∈ tops →
          ∃ w, Target project root v path w ∧ w ∈ st'.paths) ∧
    ∀ e, importLoop project visit root v.dropLast tops st directives = .error (.error e) →
      Explained project root entry e := by
  induction tops generalizing st directives with
  | nil =>
    refine ⟨?_, ?_⟩
    · intro st' directives' h
      cases h
      refine ⟨hloaded, Grown.refl _ _, ?_⟩
      intro path alias_ only hmem
      cases hmem
    · intro e h
      cases h
  | cons top tops ih =>
    have hlater := fun t ht => hsub t (List.mem_cons_of_mem top ht)
    cases top with
    | importFile path alias_ only =>
      have hmem := hsub (.importFile path alias_ only) List.mem_cons_self
      -- What is refused, not found or outside of the root has no target.
      have hbroken (hno : ∀ w, ¬ Target project root v path w) :
          BrokenReachable project root entry :=
        ⟨v, hreach, .inr ⟨all, path, alias_, only, hmodule, hmem, hno⟩⟩
      rw [importLoop]
      by_cases hrefused : refused path
      · rw [if_pos hrefused]
        refine ⟨fun st' directives' h => (by cases h), ?_⟩
        intro e h
        cases h
        exact hbroken fun w hw => hw.1 hrefused
      rw [if_neg hrefused]
      cases hfound : canonicalize project.fs project.cwd (join (render v.dropLast) path) with
      | none =>
        refine ⟨fun st' directives' h => (by cases h), ?_⟩
        intro e h
        cases h
        apply hbroken
        intro w hw
        have hfound' := hw.2.1
        rw [hfound] at hfound'
        cases hfound'
      | some w =>
        dsimp only
        by_cases hinside : startsWith (render w) root = false
        · rw [if_pos hinside]
          refine ⟨fun st' directives' h => (by cases h), ?_⟩
          intro e h
          cases h
          apply hbroken
          intro w' hw'
          have hfound' := hw'.2.1
          rw [hfound] at hfound'
          cases hfound'
          rw [(startsWith_found hfound).mpr hw'.2.2] at hinside
          cases hinside
        rw [if_neg hinside]
        have hroot : root <+: w :=
          (startsWith_found hfound).mp (Bool.not_eq_false _ ▸ hinside)
        have htarget : Target project root v path w := ⟨hrefused, hfound, hroot⟩
        have hspec := hvisit (render w) w st (canonicalize_again hfound)
          ⟨all, path, alias_, only, hmodule, hmem, htarget⟩ hloaded
        cases hrun : visit (render w) st with
        | error e =>
          rw [hrun] at hspec
          refine ⟨fun st' directives' h => (by cases h), ?_⟩
          intro e' h
          cases h
          exact hspec.error e' rfl
        | ok st₁ =>
          rw [hrun] at hspec
          obtain ⟨hloaded₁, hgrown₁, hw₁, -⟩ := hspec.ok st₁ rfl
          obtain ⟨hok, herror⟩ := @ih st₁ (directives ++
            [⟨alias_.getD (fileStem path), only, fileStem path⟩]) hlater hloaded₁
          refine ⟨?_, herror⟩
          intro st' directives' h
          obtain ⟨hloaded', hgrown', htargets⟩ := hok st' directives' h
          refine ⟨hloaded', hgrown₁.trans hgrown', ?_⟩
          intro path' alias' only' hmem'
          rcases List.mem_cons.mp hmem' with heq | hmem'
          · cases heq
            exact ⟨w, htarget, hgrown'.before.mem hw₁⟩
          · exact htargets path' alias' only' hmem'
    | _ =>
      obtain ⟨hok, herror⟩ := @ih st directives hlater hloaded
      refine ⟨?_, herror⟩
      intro st' directives' h
      obtain ⟨hloaded', hgrown', htargets⟩ := hok st' directives' h
      refine ⟨hloaded', hgrown', ?_⟩
      intro path alias_ only hmem
      rcases List.mem_cons.mp hmem with heq | hmem
      · cases heq
      · exact htargets path alias_ only hmem

end Loop

/-! ## Depth first -/

theorem paths_snoc (st : State) (m : ResolvedModule) (visited : List Location)
    (importMap : List (Location × List ImportDirective)) :
    State.paths ⟨st.resolved ++ [m], visited, importMap⟩ = st.paths ++ [m.path] := by
  unfold State.paths
  rw [List.map_append]
  rfl

theorem inside_of_imports (h : Imports project root v w) : root <+: w := by
  obtain ⟨tops, path, alias_, only, -, -, htarget⟩ := h
  exact htarget.2.2

theorem resolveRecursive_spec (depth : Nat) {root entry : Location} {stack : List Location}
    {filePath : List Char} {v : Location} {st : State}
    (hfound : canonicalize project.fs project.cwd filePath = some v)
    (hreach : Reaches project root entry v) (hroot : root <+: v)
    (hstack : ∀ s ∈ stack, TransGen (Imports project root) s v)
    (hloaded : Loaded project root entry st) :
    VisitSpec project root entry stack v st
      (resolveRecursive project depth root stack filePath st) := by
  induction depth generalizing stack filePath v st with
  | zero =>
    refine ⟨fun st' h => (by cases h), fun e h => (by cases h)⟩
  | succ depth ih =>
    rw [resolveRecursive, hfound]
    dsimp only
    by_cases hvisited : v ∈ st.visited
    · rw [if_pos hvisited]
      have hmem := (hloaded.visited v).mp hvisited
      refine ⟨?_, fun e h => (by cases h)⟩
      intro st' h
      cases h
      exact ⟨hloaded, Grown.refl _ _, hmem, fun hnot => absurd hmem hnot⟩
    rw [if_neg hvisited]
    by_cases hcycle : v ∈ stack
    · rw [if_pos hcycle]
      refine ⟨fun st' h => (by cases h), ?_⟩
      intro e h
      cases h
      exact ⟨v, hreach, hstack v hcycle⟩
    rw [if_neg hcycle]
    have hmodule := moduleAt_of_read hfound
    cases hsource : readToString project (render v) with
    | none =>
      refine ⟨fun st' h => (by cases h), ?_⟩
      intro e h
      cases h
      rw [hsource] at hmodule
      exact ⟨v, hreach, .inl hmodule⟩
    | some source =>
      rw [hsource, Option.bind_some] at hmodule
      dsimp only
      cases hparse : project.parseFile source with
      | error message =>
        refine ⟨fun st' h => (by cases h), ?_⟩
        intro e h
        cases h
        rw [hparse] at hmodule
        exact ⟨v, hreach, .inl hmodule⟩
      | ok tops =>
        rw [hparse] at hmodule
        dsimp only
        have hvisit : ∀ filePath w st, canonicalize project.fs project.cwd filePath = some w →
            Imports project root v w → Loaded project root entry st →
            VisitSpec project root entry (stack ++ [v]) w st
              (resolveRecursive project depth root (stack ++ [v]) filePath st) := by
          intro filePath w st hw himports hloaded
          refine ih hw (hreach.tail himports) (inside_of_imports himports) ?_ hloaded
          intro s hs
          rcases List.mem_append.mp hs with hs | hs
          · exact (hstack s hs).tail himports
          · rw [List.mem_singleton.mp hs]
            exact TransGen.single himports
        obtain ⟨hok, herror⟩ := @importLoop_spec project root entry v st stack
          (resolveRecursive project depth root (stack ++ [v])) tops tops [] hmodule hreach
          hvisit (fun _ ht => ht) hloaded
        cases hloop : importLoop project (resolveRecursive project depth root (stack ++ [v]))
            root v.dropLast tops st [] with
        | error e =>
          refine ⟨fun st' h => (by cases h), ?_⟩
          intro e' h
          cases h
          exact herror e' hloop
        | ok result =>
          obtain ⟨st₁, directives⟩ := result
          obtain ⟨hloaded₁, hgrown, htargets⟩ := hok st₁ directives hloop
          refine ⟨?_, fun e h => (by cases h)⟩
          intro st' h
          cases h
          -- the file was being loaded all the while
          have hnot : v ∉ st₁.paths := by
            intro hmem
            rcases hgrown.fresh v hmem with hmem | hmem
            · exact hvisited ((hloaded.visited v).mpr hmem)
            · exact hmem (List.mem_append_right _ (List.mem_singleton.mpr rfl))
          have hdepends : ∀ w, Imports project root v w → w ∈ st₁.paths := by
            intro w himports
            obtain ⟨tops', path, alias_, only, htops', hmem, htarget⟩ := himports
            rw [hmodule] at htops'
            cases htops'
            obtain ⟨w', htarget', hw'⟩ := htargets path alias_ only hmem
            have hsame := htarget'.2.1
            rw [htarget.2.1] at hsame
            cases hsame
            exact hw'
          have hsound : ¬ Broken project root v := by
            intro hbroken
            rcases hbroken with hnone | ⟨tops', path, alias_, only, htops', hmem, hno⟩
            · rw [hmodule] at hnone
              cases hnone
            · rw [hmodule] at htops'
              cases htops'
              obtain ⟨w, htarget, -⟩ := htargets path alias_ only hmem
              exact hno w htarget
          have hall {P : Location → Prop} (hP : ∀ u ∈ st₁.paths, P u) (hv : P v) :
              ∀ u ∈ st₁.paths ++ [v], P u := by
            intro u hu
            rcases List.mem_append.mp hu with hu | hu
            · exact hP u hu
            · rw [List.mem_singleton.mp hu]
              exact hv
          refine ⟨?_, ?_, ?_, ?_⟩
          · refine ⟨?_, ?_, ?_, ?_, ?_, ?_⟩
            · intro u
              rw [paths_snoc, List.mem_cons, List.mem_append, List.mem_singleton,
                hloaded₁.visited u, or_comm]
            · rw [paths_snoc]
              exact hloaded₁.ordered.snoc hnot hdepends
            · intro m hm
              rcases List.mem_append.mp hm with hm | hm
              · exact hloaded₁.parsed m hm
              · rw [List.mem_singleton.mp hm]
                exact hmodule
            · rw [paths_snoc]
              exact hall hloaded₁.sound hsound
            · rw [paths_snoc]
              exact hall hloaded₁.inside hroot
            · rw [paths_snoc]
              exact hall hloaded₁.reached hreach
          · refine ⟨?_, ?_⟩
            · rw [paths_snoc]
              exact hgrown.before.trans (List.prefix_append _ _)
            · rw [paths_snoc]
              refine hall ?_ (.inr hcycle)
              intro u hu
              rcases hgrown.fresh u hu with hu | hu
              · exact .inl hu
              · exact .inr fun hs => hu (List.mem_append_left _ hs)
          · rw [paths_snoc]
            exact List.mem_append_right _ (List.mem_singleton.mpr rfl)
          · intro _
            rw [paths_snoc]
            exact List.getLast?_concat

/-! ## The depth of the recursion -/

/-- Where there is something. -/
def places (project : Project) : List Location := [] :: project.fs.entries.map Prod.fst

theorem mem_places {loc : Location} (h : (project.fs.find loc).isSome) : loc ∈ places project := by
  unfold FileSystem.find at h
  split at h
  · next hnil =>
    rw [hnil]
    exact List.mem_cons_self
  · obtain ⟨node, hnode⟩ := Option.isSome_iff_exists.mp h
    obtain ⟨before, after, hentries, -⟩ := List.lookup_eq_some_iff.mp hnode
    apply List.mem_cons_of_mem
    rw [hentries, List.map_append]
    exact List.mem_append_right _ List.mem_cons_self

theorem importLoop_depth {visit : List Char → State → Except Halt State}
    (hvisit : ∀ filePath st, visit filePath st ≠ .error .deep) (parent : Location) (tops : List Top)
    (st : State) (directives : List ImportDirective) :
    importLoop project visit root parent tops st directives ≠ .error .deep := by
  induction tops generalizing st directives with
  | nil =>
    intro h
    cases h
  | cons top tops ih =>
    cases top with
    | importFile path alias_ only =>
      rw [importLoop]
      split
      · intro h
        cases h
      split
      · intro h
        cases h
      · next w hfound =>
        split
        · intro h
          cases h
        cases hrun : visit (render w) st with
        | error e =>
          intro h
          cases h
          exact hvisit _ _ hrun
        | ok st₁ => exact ih st₁ _
    | _ => exact ih st directives

theorem resolveRecursive_depth (depth : Nat) {stack : List Location} (hnodup : stack.Nodup)
    (hfound : ∀ s ∈ stack, (project.fs.find s).isSome)
    (hdepth : (places project).length < depth + stack.length) (filePath : List Char) (st : State) :
    resolveRecursive project depth root stack filePath st ≠ .error .deep := by
  induction depth generalizing stack filePath st with
  | zero =>
    have hsub : stack ⊆ places project := fun s hs => mem_places (hfound s hs)
    have hlength := (hnodup.subperm hsub).length_le
    omega
  | succ depth ih =>
    rw [resolveRecursive]
    split
    · intro h
      cases h
    next v hcanonical =>
    split
    · intro h
      cases h
    split
    · intro h
      cases h
    next hcycle =>
    split
    · intro h
      cases h
    split
    · intro h
      cases h
    next tops hparse =>
    have hnodup' : (stack ++ [v]).Nodup := by
      rw [List.nodup_append_comm]
      exact List.nodup_cons.mpr ⟨hcycle, hnodup⟩
    have hfound' : ∀ s ∈ stack ++ [v], (project.fs.find s).isSome := by
      intro s hs
      rcases List.mem_append.mp hs with hs | hs
      · exact hfound s hs
      · rw [List.mem_singleton.mp hs]
        exact (canonicalize_eq_some.mp hcanonical).2
    have hdepth' : (places project).length < depth + (stack ++ [v]).length := by
      rw [List.length_append, List.length_singleton]
      omega
    have hloop :=
      @importLoop_depth project root _ (ih hnodup' hfound' hdepth') v.dropLast tops st []
    split
    · next e he =>
      intro h
      cases h
      exact hloop he
    · intro h
      cases h

/-! ## The law -/

/-- As deep as the recursion can get. -/
def enough (project : Project) : Nat := project.fs.entries.length + 2

theorem loaded_empty : Loaded project root entry ⟨[], [], []⟩ := by
  refine ⟨fun v => Iff.rfl, Ordered.nil, ?_, ?_, ?_, ?_⟩
  all_goals
    intro v hv
    cases hv

theorem resolves_of_loaded (hentry : entry ∈ st.paths) (hlast : st.paths.getLast? = some entry)
    (h : Loaded project root entry st) :
    Resolves project root entry st ∧ ¬ CycleReachable project root entry ∧
      ¬ BrokenReachable project root entry := by
  have hmembers : ∀ v, v ∈ st.paths ↔ Reaches project root entry v := fun v =>
    ⟨h.reached v, fun hreach => h.ordered.reaches hentry hreach⟩
  refine ⟨⟨hmembers, h.ordered.nodup, h.parsed, ?_, hlast, h.inside⟩, ?_, ?_⟩
  · intro front v back hsplit w himports
    exact h.ordered.before hsplit himports
  · intro hcycle
    obtain ⟨v, hreach, hv⟩ := hcycle
    exact h.ordered.acyclic ((hmembers v).mpr hreach) hv
  · intro hbroken
    obtain ⟨v, hreach, hv⟩ := hbroken
    exact h.sound v ((hmembers v).mpr hreach) hv

/-- For an entry file that is there the modules are returned just if nothing that is reachable is
broken or on a cycle; the error for a cycle means that there is one, and another error that
something is broken. More depth changes nothing. -/
theorem resolveImports_exact (project : Project) (entryPath : List Char) (more : Nat)
    (entry : Location) :
    resolveImports project (enough project + more) entryPath ≠ .error .deep ∧
    (canonicalize project.fs project.cwd entryPath = some entry → entry ≠ [] →
      (∀ st, resolveImports project (enough project + more) entryPath = .ok st →
        Resolves project entry.dropLast entry st) ∧
      ((∃ st, resolveImports project (enough project + more) entryPath = .ok st) ↔
        ¬ CycleReachable project entry.dropLast entry ∧
          ¬ BrokenReachable project entry.dropLast entry) ∧
      (∀ chain, resolveImports project (enough project + more) entryPath =
          .error (.error (.circularDependency chain)) →
        CycleReachable project entry.dropLast entry) ∧
      (¬ BrokenReachable project entry.dropLast entry →
        ((∃ chain, resolveImports project (enough project + more) entryPath =
            .error (.error (.circularDependency chain))) ↔
          CycleReachable project entry.dropLast entry))) := by
  have hdepth (root : Location) (filePath : List Char) :
      resolveRecursive project (enough project + more) root [] filePath ⟨[], [], []⟩ ≠
        .error .deep := by
    refine resolveRecursive_depth _ List.nodup_nil (fun s hs => absurd hs List.not_mem_nil) ?_ _ _
    rw [places, List.length_cons, List.length_map, List.length_nil, enough]
    omega
  constructor
  · unfold resolveImports
    split
    · intro h
      cases h
    · split
      · intro h
        cases h
      · exact hdepth _ _
  · intro hfound hne
    have hrun : resolveImports project (enough project + more) entryPath =
        resolveRecursive project (enough project + more) entry.dropLast [] (render entry)
          ⟨[], [], []⟩ := by
      unfold resolveImports
      rw [hfound]
      exact if_neg hne
    -- The run starts with an empty stack and nothing loaded.
    have hspec := @resolveRecursive_spec project (enough project + more) entry.dropLast entry []
      (render entry) entry ⟨[], [], []⟩ (canonicalize_again hfound) ReflTransGen.refl
      (List.dropLast_prefix entry) (fun s hs => absurd hs List.not_mem_nil) loaded_empty
    rw [hrun]
    have hdepth := hdepth entry.dropLast (render entry)
    have hok : ∀ st, resolveRecursive project (enough project + more) entry.dropLast []
        (render entry) ⟨[], [], []⟩ = .ok st → Resolves project entry.dropLast entry st ∧
        ¬ CycleReachable project entry.dropLast entry ∧
          ¬ BrokenReachable project entry.dropLast entry := by
      intro st hst
      obtain ⟨hloaded, -, hmem, hlast⟩ := hspec.ok st hst
      exact resolves_of_loaded hmem (hlast List.not_mem_nil) hloaded
    have hcases : (∃ st, resolveRecursive project (enough project + more) entry.dropLast []
          (render entry) ⟨[], [], []⟩ = .ok st) ∨
        (∃ chain, resolveRecursive project (enough project + more) entry.dropLast []
          (render entry) ⟨[], [], []⟩ = .error (.error (.circularDependency chain))) ∨
        BrokenReachable project entry.dropLast entry := by
      cases hresult : resolveRecursive project (enough project + more) entry.dropLast []
          (render entry) ⟨[], [], []⟩ with
      | ok st => exact .inl ⟨st, rfl⟩
      | error halt =>
          cases halt with
          | deep => exact absurd hresult hdepth
          | error e =>
              have hexplained := hspec.error e hresult
              cases e with
              | circularDependency chain => exact .inr (.inl ⟨chain, rfl⟩)
              | io path => exact .inr (.inr hexplained)
              | parse message => exact .inr (.inr hexplained)
              | sandboxViolation path => exact .inr (.inr hexplained)
    have hcircular : ∀ chain, resolveRecursive project (enough project + more) entry.dropLast []
        (render entry) ⟨[], [], []⟩ = .error (.error (.circularDependency chain)) →
        CycleReachable project entry.dropLast entry := fun chain h => hspec.error _ h
    refine ⟨fun st hst => (hok st hst).1, ⟨?_, ?_⟩, hcircular, ?_⟩
    · intro h
      obtain ⟨st, hst⟩ := h
      exact (hok st hst).2
    · intro h
      rcases hcases with hst | ⟨chain, hchain⟩ | hbroken
      · exact hst
      · exact absurd (hcircular chain hchain) h.1
      · exact absurd hbroken h.2
    · intro hsound
      constructor
      · intro h
        obtain ⟨chain, hchain⟩ := h
        exact hcircular chain hchain
      · intro hcycle
        rcases hcases with ⟨st, hst⟩ | hchain | hbroken
        · exact absurd hcycle (hok st hst).2.1
        · exact hchain
        · exact absurd hbroken hsound

/-- `/p/a` holds `(import "sub/../b")`, `/p/b` nothing, and `/p/sub` is a directory. -/
def roundabout : Project where
  fs := ⟨[([['p']], .dir), ([['p'], ['s', 'u', 'b']], .dir),
    ([['p'], ['a']], .file (some "(import \"sub/../b\")".toList)),
    ([['p'], ['b']], .file (some []))], by
      intro e he target htarget
      simp only [List.mem_cons, List.not_mem_nil, or_false] at he
      rcases he with rfl | rfl | rfl | rfl
      all_goals cases htarget⟩
  cwd := []
  cwd_directory := IsDirectory.root _
  parseFile := fun source =>
    .ok (if source = [] then [] else [.importFile "sub/../b".toList none none])

theorem resolveImports_roundabout :
    (∃ st, resolveImports roundabout (enough roundabout + 0) "/p/a".toList = .ok st) ↔
      ¬ CycleReachable roundabout [['p']] [['p'], ['a']] ∧
        ¬ BrokenReachable roundabout [['p']] [['p'], ['a']] :=
  ((resolveImports_exact roundabout "/p/a".toList 0 [['p'], ['a']]).2 (by decide)
    (List.cons_ne_nil _ _)).2.1

/-- An import leads to a module, whether it is refused or not. -/
def LeadsTo (project : Project) (v w : Location) : Prop :=
  ∃ tops path alias_ only, moduleAt project v = some tops ∧
    Top.importFile path alias_ only ∈ tops ∧
      canonicalize project.fs project.cwd (join (render v.dropLast) path) = some w

/-- A module inside the root that is on no cycle is imported, and there is neither a result nor an
error for a cycle. -/
theorem resolve_roundabout :
    canonicalize roundabout.fs roundabout.cwd "/p/a".toList = some [['p'], ['a']] ∧
    LeadsTo roundabout [['p'], ['a']] [['p'], ['b']] ∧
    (¬ ∃ v, ReflTransGen (LeadsTo roundabout) [['p'], ['a']] v ∧
      TransGen (LeadsTo roundabout) v v) ∧
    resolveImports roundabout (enough roundabout) "/p/a".toList =
      .error (.error (.sandboxViolation "sub/../b".toList)) := by
  have htarget : canonicalize roundabout.fs roundabout.cwd
      (join (render [['p']]) "sub/../b".toList) = some [['p'], ['b']] := by decide
  have hleaf : ∀ w, ¬ LeadsTo roundabout [['p'], ['b']] w := by
    intro w h
    obtain ⟨tops, path, alias_, only, hmodule, hmem, -⟩ := h
    have hempty : moduleAt roundabout [['p'], ['b']] = some [] := by decide
    rw [hempty] at hmodule
    cases hmodule
    cases hmem
  have honly : ∀ w, LeadsTo roundabout [['p'], ['a']] w → w = [['p'], ['b']] := by
    intro w h
    obtain ⟨tops, path, alias_, only, hmodule, hmem, hw⟩ := h
    have himport : moduleAt roundabout [['p'], ['a']] =
        some [.importFile "sub/../b".toList none none] := by decide
    rw [himport] at hmodule
    cases hmodule
    cases List.mem_singleton.mp hmem
    exact Option.some.inj (hw.symm.trans htarget)
  have hreached : ∀ v, ReflTransGen (LeadsTo roundabout) [['p'], ['a']] v →
      v = [['p'], ['a']] ∨ v = [['p'], ['b']] := by
    intro v hreach
    induction hreach with
    | refl => exact .inl rfl
    | tail _ hedge ih =>
        rcases ih with rfl | rfl
        · exact .inr (honly _ hedge)
        · exact absurd hedge (hleaf _)
  have hfound : canonicalize roundabout.fs roundabout.cwd "/p/a".toList = some [['p'], ['a']] := by
    decide
  have hsource : readToString roundabout (render [['p'], ['a']]) =
      some "(import \"sub/../b\")".toList := by decide
  have hparse : roundabout.parseFile "(import \"sub/../b\")".toList =
      .ok [.importFile "sub/../b".toList none none] := rfl
  refine ⟨hfound, ⟨_, _, none, none, rfl, List.mem_cons_self, htarget⟩, ?_, ?_⟩
  · intro h
    obtain ⟨v, hreach, hcycle⟩ := h
    obtain ⟨w, hstep, hback⟩ := TransGen.head'_iff.mp hcycle
    rcases hreached v hreach with rfl | rfl
    · rw [honly w hstep] at hback
      rcases ReflTransGen.cases_head hback with heq | ⟨u, hu, -⟩
      · revert heq
        decide
      · exact hleaf u hu
    · exact hleaf w hstep
  · unfold resolveImports
    rw [hfound]
    dsimp only
    rw [if_neg (by decide), enough, resolveRecursive, canonicalize_again hfound]
    dsimp only
    rw [if_neg List.not_mem_nil, if_neg List.not_mem_nil, hsource]
    dsimp only
    rw [hparse]
    dsimp only
    have hrefused : refused "sub/../b".toList := .inr ⟨"sub/".toList, "/b".toList, rfl⟩
    rw [importLoop, if_pos hrefused]

end Airl.Resolver
