import Airl.Driver.Gate
import Airl.Policy.BaselineLaw

/-! # What the policy scan sees

The scan lists the level of each module and of each function outside modules, and a file is clean
if the baseline allows the levels that are listed. The verification pipeline honours the level of a
function in a module, too.
-/

namespace Airl.Policy

open Airl.Driver (Top allFns levelOf)

namespace BaselineKey

def wholeFile (path : List Char) : BaselineKey := ⟨path, none⟩

def qualified (path name : List Char) : BaselineKey := ⟨path, some name⟩

end BaselineKey

def modules (tops : List Top) : List (String × VerifyLevel) :=
  tops.filterMap fun
    | .module name verify _ => some (name, verify)
    | _ => none

def bareDefns (tops : List Top) : List (String × VerifyLevel) :=
  tops.filterMap fun
    | .defn f => some (f.name, f.verify.getD default)
    | _ => none

/-- The key of a module: the file, where there is nothing else in it. -/
def moduleKey (path : List Char) (tops : List Top) (name : String) : BaselineKey :=
  if (modules tops).length = 1 ∧ (bareDefns tops).isEmpty then .wholeFile path
  else .qualified path name.toList

def extractVerifyEntries (path : List Char) (tops : List Top) : List (BaselineKey × VerifyLevel) :=
  (modules tops).map (fun m => (moduleKey path tops m.1, m.2)) ++
    (bareDefns tops).map fun d => (.qualified path d.1.toList, d.2)

structure PolicyDiff where
  newChecked : List BaselineKey
  newTrusted : List BaselineKey
  staleChecked : List BaselineKey
  staleTrusted : List BaselineKey

/-- Regressions only: a stale entry is tolerated. -/
def PolicyDiff.isClean (diff : PolicyDiff) : Bool :=
  diff.newChecked.isEmpty && diff.newTrusted.isEmpty

/-- The keys with a level. -/
def scannedAt (level : VerifyLevel) (scanned : List (BaselineKey × VerifyLevel)) :
    List BaselineKey :=
  (scanned.filter fun e => e.2 = level).map Prod.fst

/-- The difference of two sets of keys, in order. -/
def missing (keys others : List BaselineKey) : List BaselineKey :=
  sorted (keys.filter fun key => key ∉ others)

def computeDiff (baseline : Baseline) (scanned : List (BaselineKey × VerifyLevel)) :
    PolicyDiff where
  newChecked := missing (scannedAt .checked scanned) baseline.grandfatheredChecked
  newTrusted := missing (scannedAt .trusted scanned) baseline.grandfatheredTrusted
  staleChecked := missing baseline.grandfatheredChecked (scannedAt .checked scanned)
  staleTrusted := missing baseline.grandfatheredTrusted (scannedAt .trusted scanned)

/-- A level that is declared among the forms of a module, at any depth, and the key for it. -/
inductive Inside (path : List Char) : List Top → BaselineKey → VerifyLevel → Prop
  | defn {body f level} : .defn f ∈ body → f.verify = some level →
      Inside path body (.qualified path f.name.toList) level
  | module {body name level inner} : .module name level inner ∈ body →
      Inside path body (.qualified path name.toList) level
  | deeper {body name level inner key level'} : .module name level inner ∈ body →
      Inside path inner key level' → Inside path body key level'

/-- A level that is declared at the top of the file. -/
inductive AtTop (path : List Char) (tops : List Top) : BaselineKey → VerifyLevel → Prop
  | defn {f level} : .defn f ∈ tops → f.verify = some level →
      AtTop path tops (.qualified path f.name.toList) level
  | module {name level body} : .module name level body ∈ tops →
      AtTop path tops (moduleKey path tops name) level

/-- A level that is declared in the file. -/
inductive Declared (path : List Char) (tops : List Top) : BaselineKey → VerifyLevel → Prop
  | top {key level} : AtTop path tops key level → Declared path tops key level
  | inside {name level body key level'} : .module name level body ∈ tops →
      Inside path body key level' → Declared path tops key level'

/-- The baseline allows the level. -/
def Listed (baseline : Baseline) (key : BaselineKey) : VerifyLevel → Prop
  | .checked => key ∈ baseline.grandfatheredChecked
  | .trusted => key ∈ baseline.grandfatheredTrusted
  | .proven => True

/-- The key is that of the function or of the module it stands in. -/
def KeyOf (path : List Char) (tops : List Top) (f : Defn) (key : BaselineKey) : Prop :=
  key = .qualified path f.name.toList ∨
    ∃ name level body, .module name level body ∈ tops ∧ .defn f ∈ body ∧
      key = moduleKey path tops name

/-- No level below proven escapes the policy. -/
structure PolicyLaw (path : List Char) (tops : List Top) : Prop where
  clean : ∀ baseline, (computeDiff baseline (extractVerifyEntries path tops)).isClean = true ↔
    ∀ key level, Declared path tops key level → Listed baseline key level
  seen : ∀ f level, (f, level) ∈ allFns false tops → level ≠ .proven →
    ∃ key, KeyOf path tops f key ∧ (key, level) ∈ extractVerifyEntries path tops

variable {path : List Char} {tops : List Top} {key : BaselineKey} {level : VerifyLevel}
variable {baseline : Baseline} {scanned : List (BaselineKey × VerifyLevel)}

theorem mem_modules {name : String} :
    (name, level) ∈ modules tops ↔ ∃ body, .module name level body ∈ tops := by
  unfold modules
  rw [List.mem_filterMap]
  constructor
  · intro h
    obtain ⟨top, htop, heq⟩ := h
    cases top with
    | module name' level' body =>
      cases heq
      exact ⟨body, htop⟩
    | defn f => cases heq
    | other => cases heq
  · intro h
    obtain ⟨body, hbody⟩ := h
    exact ⟨.module name level body, hbody, rfl⟩

theorem mem_bareDefns {name : String} :
    (name, level) ∈ bareDefns tops ↔
      ∃ f, .defn f ∈ tops ∧ f.name = name ∧ f.verify.getD default = level := by
  unfold bareDefns
  rw [List.mem_filterMap]
  constructor
  · intro h
    obtain ⟨top, htop, heq⟩ := h
    cases top with
    | defn f =>
      cases heq
      exact ⟨f, htop, rfl, rfl⟩
    | module name' level' body => cases heq
    | other => cases heq
  · intro h
    obtain ⟨f, hf, rfl, rfl⟩ := h
    exact ⟨.defn f, hf, rfl⟩

theorem own_level {f : Defn} (h : f.verify.getD default = level) (hweak : level ≠ .proven) :
    f.verify = some level := by
  cases hverify : f.verify with
  | none =>
    rw [hverify] at h
    exact absurd h.symm hweak
  | some own =>
    rw [hverify] at h
    exact congrArg some h

theorem mem_extract (hweak : level ≠ .proven) :
    (key, level) ∈ extractVerifyEntries path tops ↔ AtTop path tops key level := by
  unfold extractVerifyEntries
  rw [List.mem_append, List.mem_map, List.mem_map]
  constructor
  · intro h
    rcases h with ⟨⟨name, level'⟩, hmem, heq⟩ | ⟨⟨name, level'⟩, hmem, heq⟩
    · cases heq
      obtain ⟨body, hbody⟩ := mem_modules.mp hmem
      exact .module hbody
    · cases heq
      obtain ⟨f, hf, rfl, hlevel⟩ := mem_bareDefns.mp hmem
      exact .defn hf (own_level hlevel hweak)
  · intro h
    cases h with
    | @defn f _ hf hverify =>
      refine .inr ⟨(f.name, level), mem_bareDefns.mpr ⟨f, hf, rfl, ?_⟩, rfl⟩
      rw [hverify]
      rfl
    | @module name _ body hbody =>
      exact .inl ⟨(name, level), mem_modules.mpr ⟨body, hbody⟩, rfl⟩

theorem missing_eq_nil {keys others : List BaselineKey} :
    (missing keys others).isEmpty = true ↔ ∀ key ∈ keys, key ∈ others := by
  unfold missing
  rw [List.isEmpty_iff, List.eq_nil_iff_forall_not_mem]
  constructor
  · intro h key hkey
    by_contra hother
    exact h key (mem_sorted.mpr (List.mem_filter.mpr ⟨hkey, by simpa using hother⟩))
  · intro h key hkey
    obtain ⟨hkey, hother⟩ := List.mem_filter.mp (mem_sorted.mp hkey)
    exact absurd (h key hkey) (by simpa using hother)

theorem mem_scannedAt : key ∈ scannedAt level scanned ↔ (key, level) ∈ scanned := by
  unfold scannedAt
  rw [List.mem_map]
  constructor
  · intro h
    obtain ⟨⟨key', level'⟩, hmem, rfl⟩ := h
    obtain ⟨hscanned, hlevel⟩ := List.mem_filter.mp hmem
    obtain rfl : level' = level := of_decide_eq_true hlevel
    exact hscanned
  · intro h
    exact ⟨(key, level), List.mem_filter.mpr ⟨h, decide_eq_true rfl⟩, rfl⟩

theorem isClean_iff : (computeDiff baseline scanned).isClean = true ↔
    ∀ key level, (key, level) ∈ scanned → Listed baseline key level := by
  unfold PolicyDiff.isClean computeDiff
  rw [Bool.and_eq_true, missing_eq_nil, missing_eq_nil]
  constructor
  · intro h key level hmem
    cases level with
    | checked => exact h.1 key (mem_scannedAt.mpr hmem)
    | trusted => exact h.2 key (mem_scannedAt.mpr hmem)
    | proven => trivial
  · intro h
    exact ⟨fun key hkey => h key .checked (mem_scannedAt.mp hkey),
      fun key hkey => h key .trusted (mem_scannedAt.mp hkey)⟩

/-- The baseline that allows what was scanned, and no more. -/
def allowing (scanned : List (BaselineKey × VerifyLevel)) : Baseline :=
  ⟨baselineVersion, scannedAt .checked scanned, scannedAt .trusted scanned⟩

theorem listed_allowing (hweak : level ≠ .proven) :
    Listed (allowing scanned) key level ↔ (key, level) ∈ scanned := by
  cases level with
  | checked => exact mem_scannedAt
  | trusted => exact mem_scannedAt
  | proven => exact absurd rfl hweak

theorem listed_of_weak (h : level ≠ .proven → Listed baseline key level) :
    Listed baseline key level := by
  cases level with
  | checked => exact h (by decide)
  | trusted => exact h (by decide)
  | proven => trivial

theorem mem_allFns {f : Defn} : (f, level) ∈ allFns false tops ↔
    (.defn f ∈ tops ∧ levelOf false default f = level) ∨
      ∃ name outer body, .module name outer body ∈ tops ∧ .defn f ∈ body ∧
        levelOf false outer f = level := by
  have hbody {outer : VerifyLevel} {body : List Top} :
      (f, level) ∈ Driver.collectBody false outer body ↔
        .defn f ∈ body ∧ levelOf false outer f = level := by
    unfold Driver.collectBody
    rw [List.mem_filterMap]
    constructor
    · intro h
      obtain ⟨top, htop, heq⟩ := h
      cases top with
      | defn g =>
        cases heq
        exact ⟨htop, rfl⟩
      | module name level' inner => cases heq
      | other => cases heq
    · intro h
      exact ⟨.defn f, h.1, congrArg (fun l => some (f, l)) h.2⟩
  unfold allFns
  rw [List.mem_flatMap]
  constructor
  · intro h
    obtain ⟨top, htop, hmem⟩ := h
    cases top with
    | defn g =>
      cases List.mem_singleton.mp hmem
      exact .inl ⟨htop, rfl⟩
    | module name outer body =>
      obtain ⟨hf, hlevel⟩ := hbody.mp hmem
      exact .inr ⟨name, outer, body, htop, hf, hlevel⟩
    | other => cases hmem
  · intro h
    rcases h with ⟨hf, rfl⟩ | ⟨name, outer, body, hmodule, hf, hlevel⟩
    · exact ⟨.defn f, hf, List.mem_singleton.mpr rfl⟩
    · exact ⟨.module name outer body, hmodule, hbody.mpr ⟨hf, hlevel⟩⟩

theorem seen_of_covered
    (h : ∀ name outer body key level, .module name outer body ∈ tops → Inside path body key level →
      level ≠ .proven → AtTop path tops key level)
    {f : Defn} (hf : (f, level) ∈ allFns false tops) (hweak : level ≠ .proven) :
    ∃ key, KeyOf path tops f key ∧ (key, level) ∈ extractVerifyEntries path tops := by
  rcases mem_allFns.mp hf with ⟨hf, hlevel⟩ | ⟨name, outer, body, hmodule, hf, hlevel⟩
  · exact ⟨.qualified path f.name.toList, .inl rfl,
      (mem_extract hweak).mpr (.defn hf (own_level hlevel hweak))⟩
  · cases hverify : f.verify with
    | none =>
      -- the function has the level of its module
      have houter : outer = level := by
        rw [← hlevel, levelOf, if_neg (by decide), hverify]
        rfl
      rw [houter] at hmodule
      exact ⟨moduleKey path tops name, .inr ⟨name, level, body, hmodule, hf, rfl⟩,
        (mem_extract hweak).mpr (.module hmodule)⟩
    | some own =>
      have hown : own = level := by
        rw [← hlevel, levelOf, if_neg (by decide), hverify]
        rfl
      rw [hown] at hverify
      exact ⟨.qualified path f.name.toList, .inl rfl, (mem_extract hweak).mpr
        (h name outer body _ level hmodule (.defn hf hverify) hweak)⟩

/-- The policy is complete for a file just if no function or module in a module has a level below
proven, unless a form at the top of the file has it under the same key. -/
theorem policy_exact (path : List Char) (tops : List Top) :
    PolicyLaw path tops ↔ ∀ name outer body key level, .module name outer body ∈ tops →
      Inside path body key level → level ≠ .proven → AtTop path tops key level := by
  constructor
  · intro hlaw name outer body key level hmodule hinside hweak
    have hclean :=
      isClean_iff.mpr fun key level (h : (key, level) ∈ extractVerifyEntries path tops) =>
      listed_of_weak fun hweak => (listed_allowing hweak).mpr h
    have hlisted := (hlaw.clean _).mp hclean key level (.inside hmodule hinside)
    exact (mem_extract hweak).mp ((listed_allowing hweak).mp hlisted)
  · intro h
    refine ⟨?_, fun f level hf hweak => seen_of_covered h hf hweak⟩
    intro baseline
    rw [isClean_iff]
    constructor
    · intro hlisted key level hdeclared
      apply listed_of_weak
      intro hweak
      apply hlisted key level
      apply (mem_extract hweak).mpr
      cases hdeclared with
      | top htop => exact htop
      | inside hmodule hinside => exact h _ _ _ key level hmodule hinside hweak
    · intro hlisted key level hmem
      apply listed_of_weak
      intro hweak
      exact hlisted key level (.top ((mem_extract hweak).mp hmem))

/-- `(module m (defn f :verify trusted …))`. -/
def trustedInside : List Top :=
  [.module "m" .proven
    [.defn
      ({ Parser.Clauses.initial .dummy with verify := some .trusted }.toDefn "f" false .dummy)]]

/-- The function is not proven, and with an empty baseline the file is clean. -/
theorem policy_of_trustedInside : ¬ PolicyLaw "a.airl".toList trustedInside ∧
    (computeDiff .new (extractVerifyEntries "a.airl".toList trustedInside)).isClean = true := by
  have hclean : (computeDiff .new (extractVerifyEntries "a.airl".toList trustedInside)).isClean =
      true := by
    apply isClean_iff.mpr
    intro key level hmem
    have hscanned : extractVerifyEntries "a.airl".toList trustedInside =
        [(.wholeFile "a.airl".toList, .proven)] := rfl
    rw [hscanned, List.mem_singleton] at hmem
    cases hmem
    trivial
  refine ⟨?_, hclean⟩
  intro hlaw
  have hinside : Inside "a.airl".toList [.defn ({ Parser.Clauses.initial .dummy with
      verify := some .trusted }.toDefn "f" false .dummy)]
      (.qualified "a.airl".toList "f".toList) .trusted :=
    .defn List.mem_cons_self rfl
  have hlisted := (hlaw.clean .new).mp hclean _ _ (.inside List.mem_cons_self hinside)
  cases hlisted

end Airl.Policy
