import Airl.Library.Paths

/-! # The file sandbox

`sandbox_check` of `io.rs`: below the root that the environment names, a path that exists is
compared with the root after full resolution, a path that does not exist as it is written. Of the
builtins that take a path, `read-lines` alone calls the check.
-/

namespace Airl.Sandbox

open Paths

/-- What the check depends on. -/
structure Host where
  fs : FileSystem
  cwd : Location
  cwd_directory : IsDirectory fs cwd
  /-- `AIRL_SANDBOX_ROOT`. -/
  rootVariable : Option (List Char)

namespace Host

variable (host : Host)

def locate (path : List Char) : Option Location := Paths.locate host.fs host.cwd path

def canonicalize (path : List Char) : Option Location := Paths.canonicalize host.fs host.cwd path

/-- A sandbox is asked for. -/
def Asked : Prop := ∃ val, host.rootVariable = some val ∧ val ≠ []

end Host

def sandboxRoot (host : Host) : Option Location :=
  match host.rootVariable with
  | some val => if val = [] then none else host.canonicalize val
  | none => none

def sandboxCheck (host : Host) (path : List Char) : Except String (List Char) :=
  match sandboxRoot host with
  | none => .ok path
  | some root =>
    -- a path exists if it can be resolved
    let canonical := ((host.canonicalize path).map render).getD path
    if startsWith canonical root then .ok canonical
    else .error ("sandbox: '" ++ String.ofList path ++ "' is outside sandbox root '" ++
      String.ofList (render root) ++ "'")

/-- The builtins with a path, or two. -/
inductive FileBuiltin where
  | readFile
  | writeFile
  | appendFile
  | execFile
  | deleteFile
  | deleteDir
  | readDir
  | createDir
  | fileSize
  | isDir
  | fileExists
  | renameFile
  | fileMtime
  | readLines
  deriving DecidableEq, Repr

/-- The path that is handed to the operating system for one the program gives. -/
def opens (host : Host) : FileBuiltin → List Char → Except String (List Char)
  | .readLines, path => (sandboxCheck host path).mapError ("read-lines: " ++ ·)
  | _, path => .ok path

/-- The path leads to a place in the root, where there is a file or one can be made. -/
def Inside (host : Host) (root : Location) (path : List Char) : Prop :=
  ∃ loc, host.locate path = some loc ∧ root <+: loc

structure SandboxLaw (host : Host) (builtin : FileBuiltin) (path : List Char) : Prop where
  contained : ∀ root p, sandboxRoot host = some root → sandboxCheck host path = .ok p →
    Inside host root p
  refuses : host.Asked → sandboxRoot host = none → ∃ e, sandboxCheck host path = .error e
  performed : ∀ e, sandboxCheck host path = .error e → ∃ e', opens host builtin path = .error e'

/-- The comparison that the check makes: by where the path leads, or by its text if that is
nowhere. -/
def Below (host : Host) (root : Location) (path : List Char) : Prop :=
  match host.canonicalize path with
  | some loc => root <+: loc
  | none => startsWith path root = true

/-- The directory in which the missing file would be made is the root or below it. -/
def MadeBelow (host : Host) (root : Location) (path : List Char) : Prop :=
  ∃ dir name, IsDirectory host.fs dir ∧ host.locate path = some (dir ++ [name]) ∧ root <+: dir

/-- If a sandbox is asked for, then its root is there, a missing file whose path begins with the
root is made below it, and a builtin that does not call the check is given a path that passes. -/
structure Confined (host : Host) (builtin : FileBuiltin) (path : List Char) : Prop where
  root : host.Asked → ∃ root, sandboxRoot host = some root
  missing : ∀ root, sandboxRoot host = some root → host.canonicalize path = none →
    startsWith path root = true → MadeBelow host root path
  unchecked : ∀ root, sandboxRoot host = some root → builtin ≠ .readLines → Below host root path

variable {host : Host} {root : Location} {path : List Char}

/-- A location that is found is below the root just as its text is. -/
theorem startsWith_canonical {loc : Location} (h : host.canonicalize path = some loc) :
    startsWith (render loc) root = true ↔ root <+: loc := by
  obtain ⟨hlocate, -⟩ := canonicalize_eq_some.mp h
  exact startsWith_render (resolved_of_locate host.cwd_directory hlocate).names

theorem sandboxCheck_cases (hroot : sandboxRoot host = some root) :
    (Below host root path ∧
      sandboxCheck host path = .ok (((host.canonicalize path).map render).getD path)) ∨
    (¬ Below host root path ∧ ∃ e, sandboxCheck host path = .error e) := by
  have hbelow : Below host root path ↔
      startsWith (((host.canonicalize path).map render).getD path) root = true := by
    unfold Below
    cases hcanonical : host.canonicalize path with
    | none => rfl
    | some loc => exact (startsWith_canonical hcanonical).symm
  unfold sandboxCheck
  rw [hroot, hbelow]
  dsimp only
  split
  · next h => exact .inl ⟨h, rfl⟩
  · next h => exact .inr ⟨h, _, rfl⟩

theorem inside_canonical {loc : Location} (h : host.canonicalize path = some loc)
    (hroot : root <+: loc) : Inside host root (render loc) := by
  obtain ⟨hlocate, -⟩ := canonicalize_eq_some.mp h
  exact ⟨loc, locate_render (resolved_of_locate host.cwd_directory hlocate), hroot⟩

theorem root_found (h : sandboxRoot host = some root) : (host.fs.find root).isSome := by
  unfold sandboxRoot at h
  split at h
  · split at h
    · cases h
    · exact (canonicalize_eq_some.mp h).2
  · cases h

theorem inside_missing (hroot : sandboxRoot host = some root)
    (hmissing : host.canonicalize path = none) :
    Inside host root path ↔ MadeBelow host root path := by
  constructor
  · intro h
    obtain ⟨loc, hlocate, hprefix⟩ := h
    have hresolved := resolved_of_locate host.cwd_directory hlocate
    have hnot : ¬ (host.fs.find loc).isSome := by
      intro hfound
      have hcanonical := canonicalize_eq_some.mpr ⟨hlocate, hfound⟩
      rw [Host.canonicalize, hcanonical] at hmissing
      cases hmissing
    rcases List.eq_nil_or_concat loc with rfl | ⟨dir, name, rfl⟩
    · exact absurd rfl hnot
    · rw [List.concat_eq_append] at hlocate hprefix hresolved hnot
      have hdirectory := hresolved.parent
      rw [List.dropLast_concat] at hdirectory
      rcases prefix_snoc hprefix with hprefix | rfl
      · exact ⟨dir, name, hdirectory, hlocate, hprefix⟩
      · exact absurd (root_found hroot) hnot
  · intro h
    obtain ⟨dir, name, -, hlocate, hprefix⟩ := h
    exact ⟨dir ++ [name], hlocate, hprefix.trans (List.prefix_append _ _)⟩

theorem opens_unchecked {builtin : FileBuiltin} (h : builtin ≠ .readLines) :
    opens host builtin path = .ok path := by
  cases builtin with
  | readLines => exact absurd rfl h
  | _ => rfl

theorem not_asked_check (h : sandboxRoot host = none) : sandboxCheck host path = .ok path := by
  rw [sandboxCheck, h]

theorem sandbox_exact (host : Host) (builtin : FileBuiltin) (path : List Char) :
    SandboxLaw host builtin path ↔ Confined host builtin path := by
  constructor
  · intro hlaw
    refine ⟨?_, ?_, ?_⟩
    · intro hasked
      cases hroot : sandboxRoot host with
      | some root => exact ⟨root, rfl⟩
      | none =>
          obtain ⟨e, he⟩ := hlaw.refuses hasked hroot
          rw [not_asked_check hroot] at he
          cases he
    · intro root hroot hmissing hstarts
      have hbelow : Below host root path := by
        rw [Below, hmissing]
        exact hstarts
      rcases sandboxCheck_cases hroot with ⟨-, hok⟩ | ⟨hnot, -⟩
      · have hinside := hlaw.contained root _ hroot hok
        rw [hmissing] at hinside
        exact (inside_missing hroot hmissing).mp hinside
      · exact absurd hbelow hnot
    · intro root hroot hbuiltin
      rcases sandboxCheck_cases hroot with ⟨hbelow, -⟩ | ⟨-, e, he⟩
      · exact hbelow
      · obtain ⟨e', he'⟩ := hlaw.performed e he
        rw [opens_unchecked hbuiltin] at he'
        cases he'
  · intro h
    refine ⟨?_, ?_, ?_⟩
    · intro root p hroot hok
      rcases sandboxCheck_cases hroot with ⟨hbelow, hcheck⟩ | ⟨-, e, he⟩
      · rw [hcheck] at hok
        cases hok
        cases hcanonical : host.canonicalize path with
        | none =>
            rw [Below, hcanonical] at hbelow
            exact (inside_missing hroot hcanonical).mpr (h.missing root hroot hcanonical hbelow)
        | some loc =>
            rw [Below, hcanonical] at hbelow
            exact inside_canonical hcanonical hbelow
      · rw [he] at hok
        cases hok
    · intro hasked hroot
      obtain ⟨root, hsome⟩ := h.root hasked
      rw [hsome] at hroot
      cases hroot
    · intro e he
      by_cases hbuiltin : builtin = .readLines
      · rw [hbuiltin, opens, he]
        exact ⟨_, rfl⟩
      · cases hroot : sandboxRoot host with
        | none =>
            rw [not_asked_check hroot] at he
            cases he
        | some root =>
            have hbelow := h.unchecked root hroot hbuiltin
            rcases sandboxCheck_cases hroot with ⟨-, hok⟩ | ⟨hnot, -⟩
            · rw [hok] at he
              cases he
            · exact absurd hbelow hnot

/-- A file system with the directory `/box` alone. -/
def boxed (rootVariable : List Char) : Host where
  fs := ⟨[([['b', 'o', 'x']], .dir)], by
    intro e he target htarget
    rw [List.mem_singleton.mp he] at htarget
    cases htarget⟩
  cwd := []
  cwd_directory := IsDirectory.root _
  rootVariable := some rootVariable

/-- The missing file `/box/../key` is let through and is made outside, a root that is not there
allows everything, and `read-file` opens what the check refuses. -/
theorem sandbox_escapes :
    (sandboxCheck (boxed "/box".toList) "/box/../key".toList = .ok "/box/../key".toList ∧
      (boxed "/box".toList).locate "/box/../key".toList = some ["key".toList]) ∧
    ¬ SandboxLaw (boxed "/box".toList) .readLines "/box/../key".toList ∧
    ¬ SandboxLaw (boxed "/lost".toList) .readLines "/key".toList ∧
    ¬ SandboxLaw (boxed "/box".toList) .readFile "/key".toList := by
  have hroot : sandboxRoot (boxed "/box".toList) = some ["box".toList] := by decide
  have hcheck : sandboxCheck (boxed "/box".toList) "/box/../key".toList =
      .ok "/box/../key".toList := by decide
  have hlocate : (boxed "/box".toList).locate "/box/../key".toList =
      some ["key".toList] := by decide
  refine ⟨⟨hcheck, hlocate⟩, ?_, ?_, ?_⟩
  · intro hlaw
    obtain ⟨loc, hloc, hinside⟩ := hlaw.contained _ _ hroot hcheck
    rw [hlocate] at hloc
    cases hloc
    revert hinside
    decide
  · intro hlaw
    have hnone : sandboxRoot (boxed "/lost".toList) = none := by decide
    obtain ⟨e, he⟩ := hlaw.refuses ⟨"/lost".toList, rfl, by decide⟩ hnone
    rw [not_asked_check hnone] at he
    cases he
  · intro hlaw
    have hnot : ¬ Below (boxed "/box".toList) ["box".toList] "/key".toList := by
      have hmissing : (boxed "/box".toList).canonicalize "/key".toList = none := by decide
      rw [Below, hmissing]
      decide
    rcases sandboxCheck_cases hroot with ⟨hbelow, -⟩ | ⟨-, e, he⟩
    · exact absurd hbelow hnot
    · obtain ⟨e', he'⟩ := hlaw.performed e he
      cases he'

end Airl.Sandbox
