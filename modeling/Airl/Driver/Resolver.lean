import Airl.Library.Paths

/-! # Import resolution

`resolver.rs`: the modules that a file imports are loaded depth first, each once, and returned
behind all they import. Modules are told apart by their canonical paths. The parser is a
parameter.
-/

namespace Airl.Resolver

open Paths

/-- What is looked at in a top-level form. -/
inductive Top where
  | importFile (path : List Char) (alias_ : Option (List Char)) (only : Option (List (List Char)))
  | defn (name : List Char) (isPublic : Bool)
  | defType (name : List Char) (isPublic : Bool)
  | other
  deriving DecidableEq

structure ResolvedModule where
  path : Location
  name : List Char
  tops : List Top
  publicFns : List (List Char)
  publicTypes : List (List Char)
  deriving DecidableEq

structure ImportDirective where
  importPrefix : List Char
  only : Option (List (List Char))
  moduleName : List Char
  deriving DecidableEq

/-- The messages of the system are left out. -/
inductive ResolveError where
  | io (path : List Char)
  | parse (message : String)
  | circularDependency (chain : List Location)
  | sandboxViolation (path : List Char)
  deriving DecidableEq

/-- Why there is no result: an error, or a recursion deeper than the model's bound. -/
inductive Halt where
  | deep
  | error (e : ResolveError)
  deriving DecidableEq

structure State where
  resolved : List ResolvedModule
  visited : List Location
  importMap : List (Location × List ImportDirective)
  deriving DecidableEq

/-- The files, the working directory and the parser. -/
structure Project where
  fs : FileSystem
  cwd : Location
  cwd_directory : IsDirectory fs cwd
  parseFile : List Char → Except String (List Top)

/-- `file_stem` of a name. -/
def stem (name : Name) : Name :=
  let before := (name.reverse.dropWhile (· ≠ '.')).tail.reverse
  if '.' ∉ name ∨ before = [] then name else before

/-- `file_stem`, or the path itself where its last component is no name. -/
def fileStem (path : List Char) : Name :=
  match ((segments path).filter (· ≠ .here)).getLast? with
  | some (.name n) => stem n
  | _ => path

/-- An import path that is refused as it is written. -/
def refused (path : List Char) : Prop := isAbsolute path = true ∨ ['.', '.'] <:+: path

instance (path : List Char) : Decidable (refused path) :=
  inferInstanceAs (Decidable (isAbsolute path = true ∨ ['.', '.'] <:+: path))

section Resolve

variable (project : Project)

/-- `read_to_string`. -/
def readToString (path : List Char) : Option (List Char) :=
  match (canonicalize project.fs project.cwd path).bind project.fs.find with
  | some (.file text) => text
  | _ => none

/-- The imports of a module, each loaded by `visit`. -/
def importLoop (visit : List Char → State → Except Halt State) (root parent : Location) :
    List Top → State → List ImportDirective → Except Halt (State × List ImportDirective)
  | [], st, directives => .ok (st, directives)
  | .importFile path alias_ only :: tops, st, directives =>
    if refused path then .error (.error (.sandboxViolation path))
    else
      match canonicalize project.fs project.cwd (join (render parent) path) with
      | none => .error (.error (.io (join (render parent) path)))
      | some canonicalImport =>
        if startsWith (render canonicalImport) root = false then
          .error (.error (.sandboxViolation path))
        else
          match visit (render canonicalImport) st with
          | .error e => .error e
          | .ok st =>
            importLoop visit root parent tops st (directives ++
              [⟨alias_.getD (fileStem path), only, fileStem path⟩])
  | _ :: tops, st, directives => importLoop visit root parent tops st directives

def publicFns (tops : List Top) : List (List Char) :=
  tops.filterMap fun
    | .defn name true => some name
    | _ => none

def publicTypes (tops : List Top) : List (List Char) :=
  tops.filterMap fun
    | .defType name true => some name
    | _ => none

/-- The part of the stack from the file on, and the file again. -/
def cycleChain (stack : List Location) (canonical : Location) : List Location :=
  stack.drop (stack.idxOf canonical) ++ [canonical]

/-- `resolve_recursive`, at most `depth` calls deep. -/
def resolveRecursive : (depth : Nat) → (root : Location) → (stack : List Location) →
    (filePath : List Char) → State → Except Halt State
  | 0, _, _, _, _ => .error .deep
  | depth + 1, root, stack, filePath, st =>
    match canonicalize project.fs project.cwd filePath with
    | none => .error (.error (.io filePath))
    | some canonical =>
      if canonical ∈ st.visited then .ok st
      else if canonical ∈ stack then
        .error (.error (.circularDependency (cycleChain stack canonical)))
      else
        match readToString project (render canonical) with
        | none => .error (.error (.io (render canonical)))
        | some source =>
          match project.parseFile source with
          | .error message => .error (.error (.parse message))
          | .ok tops =>
            match importLoop project (resolveRecursive depth root (stack ++ [canonical]))
                root canonical.dropLast tops st [] with
            | .error e => .error e
            | .ok (st, directives) =>
              .ok {
                resolved := st.resolved ++ [⟨canonical, fileStem (render canonical), tops,
                  publicFns tops, publicTypes tops⟩]
                visited := canonical :: st.visited
                importMap := (canonical, directives) :: st.importMap }

/-- `resolve_imports`. -/
def resolveImports (depth : Nat) (entryPath : List Char) : Except Halt State :=
  match canonicalize project.fs project.cwd entryPath with
  | none => .error (.error (.io entryPath))
  | some canonical =>
    -- the root directory has no parent
    if canonical = [] then .error (.error (.io entryPath))
    else resolveRecursive project depth canonical.dropLast [] (render canonical) ⟨[], [], []⟩

end Resolve

end Airl.Resolver
