import Airl.Parser.Definitions
import Airl.Solver.CacheKey
import Airl.Solver.DiskCache

/-! # The verification gate of the driver

`z3_verify_tops` of `pipeline.rs`: the definitions of a program are collected with their levels, and
each is let through or refused by the verdicts on its contract.
-/

namespace Airl.Driver

open Airl.Solver

/-- The top-level forms; `other` are those without definitions. -/
inductive Top where
  | module (name : String) (verify : VerifyLevel) (body : List Top)
  | defn (f : Defn)
  | other

/-- The level of a function: its own, or that of what is around it. -/
def levelOf (strict : Bool) (outer : VerifyLevel) (f : Defn) : VerifyLevel :=
  if strict then .proven else f.verify.getD outer

/-- The definitions among the forms of one module. -/
def collectBody (strict : Bool) (outer : VerifyLevel) (body : List Top) :
    List (Defn × VerifyLevel) :=
  body.filterMap fun
    | .defn f => some (f, levelOf strict outer f)
    | _ => none

/-- `all_fns`. -/
def allFns (strict : Bool) (tops : List Top) : List (Defn × VerifyLevel) :=
  tops.flatMap fun
    | .defn f => [(f, levelOf strict default f)]
    | .module _ verify body => collectBody strict verify body
    | .other => []

/-- `module_path_for_fn`. -/
def modulePathForFn (fnName : String) (tops : List Top) : String :=
  (tops.findSome? fun
    | .module name _ body =>
      if body.any (fun
          | .defn f => f.name = fnName
          | _ => false)
      then some name else none
    | _ => none).getD "<top-level>"

/-- What the gate gets from the prover: a verdict for each clause. -/
structure Prover where
  verifyFunction : FnDef → FunctionVerification
  ensures_length : ∀ f, (verifyFunction f).ensuresResults.length = f.ensures.length
  invariants_length : ∀ f, (verifyFunction f).invariantsResults.length = f.invariants.length

def results (v : FunctionVerification) : List (List Char × VerifyResult) :=
  v.ensuresResults ++ v.invariantsResults

/-- `ProofCache`, the last insertion first. -/
abbrev ProofCache := List ((String × List Char) × VerifyResult)

inductive PipelineMode where
  | run
  | check
  | repl
  deriving Repr, DecidableEq

inductive PipelineError where
  | contractCoverageMissing (fnName module : String)
  | contractDisproven (fnName : String) (clause : List Char)
      (counterexample : List (List Char × List Char))
  | contractUnprovable (fnName : String) (clause reason : List Char)
  deriving Repr, DecidableEq

structure GateState where
  disk : DiskCache
  cacheKeys : List UInt64
  proofs : ProofCache
  trusted : List String
  warned : List String
  /-- What is printed for the user. -/
  lines : List (List Char)

section Gate

-- the digits of floats, the characters that `{:?}` writes by their number, and the hasher
variable (F : FloatText) (hidden : Char → Bool) (hash : List UInt8 → UInt64) (prover : Prover)
  (mode : PipelineMode)

def cacheKey (f : FnDef) : UInt64 := hash (cacheKeyBytes F hidden f)

def provenNote (fnName : String) (clause : List Char) : List Char :=
  ("note: " ++ "`" ++ fnName ++ "`" ++ " contract proven: ").toList ++ clause

def unknownWarning (fnName : String) : List Char :=
  ("warning: Z3 returned Unknown/TranslationError for `" ++ fnName
    ++ "`, falling back to runtime checking").toList

/-- A clause without a verdict refuses a function that is to be proven. -/
def unprovable (level : VerifyLevel) (fnName : String) (clause reason : List Char)
    (st : GateState) :
    Except PipelineError GateState :=
  if level = .proven then .error (.contractUnprovable fnName clause reason)
  else if fnName ∈ st.warned then .ok st
  else .ok { st with warned := fnName :: st.warned, lines := st.lines ++ [unknownWarning fnName] }

def checkResult (level : VerifyLevel) (fnName : String) (st : GateState)
    (r : List Char × VerifyResult) : Except PipelineError GateState :=
  let st := { st with proofs := ((fnName, r.1), r.2) :: st.proofs }
  match r.2 with
  | .proven =>
    .ok (if mode = .check then { st with lines := st.lines ++ [provenNote fnName r.1] } else st)
  | .disproven counterexample => .error (.contractDisproven fnName r.1 counterexample)
  | .unknown reason => unprovable level fnName r.1 reason st
  | .translationError reason => unprovable level fnName r.1 reason st

/-- The verdicts on a function, from the disk cache if it has an entry under its key. -/
def lookupOrVerify (disk : DiskCache) (f : FnDef) : FunctionVerification × DiskCache :=
  match disk.get (cacheKey F hidden hash f) with
  | some cached => (cached, disk)
  | none =>
    let v := prover.verifyFunction f
    (v, disk.insert (cacheKey F hidden hash f) v)

/-- One turn of the loop. -/
def gateFn (tops : List Top) (st : GateState) (p : Defn × VerifyLevel) :
    Except PipelineError GateState :=
  let (f, level) := p
  if level = .proven ∧ f.isPublic ∧ f.ensures.isEmpty then
    .error (.contractCoverageMissing f.name (modulePathForFn f.name tops))
  else if level = .trusted then .ok { st with trusted := st.trusted.insert f.name }
  else
    let (v, disk) := lookupOrVerify F hidden hash prover st.disk f.toFnDef
    (results v).foldlM (checkResult mode level f.name)
      { st with disk := disk, cacheKeys := st.cacheKeys ++ [cacheKey F hidden hash f.toFnDef] }

/-- `evict_stale`. -/
def evictStale (disk : DiskCache) (currentKeys : List UInt64) : DiskCache where
  entries := disk.entries.filter fun e => e.1 ∈ currentKeys
  dirty := true
  distinct := disk.distinct.sublist (List.filter_sublist.map _)

def initialState (disk : DiskCache) : GateState where
  disk := disk
  cacheKeys := []
  proofs := []
  trusted := []
  warned := []
  lines := []

/-- `z3_verify_tops`; `loaded` is what is read from the disk, and `none` where the cache is off. -/
def z3VerifyTops (strict : Bool) (loaded : Option DiskCache) (tops : List Top) :
    Except PipelineError GateState := do
  let st ← (allFns strict tops).foldlM (gateFn F hidden hash prover mode tops)
    (initialState (loaded.getD .new))
  return if loaded.isSome then { st with disk := evictStale st.disk st.cacheKeys } else st

end Gate

end Airl.Driver
