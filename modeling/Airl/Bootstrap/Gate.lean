import Airl.Library.Returns
import Airl.Solver.Z3Cache

/-! # The verification gate of the self-hosted compiler

`bc_compiler.airl` collects the definitions of a program and the levels of its modules, and
compiles each definition that the verdicts on its contract let through. Verdicts and levels both
arrive in a map by name.
-/

namespace Airl.Bootstrap

open Airl.Json (mapSet lookup_mapSet)
open Airl.Solver

abbrev Node := Solver.Z3Cache.Node

/-- An `ASTDefn`: `sig` has the parameters of an `ASTSig`, and none for another node; a clause
list is none where the source has `nil`. -/
structure Defn where
  name : String
  sig : Option (List Node)
  requires : Option (List Node)
  ensures : Option (List Node)
  body : Node
  line : Int
  col : Int

def Defn.reqList (d : Defn) : List Node := d.requires.getD []

def Defn.ensList (d : Defn) : List Node := d.ensures.getD []

/-- A top-level node. -/
inductive Top where
  | defn (d : Defn)
  | importDecl
  | defType
  | module (name : String) (verify : String) (body : List Top)
  | expr (node : Node)

/-- A map of the runtime with texts in it. -/
abbrev TextMap := List (String × String)

def mapGetOr (m : TextMap) (name default : String) : String := (m.lookup name).getD default

/-- What `bc-split-loop` returns: `[defns exprs verify-map]`. -/
structure Split where
  defns : List Defn
  exprs : List Node
  verifyMap : TextMap

def tagDefnsVerify (vm : TextMap) (defns : List Defn) (level : String) : TextMap :=
  defns.foldl (fun vm d => mapSet vm d.name level) vm

mutual

/-- One turn of `bc-split-loop`. -/
def splitTop : Top → Split → Split
  | .defn d, s => { s with defns := s.defns ++ [d] }
  | .importDecl, s => s
  | .defType, s => s
  | .module _ verify body, s =>
    let inner := splitLoop body ⟨[], [], s.verifyMap⟩
    -- the inner definitions include those of the modules in this one
    ⟨s.defns ++ inner.defns, s.exprs ++ inner.exprs,
      tagDefnsVerify inner.verifyMap inner.defns verify⟩
  | .expr node, s => { s with exprs := s.exprs ++ [node] }

def splitLoop : List Top → Split → Split
  | [], s => s
  | node :: nodes, s => splitLoop nodes (splitTop node s)

end

def splitTopLevels (nodes : List Top) : Split := splitLoop nodes ⟨[], [], []⟩

def overrideAllProven (vm : TextMap) (defns : List Defn) : TextMap :=
  defns.foldl (fun vm d => mapSet vm d.name "proven") vm

/-- `disproven:` with the text of a counterexample behind it. -/
def hasModel (proofResult : String) : Bool :=
  proofResult.toList.length ≥ 10 && proofResult.toList.take 10 = "disproven:".toList

/-- The level at which a definition is compiled, or the error that refuses it. -/
def effectiveLevel (verifyMap proofMap : TextMap) (d : Defn) : Except String String :=
  let verifyLevel := mapGetOr verifyMap d.name "checked"
  let proofResult := mapGetOr proofMap d.name "none"
  if proofResult = "disproven" then
    .error ("Z3 contract violation: function '" ++ d.name ++ "' has a disproven contract")
  else if hasModel proofResult then
    .error ("Z3 contract violation: function '" ++ d.name ++
      "' has a disproven contract\n  counterexample: " ++
        String.ofList (proofResult.toList.drop 10))
  else if verifyLevel = "proven" then
    if proofResult = "unknown" then
      if d.reqList.length + d.ensList.length = 0 then .ok verifyLevel
      else .error ("Z3 verification failed: function '" ++ d.name ++
        "' has verify-level 'proven' but contracts are unknown")
    -- also where there is no verdict, and where it is a word of its own
    else .ok "trusted"
  else .ok (if proofResult = "proven" then "trusted" else verifyLevel)

/-- What `bc-compile-function-ext` returns: `[func lambdas lambda-ctr]`. -/
structure Compiled (Func : Type) where
  func : Func
  lambdas : List Func
  lambdaCtr : Nat

/-- `bc-compile-function-ext`, on its arguments in order. -/
abbrev CompileFunctionExt (Func : Type) :=
  String → List Node → Node → Nat → List Node → List Node → String → Nat → String →
    Except String (Compiled Func)

def paramName : Node → Node
  | .variant "ASTParam" (.list [n, _]) => n
  | _ => .str "?"

section Compile

variable {Func : Type} (compileFunctionExt : CompileFunctionExt Func)

def compileDefnsPrefixedWithProofs (modPrefix : String) (verifyMap proofMap : TextMap) :
    List Defn → Except String (List Func)
  | [] => .ok []
  | d :: defns =>
    match d.sig with
    | none => .error "bc-compile-defns: defn requires sig"
    | some params => do
        let level ← effectiveLevel verifyMap proofMap d
        let result ← compileFunctionExt d.name (params.map paramName) d.body 0 [] [] modPrefix 0
          level
        let rest ← compileDefnsPrefixedWithProofs modPrefix verifyMap proofMap defns
        return result.func :: result.lambdas ++ rest

/-- The body of `__main__`. -/
def mainBody : List Node → Node
  | [] => .variant "ASTNil" (.list [.int 0, .int 0])
  | [e] => e
  | exprs => .variant "ASTDo" (.list [.list exprs, .int 0, .int 0])

/-- The common part of the two compilations with proofs. -/
def compileSplit (modPrefix : String) (verifyMap proofMap : TextMap) (split : Split) :
    Except String (List Func) := do
  let funcList ← compileDefnsPrefixedWithProofs compileFunctionExt modPrefix verifyMap proofMap
    split.defns
  let main ← compileFunctionExt "__main__" [] (mainBody split.exprs) 0 [] [] modPrefix 0 "checked"
  return funcList ++ (main.lambdas ++ [main.func])

def compileProgramWithPrefixAndProofs (nodes : List Top) (modPrefix : String)
    (proofMap : TextMap) : Except String (List Func) :=
  let split := splitTopLevels nodes
  compileSplit compileFunctionExt modPrefix split.verifyMap proofMap split

/-- In strict mode every definition is at level `proven`. -/
def compileProgramWithPrefixProofsStrict (nodes : List Top) (modPrefix : String)
    (proofMap : TextMap) : Except String (List Func) :=
  let split := splitTopLevels nodes
  compileSplit compileFunctionExt modPrefix (overrideAllProven split.verifyMap split.defns) proofMap
    split

/-- As `g3-compile-source-with-z3-strict` chooses between the two. -/
def compileProgram (strict : Bool) (nodes : List Top) (modPrefix : String) (proofMap : TextMap) :
    Except String (List Func) :=
  if strict then compileProgramWithPrefixProofsStrict compileFunctionExt nodes modPrefix proofMap
  else compileProgramWithPrefixAndProofs compileFunctionExt nodes modPrefix proofMap

end Compile

mutual

/-- The functions in a node, at any depth, with the level of the module around them. -/
def fnsIn (strict : Bool) (level : String) : Top → List (Defn × String)
  | .defn d => [(d, if strict then "proven" else level)]
  | .module _ verify body => fnsInAll strict verify body
  | .importDecl => []
  | .defType => []
  | .expr _ => []

def fnsInAll (strict : Bool) (level : String) : List Top → List (Defn × String)
  | [] => []
  | node :: nodes => fnsIn strict level node ++ fnsInAll strict level nodes

end

/-- Every function of a program. -/
def everyFn (strict : Bool) (nodes : List Top) : List (Defn × String) :=
  fnsInAll strict "checked" nodes

def Defn.HasContracts (d : Defn) : Prop := d.reqList.length + d.ensList.length ≠ 0

/-- Verdicts in the order in which they are recorded, each with the function it is of. -/
abbrev Recorded := List (Defn × String)

/-- The proof map that the verdicts are recorded in. -/
def proofMapOf (recorded : Recorded) : TextMap :=
  recorded.foldl (fun m e => mapSet m e.1.name e.2) []

/-- The last verdict recorded for this very function. -/
def VerdictOf (d : Defn) : Recorded → String → Prop
  | [], _ => False
  | (d', w) :: recorded, v =>
    VerdictOf d recorded v ∨ (d' = d ∧ w = v ∧ ∀ u, ¬ VerdictOf d recorded u)

def Disproven (v : String) : Prop := v = "disproven" ∨ hasModel v = true

/-- No function with a contract is disproven, and each that is to be proven has been. -/
def GateHolds (recorded : Recorded) (strict : Bool) (nodes : List Top) : Prop :=
  ∀ d level, (d, level) ∈ everyFn strict nodes → d.HasContracts →
    (∀ v, VerdictOf d recorded v → ¬ Disproven v) ∧
      (level = "proven" → VerdictOf d recorded "proven")

/-- The level that a node gives to a name: that of the module, if a function in it has this name, at
any depth. -/
def taggedBy : Top → String → Option String
  | .module _ verify body, name =>
    if (fnsInAll false verify body).any (·.1.name = name) then some verify else none
  | .defn _, _ => none
  | .importDecl, _ => none
  | .defType, _ => none
  | .expr _, _ => none

/-- The level under which the verify map has a name: the last module of the top level decides. -/
def taggedLevel : List Top → String → Option String
  | [], _ => none
  | node :: nodes, name => (taggedLevel nodes name).or (taggedBy node name)

def levelByName (strict : Bool) (nodes : List Top) (name : String) : String :=
  if strict then "proven" else (taggedLevel nodes name).getD "checked"

/-- Every function to be proven has a verdict, in one of the words that the gate knows. -/
def Answered (recorded : Recorded) (strict : Bool) (nodes : List Top) : Prop :=
  ∀ d, (d, "proven") ∈ everyFn strict nodes → d.HasContracts →
    ∃ v, VerdictOf d recorded v ∧ (v = "proven" ∨ v = "unknown" ∨ Disproven v)

/-- No other function of the same name hides a verdict that has to be refused. -/
def VerdictsKept (recorded : Recorded) (strict : Bool) (nodes : List Top) : Prop :=
  ∀ d level, (d, level) ∈ everyFn strict nodes → d.HasContracts →
    ∀ v, VerdictOf d recorded v → Disproven v ∨ (level = "proven" ∧ v = "unknown") →
      (proofMapOf recorded).lookup d.name = some v

/-- No function that is to be proven, and is not, has another level under its name. -/
def LevelsKept (recorded : Recorded) (strict : Bool) (nodes : List Top) : Prop :=
  ∀ d, (d, "proven") ∈ everyFn strict nodes → d.HasContracts → VerdictOf d recorded "unknown" →
    levelByName strict nodes d.name = "proven"

theorem VerdictOf.unique {d : Defn} {recorded : Recorded} {v w : String}
    (hv : VerdictOf d recorded v) (hw : VerdictOf d recorded w) : v = w := by
  induction recorded with
  | nil => cases hv
  | cons e recorded ih =>
    rcases hv with hv | ⟨-, hv, hnone⟩
    · rcases hw with hw | ⟨-, -, hnone⟩
      · exact ih hv hw
      · exact absurd hv (hnone v)
    · rcases hw with hw | ⟨-, hw, -⟩
      · exact absurd hw (hnone w)
      · exact hv.symm.trans hw

mutual

theorem splitTop_defns (strict : Bool) (level : String) (node : Top) (s : Split) :
    (splitTop node s).defns = s.defns ++ (fnsIn strict level node).map Prod.fst := by
  cases node with
  | defn d => rfl
  | importDecl => exact (List.append_nil _).symm
  | defType => exact (List.append_nil _).symm
  | expr node => exact (List.append_nil _).symm
  | module name verify body =>
    rw [splitTop, fnsIn, splitLoop_defns strict verify body]
    rfl

theorem splitLoop_defns (strict : Bool) (level : String) (nodes : List Top) (s : Split) :
    (splitLoop nodes s).defns = s.defns ++ (fnsInAll strict level nodes).map Prod.fst := by
  cases nodes with
  | nil => exact (List.append_nil _).symm
  | cons node nodes =>
    rw [splitLoop, splitLoop_defns strict level nodes, splitTop_defns strict level node, fnsInAll,
      List.map_append, List.append_assoc]

end

theorem lookup_tagDefnsVerify (vm : TextMap) (defns : List Defn) (level name : String) :
    (tagDefnsVerify vm defns level).lookup name =
      if defns.any (·.name = name) then some level else vm.lookup name := by
  unfold tagDefnsVerify
  induction defns generalizing vm with
  | nil => rfl
  | cons d defns ih =>
    rw [List.foldl_cons, ih, lookup_mapSet, List.any_cons]
    by_cases hname : d.name = name
    · simp [hname]
    · simp [hname, Ne.symm hname]

theorem taggedLevel_eq_none {level name : String} {nodes : List Top}
    (h : (fnsInAll false level nodes).any (·.1.name = name) = false) :
    taggedLevel nodes name = none := by
  induction nodes with
  | nil => rfl
  | cons node nodes ih =>
    rw [fnsInAll, List.any_append, Bool.or_eq_false_iff] at h
    rw [taggedLevel, ih h.2, Option.none_or]
    cases node with
    | module _ verify body =>
      have hbody : (fnsInAll false verify body).any (·.1.name = name) = false := h.1
      rw [taggedBy, hbody]
      rfl
    | defn d => rfl
    | importDecl => rfl
    | defType => rfl
    | expr node => rfl

mutual

theorem splitTop_verifyMap (node : Top) (s : Split) (name : String) :
    (splitTop node s).verifyMap.lookup name =
      (taggedBy node name).or (s.verifyMap.lookup name) := by
  cases node with
  | defn d => rfl
  | importDecl => rfl
  | defType => rfl
  | expr node => rfl
  | module _ verify body =>
    rw [splitTop, lookup_tagDefnsVerify, splitLoop_defns false verify, splitLoop_verifyMap body,
      taggedBy, List.nil_append, List.any_map]
    change (if (fnsInAll false verify body).any (·.1.name = name) then some verify
      else (taggedLevel body name).or (s.verifyMap.lookup name)) = _
    cases hany : (fnsInAll false verify body).any (·.1.name = name) with
    | true => rfl
    | false =>
      -- no function of this name is in the body, so nothing in it has tagged the name
      rw [taggedLevel_eq_none hany]
      rfl

/-- A module gives its level to every function in it, over what the modules in it have given. -/
theorem splitLoop_verifyMap (nodes : List Top) (s : Split) (name : String) :
    (splitLoop nodes s).verifyMap.lookup name =
      (taggedLevel nodes name).or (s.verifyMap.lookup name) := by
  cases nodes with
  | nil => rfl
  | cons node nodes =>
    rw [splitLoop, splitLoop_verifyMap nodes, splitTop_verifyMap node, taggedLevel,
      Option.or_assoc]

end

/-- The verdict and the level found under the name do not refuse the function. -/
def Admitted (verifyMap proofMap : TextMap) (d : Defn) : Prop :=
  ¬ Disproven (mapGetOr proofMap d.name "none") ∧
    (mapGetOr verifyMap d.name "checked" = "proven" →
      mapGetOr proofMap d.name "none" = "unknown" → ¬ d.HasContracts)

theorem admitted_of_effectiveLevel {verifyMap proofMap : TextMap} {d : Defn} {level : String}
    (h : effectiveLevel verifyMap proofMap d = .ok level) : Admitted verifyMap proofMap d := by
  dsimp only [effectiveLevel] at h
  split at h
  · cases h
  next hdisproven =>
    split at h
    · cases h
    next hmodel =>
      refine ⟨fun hd => hd.elim hdisproven hmodel, fun hlevel hunknown hcontracts => ?_⟩
      rw [if_pos hlevel, if_pos hunknown, if_neg hcontracts] at h
      cases h

section Compile

variable {Func : Type} {compileFunctionExt : CompileFunctionExt Func} {modPrefix : String}

theorem compileDefns_passed {verifyMap proofMap : TextMap} {defns : List Defn}
    {funcs : List Func}
    (h : compileDefnsPrefixedWithProofs compileFunctionExt modPrefix verifyMap proofMap defns =
      .ok funcs) : ∀ d ∈ defns, d.sig.isSome = true ∧ Admitted verifyMap proofMap d := by
  induction defns generalizing funcs with
  | nil =>
    intro d hd
    cases hd
  | cons d defns ih =>
    unfold compileDefnsPrefixedWithProofs at h
    split at h
    · cases h
    next params hsig =>
      obtain ⟨level, hlevel, h⟩ := except_bind_eq_ok.mp h
      obtain ⟨result, -, h⟩ := except_bind_eq_ok.mp h
      obtain ⟨rest, hrest, -⟩ := except_bind_eq_ok.mp h
      have hhead : d.sig.isSome = true ∧ Admitted verifyMap proofMap d := by
        rw [hsig]
        exact ⟨rfl, admitted_of_effectiveLevel hlevel⟩
      exact List.forall_mem_cons.mpr ⟨hhead, ih hrest⟩

theorem mapGetOr_verifyMap (nodes : List Top) (name : String) :
    mapGetOr (splitTopLevels nodes).verifyMap name "checked" = levelByName false nodes name := by
  rw [mapGetOr, splitTopLevels, splitLoop_verifyMap, List.lookup_nil, Option.or_none]
  rfl

theorem mapGetOr_overrideAllProven (vm : TextMap) {defns : List Defn} {d : Defn}
    (hd : d ∈ defns) : mapGetOr (overrideAllProven vm defns) d.name "checked" = "proven" := by
  have hany : defns.any (·.name = d.name) = true := List.any_eq_true.mpr ⟨d, hd, decide_eq_true rfl⟩
  have hlookup := lookup_tagDefnsVerify vm defns "proven" d.name
  rw [hany, if_pos rfl] at hlookup
  rw [mapGetOr, overrideAllProven]
  exact congrArg (Option.getD · "checked") hlookup

/-- No function is refused by the level and the verdict under its name. -/
def AllAdmitted (proofMap : TextMap) (strict : Bool) (nodes : List Top) : Prop :=
  ∀ d level, (d, level) ∈ everyFn strict nodes →
    ¬ Disproven (mapGetOr proofMap d.name "none") ∧
      (levelByName strict nodes d.name = "proven" →
        mapGetOr proofMap d.name "none" = "unknown" → ¬ d.HasContracts)

theorem mem_splitTopLevels {strict : Bool} {nodes : List Top} {d : Defn} {level : String}
    (hd : (d, level) ∈ everyFn strict nodes) : d ∈ (splitTopLevels nodes).defns := by
  rw [splitTopLevels, splitLoop_defns strict "checked"]
  exact List.mem_map.mpr ⟨_, hd, rfl⟩

theorem compileProgram_admitted {strict : Bool} {nodes : List Top} {proofMap : TextMap}
    {funcs : List Func}
    (h : compileProgram compileFunctionExt strict nodes modPrefix proofMap = .ok funcs) :
    AllAdmitted proofMap strict nodes := by
  intro d level hd
  have hmem := mem_splitTopLevels hd
  cases strict with
  | false =>
    obtain ⟨funcList, hdefns, -⟩ := except_bind_eq_ok.mp h
    have hadmitted := (compileDefns_passed hdefns d hmem).2
    rwa [Admitted, mapGetOr_verifyMap] at hadmitted
  | true =>
    obtain ⟨funcList, hdefns, -⟩ := except_bind_eq_ok.mp h
    have hadmitted := (compileDefns_passed hdefns d hmem).2
    rwa [Admitted, mapGetOr_overrideAllProven _ hmem] at hadmitted

theorem gateHolds_iff_of_admitted {strict : Bool} {nodes : List Top} {recorded : Recorded}
    (h : AllAdmitted (proofMapOf recorded) strict nodes) :
    GateHolds recorded strict nodes ↔
      Answered recorded strict nodes ∧ VerdictsKept recorded strict nodes ∧
        LevelsKept recorded strict nodes := by
  constructor
  · intro hgate
    refine ⟨fun d hd hcontracts => ⟨"proven", (hgate d _ hd hcontracts).2 rfl, .inl rfl⟩, ?_, ?_⟩
    · intro d level hd hcontracts v hv hadverse
      obtain ⟨hnot, hproven⟩ := hgate d level hd hcontracts
      rcases hadverse with hdisproven | ⟨hlevel, hunknown⟩
      · exact absurd hdisproven (hnot v hv)
      · exact absurd ((hproven hlevel).unique (hunknown ▸ hv)) (by decide)
    · intro d hd hcontracts hunknown
      exact absurd (((hgate d _ hd hcontracts).2 rfl).unique hunknown) (by decide)
  · intro hconditions d level hd hcontracts
    obtain ⟨hanswered, hverdicts, hlevels⟩ := hconditions
    obtain ⟨hdisproven, hunknown⟩ := h d level hd
    have hnot : ∀ v, VerdictOf d recorded v → ¬ Disproven v := by
      intro v hv hv'
      rw [mapGetOr, hverdicts d level hd hcontracts v hv (.inl hv')] at hdisproven
      exact hdisproven hv'
    refine ⟨hnot, fun hlevel => ?_⟩
    subst hlevel
    obtain ⟨v, hv, hword⟩ := hanswered d hd hcontracts
    rcases hword with hword | hword | hword
    · exact hword ▸ hv
    · -- such a verdict would have been refused, under this name and level
      subst hword
      have hlookup := hverdicts d _ hd hcontracts _ hv (.inr ⟨rfl, rfl⟩)
      refine absurd hcontracts (hunknown (hlevels d hd hcontracts hv) ?_)
      rw [mapGetOr, hlookup]
      rfl
    · exact absurd hword (hnot v hv)

/-- A compiled program has passed the gate exactly if every function to be proven has a verdict, and
no name hides one that has to be refused, or the level at which it has to be. -/
theorem compileGate_holds_iff {strict : Bool} {nodes : List Top} {recorded : Recorded}
    {funcs : List Func}
    (h : compileProgram compileFunctionExt strict nodes modPrefix (proofMapOf recorded) =
      .ok funcs) :
    GateHolds recorded strict nodes ↔
      Answered recorded strict nodes ∧ VerdictsKept recorded strict nodes ∧
        LevelsKept recorded strict nodes := by
  apply gateHolds_iff_of_admitted
  exact compileProgram_admitted h

end Compile

/-- A compiler to which every body is fine. -/
def compileAny : CompileFunctionExt Unit := fun _ _ _ _ _ _ _ _ _ => .ok ⟨(), [], 0⟩

/-- `(defn f :sig [-> Int] :ensures [(valid result)] :body 0)`, at a place in the source. -/
def someFn (line : Int) : Defn where
  name := "f"
  sig := some []
  requires := some []
  ensures := some [.variant "ASTCall" (.list
    [.variant "ASTSymbol" (.list [.str "valid", .int 1, .int 1]),
      .list [.variant "ASTSymbol" (.list [.str "result", .int 1, .int 1])], .int 1, .int 1])]
  body := .variant "ASTInt" (.list [.int 0, .int 1, .int 1])
  line := line
  col := 1

/-- A function to be proven, in a module of a module that is checked. -/
def nestedModules : List Top :=
  [.module "a" "checked" [.module "b" "proven" [.defn (someFn 1)]]]

/-- A module to be proven. -/
def provenModule : List Top := [.module "a" "proven" [.defn (someFn 1)]]

/-- Two functions of one name. -/
def sameName : List Top :=
  [.module "a" "checked" [.defn (someFn 1)], .module "b" "checked" [.defn (someFn 2)]]

theorem nestedModules_compileGate_holds_iff :
    GateHolds [(someFn 1, "unknown")] false nestedModules ↔
      Answered [(someFn 1, "unknown")] false nestedModules ∧
        VerdictsKept [(someFn 1, "unknown")] false nestedModules ∧
        LevelsKept [(someFn 1, "unknown")] false nestedModules := by
  have h : compileProgram compileAny false nestedModules "" (proofMapOf [(someFn 1, "unknown")]) =
      .ok [(), ()] := by decide +kernel
  exact compileGate_holds_iff h

/-- The gate lets these through: a function without a proof whose level is replaced by that of the
module around its own, one without a verdict, and a disproven one behind a proven one of its
name. -/
theorem compileGate_lets_through :
    (compileProgram compileAny false nestedModules "" (proofMapOf [(someFn 1, "unknown")]) =
        .ok [(), ()] ∧ ¬ GateHolds [(someFn 1, "unknown")] false nestedModules) ∧
      (compileProgram compileAny true provenModule "" (proofMapOf []) = .ok [(), ()] ∧
        ¬ GateHolds [] true provenModule) ∧
      (compileProgram compileAny false sameName ""
          (proofMapOf [(someFn 1, "disproven"), (someFn 2, "proven")]) = .ok [(), (), ()] ∧
        ¬ GateHolds [(someFn 1, "disproven"), (someFn 2, "proven")] false sameName) := by
  have hcontracts : (someFn 1).HasContracts := by
    intro h
    cases h
  refine ⟨⟨by decide +kernel, ?_⟩, ⟨by decide +kernel, ?_⟩, by decide +kernel, ?_⟩
  · intro hgate
    have hproven := (hgate (someFn 1) "proven" (List.mem_singleton_self _) hcontracts).2 rfl
    rcases hproven with hproven | ⟨-, hproven, -⟩
    · exact hproven
    · exact absurd hproven (by decide)
  · intro hgate
    exact (hgate (someFn 1) "proven" (List.mem_singleton_self _) hcontracts).2 rfl
  · intro hgate
    refine (hgate (someFn 1) "checked" List.mem_cons_self hcontracts).1 "disproven" ?_ (.inl rfl)
    refine .inr ⟨rfl, rfl, fun u hu => ?_⟩
    rcases hu with hu | ⟨hsame, -, -⟩
    · exact hu
    · exact absurd (congrArg Defn.line hsame) (by decide)

end Airl.Bootstrap
