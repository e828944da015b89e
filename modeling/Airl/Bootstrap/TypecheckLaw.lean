import Airl.Bootstrap.Typecheck
import Airl.Library.Returns
import Mathlib.Data.Finset.Lattice.Lemmas
import Mathlib.Data.List.Nodup
import Mathlib.Data.List.Pairwise

/-! # Type checking and the order of definitions

The first pass depends on the order of the nodes through the registry alone; the second finds the
same environment and registry in every order. A declared type is asked for under its name, and
stored under a key with a prefix.
-/

namespace Airl.Bootstrap.Typecheck

/-- The name is built in or a key of the registry. -/
def Known (reg : Registry) (name : String) : Prop :=
  (builtinTypes.lookup name).isSome ∨ name ≠ "Any" ∧ name ∈ reg

def typeOf (name : String) : Ty := (builtinTypes.lookup name).getD (.named name [])

theorem resolveTypeName_eq_ok_iff {name : String} {reg : Registry} {ty : Ty} :
    resolveTypeName name reg = .ok ty ↔ Known reg name ∧ ty = typeOf name := by
  unfold resolveTypeName Known typeOf
  cases builtinTypes.lookup name with
  | some found => simp [eq_comm]
  | none =>
    by_cases hany : name = "Any"
    · simp [hany]
    · by_cases hmem : name ∈ reg
      · simp [hany, hmem, eq_comm]
      · simp [hany, hmem]

theorem Known.mono {reg reg' : Registry} {name : String} (h : Known reg name) (hsub : reg ⊆ reg') :
    Known reg' name :=
  h.imp_right fun ⟨hany, hmem⟩ => ⟨hany, hsub hmem⟩

/-- Parameters are bound just if their types are known. -/
theorem bindFnParamTypes_eq_ok_iff {reg : Registry} {params : List Param} {acc tys : List Ty} :
    bindFnParamTypes reg params acc = .ok tys ↔
      (∀ p ∈ params, Known reg p.typeName) ∧
        tys = acc.reverse ++ params.map fun p => typeOf p.typeName := by
  induction params generalizing acc with
  | nil => simp [bindFnParamTypes, eq_comm]
  | cons p rest ih =>
    simp only [bindFnParamTypes, except_bind_eq_ok, resolveTypeName_eq_ok_iff, ih]
    constructor
    · rintro ⟨ty, ⟨hp, rfl⟩, hrest, rfl⟩
      exact ⟨List.forall_mem_cons.mpr ⟨hp, hrest⟩, by simp⟩
    · rintro ⟨hknown, rfl⟩
      obtain ⟨hp, hrest⟩ := List.forall_mem_cons.mp hknown
      exact ⟨_, ⟨hp, rfl⟩, hrest, by simp⟩

theorem bindFnParams_ok {reg : Registry} {params : List Param} {env : Env} {acc : List Ty}
    {r : Env × List Ty} (h : bindFnParams env reg params acc = .ok r) :
    bindFnParamTypes reg params acc = .ok r.2 := by
  induction params generalizing env acc with
  | nil =>
    obtain rfl := Except.ok.inj h
    rfl
  | cons p rest ih =>
    obtain ⟨ty, hty, hrest⟩ := except_bind_eq_ok.mp h
    exact except_bind_eq_ok.mpr ⟨ty, hty, ih hrest⟩

/-- The names of types in the signature of a function. -/
def Top.signature : Top → List String
  | .defn ⟨_, some sig, _⟩ => sig.params.map Param.typeName ++ [sig.retName]
  | _ => []

def Sig.ty (sig : Sig) : Ty :=
  .func (sig.params.map fun p => typeOf p.typeName) (typeOf sig.retName)

/-- The environment after a node. -/
def Top.bind (env : Env) : Top → Env
  | .defn ⟨name, some sig, _⟩ => typeEnvBind env name sig.ty
  | _ => env

/-- The keys that a node adds to the registry. -/
def Top.keys : Top → Registry
  | .deftype name body => registerDeftype name body ∅
  | _ => ∅

def Top.functionName : Top → Option String
  | .defn d => some d.name
  | _ => none

def Top.declaredType : Top → Option String
  | .deftype name _ => some name
  | _ => none

theorem mem_registerSumCtors {variants : List String} {reg : Registry} {key : String} :
    key ∈ registerSumCtors variants reg ↔ key ∈ reg ∨ ∃ v ∈ variants, key = "ctor:" ++ v := by
  unfold registerSumCtors
  induction variants generalizing reg with
  | nil => simp
  | cons v rest ih => simp [ih, registryAddCtor, or_assoc, or_left_comm]

theorem registerDeftype_union (name : String) (body : TypeBody) (reg : Registry) :
    registerDeftype name body reg = reg ∪ registerDeftype name body ∅ := by
  ext key
  cases body with
  | sum variants =>
    simp [registerDeftype, registryAddType, mem_registerSumCtors, or_assoc, or_left_comm]
  | product => simp [registerDeftype, registryAddType, registryAddCtor]
  | other => simp [registerDeftype, registryAddType]

/-- A form is registered just if the types of its signature are known. -/
theorem registerFnSig_eq_ok_iff {node : Top} {env : Env} {reg : Registry} {r : Env × Registry} :
    registerFnSig node env reg = .ok r ↔
      (∀ name ∈ node.signature, Known reg name) ∧ r = (node.bind env, reg ∪ node.keys) := by
  rcases node with ⟨name, sig | sig, body⟩ | ⟨name, body⟩ | e
  · simp [registerFnSig, Top.signature, Top.bind, Top.keys, eq_comm]
  · simp only [registerFnSig, except_bind_eq_ok, bindFnParamTypes_eq_ok_iff,
      resolveTypeName_eq_ok_iff]
    constructor
    · rintro ⟨_, ⟨hparams, rfl⟩, _, ⟨hret, rfl⟩, h⟩
      obtain rfl := Except.ok.inj h
      refine ⟨fun name hmem => ?_, by simp [Top.bind, Top.keys, Sig.ty]⟩
      rcases List.mem_append.mp hmem with hmem | hmem
      · obtain ⟨p, hp, rfl⟩ := List.mem_map.mp hmem
        exact hparams p hp
      · obtain rfl := List.mem_singleton.mp hmem
        exact hret
    · rintro ⟨hknown, rfl⟩
      refine ⟨_, ⟨fun p hp => ?_, rfl⟩, _, ⟨hknown _ (by simp [Top.signature]), rfl⟩, ?_⟩
      · exact hknown _ (List.mem_append_left _ (List.mem_map_of_mem hp))
      · simp [Top.bind, Top.keys, Sig.ty]
  · simp [registerFnSig, Top.signature, Top.bind, Top.keys, eq_comm, ← registerDeftype_union]
  · simp [registerFnSig, Top.signature, Top.bind, Top.keys, eq_comm]

/-- The second pass leaves what the first one would, and it resolves the same names. -/
theorem checkTopLevel_ok {node : Top} {env : Env} {reg : Registry} {r : Ty × Env × Registry}
    (h : checkTopLevel node env reg = .ok r) : registerFnSig node env reg = .ok r.2 := by
  rcases node with ⟨name, sig | sig, body⟩ | ⟨name, body⟩ | e
  · simp [checkTopLevel, checkFn, bind, Except.bind] at h
  · obtain ⟨⟨fnTy, env'⟩, hfn, h⟩ := except_bind_eq_ok.mp h
    obtain rfl := Except.ok.inj h
    obtain ⟨⟨fnEnv, paramTys⟩, hparams, hfn⟩ := except_bind_eq_ok.mp hfn
    obtain ⟨retTy, hret, hfn⟩ := except_bind_eq_ok.mp hfn
    refine except_bind_eq_ok.mpr ⟨paramTys, bindFnParams_ok hparams, ?_⟩
    refine except_bind_eq_ok.mpr ⟨retTy, hret, ?_⟩
    dsimp only at hfn
    split at hfn
    · simp at hfn
    · split at hfn
      · obtain ⟨-, rfl⟩ := Prod.mk.inj (Except.ok.inj hfn)
        rfl
      · simp at hfn
  · obtain rfl := Except.ok.inj h
    rfl
  · obtain ⟨ty, -, h⟩ := except_bind_eq_ok.mp h
    obtain rfl := Except.ok.inj h
    rfl

def functionNames (nodes : List Top) : List String := nodes.filterMap Top.functionName

/-- The environment with every function of the nodes. -/
def bound (nodes : List Top) (env : Env) : Env := nodes.foldl Top.bind env

/-- The registry with every type of the nodes. -/
def registered (nodes : List Top) (reg : Registry) : Registry :=
  nodes.foldl (fun reg node => reg ∪ node.keys) reg

/-- The first pass resolves every signature at the node it stands in. -/
def Settles : List Top → Registry → Prop
  | [], _ => True
  | node :: rest, reg => (∀ name ∈ node.signature, Known reg name) ∧ Settles rest (reg ∪ node.keys)

theorem mem_registered {nodes : List Top} {reg : Registry} {key : String} :
    key ∈ registered nodes reg ↔ key ∈ reg ∨ ∃ node ∈ nodes, key ∈ node.keys := by
  unfold registered
  induction nodes generalizing reg with
  | nil => simp
  | cons node rest ih => simp [ih, or_assoc]

/-- The first pass ends just if every type is known when it is used. -/
theorem registerAllTopLevels_eq_ok_iff {nodes : List Top} {env : Env} {reg : Registry}
    {r : Env × Registry} :
    registerAllTopLevels nodes env reg = .ok r ↔
      Settles nodes reg ∧ r = (bound nodes env, registered nodes reg) := by
  induction nodes generalizing env reg with
  | nil => simp [registerAllTopLevels, Settles, bound, registered, eq_comm]
  | cons node rest ih =>
    simp only [registerAllTopLevels, except_bind_eq_ok, registerFnSig_eq_ok_iff]
    constructor
    · rintro ⟨_, ⟨hnode, rfl⟩, hrest⟩
      obtain ⟨hsettles, rfl⟩ := ih.mp hrest
      exact ⟨⟨hnode, hsettles⟩, rfl⟩
    · rintro ⟨⟨hnode, hrest⟩, rfl⟩
      exact ⟨_, ⟨hnode, rfl⟩, ih.mpr ⟨hrest, rfl⟩⟩

theorem settles_of_known {nodes : List Top} {reg : Registry}
    (h : ∀ node ∈ nodes, ∀ name ∈ node.signature, Known reg name) : Settles nodes reg := by
  induction nodes generalizing reg with
  | nil => trivial
  | cons node rest ih =>
    refine ⟨h node List.mem_cons_self, ih fun d hd name hname => ?_⟩
    exact (h d (List.mem_cons_of_mem _ hd) name hname).mono Finset.subset_union_left

/-- A list settles just if each part does, the second with the types of the first. -/
theorem settles_append {first second : List Top} {reg : Registry} :
    Settles (first ++ second) reg ↔ Settles first reg ∧ Settles second (registered first reg) := by
  induction first generalizing reg with
  | nil => simp [Settles, registered]
  | cons node rest ih =>
    simp only [List.cons_append, Settles, ih, and_assoc, registered, List.foldl_cons]

/-- Without type declarations every signature meets the registry that the pass began with. -/
theorem Settles.known {nodes : List Top} {reg : Registry} (h : Settles nodes reg)
    (hkeys : ∀ node ∈ nodes, node.keys = ∅) :
    ∀ node ∈ nodes, ∀ name ∈ node.signature, Known reg name := by
  induction nodes with
  | nil => simp
  | cons node rest ih =>
    obtain ⟨hnode, hrest⟩ := h
    obtain ⟨hempty, hkeys⟩ := List.forall_mem_cons.mp hkeys
    rw [hempty, Finset.union_empty] at hrest
    exact List.forall_mem_cons.mpr ⟨hnode, ih hrest hkeys⟩

theorem typeEnvBind_self (env : Env) (name : String) (ty : Ty) :
    typeEnvBind (typeEnvBind env name ty) name ty = typeEnvBind env name ty := by
  simp [typeEnvBind]

theorem typeEnvBind_comm (env : Env) {m n : String} (h : m ≠ n) (s t : Ty) :
    typeEnvBind (typeEnvBind env m s) n t = typeEnvBind (typeEnvBind env n t) m s := by
  simp only [typeEnvBind, Function.update_comm h]

theorem bind_self (node : Top) (env : Env) : (node.bind (node.bind env)) = node.bind env := by
  rcases node with ⟨name, sig | sig, body⟩ | ⟨name, body⟩ | e
  · rfl
  · exact typeEnvBind_self env name sig.ty
  · rfl
  · rfl

theorem bind_comm {x y : Top} (env : Env)
    (h : ∀ name, x.functionName = some name → y.functionName = some name → x = y) :
    y.bind (x.bind env) = x.bind (y.bind env) := by
  rcases x with ⟨m, sigX | sigX, bodyX⟩ | ⟨m, bodyX⟩ | e <;>
    rcases y with ⟨n, sigY | sigY, bodyY⟩ | ⟨n, bodyY⟩ | e' <;> try rfl
  by_cases hmn : m = n
  · rw [h m rfl (congrArg some hmn.symm)]
  · exact typeEnvBind_comm env hmn sigX.ty sigY.ty

variable {nodes nodes' : List Top} (env : Env) (reg : Registry)

theorem eq_of_functionName (honce : (functionNames nodes).Nodup) {x y : Top} (hx : x ∈ nodes)
    (hy : y ∈ nodes) {name : String} (hnx : x.functionName = some name)
    (hny : y.functionName = some name) : x = y := by
  by_contra hne
  have hsymm : Std.Symm fun a b : Top =>
      ∀ m, a.functionName = some m → ∀ n, b.functionName = some n → m ≠ n :=
    ⟨fun a b hab m hm n hn heq => hab n hn m hm heq.symm⟩
  exact (List.pairwise_filterMap.mp honce).forall hx hy hne name hnx name hny rfl

/-- With one definition of each name the order changes no binding. -/
theorem bound_perm (honce : (functionNames nodes).Nodup) (hperm : nodes.Perm nodes') :
    bound nodes env = bound nodes' env :=
  hperm.foldl_eq' (fun _ hx _ hy env => bind_comm env fun _ => eq_of_functionName honce hx hy) env

/-- The order changes no registered type. -/
theorem registered_perm (hperm : nodes.Perm nodes') :
    registered nodes reg = registered nodes' reg := by
  ext key
  simp only [mem_registered, hperm.mem_iff]

theorem bind_bound (honce : (functionNames nodes).Nodup) {node : Top} (hmem : node ∈ nodes) :
    node.bind (bound nodes env) = bound nodes env := by
  obtain ⟨first, rest, rfl⟩ := List.append_of_mem hmem
  have hlast : (first ++ node :: rest).Perm ((first ++ rest) ++ [node]) :=
    List.perm_middle.trans (List.perm_append_singleton _ _).symm
  rw [bound_perm env honce hlast, bound, List.foldl_append, List.foldl_cons, List.foldl_nil,
    bind_self]

theorem union_keys_registered {node : Top} (hmem : node ∈ nodes) :
    registered nodes reg ∪ node.keys = registered nodes reg := by
  refine Finset.union_eq_left.mpr fun key hkey => mem_registered.mpr (.inr ⟨node, hmem, hkey⟩)

theorem checkAllTopLevelsAcc_isOk_iff {env : Env} {reg : Registry} {errors : List String}
    (hsame : ∀ node ∈ nodes, node.bind env = env ∧ reg ∪ node.keys = reg) :
    (checkAllTopLevelsAcc nodes env reg errors).isOk ↔
      errors = [] ∧ ∀ node ∈ nodes, (checkTopLevel node env reg).isOk := by
  induction nodes generalizing errors with
  | nil => cases errors <;> simp [checkAllTopLevelsAcc, Except.isOk, Except.toBool]
  | cons node rest ih =>
    obtain ⟨⟨hbind, hkeys⟩, hrest⟩ := List.forall_mem_cons.mp hsame
    rw [checkAllTopLevelsAcc, List.forall_mem_cons]
    cases hnode : checkTopLevel node env reg with
    | error e =>
      simp only [ih hrest]
      simp [Except.isOk, Except.toBool]
    | ok r =>
      obtain ⟨-, hr⟩ := registerFnSig_eq_ok_iff.mp (checkTopLevel_ok hnode)
      obtain ⟨ty, env', reg'⟩ := r
      obtain ⟨rfl, rfl⟩ := Prod.mk.inj hr
      simp only [hbind, hkeys, ih hrest]
      simp [Except.isOk, Except.toBool]

/-- Every node passes with all functions and types of the program at hand. -/
def PassesComplete (nodes : List Top) (env : Env) (reg : Registry) : Prop :=
  ∀ node ∈ nodes, (checkTopLevel node (bound nodes env) (registered nodes reg)).isOk

/-- A program is accepted just if it settles and its passes complete. -/
theorem typeCheckProgram_isOk_iff (honce : (functionNames nodes).Nodup) :
    (typeCheckProgram nodes env reg).isOk ↔ Settles nodes reg ∧ PassesComplete nodes env reg := by
  by_cases hsettles : Settles nodes reg
  · have hpass := registerAllTopLevels_eq_ok_iff.mpr
      ⟨hsettles, Eq.refl (bound nodes env, registered nodes reg)⟩
    have hsecond := @checkAllTopLevelsAcc_isOk_iff nodes _ _ [] fun node hmem =>
      ⟨bind_bound env honce hmem, union_keys_registered reg hmem⟩
    have hprogram : typeCheckProgram nodes env reg =
        checkAllTopLevelsAcc nodes (bound nodes env) (registered nodes reg) [] := by
      rw [typeCheckProgram, hpass]
      rfl
    simpa [hprogram, hsettles, PassesComplete] using hsecond
  · cases hpass : registerAllTopLevels nodes env reg with
    | ok r => exact absurd (registerAllTopLevels_eq_ok_iff.mp hpass).1 hsettles
    | error e =>
      rw [typeCheckProgram, hpass]
      simp [hsettles, bind, Except.bind, Except.isOk, Except.toBool]

/-- Whether the passes complete does not depend on the order. -/
theorem passesComplete_perm (honce : (functionNames nodes).Nodup) (hperm : nodes.Perm nodes') :
    PassesComplete nodes env reg ↔ PassesComplete nodes' env reg := by
  simp only [PassesComplete, bound_perm env honce hperm, registered_perm reg hperm, hperm.mem_iff]

def Top.isDeftype : Top → Bool
  | .deftype _ _ => true
  | _ => false

def Top.isExpr : Top → Bool
  | .expr _ => true
  | _ => false

/-- The definitions stand in another order; the other nodes follow each other as before. -/
def Reordered (nodes nodes' : List Top) : Prop :=
  nodes.Perm nodes' ∧ nodes.filter Top.isExpr = nodes'.filter Top.isExpr

def OrderIndependent (nodes : List Top) (env : Env) (reg : Registry) : Prop :=
  ∀ nodes', Reordered nodes nodes' →
    (typeCheckProgram nodes' env reg).isOk = (typeCheckProgram nodes env reg).isOk

theorem signature_of_isDeftype {node : Top} (h : node.isDeftype) : node.signature = [] := by
  cases node with
  | deftype => rfl
  | _ => cases h

theorem keys_of_not_isDeftype {node : Top} (h : !node.isDeftype) : node.keys = ∅ := by
  cases node with
  | deftype => cases h
  | _ => rfl

/-- Some of the definitions before the rest, and the rest before them. -/
theorem reordered_filter (p : Top → Bool)
    (hp : ∀ node, node.isExpr → p node = false) (nodes : List Top) :
    Reordered nodes (nodes.filter p ++ nodes.filter fun node => !p node) ∧
      Reordered nodes ((nodes.filter fun node => !p node) ++ nodes.filter p) := by
  have hnone : (nodes.filter p).filter Top.isExpr = [] := by
    refine List.filter_eq_nil_iff.mpr fun node hmem hexpr => ?_
    simp [hp node hexpr] at hmem
  have hrest : (nodes.filter fun node => !p node).filter Top.isExpr = nodes.filter Top.isExpr := by
    rw [List.filter_filter]
    refine List.filter_congr fun node _ => ?_
    cases hexpr : node.isExpr <;> simp [hp, hexpr]
  have hperm := List.filter_append_perm p nodes
  refine ⟨⟨hperm.symm, by simp [hnone, hrest]⟩, ⟨?_, by simp [hnone, hrest]⟩⟩
  exact hperm.symm.trans List.perm_append_comm

/-- Types first, every signature is known. -/
theorem settles_deftypes_first
    (h : ∀ node ∈ nodes, ∀ name ∈ node.signature, Known (registered nodes reg) name) :
    Settles (nodes.filter Top.isDeftype ++ nodes.filter fun node => !node.isDeftype) reg := by
  refine settles_append.mpr ⟨settles_of_known fun node hmem => ?_, settles_of_known ?_⟩
  · simp [signature_of_isDeftype (List.mem_filter.mp hmem).2]
  · intro node hmem name hname
    refine (h node (List.mem_filter.mp hmem).1 name hname).mono fun key hkey => ?_
    refine mem_registered.mpr ((mem_registered.mp hkey).imp_right ?_)
    rintro ⟨d, hd, hkey⟩
    cases hdef : d.isDeftype with
    | true => exact ⟨d, List.mem_filter.mpr ⟨hd, hdef⟩, hkey⟩
    | false =>
      rw [keys_of_not_isDeftype (by simp [hdef])] at hkey
      cases hkey

theorem known_of_settles_deftypes_last
    (h : Settles ((nodes.filter fun node => !node.isDeftype) ++ nodes.filter Top.isDeftype) reg) :
    ∀ node ∈ nodes, ∀ name ∈ node.signature, Known reg name := by
  intro node hmem name hname
  cases hdef : node.isDeftype with
  | true => simp [signature_of_isDeftype hdef] at hname
  | false =>
    have hfirst := (settles_append.mp h).1.known fun d hd =>
      keys_of_not_isDeftype (List.mem_filter.mp hd).2
    exact hfirst node (List.mem_filter.mpr ⟨hmem, by simp [hdef]⟩) name hname

theorem PassesComplete.known (h : PassesComplete nodes env reg) :
    ∀ node ∈ nodes, ∀ name ∈ node.signature, Known (registered nodes reg) name := by
  intro node hmem
  cases hnode : checkTopLevel node (bound nodes env) (registered nodes reg) with
  | ok r => exact (registerFnSig_eq_ok_iff.mp (checkTopLevel_ok hnode)).1
  | error e =>
    have := h node hmem
    simp [hnode, Except.isOk, Except.toBool] at this

/-- The order is irrelevant just if no signature needs a type of the program or a pass fails. -/
theorem orderIndependent_iff (honce : (functionNames nodes).Nodup) :
    OrderIndependent nodes env reg ↔
      (∀ node ∈ nodes, ∀ name ∈ node.signature, Known reg name) ∨
        ¬ PassesComplete nodes env reg := by
  have hverdict : ∀ {nodes'}, nodes.Perm nodes' → ((typeCheckProgram nodes' env reg).isOk ↔
      Settles nodes' reg ∧ PassesComplete nodes env reg) := by
    intro nodes' hperm
    have honce' : (functionNames nodes').Nodup := (hperm.filterMap _).nodup_iff.mp honce
    rw [typeCheckProgram_isOk_iff env reg honce', passesComplete_perm env reg honce hperm]
  constructor
  · intro hsame
    by_cases hpass : PassesComplete nodes env reg
    · left
      obtain ⟨hfirst, hlast⟩ := reordered_filter Top.isDeftype
        (fun node hexpr => by cases node <;> first | rfl | cases hexpr) nodes
      have haccepted := (hverdict hfirst.1).mpr
        ⟨settles_deftypes_first reg (hpass.known env reg), hpass⟩
      rw [hsame _ hfirst, ← hsame _ hlast] at haccepted
      exact known_of_settles_deftypes_last reg ((hverdict hlast.1).mp haccepted).1
    · exact .inr hpass
  · intro h nodes' hre
    rw [Bool.eq_iff_iff, hverdict hre.1, hverdict (.refl nodes)]
    rcases h with hknown | hpass
    · have hsettles : ∀ {order : List Top}, nodes.Perm order → Settles order reg :=
        fun hperm => settles_of_known fun node hmem => hknown node (hperm.mem_iff.mpr hmem)
      simp [hsettles hre.1, hsettles (.refl nodes)]
    · simp [hpass]

/-- In each signature, a name that the program declares resolves to the declared type at the
registry that the first pass has reached. -/
def ResolvesOwnTypes (nodes : List Top) (reg : Registry) : Prop :=
  ∀ before node after, nodes = before ++ node :: after →
    ∀ name ∈ node.signature, name ∈ nodes.filterMap Top.declaredType →
      resolveTypeName name (registered before reg) = .ok (.named name [])

/-- A declared name that a signature uses is not built in, and it is itself a key, of the registry
or of a declaration before the signature. -/
def OwnTypesAreKeys (nodes : List Top) (reg : Registry) : Prop :=
  ∀ before node after, nodes = before ++ node :: after →
    ∀ name ∈ node.signature, name ∈ nodes.filterMap Top.declaredType →
      builtinTypes.lookup name = none ∧ name ≠ "Any" ∧
        (name ∈ reg ∨ ∃ earlier ∈ before, name ∈ earlier.keys)

theorem resolveTypeName_named_iff {name : String} :
    resolveTypeName name reg = .ok (.named name []) ↔
      builtinTypes.lookup name = none ∧ name ≠ "Any" ∧ name ∈ reg := by
  rw [resolveTypeName_eq_ok_iff, Known, typeOf]
  cases hfound : builtinTypes.lookup name with
  | none => simp
  | some ty =>
    obtain ⟨l₁, l₂, hl, -⟩ := List.lookup_eq_some_iff.mp hfound
    have hmem : (name, ty) ∈ builtinTypes := hl ▸ List.mem_append_right _ List.mem_cons_self
    have hty : ty ≠ .named name [] := by
      rintro rfl
      simp [builtinTypes] at hmem
    simp [hty.symm]

/-- In programs that define each function once, types and constructors as often as they like. -/
theorem typeCheckProgram_order_iff (honce : (functionNames nodes).Nodup) :
    (OrderIndependent nodes env reg ↔
      (∀ node ∈ nodes, ∀ name ∈ node.signature, Known reg name) ∨
        ¬ PassesComplete nodes env reg) ∧
    (ResolvesOwnTypes nodes reg ↔ OwnTypesAreKeys nodes reg) := by
  refine ⟨orderIndependent_iff env reg honce, ?_⟩
  simp only [ResolvesOwnTypes, OwnTypesAreKeys, resolveTypeName_named_iff, mem_registered]

/-- `(deftype Color (| (Red)))` and `(defn paint :sig [(c : i64) -> i64] … :body 1)`. -/
def numberProgram : List Top :=
  [.deftype "Color" (.sum ["Red"]), .defn ⟨"paint", some ⟨[⟨"c", "i64"⟩], "i64"⟩, .int⟩]

/-- Where no signature names a declared type, the order does not matter. -/
theorem typeCheckProgram_order_iff_number :
    OrderIndependent numberProgram typeEnvNew makePreludeRegistry ∧
      ResolvesOwnTypes numberProgram makePreludeRegistry := by
  have honce : (functionNames numberProgram).Nodup := List.nodup_singleton "paint"
  obtain ⟨horder, howns⟩ := typeCheckProgram_order_iff typeEnvNew makePreludeRegistry honce
  have hsignature : ∀ node ∈ numberProgram, ∀ name ∈ node.signature, name = "i64" := by
    decide
  refine ⟨horder.mpr (.inl fun node hnode name hname => .inl ?_), howns.mpr ?_⟩
  · rw [hsignature node hnode name hname]
    decide
  · intro before node after heq name hname hdeclared
    have hmem : node ∈ numberProgram := heq ▸ List.mem_append_right _ List.mem_cons_self
    rw [hsignature node hmem name hname] at hdeclared
    exact absurd hdeclared (by decide)

/-- `(deftype Color (| (Red)))` and `(defn paint :sig [(c : Color) -> i64] … :body 1)`. -/
def paintProgram : List Top :=
  [.deftype "Color" (.sum ["Red"]), .defn ⟨"paint", some ⟨[⟨"c", "Color"⟩], "i64"⟩, .int⟩]

theorem paint_unknown :
    ¬ (OrderIndependent paintProgram typeEnvNew makePreludeRegistry ∧
        ResolvesOwnTypes paintProgram makePreludeRegistry) ∧
      typeCheckProgram paintProgram typeEnvNew makePreludeRegistry =
        .error "unknown type: Color" := by
  refine ⟨fun ⟨_, howns⟩ => ?_, rfl⟩
  have hfound := howns [.deftype "Color" (.sum ["Red"])] _ [] rfl "Color" (by decide) (by decide)
  have hmissing : "Color" ∉ registered [.deftype "Color" (.sum ["Red"])] makePreludeRegistry := by
    decide
  exact hmissing ((resolveTypeName_named_iff _).mp hfound).2.2

end Airl.Bootstrap.Typecheck
