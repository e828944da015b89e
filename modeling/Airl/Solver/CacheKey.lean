import Airl.Syntax.Debug
import Airl.Library.Utf8

/-! # The key of a cached verification

`cache_key` hashes the texts of the parts of a definition one after the other. A text ends with a
byte that stands in none; where a list ends and the next one begins is not hashed.
-/

namespace Airl

section Key

-- the digits of floats, and the characters that `{:?}` writes by their number
variable (F : FloatText) (hidden : Char → Bool)

/-- The texts that are hashed, in order. -/
def keyParts (d : FnDef) : List (List Char) :=
  d.name.toList ::
    d.params.flatMap (fun p => [p.name.toList, p.ty.kind.debug.render hidden]) ++
    d.returnType.kind.debug.render hidden ::
      (d.requires.map (fun r => (r.debug F).render hidden) ++
        d.ensures.map (fun e => (e.debug F).render hidden) ++
        d.invariants.map (fun i => (i.debug F).render hidden) ++
        [(d.body.debug F).render hidden])

/-- `str::hash`: the bytes of the text, and one that is in no text. -/
def hashStr (text : List Char) : List UInt8 := Utf8.encode text ++ [255]

/-- What `cache_key` feeds the hasher. -/
def cacheKeyBytes (d : FnDef) : List UInt8 := (keyParts F hidden d).flatMap hashStr

theorem hashStr_append_inj {s t : List Char} {r r' : List UInt8}
    (h : hashStr s ++ r = hashStr t ++ r') : s = t ∧ r = r' := by
  simp only [hashStr, List.append_assoc, List.cons_append, List.nil_append] at h
  obtain ⟨hbytes, hrest⟩ := Debug.append_inj_of_stops (p := (· != 255)) (Utf8.encode_ne_255 s)
    (Utf8.encode_ne_255 t) (by simp) (by simp) h
  exact ⟨Utf8.encode_injective hbytes, (List.cons.inj hrest).2⟩

theorem hashStr_ne_nil (s : List Char) (r : List UInt8) : hashStr s ++ r ≠ [] := by
  simp [hashStr]

theorem hashed_injective {texts texts' : List (List Char)}
    (h : texts.flatMap hashStr = texts'.flatMap hashStr) : texts = texts' := by
  induction texts generalizing texts' with
  | nil =>
    cases texts' with
    | nil => rfl
    | cons t texts' => exact absurd h.symm (hashStr_ne_nil t _)
  | cons s texts ih =>
    cases texts' with
    | nil => exact absurd h (hashStr_ne_nil s _)
    | cons t texts' =>
      simp only [List.flatMap_cons] at h
      obtain ⟨hhead, htail⟩ := hashStr_append_inj h
      rw [hhead, ih htail]

variable {F hidden}

theorem type_ne_expr (kind : AstTypeKind) (e : Expr) :
    kind.debug.render hidden ≠ (e.debug F).render hidden := by
  intro h
  have htree := Debug.Value.render_injective h
  obtain ⟨ekind, span⟩ := e
  cases kind <;> exact nomatch htree

theorem params_of_texts {ps ps' : List Param} {ret ret' : AstTypeKind} {es es' : List Expr}
    {e e' : Expr}
    (h : ps.flatMap (fun p => [p.name.toList, p.ty.kind.debug.render hidden]) ++
        ret.debug.render hidden :: (e :: es).map (fun c => (c.debug F).render hidden) =
      ps'.flatMap (fun p => [p.name.toList, p.ty.kind.debug.render hidden]) ++
        ret'.debug.render hidden :: (e' :: es').map (fun c => (c.debug F).render hidden)) :
    ps.map Param.name = ps'.map Param.name ∧
      ps.map (fun p => p.ty.kind) = ps'.map (fun p => p.ty.kind) ∧ ret = ret' ∧
      (e :: es).map (fun c => (c.debug F).render hidden) =
        (e' :: es').map (fun c => (c.debug F).render hidden) := by
  induction ps generalizing ps' with
  | nil =>
    cases ps' with
    | nil =>
      obtain ⟨hret, hes⟩ := List.cons.inj h
      exact ⟨rfl, rfl, AstTypeKind.debug_injective (Debug.Value.render_injective hret), hes⟩
    | cons p' ps' =>
      simp only [List.flatMap_nil, List.nil_append, List.flatMap_cons, List.cons_append,
        List.map_cons, List.cons.injEq] at h
      exact absurd h.2.1.symm (type_ne_expr _ e)
  | cons p ps ih =>
    cases ps' with
    | nil =>
      simp only [List.flatMap_nil, List.nil_append, List.flatMap_cons, List.cons_append,
        List.map_cons, List.cons.injEq] at h
      exact absurd h.2.1 (type_ne_expr _ e')
    | cons p' ps' =>
      simp only [List.flatMap_cons, List.cons_append, List.nil_append, List.cons.injEq] at h
      obtain ⟨hname, htype, hrest⟩ := h
      obtain ⟨hnames, htypes, hret, hes⟩ := ih hrest
      have hkind := AstTypeKind.debug_injective (Debug.Value.render_injective htype)
      rw [List.map_cons, List.map_cons, List.map_cons, List.map_cons,
        String.toList_inj.mp hname, hkind, hnames, htypes]
      exact ⟨rfl, rfl, hret, hes⟩

theorem exprs_of_texts {es es' : List Expr} (hes : ∀ e ∈ es, e.NanFree)
    (hes' : ∀ e ∈ es', e.NanFree)
    (h : es.map (fun e => (e.debug F).render hidden) =
      es'.map (fun e => (e.debug F).render hidden)) : es = es' := by
  induction es generalizing es' with
  | nil =>
    cases es' with
    | nil => rfl
    | cons e' es' => exact nomatch h
  | cons e es ih =>
    cases es' with
    | nil => exact nomatch h
    | cons e' es' =>
      obtain ⟨hhead, htail⟩ := List.cons.inj h
      rw [Expr.debug_injective (hes e List.mem_cons_self) (hes' e' List.mem_cons_self)
          (Debug.Value.render_injective hhead),
        ih (fun c hc => hes c (List.mem_cons_of_mem _ hc))
          (fun c hc => hes' c (List.mem_cons_of_mem _ hc)) htail]

/-- The conditions, the lists one after the other. -/
def FnDef.conditions (d : FnDef) : List Expr := d.requires ++ d.ensures ++ d.invariants

/-- No float literal of the definition is NaN; the lexer reads none. -/
def FnDef.NanFree (d : FnDef) : Prop := ∀ e ∈ d.conditions ++ [d.body], e.NanFree

/-- Two definitions that differ in nothing that is verified. -/
structure SameProblem (d d' : FnDef) : Prop where
  name : d.name = d'.name
  paramNames : d.params.map Param.name = d'.params.map Param.name
  paramTypes : d.params.map (fun p => p.ty.kind) = d'.params.map (fun p => p.ty.kind)
  returnType : d.returnType.kind = d'.returnType.kind
  requires : d.requires = d'.requires
  ensures : d.ensures = d'.ensures
  invariants : d.invariants = d'.invariants
  body : d.body = d'.body

/-- Two definitions that differ in the lists in which their conditions stand, and only there. -/
structure MovedBetweenLists (d d' : FnDef) : Prop where
  name : d.name = d'.name
  paramNames : d.params.map Param.name = d'.params.map Param.name
  paramTypes : d.params.map (fun p => p.ty.kind) = d'.params.map (fun p => p.ty.kind)
  returnType : d.returnType.kind = d'.returnType.kind
  conditions : d.conditions = d'.conditions
  body : d.body = d'.body
  moved : ¬ (d.requires = d'.requires ∧ d.ensures = d'.ensures ∧ d.invariants = d'.invariants)

variable (F hidden)

/-- The texts of a definition, with its conditions in one list. -/
theorem keyParts_eq (d : FnDef) : keyParts F hidden d = d.name.toList ::
    (d.params.flatMap (fun p => [p.name.toList, p.ty.kind.debug.render hidden]) ++
      d.returnType.kind.debug.render hidden ::
        (d.conditions ++ [d.body]).map (fun e => (e.debug F).render hidden)) := by
  simp [keyParts, FnDef.conditions]

theorem paramTexts_eq (ps : List Param) :
    ps.flatMap (fun p => [p.name.toList, p.ty.kind.debug.render hidden]) =
      ((ps.map Param.name).zip (ps.map (fun p => p.ty.kind))).flatMap
        (fun p => [p.1.toList, p.2.debug.render hidden]) := by
  induction ps with
  | nil => rfl
  | cons p ps ih =>
    rw [List.flatMap_cons, ih]
    rfl

variable {F hidden}

theorem cacheKeyBytes_eq_iff {d d' : FnDef} (hd : d.NanFree) (hd' : d'.NanFree) :
    cacheKeyBytes F hidden d = cacheKeyBytes F hidden d' ↔
      d.name = d'.name ∧ d.params.map Param.name = d'.params.map Param.name ∧
        d.params.map (fun p => p.ty.kind) = d'.params.map (fun p => p.ty.kind) ∧
        d.returnType.kind = d'.returnType.kind ∧ d.conditions = d'.conditions ∧
        d.body = d'.body := by
  constructor
  · intro h
    have htexts := hashed_injective h
    rw [keyParts_eq, keyParts_eq] at htexts
    obtain ⟨hname, hrest⟩ := List.cons.inj htexts
    cases hes : d.conditions ++ [d.body] with
    | nil => simp at hes
    | cons e es =>
      cases hes' : d'.conditions ++ [d'.body] with
      | nil => simp at hes'
      | cons e' es' =>
        rw [hes, hes'] at hrest
        obtain ⟨hnames, htypes, hret, hexprs⟩ := params_of_texts hrest
        have hall : d.conditions ++ [d.body] = d'.conditions ++ [d'.body] := by
          apply exprs_of_texts hd hd'
          rw [hes, hes', hexprs]
        obtain ⟨hconditions, hbody⟩ := List.append_inj' hall rfl
        exact ⟨String.toList_inj.mp hname, hnames, htypes, hret, hconditions,
          (List.cons.inj hbody).1⟩
  · rintro ⟨hname, hnames, htypes, hret, hconditions, hbody⟩
    unfold cacheKeyBytes
    rw [keyParts_eq, keyParts_eq, paramTexts_eq, paramTexts_eq, hname, hnames, htypes, hret,
      hconditions, hbody]

/-- Different problems have different keys, unless they differ only in the lists in which the
conditions stand. -/
theorem cacheKey_separates_iff {d d' : FnDef} (hd : d.NanFree) (hd' : d'.NanFree) :
    (¬ SameProblem d d' → cacheKeyBytes F hidden d ≠ cacheKeyBytes F hidden d') ↔
      ¬ MovedBetweenLists d d' := by
  rw [ne_eq, cacheKeyBytes_eq_iff hd hd']
  constructor
  · intro hseparates hmoved
    refine hseparates (fun hsame => ?_) ?_
    · exact hmoved.moved ⟨hsame.requires, hsame.ensures, hsame.invariants⟩
    · exact ⟨hmoved.name, hmoved.paramNames, hmoved.paramTypes, hmoved.returnType,
        hmoved.conditions, hmoved.body⟩
  · intro hmoved hdiffer hkey
    obtain ⟨hname, hnames, htypes, hret, hconditions, hbody⟩ := hkey
    apply hmoved
    refine ⟨hname, hnames, htypes, hret, hconditions, hbody, fun hlists => ?_⟩
    obtain ⟨hrequires, hensures, hinvariants⟩ := hlists
    exact hdiffer ⟨hname, hnames, htypes, hret, hrequires, hensures, hinvariants, hbody⟩

end Key

/-- Floats by the digits of their bits. -/
def bitsText : FloatText where
  debug bits := .nat bits.toNat
  injective _ _ _ _ h := UInt64.toNat_inj.mp (Debug.Word.nat_inj.mp h)

/-- `(> n 0)`. -/
def positiveN : Expr :=
  ⟨.fnCall ⟨.symbolRef ">", .dummy⟩ [⟨.symbolRef "n", .dummy⟩, ⟨.intLit 0, .dummy⟩], .dummy⟩

/-- `f`, whose parameter is returned, under conditions on both sides. -/
def sameN (requires ensures : List Expr) : FnDef where
  name := "f"
  params := [⟨.default, "n", ⟨.named "i64", .dummy⟩, none, .dummy⟩]
  returnType := ⟨.named "i64", .dummy⟩
  requires := requires
  ensures := ensures
  invariants := []
  body := ⟨.symbolRef "n", .dummy⟩

theorem positiveN_nanFree : positiveN.NanFree := by
  refine ⟨trivial, fun c hc => ?_⟩
  simp only [positiveN, Expr.children, Expr.kind, ExprKind.children, List.mem_cons,
    List.not_mem_nil, or_false] at hc
  have hleaf : ∀ kind span, kind.children = [] → (Expr.mk kind span).kind.NanFree →
      Expr.NanFree ⟨kind, span⟩ := by
    intro kind span hchildren hkind
    refine ⟨hkind, fun c hc => ?_⟩
    rw [show (Expr.mk kind span).children = [] from hchildren] at hc
    exact absurd hc List.not_mem_nil
  rcases hc with rfl | rfl | rfl
  all_goals exact hleaf _ _ rfl trivial

theorem sameN_nanFree {requires ensures : List Expr} (hrequires : ∀ e ∈ requires, e = positiveN)
    (hensures : ∀ e ∈ ensures, e = positiveN) : (sameN requires ensures).NanFree := by
  intro e he
  simp only [FnDef.conditions, sameN, List.append_nil, List.mem_append, List.mem_singleton] at he
  rcases he with (he | he) | he
  · exact hrequires e he ▸ positiveN_nanFree
  · exact hensures e he ▸ positiveN_nanFree
  · subst he
    refine ⟨trivial, fun c hc => ?_⟩
    cases hc

/-- With and without the condition. -/
theorem unconditional_separated :
    (¬ SameProblem (sameN [positiveN] []) (sameN [] []) →
      cacheKeyBytes bitsText (fun _ => false) (sameN [positiveN] []) ≠
        cacheKeyBytes bitsText (fun _ => false) (sameN [] [])) ↔
    ¬ MovedBetweenLists (sameN [positiveN] []) (sameN [] []) :=
  cacheKey_separates_iff (sameN_nanFree (by simp) (by simp)) (sameN_nanFree (by simp) (by simp))

/-- What is required and what is ensured have one key. -/
theorem required_ensured_one_key :
    ¬ SameProblem (sameN [positiveN] []) (sameN [] [positiveN]) ∧
    cacheKeyBytes bitsText (fun _ => false) (sameN [positiveN] []) =
      cacheKeyBytes bitsText (fun _ => false) (sameN [] [positiveN]) := by
  constructor
  · intro hsame
    exact absurd hsame.requires (by simp [sameN])
  · simp [cacheKeyBytes, keyParts, sameN]

end Airl
