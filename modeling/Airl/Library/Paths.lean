import Airl.Library.Text

/-! # Paths in a file system

A finite tree of directories, files and symbolic links, and what a path names in it: each name is
looked up in the directory that the names before it lead to, links are followed wherever they stand,
and the last name may be that of a file which is still to be made.
-/

namespace Paths

abbrev Name := List Char

/-- The names from the root directory on. -/
abbrev Location := List Name

inductive Node where
  | dir
  /-- A file, whose content need not be text. -/
  | file (text : Option (List Char))
  | link (target : List Char)
  deriving DecidableEq

/-- What is in the directories; the root directory is always there. -/
structure FileSystem where
  entries : List (Location × Node)
  linked : ∀ e ∈ entries, ∀ target, e.2 = .link target → '\x00' ∉ target

namespace FileSystem

def find (fs : FileSystem) (loc : Location) : Option Node :=
  if loc = [] then some .dir else fs.entries.lookup loc

end FileSystem

inductive Segment where
  | here
  | up
  | name (n : Name)
  deriving DecidableEq

def Segment.ofText (s : List Char) : Segment :=
  if s = [] ∨ s = ['.'] then .here else if s = ['.', '.'] then .up else .name s

def segments (path : List Char) : List Segment := (path.splitOn '/').map Segment.ofText

def isAbsolute (path : List Char) : Bool := path.head? = some '/'

/-- The text of a location. -/
def render (loc : Location) : List Char :=
  if loc = [] then ['/'] else loc.flatMap fun n => '/' :: n

/-- A path behind the text of a directory. -/
def join (dir path : List Char) : List Char :=
  if isAbsolute path then path
  else if dir.getLast? = some '/' then dir ++ path
  else dir ++ '/' :: path

/-- Whether a path stands textually below a location: component by component, and nothing is
resolved. -/
def startsWith (path : List Char) (root : Location) : Bool :=
  isAbsolute path && (root.map Segment.name).isPrefixOf ((segments path).filter (· ≠ .here))

/-- The segments up to the first link. -/
def follow (fs : FileSystem) (jump : Location → List Segment → Option Location) :
    Location → List Segment → Option Location
  | dir, [] => some dir
  | dir, .here :: rest => follow fs jump dir rest
  | dir, .up :: rest => follow fs jump dir.dropLast rest
  | dir, .name n :: rest =>
    match fs.find (dir ++ [n]) with
    | some .dir => follow fs jump (dir ++ [n]) rest
    | some (.link target) =>
      jump (if isAbsolute target then [] else dir) (segments target ++ rest)
    | _ => if rest = [] then some (dir ++ [n]) else none

/-- At most `links` links are followed. -/
def walk (fs : FileSystem) : (links : Nat) → Location → List Segment → Option Location
  | 0 => follow fs fun _ _ => none
  | links + 1 => follow fs (walk fs links)

def maxLinks : Nat := 40

/-- Where a path leads from a directory. -/
def locate (fs : FileSystem) (cwd : Location) (path : List Char) : Option Location :=
  if path = [] ∨ '\x00' ∈ path then none
  else walk fs maxLinks (if isAbsolute path then [] else cwd) (segments path)

/-- Where a path leads to something that exists. -/
def canonicalize (fs : FileSystem) (cwd : Location) (path : List Char) : Option Location :=
  (locate fs cwd path).filter fun loc => (fs.find loc).isSome

/-- What a name in a directory can be. -/
structure Proper (n : Name) : Prop where
  ne_nil : n ≠ []
  ne_here : n ≠ ['.']
  ne_up : n ≠ ['.', '.']
  slash : '/' ∉ n
  nul : '\x00' ∉ n

def Segment.Proper : Segment → Prop
  | .name n => Paths.Proper n
  | _ => True

theorem ofText_of_proper {n : Name} (h : Proper n) : Segment.ofText n = .name n := by
  unfold Segment.ofText
  rw [if_neg (fun hn => hn.elim h.ne_nil h.ne_here), if_neg h.ne_up]

theorem proper_ofText {s : List Char} (hslash : '/' ∉ s) (hnul : '\x00' ∉ s) :
    (Segment.ofText s).Proper := by
  unfold Segment.ofText
  split
  · trivial
  · next hhere =>
    split
    · trivial
    · next hup =>
      exact ⟨fun h => hhere (.inl h), fun h => hhere (.inr h), hup, hslash, hnul⟩

theorem proper_of_mem_segments {path : List Char} (hnul : '\x00' ∉ path) :
    ∀ s ∈ segments path, s.Proper := by
  intro s hs
  obtain ⟨piece, hpiece, rfl⟩ := List.mem_map.mp hs
  apply proper_ofText (Text.not_mem_of_mem_splitOn hpiece)
  intro hc
  exact hnul ((Text.sublist_of_mem_splitOn hpiece).mem hc)

variable {fs : FileSystem} {cwd dir loc base : Location} {path : List Char}

/-- A directory that is reached through directories. -/
structure IsDirectory (fs : FileSystem) (dir : Location) : Prop where
  names : ∀ n ∈ dir, Proper n
  found : ∀ front, front <+: dir → fs.find front = some .dir

/-- A location that is reached through directories, and is no link itself. -/
structure Resolved (fs : FileSystem) (loc : Location) : Prop where
  names : ∀ n ∈ loc, Proper n
  found : ∀ front, front <+: loc → front ≠ loc → fs.find front = some .dir
  last : ∀ target, fs.find loc ≠ some (.link target)

theorem IsDirectory.root (fs : FileSystem) : IsDirectory fs [] := by
  constructor
  · intro n hn
    cases hn
  · intro front hfront
    rw [List.prefix_nil.mp hfront]
    rfl

theorem IsDirectory.of_prefix {front : Location} (h : IsDirectory fs dir) (hfront : front <+: dir) :
    IsDirectory fs front :=
  ⟨fun n hn => h.names n (hfront.subset hn), fun f hf => h.found f (hf.trans hfront)⟩

theorem IsDirectory.resolved (h : IsDirectory fs dir) : Resolved fs dir := by
  refine ⟨h.names, fun front hfront _ => h.found front hfront, ?_⟩
  intro target htarget
  rw [h.found dir (List.prefix_refl dir)] at htarget
  cases htarget

theorem prefix_snoc {front dir : Location} {n : Name} (h : front <+: dir ++ [n]) :
    front <+: dir ∨ front = dir ++ [n] := by
  rcases List.prefix_concat_iff.mp h with rfl | h
  · exact .inr rfl
  · exact .inl h

theorem IsDirectory.snoc {n : Name} (h : IsDirectory fs dir) (hn : Proper n)
    (hfind : fs.find (dir ++ [n]) = some .dir) : IsDirectory fs (dir ++ [n]) := by
  constructor
  · intro m hm
    rcases List.mem_append.mp hm with hm | hm
    · exact h.names m hm
    · rw [List.mem_singleton.mp hm]
      exact hn
  · intro front hfront
    rcases prefix_snoc hfront with hfront | rfl
    · exact h.found front hfront
    · exact hfind

theorem Resolved.snoc {n : Name} (h : IsDirectory fs dir) (hn : Proper n)
    (hlast : ∀ target, fs.find (dir ++ [n]) ≠ some (.link target)) : Resolved fs (dir ++ [n]) := by
  refine ⟨?_, ?_, hlast⟩
  · intro m hm
    rcases List.mem_append.mp hm with hm | hm
    · exact h.names m hm
    · rw [List.mem_singleton.mp hm]
      exact hn
  · intro front hfront hne
    rcases prefix_snoc hfront with hfront | rfl
    · exact h.found front hfront
    · exact absurd rfl hne

theorem Resolved.parent (h : Resolved fs loc) : IsDirectory fs loc.dropLast := by
  constructor
  · intro n hn
    exact h.names n (List.dropLast_subset _ hn)
  · intro front hfront
    by_cases hnil : loc = []
    · rw [hnil] at hfront
      rw [List.prefix_nil.mp hfront]
      rfl
    · apply h.found front (hfront.trans (List.dropLast_prefix loc))
      rintro rfl
      have hlength := hfront.length_le
      rw [List.length_dropLast] at hlength
      have hpos := List.length_pos_iff.mpr hnil
      omega

theorem resolved_of_follow {jump : Location → List Segment → Option Location}
    (hjump : ∀ dir segs loc, IsDirectory fs dir → (∀ s ∈ segs, s.Proper) →
      jump dir segs = some loc → Resolved fs loc)
    {segs : List Segment} (hdir : IsDirectory fs dir) (hsegs : ∀ s ∈ segs, s.Proper)
    (h : follow fs jump dir segs = some loc) : Resolved fs loc := by
  induction segs generalizing dir with
  | nil =>
    cases h
    exact hdir.resolved
  | cons s rest ih =>
    have hrest : ∀ s ∈ rest, s.Proper := fun s hs => hsegs s (List.mem_cons_of_mem _ hs)
    cases s with
    | here => exact ih hdir hrest h
    | up => exact ih (hdir.of_prefix (List.dropLast_prefix dir)) hrest h
    | name n =>
      have hn : Proper n := hsegs (.name n) List.mem_cons_self
      rw [follow] at h
      cases hfind : fs.find (dir ++ [n]) with
      | none =>
        rw [hfind] at h
        dsimp only at h
        split at h
        · cases h
          apply Resolved.snoc hdir hn
          intro target htarget
          rw [hfind] at htarget
          cases htarget
        · cases h
      | some node =>
        rw [hfind] at h
        cases node with
        | dir => exact ih (hdir.snoc hn hfind) hrest h
        | file text =>
          dsimp only at h
          split at h
          · cases h
            apply Resolved.snoc hdir hn
            intro target htarget
            rw [hfind] at htarget
            cases htarget
          · cases h
        | link target =>
          have htarget : '\x00' ∉ target := by
            unfold FileSystem.find at hfind
            split at hfind
            · cases hfind
            · obtain ⟨before, after, hentries, -⟩ := List.lookup_eq_some_iff.mp hfind
              refine fs.linked (dir ++ [n], .link target) ?_ target rfl
              rw [hentries]
              exact List.mem_append_right _ List.mem_cons_self
          refine hjump _ _ _ ?_ ?_ h
          · split
            · exact IsDirectory.root fs
            · exact hdir
          · intro s hs
            rcases List.mem_append.mp hs with hs | hs
            · exact proper_of_mem_segments htarget s hs
            · exact hrest s hs

theorem resolved_of_walk {links : Nat} {segs : List Segment} (hdir : IsDirectory fs dir)
    (hsegs : ∀ s ∈ segs, s.Proper) (h : walk fs links dir segs = some loc) : Resolved fs loc := by
  induction links generalizing dir segs loc with
  | zero =>
    refine resolved_of_follow ?_ hdir hsegs h
    intro dir segs loc _ _ hjump
    cases hjump
  | succ links ih =>
    refine resolved_of_follow ?_ hdir hsegs h
    intro dir segs loc hdir hsegs hjump
    exact ih hdir hsegs hjump

theorem resolved_of_locate (hcwd : IsDirectory fs cwd) (h : locate fs cwd path = some loc) :
    Resolved fs loc := by
  unfold locate at h
  split at h
  · cases h
  · next hpath =>
    refine resolved_of_walk ?_ (proper_of_mem_segments fun hc => hpath (.inr hc)) h
    split
    · exact IsDirectory.root fs
    · exact hcwd

theorem splitOn_names {names : List Name} (h : ∀ n ∈ names, Proper n) :
    (names.flatMap fun n => '/' :: n).splitOn '/' = [] :: names := by
  induction names with
  | nil => rfl
  | cons n names ih =>
    have hslash := (h n List.mem_cons_self).slash
    have hrest := ih fun m hm => h m (List.mem_cons_of_mem _ hm)
    rw [List.flatMap_cons, List.cons_append, List.splitOn_cons_eq_if_modifyHead, if_pos (by decide)]
    cases names with
    | nil =>
      rw [List.flatMap_nil, List.append_nil, List.splitOn_eq_singleton hslash]
    | cons m names =>
      rw [List.flatMap_cons, List.cons_append] at hrest ⊢
      rw [List.splitOn_append_cons_self_of_not_mem hslash]
      rw [List.splitOn_cons_eq_if_modifyHead, if_pos (by decide), List.cons.injEq] at hrest
      rw [hrest.2]

theorem segments_render (h : ∀ n ∈ loc, Proper n) :
    (segments (render loc)).filter (· ≠ .here) = loc.map .name ∧
      ∃ front, segments (render loc) = front ++ loc.map .name ∧ ∀ s ∈ front, s = .here := by
  have hnames : loc.map Segment.ofText = loc.map .name := by
    apply List.map_congr_left
    intro n hn
    exact ofText_of_proper (h n hn)
  have hnot : (loc.map Segment.name).filter (· ≠ .here) = loc.map .name := by
    rw [List.filter_eq_self]
    intro s hs
    obtain ⟨n, -, rfl⟩ := List.mem_map.mp hs
    rfl
  unfold render segments
  by_cases hnil : loc = []
  · rw [if_pos hnil, hnil]
    refine ⟨rfl, [.here, .here], rfl, ?_⟩
    intro s hs
    rcases List.mem_cons.mp hs with rfl | hs
    · rfl
    · exact List.mem_singleton.mp hs
  · rw [if_neg hnil, splitOn_names h, List.map_cons, hnames]
    refine ⟨?_, [.here], rfl, fun s hs => List.mem_singleton.mp hs⟩
    rw [List.filter_cons_of_neg (by decide), hnot]

theorem isAbsolute_render (loc : Location) : isAbsolute (render loc) = true := by
  unfold render
  cases loc with
  | nil => rfl
  | cons n loc => rfl

theorem follow_here {jump : Location → List Segment → Option Location} {front segs : List Segment}
    (h : ∀ s ∈ front, s = .here) (dir : Location) :
    follow fs jump dir (front ++ segs) = follow fs jump dir segs := by
  induction front with
  | nil => rfl
  | cons s front ih =>
    rw [h s List.mem_cons_self, List.cons_append, follow]
    exact ih fun s hs => h s (List.mem_cons_of_mem _ hs)

theorem follow_names {jump : Location → List Segment → Option Location} {names : List Name}
    (h : Resolved fs (dir ++ names)) : follow fs jump dir (names.map .name) =
      some (dir ++ names) := by
  induction names generalizing dir with
  | nil => rw [List.append_nil]; rfl
  | cons n names ih =>
    have happend : dir ++ n :: names = (dir ++ [n]) ++ names := by
      rw [List.append_assoc]
      rfl
    rw [List.map_cons, follow]
    by_cases hlast : names = []
    · subst hlast
      cases hfind : fs.find (dir ++ [n]) with
      | none => rfl
      | some node =>
        cases node with
        | dir => rfl
        | file text => rfl
        | link target => exact absurd hfind (h.last target)
    · have hfind : fs.find (dir ++ [n]) = some .dir := by
        apply h.found
        · rw [happend]
          exact List.prefix_append _ _
        · intro heq
          rw [happend] at heq
          exact hlast (List.self_eq_append_right.mp heq)
      rw [hfind]
      dsimp only
      rw [happend] at h ⊢
      exact ih h

theorem locate_render (h : Resolved fs loc) : locate fs cwd (render loc) = some loc := by
  have hpath : ¬ (render loc = [] ∨ '\x00' ∈ render loc) := by
    rintro (hnil | hnul)
    · have habsolute := isAbsolute_render loc
      rw [hnil] at habsolute
      cases habsolute
    · unfold render at hnul
      split at hnul
      · revert hnul
        decide
      · obtain ⟨n, hn, hnul⟩ := List.mem_flatMap.mp hnul
        rcases List.mem_cons.mp hnul with hnul | hnul
        · revert hnul
          decide
        · exact (h.names n hn).nul hnul
  obtain ⟨-, front, hsegments, hfront⟩ := segments_render h.names
  unfold locate
  rw [if_neg hpath, isAbsolute_render, if_pos rfl, hsegments]
  exact (follow_here hfront []).trans (follow_names h)

theorem startsWith_render (h : ∀ n ∈ loc, Proper n) :
    startsWith (render loc) base = true ↔ base <+: loc := by
  unfold startsWith
  rw [isAbsolute_render, Bool.true_and, (segments_render h).1, List.isPrefixOf_iff_prefix]
  exact List.prefix_map_iff_of_injective fun _ _ heq => Segment.name.inj heq

theorem canonicalize_eq_some : canonicalize fs cwd path = some loc ↔
    locate fs cwd path = some loc ∧ (fs.find loc).isSome := by
  unfold canonicalize
  rw [Option.filter_eq_some_iff]

theorem canonicalize_render {cwd' : Location} (hcwd : IsDirectory fs cwd)
    (h : canonicalize fs cwd path = some loc) : canonicalize fs cwd' (render loc) = some loc := by
  obtain ⟨hlocate, hfind⟩ := canonicalize_eq_some.mp h
  exact canonicalize_eq_some.mpr ⟨locate_render (resolved_of_locate hcwd hlocate), hfind⟩

end Paths
