import Airl.Channels.RtLedger
import Mathlib.Logic.Relation

/-! # Locks and progress

Who is inside a receiver's mutex, who holds the table of receivers, and who waits for
whom. A close waits for a mutex while it holds the table, but whoever is inside a mutex
waits for no lock, so that no calls wait for each other in a circle: behind every call
stands one that can act or a `channel-recv` on a channel that is open and empty.
-/

namespace Airl.Channels.Rt

open Threads (Running Label Owns Moves)

variable {V : Type}

/-- The receiver in whose mutex a thread is. -/
def Point.inside : Point V → Option Int
  | .take _ c _ | .unlock c _ | .closeDrain _ c | .closeUnlock _ c => some c
  | _ => none

/-- A close holds the table from the removal of a receiver to its drop. -/
def Point.heldTable : Point V → Option Unit
  | .closeLock _ _ | .closeDrain _ _ | .closeUnlock _ _ | .closeDrop _ _ => some ()
  | _ => none

def inside (s : State V) : Nat → Option Int := s.reads Point.inside none

def heldTable (s : State V) : Nat → Option Unit := s.reads Point.heldTable none

def nextInside : Point V ⊕ Reply V → Option Int := Threads.State.readsNext Point.inside none

def nextTable : Point V ⊕ Reply V → Option Unit := Threads.State.readsNext Point.heldTable none

/-- The mutexes of the receivers. -/
def Shared.locks (σ : Shared V) (c : Int) : Option Nat := (σ.arcs c).lock

/-- The locks are held by the calls that took them. -/
structure Locked (s : State V) : Prop where
  mutexes : Owns s.shared.locks (inside s)
  table : ∃ owner, s.shared.tableLocked = owner.isSome ∧ Owns (fun _ => owner) (heldTable s)

variable {s s' : State V} {σ σ' : Shared V} {t u : Nat} {c : Int} {p : Point V}
  {next : Point V ⊕ Reply V} {r : Running (Point V) (Call V)}

theorem locks_setArc {a : SharedReceiver} (ha : a.lock = (σ.arcs c).lock) :
    (σ.setArc c a).locks = σ.locks := by
  funext d
  by_cases h : d = c
  · subst h
    simp [Shared.locks, Shared.setArc, ha]
  · simp [Shared.locks, Shared.setArc, h]

theorem locks_update {a : SharedReceiver} :
    (σ.setArc c a).locks = Function.update σ.locks c a.lock := by
  funext d
  by_cases h : d = c
  · subst h
    simp [Shared.locks, Shared.setArc]
  · simp [Shared.locks, Shared.setArc, h]

theorem locks_dropRef (ch : Channel V) (owner : Option Nat) :
    (σ.dropRef c ch owner).locks = σ.locks := by
  rw [Shared.dropRef]
  split
  · exact locks_setArc rfl
  · exact locks_setArc rfl

/-- Each action leaves the mutexes alone, enters one or leaves the one it is in. -/
theorem acts_locks (hacts : Acts σ t p σ' next) :
    Moves t σ.locks p.inside σ'.locks (nextInside next) := by
  cases hacts with
  | quiet hq =>
    cases hq with
    | _ => exact .keep _
  | @clone k n c hc =>
    have hlocks : (σ.setArc c { σ.arcs c with refs := some t :: (σ.arcs c).refs }).locks =
        σ.locks := locks_setArc rfl
    exact hlocks ▸ .keep _
  | acquire hlock hfree =>
    rw [Shared.acquire, locks_update]
    cases hlock with
    | _ => exact .acquire hfree
  | release hunlock =>
    rw [Shared.release, locks_update]
    cases hunlock with
    | _ => exact .release _
  | pop hch hqueue hgets =>
    cases hgets with
    | _ => exact .keep _
  | dropRef hch =>
    rw [locks_dropRef]
    exact .keep _
  | @closeReceiver n c removedTx hc =>
    have hlocks : (σ.setArc c { σ.arcs c with removed := true }).locks = σ.locks := locks_setArc rfl
    exact hlocks ▸ .keep _
  | @closeDrop n c ch hch =>
    have hlocks : (σ.dropRef c ch none).locks = σ.locks := locks_dropRef ch none
    exact hlocks ▸ .keep _
  | _ => exact .keep _

theorem tableLocked_dropRef (ch : Channel V) (owner : Option Nat) :
    (σ.dropRef c ch owner).tableLocked = σ.tableLocked := by
  rw [Shared.dropRef]
  split <;> rfl

theorem act_closeReceiver {h : Int} {removedTx x : Bool}
    (hact : act σ t (.closeReceiver h removedTx) x = some (σ', next)) : σ.tableLocked = false := by
  rw [act] at hact
  split at hact
  · cases hact
  · next hfree => exact Bool.eq_false_iff.mpr hfree

theorem act_table {x : Bool} {owner : Option Nat} (htable : σ.tableLocked = owner.isSome)
    (hact : act σ t p x = some (σ', next)) :
    ∃ owner', σ'.tableLocked = owner'.isSome ∧
      Moves t (fun _ => owner) p.heldTable (fun _ => owner') (nextTable next) := by
  have hkeep : ∀ {k : Option Unit}, ∃ owner', σ.tableLocked = owner'.isSome ∧
      Moves t (fun _ => owner) k (fun _ => owner') k := fun {k} => ⟨owner, htable, .keep k⟩
  have hacts := acts_of_act hact
  cases hacts with
  | quiet hq =>
    cases hq with
    | _ => exact hkeep
  | acquire hlock hfree =>
    cases hlock with
    | _ => exact hkeep
  | release hunlock =>
    cases hunlock with
    | _ => exact hkeep
  | pop hch hqueue hgets =>
    cases hgets with
    | _ => exact hkeep
  | dropRef hch =>
    rw [tableLocked_dropRef]
    exact hkeep
  | closeReceiver hc =>
    have hfree : owner = none := by
      rw [← Option.isNone_iff_eq_none, ← Option.not_isSome, ← htable, act_closeReceiver hact]
      rfl
    refine ⟨some t, rfl, ?_⟩
    have hmoves : Moves t (fun _ : Unit => owner) none
        (Function.update (fun _ => owner) () (some t)) (some ()) := .acquire hfree
    rwa [show Function.update (fun _ : Unit => owner) () (some t) = fun _ => some t from
      funext fun _ => by simp] at hmoves
  | closeDrop hch =>
    refine ⟨none, rfl, ?_⟩
    have hmoves : Moves t (fun _ : Unit => owner) (some ())
        (Function.update (fun _ => owner) () none) none := .release ()
    rwa [show Function.update (fun _ : Unit => owner) () none = fun _ => none from
      funext fun _ => by simp] at hmoves
  | _ => exact hkeep

theorem locked_start : Locked (start : State V) where
  mutexes := Owns.initial
  table := ⟨none, rfl, Owns.initial⟩

theorem Opens.unlocked (h : Opens p) : p.inside = none ∧ p.heldTable = none := by
  cases h with
  | _ => exact ⟨rfl, rfl⟩

theorem locked_steps {l : Label (Call V) Bool} (h : Locked s) (hstep : code.Steps s l s') :
    Locked s' := by
  cases hstep with
  | @start t call hidle =>
    obtain ⟨hinside, htable⟩ := (enter_opens call).unlocked
    have hinside' : inside (s.start code t call) = inside s :=
      Threads.State.reads_start_idle Point.inside none hidle hinside
    have htable' : heldTable (s.start code t call) = heldTable s :=
      Threads.State.reads_start_idle Point.heldTable none hidle htable
    exact ⟨hinside' ▸ h.mutexes, htable' ▸ h.table⟩
  | @act t r choice σ' next hr hact =>
    have hinside : inside s t = r.point.inside := Threads.State.reads_running Point.inside none hr
    have htable : heldTable s t = r.point.heldTable :=
      Threads.State.reads_running Point.heldTable none hr
    obtain ⟨owner, howner, howns⟩ := h.table
    obtain ⟨owner', howner', hmoves⟩ := act_table howner hact
    refine ⟨?_, owner', howner', ?_⟩
    · rw [inside, Threads.State.reads_advance]
      exact h.mutexes.moves hinside (acts_locks (acts_of_act hact))
    · rw [heldTable, Threads.State.reads_advance]
      exact howns.moves htable hmoves

theorem locked_run {ls : List (Label (Call V) Bool)} (hrun : code.run start ls = some s) :
    Locked s :=
  Threads.Code.run_invariant (fun h _ hstep => locked_steps h hstep) locked_start
    (Threads.Code.guarded_true ls) hrun

/-- The actions that need the table of receivers. -/
def Point.needsTable : Point V → Bool
  | .new m => m.insertsRx
  | .lookup _ _ | .closeReceiver _ _ => true
  | _ => false

/-- Thread `t` is in a `channel-recv` inside the mutex of a channel that is open and empty. -/
def AwaitsValue (s : State V) (t : Nat) : Prop :=
  ∃ r c ch, s.running t = some r ∧ r.point = .take .recv c [] ∧
    s.shared.channels c = some ch ∧ ch.queue = [] ∧ ch.senderAlive = true

/-- Thread `t` waits for a lock that thread `u` holds. -/
inductive WaitsFor (s : State V) (t u : Nat) : Prop
  | mutex {r : Running (Point V) (Call V)} {c : Int} {q : Point V} (hr : s.running t = some r)
      (hlocks : Locks r.point c q) (hu : inside s u = some c)
  | table {r : Running (Point V) (Call V)} (hr : s.running t = some r)
      (hneeds : r.point.needsTable = true) (hu : heldTable s u = some ())

/-- A receive acts, unless it is a `channel-recv` of an open channel without a value. -/
theorem take_isSome {k : Taking} {items : List V} {ch : Channel V} (hch : σ.channels c = some ch) :
    (take σ t k c items true).isSome ∨ (k = .recv ∧ ch.queue = [] ∧ ch.senderAlive = true) := by
  cases hqueue : ch.queue with
  | cons v q =>
    left
    cases k with
    | _ => simp [take, hch, hqueue]
  | nil =>
    cases k with
    | recv =>
      cases halive : ch.senderAlive with
      | true => exact Or.inr ⟨rfl, rfl, rfl⟩
      | false => simp [take, hch, hqueue, halive]
    | recvTimeout =>
      left
      cases halive : ch.senderAlive with
      | _ => simp [take, hch, hqueue, halive]
    | drain => simp [take, hch, hqueue]

theorem lock_waits {q : Point V} (hl : Locked s) (hr : s.running t = some r)
    (hlocks : Locks r.point c q) (hheld : s.shared.locks c ≠ none) : ∃ u, WaitsFor s t u := by
  obtain ⟨u, hu⟩ := Option.ne_none_iff_exists'.mp hheld
  exact ⟨u, .mutex hr hlocks ((hl.mutexes c u).mp hu)⟩

theorem table_waits (hl : Locked s) (hr : s.running t = some r)
    (hneeds : r.point.needsTable = true) (hheld : s.shared.tableLocked = true) :
    ∃ u, WaitsFor s t u := by
  obtain ⟨owner, howner, howns⟩ := hl.table
  obtain ⟨u, hu⟩ := Option.isSome_iff_exists.mp (howner ▸ hheld)
  exact ⟨u, .table hr hneeds ((howns () u).mp hu)⟩

theorem acts_or_waits (h : Inv s) (hl : Locked s) (hr : s.running t = some r) :
    code.CanAct s t ∨ AwaitsValue s t ∨ ∃ u, WaitsFor s t u := by
  have hfits := h.fits t r hr
  have hacts : ∀ {x}, (act s.shared t r.point x).isSome → code.CanAct s t ∨ AwaitsValue s t ∨
      ∃ u, WaitsFor s t u := fun h => Or.inl (Threads.Code.canAct_of_isSome hr h)
  have hremoved : ∀ {c}, (s.shared.arcs c).removed = true → ∃ ch, s.shared.channels c = some ch :=
    fun hc => (h.removed _ hc).imp fun _ hch => hch.1
  -- A point that takes no lock can always act.
  cases hp : r.point with
  | new m =>
    cases hm : m.insertsRx && s.shared.tableLocked with
    | true =>
      rw [Bool.and_eq_true] at hm
      exact Or.inr (Or.inr (table_waits hl hr (hp ▸ hm.1) hm.2))
    | false =>
      apply @hacts true
      rw [hp, act, hm]
      cases hmake : s.shared.make m with
      | mk store next =>
        cases next with
        | _ => rfl
  | sendCheck n v =>
    apply @hacts true
    rw [hp, act]
    split <;> rfl
  | check k n =>
    apply @hacts true
    rw [hp, act]
    split <;> rfl
  | lookup k n =>
    cases htable : s.shared.tableLocked with
    | true => exact Or.inr (Or.inr (table_waits hl hr (hp ▸ rfl) htable))
    | false =>
      apply @hacts true
      rw [hp, act, htable]
      cases hc : s.shared.receivers n with
      | _ => rfl
  | lockReceiver k c =>
    by_cases hfree : (s.shared.arcs c).lock = none
    · apply @hacts true
      rw [hp, act, if_pos hfree]
      rfl
    · exact Or.inr (Or.inr (lock_waits hl hr (hp.symm ▸ Locks.take k c) hfree))
  | take k c items =>
    rw [hp] at hfits
    obtain ⟨⟨-, ch, hch, -⟩, hitems⟩ := hfits
    rcases @take_isSome V s.shared t c k items ch hch with hsome | ⟨rfl, hqueue, halive⟩
    · apply @hacts true
      rw [hp, act, Option.isSome_map]
      exact hsome
    · rw [hitems (by decide)] at hp
      exact Or.inr (Or.inl ⟨r, c, ch, hr, hp, hch, hqueue, halive⟩)
  | dropReceiver c reply =>
    rw [hp] at hfits
    obtain ⟨⟨k, -, ch, hch, -⟩, -⟩ := hfits
    apply @hacts true
    rw [hp, act, hch]
    rfl
  | closeSender n =>
    apply @hacts true
    rw [hp, act]
    cases hc : s.shared.senders n with
    | none => rfl
    | some c =>
      obtain ⟨rfl, ch, hch⟩ := h.handles.senders n c hc
      simp [hch]
  | closeReceiver n removedTx =>
    cases htable : s.shared.tableLocked with
    | true => exact Or.inr (Or.inr (table_waits hl hr (hp ▸ rfl) htable))
    | false =>
      apply @hacts true
      rw [hp, act, htable]
      cases hc : s.shared.receivers n with
      | none =>
        cases removedTx with
        | _ => rfl
      | some c => rfl
  | closeLock n c =>
    by_cases hfree : (s.shared.arcs c).lock = none
    · apply @hacts true
      rw [hp, act, if_pos hfree]
      rfl
    · exact Or.inr (Or.inr (lock_waits hl hr (hp.symm ▸ Locks.close n c) hfree))
  | closeDrain n c =>
    rw [hp] at hfits
    obtain ⟨ch, hch⟩ := hremoved hfits.2
    apply @hacts true
    rw [hp, act, hch]
    cases hqueue : ch.queue with
    | _ => simp [hqueue]
  | closeDrop n c =>
    rw [hp] at hfits
    obtain ⟨ch, hch⟩ := hremoved hfits.2
    apply @hacts true
    rw [hp, act, hch]
    rfl
  | _ =>
    apply @hacts true
    rw [hp]
    rfl

/-- Who waits for a lock is in no mutex, and waits for a mutex if it holds the table. -/
theorem WaitsFor.outside (h : WaitsFor s t u) :
    inside s t = none ∧ (heldTable s t = some () → ∃ c, inside s u = some c) := by
  cases h with
  | @mutex r c q hr hlocks hu =>
    refine ⟨?_, fun _ => ⟨c, hu⟩⟩
    rw [inside, Threads.State.reads_running Point.inside none hr]
    generalize r.point = p at hlocks
    cases hlocks with
    | _ => rfl
  | @table r hr hneeds hu =>
    rw [inside, Threads.State.reads_running Point.inside none hr, heldTable,
      Threads.State.reads_running Point.heldTable none hr]
    generalize r.point = p at hneeds
    cases p with
    | new m => exact ⟨rfl, nofun⟩
    | lookup k n => exact ⟨rfl, nofun⟩
    | closeReceiver n removedTx => exact ⟨rfl, nofun⟩
    | _ => cases hneeds

theorem running_of_reads {α : Type} {f : Point V → Option α} {a : α}
    (h : s.reads f none t = some a) : ∃ r, s.running t = some r := by
  cases hr : s.running t with
  | none =>
    rw [Threads.State.reads_idle f none hr] at h
    cases h
  | some r => exact ⟨r, rfl⟩

/-- In every run, no two threads are inside one mutex, at most one close holds the table
of receivers, and behind every call stands one that can act or that waits for a value. -/
theorem progress_run {ls : List (Label (Call V) Bool)} (hrun : code.run start ls = some s) :
    (∀ t u c, inside s t = some c → inside s u = some c → t = u) ∧
      (∀ t u, heldTable s t = some () → heldTable s u = some () → t = u) ∧
        ∀ t r, s.running t = some r →
          ∃ u, Relation.ReflTransGen (WaitsFor s) t u ∧ (code.CanAct s u ∨ AwaitsValue s u) := by
  have h := inv_run hrun
  have hl := locked_run hrun
  have hinside : ∀ {u c}, inside s u = some c → code.CanAct s u ∨ AwaitsValue s u := by
    intro u c hu
    obtain ⟨r, hr⟩ := running_of_reads hu
    rcases acts_or_waits h hl hr with hacts | hvalue | ⟨v, hv⟩
    · exact Or.inl hacts
    · exact Or.inr hvalue
    · -- who is inside a mutex waits for no other
      rw [hv.outside.1] at hu
      cases hu
  have htable : ∀ {u}, heldTable s u = some () →
      ∃ v, Relation.ReflTransGen (WaitsFor s) u v ∧ (code.CanAct s v ∨ AwaitsValue s v) := by
    intro u hu
    obtain ⟨r, hr⟩ := running_of_reads hu
    rcases acts_or_waits h hl hr with hacts | hvalue | ⟨v, hv⟩
    · exact ⟨u, .refl, Or.inl hacts⟩
    · exact ⟨u, .refl, Or.inr hvalue⟩
    · obtain ⟨c, hc⟩ := hv.outside.2 hu
      exact ⟨v, .single hv, hinside hc⟩
  refine ⟨fun t u c ht hu => ?_, fun t u ht hu => ?_, fun t r hr => ?_⟩
  · have hlock := (hl.mutexes c t).mpr ht
    rw [(hl.mutexes c u).mpr hu] at hlock
    exact (Option.some.inj hlock).symm
  · obtain ⟨owner, -, howns⟩ := hl.table
    have howner := (howns () t).mpr ht
    rw [(howns () u).mpr hu] at howner
    exact (Option.some.inj howner).symm
  · rcases acts_or_waits h hl hr with hacts | hvalue | ⟨u, hu⟩
    · exact ⟨t, .refl, Or.inl hacts⟩
    · exact ⟨t, .refl, Or.inr hvalue⟩
    · cases hu with
      | mutex hr hlocks hin => exact ⟨u, .single (.mutex hr hlocks hin), hinside hin⟩
      | table hr hneeds hholds =>
        obtain ⟨v, hv, hgood⟩ := htable hholds
        exact ⟨v, hv.head (.table hr hneeds hholds), hgood⟩

/-- Thread 0 receives from an empty channel, thread 1 closes its receiver and waits for the
mutex, and thread 2 waits for the table. -/
def waiting : List (Label (Call Nat) Bool) :=
  [.call 0 .new, .act 0 false, .act 0 false, .act 0 false, .act 0 false,
    .call 0 (.recv (.int 2)), .act 0 false, .act 0 false, .act 0 false,
    .call 1 (.close (.int 2)), .act 1 false, .act 1 false,
    .call 2 (.drain (.int 2)), .act 2 false]

theorem waiting_running : (code.run start waiting).map (fun s => (s.running 2).map (·.point)) =
    some (some (.lookup .drain 2)) := rfl

theorem progress_waiting : ∃ s, code.run start waiting = some s ∧
    ∃ u, Relation.ReflTransGen (WaitsFor s) 2 u ∧ (code.CanAct s u ∨ AwaitsValue s u) := by
  obtain ⟨s, hs, hpoint⟩ := Option.map_eq_some_iff.mp waiting_running
  obtain ⟨r, hr, -⟩ := Option.map_eq_some_iff.mp hpoint
  exact ⟨s, hs, (progress_run hs).2.2 2 r hr⟩

end Airl.Channels.Rt
