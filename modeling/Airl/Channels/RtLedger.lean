import Airl.Channels.Ledger
import Airl.Channels.RtSteps

/-! # The ledger of `airl-rt`

The invariant of the runtime's channels, preserved by every action of every thread:
the handles, the references of the receivers, and the ledger of each channel, of which
nothing is lost before a close takes the receiver out of its table.
-/

namespace Airl.Channels.Rt

open Threads (Running)

variable {V : Type}

/-! ## What a thread is about to do -/

def Point.making : Point V → Option Making
  | .new m => some m
  | _ => none

/-- The values received from channel `c` that are on their way to the caller. -/
def Point.inHand : Point V → Int → List V
  | .take _ c' items, c => if c' = c then items else []
  | .unlock c' r, c | .dropReceiver c' r, c => if c' = c then r.values else []
  | _, _ => []

def making (s : State V) : Nat → Option Making := s.reads Point.making none

def inHand (s : State V) : Nat → Int → List V := s.reads Point.inHand fun _ => []

/-- Where the thread stands after an action. -/
def nextMaking : Point V ⊕ Reply V → Option Making := Threads.State.readsNext Point.making none

def nextInHand : Point V ⊕ Reply V → Int → List V :=
  Threads.State.readsNext Point.inHand fun _ => []

variable {s : State V} {σ σ' : Shared V} {t u : Nat} {c : Int} {p : Point V}
  {next : Point V ⊕ Reply V} {r : Running (Point V) (Call V)}

theorem making_start (call : Call V) :
    making (s.start code t call) = Function.update (making s) t (enter call).making :=
  Threads.State.reads_start Point.making none call

theorem making_advance :
    making (s.advance t r σ' next) = Function.update (making s) t (nextMaking next) :=
  Threads.State.reads_advance Point.making none r σ' next

theorem inHand_advance :
    inHand (s.advance t r σ' next) = Function.update (inHand s) t (nextInHand next) :=
  Threads.State.reads_advance Point.inHand (fun _ => []) r σ' next

theorem making_running (h : s.running t = some r) : making s t = r.point.making :=
  Threads.State.reads_running Point.making none h

theorem making_idle (h : s.running t = none) : making s t = none :=
  Threads.State.reads_idle Point.making none h

theorem inHand_running (h : s.running t = some r) : inHand s t = r.point.inHand :=
  Threads.State.reads_running Point.inHand (fun _ => []) h

/-- The points at which a call begins. -/
inductive Opens : Point V → Prop
  | refuse (f : Failure) : Opens (.refuse f)
  | notClosed : Opens .notClosed
  | new : Opens (.new .drawTx)
  | send (h : Int) (v : V) : Opens (.sendCheck h v)
  | take (k : Taking) (h : Int) : Opens (.check k h)
  | close (h : Int) : Opens (.closeSender h)

theorem enterTaking_opens (k : Taking) (rx : Arg) : Opens (enterTaking k rx : Point V) := by
  rw [enterTaking]
  cases extractInt rx with
  | none => exact .refuse _
  | some h => exact .take k h

/-- Every call begins at one of the opening points. -/
theorem enter_opens (call : Call V) : Opens (enter call) := by
  cases call with
  | new => exact .new
  | send tx v =>
    rw [enter]
    cases extractInt tx with
    | none => exact .refuse _
    | some h => exact .send h v
  | recv rx => exact enterTaking_opens .recv rx
  | recvTimeout rx ms =>
    rw [enter]
    cases extractInt rx with
    | none => exact .refuse _
    | some h =>
      cases extractInt ms with
      | none => exact .refuse _
      | some m =>
        dsimp only
        split
        · exact .refuse _
        · exact .take _ h
  | drain rx => exact enterTaking_opens .drain rx
  | close handle =>
    rw [enter]
    cases extractInt handle with
    | none => exact .notClosed
    | some h => exact .close h

/-- At its beginning a call has drawn no handle. -/
theorem Opens.making (h : Opens p) : p.making = none ∨ p.making = some .drawTx := by
  cases h with
  | new => exact Or.inr rfl
  | _ => exact Or.inl rfl

/-- And it holds no value. -/
theorem Opens.inHand (h : Opens p) (c : Int) : p.inHand c = [] := by
  cases h with
  | _ => rfl

theorem inHand_start (hidle : s.running t = none) (call : Call V) :
    inHand (s.start code t call) = inHand s :=
  Threads.State.reads_start_idle Point.inHand (fun _ => []) hidle
    (funext (enter_opens call).inHand)

/-! ## Handles -/

/-- Dropping a reference may drop the receiver, and nothing else of the store. -/
theorem dropRef_store (σ : Shared V) (c : Int) (ch : Channel V) (owner : Option Nat) :
    (σ.dropRef c ch owner).toStore = σ.toStore ∨
      (σ.dropRef c ch owner).toStore = σ.toStore.setChannel c ch.dropReceiver := by
  rw [Shared.dropRef]
  dsimp only
  split
  · exact Or.inr rfl
  · exact Or.inl rfl

/-- The tables of handles stay. -/
theorem dropRef_tables {ch : Channel V} {owner : Option Nat} :
    (σ.dropRef c ch owner).senders = σ.senders ∧
      (σ.dropRef c ch owner).receivers = σ.receivers := by
  rcases dropRef_store σ c ch owner with heq | heq
  · rw [heq]
    exact ⟨rfl, rfl⟩
  · rw [heq]
    exact ⟨rfl, rfl⟩

/-- Handles stay apart when a reference is dropped. -/
theorem handles_dropRef {making : Nat → Option Making} {ch : Channel V} (h : σ.Handles making)
    (hch : σ.channels c = some ch) (owner : Option Nat) :
    (σ.dropRef c ch owner).Handles making := by
  rcases dropRef_store σ c ch owner with heq | heq
  · rw [heq]
    exact h
  · rw [heq]
    exact h.frame rfl (Store.shape_setChannel hch rfl) (fun _ _ h => h) fun _ _ h => h

/-- A quiet action makes no channel. -/
theorem Quiet.nextMaking (h : Quiet σ p next) : nextMaking next = none := by
  cases h with
  | _ => rfl

/-- Handles stay apart through every action: a new one is not in use. -/
theorem handles_acts {making : Nat → Option Making} (h : σ.Handles making)
    (hm : making t = p.making) (hacts : Acts σ t p σ' next) :
    σ'.Handles (Function.update making t (nextMaking next)) := by
  have hleave := h.leave t
  cases hacts with
  | quiet hq =>
    rw [hq.nextMaking]
    exact hleave
  | mark n => exact hleave
  | make hmake => exact h.make hm hmake
  | made hmake => exact h.make hm hmake
  | clone k hc => exact hleave
  | acquire hlock hfree =>
    cases hlock with
    | _ => exact hleave
  | release hunlock =>
    cases hunlock with
    | _ => exact hleave
  | push hc hch =>
    exact hleave.frame rfl (Store.shape_setChannel hch rfl) (fun _ _ h => h) fun _ _ h => h
  | pop hch hqueue hg =>
    cases hg with
    | _ => exact hleave.frame rfl (Store.shape_setChannel hch rfl) (fun _ _ h => h) fun _ _ h => h
  | dropRef hch => exact handles_dropRef hleave hch _
  | closeSender hc hch =>
    exact hleave.frame rfl (Store.shape_setChannel hch rfl)
      (fun _ _ h => Store.update_none_of_some h)
      fun _ _ h => h
  | closeReceiver hc =>
    exact hleave.frame rfl (fun _ => rfl) (fun _ _ h => h) fun _ _ h => Store.update_none_of_some h
  | discard hch =>
    exact hleave.frame rfl (Store.shape_setChannel hch rfl) (fun _ _ h => h) fun _ _ h => h
  | closeDrop hch => exact handles_dropRef hleave hch _

/-! ## Receivers -/

/-- The table holds a reference to every receiver that no close has removed. -/
def Refs (σ : Shared V) : Prop := ∀ d, (σ.arcs d).removed = false → none ∈ (σ.arcs d).refs

/-- Of the references to a receiver just the thread's own goes. -/
theorem arcs_dropRef (ch : Channel V) (owner : Option Nat) :
    (σ.dropRef c ch owner).arcs =
      Function.update σ.arcs c { σ.arcs c with refs := (σ.arcs c).refs.erase owner } := by
  rw [Shared.dropRef]
  dsimp only
  split <;> rfl

theorem refs_setArc {a : SharedReceiver} (h : Refs σ) (ha : a.removed = false → none ∈ a.refs) :
    Refs (σ.setArc c a) := by
  intro d hd
  by_cases heq : d = c
  · subst heq
    simp only [Shared.setArc, Function.update_self] at hd ⊢
    exact ha hd
  · simp only [Shared.setArc, Function.update_of_ne heq] at hd ⊢
    exact h d hd

/-- A step keeps the table's reference to every receiver that no close has removed. -/
theorem refs_acts (h : Refs σ) (hclosing : ∀ n c, p = .closeDrop n c → (σ.arcs c).removed = true)
    (hacts : Acts σ t p σ' next) : Refs σ' := by
  cases hacts with
  | quiet hq => exact h
  | mark n => exact h
  | make hmake => exact h
  | made hmake => exact h
  | @clone k n c hc => exact refs_setArc h fun hremoved => List.mem_cons_of_mem _ (h c hremoved)
  | @acquire _ _ c hl hfree => exact refs_setArc h fun hremoved => h c hremoved
  | @release _ _ c hu => exact refs_setArc h fun hremoved => h c hremoved
  | push hc hch => exact h
  | pop hch hqueue hg => exact h
  | @dropRef c r ch hch =>
    intro d hd
    rw [arcs_dropRef] at hd ⊢
    refine @refs_setArc _ σ c _ h (fun hremoved => ?_) d hd
    exact (List.mem_erase_of_ne (by simp)).mpr (h c hremoved)
  | closeSender hc hch => exact h
  | @closeReceiver n c removedTx hc =>
    exact @refs_setArc _ σ c _ h fun hremoved => absurd hremoved (by simp)
  | discard hch => exact h
  | @closeDrop n c ch hch =>
    intro d hd
    rw [arcs_dropRef] at hd ⊢
    refine @refs_setArc _ σ c _ h (fun hremoved => ?_) d hd
    dsimp only at hremoved
    rw [hclosing n c rfl] at hremoved
    cases hremoved

/-- A receiver that a close removed is not in the table and will not be. -/
def Removed (σ : Shared V) (making : Nat → Option Making) : Prop :=
  ∀ d, (σ.arcs d).removed = true → ∃ dh, σ.channels d = some dh ∧ σ.receivers dh.rx = none ∧
    ∀ u rx, making u ≠ some (.insertRx d rx)

/-- A channel stays, with its receiver. -/
theorem acts_channels {making : Nat → Option Making} (h : σ.Handles making)
    (hm : making t = p.making) (hacts : Acts σ t p σ' next) {d : Int} {dh : Channel V}
    (hd : σ.channels d = some dh) : ∃ dh', σ'.channels d = some dh' ∧ dh'.rx = dh.rx := by
  have hdropRef : ∀ {c ch owner}, σ.channels c = some ch →
      ∃ dh', (σ.dropRef c ch owner).channels d = some dh' ∧ dh'.rx = dh.rx := by
    intro c ch owner hch
    rcases dropRef_store σ c ch owner with heq | heq
    · exact ⟨dh, heq ▸ hd, rfl⟩
    · rw [heq]
      exact Store.channels_setChannel hch rfl hd
  cases hacts with
  | quiet hq => exact ⟨dh, hd, rfl⟩
  | mark n => exact ⟨dh, hd, rfl⟩
  | make hmake => exact ⟨dh, h.channels_make hm hmake hd, rfl⟩
  | made hmake => exact ⟨dh, h.channels_make hm hmake hd, rfl⟩
  | clone k hc => exact ⟨dh, hd, rfl⟩
  | acquire hlock hfree => exact ⟨dh, hd, rfl⟩
  | release hunlock => exact ⟨dh, hd, rfl⟩
  | push hc hch => exact Store.channels_setChannel hch rfl hd
  | pop hch hqueue hg => exact Store.channels_setChannel hch rfl hd
  | dropRef hch => exact hdropRef hch
  | closeSender hc hch => exact Store.channels_setChannel hch rfl hd
  | closeReceiver hc => exact ⟨dh, hd, rfl⟩
  | discard hch => exact Store.channels_setChannel hch rfl hd
  | closeDrop hch => exact hdropRef hch

theorem removed_setArc {a : SharedReceiver} (ha : a.removed = (σ.arcs c).removed) (d : Int) :
    ((σ.setArc c a).arcs d).removed = (σ.arcs d).removed := by
  by_cases heq : d = c
  · subst heq
    simpa [Shared.setArc] using ha
  · simp [Shared.setArc, heq]

theorem acts_removed (hacts : Acts σ t p σ' next) (d : Int) :
    (σ'.arcs d).removed = (σ.arcs d).removed ∨
      (σ'.arcs d).removed = true ∧ ∃ n, σ.receivers n = some d ∧
        σ'.receivers = Function.update σ.receivers n none ∧ σ'.channels = σ.channels ∧
        (∃ removedTx, p = .closeReceiver n removedTx) ∧ next = .inl (.closeLock n d) := by
  cases hacts with
  | quiet hq => exact Or.inl rfl
  | mark n => exact Or.inl rfl
  | make hmake => exact Or.inl rfl
  | made hmake => exact Or.inl rfl
  | clone k hc => exact Or.inl (removed_setArc (by rfl) d)
  | acquire hlock hfree => exact Or.inl (removed_setArc (by rfl) d)
  | release hunlock => exact Or.inl (removed_setArc (by rfl) d)
  | push hc hch => exact Or.inl rfl
  | pop hch hqueue hg => exact Or.inl rfl
  | dropRef hch =>
    rw [arcs_dropRef]
    exact Or.inl (removed_setArc (by rfl) d)
  | closeSender hc hch => exact Or.inl rfl
  | @closeReceiver n c removedTx hc =>
    by_cases heq : d = c
    · subst heq
      exact Or.inr ⟨by simp [Shared.setArc], n, hc, rfl, rfl, ⟨removedTx, rfl⟩, rfl⟩
    · exact Or.inl (by simp [Shared.setArc, heq])
  | discard hch => exact Or.inl rfl
  | closeDrop hch =>
    left
    dsimp only
    rw [arcs_dropRef]
    exact removed_setArc (by rfl) d

/-- A receiver in the table was there or is inserted by this step. -/
theorem acts_receivers (hacts : Acts σ t p σ' next) {n d : Int} (h : σ'.receivers n = some d) :
    σ.receivers n = some d ∨ p.making = some (.insertRx d n) := by
  cases hacts with
  | quiet hq => exact Or.inl h
  | mark n => exact Or.inl h
  | make hmake => exact (Store.receivers_make hmake h).imp_right fun heq => congrArg some heq
  | made hmake => exact (Store.receivers_make hmake h).imp_right fun heq => congrArg some heq
  | clone k hc => exact Or.inl h
  | acquire hlock hfree => exact Or.inl h
  | release hunlock => exact Or.inl h
  | push hc hch => exact Or.inl h
  | pop hch hqueue hg => exact Or.inl h
  | dropRef hch => exact Or.inl (dropRef_tables.2 ▸ h)
  | closeSender hc hch => exact Or.inl h
  | closeReceiver hc => exact Or.inl (Store.update_none_of_some h)
  | discard hch => exact Or.inl h
  | closeDrop hch => exact Or.inl (dropRef_tables.2 ▸ h)

theorem insertRx_acts {making : Nat → Option Making} (h : σ.Handles making)
    (hm : making t = p.making) (hacts : Acts σ t p σ' next) {d rx : Int} {dh : Channel V}
    (hd : σ.channels d = some dh)
    (hu : Function.update making t (nextMaking next) u = some (.insertRx d rx)) :
    making u = some (.insertRx d rx) ∧ u ≠ t := by
  rcases Store.update_eq_some.mp hu with ⟨rfl, hnext⟩ | ⟨hne, hold⟩
  · exfalso
    cases hacts with
    | quiet hq =>
      rw [hq.nextMaking] at hnext
      cases hnext
    | @make m m' store hmake =>
      cases hnext
      cases m with
      | insertTx tx rx' =>
        cases hmake
        rw [(h.pending u _ hm d (by simp [Making.pending])).1] at hd
        cases hd
      | _ => cases hmake
    | acquire hlock hfree =>
      cases hlock with
      | _ => cases hnext
    | release hunlock =>
      cases hunlock with
      | _ => cases hnext
    | pop hch hqueue hg =>
      cases hg with
      | _ => cases hnext
    | _ => cases hnext
  · exact ⟨hold, hne⟩

/-- A step keeps that a removed receiver is in no table. -/
theorem removed_acts {making : Nat → Option Making} (h : σ.Handles making)
    (hm : making t = p.making) (hremoved : Removed σ making) (hacts : Acts σ t p σ' next) :
    Removed σ' (Function.update making t (nextMaking next)) := by
  intro d hd
  rcases acts_removed hacts d with hsame | ⟨-, n, hn, hreceivers, hchannels, -⟩
  · obtain ⟨dh, hdh, hnone, hinserting⟩ := hremoved d (hsame ▸ hd)
    obtain ⟨dh', hdh', hrx⟩ := acts_channels h hm hacts hdh
    refine ⟨dh', hdh', ?_, fun u rx hu => hinserting u rx (insertRx_acts h hm hacts hdh hu).1⟩
    cases hr : σ'.receivers dh'.rx with
    | none => rfl
    | some e =>
      rw [hrx] at hr
      rcases acts_receivers hacts hr with hold | hp
      · rw [hnone] at hold
        cases hold
      · obtain ⟨eh, heh, hehrx, -⟩ := h.inserting t e _ (hm.trans hp)
        have hed : e = d := h.rx_inj e eh d dh heh hdh hehrx
        exact absurd (hm.trans hp) (hed ▸ hinserting t _)
  · obtain ⟨dh, hdh, hrx⟩ := h.receivers n d hn
    refine ⟨dh, hchannels ▸ hdh, by simp [hreceivers, hrx], fun u rx hu => ?_⟩
    obtain ⟨dh', hdh', hrx', hnone⟩ := h.inserting u d rx (insertRx_acts h hm hacts hdh hu).1
    rw [hdh] at hdh'
    cases hdh'
    rw [← hrx', hrx, hn] at hnone
    cases hnone

/-! ## Calls and where they stand -/

/-- The answers of a receiver. -/
def FromReceiver : Reply V → Prop
  | .received _ | .drained _ => True
  | .error f => f = .disconnected ∨ f = .timeout
  | _ => False

/-- The call takes from channel `c`. -/
def TakesFrom (σ : Shared V) (call : Call V) (k : Taking) (c : Int) : Prop :=
  call.taking = some k ∧ ∃ ch, σ.channels c = some ch ∧ call.handle = some ch.rx

/-- A thread stands at a point of its own call. -/
def Fits (σ : Shared V) (call : Call V) : Point V → Prop
  | .refuse _ | .notClosed => call.handle = none
  | .new _ => call = .new
  | .sendCheck h v | .sendLookup h v => call = .send (.int h) v
  | .check k h | .lookup k h => call.taking = some k ∧ call.handle = some h
  | .lockReceiver k c => TakesFrom σ call k c
  | .take k c items => TakesFrom σ call k c ∧ (k ≠ .drain → items = [])
  | .unlock c r | .dropReceiver c r => (∃ k, TakesFrom σ call k c) ∧ FromReceiver r
  | .closeSender h | .closeReceiver h _ | .closeMark h => call = .close (.int h)
  | .closeLock h c | .closeDrain h c | .closeUnlock h c | .closeDrop h c =>
    call = .close (.int h) ∧ (σ.arcs c).removed = true

theorem fits_enterTaking {call : Call V} {k : Taking} {rx : Arg} (hk : call.taking = some k)
    (hhandle : call.handle = extractInt rx) : Fits σ call (enterTaking k rx) := by
  rw [enterTaking]
  cases h : extractInt rx with
  | none => exact hhandle.trans h
  | some n => exact ⟨hk, hhandle.trans h⟩

/-- A call starts at a point that fits it. -/
theorem fits_enter (call : Call V) : Fits σ call (enter call) := by
  cases call with
  | new => rfl
  | send tx v =>
    cases tx with
    | int n => rfl
    | _ => rfl
  | recv rx =>
    refine fits_enterTaking rfl ?_
    cases rx with
    | _ => rfl
  | recvTimeout rx ms =>
    cases rx with
    | int n =>
      cases ms with
      | int m =>
        simp only [enter, extractInt]
        by_cases hneg : m < 0
        · simp [hneg, Fits, Call.handle]
        · simp [hneg, Fits, Call.handle, Call.taking]
      | _ => rfl
    | _ => rfl
  | drain rx =>
    refine fits_enterTaking rfl ?_
    cases rx with
    | _ => rfl
  | close handle =>
    cases handle with
    | int n => rfl
    | _ => rfl

theorem TakesFrom.mono {call : Call V} {k : Taking} (h : TakesFrom σ call k c)
    (hchannels : ∀ {d dh}, σ.channels d = some dh →
      ∃ dh', σ'.channels d = some dh' ∧ dh'.rx = dh.rx) : TakesFrom σ' call k c := by
  obtain ⟨hk, ch, hch, hhandle⟩ := h
  obtain ⟨ch', hch', hrx⟩ := hchannels hch
  exact ⟨hk, ch', hch', hrx ▸ hhandle⟩

/-- A point fits while channels stay and removed receivers stay removed. -/
theorem Fits.mono {call : Call V} (h : Fits σ call p)
    (hchannels : ∀ {d dh}, σ.channels d = some dh →
      ∃ dh', σ'.channels d = some dh' ∧ dh'.rx = dh.rx)
    (hremoved : ∀ {d}, (σ.arcs d).removed = true → (σ'.arcs d).removed = true) :
    Fits σ' call p := by
  cases p with
  | lockReceiver k c => exact TakesFrom.mono h hchannels
  | take k c items => exact ⟨h.1.mono hchannels, h.2⟩
  | unlock c r =>
    obtain ⟨⟨k, hk⟩, hr⟩ := h
    exact ⟨⟨k, hk.mono hchannels⟩, hr⟩
  | dropReceiver c r =>
    obtain ⟨⟨k, hk⟩, hr⟩ := h
    exact ⟨⟨k, hk.mono hchannels⟩, hr⟩
  | closeLock n c => exact ⟨h.1, hremoved h.2⟩
  | closeDrain n c => exact ⟨h.1, hremoved h.2⟩
  | closeUnlock n c => exact ⟨h.1, hremoved h.2⟩
  | closeDrop n c => exact ⟨h.1, hremoved h.2⟩
  | _ => exact h

theorem acts_removed_mono (hacts : Acts σ t p σ' next) {d : Int}
    (h : (σ.arcs d).removed = true) : (σ'.arcs d).removed = true := by
  rcases acts_removed hacts d with hsame | ⟨hremoved, -⟩
  · rw [hsame, h]
  · exact hremoved

/-- A step leads to a point that fits the call. -/
theorem fits_acts {making : Nat → Option Making} {call : Call V} {q : Point V}
    (hh : σ.Handles making) (hm : making t = p.making) (h : Fits σ call p)
    (hacts : Acts σ t p σ' (.inl q)) : Fits σ' call q := by
  have hmono : ∀ {p'}, Fits σ call p' → Fits σ' call p' := fun h' =>
    h'.mono (fun hd => acts_channels hh hm hacts hd) (acts_removed_mono hacts)
  cases hacts with
  | quiet hq =>
    cases hq with
    | drained c items => exact ⟨⟨_, h.1⟩, trivial⟩
    | failed hk c items hf => exact ⟨⟨_, h.1⟩, hf⟩
    | emptied n c => exact h
    | _ => exact h
  | make hmake => exact h
  | @clone k n c hc =>
    obtain ⟨ch, hch, hrx⟩ := hh.receivers n c hc
    exact ⟨h.1, ch, hch, hrx ▸ h.2⟩
  | acquire hlock hfree =>
    have h' := hmono h
    cases hlock with
    | take k => exact ⟨h', fun _ => rfl⟩
    | close n => exact h'
  | release hunlock =>
    have h' := hmono h
    cases hunlock with
    | take => exact h'
    | close n => exact h'
  | pop hch hqueue hg =>
    cases hg with
    | drain c items v => exact ⟨(hmono h).1, fun hk => absurd rfl hk⟩
    | value hk c items v => exact ⟨⟨_, (hmono h).1⟩, trivial⟩
  | closeSender hc hch => exact h
  | @closeReceiver n c removedTx hc => exact ⟨h, by simp [Shared.setArc]⟩
  | discard hch => exact hmono h
  | closeDrop hch => exact h.1

/-! ## What a step adds to the ledger -/

open Threads.State (entries)

/-- Nothing of channel `c` is lost before a close removes its receiver. -/
abbrev Lost (σ : Shared V) (c : Int) : Prop := (σ.arcs c).removed = true

theorem Quiet.silent {call : Call V} (h : Quiet σ p next) (hfits : Fits σ call p) :
    Ledger.Silent next p.inHand (nextInHand next) := by
  cases h with
  | failed hk c items hf =>
    apply Ledger.Silent.going
    intro d
    simp [Point.inHand, nextInHand, Threads.State.readsNext, Reply.values, hfits.2 hk]
  | drained c items => exact .going fun d => rfl
  | sendOpen hopen => exact .going fun d => rfl
  | takeOpen hopen => exact .going fun d => rfl
  | noSender hnone => exact .going fun d => rfl
  | noReceiver hnone => exact .going fun d => rfl
  | emptied n c => exact .going fun d => rfl
  | _ => exact .returning (by simp) rfl fun d => rfl

/-- The last reference to a removed receiver drops its values. -/
theorem ledger_dropRef (hh : s.shared.Handles (making s)) (hrefs : Refs s.shared)
    (hl : Ledger s.shared.channels (Lost s.shared) (inHand s) s.log)
    (hr : s.running t = some r) (hfits : Fits s.shared r.call r.point) {reply : Reply V}
    {ch : Channel V} (hp : r.point = .dropReceiver c reply)
    (hch : s.shared.channels c = some ch) :
    Ledger (s.shared.dropRef c ch (some t)).channels (Lost (s.shared.dropRef c ch (some t)))
      (Function.update (inHand s) t fun _ => [])
      (s.log ++ entries t r (.inr reply : Point V ⊕ Reply V)) := by
  rw [hp] at hfits
  obtain ⟨⟨k, -, ch', hch', hhandle⟩, hreply⟩ := hfits
  rw [hch] at hch'
  cases hch'
  have hsent : reply ≠ .sent := by
    rintro rfl
    exact hreply
  have hhand : ∀ d, inHand s t d = if c = d then reply.values else [] := by
    intro d
    rw [inHand_running hr, hp]
    rfl
  have hlost : ∀ d, Lost s.shared d → Lost (s.shared.dropRef c ch (some t)) d := by
    intro d hd
    rw [Lost, arcs_dropRef]
    exact (removed_setArc (by rfl) d).trans hd
  have hdeliver : ∀ ch', Update ch ch' [] (Lost (s.shared.dropRef c ch (some t)) c) (fun _ => []) →
      Ledger (Function.update s.shared.channels c (some ch'))
        (Lost (s.shared.dropRef c ch (some t))) (Function.update (inHand s) t fun _ => [])
        (s.log ++ entries t r (.inr reply : Point V ⊕ Reply V)) := fun ch' =>
    hl.deliver hlost (fun d dh hd heq => hh.rx_inj d dh c ch hd hch heq) hch hhandle hsent hhand
  by_cases hlast : (s.shared.arcs c).refs.erase (some t) = []
  · have hchannels : (s.shared.dropRef c ch (some t)).channels =
        Function.update s.shared.channels c (some ch.dropReceiver) := by
      rw [Shared.dropRef]
      simp only [if_pos hlast]
      rfl
    have hremoved : Lost s.shared c := by
      by_contra hkept
      have hmem := (List.mem_erase_of_ne (by simp : (none : Option Nat) ≠ some t)).mpr
        (hrefs c (Bool.eq_false_iff.mpr hkept))
      rw [hlast] at hmem
      cases hmem
    rw [hchannels]
    exact hdeliver _ (.dropReceiver ch (Or.inl (hlost c hremoved)))
  · have hchannels : (s.shared.dropRef c ch (some t)).channels =
        Function.update s.shared.channels c (some ch) := by
      rw [Shared.dropRef]
      simp only [if_neg hlast]
      exact (Function.update_eq_self_iff.mpr hch.symm).symm
    rw [hchannels]
    exact hdeliver _ (.refl ch)

/-! ## The invariant -/

structure Inv (s : State V) : Prop where
  handles : s.shared.Handles (making s)
  refs : Refs s.shared
  removed : Removed s.shared (making s)
  ledger : Ledger s.shared.channels (Lost s.shared) (inHand s) s.log
  fits : ∀ u r, s.running u = some r → Fits s.shared r.call r.point

theorem inv_start : Inv (start : State V) where
  handles := Store.Handles.initial
  refs d _ := List.mem_singleton.mpr rfl
  removed d hd := by cases hd
  ledger := Ledger.initial
  fits u r hr := by cases hr

theorem inHand_unused (h : ∀ u r, s.running u = some r → Fits s.shared r.call r.point)
    (hc : s.shared.channels c = none) (u : Nat) : inHand s u c = [] := by
  have hnone : ∀ {call k}, ¬ TakesFrom s.shared call k c := by
    rintro call k ⟨-, ch, hch, -⟩
    rw [hc] at hch
    cases hch
  cases hr : s.running u with
  | none => exact congrFun (Threads.State.reads_idle Point.inHand (fun _ => []) hr) c
  | some r =>
    have hfits := h u r hr
    rw [inHand_running hr]
    cases hp : r.point with
    | take k d items =>
      rw [hp] at hfits
      by_cases hd : d = c
      · subst hd
        exact absurd hfits.1 hnone
      · simp [Point.inHand, hd]
    | unlock d reply =>
      rw [hp] at hfits
      by_cases hd : d = c
      · subst hd
        exact absurd hfits.1.choose_spec hnone
      · simp [Point.inHand, hd]
    | dropReceiver d reply =>
      rw [hp] at hfits
      by_cases hd : d = c
      · subst hd
        exact absurd hfits.1.choose_spec hnone
      · simp [Point.inHand, hd]
    | _ => rfl

theorem Gets.inHand {call : Call V} {k : Taking} {items : List V} {v : V}
    (hgets : Gets k c items v p) (hfits : Fits σ call (.take k c items)) (d : Int) :
    p.inHand d = (Point.take k c items).inHand d ++ if c = d then [v] else [] := by
  cases hgets with
  | drain =>
    by_cases hd : c = d
    · simp [Point.inHand, hd]
    · simp [Point.inHand, hd]
  | value hk =>
    by_cases hd : c = d
    · simp [Point.inHand, hd, Reply.values, hfits.2 hk]
    · simp [Point.inHand, hd]

/-- A step keeps the ledger. -/
theorem ledger_acts (h : Inv s) (hr : s.running t = some r)
    (hacts : Acts s.shared t r.point σ' next) :
    Ledger σ'.channels (Lost σ') (Function.update (inHand s) t (nextInHand next))
      (s.log ++ entries t r next) := by
  have hfits := h.fits t r hr
  have hmaking := making_running hr
  have hhand := inHand_running hr
  have hlost : ∀ d, Lost s.shared d → Lost σ' d := fun d => acts_removed_mono hacts
  generalize hp : r.point = p at hacts hfits hmaking hhand
  -- The ledger changes where a channel is made or dropped and where a value goes in or out.
  cases hacts with
  | quiet hq => exact h.ledger.silent hlost (hhand ▸ hq.silent hfits)
  | mark n => exact h.ledger.silent hlost (hhand ▸ .returning (by simp) rfl fun d => rfl)
  | @make m m' store hmake =>
    cases m with
    | drawTx =>
      cases hmake
      exact h.ledger.silent hlost (hhand ▸ .going fun d => rfl)
    | drawRx tx =>
      cases hmake
      exact h.ledger.silent hlost (hhand ▸ .going fun d => rfl)
    | insertTx tx rx =>
      cases hmake
      have htx := h.handles.pending t _ hmaking tx (by simp [Making.pending])
      have hrx := h.handles.pending t _ hmaking rx (by simp [Making.pending])
      rw [entries, List.append_nil]
      apply h.ledger.create hlost htx.1 hrx.2
      · intro u d
        by_cases hu : u = t
        · rw [hu, Function.update_self, hhand]
          rfl
        · rw [Function.update_of_ne hu]
      · exact inHand_unused h.fits htx.1
    | insertRx tx rx => cases hmake
  | @made m tx rx store hmake =>
    cases m with
    | insertRx tx rx =>
      cases hmake
      exact h.ledger.silent hlost (hhand ▸ .returning (by simp) rfl fun d => rfl)
    | _ => cases hmake
  | clone k hc => exact h.ledger.silent hlost (hhand ▸ .going fun d => rfl)
  | acquire hlock hfree =>
    cases hlock with
    | take k c =>
      refine h.ledger.silent hlost (hhand ▸ .going fun d => ?_)
      simp [nextInHand, Threads.State.readsNext, Point.inHand]
    | close n => exact h.ledger.silent hlost (hhand ▸ .going fun d => rfl)
  | release hunlock =>
    cases hunlock with
    | take => exact h.ledger.silent hlost (hhand ▸ .going fun d => rfl)
    | close n => exact h.ledger.silent hlost (hhand ▸ .going fun d => rfl)
  | push hc hch =>
    obtain ⟨rfl, -⟩ := h.handles.senders _ _ hc
    exact h.ledger.push hlost hch hfits fun d => congrFun hhand d
  | pop hch hqueue hgets =>
    apply h.ledger.pop hlost hch hqueue
    intro d
    rw [hhand]
    exact hgets.inHand hfits d
  | dropRef hch => exact ledger_dropRef h.handles h.refs h.ledger hr (h.fits t r hr) hp hch
  | closeSender hc hch =>
    exact h.ledger.silent_set hlost (hhand ▸ .going fun d => rfl) hch (.dropSender _)
  | closeReceiver hc => exact h.ledger.silent hlost (hhand ▸ .going fun d => rfl)
  | discard hch =>
    exact h.ledger.silent_set hlost (hhand ▸ .going fun d => rfl) hch (.discard _ hfits.2)
  | @closeDrop n c ch hch =>
    have hsilent : Ledger.Silent (.inl (.closeMark n) : Point V ⊕ Reply V) (inHand s t)
        (nextInHand (.inl (.closeMark n))) := hhand ▸ .going fun d => rfl
    dsimp only
    rcases dropRef_store s.shared c ch none with hstore | hstore
    · rw [hstore]
      exact h.ledger.silent hlost hsilent
    · rw [hstore]
      exact h.ledger.silent_set hlost hsilent hch (.dropReceiver ch (Or.inl (hlost c hfits.2)))

/-- A step keeps the invariant. -/
theorem inv_steps {l : Threads.Label (Call V) Bool} {s' : State V} (h : Inv s)
    (hstep : code.Steps s l s') : Inv s' := by
  cases hstep with
  -- A call that starts holds nothing and has made no channel yet.
  | @start t call hidle =>
    have hmaking := making_idle hidle
    exact
      { handles := by
          rw [making_start]
          rcases (enter_opens call).making with hnone | hdraw
          · rw [hnone]
            exact h.handles.leave t
          · rw [hdraw]
            exact h.handles.begin t
        refs := h.refs
        removed := by
          intro d hd
          obtain ⟨dh, hdh, hnone, hinserting⟩ := h.removed d hd
          refine ⟨dh, hdh, hnone, fun u rx hu => ?_⟩
          rw [making_start] at hu
          rcases Store.update_eq_some.mp hu with ⟨-, henter⟩ | ⟨-, hold⟩
          · rcases (enter_opens call).making with heq | heq
            · rw [heq] at henter
              cases henter
            · rw [heq] at henter
              cases henter
          · exact hinserting u rx hold
        ledger := by
          rw [inHand_start hidle]
          exact h.ledger
        fits := by
          intro u r hr
          rcases Threads.Code.running_start hr with ⟨-, hold⟩ | ⟨-, rfl⟩
          · exact h.fits u r hold
          · exact fits_enter call }
  | @act t r choice σ' next hr hact =>
    have hacts := acts_of_act hact
    have hmaking := making_running hr
    exact
      { handles := by
          rw [making_advance]
          exact handles_acts h.handles hmaking hacts
        refs := by
          refine refs_acts h.refs (fun n c hp => ?_) hacts
          have hfits := h.fits t r hr
          rw [hp] at hfits
          exact hfits.2
        removed := by
          rw [making_advance]
          exact removed_acts h.handles hmaking h.removed hacts
        ledger := by
          rw [inHand_advance]
          exact ledger_acts h hr hacts
        fits := by
          intro u r' hr'
          rcases Threads.Code.running_advance hr' with ⟨-, hold⟩ | ⟨q, -, rfl, rfl⟩
          · exact (h.fits u r' hold).mono (fun hd => acts_channels h.handles hmaking hacts hd)
              (acts_removed_mono hacts)
          · exact fits_acts h.handles hmaking (h.fits t r hr) hacts }

/-- Every state of a run has the invariant. -/
theorem inv_run {ls : List (Threads.Label (Call V) Bool)} (hrun : code.run start ls = some s) :
    Inv s :=
  Threads.Code.run_invariant (fun h _ hstep => inv_steps h hstep) inv_start
    (Threads.Code.guarded_true ls) hrun

end Airl.Channels.Rt
