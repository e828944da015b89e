import Airl.Channels.Ledger
import Airl.Channels.Receivers
import Airl.Channels.Vm

/-! # The ledger of the VM

The invariant of the VM's channels, preserved by every action of every thread: the
handles, the place of every receiver, and the ledger of each channel, of which nothing
is lost before a close drops the receiver.
-/

namespace Airl.Channels.Vm

open Threads (Running)
open Threads.State (entries reads readsNext)

variable {V : Type}

def Point.making : Point V → Option Making
  | .new m => some m
  | _ => none

/-- The values received from channel `c` that are on their way to the caller. -/
def Point.inHand : Point V → Int → List V
  | .putBack _ c' r, c => if c' = c then r.values else []
  | _, _ => []

/-- The receiver that the thread will put into the table. -/
def Point.carries : Point V → Option (Int × Int)
  | .new (.insertRx tx rx) => some (rx, tx)
  | .receive _ h c | .putBack h c _ => some (h, c)
  | _ => none

def making (s : State V) : Nat → Option Making := s.reads Point.making none

def inHand (s : State V) : Nat → Int → List V := s.reads Point.inHand fun _ => []

def carries (s : State V) : Nat → Option (Int × Int) := s.reads Point.carries none

def nextMaking : Point V ⊕ Reply V → Option Making := readsNext Point.making none

def nextInHand : Point V ⊕ Reply V → Int → List V := readsNext Point.inHand fun _ => []

def nextCarries : Point V ⊕ Reply V → Option (Int × Int) := readsNext Point.carries none

variable {s : State V} {σ σ' : Shared V} {t u : Nat} {c d n : Int} {p : Point V}
  {next : Point V ⊕ Reply V} {r : Running (Point V) (Call V)}

theorem making_start (call : Call V) :
    making (s.start code t call) = Function.update (making s) t (enter call).making :=
  Threads.State.reads_start Point.making none call

theorem making_advance :
    making (s.advance t r σ' next) = Function.update (making s) t (nextMaking next) :=
  Threads.State.reads_advance Point.making none r σ' next

theorem making_running (h : s.running t = some r) : making s t = r.point.making :=
  Threads.State.reads_running Point.making none h

theorem inHand_advance :
    inHand (s.advance t r σ' next) = Function.update (inHand s) t (nextInHand next) :=
  Threads.State.reads_advance Point.inHand (fun _ => []) r σ' next

theorem inHand_running (h : s.running t = some r) : inHand s t = r.point.inHand :=
  Threads.State.reads_running Point.inHand (fun _ => []) h

theorem carries_advance :
    carries (s.advance t r σ' next) = Function.update (carries s) t (nextCarries next) :=
  Threads.State.reads_advance Point.carries none r σ' next

theorem carries_running (h : s.running t = some r) : carries s t = r.point.carries :=
  Threads.State.reads_running Point.carries none h

/-- A thread that makes a channel carries its receiver. -/
theorem carries_of_making {tx rx : Int} (h : making s u = some (.insertRx tx rx)) :
    carries s u = some (rx, tx) := by
  cases hr : s.running u with
  | none =>
    rw [making, Threads.State.reads_idle Point.making none hr] at h
    cases h
  | some r =>
    rw [making_running hr] at h
    rw [carries_running hr]
    cases hp : r.point with
    | new m =>
      rw [hp] at h
      cases h
      rfl
    | _ =>
      rw [hp] at h
      cases h

/-- The answers of a receiver. -/
def FromReceiver : Reply V → Prop
  | .received _ => True
  | .error f => f = .disconnected ∨ f = .timeout
  | _ => False

/-- `airl_channel_drain` before it knows that it has no such receiver. -/
def Drains (call : Call V) (p : Rt.Point V) : Prop :=
  (call.handle = none ∧ ∃ f, p = .refuse f) ∨
    ∃ h, call.handle = some h ∧ (p = .check .drain h ∨ p = .lookup .drain h)

/-- The call takes the receiver of `h` out of the table. -/
def Receives (call : Call V) (k : Taking) (h : Int) : Prop :=
  call.taking = some k ∧ call.handle = some h ∧ k ≠ .drain

/-- A thread stands at a point of its own call. -/
def Fits (call : Call V) : Point V → Prop
  | .refuse _ | .notClosed => call.handle = none
  | .new _ => call = .new
  | .sendLookup h v => call = .send (.int h) v
  | .takeOut k h | .receive k h _ => Receives call k h
  | .putBack h _ r => (∃ k, Receives call k h) ∧ FromReceiver r
  | .closeSender h | .closeReceiver h _ => call = .close (.int h)
  | .drain p => call.taking = some .drain ∧ Drains call p

theorem fits_enterTaking {call : Call V} {k : Taking} {rx : Arg} (hk : call.taking = some k)
    (hdrain : k ≠ .drain) (hhandle : ∀ h, rx = .int h → call.handle = some h)
    (hnone : (∀ h, rx ≠ .int h) → call.handle = none) : Fits call (enterTaking k rx) := by
  cases rx with
  | missing => exact hnone (by simp)
  | other => exact hnone (by simp)
  | int h => exact ⟨hk, hhandle h rfl, hdrain⟩

/-- A call begins at a point that fits it. -/
theorem fits_enter (call : Call V) : Fits call (enter call) := by
  cases call with
  | new => rfl
  | send tx v =>
    cases tx with
    | _ => rfl
  | recv rx =>
    apply fits_enterTaking rfl (by decide)
    · rintro h rfl
      rfl
    · intro h
      cases rx with
      | int n => exact absurd rfl (h n)
      | _ => rfl
  | recvTimeout rx ms =>
    cases rx with
    | int h =>
      cases ms with
      | int m =>
        rw [enter]
        by_cases hneg : m < 0
        · rw [if_pos hneg]
          exact if_pos hneg
        · rw [if_neg hneg]
          exact ⟨rfl, if_neg hneg, by decide⟩
      | _ => rfl
    | _ => rfl
  | drain rx =>
    refine ⟨rfl, ?_⟩
    cases rx with
    | int h => exact Or.inr ⟨h, rfl, Or.inl rfl⟩
    | _ => exact Or.inl ⟨rfl, _, rfl⟩
  | close handle =>
    cases handle with
    | _ => rfl

theorem enterTaking_idle (k : Taking) (rx : Arg) : (enterTaking k rx : Point V).making = none ∧
    (enterTaking k rx : Point V).inHand = (fun _ => []) ∧
      (enterTaking k rx : Point V).carries = none := by
  cases rx with
  | _ => exact ⟨rfl, rfl, rfl⟩

/-- At its beginning a call makes, holds and carries nothing. -/
theorem enter_idle (call : Call V) :
    ((enter call).making = none ∨ (enter call).making = some .drawTx) ∧
      (enter call).inHand = (fun _ => []) ∧ (enter call).carries = none := by
  cases call with
  | new => exact ⟨Or.inr rfl, rfl, rfl⟩
  | send tx v =>
    cases tx with
    | _ => exact ⟨Or.inl rfl, rfl, rfl⟩
  | recv rx => exact (enterTaking_idle .recv rx).imp_left Or.inl
  | recvTimeout rx ms =>
    cases rx with
    | int h =>
      cases ms with
      | int m =>
        rw [enter]
        by_cases hneg : m < 0
        · rw [if_pos hneg]
          exact ⟨Or.inl rfl, rfl, rfl⟩
        · rw [if_neg hneg]
          exact ⟨Or.inl rfl, rfl, rfl⟩
      | _ => exact ⟨Or.inl rfl, rfl, rfl⟩
    | _ => exact ⟨Or.inl rfl, rfl, rfl⟩
  | drain rx => exact ⟨Or.inl rfl, rfl, rfl⟩
  | close handle =>
    cases handle with
    | _ => exact ⟨Or.inl rfl, rfl, rfl⟩

/-- A drain finds no channel, since the other table stays empty. -/
theorem drain_acts {call : Call V} {q : Rt.Point V} {rt : Rt.Shared V} {x : Bool}
    {after : Rt.Point V ⊕ Reply V} (hfits : Drains call q)
    (hact : Rt.act Rt.Shared.initial t q x = some (rt, after)) :
    rt = Rt.Shared.initial ∧ ((∃ q', after = .inl q' ∧ Drains call q') ∨
      ∃ f, after = .inr (.error f) ∧
        ∀ h, call.handle = some h → f = .invalidReceiver .drain h) := by
  rcases hfits with ⟨hnone, f, rfl⟩ | ⟨h, hhandle, rfl | rfl⟩
  · cases hact
    refine ⟨rfl, Or.inr ⟨f, rfl, fun h hh => ?_⟩⟩
    rw [hnone] at hh
    cases hh
  · cases hact
    exact ⟨rfl, Or.inl ⟨_, rfl, Or.inr ⟨h, hhandle, Or.inr rfl⟩⟩⟩
  · cases hact
    refine ⟨rfl, Or.inr ⟨_, rfl, fun h' hh => ?_⟩⟩
    rw [hhandle] at hh
    cases hh
    rfl

/-- And it goes on to points that fit it. -/
theorem fits_acts {call : Call V} {q : Point V} (hrt : σ.rt = Rt.Shared.initial)
    (h : Fits call p) (hacts : Acts σ t p σ' (.inl q)) : Fits call q := by
  generalize hnext : (.inl q : Point V ⊕ Reply V) = next at hacts
  cases hacts with
  | quiet hq =>
    cases hq with
    | failed k n c hf =>
      cases hnext
      exact ⟨⟨k, h⟩, hf⟩
    | noSender hnone =>
      cases hnext
      exact h
    | _ => cases hnext
  | make hmake =>
    cases hnext
    exact h
  | takeOut k hc =>
    cases hnext
    exact h
  | pop k n hch hqueue =>
    cases hnext
    exact ⟨⟨k, h⟩, trivial⟩
  | closeSender hc hch =>
    cases hnext
    exact h
  | drain hact =>
    rw [hrt] at hact
    obtain ⟨-, ⟨q', rfl, hq'⟩ | ⟨f, rfl, -⟩⟩ := drain_acts h.2 hact
    · cases hnext
      exact ⟨h.1, hq'⟩
    · cases hnext
  | _ => cases hnext

structure Inv (s : State V) : Prop where
  handles : s.shared.Handles (making s)
  receivers : s.shared.Receivers (carries s)
  ledger : Ledger s.shared.channels s.shared.Dropped (inHand s) s.log
  fits : ∀ u r, s.running u = some r → Fits r.call r.point
  /-- Nothing ever enters the tables of `airl-rt`. -/
  drains : s.shared.rt = Rt.Shared.initial

/-- No handle is drawn and no receiver is out at the start. -/
theorem inv_start : Inv (start : State V) where
  handles := Store.Handles.initial
  receivers := Store.Receivers.initial
  ledger := Ledger.initial
  fits u r hr := by cases hr
  drains := rfl

theorem Quiet.nextMaking (h : Quiet σ p next) : nextMaking next = none := by
  cases h with
  | _ => rfl

theorem Quiet.nextCarries (h : Quiet σ p next) : nextCarries next = p.carries := by
  cases h with
  | _ => rfl

theorem nextMaking_drain {after : Rt.Point V ⊕ Reply V} :
    nextMaking (after.map Point.drain id) = none := by
  cases after with
  | _ => rfl

theorem nextCarries_drain {after : Rt.Point V ⊕ Reply V} :
    nextCarries (after.map Point.drain id) = none := by
  cases after with
  | _ => rfl

/-- Handles stay apart through every action. -/
theorem handles_acts (h : Inv s) (hr : s.running t = some r)
    (hacts : Acts s.shared t r.point σ' next) :
    σ'.Handles (Function.update (making s) t (nextMaking next)) := by
  have hleave := h.handles.leave t
  have hmaking := making_running hr
  have hcarries := carries_running hr
  generalize r.point = p at hacts hmaking hcarries
  cases hacts with
  | quiet hq =>
    rw [hq.nextMaking]
    exact hleave
  | make hmake => exact h.handles.make hmaking hmake
  | made hmake => exact h.handles.make hmaking hmake
  | push hc hch =>
    exact hleave.frame rfl (Store.shape_setChannel hch rfl) (fun _ _ h => h) fun _ _ h => h
  | takeOut k hc =>
    exact hleave.frame rfl (fun _ => rfl) (fun _ _ h => h) fun _ _ h => Store.update_none_of_some h
  | pop k n hch hqueue =>
    exact hleave.frame rfl (Store.shape_setChannel hch rfl) (fun _ _ h => h) fun _ _ h => h
  | putBack n c reply =>
    obtain ⟨⟨ch, hch, hrx, halive⟩, -⟩ := h.receivers.carried t n c hcarries
    apply hleave.putBack hch hrx
    -- whoever inserts a receiver under the same handle would carry the same one
    intro u d hu
    rcases Store.update_eq_some.mp hu with ⟨-, hnone⟩ | ⟨hne, hold⟩
    · cases hnone
    · have hu' := carries_of_making hold
      have hdalive := (h.receivers.carried u n d hu').1
      cases h.handles.alive_inj ⟨ch, hch, hrx, halive⟩ hdalive
      exact hne (h.receivers.apart u t n n c hu' hcarries)
  | closeSender hc hch =>
    exact hleave.frame rfl (Store.shape_setChannel hch rfl)
      (fun _ _ h => Store.update_none_of_some h) fun _ _ h => h
  | closeReceiver removedTx hc hch =>
    exact hleave.frame rfl (Store.shape_setChannel hch rfl) (fun _ _ h => h)
      fun _ _ h => Store.update_none_of_some h
  | drain hact =>
    rw [nextMaking_drain]
    exact hleave

/-- A receiver is in its table or with one thread, through every action. -/
theorem receivers_acts (h : Inv s) (hr : s.running t = some r)
    (hacts : Acts s.shared t r.point σ' next) :
    σ'.Receivers (Function.update (carries s) t (nextCarries next)) := by
  have hmaking := making_running hr
  have hcarries := carries_running hr
  generalize r.point = p at hacts hmaking hcarries
  -- a thread that goes on with what it carries
  have hsame : nextCarries next = p.carries → σ'.Receivers (carries s) →
      σ'.Receivers (Function.update (carries s) t (nextCarries next)) := by
    intro hnext h'
    rw [hnext, ← hcarries, Function.update_eq_self]
    exact h'
  cases hacts with
  | quiet hq => exact hsame hq.nextCarries h.receivers
  | @make m m' store hmake =>
    cases m with
    | insertTx tx rx =>
      cases hmake
      have htx := h.handles.pending t _ hmaking tx (by simp [Making.pending])
      have hrx := h.handles.pending t _ hmaking rx (by simp [Making.pending])
      exact (h.receivers.create hcarries htx.1 hrx).frame (fun _ _ => Iff.rfl) rfl
    | insertRx tx rx => cases hmake
    | _ =>
      cases hmake
      exact hsame rfl (h.receivers.frame (fun _ _ => Iff.rfl) rfl)
  | @made m _ _ store hmake =>
    cases m with
    | insertRx tx rx =>
      cases hmake
      exact h.receivers.insert h.handles hcarries
    | _ => cases hmake
  | push hc hch =>
    exact hsame rfl (h.receivers.frame (fun _ _ => Store.alive_setChannel hch rfl rfl) rfl)
  | takeOut k hc => exact h.receivers.takeOut hcarries hc
  | pop k n hch hqueue =>
    exact hsame rfl (h.receivers.frame (fun _ _ => Store.alive_setChannel hch rfl rfl) rfl)
  | putBack n c reply => exact h.receivers.insert h.handles hcarries
  | closeSender hc hch =>
    exact hsame rfl (h.receivers.frame (fun _ _ => Store.alive_setChannel hch rfl rfl) rfl)
  | closeReceiver removedTx hc hch => exact hsame rfl (h.receivers.drop hc)
  | drain hact => exact hsame nextCarries_drain h.receivers

/-- A channel stays, with its receiver, once it is made. -/
theorem acts_channels (h : Inv s) (hr : s.running t = some r)
    (hacts : Acts s.shared t r.point σ' next) {dh : Channel V}
    (hd : s.shared.channels d = some dh) : ∃ dh', σ'.channels d = some dh' ∧ dh'.rx = dh.rx := by
  have hmaking := making_running hr
  generalize r.point = p at hacts hmaking
  cases hacts with
  | make hmake => exact ⟨dh, h.handles.channels_make hmaking hmake hd, rfl⟩
  | made hmake => exact ⟨dh, h.handles.channels_make hmaking hmake hd, rfl⟩
  | push hc hch => exact Store.channels_setChannel hch rfl hd
  | pop k n hch hqueue => exact Store.channels_setChannel hch rfl hd
  | closeSender hc hch => exact Store.channels_setChannel hch rfl hd
  | closeReceiver removedTx hc hch => exact Store.channels_setChannel hch rfl hd
  | _ => exact ⟨dh, hd, rfl⟩

/-- A channel that lost its receiver does not get it back. -/
theorem acts_dropped (h : Inv s) (hr : s.running t = some r)
    (hacts : Acts s.shared t r.point σ' next) (hd : s.shared.Dropped d) : σ'.Dropped d := by
  have hmaking := making_running hr
  obtain ⟨dh, hdh, hdead⟩ := hd
  generalize r.point = p at hacts hmaking
  cases hacts with
  | make hmake => exact ⟨dh, h.handles.channels_make hmaking hmake hdh, hdead⟩
  | made hmake => exact ⟨dh, h.handles.channels_make hmaking hmake hdh, hdead⟩
  | push hc hch => exact Store.Dropped.setChannel ⟨dh, hdh, hdead⟩ hch fun h => h
  | pop k n hch hqueue => exact Store.Dropped.setChannel ⟨dh, hdh, hdead⟩ hch fun h => h
  | closeSender hc hch => exact Store.Dropped.setChannel ⟨dh, hdh, hdead⟩ hch fun h => h
  | closeReceiver removedTx hc hch =>
    exact Store.Dropped.setChannel ⟨dh, hdh, hdead⟩ hch fun _ => rfl
  | _ => exact ⟨dh, hdh, hdead⟩

/-- Closing a receiver that is in its table drops it. -/
theorem dropped_closeReceiver {removedTx : Bool} (hp : p = .closeReceiver n removedTx)
    (hc : σ.receivers n = some c) (hacts : Acts σ t p σ' next) : σ'.Dropped c := by
  cases hacts with
  | quiet hq =>
    cases hq with
    | noReceiver _ hnone =>
      cases hp
      rw [hc] at hnone
      cases hnone
    | _ => cases hp
  | @closeReceiver _ d _ dh hd hdh =>
    cases hp
    rw [hc] at hd
    cases hd
    exact ⟨dh.dropReceiver, Function.update_self c _ _, rfl⟩
  | _ => cases hp

theorem Quiet.silent (h : Quiet σ p next) :
    Ledger.Silent next p.inHand (nextInHand next) := by
  cases h with
  | failed k n c hf =>
    apply Ledger.Silent.going
    intro d
    exact ite_self []
  | noSender hnone => exact .going fun d => rfl
  | _ => exact .returning (by simp) rfl fun d => rfl

/-- Nobody holds a value of a channel that is not made. -/
theorem inHand_unused (h : s.shared.Receivers (carries s)) (hc : s.shared.channels c = none)
    (u : Nat) : inHand s u c = [] := by
  cases hr : s.running u with
  | none => exact congrFun (Threads.State.reads_idle Point.inHand (fun _ => []) hr) c
  | some r =>
    rw [inHand_running hr]
    cases hp : r.point with
    | putBack n d reply =>
      have hcarries := carries_running hr
      rw [hp] at hcarries
      obtain ⟨⟨dh, hdh, -⟩, -⟩ := h.carried u n d hcarries
      have hne : d ≠ c := by
        rintro rfl
        rw [hc] at hdh
        cases hdh
      exact if_neg hne
    | _ => rfl

/-- The account of the values sent and received balances through every action. -/
theorem ledger_acts (h : Inv s) {lost lost' : Int → Prop}
    (hl : Ledger s.shared.channels lost (inHand s) s.log) (hlost : ∀ d, lost d → lost' d)
    (hr : s.running t = some r) (hacts : Acts s.shared t r.point σ' next)
    (hdrop : ∀ n removedTx c ch, r.point = .closeReceiver n removedTx →
      s.shared.receivers n = some c → s.shared.channels c = some ch → lost' c ∨ ch.queue = []) :
    Ledger σ'.channels lost' (Function.update (inHand s) t (nextInHand next))
      (s.log ++ entries t r next) := by
  have hfits := h.fits t r hr
  have hmaking := making_running hr
  have hhand := inHand_running hr
  have hcarries := carries_running hr
  generalize r.point = p at hacts hfits hmaking hhand hcarries hdrop
  cases hacts with
  | quiet hq => exact hl.silent hlost (hhand ▸ hq.silent)
  | @make m m' store hmake =>
    cases m with
    | drawTx =>
      cases hmake
      exact hl.silent hlost (hhand ▸ .going fun d => rfl)
    | drawRx tx =>
      cases hmake
      exact hl.silent hlost (hhand ▸ .going fun d => rfl)
    | insertTx tx rx =>
      cases hmake
      have htx := h.handles.pending t _ hmaking tx (by simp [Making.pending])
      have hrx := h.handles.pending t _ hmaking rx (by simp [Making.pending])
      rw [entries, List.append_nil]
      refine hl.create hlost htx.1 hrx.2 ?_ (inHand_unused h.receivers htx.1)
      intro u d
      by_cases hu : u = t
      · rw [hu, Function.update_self, hhand]
        rfl
      · rw [Function.update_of_ne hu]
    | insertRx tx rx => cases hmake
  | @made m tx rx store hmake =>
    cases m with
    | insertRx tx rx =>
      cases hmake
      exact hl.silent hlost (hhand ▸ .returning (by simp) rfl fun d => rfl)
    | _ => cases hmake
  | push hc hch =>
    obtain ⟨rfl, -⟩ := h.handles.senders _ _ hc
    exact hl.push hlost hch hfits fun d => congrFun hhand d
  | takeOut k hc => exact hl.silent hlost (hhand ▸ .going fun d => rfl)
  | pop k n hch hqueue =>
    apply hl.pop hlost hch hqueue
    intro d
    rw [hhand]
    rfl
  | putBack n c reply =>
    obtain ⟨⟨ch, hch, rfl, -⟩, -⟩ := h.receivers.carried t n c hcarries
    obtain ⟨⟨k, -, hhandle, -⟩, hreply⟩ := hfits
    have hsent : reply ≠ .sent := by
      rintro rfl
      exact hreply
    have hledger := hl.deliver hlost
      (fun d dh hd heq => h.handles.rx_inj d dh c ch hd hch heq) hch hhandle hsent
      (fun d => congrFun hhand d) (.refl ch)
    rw [Function.update_eq_self_iff.mpr hch.symm] at hledger
    exact hledger
  | closeSender hc hch =>
    exact hl.silent_set hlost (hhand ▸ .going fun d => rfl) hch (.dropSender _)
  | closeReceiver removedTx hc hch =>
    apply hl.silent_set hlost (hhand ▸ .returning (by simp) rfl fun d => rfl) hch
    exact .dropReceiver _ (hdrop _ removedTx _ _ rfl hc hch)
  | drain hact =>
    rw [h.drains] at hact
    obtain ⟨-, ⟨q, rfl, -⟩ | ⟨f, rfl, -⟩⟩ := drain_acts hfits.2 hact
    · exact hl.silent hlost (hhand ▸ .going fun d => rfl)
    · exact hl.silent hlost (hhand ▸ .returning (by simp) rfl fun d => rfl)

/-- The table that drains look into stays empty. -/
theorem acts_drains (h : Inv s) (hr : s.running t = some r)
    (hacts : Acts s.shared t r.point σ' next) : σ'.rt = Rt.Shared.initial := by
  have hfits := h.fits t r hr
  generalize r.point = p at hacts hfits
  cases hacts with
  | drain hact =>
    rw [h.drains] at hact
    exact (drain_acts hfits.2 hact).1
  | _ => exact h.drains

/-- Every step of any thread keeps the invariant. -/
theorem inv_steps {l : Threads.Label (Call V) Bool} {s' : State V} (h : Inv s)
    (hstep : code.Steps s l s') : Inv s' := by
  cases hstep with
  | @start t call hidle =>
    obtain ⟨hmaking, hhand, hcarries⟩ := enter_idle call
    exact
      { handles := by
          rw [making_start]
          rcases hmaking with hnone | hdraw
          · rw [hnone]
            exact h.handles.leave t
          · rw [hdraw]
            exact h.handles.begin t
        receivers := by
          have hstart : carries (s.start code t call) = carries s :=
            Threads.State.reads_start_idle Point.carries none hidle hcarries
          rw [hstart]
          exact h.receivers
        ledger := by
          have hstart : inHand (s.start code t call) = inHand s :=
            Threads.State.reads_start_idle Point.inHand (fun _ => []) hidle hhand
          rw [hstart]
          exact h.ledger
        fits := by
          intro u r hr
          rcases Threads.Code.running_start hr with ⟨-, hold⟩ | ⟨-, rfl⟩
          · exact h.fits u r hold
          · exact fits_enter call
        drains := h.drains }
  | @act t r choice σ' next hr hact =>
    have hacts := acts_of_act hact
    exact
      { handles := by
          rw [making_advance]
          exact handles_acts h hr hacts
        receivers := by
          rw [carries_advance]
          exact receivers_acts h hr hacts
        ledger := by
          rw [inHand_advance]
          refine ledger_acts h h.ledger (fun d => acts_dropped h hr hacts) hr hacts ?_
          intro n removedTx c ch hp hc _
          exact Or.inl (dropped_closeReceiver hp hc hacts)
        fits := by
          intro u r' hr'
          rcases Threads.Code.running_advance hr' with ⟨-, hold⟩ | ⟨q, -, rfl, rfl⟩
          · exact h.fits u r' hold
          · exact fits_acts h.drains (h.fits t r hr) hacts
        drains := acts_drains h hr hacts }

end Airl.Channels.Vm
