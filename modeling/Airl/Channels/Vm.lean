import Airl.Channels.Handles
import Airl.Channels.Rt

/-! # The channels of the bytecode VM

The `dispatch_channel_*` functions of `bytecode_vm.rs`, one atomic action at a time. A
receive takes the receiver out of the table, waits on it while it holds no lock, and
puts it back. `channel-drain` alone goes to `airl-rt`, which has tables of its own.
-/

namespace Airl.Channels.Vm

variable {V : Type}

/-- What all threads share. -/
structure Shared (V : Type) extends Store V where
  /-- The channels of `airl-rt`. -/
  rt : Rt.Shared V

def Shared.initial : Shared V where
  toStore := Store.initial
  rt := Rt.Shared.initial

/-- Where a call stands. -/
inductive Point (V : Type)
  /-- The arguments were refused. -/
  | refuse (f : Failure)
  /-- `channel-close` of what is no handle. -/
  | notClosed
  | new (m : Making)
  | sendLookup (h : Int) (v : V)
  | takeOut (k : Taking) (h : Int)
  /-- With the receiver of channel `c`, which is not in the table. -/
  | receive (k : Taking) (h c : Int)
  | putBack (h c : Int) (r : Reply V)
  | closeSender (h : Int)
  | closeReceiver (h : Int) (removedTx : Bool)
  /-- Inside `airl_channel_drain`. -/
  | drain (p : Rt.Point V)
  deriving DecidableEq

def enterTaking (k : Taking) : Arg → Point V
  | .missing => .refuse (.takeArguments k)
  | .other => .refuse (.receiverNotInt k)
  | .int h => .takeOut k h

/-- The checks that a function makes of its arguments. -/
def enter : Call V → Point V
  | .new => .new .drawTx
  | .send .missing _ => .refuse .sendArguments
  | .send .other _ => .refuse .senderNotInt
  | .send (.int h) v => .sendLookup h v
  | .recv rx => enterTaking .recv rx
  | .recvTimeout .missing _ => .refuse (.takeArguments .recvTimeout)
  | .recvTimeout .other _ => .refuse (.receiverNotInt .recvTimeout)
  | .recvTimeout (.int _) .missing => .refuse (.takeArguments .recvTimeout)
  | .recvTimeout (.int _) .other => .refuse .timeoutNotInt
  | .recvTimeout (.int h) (.int ms) =>
    if ms < 0 then .refuse .timeoutNegative else .takeOut .recvTimeout h
  | .drain rx => .drain (Rt.enter (.drain rx))
  | .close (.int h) => .closeSender h
  | .close _ => .notClosed

def Shared.setChannel (σ : Shared V) (c : Int) (ch : Channel V) : Shared V :=
  { σ with toStore := σ.toStore.setChannel c ch }

/-- The table of senders stays locked while the value is sent. -/
def sendLookup (σ : Shared V) (h : Int) (v : V) : Shared V × Reply V :=
  match σ.senders h with
  | none => (σ, .error (.invalidSender h))
  | some c =>
    match σ.channels c with
    | none => (σ, .error .disconnected)
    | some ch =>
      if ch.receiverAlive then (σ.setChannel c (ch.push v), .sent)
      else (σ, .error .disconnected)

/-- `recv` or `recv_timeout` on the receiver that the thread took. -/
def receive (σ : Shared V) (t : Nat) (k : Taking) (c : Int) (expires : Bool) :
    Option (Shared V × Reply V) :=
  match σ.channels c with
  | none => none
  | some ch =>
    match ch.queue with
    | v :: _ => some (σ.setChannel c (ch.pop t v), .received v)
    | [] =>
      if !ch.senderAlive then some (σ, .error .disconnected)
      else if k = .recvTimeout ∧ expires then some (σ, .error .timeout) else none

/-- The action of thread `t` at a point; `none` where it waits for a value. -/
def act (σ : Shared V) (t : Nat) (p : Point V) (expires : Bool) :
    Option (Shared V × (Point V ⊕ Reply V)) :=
  match p with
  | .refuse f => some (σ, .inr (.error f))
  | .notClosed => some (σ, .inr (.closed false))
  | .new m =>
    match σ.make m with
    | (store, .inl m) => some ({ σ with toStore := store }, .inl (.new m))
    | (store, .inr (tx, rx)) => some ({ σ with toStore := store }, .inr (.handles tx rx))
  | .sendLookup h v => some ((sendLookup σ h v).1, .inr (sendLookup σ h v).2)
  | .takeOut k h =>
    match σ.receivers h with
    | none => some (σ, .inr (.error (.invalidReceiver k h)))
    | some c =>
      some ({ σ with receivers := Function.update σ.receivers h none }, .inl (.receive k h c))
  | .receive k h c => (receive σ t k c expires).map fun (σ', r) => (σ', .inl (.putBack h c r))
  | .putBack h c r =>
    some ({ σ with receivers := Function.update σ.receivers h (some c) }, .inr r)
  | .closeSender h =>
    match σ.senders h with
    | none => some (σ, .inl (.closeReceiver h false))
    | some c =>
      (σ.channels c).map fun ch =>
        ({ σ.setChannel c ch.dropSender with senders := Function.update σ.senders h none },
          .inl (.closeReceiver h true))
  | .closeReceiver h removedTx =>
    match σ.receivers h with
    | none => some (σ, .inr (.closed removedTx))
    | some c =>
      (σ.channels c).map fun ch =>
        ({ σ.setChannel c ch.dropReceiver with receivers := Function.update σ.receivers h none },
          .inr (.closed true))
  | .drain p =>
    (Rt.act σ.rt t p expires).map fun (rt, next) => ({ σ with rt }, next.map .drain id)

def code : Threads.Code (Shared V) (Point V) (Call V) (Reply V) Bool := ⟨enter, act⟩

abbrev State (V : Type) := Threads.State (Shared V) (Point V) (Call V) (Reply V)

def start : State V := Threads.State.initial Shared.initial

/-- The moves that change nothing. -/
inductive Quiet (σ : Shared V) : Point V → Point V ⊕ Reply V → Prop
  | refuse (f : Failure) : Quiet σ (.refuse f) (.inr (.error f))
  | notClosed : Quiet σ .notClosed (.inr (.closed false))
  | sendInvalid {h : Int} {v : V} (hnone : σ.senders h = none) :
      Quiet σ (.sendLookup h v) (.inr (.error (.invalidSender h)))
  | sendDisconnected (h : Int) (v : V) : Quiet σ (.sendLookup h v) (.inr (.error .disconnected))
  | takeInvalid {k : Taking} {h : Int} (hnone : σ.receivers h = none) :
      Quiet σ (.takeOut k h) (.inr (.error (.invalidReceiver k h)))
  | failed (k : Taking) (h c : Int) {f : Failure} (hf : f = .disconnected ∨ f = .timeout) :
      Quiet σ (.receive k h c) (.inl (.putBack h c (.error f)))
  | noSender {h : Int} (hnone : σ.senders h = none) :
      Quiet σ (.closeSender h) (.inl (.closeReceiver h false))
  | noReceiver {h : Int} (removedTx : Bool) (hnone : σ.receivers h = none) :
      Quiet σ (.closeReceiver h removedTx) (.inr (.closed removedTx))

/-- An action of thread `t`. -/
inductive Acts (σ : Shared V) (t : Nat) : Point V → Shared V → Point V ⊕ Reply V → Prop
  | quiet {p : Point V} {next : Point V ⊕ Reply V} (h : Quiet σ p next) : Acts σ t p σ next
  | make {m m' : Making} {store : Store V} (h : σ.make m = (store, .inl m')) :
      Acts σ t (.new m) { σ with toStore := store } (.inl (.new m'))
  | made {m : Making} {tx rx : Int} {store : Store V} (h : σ.make m = (store, .inr (tx, rx))) :
      Acts σ t (.new m) { σ with toStore := store } (.inr (.handles tx rx))
  | push {h c : Int} {v : V} {ch : Channel V} (hc : σ.senders h = some c)
      (hch : σ.channels c = some ch) :
      Acts σ t (.sendLookup h v) (σ.setChannel c (ch.push v)) (.inr .sent)
  | takeOut (k : Taking) {h c : Int} (hc : σ.receivers h = some c) :
      Acts σ t (.takeOut k h) { σ with receivers := Function.update σ.receivers h none }
        (.inl (.receive k h c))
  | pop (k : Taking) (h : Int) {c : Int} {q : List V} {v : V} {ch : Channel V}
      (hch : σ.channels c = some ch) (hqueue : ch.queue = v :: q) :
      Acts σ t (.receive k h c) (σ.setChannel c (ch.pop t v)) (.inl (.putBack h c (.received v)))
  | putBack (h c : Int) (r : Reply V) :
      Acts σ t (.putBack h c r) { σ with receivers := Function.update σ.receivers h (some c) }
        (.inr r)
  | closeSender {h c : Int} {ch : Channel V} (hc : σ.senders h = some c)
      (hch : σ.channels c = some ch) :
      Acts σ t (.closeSender h)
        { σ.setChannel c ch.dropSender with senders := Function.update σ.senders h none }
        (.inl (.closeReceiver h true))
  | closeReceiver {h c : Int} (removedTx : Bool) {ch : Channel V} (hc : σ.receivers h = some c)
      (hch : σ.channels c = some ch) :
      Acts σ t (.closeReceiver h removedTx)
        { σ.setChannel c ch.dropReceiver with receivers := Function.update σ.receivers h none }
        (.inr (.closed true))
  | drain {p : Rt.Point V} {expires : Bool} {rt : Rt.Shared V} {next : Rt.Point V ⊕ Reply V}
      (h : Rt.act σ.rt t p expires = some (rt, next)) :
      Acts σ t (.drain p) { σ with rt } (next.map .drain id)

theorem acts_sendLookup (σ : Shared V) (t : Nat) (h : Int) (v : V) :
    Acts σ t (.sendLookup h v) (sendLookup σ h v).1 (.inr (sendLookup σ h v).2) := by
  rw [sendLookup]
  cases hc : σ.senders h with
  | none => exact .quiet (.sendInvalid hc)
  | some c =>
    cases hch : σ.channels c with
    | none =>
      simp only [hch]
      exact .quiet (.sendDisconnected h v)
    | some ch =>
      simp only [hch]
      by_cases halive : ch.receiverAlive = true
      · simp only [if_pos halive]
        exact .push hc hch
      · simp only [if_neg halive]
        exact .quiet (.sendDisconnected h v)

theorem acts_receive {σ σ' : Shared V} {t : Nat} {k : Taking} {h c : Int} {x : Bool} {r : Reply V}
    (hreceive : receive σ t k c x = some (σ', r)) :
    Acts σ t (.receive k h c) σ' (.inl (.putBack h c r)) := by
  rw [receive] at hreceive
  cases hch : σ.channels c with
  | none => simp [hch] at hreceive
  | some ch =>
    cases hqueue : ch.queue with
    | nil =>
      simp only [hch, hqueue] at hreceive
      split at hreceive
      · cases hreceive
        exact .quiet (.failed k h c (.inl rfl))
      · split at hreceive
        · cases hreceive
          exact .quiet (.failed k h c (.inr rfl))
        · cases hreceive
    | cons v q =>
      simp only [hch, hqueue, Option.some.injEq, Prod.mk.injEq] at hreceive
      obtain ⟨rfl, rfl⟩ := hreceive
      exact .pop k h hch hqueue

theorem acts_of_act {σ σ' : Shared V} {t : Nat} {p : Point V} {x : Bool}
    {next : Point V ⊕ Reply V} (h : act σ t p x = some (σ', next)) : Acts σ t p σ' next := by
  cases p with
  | refuse f =>
    cases h
    exact .quiet (.refuse f)
  | notClosed =>
    cases h
    exact .quiet .notClosed
  | new m =>
    rw [act] at h
    split at h
    · next hmake =>
      cases h
      exact .make hmake
    · next hmake =>
      cases h
      exact .made hmake
  | sendLookup n v =>
    cases h
    exact acts_sendLookup σ t n v
  | takeOut k n =>
    rw [act] at h
    split at h
    · next hnone =>
      cases h
      exact .quiet (.takeInvalid hnone)
    · next hc =>
      cases h
      exact .takeOut k hc
  | receive k n c =>
    obtain ⟨⟨σ'', r⟩, hreceive, heq⟩ := Option.map_eq_some_iff.mp h
    cases heq
    exact acts_receive hreceive
  | putBack n c r =>
    cases h
    exact .putBack n c r
  | closeSender n =>
    rw [act] at h
    split at h
    · next hnone =>
      cases h
      exact .quiet (.noSender hnone)
    · next hc =>
      obtain ⟨ch, hch, heq⟩ := Option.map_eq_some_iff.mp h
      cases heq
      exact .closeSender hc hch
  | closeReceiver n removedTx =>
    rw [act] at h
    split at h
    · next hnone =>
      cases h
      exact .quiet (.noReceiver removedTx hnone)
    · next hc =>
      obtain ⟨ch, hch, heq⟩ := Option.map_eq_some_iff.mp h
      cases heq
      exact .closeReceiver removedTx hc hch
  | drain p =>
    obtain ⟨⟨rt, next⟩, hact, heq⟩ := Option.map_eq_some_iff.mp h
    cases heq
    exact .drain hact

end Airl.Channels.Vm
