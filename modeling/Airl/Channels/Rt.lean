import Airl.Channels.Store

/-! # The channels of `airl-rt`

The code of `thread.rs` from `airl_channel_new` to `airl_channel_close`, one atomic
action at a time: every lock of a table, of the closed set and of a receiver is an
action of its own, and so is every value that is received under a lock. A table that
is locked for one statement is not seen locked by others; `airl_channel_close` keeps
the table of receivers locked while it drains the receiver it removed.
-/

namespace Airl.Channels.Rt

variable {V : Type}

/-- An `Arc<Mutex<Receiver>>`. -/
structure SharedReceiver where
  /-- Its references: one for each thread that cloned it, and `none` for the table. -/
  refs : List (Option Nat)
  /-- The thread inside the mutex. -/
  lock : Option Nat
  /-- History: a close took it out of the table. -/
  removed : Bool
  deriving DecidableEq, Repr

/-- What all threads share. -/
structure Shared (V : Type) extends Store V where
  /-- The receiver of each channel. -/
  arcs : Int → SharedReceiver
  /-- Whether a close holds the table of receivers. -/
  tableLocked : Bool
  closedHandles : Int → Bool

def Shared.initial : Shared V where
  toStore := Store.initial
  arcs := fun _ => ⟨[none], none, false⟩
  tableLocked := false
  closedHandles := fun _ => false

/-- Where a call stands. -/
inductive Point (V : Type)
  /-- The arguments were refused. -/
  | refuse (f : Failure)
  /-- `channel-close` of what is no handle. -/
  | notClosed
  | new (m : Making)
  | sendCheck (h : Int) (v : V)
  | sendLookup (h : Int) (v : V)
  | check (k : Taking) (h : Int)
  | lookup (k : Taking) (h : Int)
  | lockReceiver (k : Taking) (c : Int)
  /-- Inside the mutex, with what a drain has collected. -/
  | take (k : Taking) (c : Int) (items : List V)
  | unlock (c : Int) (r : Reply V)
  | dropReceiver (c : Int) (r : Reply V)
  | closeSender (h : Int)
  | closeReceiver (h : Int) (removedTx : Bool)
  | closeLock (h c : Int)
  | closeDrain (h c : Int)
  | closeUnlock (h c : Int)
  | closeDrop (h c : Int)
  | closeMark (h : Int)
  deriving DecidableEq

def extractInt : Arg → Option Int
  | .int n => some n
  | _ => none

def enterTaking (k : Taking) (rx : Arg) : Point V :=
  match extractInt rx with
  | none => .refuse (.receiverNotInt k)
  | some h => .check k h

/-- The checks that a function makes of its arguments. -/
def enter : Call V → Point V
  | .new => .new .drawTx
  | .send tx v =>
    match extractInt tx with
    | none => .refuse .senderNotInt
    | some h => .sendCheck h v
  | .recv rx => enterTaking .recv rx
  | .recvTimeout rx ms =>
    match extractInt rx, extractInt ms with
    | none, _ => .refuse (.receiverNotInt .recvTimeout)
    | some _, none => .refuse .timeoutNotInt
    | some h, some ms =>
      if ms < 0 then .refuse .timeoutNegative else .check .recvTimeout h
  | .drain rx => enterTaking .drain rx
  | .close handle =>
    match extractInt handle with
    | none => .notClosed
    | some h => .closeSender h

namespace Shared

variable (σ : Shared V)

def setChannel (c : Int) (ch : Channel V) : Shared V :=
  { σ with toStore := σ.toStore.setChannel c ch }

def setArc (c : Int) (a : SharedReceiver) : Shared V :=
  { σ with arcs := Function.update σ.arcs c a }

def acquire (c : Int) (t : Nat) : Shared V := σ.setArc c { σ.arcs c with lock := some t }

def release (c : Int) : Shared V := σ.setArc c { σ.arcs c with lock := none }

/-- One reference is gone, and with the last one the receiver. -/
def dropRef (c : Int) (ch : Channel V) (owner : Option Nat) : Shared V :=
  let refs := (σ.arcs c).refs.erase owner
  let σ' := σ.setArc c { σ.arcs c with refs }
  if refs = [] then σ'.setChannel c ch.dropReceiver else σ'

end Shared

/-- `airl_channel_send` after its lookup of the closed set; the table of senders stays
locked while the value is sent. -/
def sendLookup (σ : Shared V) (h : Int) (v : V) : Shared V × Reply V :=
  match σ.senders h with
  | none => (σ, .error (.invalidSender h))
  | some c =>
    match σ.channels c with
    | none => (σ, .error .disconnected)
    | some ch =>
      if ch.receiverAlive then (σ.setChannel c (ch.push v), .sent)
      else (σ, .error .disconnected)

/-- One receive inside the mutex: `recv`, `recv_timeout` or the `try_recv` of a drain. -/
def take (σ : Shared V) (t : Nat) (k : Taking) (c : Int) (items : List V) (expires : Bool) :
    Option (Shared V × Point V) :=
  match σ.channels c with
  | none => none
  | some ch =>
    match ch.queue, k with
    | v :: _, .drain => some (σ.setChannel c (ch.pop t v), .take .drain c (items ++ [v]))
    | v :: _, _ => some (σ.setChannel c (ch.pop t v), .unlock c (.received v))
    | [], .drain => some (σ, .unlock c (.drained items))
    | [], .recvTimeout =>
      if !ch.senderAlive then some (σ, .unlock c (.error .disconnected))
      else if expires then some (σ, .unlock c (.error .timeout)) else none
    | [], .recv => if !ch.senderAlive then some (σ, .unlock c (.error .disconnected)) else none

/-- The action of thread `t` at a point; `none` where it waits for a lock or a value. -/
def act (σ : Shared V) (t : Nat) (p : Point V) (expires : Bool) :
    Option (Shared V × (Point V ⊕ Reply V)) :=
  match p with
  | .refuse f => some (σ, .inr (.error f))
  | .notClosed => some (σ, .inr (.closed false))
  | .new m =>
    -- only the last insertion needs the table of receivers
    if m.insertsRx && σ.tableLocked then none
    else
      match σ.make m with
      | (store, .inl m) => some ({ σ with toStore := store }, .inl (.new m))
      | (store, .inr (tx, rx)) => some ({ σ with toStore := store }, .inr (.handles tx rx))
  | .sendCheck h v =>
    if σ.closedHandles h then some (σ, .inr (.error .closedSender))
    else some (σ, .inl (.sendLookup h v))
  | .sendLookup h v => some ((sendLookup σ h v).1, .inr (sendLookup σ h v).2)
  | .check k h =>
    if σ.closedHandles h then some (σ, .inr (.error (.closedReceiver k)))
    else some (σ, .inl (.lookup k h))
  | .lookup k h =>
    if σ.tableLocked then none
    else
      match σ.receivers h with
      | none => some (σ, .inr (.error (.invalidReceiver k h)))
      | some c =>
        some (σ.setArc c { σ.arcs c with refs := some t :: (σ.arcs c).refs },
          .inl (.lockReceiver k c))
  | .lockReceiver k c =>
    if (σ.arcs c).lock = none then some (σ.acquire c t, .inl (.take k c [])) else none
  | .take k c items => (take σ t k c items expires).map fun (σ', p) => (σ', .inl p)
  | .unlock c r => some (σ.release c, .inl (.dropReceiver c r))
  | .dropReceiver c r =>
    (σ.channels c).map fun ch => (σ.dropRef c ch (some t), .inr r)
  | .closeSender h =>
    match σ.senders h with
    | none => some (σ, .inl (.closeReceiver h false))
    | some c =>
      (σ.channels c).map fun ch =>
        ({ σ.setChannel c ch.dropSender with senders := Function.update σ.senders h none },
          .inl (.closeReceiver h true))
  | .closeReceiver h removedTx =>
    if σ.tableLocked then none
    else
      match σ.receivers h with
      | none =>
        if removedTx then some (σ, .inl (.closeMark h)) else some (σ, .inr (.closed false))
      | some c =>
        some ({ σ.setArc c { σ.arcs c with removed := true } with
            receivers := Function.update σ.receivers h none
            tableLocked := true },
          .inl (.closeLock h c))
  | .closeLock h c =>
    if (σ.arcs c).lock = none then some (σ.acquire c t, .inl (.closeDrain h c)) else none
  | .closeDrain h c =>
    match σ.channels c with
    | none => none
    | some ch =>
      match ch.queue with
      | [] => some (σ, .inl (.closeUnlock h c))
      | _ :: _ => some (σ.setChannel c ch.discard, .inl (.closeDrain h c))
  | .closeUnlock h c => some (σ.release c, .inl (.closeDrop h c))
  | .closeDrop h c =>
    (σ.channels c).map fun ch =>
      ({ σ.dropRef c ch none with tableLocked := false }, .inl (.closeMark h))
  | .closeMark h =>
    some ({ σ with closedHandles := Function.update σ.closedHandles h true }, .inr (.closed true))

def code : Threads.Code (Shared V) (Point V) (Call V) (Reply V) Bool := ⟨enter, act⟩

abbrev State (V : Type) := Threads.State (Shared V) (Point V) (Call V) (Reply V)

def start : State V := Threads.State.initial Shared.initial

end Airl.Channels.Rt
