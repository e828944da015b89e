import Airl.Library.Threads
import Mathlib.Data.List.Sublists

/-! # Channels, their handles and calls on them

The builtins from `channel-new` to `channel-close` as a program calls them, their
answers, and what the log of returned calls says of a handle: the values whose send
was accepted, and the values that a thread was handed.

Both implementations keep an `mpsc` channel's two ends in tables that all threads
share, under handles that a counter draws. `channel-new` is the same code in both: it
draws two handles, then puts the sender and the receiver into their tables.
-/

namespace Airl.Channels

variable {V : Type}

/-- An argument as the builtins read it. -/
inductive Arg
  | missing
  | other
  | int (n : Int)
  deriving DecidableEq, Repr

/-- The operations that take values out of a channel. -/
inductive Taking
  | recv
  | recvTimeout
  | drain
  deriving DecidableEq, Repr

def Taking.name : Taking → String
  | .recv => "channel-recv"
  | .recvTimeout => "channel-recv-timeout"
  | .drain => "channel-drain"

inductive Call (V : Type)
  | new
  | send (tx : Arg) (value : V)
  | recv (rx : Arg)
  | recvTimeout (rx ms : Arg)
  | drain (rx : Arg)
  | close (handle : Arg)
  deriving DecidableEq, Repr

/-- The handle that a call with well-formed arguments is about. -/
def Call.handle : Call V → Option Int
  | .send (.int n) _ | .recv (.int n) | .drain (.int n) | .close (.int n) => some n
  | .recvTimeout (.int n) (.int ms) => if ms < 0 then none else some n
  | _ => none

/-- Which taking operation a call is. -/
def Call.taking : Call V → Option Taking
  | .recv _ => some .recv
  | .recvTimeout _ _ => some .recvTimeout
  | .drain _ => some .drain
  | _ => none

/-- The errors that an operation answers as `(Err text)`. -/
inductive Failure
  | sendArguments
  | takeArguments (k : Taking)
  | senderNotInt
  | receiverNotInt (k : Taking)
  | timeoutNotInt
  | timeoutNegative
  | closedSender
  | closedReceiver (k : Taking)
  | invalidSender (handle : Int)
  | invalidReceiver (k : Taking) (handle : Int)
  | disconnected
  | timeout
  deriving DecidableEq, Repr

def Failure.text : Failure → String
  | .sendArguments => "channel-send: requires 2 arguments"
  | .takeArguments .recvTimeout => "channel-recv-timeout: requires 2 arguments"
  | .takeArguments k => k.name ++ ": requires 1 argument"
  | .senderNotInt => "channel-send: handle must be Int"
  | .receiverNotInt k => k.name ++ ": handle must be Int"
  | .timeoutNotInt => "channel-recv-timeout: timeout must be Int"
  | .timeoutNegative => "channel-recv-timeout: timeout must be non-negative"
  | .closedSender => "channel-send: channel closed"
  | .closedReceiver k => k.name ++ ": channel closed"
  | .invalidSender handle => "channel-send: invalid sender handle " ++ toString handle
  | .invalidReceiver k handle => k.name ++ ": invalid receiver handle " ++ toString handle
  | .disconnected => "channel closed"
  | .timeout => "timeout"

inductive Reply (V : Type)
  /-- The list of the two handles. -/
  | handles (tx rx : Int)
  /-- `(Ok true)` -/
  | sent
  /-- `(Ok value)` -/
  | received (value : V)
  | drained (values : List V)
  | closed (removed : Bool)
  | error (failure : Failure)
  deriving DecidableEq, Repr

/-- The values that an answer hands to its caller. -/
def Reply.values : Reply V → List V
  | .received v => [v]
  | .drained vs => vs
  | _ => []

abbrev Entry (V : Type) := Threads.Returned (Call V) (Reply V)

/-- The value of a send on `tx` that was accepted. -/
def accepted (tx : Int) (e : Entry V) : Option V :=
  match e.call, e.reply with
  | .send (.int n) v, .sent => if n = tx then some v else none
  | _, _ => none

/-- The values whose send on `tx` answered `(Ok true)`, in the order of the answers. -/
def sentOn (tx : Int) (log : List (Entry V)) : List V := log.filterMap (accepted tx)

/-- What `e` handed to thread `t` from the channel of `rx`. -/
def handed (t : Nat) (rx : Int) (e : Entry V) : List V :=
  if e.thread = t ∧ e.call.handle = some rx then e.reply.values else []

/-- The values that thread `t` was handed on `rx`, in the order in which it was. -/
def deliveredTo (t : Nat) (rx : Int) (log : List (Entry V)) : List V := log.flatMap (handed t rx)

variable {tx rx : Int} {t : Nat} {log log' : List (Entry V)}

theorem sentOn_append : sentOn tx (log ++ log') = sentOn tx log ++ sentOn tx log' :=
  List.filterMap_append

theorem deliveredTo_append :
    deliveredTo t rx (log ++ log') = deliveredTo t rx log ++ deliveredTo t rx log' :=
  List.flatMap_append

/-- A channel of `std::sync::mpsc`, which goes by the handle of its sender. -/
structure Channel (V : Type) where
  /-- The handle that its receiver was given. -/
  rx : Int
  queue : List V
  senderAlive : Bool
  receiverAlive : Bool
  /-- History: the values received so far and by which thread. -/
  taken : List (Nat × V)

namespace Channel

def fresh (rx : Int) : Channel V :=
  { rx, queue := [], senderAlive := true, receiverAlive := true, taken := [] }

variable (ch : Channel V)

def push (v : V) : Channel V := { ch with queue := ch.queue ++ [v] }

/-- `Receiver::recv` by thread `t` of the first value of the queue. -/
def pop (t : Nat) (v : V) : Channel V :=
  { ch with queue := ch.queue.tail, taken := ch.taken ++ [(t, v)] }

/-- The first value is received only to be released. -/
def discard : Channel V := { ch with queue := ch.queue.tail }

def dropSender : Channel V := { ch with senderAlive := false }

/-- The queue goes with the receiver. -/
def dropReceiver : Channel V := { ch with receiverAlive := false, queue := [] }

/-- Everything that entered the queue and was not discarded. -/
def ledger : List V := ch.taken.map Prod.snd ++ ch.queue

/-- The values that thread `t` received. -/
def takenBy (t : Nat) : List V := (ch.taken.filter fun p => p.1 = t).map Prod.snd

variable {ch} {v : V} {q : List V} {t u : Nat}

theorem ledger_push : (ch.push v).ledger = ch.ledger ++ [v] := by
  simp [ledger, push]

theorem ledger_pop (h : ch.queue = v :: q) : (ch.pop t v).ledger = ch.ledger := by
  simp [ledger, pop, h]

theorem ledger_discard : ch.discard.ledger.Sublist ch.ledger := by
  rw [ledger, ledger, discard]
  exact List.Sublist.append_left (List.tail_sublist _) _

theorem ledger_dropReceiver : ch.dropReceiver.ledger.Sublist ch.ledger := by
  rw [ledger, ledger, dropReceiver]
  exact List.Sublist.append_left (List.nil_sublist _) _

theorem takenBy_pop : (ch.pop t v).takenBy u = ch.takenBy u ++ if t = u then [v] else [] := by
  rw [takenBy, takenBy, pop, List.filter_append, List.map_append]
  by_cases h : t = u
  · simp [h]
  · simp [h]

end Channel

/-- The tables of both implementations. -/
structure Store (V : Type) where
  nextHandle : Int
  channels : Int → Option (Channel V)
  senders : Int → Option Int
  receivers : Int → Option Int

/-- Where `channel-new` stands. -/
inductive Making
  | drawTx
  | drawRx (tx : Int)
  | insertTx (tx rx : Int)
  | insertRx (tx rx : Int)
  deriving DecidableEq, Repr

def Making.insertsRx : Making → Bool
  | .insertRx _ _ => true
  | _ => false

/-- The handles that a `channel-new` drew and has not returned. -/
def Making.drawn : Making → List Int
  | .drawTx => []
  | .drawRx tx => [tx]
  | .insertTx tx rx | .insertRx tx rx => [tx, rx]

namespace Store

def initial : Store V where
  nextHandle := 1
  channels := fun _ => none
  senders := fun _ => none
  receivers := fun _ => none

variable (σ : Store V)

def setChannel (c : Int) (ch : Channel V) : Store V :=
  { σ with channels := Function.update σ.channels c (some ch) }

/-- An action of `channel-new`, and the two handles when it returns. -/
def make : Making → Store V × (Making ⊕ Int × Int)
  | .drawTx => ({ σ with nextHandle := σ.nextHandle + 1 }, .inl (.drawRx σ.nextHandle))
  | .drawRx tx =>
    ({ σ with nextHandle := σ.nextHandle + 1 }, .inl (.insertTx tx σ.nextHandle))
  | .insertTx tx rx =>
    ({ σ.setChannel tx (Channel.fresh rx) with senders := Function.update σ.senders tx (some tx) },
      .inl (.insertRx tx rx))
  | .insertRx tx rx =>
    ({ σ with receivers := Function.update σ.receivers rx (some tx) }, .inr (tx, rx))

end Store

end Airl.Channels
