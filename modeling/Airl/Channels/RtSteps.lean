import Airl.Channels.Handles
import Airl.Channels.Rt

/-! # What an action can do

Every action of `airl-rt`'s channels either leaves what is shared as it is, or makes
one change to it. `acts_of_act` says which; the invariants follow from the cases.
-/

namespace Airl.Channels.Rt

variable {V : Type}

/-- The moves that change nothing. -/
inductive Quiet (σ : Shared V) : Point V → Point V ⊕ Reply V → Prop
  | refuse (f : Failure) : Quiet σ (.refuse f) (.inr (.error f))
  | notClosed : Quiet σ .notClosed (.inr (.closed false))
  | sendClosed {h : Int} {v : V} (hclosed : σ.closedHandles h = true) :
      Quiet σ (.sendCheck h v) (.inr (.error .closedSender))
  | sendOpen {h : Int} {v : V} (hopen : σ.closedHandles h = false) :
      Quiet σ (.sendCheck h v) (.inl (.sendLookup h v))
  | sendInvalid {h : Int} {v : V} (hnone : σ.senders h = none) :
      Quiet σ (.sendLookup h v) (.inr (.error (.invalidSender h)))
  | sendDisconnected (h : Int) (v : V) : Quiet σ (.sendLookup h v) (.inr (.error .disconnected))
  | takeClosed {k : Taking} {h : Int} (hclosed : σ.closedHandles h = true) :
      Quiet σ (.check k h) (.inr (.error (.closedReceiver k)))
  | takeOpen {k : Taking} {h : Int} (hopen : σ.closedHandles h = false) :
      Quiet σ (.check k h) (.inl (.lookup k h))
  | takeInvalid {k : Taking} {h : Int} (hnone : σ.receivers h = none) :
      Quiet σ (.lookup k h) (.inr (.error (.invalidReceiver k h)))
  | drained (c : Int) (items : List V) :
      Quiet σ (.take .drain c items) (.inl (.unlock c (.drained items)))
  | failed {k : Taking} (hk : k ≠ .drain) (c : Int) (items : List V) {f : Failure}
      (hf : f = .disconnected ∨ f = .timeout) :
      Quiet σ (.take k c items) (.inl (.unlock c (.error f)))
  | noSender {h : Int} (hnone : σ.senders h = none) :
      Quiet σ (.closeSender h) (.inl (.closeReceiver h false))
  | noReceiver {h : Int} (hnone : σ.receivers h = none) :
      Quiet σ (.closeReceiver h true) (.inl (.closeMark h))
  | nothing {h : Int} (hnone : σ.receivers h = none) :
      Quiet σ (.closeReceiver h false) (.inr (.closed false))
  | emptied (h c : Int) : Quiet σ (.closeDrain h c) (.inl (.closeUnlock h c))

/-- The moves into a receiver's mutex. -/
inductive Locks : Point V → Int → Point V → Prop
  | take (k : Taking) (c : Int) : Locks (.lockReceiver k c) c (.take k c [])
  | close (h c : Int) : Locks (.closeLock h c) c (.closeDrain h c)

/-- The moves out of it. -/
inductive Unlocks : Point V → Int → Point V → Prop
  | take (c : Int) (r : Reply V) : Unlocks (.unlock c r) c (.dropReceiver c r)
  | close (h c : Int) : Unlocks (.closeUnlock h c) c (.closeDrop h c)

/-- Where a received value goes. -/
inductive Gets : Taking → Int → List V → V → Point V → Prop
  | drain (c : Int) (items : List V) (v : V) : Gets .drain c items v (.take .drain c (items ++ [v]))
  | value {k : Taking} (hk : k ≠ .drain) (c : Int) (items : List V) (v : V) :
      Gets k c items v (.unlock c (.received v))

/-- An action of thread `t`. -/
inductive Acts (σ : Shared V) (t : Nat) : Point V → Shared V → Point V ⊕ Reply V → Prop
  | quiet {p : Point V} {next : Point V ⊕ Reply V} (h : Quiet σ p next) : Acts σ t p σ next
  | mark (h : Int) :
      Acts σ t (.closeMark h)
        { σ with closedHandles := Function.update σ.closedHandles h true } (.inr (.closed true))
  | make {m m' : Making} {store : Store V} (h : σ.make m = (store, .inl m')) :
      Acts σ t (.new m) { σ with toStore := store } (.inl (.new m'))
  | made {m : Making} {tx rx : Int} {store : Store V} (h : σ.make m = (store, .inr (tx, rx))) :
      Acts σ t (.new m) { σ with toStore := store } (.inr (.handles tx rx))
  | clone (k : Taking) {h c : Int} (hc : σ.receivers h = some c) :
      Acts σ t (.lookup k h)
        (σ.setArc c { σ.arcs c with refs := some t :: (σ.arcs c).refs })
        (.inl (.lockReceiver k c))
  | acquire {p q : Point V} {c : Int} (h : Locks p c q) (hfree : (σ.arcs c).lock = none) :
      Acts σ t p (σ.acquire c t) (.inl q)
  | release {p q : Point V} {c : Int} (h : Unlocks p c q) : Acts σ t p (σ.release c) (.inl q)
  | push {h c : Int} {v : V} {ch : Channel V} (hc : σ.senders h = some c)
      (hch : σ.channels c = some ch) :
      Acts σ t (.sendLookup h v) (σ.setChannel c (ch.push v)) (.inr .sent)
  | pop {k : Taking} {c : Int} {items q : List V} {v : V} {ch : Channel V} {p : Point V}
      (hch : σ.channels c = some ch) (hqueue : ch.queue = v :: q) (h : Gets k c items v p) :
      Acts σ t (.take k c items) (σ.setChannel c (ch.pop t v)) (.inl p)
  | dropRef {c : Int} {r : Reply V} {ch : Channel V} (hch : σ.channels c = some ch) :
      Acts σ t (.dropReceiver c r) (σ.dropRef c ch (some t)) (.inr r)
  | closeSender {h c : Int} {ch : Channel V} (hc : σ.senders h = some c)
      (hch : σ.channels c = some ch) :
      Acts σ t (.closeSender h)
        { σ.setChannel c ch.dropSender with senders := Function.update σ.senders h none }
        (.inl (.closeReceiver h true))
  | closeReceiver {h c : Int} {removedTx : Bool} (hc : σ.receivers h = some c) :
      Acts σ t (.closeReceiver h removedTx)
        { σ.setArc c { σ.arcs c with removed := true } with
          receivers := Function.update σ.receivers h none
          tableLocked := true }
        (.inl (.closeLock h c))
  | discard {h c : Int} {ch : Channel V} (hch : σ.channels c = some ch) :
      Acts σ t (.closeDrain h c) (σ.setChannel c ch.discard) (.inl (.closeDrain h c))
  | closeDrop {h c : Int} {ch : Channel V} (hch : σ.channels c = some ch) :
      Acts σ t (.closeDrop h c) { σ.dropRef c ch none with tableLocked := false }
        (.inl (.closeMark h))

theorem acts_take {σ σ' : Shared V} {t : Nat} {k : Taking} {c : Int} {items : List V} {x : Bool}
    {p : Point V} (h : take σ t k c items x = some (σ', p)) :
    Acts σ t (.take k c items) σ' (.inl p) := by
  rw [take] at h
  cases hch : σ.channels c with
  | none => simp [hch] at h
  | some ch =>
    cases hqueue : ch.queue with
    | nil =>
      cases k with
      | drain =>
        simp only [hch, hqueue, Option.some.injEq, Prod.mk.injEq] at h
        obtain ⟨rfl, rfl⟩ := h
        exact .quiet (.drained c items)
      | recv =>
        simp only [hch, hqueue] at h
        split at h
        · cases h
          exact .quiet (.failed (by decide) c items (.inl rfl))
        · cases h
      | recvTimeout =>
        simp only [hch, hqueue] at h
        split at h
        · cases h
          exact .quiet (.failed (by decide) c items (.inl rfl))
        · split at h
          · cases h
            exact .quiet (.failed (by decide) c items (.inr rfl))
          · cases h
    | cons v q =>
      cases k with
      | drain =>
        simp only [hch, hqueue, Option.some.injEq, Prod.mk.injEq] at h
        obtain ⟨rfl, rfl⟩ := h
        exact .pop hch hqueue (.drain c items v)
      | recv =>
        simp only [hch, hqueue, Option.some.injEq, Prod.mk.injEq] at h
        obtain ⟨rfl, rfl⟩ := h
        exact .pop hch hqueue (.value (by decide) c items v)
      | recvTimeout =>
        simp only [hch, hqueue, Option.some.injEq, Prod.mk.injEq] at h
        obtain ⟨rfl, rfl⟩ := h
        exact .pop hch hqueue (.value (by decide) c items v)

theorem acts_sendLookup (σ : Shared V) (t : Nat) (h : Int) (v : V) :
    Acts σ t (.sendLookup h v) (sendLookup σ h v).1 (.inr (sendLookup σ h v).2) := by
  rw [sendLookup]
  cases hc : σ.senders h with
  | none => exact .quiet (.sendInvalid hc)
  | some c =>
    cases hch : σ.channels c with
    | none =>
      simp only [hch]
      exact .quiet (.sendDisconnected h v)
    | some ch =>
      simp only [hch]
      by_cases halive : ch.receiverAlive = true
      · simp only [if_pos halive]
        exact .push hc hch
      · simp only [if_neg halive]
        exact .quiet (.sendDisconnected h v)

theorem acts_of_act {σ σ' : Shared V} {t : Nat} {p : Point V} {x : Bool}
    {next : Point V ⊕ Reply V} (h : act σ t p x = some (σ', next)) : Acts σ t p σ' next := by
  cases p with
  | refuse f =>
    cases h
    exact .quiet (.refuse f)
  | notClosed =>
    cases h
    exact .quiet .notClosed
  | new m =>
    rw [act] at h
    split at h
    · cases h
    · split at h
      · next hmake =>
        cases h
        exact .make hmake
      · next hmake =>
        cases h
        exact .made hmake
  | sendCheck n v =>
    rw [act] at h
    split at h
    · next hclosed =>
      cases h
      exact .quiet (.sendClosed hclosed)
    · next hopen =>
      cases h
      exact .quiet (.sendOpen (Bool.eq_false_iff.mpr hopen))
  | sendLookup n v =>
    cases h
    exact acts_sendLookup σ t n v
  | check k n =>
    rw [act] at h
    split at h
    · next hclosed =>
      cases h
      exact .quiet (.takeClosed hclosed)
    · next hopen =>
      cases h
      exact .quiet (.takeOpen (Bool.eq_false_iff.mpr hopen))
  | lookup k n =>
    rw [act] at h
    split at h
    · cases h
    · split at h
      · next hnone =>
        cases h
        exact .quiet (.takeInvalid hnone)
      · next hc =>
        cases h
        exact .clone k hc
  | lockReceiver k c =>
    rw [act] at h
    split at h
    · next hfree =>
      cases h
      exact .acquire (.take k c) hfree
    · cases h
  | take k c items =>
    rw [act] at h
    obtain ⟨⟨σ'', p⟩, htake, heq⟩ := Option.map_eq_some_iff.mp h
    cases heq
    exact acts_take htake
  | unlock c r =>
    cases h
    exact .release (.take c r)
  | dropReceiver c r =>
    obtain ⟨ch, hch, heq⟩ := Option.map_eq_some_iff.mp h
    cases heq
    exact .dropRef hch
  | closeSender n =>
    rw [act] at h
    split at h
    · next hnone =>
      cases h
      exact .quiet (.noSender hnone)
    · next hc =>
      obtain ⟨ch, hch, heq⟩ := Option.map_eq_some_iff.mp h
      cases heq
      exact .closeSender hc hch
  | closeReceiver n removedTx =>
    rw [act] at h
    split at h
    · cases h
    · split at h
      · next hnone =>
        split at h
        · next hremoved =>
          cases h
          subst hremoved
          exact .quiet (.noReceiver hnone)
        · next hremoved =>
          cases h
          rw [Bool.not_eq_true] at hremoved
          subst hremoved
          exact .quiet (.nothing hnone)
      · next hc =>
        cases h
        exact .closeReceiver hc
  | closeLock n c =>
    rw [act] at h
    split at h
    · next hfree =>
      cases h
      exact .acquire (.close n c) hfree
    · cases h
  | closeDrain n c =>
    rw [act] at h
    split at h
    · cases h
    · next hch =>
      split at h
      · cases h
        exact .quiet (.emptied n c)
      · cases h
        exact .discard hch
  | closeUnlock n c =>
    cases h
    exact .release (.close n c)
  | closeDrop n c =>
    obtain ⟨ch, hch, heq⟩ := Option.map_eq_some_iff.mp h
    cases heq
    exact .closeDrop hch
  | closeMark n =>
    cases h
    exact .mark n

end Airl.Channels.Rt
