import Airl.Channels.VmLedger

/-! # Receivers and progress in the VM

A receive takes its receiver out of the table and waits without a lock. Each receiver that
no close has dropped is in one place, the table or one thread, and what a call waits for
is a value, never another call.
-/

namespace Airl.Channels.Vm

open Threads (Running Label)

variable {V : Type} {s : State V} {t : Nat} {r : Running (Point V) (Call V)}

/-- Thread `t` is in a `channel-recv` with the receiver of a channel that is open and empty. -/
def AwaitsValue (s : State V) (t : Nat) : Prop :=
  ∃ r h c ch, s.running t = some r ∧ r.point = .receive .recv h c ∧
    s.shared.channels c = some ch ∧ ch.queue = [] ∧ ch.senderAlive = true

theorem receive_isSome {k : Taking} {c : Int} {ch : Channel V}
    (hch : s.shared.channels c = some ch) (hk : k ≠ .drain) :
    (receive s.shared t k c true).isSome ∨ (k = .recv ∧ ch.queue = [] ∧ ch.senderAlive = true) := by
  cases hqueue : ch.queue with
  | cons v q => simp [receive, hch, hqueue]
  | nil =>
    cases halive : ch.senderAlive with
    | false => simp [receive, hch, hqueue, halive]
    | true =>
      cases k with
      | recv => exact Or.inr ⟨rfl, rfl, rfl⟩
      | recvTimeout => simp [receive, hch, hqueue, halive]
      | drain => exact absurd rfl hk

theorem acts_or_awaits (h : Inv s) (hr : s.running t = some r) :
    code.CanAct s t ∨ AwaitsValue s t := by
  have hfits := h.fits t r hr
  have hcarries := carries_running hr
  have hacts : ∀ {x}, (act s.shared t r.point x).isSome → code.CanAct s t ∨ AwaitsValue s t :=
    fun h => Or.inl (Threads.Code.canAct_of_isSome hr h)
  cases hp : r.point with
  | receive k n c =>
    rw [hp] at hfits hcarries
    obtain ⟨⟨ch, hch, -⟩, -⟩ := h.receivers.carried t n c hcarries
    rcases @receive_isSome V s t k c ch hch hfits.2.2 with hsome | ⟨rfl, hqueue, halive⟩
    · apply @hacts true
      rw [hp, act, Option.isSome_map]
      exact hsome
    · exact Or.inr ⟨r, n, c, ch, hr, hp, hch, hqueue, halive⟩
  | new m =>
    apply @hacts true
    rw [hp, act]
    cases m with
    | _ => rfl
  | takeOut k n =>
    apply @hacts true
    rw [hp, act]
    split <;> rfl
  | closeSender n =>
    apply @hacts true
    rw [hp, act]
    cases hc : s.shared.senders n with
    | none => rfl
    | some c =>
      obtain ⟨rfl, ch, hch⟩ := h.handles.senders n c hc
      simp [hch]
  | closeReceiver n removedTx =>
    apply @hacts true
    rw [hp, act]
    cases hc : s.shared.receivers n with
    | none => rfl
    | some c =>
      obtain ⟨ch, hch, -⟩ := h.receivers.table n c hc
      simp [hch]
  | drain q =>
    -- nothing is in the tables of `airl-rt`, so a drain has no lock to wait for
    rw [hp] at hfits
    apply @hacts true
    rw [hp, act, Option.isSome_map, h.drains]
    rcases hfits.2 with ⟨-, f, rfl⟩ | ⟨n, -, rfl | rfl⟩
    · rfl
    · rfl
    · rfl
  | _ =>
    apply @hacts true
    rw [hp]
    rfl

theorem receivers_run {ls : List (Label (Call V) Bool)} (hrun : code.run start ls = some s) :
    (∀ c n, s.shared.Alive c n →
      (s.shared.receivers n = some c ∧ ∀ u, carries s u ≠ some (n, c)) ∨
        (s.shared.receivers n = none ∧ ∃! u, carries s u = some (n, c))) ∧
      ∀ t r, s.running t = some r → code.CanAct s t ∨ AwaitsValue s t := by
  have h : Inv s := Threads.Code.run_invariant (fun h _ hstep => inv_steps h hstep) inv_start
    (Threads.Code.guarded_true ls) hrun
  refine ⟨fun c n halive => ?_, fun t r hr => acts_or_awaits h hr⟩
  rcases h.receivers.found c n halive with htable | ⟨u, hu⟩
  · refine Or.inl ⟨htable, fun u hu => ?_⟩
    rw [(h.receivers.carried u n c hu).2] at htable
    cases htable
  · refine Or.inr ⟨(h.receivers.carried u n c hu).2, u, hu, fun v hv => ?_⟩
    exact h.receivers.apart v u n n c hv hu

/-- Thread 0 waits for a value with the receiver of handle 2. -/
def holding : List (Label (Call Nat) Bool) :=
  [.call 0 .new, .act 0 false, .act 0 false, .act 0 false, .act 0 false,
    .call 0 (.recv (.int 2)), .act 0 false]

/-- The receiver is with the thread, and the thread waits. -/
theorem receivers_holding : ∃ s, code.run start holding = some s ∧
    (s.shared.receivers 2 = none ∧ ∃! u, carries s u = some (2, 1)) ∧ AwaitsValue s 0 := by
  obtain ⟨s, hs⟩ : ∃ s, code.run start holding = some s := ⟨_, rfl⟩
  obtain ⟨hreceivers, hcalls⟩ := receivers_run hs
  have halive : s.shared.Alive 1 2 := by
    cases hs
    exact ⟨_, rfl, rfl, rfl⟩
  have hmissing : s.shared.receivers 2 = none := by
    cases hs
    rfl
  have hrunning : ∃ r, s.running 0 = some r := by
    cases hs
    exact ⟨_, rfl⟩
  have hblocked : ¬ code.CanAct s 0 := by
    cases hs
    rintro ⟨_ | _, s', hstep⟩
    · cases hstep
    · cases hstep
  obtain ⟨r, hr⟩ := hrunning
  refine ⟨s, hs, (hreceivers 1 2 halive).resolve_left ?_, (hcalls 0 r hr).resolve_left hblocked⟩
  rintro ⟨htable, -⟩
  rw [hmissing] at htable
  cases htable

end Airl.Channels.Vm
