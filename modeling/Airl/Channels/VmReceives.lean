import Airl.Channels.VmLedger

/-! # Receives that overlap

While a thread receives, the receiver is in no table: another receive on it finds an
invalid handle, and a close finds nothing to close. Where no thread does either, an
open handle is found and a closed one stays closed. A drain finds no handle at all.
-/

namespace Airl.Channels.Vm

open Threads (Running Label)
open Threads.State (entries)

variable {V : Type} {s : State V} {σ σ' : Shared V} {t u : Nat} {c d n : Int} {p : Point V}
  {next : Point V ⊕ Reply V} {r : Running (Point V) (Call V)}

/-! ## Handles that were returned -/

/-- The channel of two handles that `channel-new` returned is complete. -/
def Made (s : State V) : Prop :=
  ∀ e ∈ s.log, ∀ tx rx, e.reply = .handles tx rx → ∃ ch, s.shared.channels tx = some ch ∧
    ch.rx = rx ∧ ∀ u rx', making s u ≠ some (.insertRx tx rx')

theorem acts_insertRx {rx : Int} (hacts : Acts σ t p σ' next)
    (hnext : nextMaking next = some (.insertRx d rx)) : p.making = some (.insertTx d rx) := by
  cases hacts with
  | quiet hq =>
    rw [hq.nextMaking] at hnext
    cases hnext
  | @make m m' store hmake =>
    cases hnext
    cases m with
    | insertTx tx rx =>
      cases hmake
      rfl
    | _ => cases hmake
  | drain hact =>
    rw [nextMaking_drain] at hnext
    cases hnext
  | _ => cases hnext

theorem acts_handles {call : Call V} {tx rx : Int} (hfits : Fits call p)
    (hacts : Acts σ t p σ' next) (hrt : σ.rt = Rt.Shared.initial)
    (hnext : next = .inr (.handles tx rx)) : p.making = some (.insertRx tx rx) := by
  cases hacts with
  | quiet hq =>
    cases hq with
    | _ => cases hnext
  | @made m _ _ store hmake =>
    cases hnext
    cases m with
    | insertRx tx' rx' =>
      cases hmake
      rfl
    | _ => cases hmake
  | putBack =>
    cases hnext
    exact False.elim hfits.2
  | drain hact =>
    rw [hrt] at hact
    obtain ⟨-, ⟨q, rfl, -⟩ | ⟨f, rfl, -⟩⟩ := drain_acts hfits.2 hact
    · cases hnext
    · cases hnext
  | _ => cases hnext

/-- A step keeps the channels of returned handles complete. -/
theorem made_steps {l : Label (Call V) Bool} {s' : State V} (hinv : Inv s) (h : Made s)
    (hstep : code.Steps s l s') : Made s' := by
  cases hstep with
  | @start t call hidle =>
    intro e he tx rx hreply
    obtain ⟨ch, hch, hrx, hcomplete⟩ := h e he tx rx hreply
    refine ⟨ch, hch, hrx, fun u rx' hu => ?_⟩
    rw [making_start] at hu
    rcases Store.update_eq_some.mp hu with ⟨-, henter⟩ | ⟨-, hold⟩
    · rcases (enter_idle call).1 with heq | heq
      · rw [heq] at henter
        cases henter
      · rw [heq] at henter
        cases henter
    · exact hcomplete u rx' hold
  | @act t r choice σ' next hr hact =>
    have hacts := acts_of_act hact
    have hmaking := making_running hr
    -- nobody comes to insert the receiver of a channel that exists
    have hinsert : ∀ {u d dh rx}, s.shared.channels d = some dh →
        making (s.advance t r σ' next) u = some (.insertRx d rx) →
          u ≠ t ∧ making s u = some (.insertRx d rx) := by
      intro u d dh rx hdh hu
      rw [making_advance] at hu
      rcases Store.update_eq_some.mp hu with ⟨-, hnext⟩ | hold
      · have hpending := hinv.handles.pending t _ (hmaking.trans (acts_insertRx hacts hnext)) d
          (by simp [Making.pending])
        rw [hpending.1] at hdh
        cases hdh
      · exact hold
    intro e he tx rx hreply
    rcases List.mem_append.mp he with hold | hnew
    · obtain ⟨ch, hch, hrx, hcomplete⟩ := h e hold tx rx hreply
      obtain ⟨ch', hch', hrx'⟩ := acts_channels hinv hr hacts hch
      exact ⟨ch', hch', hrx'.trans hrx, fun u rx' hu => hcomplete u rx' (hinsert hch hu).2⟩
    · obtain ⟨reply, rfl, rfl⟩ := Threads.Code.mem_entries hnew
      have hm := hmaking.trans (acts_handles (hinv.fits t r hr) hacts hinv.drains
        (congrArg Sum.inr hreply))
      obtain ⟨ch, hch, hrx, -⟩ := hinv.handles.inserting t tx rx hm
      obtain ⟨ch', hch', hrx'⟩ := acts_channels hinv hr hacts hch
      refine ⟨ch', hch', hrx'.trans hrx, fun u rx' hu => ?_⟩
      obtain ⟨hne, hold⟩ := hinsert hch hu
      exact hne (hinv.handles.drawn_apart u _ t _ hold hm tx (by simp [Making.drawn])
        (by simp [Making.drawn]))

/-! ## Closes that have begun -/

/-- A close of `h` began before `i` calls had returned. -/
def BeginsClose (s : State V) (i : Nat) (h : Int) : Prop :=
  (∃ e ∈ s.log, e.call = .close (.int h) ∧ e.began ≤ i) ∨
    ∃ u r, s.running u = some r ∧ r.call = .close (.int h) ∧ r.began ≤ i

/-- A close that has begun stays begun. -/
theorem beginsClose_steps {l : Label (Call V) Bool} {s' : State V} {i : Nat} {h : Int}
    (hb : BeginsClose s i h) (hstep : code.Steps s l s') : BeginsClose s' i h := by
  cases hstep with
  | @start t call hidle =>
    rcases hb with hold | ⟨u, r, hr, hcall⟩
    · exact Or.inl hold
    · have hu : u ≠ t := by
        rintro rfl
        rw [hidle] at hr
        cases hr
      exact Or.inr ⟨u, r, by simp [Threads.State.start, hu, hr], hcall⟩
  | @act t r choice σ' next hr hact =>
    rcases hb with ⟨e, he, hcall⟩ | ⟨u, r', hr', hcall⟩
    · exact Or.inl ⟨e, List.mem_append_left _ he, hcall⟩
    · by_cases hu : u = t
      · subst hu
        rw [hr] at hr'
        cases hr'
        cases next with
        | inl q => exact Or.inr ⟨u, { r with point := q }, Function.update_self _ _ _, hcall⟩
        | inr reply =>
          exact Or.inl ⟨_, List.mem_append_right _ (List.mem_singleton.mpr rfl), hcall⟩
      · exact Or.inr ⟨u, r', by simp [Threads.State.advance, hu, hr'], hcall⟩

/-- A receiver is dropped by a close of its handle. -/
def ClosesDrop (s : State V) : Prop :=
  ∀ c ch, s.shared.channels c = some ch → ch.receiverAlive = false →
    BeginsClose s s.log.length ch.rx

theorem BeginsClose.later {i j : Nat} {h : Int} (hij : i ≤ j) (hb : BeginsClose s i h) :
    BeginsClose s j h := by
  rcases hb with ⟨e, he, hcall, hle⟩ | ⟨u, r, hr, hcall, hle⟩
  · exact Or.inl ⟨e, he, hcall, Nat.le_trans hle hij⟩
  · exact Or.inr ⟨u, r, hr, hcall, Nat.le_trans hle hij⟩

/-- A step drops a receiver only as a close that finds it. -/
theorem acts_dropped_back (hacts : Acts σ t p σ' next) (hd : σ'.Dropped d) :
    σ.Dropped d ∨ ∃ n removedTx, p = .closeReceiver n removedTx ∧ σ.receivers n = some d := by
  obtain ⟨dh, hdh, hdead⟩ := hd
  have hset : ∀ {c ch ch'}, σ.channels c = some ch →
      Function.update σ.channels c (some ch') d = some dh →
      ch'.receiverAlive = ch.receiverAlive → σ.Dropped d := by
    intro c ch ch' hch hdh halive
    by_cases heq : d = c
    · subst heq
      rw [Function.update_self] at hdh
      cases hdh
      exact ⟨ch, hch, halive ▸ hdead⟩
    · rw [Function.update_of_ne heq] at hdh
      exact ⟨dh, hdh, hdead⟩
  have hmakes : ∀ {m store after}, σ.make m = (store, after) → store.channels d = some dh →
      σ.Dropped d := by
    intro m store after hmake hdh
    cases m with
    | insertTx tx rx =>
      cases hmake
      by_cases heq : d = tx
      · subst heq
        simp only [Store.setChannel, Function.update_self, Option.some.injEq] at hdh
        subst hdh
        cases hdead
      · simp only [Store.setChannel, Function.update_of_ne heq] at hdh
        exact ⟨dh, hdh, hdead⟩
    | _ =>
      cases hmake
      exact ⟨dh, hdh, hdead⟩
  cases hacts with
  | make hmake => exact Or.inl (hmakes hmake hdh)
  | made hmake => exact Or.inl (hmakes hmake hdh)
  | push hc hch => exact Or.inl (hset hch hdh rfl)
  | pop k n hch hqueue => exact Or.inl (hset hch hdh rfl)
  | closeSender hc hch => exact Or.inl (hset hch hdh rfl)
  | @closeReceiver n c removedTx ch hc hch =>
    by_cases heq : d = c
    · exact Or.inr ⟨n, removedTx, rfl, heq ▸ hc⟩
    · simp only [Shared.setChannel, Store.setChannel, Function.update_of_ne heq] at hdh
      exact Or.inl ⟨dh, hdh, hdead⟩
  | _ => exact Or.inl ⟨dh, hdh, hdead⟩

/-- A step keeps that only a close of its handle drops a receiver. -/
theorem closesDrop_steps {l : Label (Call V) Bool} {s' : State V} (hinv : Inv s)
    (htimely : Threads.Code.Timely s) (h : ClosesDrop s) (hstep : code.Steps s l s') :
    ClosesDrop s' := by
  have hsteps := hstep
  cases hstep with
  | start hidle =>
    intro c ch hch hdead
    exact beginsClose_steps (h c ch hch hdead) hsteps
  | @act t r choice σ' next hr hact =>
    have hacts := acts_of_act hact
    have hlength : s.log.length ≤ (s.advance t r σ' next).log.length := by
      simp [Threads.State.advance]
    intro c ch' hch' hdead
    refine BeginsClose.later hlength (beginsClose_steps ?_ hsteps)
    rcases acts_dropped_back hacts ⟨ch', hch', hdead⟩ with ⟨ch, hch, hdead⟩ | ⟨n, b, hp, hn⟩
    · obtain ⟨ch'', hch'', hrx⟩ := acts_channels hinv hr hacts hch
      rw [show σ'.channels c = some ch' from hch'] at hch''
      cases hch''
      rw [hrx]
      exact h c ch hch hdead
    · obtain ⟨ch, hch, rfl⟩ := hinv.handles.receivers n c hn
      obtain ⟨ch'', hch'', hrx⟩ := acts_channels hinv hr hacts hch
      rw [show σ'.channels c = some ch' from hch'] at hch''
      cases hch''
      have hfits := hinv.fits t r hr
      rw [hp] at hfits
      exact Or.inr ⟨t, r, hr, hrx ▸ hfits, htimely.running t r hr⟩

/-! ## Steps that keep receives apart -/

/-- A thread has the receiver of `h`. -/
def InUse (s : State V) (h : Int) : Prop :=
  ∃ u r, s.running u = some r ∧
    ((∃ k c, r.point = .receive k h c) ∨ ∃ c reply, r.point = .putBack h c reply)

/-- The steps by which no thread misses a receiver that another one has, no close discards
a value, and no drain looks for an open receiver. -/
def Undisturbed (s : State V) : Label (Call V) Bool → Prop
  | .call _ _ => True
  | .act t _ => ∀ r, s.running t = some r →
    match r.point with
    | .takeOut _ h => ¬ InUse s h
    | .closeReceiver h _ => ¬ InUse s h ∧
      ∀ c ch, s.shared.receivers h = some c → s.shared.channels c = some ch → ch.queue = []
    | .drain (.lookup _ h) => ∀ c, ¬ s.shared.Alive c h
    | _ => True

/-- A returned receiver that no thread holds and no table has was dropped. -/
theorem dropped_of_missing (hinv : Inv s) (hmade : Made s) {e : Entry V} {tx rx : Int}
    (he : e ∈ s.log) (hreply : e.reply = .handles tx rx) (hidle : ¬ InUse s rx)
    (hnone : s.shared.receivers rx = none) : s.shared.Dropped tx := by
  obtain ⟨ch, hch, rfl, hcomplete⟩ := hmade e he tx rx hreply
  cases halive : ch.receiverAlive with
  | false => exact ⟨ch, hch, halive⟩
  | true =>
    exfalso
    rcases hinv.receivers.found tx ch.rx ⟨ch, hch, rfl, halive⟩ with hin | ⟨u, hu⟩
    · rw [hnone] at hin
      cases hin
    · cases hr : s.running u with
      | none =>
        rw [carries, Threads.State.reads_idle Point.carries none hr] at hu
        cases hu
      | some r =>
        rw [carries_running hr] at hu
        cases hp : r.point with
        | new m =>
          rw [hp] at hu
          cases m with
          | insertRx tx' rx' =>
            cases hu
            exact hcomplete u ch.rx ((making_running hr).trans (congrArg Point.making hp))
          | _ => cases hu
        | receive k h c =>
          rw [hp] at hu
          cases hu
          exact hidle ⟨u, r, hr, Or.inl ⟨k, tx, hp⟩⟩
        | putBack h c reply =>
          rw [hp] at hu
          cases hu
          exact hidle ⟨u, r, hr, Or.inr ⟨tx, reply, hp⟩⟩
        | _ =>
          rw [hp] at hu
          cases hu

/-! ## What is promised of every run -/

/-- What the channel of `tx` and `rx` has delivered. -/
structure Delivers (s : State V) (tx rx : Int) (ch : Channel V) : Prop where
  channel : s.shared.channels tx = some ch
  /-- A received value went to one call of one thread, in the order in which it received. -/
  threads : ∀ u, deliveredTo u rx s.log ++ inHand s u tx = ch.takenBy u
  /-- Values are received at most once and in the order in which they were sent. -/
  order : (ch.taken.map Prod.snd).Sublist (sentOn tx s.log)
  /-- Nothing is lost before a close drops the receiver. -/
  kept : ch.receiverAlive = true → ch.taken.map Prod.snd ++ ch.queue = sentOn tx s.log

/-- Who takes from a returned handle that nobody has begun to close finds it. -/
def FindsReceivers (s : State V) : Prop :=
  ∀ i e, s.log[i]? = some e → ∀ m ∈ s.log.take e.began, ∀ tx rx, m.reply = .handles tx rx →
    e.call.handle = some rx → ∀ k, e.reply = .error (.invalidReceiver k rx) → BeginsClose s i rx

/-- In no table, and with no thread that would put it back. -/
def Closed (s : State V) (h : Int) : Prop :=
  s.shared.senders h = none ∧ s.shared.receivers h = none ∧ ¬ InUse s h

/-- A returned handle is closed from the end of every close of it on. -/
def StaysClosed (s : State V) : Prop :=
  ∀ e ∈ s.log, ∀ h, e.call = .close (.int h) → ∀ m ∈ s.log.take e.began, ∀ tx rx,
    m.reply = .handles tx rx → h = tx ∨ h = rx → Closed s h

/-- A drain of a returned handle that nobody has begun to close answers values. -/
def DrainsValues (s : State V) : Prop :=
  ∀ i e, s.log[i]? = some e → ∀ m ∈ s.log.take e.began, ∀ tx rx, m.reply = .handles tx rx →
    e.call = .drain (.int rx) → (∃ vs, e.reply = .drained vs) ∨ BeginsClose s i rx

structure Meets (s : State V) : Prop where
  /-- What was sent was received once or is queued. -/
  delivers : ∀ e ∈ s.log, ∀ tx rx, e.reply = .handles tx rx → ∃ ch, Delivers s tx rx ch ∧
    ch.taken.map Prod.snd ++ ch.queue = sentOn tx s.log
  finds : FindsReceivers s
  closed : StaysClosed s
  drains : DrainsValues s

/-! ## Drains -/

/-- No drain finds its handle. -/
def DrainsNothing (s : State V) : Prop :=
  ∀ e ∈ s.log, ∀ rx, e.call = .drain (.int rx) → e.reply = .error (.invalidReceiver .drain rx)

theorem acts_drainReply {call : Call V} {reply : Reply V} (hfits : Fits call p)
    (hrt : σ.rt = Rt.Shared.initial) (hacts : Acts σ t p σ' next) (hnext : next = .inr reply)
    {rx : Int} (hcall : call = .drain (.int rx)) :
    reply = .error (.invalidReceiver .drain rx) ∧ ∃ q, p = .drain q := by
  subst hcall
  have hrefused : ¬ (Call.drain (.int rx) : Call V).handle = none := by simp [Call.handle]
  have htaking : ∀ {k n}, ¬ Receives (Call.drain (.int rx) : Call V) k n := by
    rintro k n ⟨hk, -, hne⟩
    cases hk
    exact hne rfl
  cases hacts with
  | quiet hq =>
    cases hq with
    | refuse f => exact absurd hfits hrefused
    | notClosed => exact absurd hfits hrefused
    | takeInvalid hnone => exact absurd hfits htaking
    | failed k n c hf => exact absurd hfits htaking
    | _ => cases hfits
  | takeOut k hc => exact absurd hfits htaking
  | pop k n hch hqueue => exact absurd hfits htaking
  | putBack n c r => exact absurd hfits.1.choose_spec htaking
  | drain hact =>
    rw [hrt] at hact
    obtain ⟨-, ⟨q, rfl, -⟩ | ⟨f, rfl, hf⟩⟩ := drain_acts hfits.2 hact
    · cases hnext
    · cases hnext
      exact ⟨by rw [hf rx rfl]; rfl, _, rfl⟩
  | _ => cases hfits

/-- A step keeps that no drain finds its handle. -/
theorem drainsNothing_steps {l : Label (Call V) Bool} {s' : State V} (hinv : Inv s)
    (h : DrainsNothing s) (hstep : code.Steps s l s') : DrainsNothing s' := by
  cases hstep with
  | start hidle => exact h
  | @act t r choice σ' next hr hact =>
    intro e he rx hcall
    rcases List.mem_append.mp he with hold | hnew
    · exact h e hold rx hcall
    · obtain ⟨reply, rfl, rfl⟩ := Threads.Code.mem_entries hnew
      exact (acts_drainReply (hinv.fits t r hr) hinv.drains (acts_of_act hact) rfl hcall).1

/-! ## Open handles are found -/

/-- An invalid receiver is answered where the table has none, or to a drain. -/
theorem acts_invalidReceiver {call : Call V} {reply : Reply V} {k : Taking} {h : Int}
    (hfits : Fits call p) (hhandle : call.handle = some h) (hrt : σ.rt = Rt.Shared.initial)
    (hacts : Acts σ t p σ' next) (hnext : next = .inr reply)
    (hreply : reply = .error (.invalidReceiver k h)) :
    (p = .takeOut k h ∧ σ.receivers h = none) ∨ p = .drain (.lookup .drain h) := by
  subst hreply
  cases hacts with
  | quiet hq =>
    cases hq with
    | refuse f =>
      rw [show call.handle = none from hfits] at hhandle
      cases hhandle
    | takeInvalid hnone =>
      cases hnext
      exact Or.inl ⟨rfl, hnone⟩
    | _ => cases hnext
  | putBack n c r =>
    cases hnext
    rcases hfits.2 with heq | heq
    · cases heq
    · cases heq
  | drain hact =>
    rcases hfits.2 with ⟨hnone, -⟩ | ⟨h', hh', rfl | rfl⟩
    · rw [hnone] at hhandle
      cases hhandle
    · rw [hrt] at hact
      cases hact
      cases hnext
    · rw [hhandle] at hh'
      cases hh'
      exact Or.inr rfl
  | _ => cases hnext

/-- An entry of the log after a step is an old one or the one the step adds. -/
theorem getElem?_log {next : Point V ⊕ Reply V} {i : Nat} {e : Entry V}
    (h : (s.log ++ entries t r next)[i]? = some e) :
    s.log[i]? = some e ∨ i = s.log.length ∧ ∃ reply, next = .inr reply ∧
      e = ⟨t, r.call, r.began, reply⟩ := by
  rcases Nat.lt_or_ge i s.log.length with hlt | hge
  · rw [List.getElem?_append_left hlt] at h
    exact Or.inl h
  · rw [List.getElem?_append_right hge] at h
    obtain ⟨reply, rfl, rfl⟩ := Threads.Code.mem_entries (List.mem_of_getElem? h)
    have hi : i - s.log.length < 1 := (List.getElem?_eq_some_iff.mp h).1
    exact Or.inr ⟨by omega, reply, rfl, rfl⟩

/-- An undisturbed step keeps that who takes from an open handle finds it. -/
theorem findsReceivers_steps {l : Label (Call V) Bool} {s' : State V} (hinv : Inv s)
    (hmade : Made s) (hclosers : ClosesDrop s) (htimely : Threads.Code.Timely s)
    (h : FindsReceivers s) (hallowed : Undisturbed s l) (hstep : code.Steps s l s') :
    FindsReceivers s' := by
  have hsteps := hstep
  cases hstep with
  | start hidle =>
    intro i e he m hm tx rx hreply hhandle k hinvalid
    exact beginsClose_steps (h i e he m hm tx rx hreply hhandle k hinvalid) hsteps
  | @act t r choice σ' next hr hact =>
    intro i e he m hm tx rx hreply hhandle k hinvalid
    apply beginsClose_steps _ hsteps
    rcases getElem?_log he with hold | ⟨rfl, reply, rfl, rfl⟩
    · rw [show (s.advance t r σ' next).log = s.log ++ entries t r next from rfl,
        Threads.Code.take_append (htimely.log e (List.mem_of_getElem? hold))] at hm
      exact h i e hold m hm tx rx hreply hhandle k hinvalid
    · rw [show (s.advance t r σ' (.inr reply)).log = s.log ++ entries t r (.inr reply) from rfl,
        Threads.Code.take_append (htimely.running t r hr)] at hm
      have hm := List.mem_of_mem_take hm
      -- the receiver is missing because a close dropped it
      have hdropped : s.shared.Dropped tx := by
        have hguard := hallowed r hr
        rcases acts_invalidReceiver (hinv.fits t r hr) hhandle hinv.drains (acts_of_act hact) rfl
          hinvalid with ⟨hp, hnone⟩ | hp
        · rw [hp] at hguard
          exact dropped_of_missing hinv hmade hm hreply hguard hnone
        · rw [hp] at hguard
          obtain ⟨ch, hch, hrx, -⟩ := hmade m hm tx rx hreply
          cases halive : ch.receiverAlive with
          | false => exact ⟨ch, hch, halive⟩
          | true => exact absurd ⟨ch, hch, hrx, halive⟩ (hguard tx)
      obtain ⟨ch, hch, hdead⟩ := hdropped
      obtain ⟨ch', hch', hrx, -⟩ := hmade m hm tx rx hreply
      rw [hch] at hch'
      cases hch'
      exact hrx ▸ hclosers tx ch hch hdead

theorem drainsValues_of_finds (hf : FindsReceivers s) (hd : DrainsNothing s) :
    DrainsValues s := by
  intro i e he m hm tx rx hreply hcall
  right
  apply hf i e he m hm tx rx hreply (by rw [hcall]; rfl)
  exact hd e (List.mem_of_getElem? he) rx hcall

/-! ## Closed handles stay closed -/

/-- What closes have done to handles that were returned before they began. -/
structure Closes (s : State V) : Prop where
  running : ∀ u r h b, s.running u = some r → r.point = .closeReceiver h b →
    ∀ m ∈ s.log.take r.began, ∀ tx rx, m.reply = .handles tx rx → h = tx →
      s.shared.senders tx = none
  log : ∀ e ∈ s.log, ∀ h, e.call = .close (.int h) → ∀ m ∈ s.log.take e.began, ∀ tx rx,
    m.reply = .handles tx rx →
      (h = tx → s.shared.senders tx = none) ∧ (h = rx → s.shared.Dropped tx)

theorem acts_senders_none (hinv : Inv s) (hr : s.running t = some r)
    (hacts : Acts s.shared t r.point σ' next) {ch : Channel V}
    (hch : s.shared.channels c = some ch) (hnone : s.shared.senders c = none) :
    σ'.senders c = none := by
  have hmaking := making_running hr
  generalize r.point = p at hacts hmaking
  have hmakes : ∀ {m store after}, making s t = some m → s.shared.make m = (store, after) →
      store.senders c = none := by
    intro m store after hm hmake
    cases hs : store.senders c with
    | none => rfl
    | some d =>
      rcases Store.senders_make hmake hs with hold | ⟨rx, rfl⟩
      · rw [hnone] at hold
        cases hold
      · rw [(hinv.handles.pending t _ hm c (by simp [Making.pending])).1] at hch
        cases hch
  cases hacts with
  | make hmake => exact hmakes hmaking hmake
  | made hmake => exact hmakes hmaking hmake
  | @closeSender h c' ch' hc hch =>
    by_cases heq : c = h
    · subst heq
      exact Function.update_self c _ _
    · exact (Function.update_of_ne heq _ _).trans hnone
  | _ => exact hnone

/-- A close comes to the receivers only through the senders. -/
theorem acts_closeReceiver_from {h : Int} {b : Bool} (hacts : Acts σ t p σ' next)
    (hnext : next = .inl (.closeReceiver h b)) : p = .closeSender h ∧ σ'.senders h = none := by
  cases hacts with
  | quiet hq =>
    cases hq with
    | noSender hnone =>
      cases hnext
      exact ⟨rfl, hnone⟩
    | _ => cases hnext
  | closeSender hc hch =>
    cases hnext
    exact ⟨rfl, Function.update_self h _ _⟩
  | @drain p x rt after hact =>
    cases after with
    | inl q => cases hnext
    | inr reply => cases hnext
  | _ => cases hnext

theorem enter_closeReceiver (call : Call V) (h : Int) (b : Bool) :
    enter call ≠ .closeReceiver h b := by
  intro henter
  have hfits := fits_enter call
  rw [henter] at hfits
  rw [show call = .close (.int h) from hfits] at henter
  cases henter

/-- A close answers only behind both tables. -/
theorem acts_closed {call : Call V} {reply : Reply V} {h : Int} (hfits : Fits call p)
    (hcall : call = .close (.int h)) (hacts : Acts σ t p σ' next) (hnext : next = .inr reply) :
    ∃ b, p = .closeReceiver h b := by
  subst hcall
  have hrefused : ¬ (Call.close (.int h) : Call V).handle = none := by simp [Call.handle]
  cases hacts with
  | quiet hq =>
    cases hq with
    | refuse f => exact absurd hfits hrefused
    | notClosed => exact absurd hfits hrefused
    | takeInvalid hnone => cases hfits.1
    | noReceiver b hnone =>
      cases hfits
      exact ⟨b, rfl⟩
    | sendInvalid => cases hfits
    | sendDisconnected => cases hfits
    | _ => cases hnext
  | made hmake => cases hfits
  | push hc hch => cases hfits
  | putBack n c r => cases hfits.1.choose_spec.1
  | closeReceiver b hc hch =>
    cases hfits
    exact ⟨b, rfl⟩
  | drain hact => cases hfits.1
  | _ => cases hnext

/-- An undisturbed step keeps handles closed from the end of their close on. -/
theorem closes_steps {l : Label (Call V) Bool} {s' : State V} (hinv : Inv s) (hmade : Made s)
    (htimely : Threads.Code.Timely s) (h : Closes s) (hallowed : Undisturbed s l)
    (hstep : code.Steps s l s') : Closes s' := by
  cases hstep with
  | @start t call hidle =>
    refine ⟨fun u r h' b hr hp m hm tx rx hreply heq => ?_, h.log⟩
    rcases Threads.Code.running_start hr with ⟨-, hold⟩ | ⟨-, rfl⟩
    · exact h.running u r h' b hold hp m hm tx rx hreply heq
    · exact absurd hp (enter_closeReceiver call h' b)
  | @act t r choice σ' next hr hact =>
    have hacts := acts_of_act hact
    have hguard := hallowed r hr
    -- what came before a call came before the step
    have hbefore : ∀ {n m}, n ≤ s.log.length → m ∈ (s.log ++ entries t r next).take n →
        m ∈ s.log.take n := by
      intro n m hn hm
      rwa [Threads.Code.take_append hn] at hm
    have hsenders : ∀ {m tx rx}, m ∈ s.log → m.reply = .handles tx rx →
        s.shared.senders tx = none → σ'.senders tx = none := by
      intro m tx rx hm hreply hnone
      obtain ⟨ch, hch, -⟩ := hmade m hm tx rx hreply
      exact acts_senders_none hinv hr hacts hch hnone
    constructor
    · intro u r' h' b hr' hp m hm tx rx hreply heq
      rcases Threads.Code.running_advance hr' with ⟨-, hold⟩ | ⟨q, -, rfl, rfl⟩
      · have hm := hbefore (htimely.running u r' hold) hm
        exact hsenders (List.mem_of_mem_take hm) hreply
          (h.running u r' h' b hold hp m hm tx rx hreply heq)
      · exact heq ▸ (acts_closeReceiver_from hacts (congrArg Sum.inl hp)).2
    · intro e he h' hcall m hm tx rx hreply
      rcases List.mem_append.mp he with hold | hnew
      · have hm := hbefore (htimely.log e hold) hm
        obtain ⟨htx, hrx⟩ := h.log e hold h' hcall m hm tx rx hreply
        exact ⟨fun heq => hsenders (List.mem_of_mem_take hm) hreply (htx heq),
          fun heq => acts_dropped hinv hr hacts (hrx heq)⟩
      · obtain ⟨reply, rfl, rfl⟩ := Threads.Code.mem_entries hnew
        have hm := hbefore (htimely.running t r hr) hm
        have hm' := List.mem_of_mem_take hm
        obtain ⟨b, hp⟩ := acts_closed (hinv.fits t r hr) hcall hacts rfl
        refine ⟨fun heq => ?_, fun heq => ?_⟩
        · exact hsenders hm' hreply (h.running t r h' b hr hp m hm tx rx hreply heq)
        · subst heq
          rw [hp] at hguard
          cases hin : s.shared.receivers h' with
          | none =>
            exact acts_dropped hinv hr hacts
              (dropped_of_missing hinv hmade hm' hreply hguard.1 hin)
          | some c =>
            obtain ⟨ch, hch, hrx⟩ := hinv.handles.receivers h' c hin
            obtain ⟨dh, hdh, hdrx, -⟩ := hmade m hm' tx h' hreply
            cases hinv.handles.rx_inj c ch tx dh hch hdh (hrx.trans hdrx.symm)
            exact dropped_closeReceiver hp hin hacts

/-- The two handles of a channel are in their own tables only. -/
theorem closed_of_closes (hinv : Inv s) (hmade : Made s) (h : Closes s) : StaysClosed s := by
  have hcarried : ∀ {n}, (∀ c, ¬ s.shared.Alive c n) →
      s.shared.receivers n = none ∧ ¬ InUse s n := by
    intro n hdead
    constructor
    · cases hin : s.shared.receivers n with
      | none => rfl
      | some c => exact absurd (hinv.receivers.table n c hin) (hdead c)
    · rintro ⟨u, r, hr, ⟨k, c, hp⟩ | ⟨c, reply, hp⟩⟩
      · have hu : carries s u = some (n, c) := (carries_running hr).trans (hp ▸ rfl)
        exact hdead c (hinv.receivers.carried u n c hu).1
      · have hu : carries s u = some (n, c) := (carries_running hr).trans (hp ▸ rfl)
        exact hdead c (hinv.receivers.carried u n c hu).1
  intro e he h' hcall m hm tx rx hreply hh'
  obtain ⟨ch, hch, hrx, -⟩ := hmade m (List.mem_of_mem_take hm) tx rx hreply
  obtain ⟨htx, hdropped⟩ := h.log e he h' hcall m hm tx rx hreply
  rcases hh' with rfl | rfl
  · refine ⟨htx rfl, hcarried ?_⟩
    rintro c ⟨dh, hdh, hdrx, -⟩
    exact hinv.handles.apart h' ch c dh hch hdh hdrx
  · refine ⟨?_, hcarried ?_⟩
    · cases hin : s.shared.senders h' with
      | none => rfl
      | some c =>
        obtain ⟨-, dh, hdh⟩ := hinv.handles.senders h' c hin
        exact absurd hrx (hinv.handles.apart h' dh tx ch hdh hch)
    · intro c halive
      obtain ⟨dh, hdh, hdead⟩ := hdropped rfl
      obtain ⟨ch', hch', hrx', hlive⟩ := halive
      cases hinv.handles.rx_inj c ch' tx ch hch' hch (hrx'.trans hrx.symm)
      rw [hch'] at hdh
      cases hdh
      rw [hlive] at hdead
      cases hdead

/-! ## Every run -/

/-- What every state has that a run reaches. -/
structure Sound (s : State V) : Prop where
  inv : Inv s
  timely : Threads.Code.Timely s
  made : Made s
  closers : ClosesDrop s
  drains : DrainsNothing s

theorem sound_start : Sound (start : State V) where
  inv := inv_start
  timely := Threads.Code.timely_initial _
  made e he := by cases he
  closers c ch hch := by cases hch
  drains e he := by cases he

/-- A step keeps the state sound. -/
theorem sound_steps {l : Label (Call V) Bool} {s' : State V} (h : Sound s)
    (hstep : code.Steps s l s') : Sound s' where
  inv := inv_steps h.inv hstep
  timely := Threads.Code.timely_steps h.timely hstep
  made := made_steps h.inv h.made hstep
  closers := closesDrop_steps h.inv h.timely h.closers hstep
  drains := drainsNothing_steps h.inv h.drains hstep

/-- What the states of an undisturbed run have besides. -/
structure Calm (s : State V) : Prop where
  whole : Ledger s.shared.channels (fun _ => False) (inHand s) s.log
  finds : FindsReceivers s
  closes : Closes s

theorem calm_start : Calm (start : State V) where
  whole := Ledger.initial
  finds i e he := by cases he
  closes :=
    { running := fun u r h b hr => by cases hr
      log := fun e he => by cases he }

/-- An undisturbed step keeps the state calm. -/
theorem calm_steps {l : Label (Call V) Bool} {s' : State V} (hs : Sound s) (h : Calm s)
    (hallowed : Undisturbed s l) (hstep : code.Steps s l s') : Calm s' where
  finds := findsReceivers_steps hs.inv hs.made hs.closers hs.timely h.finds hallowed hstep
  closes := closes_steps hs.inv hs.made hs.timely h.closes hallowed hstep
  whole := by
    cases hstep with
    | @start t call hidle =>
      rw [show inHand (s.start code t call) = inHand s from
        Threads.State.reads_start_idle Point.inHand (fun _ => []) hidle (enter_idle call).2.1]
      exact h.whole
    | @act t r choice σ' next hr hact =>
      rw [inHand_advance]
      refine ledger_acts hs.inv h.whole (fun d hd => hd) hr (acts_of_act hact) ?_
      intro n removedTx c ch hp hc hch
      have hguard := hallowed r hr
      rw [hp] at hguard
      exact Or.inr (hguard.2 c ch hc hch)

/-- What was taken from a returned channel was sent on it, in that order. -/
theorem delivers (h : Sound s) {e : Entry V} {tx rx : Int} (he : e ∈ s.log)
    (hreply : e.reply = .handles tx rx) : ∃ ch, Delivers s tx rx ch := by
  obtain ⟨ch, hch, rfl, -⟩ := h.made e he tx rx hreply
  refine ⟨ch, hch, fun u => h.inv.ledger.hands tx ch u hch, ?_, fun halive => ?_⟩
  · exact (List.sublist_append_left _ _).trans (h.inv.ledger.order tx ch hch)
  · apply h.inv.ledger.kept tx ch hch
    rintro ⟨ch', hch', hdead⟩
    rw [hch] at hch'
    cases hch'
    rw [halive] at hdead
    cases hdead

/-- A sound and calm state meets what is promised. -/
theorem meets_of_calm (hs : Sound s) (h : Calm s) : Meets s where
  delivers e he tx rx hreply := by
    obtain ⟨ch, hch⟩ := delivers hs he hreply
    exact ⟨ch, hch, h.whole.kept tx ch hch.channel id⟩
  finds := h.finds
  closed := closed_of_closes hs.inv hs.made h.closes
  drains := drainsValues_of_finds h.finds hs.drains

/-- Every run ends in a sound state. -/
theorem sound_run {ls : List (Label (Call V) Bool)} (hrun : code.run start ls = some s) : Sound s :=
  Threads.Code.run_invariant (fun h _ hstep => sound_steps h hstep) sound_start
    (Threads.Code.guarded_true ls) hrun

/-- Every undisturbed run ends in a calm state. -/
theorem calm_run {ls : List (Label (Call V) Bool)} (hguard : code.Guarded Undisturbed start ls)
    (hrun : code.run start ls = some s) : Calm s := by
  have hstart : Sound (start : State V) ∧ Calm (start : State V) := ⟨sound_start, calm_start⟩
  have hstep : ∀ {s : State V} {l s'}, Sound s ∧ Calm s → Undisturbed s l →
      code.Steps s l s' → Sound s' ∧ Calm s' := by
    rintro s l s' ⟨hs, h⟩ hallowed hstep
    exact ⟨sound_steps hs hstep, calm_steps hs h hallowed hstep⟩
  exact (Threads.Code.run_invariant hstep hstart hguard hrun).2

/-- Values are delivered in order and at most once in every run of any number of threads,
and no drain finds a handle; in an undisturbed run everything else is right too. -/
theorem meets_run {ls : List (Label (Call V) Bool)} {s : State V}
    (hrun : code.run start ls = some s) :
    (∀ e ∈ s.log, ∀ tx rx, e.reply = .handles tx rx → ∃ ch, Delivers s tx rx ch) ∧
      DrainsNothing s ∧ (code.Guarded Undisturbed start ls → Meets s) := by
  have hsound := sound_run hrun
  exact ⟨fun e he tx rx hreply => delivers hsound he hreply, hsound.drains,
    fun hguard => meets_of_calm hsound (calm_run hguard hrun)⟩

/-! ## Programs with one receiving thread -/

/-- Thread `t` alone receives, and nobody closes or drains. -/
def Alone (t u : Nat) : Point V → Prop
  | .takeOut _ _ | .receive _ _ _ | .putBack _ _ _ => u = t
  | .closeSender _ | .closeReceiver _ _ | .drain _ => False
  | _ => True

theorem acts_alone {v : Nat} {q : Point V} (hacts : Acts σ u p σ' (.inl q)) (hp : Alone v u p) :
    Alone v u q := by
  generalize hnext : (.inl q : Point V ⊕ Reply V) = next at hacts
  cases hacts with
  | quiet hq =>
    cases hq with
    | failed k n c hf =>
      cases hnext
      exact hp
    | noSender hnone => exact False.elim hp
    | _ => cases hnext
  | make hmake =>
    cases hnext
    trivial
  | takeOut k hc =>
    cases hnext
    exact hp
  | pop k n hch hqueue =>
    cases hnext
    exact hp
  | closeSender hc hch => exact False.elim hp
  | drain hact => exact False.elim hp
  | _ => cases hnext

/-- A run is undisturbed where one thread alone receives and nobody closes or drains. -/
theorem guarded_of_alone {ls : List (Label (Call V) Bool)}
    (hcalls : ∀ u call, Label.call u call ∈ ls → Alone t u (enter call))
    (hs : ∀ u r, s.running u = some r → Alone t u r.point) : code.Guarded Undisturbed s ls := by
  induction ls generalizing s with
  | nil => trivial
  | cons l ls ih =>
    -- only thread `t` has a receiver, and it has none while it takes one out
    have hallowed : Undisturbed s l := by
      cases l with
      | call u call => trivial
      | act u choice =>
        intro r hr
        have halone := hs u r hr
        cases hp : r.point with
        | takeOut k h =>
          rw [hp] at halone
          rintro ⟨v, r', hr', ⟨k', c, hp'⟩ | ⟨c, reply, hp'⟩⟩
          · have hv := hs v r' hr'
            rw [hp'] at hv
            rw [show v = u from hv.trans halone.symm, hr] at hr'
            cases hr'
            rw [hp] at hp'
            cases hp'
          · have hv := hs v r' hr'
            rw [hp'] at hv
            rw [show v = u from hv.trans halone.symm, hr] at hr'
            cases hr'
            rw [hp] at hp'
            cases hp'
        | closeReceiver h b =>
          rw [hp] at halone
          exact False.elim halone
        | drain q =>
          rw [hp] at halone
          exact False.elim halone
        | _ => trivial
    refine ⟨hallowed, fun s' hstep => ih (fun u call hmem => hcalls u call (.tail l hmem)) ?_⟩
    cases Threads.Code.step_cases hstep with
    | @start u call _ =>
      intro v r hr
      rcases Threads.Code.running_start hr with ⟨-, hold⟩ | ⟨rfl, rfl⟩
      · exact hs v r hold
      · exact hcalls v call (.head ls)
    | act hr hact =>
      intro v r' hr'
      rcases Threads.Code.running_advance hr' with ⟨-, hold⟩ | ⟨q, rfl, rfl, rfl⟩
      · exact hs v r' hold
      · exact acts_alone (acts_of_act hact) (hs _ _ hr)

/-- One thread makes a channel, another sends on it, and the first receives. -/
def relay : List (Label (Call Nat) Bool) :=
  [.call 0 .new, .act 0 false, .act 0 false, .act 0 false, .act 0 false,
    .call 0 (.recv (.int 2)), .act 0 false,
    .call 1 (.send (.int 1) 7), .act 1 false, .act 0 false, .act 0 false]

/-- The first thread closes the sender. -/
def closing : List (Label (Call Nat) Bool) :=
  [.call 0 (.close (.int 1)), .act 0 false, .act 0 false]

/-- It learns of it from the receiver. -/
def lateReceive : List (Label (Call Nat) Bool) :=
  [.call 0 (.recv (.int 2)), .act 0 false, .act 0 false, .act 0 false]

theorem relay_log : (code.run start (relay ++ closing ++ lateReceive)).map (fun s => s.log) =
    some [⟨0, .new, 0, .handles 1 2⟩, ⟨1, .send (.int 1) 7, 1, .sent⟩,
      ⟨0, .recv (.int 2), 1, .received 7⟩, ⟨0, .close (.int 1), 3, .closed true⟩,
      ⟨0, .recv (.int 2), 4, .error .disconnected⟩] := rfl

theorem relay_guarded : code.Guarded Undisturbed start relay := by
  refine @guarded_of_alone _ _ 0 _ ?_ ?_
  · intro u call hmem
    simp only [relay, List.mem_cons, Label.call.injEq, reduceCtorEq, List.not_mem_nil, or_false,
      false_or] at hmem
    rcases hmem with ⟨rfl, rfl⟩ | ⟨rfl, rfl⟩ | ⟨rfl, rfl⟩
    · trivial
    · rfl
    · trivial
  · intro u r hr
    cases hr

theorem relay_idle {s : State Nat} (hs : code.run start relay = some s) (u : Nat) :
    s.running u = none := by
  cases hs
  match u with
  | 0 => rfl
  | 1 => rfl
  | u + 2 => rfl

/-- No thread has the receiver, and the handle that is closed is a sender's. -/
theorem closing_guarded {s : State Nat} (hs : code.run start relay = some s) :
    code.Guarded Undisturbed s closing := by
  refine ⟨trivial, fun s₁ hstart => ⟨?_, fun s₂ hsender => ⟨?_, fun _ _ => trivial⟩⟩⟩
  · cases hs
    cases hstart
    intro r hr
    cases hr
    trivial
  · have hidle : ∀ u, u ≠ 0 → s₂.running u = none := by
      intro u hu
      rw [Threads.Code.running_of_step hsender hu, Threads.Code.running_of_step hstart hu,
        relay_idle hs u]
    have hown : ∃ r, s₂.running 0 = some r ∧ ∃ b, r.point = .closeReceiver 1 b := by
      cases hs
      cases hstart
      cases hsender
      exact ⟨_, rfl, _, rfl⟩
    have hreceivers : s₂.shared.receivers 1 = none := by
      cases hs
      cases hstart
      cases hsender
      rfl
    obtain ⟨r, hr, b, hpoint⟩ := hown
    intro r' hr'
    obtain rfl := Option.some.inj (hr.symm.trans hr')
    rw [hpoint]
    refine ⟨?_, fun c ch hc => ?_⟩
    · rintro ⟨u, r', hr', huse⟩
      have hu : u = 0 := by
        by_contra hne
        rw [hidle u hne] at hr'
        cases hr'
      rw [hu, hr] at hr'
      cases hr'
      rcases huse with ⟨_, _, hp⟩ | ⟨_, _, hp⟩
      · exact absurd (hpoint.symm.trans hp) (by simp)
      · exact absurd (hpoint.symm.trans hp) (by simp)
    · rw [hreceivers] at hc
      cases hc

theorem closing_idle : ∃ s, code.run start (relay ++ closing) = some s ∧
    ∀ u, s.running u = none := by
  refine ⟨_, rfl, fun u => ?_⟩
  match u with
  | 0 => rfl
  | 1 => rfl
  | u + 2 => rfl

theorem relay_meets : ∃ s, code.run start (relay ++ closing ++ lateReceive) = some s ∧
    Meets s := by
  obtain ⟨s, hs, -⟩ := Option.map_eq_some_iff.mp relay_log
  refine ⟨s, hs, (meets_run hs).2.2 ?_⟩
  refine Threads.Code.guarded_append ?_ fun s' hs' => @guarded_of_alone _ _ 0 _ ?_ ?_
  · exact Threads.Code.guarded_append relay_guarded fun _ => closing_guarded
  · intro u call hmem
    simp only [lateReceive, List.mem_cons, Label.call.injEq, reduceCtorEq, List.not_mem_nil,
      or_false] at hmem
    obtain ⟨rfl, rfl⟩ := hmem
    rfl
  · obtain ⟨s'', hs'', hidle⟩ := closing_idle
    obtain rfl := Option.some.inj (hs''.symm.trans hs')
    intro u r hr
    rw [hidle u] at hr
    cases hr

/-! ## Two receives on one handle -/

/-- Thread 1 waits on the receiver 2, which nobody closes; thread 2 receives on it too. -/
def contend : List (Label (Call Nat) Bool) :=
  [.call 0 .new, .act 0 false, .act 0 false, .act 0 false, .act 0 false,
    .call 1 (.recv (.int 2)), .act 1 false, .call 2 (.recv (.int 2)), .act 2 false]

theorem contend_log : (code.run start contend).map (fun s => s.log) =
    some [⟨0, .new, 0, .handles 1 2⟩,
      ⟨2, .recv (.int 2), 1, .error (.invalidReceiver .recv 2)⟩] := rfl

/-- A receive does not find the receiver that another thread waits on. -/
theorem not_meets : ¬ ∀ (ls : List (Label (Call Nat) Bool)) s, code.run start ls = some s →
    Meets s := by
  intro h
  obtain ⟨s, hs, hlog⟩ := Option.map_eq_some_iff.mp contend_log
  have hcalls : Threads.Code.Calls (fun call => ∀ handle, call ≠ .close handle) s := by
    refine Threads.Code.calls_run ⟨fun u r hr => (by cases hr), fun e he => (by cases he)⟩ ?_ hs
    intro u call hmem handle heq
    simp [contend, heq] at hmem
  have hfinds := (h contend s hs).finds 1 ⟨2, .recv (.int 2), 1, .error (.invalidReceiver .recv 2)⟩
    (by rw [hlog]; rfl) ⟨0, .new, 0, .handles 1 2⟩ (by simp [hlog]) 1 2 rfl rfl .recv rfl
  rcases hfinds with ⟨e, he, hclose, -⟩ | ⟨u, r, hr, hclose, -⟩
  · exact hcalls.2 e he _ hclose
  · exact hcalls.1 u r hr _ hclose

end Airl.Channels.Vm
