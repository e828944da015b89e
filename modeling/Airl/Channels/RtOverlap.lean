import Airl.Channels.RtStatus

/-! # Operations that overlap a close

No operation finds an open handle invalid, as long as no operation looks at the marks
while a close of its handle is between its two steps, and no close takes a handle out
of its table while an operation is between its look at the marks and its look at the
table. In other runs one can.
-/

namespace Airl.Channels.Rt

open Threads (Running Label)
open Threads.State (entries)

variable {V : Type} {s : State V} {σ σ' : Shared V} {t u : Nat} {c : Int} {p : Point V}
  {next : Point V ⊕ Reply V} {r : Running (Point V) (Call V)}

/-- Receivers are in their table from their insertion to their removal. -/
structure Presence (s : State V) : Prop where
  present : ∀ c ch, s.shared.channels c = some ch → (s.shared.arcs c).removed = false →
    s.shared.receivers ch.rx = some c ∨ ∃ u, making s u = some (.insertRx c ch.rx)
  made : ∀ e ∈ s.log, ∀ tx rx, e.reply = .handles tx rx →
    ∃ ch, s.shared.channels tx = some ch ∧ ch.rx = rx ∧ ∀ u rx', making s u ≠
      some (.insertRx tx rx')

theorem presence_start : Presence (start : State V) where
  present c ch hch := by cases hch
  made e he := by cases he

theorem acts_receivers_back {making : Nat → Option Making} (hh : σ.Handles making)
    (hm : making t = p.making) (hacts : Acts σ t p σ' next) {n d : Int}
    (h : σ.receivers n = some d) (hkept : (σ'.arcs d).removed = false) :
    σ'.receivers n = some d := by
  cases hacts with
  | make hmake => exact hh.receivers_make_back hm hmake h
  | made hmake => exact hh.receivers_make_back hm hmake h
  | dropRef hch =>
    rw [dropRef_tables.2]
    exact h
  | @closeReceiver m c removedTx hc =>
    have hne : n ≠ m := by
      rintro rfl
      rw [h] at hc
      cases hc
      simp [Shared.setArc] at hkept
    simp [Function.update_of_ne hne, h]
  | closeDrop hch =>
    dsimp only
    rw [dropRef_tables.2]
    exact h
  | _ => exact h

theorem acts_handles {call : Call V} {tx rx : Int} (hfits : Fits σ call p)
    (hacts : Acts σ t p σ' (.inr (.handles tx rx))) : p.making = some (.insertRx tx rx) := by
  cases hacts with
  | quiet hq => cases hq
  | @made m _ _ store hmake =>
    cases m with
    | insertRx tx' rx' =>
      cases hmake
      rfl
    | _ => cases hmake
  | dropRef hch => exact False.elim hfits.2

theorem acts_insertRx {d rx : Int} (hp : p.making = some (.insertRx d rx))
    (hacts : Acts σ t p σ' next) : σ'.receivers rx = some d := by
  cases hacts with
  | @make m m' store hmake =>
    cases hp
    cases hmake
  | @made m _ _ store hmake =>
    cases hp
    cases hmake
    simp
  | quiet hq =>
    cases hq with
    | _ => cases hp
  | acquire hlock =>
    cases hlock with
    | _ => cases hp
  | release hunlock =>
    cases hunlock with
    | _ => cases hp
  | _ => cases hp

theorem presence_steps {l : Label (Call V) Bool} {s' : State V} (hinv : Inv s) (hp : Presence s)
    (hstep : code.Steps s l s') : Presence s' := by
  cases hstep with
  | @start t call hidle =>
    have hmaking : ∀ u c rx, making (s.start code t call) u = some (.insertRx c rx) ↔
        making s u = some (.insertRx c rx) := by
      intro u c rx
      by_cases hu : u = t
      · subst hu
        have hold := making_idle hidle
        rcases (enter_opens call).making with heq | heq
        · simp [making_start, heq, hold]
        · simp [making_start, heq, hold]
      · simp [making_start, hu]
    refine ⟨fun c ch hch hkept => ?_, fun e he tx rx hreply => ?_⟩
    · simp only [hmaking]
      exact hp.present c ch hch hkept
    · simp only [ne_eq, hmaking]
      exact hp.made e he tx rx hreply
  | @act t r choice σ' next hr hact =>
    have hacts := acts_of_act hact
    have hmaking := making_running hr
    refine ⟨fun c ch' hch' hkept => ?_, fun e he tx rx hreply => ?_⟩
    · have hkeptOld : (s.shared.arcs c).removed = false := by
        by_contra hremoved
        have hremoved' := acts_removed_mono hacts (by simpa using hremoved)
        exact absurd (hremoved'.symm.trans hkept) (by simp)
      rw [making_advance]
      -- A new channel is one that this call makes; an old one keeps its receiver.
      cases hch : s.shared.channels c with
      | none =>
        obtain ⟨-, rfl⟩ := acts_channels_back hacts hch hch'
        exact Or.inr ⟨t, Function.update_self t _ _⟩
      | some ch =>
        obtain ⟨ch'', hch'', hrx⟩ := acts_channels hinv.handles hmaking hacts hch
        rw [show σ'.channels c = some ch' from hch'] at hch''
        cases hch''
        rw [hrx]
        rcases hp.present c ch hch hkeptOld with hin | ⟨u, hu⟩
        · exact Or.inl (acts_receivers_back hinv.handles hmaking hacts hin hkept)
        · by_cases heq : u = t
          · subst heq
            exact Or.inl (acts_insertRx (hmaking ▸ hu) hacts)
          · exact Or.inr ⟨u, by simp [heq, hu]⟩
    · rw [making_advance]
      rcases List.mem_append.mp he with hold | hnew
      · obtain ⟨ch, hch, hrx, hidle⟩ := hp.made e hold tx rx hreply
        obtain ⟨ch', hch', hrx'⟩ := acts_channels hinv.handles hmaking hacts hch
        exact ⟨ch', hch', hrx'.trans hrx, fun u rx' hu =>
          hidle u rx' (insertRx_acts hinv.handles hmaking hacts hch hu).1⟩
      · obtain ⟨reply, rfl, rfl⟩ := Threads.Code.mem_entries hnew
        cases hreply
        have hm := hmaking.trans (acts_handles (hinv.fits t r hr) hacts)
        obtain ⟨ch, hch, hrx, -⟩ := hinv.handles.inserting t tx rx hm
        obtain ⟨ch', hch', hrx'⟩ := acts_channels hinv.handles hmaking hacts hch
        refine ⟨ch', hch', hrx'.trans hrx, fun u rx' hu => ?_⟩
        obtain ⟨hold, hne⟩ := insertRx_acts hinv.handles hmaking hacts hch hu
        exact hne (hinv.handles.drawn_apart u _ t _ hold hm tx (by simp [Making.drawn])
          (by simp [Making.drawn]))

/-- The steps that keep closes and operations on one handle apart. -/
def Apart (s : State V) : Label (Call V) Bool → Prop
  | .call _ _ => True
  | .act t _ => ∀ r, s.running t = some r →
    match r.point with
    | .sendCheck h _ | .check _ h => ¬ Closing s h
    | .closeSender h => ∀ u r' v, s.running u = some r' → r'.point ≠ .sendLookup h v
    | .closeReceiver h _ => ∀ u r' k, s.running u = some r' → r'.point ≠ .lookup k h
    | _ => True

/-- Whoever is about to look into a table did not come too late. -/
structure Lookups (s : State V) : Prop where
  sends : ∀ u r h v, s.running u = some r → r.point = .sendLookup h v → ¬ GoneTx s.shared h
  takes : ∀ u r k h, s.running u = some r → r.point = .lookup k h → ¬ GoneRx s.shared h

theorem lookups_start : Lookups (start : State V) where
  sends u r h v hr := by cases hr
  takes u r k h hr := by cases hr

theorem acts_sendLookup_from {h : Int} {v : V} (hacts : Acts σ t p σ' (.inl (.sendLookup h v))) :
    p = .sendCheck h v ∧ σ.closedHandles h = false ∧ σ' = σ := by
  cases hacts with
  | quiet hq =>
    cases hq with
    | sendOpen hopen => exact ⟨rfl, hopen, rfl⟩
  | acquire hlock => cases hlock
  | release hunlock => cases hunlock
  | pop hch hqueue hg => cases hg

theorem acts_lookup_from {k : Taking} {h : Int} (hacts : Acts σ t p σ' (.inl (.lookup k h))) :
    p = .check k h ∧ σ.closedHandles h = false ∧ σ' = σ := by
  cases hacts with
  | quiet hq =>
    cases hq with
    | takeOpen hopen => exact ⟨rfl, hopen, rfl⟩
  | acquire hlock => cases hlock
  | release hunlock => cases hunlock
  | pop hch hqueue hg => cases hg

theorem lookups_steps {l : Label (Call V) Bool} {s' : State V} (hinv : Inv s) (hm : Marks s)
    (hl : Lookups s) (hapart : Apart s l) (hstep : code.Steps s l s') : Lookups s' := by
  cases hstep with
  | @start t call hidle =>
    refine ⟨fun u r h v hr hp => ?_, fun u r k h hr hp => ?_⟩
    · rcases Threads.Code.running_start hr with ⟨-, hold⟩ | ⟨-, rfl⟩
      · exact hl.sends u r h v hold hp
      · have hopens := enter_opens call
        rw [show enter call = .sendLookup h v from hp] at hopens
        cases hopens
    · rcases Threads.Code.running_start hr with ⟨-, hold⟩ | ⟨-, rfl⟩
      · exact hl.takes u r k h hold hp
      · have hopens := enter_opens call
        rw [show enter call = .lookup k h from hp] at hopens
        cases hopens
  | @act t r choice σ' next hr hact =>
    have hacts := acts_of_act hact
    have hmaking := making_running hr
    have hguard := hapart r hr
    refine ⟨fun u r' h v hr' hp hgone => ?_, fun u r' k h hr' hp hgone => ?_⟩
    · rcases Threads.Code.running_advance hr' with ⟨-, hold⟩ | ⟨q, -, rfl, rfl⟩
      · rcases goneTx_back hacts hgone with hgone | ⟨hclose, -⟩
        · exact hl.sends u r' h v hold hp hgone
        · rw [hclose] at hguard
          exact hguard u r' v hold hp
      · rw [show q = .sendLookup h v from hp] at hacts
        obtain ⟨hcheck, hopen, rfl⟩ := acts_sendLookup_from hacts
        rw [hcheck] at hguard
        rcases hm.gone h (Or.inl hgone) with hclosed | hclosing
        · rw [hclosed] at hopen
          cases hopen
        · exact hguard hclosing
    · rcases Threads.Code.running_advance hr' with ⟨-, hold⟩ | ⟨q, -, rfl, rfl⟩
      · rcases goneRx_back hinv.handles hinv.removed hmaking hacts hgone with
          hgone | ⟨⟨removedTx, hclose⟩, -⟩
        · exact hl.takes u r' k h hold hp hgone
        · rw [hclose] at hguard
          exact hguard u r' k hold hp
      · rw [show q = .lookup k h from hp] at hacts
        obtain ⟨hcheck, hopen, rfl⟩ := acts_lookup_from hacts
        rw [hcheck] at hguard
        rcases hm.gone h (Or.inr hgone) with hclosed | hclosing
        · rw [hclosed] at hopen
          cases hopen
        · exact hguard hclosing

/-- Operations on handles that were returned before they began. -/
def FindsHandles (s : State V) : Prop :=
  ∀ e ∈ s.log, ∀ m ∈ s.log.take e.began, ∀ tx rx, m.reply = .handles tx rx →
    (∀ v, e.call = .send (.int tx) v → e.reply ≠ .error (.invalidSender tx)) ∧
      (e.call.handle = some rx → ∀ k, e.reply ≠ .error (.invalidReceiver k rx))

theorem acts_invalidSender {call : Call V} {h n : Int} (hfits : Fits σ call p)
    (hhandle : call.handle = some n)
    (hacts : Acts σ t p σ' (.inr (.error (.invalidSender h)))) :
    (∃ v, p = .sendLookup h v) ∧ σ.senders h = none := by
  cases hacts with
  | quiet hq =>
    cases hq with
    | refuse =>
      rw [show call.handle = none from hfits] at hhandle
      cases hhandle
    | sendInvalid hnone => exact ⟨⟨_, rfl⟩, hnone⟩
  | dropRef hch =>
    rcases hfits.2 with heq | heq
    · cases heq
    · cases heq

theorem acts_invalidReceiver {call : Call V} {k : Taking} {h n : Int} (hfits : Fits σ call p)
    (hhandle : call.handle = some n)
    (hacts : Acts σ t p σ' (.inr (.error (.invalidReceiver k h)))) :
    p = .lookup k h ∧ σ.receivers h = none := by
  cases hacts with
  | quiet hq =>
    cases hq with
    | refuse =>
      rw [show call.handle = none from hfits] at hhandle
      cases hhandle
    | takeInvalid hnone => exact ⟨rfl, hnone⟩
  | dropRef hch =>
    rcases hfits.2 with heq | heq
    · cases heq
    · cases heq

/-- A handle that was returned and is in no table has left it. -/
theorem goneTx_of_made (hp : Presence s) {m : Entry V} {tx rx : Int} (hm : m ∈ s.log)
    (hreply : m.reply = .handles tx rx) (hnone : s.shared.senders tx = none) :
    GoneTx s.shared tx := by
  obtain ⟨ch, hch, -⟩ := hp.made m hm tx rx hreply
  exact ⟨by simp [hch], hnone⟩

theorem goneRx_of_made (hp : Presence s) {m : Entry V} {tx rx : Int} (hm : m ∈ s.log)
    (hreply : m.reply = .handles tx rx) (hnone : s.shared.receivers rx = none) :
    GoneRx s.shared rx := by
  obtain ⟨ch, hch, rfl, hidle⟩ := hp.made m hm tx rx hreply
  cases hremoved : (s.shared.arcs tx).removed with
  | true => exact ⟨tx, ch, hch, rfl, hremoved⟩
  | false =>
    rcases hp.present tx ch hch hremoved with hin | ⟨u, hu⟩
    · rw [hnone] at hin
      cases hin
    · exact absurd hu (hidle u ch.rx)

theorem findsHandles_steps {l : Label (Call V) Bool} {s' : State V} (hinv : Inv s)
    (hp : Presence s) (hl : Lookups s) (htimely : Threads.Code.Timely s) (hf : FindsHandles s)
    (hstep : code.Steps s l s') : FindsHandles s' := by
  cases hstep with
  | start hidle => exact hf
  | @act t r choice σ' next hr hact =>
    have hacts := acts_of_act hact
    have hfits := hinv.fits t r hr
    intro e he m hm tx rx hreply
    rcases List.mem_append.mp he with hold | hnew
    · rw [show (s.advance t r σ' next).log = s.log ++ entries t r next from rfl,
        Threads.Code.take_append (htimely.log e hold)] at hm
      exact hf e hold m hm tx rx hreply
    · obtain ⟨reply, rfl, rfl⟩ := Threads.Code.mem_entries hnew
      rw [show (s.advance t r σ' (.inr reply)).log = s.log ++ entries t r (.inr reply) from rfl,
        Threads.Code.take_append (htimely.running t r hr)] at hm
      have hmade := List.mem_of_mem_take hm
      refine ⟨fun v hcall heq => ?_, fun hhandle k heq => ?_⟩
      · rw [show reply = .error (.invalidSender tx) from heq] at hacts
        have hhandle : r.call.handle = some tx := by
          rw [show r.call = .send (.int tx) v from hcall]
          rfl
        obtain ⟨⟨w, hpoint⟩, hnone⟩ := acts_invalidSender hfits hhandle hacts
        exact hl.sends t r tx w hr hpoint (goneTx_of_made hp hmade hreply hnone)
      · rw [show reply = .error (.invalidReceiver k rx) from heq] at hacts
        obtain ⟨hpoint, hnone⟩ := acts_invalidReceiver hfits hhandle hacts
        exact hl.takes t r k rx hr hpoint (goneRx_of_made hp hmade hreply hnone)

/-- What the channel of `tx` and `rx` has delivered. -/
structure Delivers (s : State V) (tx rx : Int) (ch : Channel V) : Prop where
  channel : s.shared.channels tx = some ch
  /-- A received value went to one call of one thread, in the order in which it received. -/
  threads : ∀ u, deliveredTo u rx s.log ++ inHand s u tx = ch.takenBy u
  /-- Values are received at most once and in the order in which they were sent. -/
  order : (ch.taken.map Prod.snd).Sublist (sentOn tx s.log)
  /-- Nothing is lost while the receiver is open. -/
  kept : s.shared.receivers rx = some tx →
    ch.taken.map Prod.snd ++ ch.queue = sentOn tx s.log

theorem delivers (hinv : Inv s) (hp : Presence s) {e : Entry V} {tx rx : Int} (he : e ∈ s.log)
    (hreply : e.reply = .handles tx rx) : ∃ ch, Delivers s tx rx ch := by
  obtain ⟨ch, hch, rfl, -⟩ := hp.made e he tx rx hreply
  refine ⟨ch, hch, fun u => hinv.ledger.hands tx ch u hch, ?_, fun hopen => ?_⟩
  · exact (List.sublist_append_left _ _).trans (hinv.ledger.order tx ch hch)
  · refine hinv.ledger.kept tx ch hch fun hlost => ?_
    obtain ⟨ch', hch', hnone, -⟩ := hinv.removed tx hlost
    rw [hch] at hch'
    cases hch'
    rw [hnone] at hopen
    cases hopen

/-- An operation that begins after a close of its handle answered `true` reports it. -/
def ReportsCloses (s : State V) : Prop :=
  ∀ e ∈ s.log, ∀ h, e.call.handle = some h → ClosedBefore s.log e.began h →
    ReportsClosed e.call e.reply

/-- What every state has that a run reaches. -/
structure Sound (s : State V) : Prop where
  inv : Inv s
  marks : Marks s
  timely : Threads.Code.Timely s
  afterClose : AfterClose s
  presence : Presence s

theorem sound_start : Sound (start : State V) where
  inv := inv_start
  marks := marks_start
  timely := Threads.Code.timely_initial _
  afterClose := afterClose_start
  presence := presence_start

theorem sound_steps {l : Label (Call V) Bool} {s' : State V} (h : Sound s)
    (hstep : code.Steps s l s') : Sound s' where
  inv := inv_steps h.inv hstep
  marks := marks_steps h.inv h.marks hstep
  timely := Threads.Code.timely_steps h.timely hstep
  afterClose := afterClose_steps h.inv h.marks h.timely h.afterClose hstep
  presence := presence_steps h.inv h.presence hstep

theorem sound_run {ls : List (Label (Call V) Bool)} (hrun : code.run start ls = some s) : Sound s :=
  Threads.Code.run_invariant (fun h _ hstep => sound_steps h hstep) sound_start
    (Threads.Code.guarded_true ls) hrun

theorem findsHandles_run {ls : List (Label (Call V) Bool)}
    (hguard : code.Guarded Apart start ls) (hrun : code.run start ls = some s) :
    FindsHandles s := by
  have hstart : Sound (start : State V) ∧ Lookups (start : State V) ∧
      FindsHandles (start : State V) :=
    ⟨sound_start, lookups_start, fun e he => by cases he⟩
  have hstep : ∀ {s : State V} {l s'}, Sound s ∧ Lookups s ∧ FindsHandles s → Apart s l →
      code.Steps s l s' → Sound s' ∧ Lookups s' ∧ FindsHandles s' := by
    rintro s l s' ⟨h, hl, hf⟩ hapart hstep
    exact ⟨sound_steps h hstep, lookups_steps h.inv h.marks hl hapart hstep,
      findsHandles_steps h.inv h.presence hl h.timely hf hstep⟩
  exact (Threads.Code.run_invariant hstep hstart hguard hrun).2.2

/-- Deliveries and reports of closes are right in every run of any number of threads, and
open handles are found in every run that keeps closes apart from other operations. -/
theorem channels_run {ls : List (Label (Call V) Bool)} {s : State V}
    (hrun : code.run start ls = some s) :
    (∀ e ∈ s.log, ∀ tx rx, e.reply = .handles tx rx → ∃ ch, Delivers s tx rx ch) ∧
      ReportsCloses s ∧ (code.Guarded Apart start ls → FindsHandles s) := by
  have hsound := sound_run hrun
  exact ⟨fun e he tx rx hreply => delivers hsound.inv hsound.presence he hreply,
    hsound.afterClose.answered, fun hguard => findsHandles_run hguard hrun⟩

def Point.closes : Point V → Bool
  | .closeSender _ | .closeReceiver _ _ | .closeLock _ _ | .closeDrain _ _ | .closeUnlock _ _
  | .closeDrop _ _ | .closeMark _ => true
  | _ => false

theorem closes_of_closing {h : Int} (hp : p.closing = some h) : p.closes = true := by
  cases p with
  | closeReceiver n removedTx => rfl
  | closeLock n c => rfl
  | closeDrain n c => rfl
  | closeUnlock n c => rfl
  | closeDrop n c => rfl
  | closeMark n => rfl
  | _ => cases hp

theorem acts_closes {q : Point V} (hacts : Acts σ t p σ' (.inl q)) (hp : p.closes = false) :
    q.closes = false := by
  cases hacts with
  | quiet hq =>
    cases hq with
    | noSender hnone => cases hp
    | noReceiver hnone => cases hp
    | emptied n c => cases hp
    | _ => rfl
  | make hmake => rfl
  | clone k hc => rfl
  | acquire hlock hfree =>
    cases hlock with
    | take k => rfl
    | close n => cases hp
  | release hunlock =>
    cases hunlock with
    | take => rfl
    | close n => cases hp
  | pop hch hqueue hg =>
    cases hg with
    | _ => rfl
  | _ => cases hp

theorem opens_closes {call : Call V} (h : Opens p) (hfits : Fits σ call p)
    (hcall : ∀ handle, call ≠ .close handle) : p.closes = false := by
  cases h with
  | close n => exact absurd hfits (hcall (.int n))
  | _ => rfl

theorem guarded_of_no_close {ls : List (Label (Call V) Bool)}
    (hcalls : ∀ t handle, Label.call t (.close handle) ∉ ls)
    (hs : ∀ u r, s.running u = some r → r.point.closes = false) : code.Guarded Apart s ls := by
  induction ls generalizing s with
  | nil => trivial
  | cons l ls ih =>
    have hidle : ∀ h, ¬ Closing s h := by
      rintro h ⟨u, r, hr, hclosing⟩
      exact absurd ((closes_of_closing hclosing).symm.trans (hs u r hr)) (by simp)
    have hapart : Apart s l := by
      cases l with
      | call t call => trivial
      | act t choice =>
        intro r hr
        have hr := hs t r hr
        cases hp : r.point with
        | sendCheck h v => exact hidle h
        | check k h => exact hidle h
        | closeSender h =>
          rw [hp] at hr
          cases hr
        | closeReceiver h removedTx =>
          rw [hp] at hr
          cases hr
        | _ => trivial
    refine ⟨hapart, fun s' hstep => ih (fun t handle hmem => hcalls t handle (.tail l hmem)) ?_⟩
    cases Threads.Code.step_cases hstep with
    | @start t call _ =>
      intro u r hr
      rcases Threads.Code.running_start hr with ⟨-, hold⟩ | ⟨-, rfl⟩
      · exact hs u r hold
      · refine opens_closes (enter_opens call) (fits_enter (σ := s.shared) call) ?_
        rintro handle rfl
        exact hcalls t handle (.head ls)
    | act hr hact =>
      intro u r' hr'
      rcases Threads.Code.running_advance hr' with ⟨-, hold⟩ | ⟨q, -, rfl, rfl⟩
      · exact hs u r' hold
      · exact acts_closes (acts_of_act hact) (hs _ _ hr)

/-- A thread keeps apart from itself. -/
theorem guarded_of_sole {t : Nat} {ls : List (Label (Call V) Bool)}
    (hlabels : ∀ l ∈ ls, l.thread = t) (hidle : ∀ u, u ≠ t → s.running u = none) :
    code.Guarded Apart s ls := by
  induction ls generalizing s with
  | nil => trivial
  | cons l ls ih =>
    obtain ⟨rfl, hrest⟩ := List.forall_mem_cons.mp hlabels
    have hsole : ∀ {r u r'}, s.running l.thread = some r → s.running u = some r' → r' = r := by
      intro r u r' hr hr'
      by_cases hu : u = l.thread
      · rw [hu, hr] at hr'
        exact (Option.some.inj hr').symm
      · rw [hidle u hu] at hr'
        cases hr'
    have hapart : Apart s l := by
      cases l with
      | call t call => trivial
      | act t choice =>
        intro r hr
        cases hp : r.point with
        | sendCheck h v | check k h =>
          rintro ⟨u, r', hr', hclosing⟩
          rw [hsole hr hr', hp] at hclosing
          cases hclosing
        | closeSender h =>
          intro u r' v hr' hp'
          rw [hsole hr hr', hp] at hp'
          cases hp'
        | closeReceiver h removedTx =>
          intro u r' k hr' hp'
          rw [hsole hr hr', hp] at hp'
          cases hp'
        | _ => trivial
    refine ⟨hapart, fun s' hstep => ih hrest fun u hu => ?_⟩
    rw [Threads.Code.running_of_step hstep hu, hidle u hu]

/-- One thread makes a channel, another sends on it, and the first receives. -/
def exchange : List (Label (Call Nat) Bool) :=
  [.call 0 .new, .act 0 false, .act 0 false, .act 0 false, .act 0 false,
    .call 0 (.recv (.int 2)), .act 0 false, .act 0 false, .act 0 false,
    .call 1 (.send (.int 1) 7), .act 1 false, .act 1 false,
    .act 0 false, .act 0 false, .act 0 false]

/-- The first thread closes the sender, and learns of it from the receiver. -/
def closing : List (Label (Call Nat) Bool) :=
  [.call 0 (.close (.int 1)), .act 0 false, .act 0 false, .act 0 false,
    .call 0 (.recv (.int 2)), .act 0 false, .act 0 false, .act 0 false, .act 0 false,
    .act 0 false, .act 0 false]

theorem exchange_idle :
    ∃ s, code.run start exchange = some s ∧ ∀ u, s.running u = none := by
  refine ⟨_, rfl, fun u => ?_⟩
  match u with
  | 0 => rfl
  | 1 => rfl
  | u + 2 => rfl

theorem closing_log : (code.run start (exchange ++ closing)).map (fun s => s.log) =
    some [⟨0, .new, 0, .handles 1 2⟩, ⟨1, .send (.int 1) 7, 1, .sent⟩,
      ⟨0, .recv (.int 2), 1, .received 7⟩, ⟨0, .close (.int 1), 3, .closed true⟩,
      ⟨0, .recv (.int 2), 4, .error .disconnected⟩] := rfl

/-- The exchange is guarded because nobody closes, the rest because nobody else runs. -/
theorem closing_guarded : code.Guarded Apart start (exchange ++ closing) := by
  refine Threads.Code.guarded_append (guarded_of_no_close (by simp [exchange]) ?_) ?_
  · intro u r hr
    cases hr
  · intro s hs
    obtain ⟨s', hs', hidle⟩ := exchange_idle
    obtain rfl := Option.some.inj (hs'.symm.trans hs)
    have hlabels : ∀ l ∈ closing, l.thread = 0 := by decide
    exact guarded_of_sole hlabels fun u _ => hidle u

theorem exchange_run : ∃ s, code.run start (exchange ++ closing) = some s ∧
    (∃ ch, Delivers s 1 2 ch) ∧ ReportsCloses s ∧ FindsHandles s := by
  obtain ⟨s, hs, hlog⟩ := Option.map_eq_some_iff.mp closing_log
  obtain ⟨hdelivers, hreports, hfinds⟩ := channels_run hs
  refine ⟨s, hs, ?_, hreports, hfinds closing_guarded⟩
  exact hdelivers ⟨0, .new, 0, .handles 1 2⟩ (by simp [hlog]) 1 2 rfl

/-- Thread 0 closes the sender 1. Before it marks it, thread 1 learns from the receiver 2
that the channel is closed, and then sends on 1. -/
def lateSend : List (Label (Call Nat) Bool) :=
  [.call 0 .new, .act 0 false, .act 0 false, .act 0 false, .act 0 false,
    .call 0 (.close (.int 1)), .act 0 false,
    .call 1 (.recv (.int 2)), .act 1 false, .act 1 false, .act 1 false, .act 1 false,
    .act 1 false, .act 1 false,
    .call 1 (.send (.int 1) 7), .act 1 false, .act 1 false]

theorem lateSend_log : (code.run start lateSend).map (fun s => s.log) =
    some [⟨0, .new, 0, .handles 1 2⟩, ⟨1, .recv (.int 2), 1, .error .disconnected⟩,
      ⟨1, .send (.int 1) 7, 2, .error (.invalidSender 1)⟩] := rfl

theorem not_findsHandles : ¬ ∀ (ls : List (Label (Call Nat) Bool)) s,
    code.run start ls = some s →
      (∀ e ∈ s.log, ∀ tx rx, e.reply = .handles tx rx → ∃ ch, Delivers s tx rx ch) ∧
        ReportsCloses s ∧ FindsHandles s := by
  intro h
  obtain ⟨s, hs, hlog⟩ := Option.map_eq_some_iff.mp lateSend_log
  have hfinds := (h lateSend s hs).2.2
  have hsend := (hfinds ⟨1, .send (.int 1) 7, 2, .error (.invalidSender 1)⟩ (by simp [hlog])
    ⟨0, .new, 0, .handles 1 2⟩ (by simp [hlog]) 1 2 rfl).1 7 rfl
  exact hsend rfl

end Airl.Channels.Rt
