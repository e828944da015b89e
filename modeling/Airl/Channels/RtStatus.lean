import Airl.Channels.RtLedger

/-! # Closed handles

A close takes a handle out of its table and then marks it as closed; an operation looks
at the marks and then at the table. So an operation that begins after a close answered
`true` reports the channel as closed. One that looks at the table while a close is
between its two steps, or began before it, finds neither mark nor entry.
-/

namespace Airl.Channels.Rt

open Threads (Running)
open Threads.State (entries)

variable {V : Type} {s : State V} {σ σ' : Shared V} {t u : Nat} {c : Int} {p : Point V}
  {next : Point V ⊕ Reply V} {r : Running (Point V) (Call V)}

/-- `h` is the sender of a channel and is not in the table. -/
def GoneTx (σ : Shared V) (h : Int) : Prop := σ.channels h ≠ none ∧ σ.senders h = none

/-- `h` is a receiver that a close removed. -/
def GoneRx (σ : Shared V) (h : Int) : Prop :=
  ∃ c ch, σ.channels c = some ch ∧ ch.rx = h ∧ (σ.arcs c).removed = true

def Gone (σ : Shared V) (h : Int) : Prop := GoneTx σ h ∨ GoneRx σ h

theorem dropRef_closedHandles {ch : Channel V} {owner : Option Nat} :
    (σ.dropRef c ch owner).closedHandles = σ.closedHandles := by
  rw [Shared.dropRef]
  dsimp only
  split <;> rfl

theorem acts_senders (hacts : Acts σ t p σ' next) {n d : Int} (h : σ'.senders n = some d) :
    σ.senders n = some d ∨ ∃ rx, p.making = some (.insertTx n rx) := by
  cases hacts with
  | quiet hq => exact Or.inl h
  | mark n => exact Or.inl h
  | make hmake =>
    exact (Store.senders_make hmake h).imp_right fun ⟨rx, heq⟩ => ⟨rx, congrArg some heq⟩
  | made hmake =>
    exact (Store.senders_make hmake h).imp_right fun ⟨rx, heq⟩ => ⟨rx, congrArg some heq⟩
  | clone k hc => exact Or.inl h
  | acquire hlock hfree => exact Or.inl h
  | release hunlock => exact Or.inl h
  | push hc hch => exact Or.inl h
  | pop hch hqueue hg => exact Or.inl h
  | dropRef hch => exact Or.inl (dropRef_tables.1 ▸ h)
  | closeSender hc hch => exact Or.inl (Store.update_none_of_some h)
  | closeReceiver hc => exact Or.inl h
  | discard hch => exact Or.inl h
  | closeDrop hch => exact Or.inl (dropRef_tables.1 ▸ h)

section

variable {making : Nat → Option Making} (hh : σ.Handles making) (hm : making t = p.making)
  (hacts : Acts σ t p σ' next) {h : Int}

include hh hm hacts

theorem goneTx_acts (hgone : GoneTx σ h) : GoneTx σ' h := by
  obtain ⟨hch, hnone⟩ := hgone
  obtain ⟨ch, hch⟩ := Option.ne_none_iff_exists'.mp hch
  obtain ⟨ch', hch', -⟩ := acts_channels hh hm hacts hch
  refine ⟨by simp [hch'], ?_⟩
  cases hs : σ'.senders h with
  | none => rfl
  | some d =>
    rcases acts_senders hacts hs with hold | ⟨rx, hp⟩
    · rw [hnone] at hold
      cases hold
    · have hunused := hh.pending t _ (hm.trans hp) h (by simp [Making.pending])
      rw [hunused.1] at hch
      cases hch

theorem goneRx_acts (hgone : GoneRx σ h) : GoneRx σ' h := by
  obtain ⟨c, ch, hch, hrx, hremoved⟩ := hgone
  obtain ⟨ch', hch', hrx'⟩ := acts_channels hh hm hacts hch
  exact ⟨c, ch', hch', hrx'.trans hrx, acts_removed_mono hacts hremoved⟩

theorem gone_acts (hgone : Gone σ h) : Gone σ' h :=
  hgone.imp (goneTx_acts hh hm hacts) (goneRx_acts hh hm hacts)

end

theorem gone_none {making : Nat → Option Making} (hh : σ.Handles making)
    (hremoved : Removed σ making) {h : Int} (hgone : Gone σ h) :
    σ.senders h = none ∧ σ.receivers h = none := by
  constructor
  · cases hs : σ.senders h with
    | none => rfl
    | some d =>
      obtain ⟨-, ch, hch⟩ := hh.senders h d hs
      rcases hgone with ⟨-, hnone⟩ | ⟨c, ch', hch', hrx, -⟩
      · rw [hnone] at hs
        cases hs
      · exact absurd hrx (hh.apart h ch c ch' hch hch')
  · cases hr : σ.receivers h with
    | none => rfl
    | some d =>
      obtain ⟨dh, hdh, hdrx⟩ := hh.receivers h d hr
      rcases hgone with ⟨hch, -⟩ | ⟨c, ch', hch', hrx, hc⟩
      · obtain ⟨ch, hch⟩ := Option.ne_none_iff_exists'.mp hch
        exact absurd hdrx (hh.apart h ch d dh hch hdh)
      · obtain ⟨dh', hdh', hnone, -⟩ := hremoved c hc
        rw [hch'] at hdh'
        cases hdh'
        rw [hrx, hr] at hnone
        cases hnone

/-- The handle that a close has taken out of its table and not marked. -/
def Point.closing : Point V → Option Int
  | .closeReceiver h true => some h
  | .closeLock h _ | .closeDrain h _ | .closeUnlock h _ | .closeDrop h _ | .closeMark h => some h
  | _ => none

/-- A close of `h` stands between its two steps. -/
def Closing (s : State V) (h : Int) : Prop :=
  ∃ u r, s.running u = some r ∧ r.point.closing = some h

/-- The marks, the closes in progress and the handles that left their table. -/
structure Marks (s : State V) : Prop where
  marked : ∀ h, s.shared.closedHandles h = true → Gone s.shared h
  closing : ∀ u r h, s.running u = some r → r.point.closing = some h → Gone s.shared h
  gone : ∀ h, Gone s.shared h → s.shared.closedHandles h = true ∨ Closing s h

theorem Opens.closing (h : Opens p) : p.closing = none := by
  cases h with
  | _ => rfl

theorem acts_channels_back (hacts : Acts σ t p σ' next) {d : Int} {dh : Channel V}
    (hd : σ.channels d = none) (hd' : σ'.channels d = some dh) :
    σ'.senders d = some d ∧ next = .inl (.new (.insertRx d dh.rx)) := by
  have hsame : σ'.channels d ≠ σ.channels d := by
    rw [hd, hd']
    exact fun heq => nomatch heq
  have hset : ∀ {c ch ch'}, σ.channels c = some ch →
      (σ.setChannel c ch').channels d = σ.channels d := by
    intro c ch ch' hch
    have hne : d ≠ c := by
      rintro rfl
      rw [hd] at hch
      cases hch
    simp [Shared.setChannel, Store.setChannel, hne]
  have hdropRef : ∀ {c ch owner}, σ.channels c = some ch →
      (σ.dropRef c ch owner).channels d = σ.channels d := by
    intro c ch owner hch
    rcases dropRef_store σ c ch owner with heq | heq
    · rw [heq]
    · rw [heq]
      exact hset hch
  cases hacts with
  | @make m m' store hmake =>
    cases m with
    | insertTx tx rx =>
      cases hmake
      by_cases heq : d = tx
      · subst heq
        simp only [Store.setChannel, Function.update_self, Option.some.injEq] at hd'
        subst hd'
        exact ⟨by simp, rfl⟩
      · exact absurd (by simp [Store.setChannel, heq]) hsame
    | _ =>
      cases hmake
      try exact absurd rfl hsame
  | @made m _ _ store hmake =>
    cases m with
    | insertRx tx rx =>
      cases hmake
      exact absurd rfl hsame
    | _ => cases hmake
  | push hc hch => exact absurd (hset hch) hsame
  | pop hch hqueue hg => exact absurd (hset hch) hsame
  | dropRef hch => exact absurd (hdropRef hch) hsame
  | closeSender hc hch => exact absurd (hset hch) hsame
  | discard hch => exact absurd (hset hch) hsame
  | closeDrop hch => exact absurd (hdropRef hch) hsame
  | _ => exact absurd rfl hsame

theorem acts_senders_back (hacts : Acts σ t p σ' next) {n d : Int} (h : σ.senders n = some d)
    (h' : σ'.senders n = none) :
    p = .closeSender n ∧ next = .inl (.closeReceiver n true) := by
  have hsame : σ'.senders ≠ σ.senders := by
    intro heq
    rw [heq, h] at h'
    cases h'
  have hmakes : ∀ {m store after}, σ.make m = (store, after) → store.senders n ≠ none := by
    intro m store after hmake
    cases m with
    | insertTx tx rx =>
      cases hmake
      by_cases heq : n = tx
      · simp [heq]
      · simp [Function.update_of_ne heq, h]
    | _ =>
      cases hmake
      simp [h]
  cases hacts with
  | make hmake => exact absurd h' (hmakes hmake)
  | made hmake => exact absurd h' (hmakes hmake)
  | dropRef hch => exact absurd dropRef_tables.1 hsame
  | @closeSender m c ch hc hch =>
    by_cases heq : n = m
    · exact ⟨heq ▸ rfl, heq ▸ rfl⟩
    · simp only [Function.update_of_ne heq] at h'
      rw [h] at h'
      cases h'
  | closeDrop hch => exact absurd dropRef_tables.1 hsame
  | _ => exact absurd rfl hsame

theorem goneTx_back (hacts : Acts σ t p σ' next) {h : Int} (hgone : GoneTx σ' h) :
    GoneTx σ h ∨ p = .closeSender h ∧ next = .inl (.closeReceiver h true) := by
  obtain ⟨hch', hnone⟩ := hgone
  by_cases hch : σ.channels h = none
  · obtain ⟨ch', hch'⟩ := Option.ne_none_iff_exists'.mp hch'
    rw [(acts_channels_back hacts hch hch').1] at hnone
    cases hnone
  · cases hs : σ.senders h with
    | none => exact Or.inl ⟨hch, hs⟩
    | some d => exact Or.inr (acts_senders_back hacts hs hnone)

theorem goneRx_back {making : Nat → Option Making} (hh : σ.Handles making)
    (hremoved : Removed σ making) (hm : making t = p.making) (hacts : Acts σ t p σ' next)
    {h : Int} (hgone : GoneRx σ' h) :
    GoneRx σ h ∨ (∃ removedTx, p = .closeReceiver h removedTx) ∧
      ∃ c, next = .inl (.closeLock h c) := by
  obtain ⟨c, ch', hch', hrx, hc⟩ := hgone
  have hback : ∀ {dh}, σ.channels c = some dh → dh.rx = h := by
    intro dh hdh
    obtain ⟨dh', hdh', hdrx⟩ := acts_channels hh hm hacts hdh
    rw [hch'] at hdh'
    cases hdh'
    exact hdrx.symm.trans hrx
  rcases acts_removed hacts c with hsame | ⟨-, n, hn, -, -, hp, hnext⟩
  · obtain ⟨dh, hdh, -⟩ := hremoved c (hsame ▸ hc)
    exact Or.inl ⟨c, dh, hdh, hback hdh, hsame ▸ hc⟩
  · obtain ⟨dh, hdh, hdrx⟩ := hh.receivers n c hn
    have hnh : n = h := hdrx.symm.trans (hback hdh)
    exact Or.inr ⟨hnh ▸ hp, c, hnh ▸ hnext⟩

/-- A handle that an action takes out of its table is then closing. -/
theorem gone_back {making : Nat → Option Making} (hh : σ.Handles making)
    (hremoved : Removed σ making) (hm : making t = p.making) (hacts : Acts σ t p σ' next)
    {h : Int} (hgone : Gone σ' h) :
    Gone σ h ∨ ∃ q, next = .inl q ∧ q.closing = some h := by
  rcases hgone with htx | hrx
  · rcases goneTx_back hacts htx with hold | ⟨-, hnext⟩
    · exact Or.inl (Or.inl hold)
    · exact Or.inr ⟨_, hnext, rfl⟩
  · rcases goneRx_back hh hremoved hm hacts hrx with hold | ⟨-, c, hnext⟩
    · exact Or.inl (Or.inr hold)
    · exact Or.inr ⟨_, hnext, rfl⟩

theorem acts_closedHandles (hacts : Acts σ t p σ' next) {h : Int}
    (hclosed : σ'.closedHandles h = true) :
    σ.closedHandles h = true ∨ p = .closeMark h := by
  cases hacts with
  | mark n =>
    by_cases heq : h = n
    · exact Or.inr (heq ▸ rfl)
    · exact Or.inl (by simpa [Function.update_of_ne heq] using hclosed)
  | dropRef hch => exact Or.inl (dropRef_closedHandles ▸ hclosed)
  | closeDrop hch => exact Or.inl (dropRef_closedHandles ▸ hclosed)
  | _ => exact Or.inl hclosed

theorem acts_closed_mono (hacts : Acts σ t p σ' next) {h : Int}
    (hclosed : σ.closedHandles h = true) : σ'.closedHandles h = true := by
  cases hacts with
  | mark n =>
    by_cases heq : h = n
    · simp [heq]
    · simpa [Function.update_of_ne heq] using hclosed
  | dropRef hch =>
    rw [dropRef_closedHandles]
    exact hclosed
  | closeDrop hch =>
    dsimp only
    rw [dropRef_closedHandles]
    exact hclosed
  | _ => exact hclosed

theorem closing_acts (hacts : Acts σ t p σ' next) {h : Int} (hp : p.closing = some h) :
    σ'.closedHandles h = true ∨ ∃ q, next = .inl q ∧ q.closing = some h := by
  cases hacts with
  | quiet hq =>
    cases hq with
    | noReceiver hnone => exact Or.inr ⟨_, rfl, hp⟩
    | emptied n c => exact Or.inr ⟨_, rfl, hp⟩
    | _ => cases hp
  | mark n =>
    cases hp
    exact Or.inl (by simp)
  | acquire hlock hfree =>
    cases hlock with
    | take k => cases hp
    | close n => exact Or.inr ⟨_, rfl, hp⟩
  | release hunlock =>
    cases hunlock with
    | take => cases hp
    | close n => exact Or.inr ⟨_, rfl, hp⟩
  | @closeReceiver n c removedTx hc =>
    cases removedTx with
    | true => exact Or.inr ⟨_, rfl, hp⟩
    | false => cases hp
  | discard hch => exact Or.inr ⟨_, rfl, hp⟩
  | closeDrop hch => exact Or.inr ⟨_, rfl, hp⟩
  | _ => cases hp

theorem gone_closing {making : Nat → Option Making} (hh : σ.Handles making)
    (hm : making t = p.making) (hacts : Acts σ t p σ' next) {q : Point V} {h : Int}
    (hnext : next = .inl q) (hq : q.closing = some h)
    (hold : p.closing = some h → Gone σ h) : Gone σ' h := by
  have hstay : p.closing = some h → Gone σ' h := fun hp => gone_acts hh hm hacts (hold hp)
  have hall := hacts
  cases hacts with
  | quiet hquiet =>
    cases hnext
    cases hquiet with
    | noReceiver hnone => exact hstay hq
    | emptied n c => exact hstay hq
    | _ => cases hq
  | acquire hlock hfree =>
    cases hnext
    cases hlock with
    | take k => cases hq
    | close n => exact hstay hq
  | release hunlock =>
    cases hnext
    cases hunlock with
    | take => cases hq
    | close n => exact hstay hq
  | pop hch hqueue hg =>
    cases hnext
    cases hg with
    | _ => cases hq
  | @closeSender n c ch hc hch =>
    cases hnext
    cases hq
    obtain ⟨rfl, -⟩ := hh.senders h c hc
    exact Or.inl ⟨by simp [Shared.setChannel, Store.setChannel], by simp⟩
  | @closeReceiver n c removedTx hc =>
    cases hnext
    cases hq
    obtain ⟨ch, hch, hrx⟩ := hh.receivers h c hc
    exact Or.inr ⟨c, ch, hch, hrx, by simp [Shared.setArc]⟩
  | discard hch =>
    cases hnext
    exact hstay hq
  | closeDrop hch =>
    cases hnext
    exact hstay hq
  | _ =>
    cases hnext
    try cases hq

theorem marks_start : Marks (start : State V) where
  marked h hclosed := by cases hclosed
  closing u r h hr := by cases hr
  gone h hgone := by
    rcases hgone with ⟨hch, -⟩ | ⟨c, ch, hch, -⟩
    · exact absurd rfl hch
    · cases hch

theorem marks_steps {l : Threads.Label (Call V) Bool} {s' : State V} (hinv : Inv s) (hm : Marks s)
    (hstep : code.Steps s l s') : Marks s' := by
  cases hstep with
  | @start t call hidle =>
    refine ⟨hm.marked, fun u r h hr hclosing => ?_, fun h hgone => ?_⟩
    · rcases Threads.Code.running_start hr with ⟨-, hold⟩ | ⟨-, rfl⟩
      · exact hm.closing u r h hold hclosing
      · exact absurd hclosing (by simp [code, (enter_opens call).closing])
    · refine (hm.gone h hgone).imp_right ?_
      rintro ⟨u, r, hr, hclosing⟩
      have hu : u ≠ t := by
        rintro rfl
        rw [hidle] at hr
        cases hr
      exact ⟨u, r, by simpa [Threads.State.start, hu] using hr, hclosing⟩
  | @act t r choice σ' next hr hact =>
    have hacts := acts_of_act hact
    have hmaking := making_running hr
    have hgoing : ∀ {q h}, next = .inl q → q.closing = some h →
        Closing (s.advance t r σ' next) h := by
      rintro q h rfl hq
      exact ⟨t, { r with point := q }, by simp [Threads.State.advance, Threads.State.after], hq⟩
    refine ⟨fun h hclosed => ?_, fun u r' h hr' hclosing => ?_, fun h hgone => ?_⟩
    · rcases acts_closedHandles hacts hclosed with hold | hp
      · exact gone_acts hinv.handles hmaking hacts (hm.marked h hold)
      · exact gone_acts hinv.handles hmaking hacts (hm.closing t r h hr (hp ▸ rfl))
    · rcases Threads.Code.running_advance hr' with ⟨-, hold⟩ | ⟨q, -, hnext, rfl⟩
      · exact gone_acts hinv.handles hmaking hacts (hm.closing u r' h hold hclosing)
      · exact gone_closing hinv.handles hmaking hacts hnext hclosing (hm.closing t r h hr)
    · rcases gone_back hinv.handles hinv.removed hmaking hacts hgone with hold | ⟨q, hnext, hq⟩
      · rcases hm.gone h hold with hclosed | ⟨u, r', hr', hclosing⟩
        · exact Or.inl (acts_closed_mono hacts hclosed)
        · by_cases hu : u = t
          · subst hu
            rw [hr] at hr'
            cases hr'
            rcases closing_acts hacts hclosing with hclosed | ⟨q, hnext, hq⟩
            · exact Or.inl hclosed
            · exact Or.inr (hgoing hnext hq)
          · exact Or.inr ⟨u, r', by simpa [Threads.State.advance, hu] using hr', hclosing⟩
      · exact Or.inr (hgoing hnext hq)

/-- Among the first `n` calls that returned, a close of `h` answered `true`. -/
def ClosedBefore (log : List (Entry V)) (n : Nat) (h : Int) : Prop :=
  ∃ d ∈ log.take n, d.call = .close (.int h) ∧ d.reply = .closed true

/-- An operation answers that its handle was closed. -/
def ReportsClosed (call : Call V) (reply : Reply V) : Prop :=
  match call with
  | .new => False
  | .send _ _ => reply = .error .closedSender
  | .close _ => reply = .closed false
  | call => ∃ k, call.taking = some k ∧ reply = .error (.closedReceiver k)

/-- Where an operation can stand that began after its handle was closed. -/
inductive Late : Point V → Prop
  | send (h : Int) (v : V) : Late (.sendCheck h v)
  | take (k : Taking) (h : Int) : Late (.check k h)
  | close (h : Int) : Late (.closeSender h)
  | closed (h : Int) : Late (.closeReceiver h false)

theorem Opens.late {call : Call V} {h : Int} (hp : Opens p) (hfits : Fits σ call p)
    (hhandle : call.handle = some h) : Late p := by
  cases hp with
  | refuse f =>
    rw [show call.handle = none from hfits] at hhandle
    cases hhandle
  | notClosed =>
    rw [show call.handle = none from hfits] at hhandle
    cases hhandle
  | new =>
    rw [show call = .new from hfits] at hhandle
    cases hhandle
  | send h v => exact .send h v
  | take k h => exact .take k h
  | close h => exact .close h

theorem late_acts {call : Call V} {h : Int} (hp : Late p) (hfits : Fits σ call p)
    (hhandle : call.handle = some h) (hclosed : σ.closedHandles h = true)
    (hsender : σ.senders h = none) (hreceiver : σ.receivers h = none)
    (hacts : Acts σ t p σ' next) :
    (∃ q, next = .inl q ∧ Late q) ∨ ∃ reply, next = .inr reply ∧ ReportsClosed call reply := by
  cases hp with
  | send n v =>
    rw [show call = .send (.int n) v from hfits] at hhandle ⊢
    cases hhandle
    cases hacts with
    | quiet hq =>
      cases hq with
      | sendClosed => exact Or.inr ⟨_, rfl, rfl⟩
      | sendOpen hopen =>
        rw [hclosed] at hopen
        cases hopen
    | acquire hlock => cases hlock
    | release hunlock => cases hunlock
  | take k n =>
    rw [hfits.2] at hhandle
    cases hhandle
    cases hacts with
    | quiet hq =>
      cases hq with
      | takeClosed =>
        refine Or.inr ⟨_, rfl, ?_⟩
        have hk := hfits.1
        cases call with
        | recv rx => exact ⟨k, hk, rfl⟩
        | recvTimeout rx ms => exact ⟨k, hk, rfl⟩
        | drain rx => exact ⟨k, hk, rfl⟩
        | _ => cases hk
      | takeOpen hopen =>
        rw [hclosed] at hopen
        cases hopen
    | acquire hlock => cases hlock
    | release hunlock => cases hunlock
  | close n =>
    rw [show call = .close (.int n) from hfits] at hhandle
    cases hhandle
    cases hacts with
    | quiet hq =>
      cases hq with
      | noSender hnone => exact Or.inl ⟨_, rfl, .closed h⟩
    | closeSender hc hch =>
      rw [hsender] at hc
      cases hc
    | acquire hlock => cases hlock
    | release hunlock => cases hunlock
  | closed n =>
    rw [show call = .close (.int n) from hfits] at hhandle ⊢
    cases hhandle
    cases hacts with
    | quiet hq =>
      cases hq with
      | nothing hnone => exact Or.inr ⟨_, rfl, rfl⟩
    | closeReceiver hc =>
      rw [hreceiver] at hc
      cases hc
    | acquire hlock => cases hlock
    | release hunlock => cases hunlock

/-- What the calls that began after a close answer, and where they stand. -/
structure AfterClose (s : State V) : Prop where
  logged : ∀ e ∈ s.log, ∀ h, e.call = .close (.int h) → e.reply = .closed true →
    s.shared.closedHandles h = true
  standing : ∀ u r h, s.running u = some r → r.call.handle = some h →
    ClosedBefore s.log r.began h → Late r.point
  answered : ∀ e ∈ s.log, ∀ h, e.call.handle = some h → ClosedBefore s.log e.began h →
    ReportsClosed e.call e.reply

theorem afterClose_start : AfterClose (start : State V) where
  logged e he := by cases he
  standing u r h hr := by cases hr
  answered e he := by cases he

theorem acts_closed_true {call : Call V} (hfits : Fits σ call p)
    (hacts : Acts σ t p σ' (.inr (.closed true))) :
    ∃ n, call = .close (.int n) ∧ σ'.closedHandles n = true := by
  cases hacts with
  | quiet hq => cases hq
  | mark n => exact ⟨n, hfits, by simp⟩
  | dropRef hch => exact False.elim hfits.2

theorem afterClose_steps {l : Threads.Label (Call V) Bool} {s' : State V} (hinv : Inv s)
    (hm : Marks s) (htimely : Threads.Code.Timely s) (ha : AfterClose s)
    (hstep : code.Steps s l s') : AfterClose s' := by
  cases hstep with
  | @start t call hidle =>
    refine ⟨ha.logged, fun u r h hr hhandle hbefore => ?_, ha.answered⟩
    rcases Threads.Code.running_start hr with ⟨-, hold⟩ | ⟨-, rfl⟩
    · exact ha.standing u r h hold hhandle hbefore
    · exact (enter_opens call).late (fits_enter (σ := s.shared) call) hhandle
  | @act t r choice σ' next hr hact =>
    have hacts := acts_of_act hact
    have hfits := hinv.fits t r hr
    have hbefore : ∀ {n h}, n ≤ s.log.length →
        ClosedBefore (s.log ++ entries t r next) n h → ClosedBefore s.log n h := by
      rintro n h hn ⟨d, hd, hcall⟩
      rw [Threads.Code.take_append hn] at hd
      exact ⟨d, hd, hcall⟩
    -- the thread itself, when it began after a close of its handle
    have hlate : ∀ {h}, r.call.handle = some h → ClosedBefore s.log r.began h →
        (∃ q, next = .inl q ∧ Late q) ∨
          ∃ reply, next = .inr reply ∧ ReportsClosed r.call reply := by
      intro h hhandle hclosedBefore
      have hp := ha.standing t r h hr hhandle hclosedBefore
      obtain ⟨d, hd, hcall, hreply⟩ := hclosedBefore
      have hclosed := ha.logged d (List.mem_of_mem_take hd) h hcall hreply
      obtain ⟨hsender, hreceiver⟩ := gone_none hinv.handles hinv.removed (hm.marked h hclosed)
      exact late_acts hp hfits hhandle hclosed hsender hreceiver hacts
    refine ⟨fun e he h hcall hreply => ?_, fun u r' h hr' hhandle hclosed => ?_,
      fun e he h hhandle hclosed => ?_⟩
    · rcases List.mem_append.mp he with hold | hnew
      · exact acts_closed_mono hacts (ha.logged e hold h hcall hreply)
      · obtain ⟨reply, rfl, rfl⟩ := Threads.Code.mem_entries hnew
        cases hreply
        obtain ⟨n, hn, hclosed⟩ := acts_closed_true hfits hacts
        rw [show r.call = .close (.int h) from hcall] at hn
        cases hn
        exact hclosed
    · rcases Threads.Code.running_advance hr' with ⟨-, hold⟩ | ⟨q, -, hnext, rfl⟩
      · exact ha.standing u r' h hold hhandle (hbefore (htimely.running u r' hold) hclosed)
      · rcases hlate hhandle (hbefore (htimely.running t r hr) hclosed) with
          ⟨q', hq', hlateq⟩ | ⟨reply, hreply, -⟩
        · rw [hnext] at hq'
          cases hq'
          exact hlateq
        · rw [hnext] at hreply
          cases hreply
    · rcases List.mem_append.mp he with hold | hnew
      · exact ha.answered e hold h hhandle (hbefore (htimely.log e hold) hclosed)
      · obtain ⟨reply, hnext, rfl⟩ := Threads.Code.mem_entries hnew
        rcases hlate hhandle (hbefore (htimely.running t r hr) hclosed) with
          ⟨q, hq, -⟩ | ⟨reply', hreply', hreports⟩
        · rw [hnext] at hq
          cases hq
        · rw [hnext] at hreply'
          cases hreply'
          exact hreports

end Airl.Channels.Rt
