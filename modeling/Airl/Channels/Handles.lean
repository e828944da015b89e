import Airl.Channels.Store

/-! # Who goes by which handle

A drawn handle belongs to one channel, or to the one call of `channel-new` that drew
it. The invariant is about the tables alone, so both implementations have it: it
follows `channel-new` action by action, and every other step only has to keep the
channels' handles and to add nothing to the tables.
-/

namespace Airl.Channels

variable {V : Type}

/-- The handles that are drawn and belong to no channel yet. -/
def Making.pending : Making → List Int
  | .drawTx | .insertRx _ _ => []
  | .drawRx tx => [tx]
  | .insertTx tx rx => [tx, rx]

theorem Making.pending_subset (m : Making) {n : Int} (h : n ∈ m.pending) : n ∈ m.drawn := by
  cases m with
  | drawTx => exact h
  | drawRx tx => exact h
  | insertTx tx rx => exact h
  | insertRx tx rx => simp [pending] at h

namespace Store

/-- No channel goes by `n`. -/
def Unused (σ : Store V) (n : Int) : Prop :=
  σ.channels n = none ∧ ∀ c ch, σ.channels c = some ch → ch.rx ≠ n

/-- The handles of the channels and of the calls of `channel-new` in progress are all
different, and the tables are right about them. -/
structure Handles (σ : Store V) (making : Nat → Option Making) : Prop where
  below : ∀ c ch, σ.channels c = some ch → c < σ.nextHandle ∧ ch.rx < σ.nextHandle
  apart : ∀ c ch d dh, σ.channels c = some ch → σ.channels d = some dh → dh.rx ≠ c
  rx_inj : ∀ c ch d dh, σ.channels c = some ch → σ.channels d = some dh → ch.rx = dh.rx → c = d
  senders : ∀ h c, σ.senders h = some c → c = h ∧ ∃ ch, σ.channels h = some ch
  receivers : ∀ h c, σ.receivers h = some c → ∃ ch, σ.channels c = some ch ∧ ch.rx = h
  drawn_below : ∀ t m, making t = some m → ∀ n ∈ m.drawn, n < σ.nextHandle
  drawn_apart : ∀ t m u m', making t = some m → making u = some m' → ∀ n ∈ m.drawn,
    n ∈ m'.drawn → t = u
  drawn_ne : ∀ t tx rx, making t = some (.insertTx tx rx) → tx ≠ rx
  pending : ∀ t m, making t = some m → ∀ n ∈ m.pending, σ.Unused n
  inserting : ∀ t tx rx, making t = some (.insertRx tx rx) →
    ∃ ch, σ.channels tx = some ch ∧ ch.rx = rx ∧ σ.receivers rx = none

theorem Handles.initial : Handles (Store.initial : Store V) (fun _ => none) := by
  constructor <;> simp [Store.initial]

theorem update_eq_some {making : Nat → Option Making} {t u : Nat} {m : Option Making}
    {m' : Making} :
    Function.update making t m u = some m' ↔
      (u = t ∧ m = some m') ∨ (u ≠ t ∧ making u = some m') := by
  by_cases h : u = t
  · subst h
    simp
  · simp [h]

variable {σ σ' : Store V} {making : Nat → Option Making} {t : Nat} {tx rx : Int}

theorem Handles.leave (h : Handles σ making) (t : Nat) :
    Handles σ (Function.update making t none) := by
  have hold : ∀ {u m}, Function.update making t none u = some m → making u = some m := by
    intro u m hu
    simpa using (update_eq_some.mp hu).resolve_left (by simp) |>.2
  exact
    { h with
      drawn_below := fun u m hu => h.drawn_below u m (hold hu)
      drawn_apart := fun u m v m' hu hv => h.drawn_apart u m v m' (hold hu) (hold hv)
      drawn_ne := fun u tx rx hu => h.drawn_ne u tx rx (hold hu)
      pending := fun u m hu => h.pending u m (hold hu)
      inserting := fun u tx rx hu => h.inserting u tx rx (hold hu) }

theorem Handles.draw (h : Handles σ making) {m : Making} (ns : List Int) {k : Int} (hk : 0 ≤ k)
    (hns : ∀ n ∈ ns, n < σ.nextHandle ∧ σ.Unused n ∧ ∀ u m', making u = some m' →
      n ∈ m'.drawn → t = u)
    (hdrawn : ∀ n ∈ m.drawn, n ∈ ns ∨ (n = σ.nextHandle ∧ k = 1)) (hpending : m.pending = m.drawn)
    (hne : ∀ tx rx, m = .insertTx tx rx → tx ≠ rx) :
    Handles { σ with nextHandle := σ.nextHandle + k } (Function.update making t (some m)) := by
  have hnext : σ.Unused σ.nextHandle := by
    constructor
    · cases hc : σ.channels σ.nextHandle with
      | none => rfl
      | some ch => exact absurd (h.below _ ch hc).1 (Int.lt_irrefl _)
    · intro c ch hc heq
      exact absurd (h.below c ch hc).2 (heq ▸ Int.lt_irrefl _)
  -- what is drawn by `t` is drawn by nobody else and unused
  have hmine : ∀ n ∈ m.drawn, n < σ.nextHandle + k ∧ σ.Unused n ∧
      ∀ u m', making u = some m' → n ∈ m'.drawn → t = u := by
    intro n hn
    rcases hdrawn n hn with hold | ⟨rfl, rfl⟩
    · obtain ⟨hlt, hunused, hother⟩ := hns n hold
      exact ⟨by omega, hunused, hother⟩
    · refine ⟨by omega, hnext, fun u m' hu hn' => ?_⟩
      exact absurd (h.drawn_below u m' hu _ hn') (Int.lt_irrefl _)
  exact
    { h with
      below := by
        intro c ch hc
        have := h.below c ch hc
        dsimp only
        omega
      drawn_below := by
        intro u m' hu n hn
        dsimp only
        rcases update_eq_some.mp hu with ⟨-, hm⟩ | ⟨-, hold⟩
        · cases hm
          exact (hmine n hn).1
        · have := h.drawn_below u m' hold n hn
          omega
      drawn_apart := by
        intro u m' v m'' hu hv n hn hn'
        rcases update_eq_some.mp hu with ⟨rfl, hm⟩ | ⟨-, hold⟩
        · rcases update_eq_some.mp hv with ⟨rfl, -⟩ | ⟨-, hold'⟩
          · rfl
          · cases hm
            exact (hmine n hn).2.2 v m'' hold' hn'
        · rcases update_eq_some.mp hv with ⟨rfl, hm⟩ | ⟨-, hold'⟩
          · cases hm
            exact ((hmine n hn').2.2 u m' hold hn).symm
          · exact h.drawn_apart u m' v m'' hold hold' n hn hn'
      drawn_ne := by
        intro u tx rx hu
        rcases update_eq_some.mp hu with ⟨-, hm⟩ | ⟨-, hold⟩
        · exact hne tx rx (Option.some.inj hm)
        · exact h.drawn_ne u tx rx hold
      pending := by
        intro u m' hu n hn
        rcases update_eq_some.mp hu with ⟨-, hm⟩ | ⟨-, hold⟩
        · cases hm
          exact (hmine n (hpending ▸ hn)).2.1
        · exact h.pending u m' hold n hn
      inserting := by
        intro u tx rx hu
        rcases update_eq_some.mp hu with ⟨-, hm⟩ | ⟨-, hold⟩
        · cases hm
          simp [Making.pending, Making.drawn] at hpending
        · exact h.inserting u tx rx hold }

theorem Handles.begin (h : Handles σ making) (t : Nat) :
    Handles σ (Function.update making t (some .drawTx)) := by
  have := h.draw (m := .drawTx) (t := t) (k := 0) [] (Int.le_refl 0) (by simp)
    (by simp [Making.drawn]) rfl (by simp)
  simpa using this

theorem Handles.drawTx (h : Handles σ making) (t : Nat) :
    Handles { σ with nextHandle := σ.nextHandle + 1 }
      (Function.update making t (some (.drawRx σ.nextHandle))) :=
  h.draw [] (by decide) (by simp) (by simp [Making.drawn]) rfl (by simp)

theorem Handles.drawRx (h : Handles σ making) (ht : making t = some (.drawRx tx)) :
    Handles { σ with nextHandle := σ.nextHandle + 1 }
      (Function.update making t (some (.insertTx tx σ.nextHandle))) := by
  have hlt : tx < σ.nextHandle := h.drawn_below t _ ht tx (by simp [Making.drawn])
  refine h.draw [tx] (by decide) ?_ (by simp [Making.drawn]) rfl ?_
  · intro n hn
    rw [List.mem_singleton] at hn
    subst hn
    exact ⟨hlt, h.pending t _ ht n (by simp [Making.pending]),
      fun u m' hu hn' => h.drawn_apart t _ u m' ht hu n (by simp [Making.drawn]) hn'⟩
  · intro tx' rx' heq
    cases heq
    omega

/-- The new channel goes by the two handles that were drawn for it. -/
theorem Handles.insertTx (h : Handles σ making) (ht : making t = some (.insertTx tx rx)) :
    Handles
      { σ.setChannel tx (Channel.fresh rx) with
        senders := Function.update σ.senders tx (some tx) }
      (Function.update making t (some (.insertRx tx rx))) := by
  have htx : σ.Unused tx := h.pending t _ ht tx (by simp [Making.pending])
  have hrx : σ.Unused rx := h.pending t _ ht rx (by simp [Making.pending])
  have hne : tx ≠ rx := h.drawn_ne t tx rx ht
  have hdrawn : ∀ u m, u ≠ t → making u = some m → ∀ n ∈ m.drawn, n ≠ tx ∧ n ≠ rx := by
    intro u m hu hm n hn
    constructor
    · rintro rfl
      exact hu (h.drawn_apart u m t _ hm ht n hn (by simp [Making.drawn]))
    · rintro rfl
      exact hu (h.drawn_apart u m t _ hm ht n hn (by simp [Making.drawn]))
  -- a channel is the new one or an old one, which uses neither handle
  have hcases : ∀ c ch, (σ.setChannel tx (Channel.fresh rx)).channels c = some ch →
      (c = tx ∧ ch.rx = rx) ∨ (σ.channels c = some ch ∧ c ≠ tx ∧ c ≠ rx ∧ ch.rx ≠ tx ∧
        ch.rx ≠ rx) := by
    intro c ch hc
    by_cases heq : c = tx
    · subst heq
      simp only [setChannel, Function.update_self, Option.some.injEq] at hc
      exact Or.inl ⟨rfl, hc ▸ rfl⟩
    · simp only [setChannel, Function.update_of_ne heq] at hc
      refine Or.inr ⟨hc, heq, ?_, htx.2 c ch hc, hrx.2 c ch hc⟩
      rintro rfl
      rw [hrx.1] at hc
      cases hc
  have hold : ∀ c ch, σ.channels c = some ch →
      (σ.setChannel tx (Channel.fresh rx)).channels c = some ch := by
    intro c ch hc
    have heq : c ≠ tx := by
      rintro rfl
      rw [htx.1] at hc
      cases hc
    simp only [setChannel, Function.update_of_ne heq, hc]
  exact
    { below := by
        intro c ch hc
        rcases hcases c ch hc with ⟨rfl, hch⟩ | ⟨hc, -⟩
        · rw [hch]
          exact ⟨h.drawn_below t _ ht c (by simp [Making.drawn]),
            h.drawn_below t _ ht rx (by simp [Making.drawn])⟩
        · exact h.below c ch hc
      apart := by
        intro c ch d dh hc hd
        rcases hcases c ch hc with ⟨rfl, -⟩ | ⟨hc, -, hcrx, -⟩
        · rcases hcases d dh hd with ⟨rfl, hdh⟩ | ⟨-, -, -, hdtx, -⟩
          · exact hdh ▸ hne.symm
          · exact hdtx
        · rcases hcases d dh hd with ⟨rfl, hdh⟩ | ⟨hd, -⟩
          · exact hdh ▸ hcrx.symm
          · exact h.apart c ch d dh hc hd
      rx_inj := by
        intro c ch d dh hc hd heq
        rcases hcases c ch hc with ⟨rfl, hch⟩ | ⟨hc, -, -, -, hcrx⟩
        · rcases hcases d dh hd with ⟨rfl, -⟩ | ⟨-, -, -, -, hdrx⟩
          · rfl
          · exact absurd (heq.symm.trans hch) hdrx
        · rcases hcases d dh hd with ⟨rfl, hdh⟩ | ⟨hd, -⟩
          · exact absurd (heq.trans hdh) hcrx
          · exact h.rx_inj c ch d dh hc hd heq
      senders := by
        intro n c hn
        by_cases heq : n = tx
        · subst heq
          simp only [Function.update_self, Option.some.injEq] at hn
          exact ⟨hn.symm, Channel.fresh rx, by simp [setChannel]⟩
        · simp only [Function.update_of_ne heq] at hn
          obtain ⟨hc, ch, hch⟩ := h.senders n c hn
          exact ⟨hc, ch, hold n ch hch⟩
      receivers := by
        intro n c hn
        obtain ⟨ch, hch, hrx⟩ := h.receivers n c hn
        exact ⟨ch, hold c ch hch, hrx⟩
      drawn_below := by
        intro u m hu n hn
        rcases update_eq_some.mp hu with ⟨-, hm⟩ | ⟨-, hu⟩
        · cases hm
          exact h.drawn_below t _ ht n hn
        · exact h.drawn_below u m hu n hn
      drawn_apart := by
        intro u m v m' hu hv n hn hn'
        rcases update_eq_some.mp hu with ⟨rfl, hm⟩ | ⟨hut, hold⟩
        · rcases update_eq_some.mp hv with ⟨rfl, -⟩ | ⟨-, hold'⟩
          · rfl
          · cases hm
            exact h.drawn_apart u _ v m' ht hold' n hn hn'
        · rcases update_eq_some.mp hv with ⟨rfl, hm⟩ | ⟨-, hold'⟩
          · cases hm
            exact h.drawn_apart u m v _ hold ht n hn hn'
          · exact h.drawn_apart u m v m' hold hold' n hn hn'
      drawn_ne := by
        intro u tx' rx' hu
        rcases update_eq_some.mp hu with ⟨-, hm⟩ | ⟨-, hu⟩
        · cases hm
        · exact h.drawn_ne u tx' rx' hu
      pending := by
        intro u m hu n hn
        rcases update_eq_some.mp hu with ⟨-, hm⟩ | ⟨hut, hu⟩
        · cases hm
          simp [Making.pending] at hn
        · obtain ⟨hnone, hunused⟩ := h.pending u m hu n hn
          obtain ⟨hntx, hnrx⟩ := hdrawn u m hut hu n (Making.pending_subset m hn)
          refine ⟨by simp only [setChannel, Function.update_of_ne hntx, hnone], ?_⟩
          intro c ch hc
          rcases hcases c ch hc with ⟨-, hch⟩ | ⟨hc, -⟩
          · exact hch ▸ hnrx.symm
          · exact hunused c ch hc
      inserting := by
        intro u tx' rx' hu
        rcases update_eq_some.mp hu with ⟨-, hm⟩ | ⟨-, hu⟩
        · cases hm
          refine ⟨Channel.fresh rx, by simp [setChannel], rfl, ?_⟩
          cases hr : σ.receivers rx with
          | none => exact hr
          | some c =>
            obtain ⟨ch, hch, heq⟩ := h.receivers rx c hr
            exact absurd heq (hrx.2 c ch hch)
        · obtain ⟨ch, hch, heq, hnone⟩ := h.inserting u tx' rx' hu
          exact ⟨ch, hold tx' ch hch, heq, hnone⟩ }

theorem Handles.insertRx (h : Handles σ making) (ht : making t = some (.insertRx tx rx)) :
    Handles { σ with receivers := Function.update σ.receivers rx (some tx) }
      (Function.update making t none) := by
  obtain ⟨ch, hch, hrx, -⟩ := h.inserting t tx rx ht
  have hidle := h.leave t
  exact
    { hidle with
      receivers := by
        intro n c hn
        by_cases heq : n = rx
        · subst heq
          simp only [Function.update_self, Option.some.injEq] at hn
          exact ⟨ch, hn ▸ hch, hrx⟩
        · simp only [Function.update_of_ne heq] at hn
          exact h.receivers n c hn
      inserting := by
        intro u tx' rx' hu
        obtain ⟨ch', hch', hrx', hnone⟩ := hidle.inserting u tx' rx' hu
        refine ⟨ch', hch', hrx', ?_⟩
        have hne : rx' ≠ rx := by
          rintro rfl
          rcases update_eq_some.mp hu with ⟨-, hm⟩ | ⟨hut, hu⟩
          · cases hm
          · exact hut (h.drawn_apart u _ t _ hu ht rx' (by simp [Making.drawn])
              (by simp [Making.drawn]))
        simp only [Function.update_of_ne hne, hnone] }

/-- A step that makes no channel: the channels keep their handles, and the tables lose
entries. -/
theorem Handles.frame (h : Handles σ making) (hnext : σ'.nextHandle = σ.nextHandle)
    (hshape : ∀ c, (σ'.channels c).map Channel.rx = (σ.channels c).map Channel.rx)
    (hsenders : ∀ n c, σ'.senders n = some c → σ.senders n = some c)
    (hreceivers : ∀ n c, σ'.receivers n = some c → σ.receivers n = some c) :
    Handles σ' making := by
  have hback : ∀ {c ch'}, σ'.channels c = some ch' →
      ∃ ch, σ.channels c = some ch ∧ ch.rx = ch'.rx := by
    intro c ch' hc
    have hc' := hshape c
    rw [hc, Option.map_some] at hc'
    exact Option.map_eq_some_iff.mp hc'.symm
  have hforth : ∀ {c ch}, σ.channels c = some ch →
      ∃ ch', σ'.channels c = some ch' ∧ ch'.rx = ch.rx := by
    intro c ch hc
    have hc' := hshape c
    rw [hc, Option.map_some] at hc'
    exact Option.map_eq_some_iff.mp hc'
  exact
    { below := by
        intro c ch' hc
        obtain ⟨ch, hc, hrx⟩ := hback hc
        rw [hnext, ← hrx]
        exact h.below c ch hc
      apart := by
        intro c ch' d dh' hc hd
        obtain ⟨ch, hc, -⟩ := hback hc
        obtain ⟨dh, hd, hrx⟩ := hback hd
        exact hrx ▸ h.apart c ch d dh hc hd
      rx_inj := by
        intro c ch' d dh' hc hd heq
        obtain ⟨ch, hc, hcrx⟩ := hback hc
        obtain ⟨dh, hd, hdrx⟩ := hback hd
        exact h.rx_inj c ch d dh hc hd (by rw [hcrx, hdrx, heq])
      senders := by
        intro n c hn
        obtain ⟨heq, ch, hch⟩ := h.senders n c (hsenders n c hn)
        obtain ⟨ch', hch', -⟩ := hforth hch
        exact ⟨heq, ch', hch'⟩
      receivers := by
        intro n c hn
        obtain ⟨ch, hch, hrx⟩ := h.receivers n c (hreceivers n c hn)
        obtain ⟨ch', hch', hrx'⟩ := hforth hch
        exact ⟨ch', hch', hrx'.trans hrx⟩
      drawn_below := by
        rw [hnext]
        exact h.drawn_below
      drawn_apart := h.drawn_apart
      drawn_ne := h.drawn_ne
      pending := by
        intro u m hu n hn
        obtain ⟨hnone, hunused⟩ := h.pending u m hu n hn
        constructor
        · have hc' := hshape n
          rw [hnone, Option.map_none] at hc'
          exact Option.map_eq_none_iff.mp hc'
        · intro c ch' hc
          obtain ⟨ch, hc, hrx⟩ := hback hc
          exact hrx ▸ hunused c ch hc
      inserting := by
        intro u tx' rx' hu
        obtain ⟨ch, hch, hrx, hnone⟩ := h.inserting u tx' rx' hu
        obtain ⟨ch', hch', hrx'⟩ := hforth hch
        refine ⟨ch', hch', hrx'.trans hrx, ?_⟩
        cases hr : σ'.receivers rx' with
        | none => rfl
        | some c =>
          rw [hreceivers rx' c hr] at hnone
          cases hnone }

variable {c d : Int} {ch ch' dh : Channel V} {m : Making} {next : Making ⊕ Int × Int}

theorem shape_setChannel (hch : σ.channels c = some ch) (hrx : ch'.rx = ch.rx) (d : Int) :
    ((σ.setChannel c ch').channels d).map Channel.rx = (σ.channels d).map Channel.rx := by
  by_cases h : d = c
  · subst h
    simp [setChannel, hch, hrx]
  · simp [setChannel, h]

theorem channels_setChannel (hch : σ.channels c = some ch) (hrx : ch'.rx = ch.rx)
    (hd : σ.channels d = some dh) :
    ∃ dh', (σ.setChannel c ch').channels d = some dh' ∧ dh'.rx = dh.rx := by
  have hshape := shape_setChannel hch hrx d
  rw [hd, Option.map_some] at hshape
  exact Option.map_eq_some_iff.mp hshape

theorem update_none_of_some {f : Int → Option Int} {n m d : Int}
    (h : Function.update f n none m = some d) : f m = some d := by
  by_cases heq : m = n
  · simp [heq] at h
  · rwa [Function.update_of_ne heq] at h

theorem Handles.make (h : Handles σ making) (hm : making t = some m)
    (hmake : σ.make m = (σ', next)) :
    Handles σ' (Function.update making t (next.elim some fun _ => none)) := by
  cases m with
  | drawTx =>
    cases hmake
    exact h.drawTx t
  | drawRx tx =>
    cases hmake
    exact h.drawRx hm
  | insertTx tx rx =>
    cases hmake
    exact h.insertTx hm
  | insertRx tx rx =>
    cases hmake
    exact h.insertRx hm

theorem Handles.channels_make (h : Handles σ making) (hm : making t = some m)
    (hmake : σ.make m = (σ', next)) (hd : σ.channels d = some dh) : σ'.channels d = some dh := by
  cases m with
  | insertTx tx rx =>
    cases hmake
    have hne : d ≠ tx := by
      rintro rfl
      rw [(h.pending t _ hm d (by simp [Making.pending])).1] at hd
      cases hd
    simp [setChannel, hne, hd]
  | _ =>
    cases hmake
    exact hd

theorem senders_make {n : Int} (hmake : σ.make m = (σ', next)) (h : σ'.senders n = some d) :
    σ.senders n = some d ∨ ∃ rx, m = .insertTx n rx := by
  cases m with
  | insertTx tx rx =>
    cases hmake
    by_cases heq : n = tx
    · exact Or.inr ⟨rx, heq ▸ rfl⟩
    · exact Or.inl (by simpa [Function.update_of_ne heq] using h)
  | _ =>
    cases hmake
    exact Or.inl h

theorem receivers_make {n : Int} (hmake : σ.make m = (σ', next)) (h : σ'.receivers n = some d) :
    σ.receivers n = some d ∨ m = .insertRx d n := by
  cases m with
  | insertRx tx rx =>
    cases hmake
    by_cases heq : n = rx
    · subst heq
      simp only [Function.update_self, Option.some.injEq] at h
      exact Or.inr (h ▸ rfl)
    · exact Or.inl (by simpa [Function.update_of_ne heq] using h)
  | _ =>
    cases hmake
    exact Or.inl h

theorem Handles.receivers_make_back (hh : Handles σ making) (hm : making t = some m)
    (hmake : σ.make m = (σ', next)) {n : Int} (h : σ.receivers n = some d) :
    σ'.receivers n = some d := by
  cases m with
  | insertRx tx rx =>
    cases hmake
    have hne : n ≠ rx := by
      rintro rfl
      obtain ⟨ch, -, -, hnone⟩ := hh.inserting t tx n hm
      rw [h] at hnone
      cases hnone
    simp [Function.update_of_ne hne, h]
  | _ =>
    cases hmake
    exact h

end Store
end Airl.Channels
