import Airl.Channels.Handles

/-! # Where the receivers are

A receiver that no close has dropped is in its table, or one thread has it and will put
it there. The invariant is about a store and what each thread carries, a handle and its
channel; a thread that makes a channel carries its receiver as one that receives does.
-/

namespace Airl.Channels.Store

variable {V : Type}

/-- Channel `c` has its receiver, which goes by `n`. -/
def Alive (σ : Store V) (c n : Int) : Prop :=
  ∃ ch, σ.channels c = some ch ∧ ch.rx = n ∧ ch.receiverAlive = true

/-- Channel `c` has lost its receiver. -/
def Dropped (σ : Store V) (c : Int) : Prop :=
  ∃ ch, σ.channels c = some ch ∧ ch.receiverAlive = false

structure Receivers (σ : Store V) (carries : Nat → Option (Int × Int)) : Prop where
  table : ∀ n c, σ.receivers n = some c → σ.Alive c n
  carried : ∀ u n c, carries u = some (n, c) → σ.Alive c n ∧ σ.receivers n = none
  apart : ∀ u v n n' c, carries u = some (n, c) → carries v = some (n', c) → u = v
  found : ∀ c n, σ.Alive c n → σ.receivers n = some c ∨ ∃ u, carries u = some (n, c)

variable {σ σ' : Store V} {making : Nat → Option Making} {carries : Nat → Option (Int × Int)}
  {t : Nat} {c d n m : Int} {ch ch' : Channel V}

theorem Alive.handle_eq (h : σ.Alive c n) (h' : σ.Alive c m) : n = m := by
  obtain ⟨ch, hch, rfl, -⟩ := h
  obtain ⟨dh, hdh, rfl, -⟩ := h'
  rw [hch] at hdh
  cases hdh
  rfl

theorem Handles.alive_inj (hh : σ.Handles making) (h : σ.Alive c n) (h' : σ.Alive d n) : c = d := by
  obtain ⟨ch, hch, hrx, -⟩ := h
  obtain ⟨dh, hdh, hrx', -⟩ := h'
  exact hh.rx_inj c ch d dh hch hdh (hrx.trans hrx'.symm)

theorem alive_setChannel (hch : σ.channels c = some ch) (hrx : ch'.rx = ch.rx)
    (halive : ch'.receiverAlive = ch.receiverAlive) :
    (σ.setChannel c ch').Alive d n ↔ σ.Alive d n := by
  by_cases h : d = c
  · subst h
    simp [Alive, setChannel, hch, hrx, halive]
  · simp [Alive, setChannel, h]

theorem alive_dropReceiver :
    (σ.setChannel c ch.dropReceiver).Alive d n ↔ d ≠ c ∧ σ.Alive d n := by
  by_cases h : d = c
  · subst h
    simp [Alive, setChannel, Channel.dropReceiver]
  · simp [Alive, setChannel, h]

theorem Dropped.setChannel (h : σ.Dropped d) (hch : σ.channels c = some ch)
    (halive : ch.receiverAlive = false → ch'.receiverAlive = false) :
    (σ.setChannel c ch').Dropped d := by
  obtain ⟨dh, hdh, hdead⟩ := h
  by_cases heq : d = c
  · subst heq
    rw [hch] at hdh
    cases hdh
    exact ⟨ch', by simp [Store.setChannel], halive hdead⟩
  · exact ⟨dh, by simp [Store.setChannel, heq, hdh], hdead⟩

namespace Receivers

theorem initial : Receivers (Store.initial : Store V) fun _ => none := by
  constructor <;> simp [Alive, Store.initial]

theorem frame (h : Receivers σ carries) (halive : ∀ c n, σ'.Alive c n ↔ σ.Alive c n)
    (hreceivers : σ'.receivers = σ.receivers) : Receivers σ' carries where
  table n c hn := (halive c n).mpr (h.table n c (hreceivers ▸ hn))
  carried u n c hu := by
    rw [halive, hreceivers]
    exact h.carried u n c hu
  apart := h.apart
  found c n hc := by
    rw [hreceivers]
    exact h.found c n ((halive c n).mp hc)

theorem apart_carry (h : Receivers σ carries) (hidle : ∀ u m, carries u ≠ some (m, c))
    (u v : Nat) (m m' d : Int) (hu : Function.update carries t (some (n, c)) u = some (m, d))
    (hv : Function.update carries t (some (n, c)) v = some (m', d)) : u = v := by
  by_cases hut : u = t
  · by_cases hvt : v = t
    · rw [hut, hvt]
    · rw [hut, Function.update_self] at hu
      rw [Function.update_of_ne hvt] at hv
      cases hu
      exact absurd hv (hidle v m')
  · rw [Function.update_of_ne hut] at hu
    by_cases hvt : v = t
    · rw [hvt, Function.update_self] at hv
      cases hv
      exact absurd hu (hidle u m)
    · rw [Function.update_of_ne hvt] at hv
      exact h.apart u v m m' d hu hv

theorem create (h : Receivers σ carries) (ht : carries t = none) (hc : σ.channels c = none)
    (hn : σ.Unused n) :
    Receivers (σ.setChannel c (Channel.fresh n)) (Function.update carries t (some (n, c))) := by
  have halive : ∀ d m, (σ.setChannel c (Channel.fresh n)).Alive d m ↔
      (d = c ∧ n = m) ∨ σ.Alive d m := by
    intro d m
    by_cases hd : d = c
    · subst hd
      simp [Alive, setChannel, Channel.fresh, hc]
    · simp [Alive, setChannel, hd]
  have hnone : σ.receivers n = none := by
    cases hr : σ.receivers n with
    | none => rfl
    | some d =>
      obtain ⟨dh, hdh, hrx, -⟩ := h.table n d hr
      exact absurd hrx (hn.2 d dh hdh)
  have hidle : ∀ u m, carries u ≠ some (m, c) := by
    intro u m hu
    obtain ⟨⟨dh, hdh, -⟩, -⟩ := h.carried u m c hu
    rw [hc] at hdh
    cases hdh
  constructor
  · intro m d hm
    exact (halive d m).mpr (Or.inr (h.table m d hm))
  · intro u m d hu
    rw [halive]
    by_cases hut : u = t
    · subst hut
      rw [Function.update_self] at hu
      cases hu
      exact ⟨Or.inl ⟨rfl, rfl⟩, hnone⟩
    · rw [Function.update_of_ne hut] at hu
      exact ⟨Or.inr (h.carried u m d hu).1, (h.carried u m d hu).2⟩
  · exact h.apart_carry hidle
  · intro d m hd
    rcases (halive d m).mp hd with ⟨rfl, rfl⟩ | hold
    · exact Or.inr ⟨t, Function.update_self t _ _⟩
    · rcases h.found d m hold with hin | ⟨u, hu⟩
      · exact Or.inl hin
      · have hut : u ≠ t := by
          rintro rfl
          rw [ht] at hu
          cases hu
        exact Or.inr ⟨u, by rw [Function.update_of_ne hut, hu]⟩

/-- A thread puts the receiver that it carries into the table. -/
theorem insert (h : Receivers σ carries) (hh : σ.Handles making) (ht : carries t = some (n, c)) :
    Receivers { σ with receivers := Function.update σ.receivers n (some c) }
      (Function.update carries t none) := by
  obtain ⟨halive, hnone⟩ := h.carried t n c ht
  have hold : ∀ {u x}, Function.update carries t none u = some x → u ≠ t ∧ carries u = some x := by
    intro u x hu
    by_cases hut : u = t
    · rw [hut, Function.update_self] at hu
      cases hu
    · rw [Function.update_of_ne hut] at hu
      exact ⟨hut, hu⟩
  constructor
  · intro m d hm
    by_cases hmn : m = n
    · subst hmn
      simp only [Function.update_self, Option.some.injEq] at hm
      exact hm ▸ halive
    · simp only [Function.update_of_ne hmn] at hm
      exact h.table m d hm
  · intro u m d hu
    obtain ⟨hut, hu⟩ := hold hu
    obtain ⟨halive', hnone'⟩ := h.carried u m d hu
    -- no other thread has the same receiver
    have hmn : m ≠ n := by
      rintro rfl
      cases hh.alive_inj halive halive'
      exact hut (h.apart u t m m c hu ht)
    exact ⟨halive', by simp [Function.update_of_ne hmn, hnone']⟩
  · intro u v m m' d hu hv
    exact h.apart u v m m' d (hold hu).2 (hold hv).2
  · intro d m hd
    by_cases hmn : m = n
    · subst hmn
      cases hh.alive_inj halive hd
      exact Or.inl (Function.update_self m _ _)
    · simp only [Function.update_of_ne hmn]
      rcases h.found d m hd with hin | ⟨u, hu⟩
      · exact Or.inl hin
      · have hut : u ≠ t := by
          rintro rfl
          rw [ht] at hu
          cases hu
          exact hmn rfl
        exact Or.inr ⟨u, by rw [Function.update_of_ne hut, hu]⟩

theorem takeOut (h : Receivers σ carries) (ht : carries t = none) (hn : σ.receivers n = some c) :
    Receivers { σ with receivers := Function.update σ.receivers n none }
      (Function.update carries t (some (n, c))) := by
  have halive := h.table n c hn
  have hidle : ∀ u m, carries u ≠ some (m, c) := by
    intro u m hu
    obtain ⟨halive', hnone⟩ := h.carried u m c hu
    cases halive.handle_eq halive'
    rw [hn] at hnone
    cases hnone
  have hnone : ∀ {m}, σ.receivers m = none → Function.update σ.receivers n none m = none := by
    intro m hm
    by_cases hmn : m = n
    · rw [hmn, Function.update_self]
    · rw [Function.update_of_ne hmn, hm]
  constructor
  · intro m d hm
    exact h.table m d (update_none_of_some hm)
  · intro u m d hu
    by_cases hut : u = t
    · subst hut
      rw [Function.update_self] at hu
      cases hu
      exact ⟨halive, Function.update_self n _ _⟩
    · rw [Function.update_of_ne hut] at hu
      exact ⟨(h.carried u m d hu).1, hnone (h.carried u m d hu).2⟩
  · exact h.apart_carry hidle
  · intro d m hd
    rcases h.found d m hd with hin | ⟨u, hu⟩
    · by_cases hmn : m = n
      · subst hmn
        rw [hn] at hin
        cases hin
        exact Or.inr ⟨t, Function.update_self t _ _⟩
      · exact Or.inl (by simp [Function.update_of_ne hmn, hin])
    · have hut : u ≠ t := by
        rintro rfl
        rw [ht] at hu
        cases hu
      exact Or.inr ⟨u, by rw [Function.update_of_ne hut, hu]⟩

theorem drop (h : Receivers σ carries) (hn : σ.receivers n = some c) :
    Receivers
      { σ.setChannel c ch.dropReceiver with receivers := Function.update σ.receivers n none }
      carries := by
  have halive : ∀ d m, Alive { σ.setChannel c ch.dropReceiver with
      receivers := Function.update σ.receivers n none } d m ↔ d ≠ c ∧ σ.Alive d m :=
    fun d m => alive_dropReceiver
  have hcalive := h.table n c hn
  constructor
  · intro m d hm
    have hold := update_none_of_some hm
    rw [halive]
    refine ⟨?_, h.table m d hold⟩
    rintro rfl
    cases hcalive.handle_eq (h.table m d hold)
    simp at hm
  · intro u m d hu
    obtain ⟨hdalive, hnone⟩ := h.carried u m d hu
    have hmn : m ≠ n := by
      rintro rfl
      rw [hn] at hnone
      cases hnone
    rw [halive]
    refine ⟨⟨?_, hdalive⟩, by simp [Function.update_of_ne hmn, hnone]⟩
    rintro rfl
    exact hmn (hdalive.handle_eq hcalive)
  · exact h.apart
  · intro d m hd
    obtain ⟨hdc, hold⟩ := (halive d m).mp hd
    rcases h.found d m hold with hin | hu
    · have hmn : m ≠ n := by
        rintro rfl
        rw [hn] at hin
        cases hin
        exact hdc rfl
      exact Or.inl (by simp [Function.update_of_ne hmn, hin])
    · exact Or.inr hu

end Receivers

theorem Handles.putBack (hh : σ.Handles making) {ch : Channel V} (hch : σ.channels c = some ch)
    (hrx : ch.rx = n) (hidle : ∀ u d, making u ≠ some (.insertRx d n)) :
    Handles { σ with receivers := Function.update σ.receivers n (some c) } making :=
  { hh with
    receivers := by
      intro m d hm
      by_cases hmn : m = n
      · subst hmn
        simp only [Function.update_self, Option.some.injEq] at hm
        exact ⟨ch, hm ▸ hch, hrx⟩
      · simp only [Function.update_of_ne hmn] at hm
        exact hh.receivers m d hm
    inserting := by
      intro u tx rx hu
      obtain ⟨dh, hdh, hdrx, hnone⟩ := hh.inserting u tx rx hu
      have hne : rx ≠ n := by
        rintro rfl
        exact hidle u tx hu
      exact ⟨dh, hdh, hdrx, by simp [Function.update_of_ne hne, hnone]⟩ }

end Airl.Channels.Store
