import Airl.Channels.Store

/-! # The ledger of the channels

What a channel holds and what it has handed out is, in order, what was sent on it: all
of it while its receiver is in use, and some of it once a close has discarded values.
The values a thread has received from a channel are those its calls returned and those
its present call has in hand. A step keeps the ledger if it changes each channel as an
`Update` and accounts for the values it took.
-/

namespace Airl.Channels

variable {V : Type}

/-- `ch` becomes `ch'` while `sent` is sent on it and thread `u` takes `got u`. -/
structure Update (ch ch' : Channel V) (sent : List V) (lost : Prop) (got : Nat → List V) :
    Prop where
  rx : ch'.rx = ch.rx
  order : ch'.ledger.Sublist (ch.ledger ++ sent)
  kept : ¬ lost → ch'.ledger = ch.ledger ++ sent
  taken : ∀ u, ch'.takenBy u = ch.takenBy u ++ got u

namespace Update

variable {ch : Channel V} {lost : Prop}

theorem of_eq {ch' : Channel V} {sent : List V} {got : Nat → List V} (hrx : ch'.rx = ch.rx)
    (hledger : ch'.ledger = ch.ledger ++ sent)
    (htaken : ∀ u, ch'.takenBy u = ch.takenBy u ++ got u) : Update ch ch' sent lost got :=
  ⟨hrx, hledger ▸ List.Sublist.refl _, fun _ => hledger, htaken⟩

theorem refl (ch : Channel V) : Update ch ch [] lost fun _ => [] :=
  of_eq rfl (List.append_nil _).symm fun _ => (List.append_nil _).symm

theorem push (ch : Channel V) (v : V) : Update ch (ch.push v) [v] lost fun _ => [] :=
  of_eq rfl Channel.ledger_push fun _ => (List.append_nil _).symm

theorem pop {t : Nat} {v : V} {q : List V} (h : ch.queue = v :: q) :
    Update ch (ch.pop t v) [] lost fun u => if t = u then [v] else [] :=
  of_eq rfl ((Channel.ledger_pop h).trans (List.append_nil _).symm) fun _ => Channel.takenBy_pop

theorem dropSender (ch : Channel V) : Update ch ch.dropSender [] lost fun _ => [] :=
  of_eq rfl (List.append_nil _).symm fun _ => (List.append_nil _).symm

theorem discard (ch : Channel V) (h : lost) : Update ch ch.discard [] lost fun _ => [] where
  rx := rfl
  order := (List.append_nil ch.ledger).symm ▸ Channel.ledger_discard
  kept hkept := absurd h hkept
  taken _ := (List.append_nil _).symm

theorem dropReceiver (ch : Channel V) (h : lost ∨ ch.queue = []) :
    Update ch ch.dropReceiver [] lost fun _ => [] where
  rx := rfl
  order := (List.append_nil ch.ledger).symm ▸ Channel.ledger_dropReceiver
  kept hkept := by
    rw [Channel.ledger, Channel.ledger, h.resolve_left hkept, List.append_nil]
    rfl
  taken _ := (List.append_nil _).symm

end Update

/-- The log, the channels and what the threads have in hand agree. -/
structure Ledger (channels : Int → Option (Channel V)) (lost : Int → Prop)
    (inHand : Nat → Int → List V) (log : List (Entry V)) : Prop where
  order : ∀ c ch, channels c = some ch → ch.ledger.Sublist (sentOn c log)
  kept : ∀ c ch, channels c = some ch → ¬ lost c → ch.ledger = sentOn c log
  hands : ∀ c ch u, channels c = some ch → deliveredTo u ch.rx log ++ inHand u c = ch.takenBy u
  unsent : ∀ c, channels c = none → sentOn c log = []
  undelivered : ∀ rx u, (∀ c ch, channels c = some ch → ch.rx ≠ rx) → deliveredTo u rx log = []

namespace Ledger

variable {channels channels' : Int → Option (Channel V)} {lost lost' : Int → Prop}
  {inHand inHand' : Nat → Int → List V} {log es : List (Entry V)}

theorem initial : Ledger (fun _ => none : Int → Option (Channel V)) lost (fun _ _ => []) [] := by
  constructor <;> simp [sentOn, deliveredTo]

theorem step (h : Ledger channels lost inHand log) (got : Int → Nat → List V)
    (hlost : ∀ c, lost c → lost' c)
    (hsome : ∀ c ch, channels c = some ch →
      ∃ ch', channels' c = some ch' ∧ Update ch ch' (sentOn c es) (lost' c) (got c))
    (hnone : ∀ c, channels c = none → channels' c = none ∧ sentOn c es = [])
    (hhands : ∀ c ch u, channels c = some ch →
      deliveredTo u ch.rx es ++ inHand' u c = inHand u c ++ got c u)
    (hundelivered : ∀ rx u, (∀ c ch, channels c = some ch → ch.rx ≠ rx) →
      deliveredTo u rx es = []) :
    Ledger channels' lost' inHand' (log ++ es) := by
  have hback : ∀ {c ch'}, channels' c = some ch' →
      ∃ ch, channels c = some ch ∧ Update ch ch' (sentOn c es) (lost' c) (got c) := by
    intro c ch' hc'
    cases hc : channels c with
    | none =>
      rw [(hnone c hc).1] at hc'
      cases hc'
    | some ch =>
      obtain ⟨ch'', hc'', hupdate⟩ := hsome c ch hc
      rw [hc''] at hc'
      cases hc'
      exact ⟨ch, rfl, hupdate⟩
  constructor
  · intro c ch' hc'
    obtain ⟨ch, hc, hupdate⟩ := hback hc'
    rw [sentOn_append]
    exact hupdate.order.trans ((h.order c ch hc).append (List.Sublist.refl _))
  · intro c ch' hc' hkept
    obtain ⟨ch, hc, hupdate⟩ := hback hc'
    rw [sentOn_append, hupdate.kept hkept, h.kept c ch hc fun hl => hkept (hlost c hl)]
  · intro c ch' u hc'
    obtain ⟨ch, hc, hupdate⟩ := hback hc'
    rw [deliveredTo_append, hupdate.rx, List.append_assoc, hhands c ch u hc, ← List.append_assoc,
      h.hands c ch u hc, hupdate.taken u]
  · intro c hc'
    cases hc : channels c with
    | none => rw [sentOn_append, h.unsent c hc, (hnone c hc).2, List.append_nil]
    | some ch =>
      obtain ⟨ch', hch', -⟩ := hsome c ch hc
      rw [hch'] at hc'
      cases hc'
  · intro rx u hrx
    have hold : ∀ c ch, channels c = some ch → ch.rx ≠ rx := by
      intro c ch hc
      obtain ⟨ch', hch', hupdate⟩ := hsome c ch hc
      exact hupdate.rx ▸ hrx c ch' hch'
    rw [deliveredTo_append, h.undelivered rx u hold, hundelivered rx u hold, List.append_nil]

/-- A step that leaves the channels as they are and sends nothing. -/
theorem same (h : Ledger channels lost inHand log) (hlost : ∀ c, lost c → lost' c)
    (hsent : ∀ c, sentOn c es = [])
    (hhands : ∀ c ch u, channels c = some ch →
      deliveredTo u ch.rx es ++ inHand' u c = inHand u c)
    (hundelivered : ∀ rx u, (∀ c ch, channels c = some ch → ch.rx ≠ rx) →
      deliveredTo u rx es = []) :
    Ledger channels lost' inHand' (log ++ es) := by
  refine h.step (fun _ _ => []) hlost ?_ ?_ ?_ hundelivered
  · intro c ch hc
    exact ⟨ch, hc, hsent c ▸ Update.refl ch⟩
  · exact fun c hc => ⟨hc, hsent c⟩
  · intro c ch u hc
    rw [hhands c ch u hc, List.append_nil]

theorem set (h : Ledger channels lost inHand log) (hlost : ∀ d, lost d → lost' d) {c : Int}
    {ch ch' : Channel V} {gotten : Nat → List V} (hc : channels c = some ch)
    (hupdate : Update ch ch' (sentOn c es) (lost' c) gotten)
    (hsent : ∀ d, d ≠ c → sentOn d es = [])
    (hhands : ∀ u, deliveredTo u ch.rx es ++ inHand' u c = inHand u c ++ gotten u)
    (hothers : ∀ d dh u, d ≠ c → channels d = some dh →
      deliveredTo u dh.rx es ++ inHand' u d = inHand u d)
    (hundelivered : ∀ rx u, (∀ c ch, channels c = some ch → ch.rx ≠ rx) →
      deliveredTo u rx es = []) :
    Ledger (Function.update channels c (some ch')) lost' inHand' (log ++ es) := by
  refine h.step (fun d u => if d = c then gotten u else []) hlost ?_ ?_ ?_ hundelivered
  · intro d dh hd
    by_cases heq : d = c
    · subst heq
      rw [hc] at hd
      cases hd
      exact ⟨ch', by simp, by simpa using hupdate⟩
    · refine ⟨dh, by simp [heq, hd], ?_⟩
      simp only [hsent d heq, if_neg heq]
      exact Update.refl dh
  · intro d hd
    have heq : d ≠ c := by
      rintro rfl
      rw [hc] at hd
      cases hd
    exact ⟨by simp [heq, hd], hsent d heq⟩
  · intro d dh u hd
    by_cases heq : d = c
    · subst heq
      rw [hc] at hd
      cases hd
      simpa using hhands u
    · rw [if_neg heq, List.append_nil]
      exact hothers d dh u heq hd

/-- A new channel, on whose handles nothing was sent or delivered. -/
theorem create (h : Ledger channels lost inHand log) (hlost : ∀ d, lost d → lost' d) {c rx : Int}
    (hc : channels c = none) (hrx : ∀ d dh, channels d = some dh → dh.rx ≠ rx)
    (hhands : ∀ u d, inHand' u d = inHand u d) (hidle : ∀ u, inHand u c = []) :
    Ledger (Function.update channels c (some (Channel.fresh rx))) lost' inHand' log := by
  have hold : ∀ {d}, d ≠ c →
      Function.update channels c (some (Channel.fresh rx)) d = channels d := fun hd => by simp [hd]
  constructor
  · intro d dh hd
    by_cases heq : d = c
    · subst heq
      simp only [Function.update_self, Option.some.injEq] at hd
      subst hd
      exact List.nil_sublist _
    · exact h.order d dh (hold heq ▸ hd)
  · intro d dh hd hkept
    by_cases heq : d = c
    · subst heq
      simp only [Function.update_self, Option.some.injEq] at hd
      subst hd
      exact (h.unsent d hc).symm
    · exact h.kept d dh (hold heq ▸ hd) fun hl => hkept (hlost d hl)
  · intro d dh u hd
    by_cases heq : d = c
    · subst heq
      simp only [Function.update_self, Option.some.injEq] at hd
      subst hd
      rw [hhands, hidle, List.append_nil]
      exact h.undelivered rx u hrx
    · rw [hhands]
      exact h.hands d dh u (hold heq ▸ hd)
  · intro d hd
    have heq : d ≠ c := by
      rintro rfl
      simp at hd
    exact h.unsent d (hold heq ▸ hd)
  · intro rx' u hrx'
    refine h.undelivered rx' u fun d dh hd => hrx' d dh ?_
    have heq : d ≠ c := by
      rintro rfl
      rw [hc] at hd
      cases hd
    rw [hold heq, hd]

section Threads

open Threads (Running)
open Threads.State (entries)

variable {P : Type} {t u : Nat} {r : Running P (Call V)} {next : P ⊕ Reply V}

theorem sentOn_entries (h : next ≠ .inr .sent) (d : Int) : sentOn d (entries t r next) = [] := by
  cases next with
  | inl q => rfl
  | inr reply =>
    have haccepted : accepted d ⟨t, r.call, r.began, reply⟩ = none := by
      unfold accepted
      split
      · next hreply => exact absurd (congrArg Sum.inr hreply) h
      · rfl
    simp [sentOn, entries, haccepted]

theorem deliveredTo_entries_other (h : u ≠ t) (rx : Int) :
    deliveredTo u rx (entries t r next) = [] := by
  cases next with
  | inl q => rfl
  | inr reply => simp [deliveredTo, entries, handed, h.symm]

theorem deliveredTo_entries_nil (h : ∀ reply, next = .inr reply → reply.values = []) (rx : Int) :
    deliveredTo u rx (entries t r next) = [] := by
  cases next with
  | inl q => rfl
  | inr reply => simp [deliveredTo, entries, handed, h reply rfl]

variable {hand : Int → List V} {c : Int} {ch ch' : Channel V}

theorem hands_step {rx d : Int} {gotten : List V}
    (hself : deliveredTo t rx (entries t r next) ++ hand d = inHand t d ++ gotten) (u : Nat) :
    deliveredTo u rx (entries t r next) ++ Function.update inHand t hand u d =
      inHand u d ++ if t = u then gotten else [] := by
  by_cases h : u = t
  · subst h
    rw [Function.update_self, hself, if_pos rfl]
  · rw [deliveredTo_entries_other h, Function.update_of_ne h, if_neg (Ne.symm h), List.append_nil]
    rfl

theorem hands_kept {rx d : Int}
    (hself : deliveredTo t rx (entries t r next) ++ hand d = inHand t d) (u : Nat) :
    deliveredTo u rx (entries t r next) ++ Function.update inHand t hand u d = inHand u d := by
  have h := hands_step (hself.trans (List.append_nil _).symm) u
  rwa [ite_self, List.append_nil] at h

/-- The step sends nothing, delivers nothing and takes nothing. -/
structure Silent (next : P ⊕ Reply V) (before after : Int → List V) : Prop where
  sent : next ≠ .inr .sent
  values : ∀ reply, next = .inr reply → reply.values = []
  inHand : ∀ d, after d = before d

theorem Silent.going {q : P} {before after : Int → List V} (h : ∀ d, after d = before d) :
    Silent (.inl q : P ⊕ Reply V) before after where
  sent heq := by cases heq
  values _ heq := by cases heq
  inHand := h

theorem Silent.returning {reply : Reply V} {before : Int → List V} (hsent : reply ≠ .sent)
    (hvalues : reply.values = []) (hbefore : ∀ d, before d = []) :
    Silent (.inr reply : P ⊕ Reply V) before fun _ => [] where
  sent heq := hsent (Sum.inr.inj heq)
  values _ heq := Sum.inr.inj heq ▸ hvalues
  inHand d := (hbefore d).symm

theorem Silent.hands (hs : Silent next (inHand t) hand) (rx d : Int) (u : Nat) :
    deliveredTo u rx (entries t r next) ++ Function.update inHand t hand u d = inHand u d := by
  apply hands_kept
  rw [deliveredTo_entries_nil hs.values, hs.inHand, List.nil_append]

theorem silent (h : Ledger channels lost inHand log) (hlost : ∀ d, lost d → lost' d)
    (hs : Silent next (inHand t) hand) :
    Ledger channels lost' (Function.update inHand t hand) (log ++ entries t r next) := by
  apply h.same hlost
  · exact sentOn_entries hs.sent
  · intro c ch u hc
    exact hs.hands ch.rx c u
  · intro rx u hrx
    exact deliveredTo_entries_nil hs.values rx

theorem silent_set (h : Ledger channels lost inHand log) (hlost : ∀ d, lost d → lost' d)
    (hs : Silent next (inHand t) hand) (hc : channels c = some ch)
    (hupdate : Update ch ch' [] (lost' c) fun _ => []) :
    Ledger (Function.update channels c (some ch')) lost' (Function.update inHand t hand)
      (log ++ entries t r next) := by
  have hupdate' : Update ch ch' (sentOn c (entries t r next)) (lost' c) fun _ => [] := by
    rw [sentOn_entries hs.sent]
    exact hupdate
  apply h.set hlost hc hupdate'
  · intro d hd
    exact sentOn_entries hs.sent d
  · intro u
    rw [hs.hands, List.append_nil]
  · intro d dh u hd hdh
    exact hs.hands dh.rx d u
  · intro rx u hrx
    exact deliveredTo_entries_nil hs.values rx

theorem push (h : Ledger channels lost inHand log) (hlost : ∀ d, lost d → lost' d)
    (hc : channels c = some ch) {v : V} (hcall : r.call = .send (.int c) v)
    (hhand : ∀ d, inHand t d = []) :
    Ledger (Function.update channels c (some (ch.push v))) lost'
      (Function.update inHand t fun _ => []) (log ++ entries t r (.inr .sent : P ⊕ Reply V)) := by
  have hsent : ∀ d, sentOn d (entries t r (.inr .sent : P ⊕ Reply V)) =
      if c = d then [v] else [] := by
    intro d
    have haccepted : accepted d ⟨t, r.call, r.began, .sent⟩ = if c = d then some v else none := by
      rw [hcall]
      rfl
    by_cases hd : c = d
    · simp [sentOn, entries, haccepted, hd]
    · simp [sentOn, entries, haccepted, hd]
  have hvalues : ∀ reply, (.inr .sent : P ⊕ Reply V) = .inr reply → reply.values = [] := by
    rintro _ ⟨⟩
    rfl
  have hhands : ∀ rx d u, deliveredTo u rx (entries t r (.inr .sent : P ⊕ Reply V)) ++
      Function.update inHand t (fun _ => []) u d = inHand u d := by
    intro rx d u
    apply hands_kept
    rw [deliveredTo_entries_nil hvalues, hhand]
    rfl
  have hupdate : Update ch (ch.push v) (sentOn c (entries t r (.inr .sent : P ⊕ Reply V)))
      (lost' c) fun _ => [] := by
    rw [hsent, if_pos rfl]
    exact .push ch v
  apply h.set hlost hc hupdate
  · intro d hd
    rw [hsent, if_neg (Ne.symm hd)]
  · intro u
    rw [hhands, List.append_nil]
  · intro d dh u _ _
    exact hhands dh.rx d u
  · intro rx u _
    exact deliveredTo_entries_nil hvalues rx

/-- The first value of a queue goes into the hand of a thread. -/
theorem pop (h : Ledger channels lost inHand log) (hlost : ∀ d, lost d → lost' d)
    (hc : channels c = some ch) {v : V} {q : List V} (hqueue : ch.queue = v :: q) {p : P}
    (hhand : ∀ d, hand d = inHand t d ++ if c = d then [v] else []) :
    Ledger (Function.update channels c (some (ch.pop t v))) lost' (Function.update inHand t hand)
      (log ++ entries t r (.inl p : P ⊕ Reply V)) := by
  have hhands : ∀ rx d u, deliveredTo u rx (entries t r (.inl p : P ⊕ Reply V)) ++
      Function.update inHand t hand u d =
        inHand u d ++ if t = u then (if c = d then [v] else []) else [] := by
    intro rx d u
    apply hands_step
    exact hhand d
  apply h.set hlost hc (.pop hqueue) (fun d _ => rfl)
  · intro u
    rw [hhands, if_pos rfl]
  · intro d dh u hd _
    rw [hhands, if_neg (Ne.symm hd), ite_self, List.append_nil]
  · intro rx u _
    rfl

/-- A call returns with what it has in hand, all of it from channel `c`. -/
theorem deliver (h : Ledger channels lost inHand log) (hlost : ∀ d, lost d → lost' d)
    (hrx : ∀ d dh, channels d = some dh → dh.rx = ch.rx → d = c) (hc : channels c = some ch)
    (hhandle : r.call.handle = some ch.rx) {reply : Reply V} (hreply : reply ≠ .sent)
    (hhand : ∀ d, inHand t d = if c = d then reply.values else [])
    (hupdate : Update ch ch' [] (lost' c) fun _ => []) :
    Ledger (Function.update channels c (some ch')) lost' (Function.update inHand t fun _ => [])
      (log ++ entries t r (.inr reply : P ⊕ Reply V)) := by
  have hdelivered : ∀ rx, deliveredTo t rx (entries t r (.inr reply : P ⊕ Reply V)) =
      if ch.rx = rx then reply.values else [] := by
    intro rx
    simp [deliveredTo, entries, handed, hhandle]
  have hhands : ∀ d dh u, channels d = some dh →
      deliveredTo u dh.rx (entries t r (.inr reply : P ⊕ Reply V)) ++
        Function.update inHand t (fun _ => []) u d = inHand u d := by
    intro d dh u hdh
    apply hands_kept
    rw [hdelivered, hhand, List.append_nil]
    by_cases hd : c = d
    · subst hd
      rw [hc] at hdh
      cases hdh
      rw [if_pos rfl, if_pos rfl]
    · rw [if_neg hd, if_neg fun heq => hd (hrx d dh hdh heq.symm).symm]
  have hsent : ∀ d, sentOn d (entries t r (.inr reply : P ⊕ Reply V)) = [] :=
    sentOn_entries fun heq => hreply (Sum.inr.inj heq)
  have hupdate' : Update ch ch' (sentOn c (entries t r (.inr reply : P ⊕ Reply V))) (lost' c)
      fun _ => [] := by
    rw [hsent]
    exact hupdate
  apply h.set hlost hc hupdate' (fun d _ => hsent d)
  · intro u
    rw [hhands c ch u hc, List.append_nil]
  · intro d dh u _ hdh
    exact hhands d dh u hdh
  · intro rx u hnone
    by_cases hu : u = t
    · rw [hu, hdelivered, if_neg (hnone c ch hc)]
    · exact deliveredTo_entries_other hu rx

end Threads

end Ledger

end Airl.Channels
