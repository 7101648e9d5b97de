import MacroEngine.Proofs.Gameplay
import Mathlib.Data.List.Nodup
import Mathlib.Data.List.Range

/-! Tickets of a simulated game. They are numbers from one without gaps, and the game remembers the
latest of them, each with the moment of its issue. What was forgotten is never acknowledged. -/
namespace MacroEngine

namespace Simulation

variable {s t : Simulation} {now : Moment} {call : Call} {ticket : Option Ticket} {deed : Deed}

theorem Taken.tickets (h : Taken s now call ticket deed t) :
    (ticket = none ∧ t.issued = s.issued ∧ t.nextTicket = s.nextTicket) ∨
    (ticket = some s.nextTicket ∧ t.nextTicket = s.nextTicket + 1 ∧
      t.issued = (s.nextTicket, now) ::
        s.issued.filter fun e => s.nextTicket - e.1 < liveTickets) := by
  cases h with
  | action => exact .inr ⟨rfl, rfl, rfl⟩
  | recipe | item | target | click | keys | native | echo | notice => exact .inl ⟨rfl, rfl, rfl⟩

theorem isAcknowledged_iff (s : Simulation) (now : Moment) (ticket : Ticket) :
    s.isAcknowledged now ticket = true ↔
      s.world.acknowledgeActions = true ∧ s.world.dropFirstAcks < ticket ∧
        ∃ since, s.issued.lookup ticket = some since ∧ s.world.ackDelayMs ≤ now - since := by
  unfold isAcknowledged
  cases s.issued.lookup ticket <;> simp [and_assoc]

end Simulation

namespace Gameplay

def issuedBy (p : Gameplay) : Happening → List (Ticket × Moment)
  | .call call =>
    match (p.answered call).1 with
    | .ok (some ticket) => [(ticket, p.now)]
    | _ => []
  | .update _ | .pass _ => []

def issues (p : Gameplay) (history : List Happening) : List (Ticket × Moment) :=
  told issuedBy p history

/-- The tickets issued so far have the numbers from one, and the latest of them are remembered. -/
structure Ticketed (p : Gameplay) (issues : List (Ticket × Moment)) : Prop where
  next : p.game.nextTicket = issues.length + 1
  numbered : issues.map Prod.fst = List.range' 1 issues.length
  past : ∀ e ∈ issues, e.2 ≤ p.now
  live : ∀ e, e ∈ p.game.issued ↔ e ∈ issues ∧ issues.length < e.1 + Simulation.liveTickets

variable {p : Gameplay} {issues : List (Ticket × Moment)} {ticket : Ticket} {since : Moment}

theorem sub_lt_liveTickets (n k : Nat) :
    n - k < Simulation.liveTickets ↔ n < k + Simulation.liveTickets := by
  have hpositive : 0 < Simulation.liveTickets := by decide
  omega

theorem Ticketed.start (begun : Moment) (world : World) (limit : Option Nat) :
    Ticketed (start begun world limit) [] where
  next := rfl
  numbered := rfl
  past := nofun
  live e := by simp [Gameplay.start, Simulation.ofWorld]

/-- The next ticket is one more than the latest, and the one that drops out is 256 older. -/
theorem Ticketed.issue (h : Ticketed p issues) {game : Simulation}
    (hnext : game.nextTicket = p.game.nextTicket + 1)
    (hissued : game.issued = (p.game.nextTicket, p.now) ::
      p.game.issued.filter fun e => p.game.nextTicket - e.1 < Simulation.liveTickets) :
    Ticketed { p with game := game } (issues ++ [(p.game.nextTicket, p.now)]) where
  next := by rw [hnext, h.next, List.length_append, List.length_singleton]
  numbered := by
    rw [List.map_append, h.numbered, List.length_append, List.length_singleton,
      List.range'_concat, h.next]
    simp [Nat.add_comm]
  past := by
    intro e he
    rcases List.mem_append.mp he with he | he
    · exact h.past e he
    · rw [List.mem_singleton.mp he]
  live := by
    intro e
    have hlive := h.live e
    have hpositive : 0 < Simulation.liveTickets := by decide
    rw [hissued, List.mem_cons, List.mem_filter, hlive, List.mem_append, List.mem_singleton,
      List.length_append, List.length_singleton, decide_eq_true_eq, h.next,
      sub_lt_liveTickets]
    constructor
    · rintro (rfl | ⟨⟨hmem, _⟩, hlatest⟩)
      · exact ⟨.inr rfl, Nat.lt_add_of_pos_right hpositive⟩
      · exact ⟨.inl hmem, hlatest⟩
    · rintro ⟨hmem | rfl, hlatest⟩
      · exact .inr ⟨⟨hmem, Nat.lt_of_succ_lt hlatest⟩, hlatest⟩
      · exact .inl rfl

theorem Ticketed.step (p : Gameplay) (issues : List (Ticket × Moment)) (h : Happening)
    (hp : Ticketed p issues) : Ticketed (p.step h) (issues ++ p.issuedBy h) := by
  cases h with
  | update world =>
    rw [issuedBy, List.append_nil]
    exact ⟨hp.next, hp.numbered, hp.past, hp.live⟩
  | pass span =>
    rw [issuedBy, List.append_nil]
    exact ⟨hp.next, hp.numbered, fun e he => Nat.le_add_right_of_le (hp.past e he), hp.live⟩
  | call call =>
    change Ticketed { p with game := (p.answered call).2 } _
    unfold issuedBy
    rcases Simulation.answered_cases p.game p.now call with ⟨rfl, hanswered⟩ |
      ⟨_, error, hanswered⟩ | ⟨ticket, deed, t, htaken, hanswered⟩
    · simp only [answered, hanswered, List.append_nil]
      exact hp
    · simp only [answered, hanswered, List.append_nil]
      exact hp
    · simp only [answered, hanswered]
      rcases htaken.tickets with ⟨rfl, hissued, hnext⟩ | ⟨rfl, hnext, hissued⟩
      · rw [List.append_nil]
        refine ⟨hnext.trans hp.next, hp.numbered, hp.past, fun e => ?_⟩
        change e ∈ t.issued ↔ _
        rw [hissued]
        exact hp.live e
      · exact hp.issue hnext hissued

theorem Ticketed.unique (h : Ticketed p issues) {since' : Moment} (hs : (ticket, since) ∈ issues)
    (hs' : (ticket, since') ∈ issues) : since = since' := by
  have hnodup : (issues.map Prod.fst).Nodup := h.numbered ▸ List.nodup_range'
  have heq := List.inj_on_of_nodup_map hnodup hs hs' rfl
  exact (Prod.mk.inj heq).2

theorem Ticketed.lookup (h : Ticketed p issues) :
    p.game.issued.lookup ticket = some since ↔
      (ticket, since) ∈ issues ∧ issues.length < ticket + Simulation.liveTickets := by
  rw [← h.live (ticket, since)]
  constructor
  · intro hlookup
    obtain ⟨before, after, heq, _⟩ := List.lookup_eq_some_iff.mp hlookup
    rw [heq]
    simp
  · intro hmem
    cases hlookup : p.game.issued.lookup ticket with
    | none =>
      have hne := List.lookup_eq_none_iff.mp hlookup _ hmem
      simp at hne
    | some since' =>
      obtain ⟨before, after, heq, _⟩ := List.lookup_eq_some_iff.mp hlookup
      have hmem' : (ticket, since') ∈ p.game.issued := by rw [heq]; simp
      rw [h.unique ((h.live _).mp hmem).1 ((h.live _).mp hmem').1]

theorem countP_range' (ticket n : Nat) :
    (List.range' 1 n).countP (ticket < ·) = n - ticket := by
  induction n with
  | zero => simp
  | succ n ih =>
    rw [List.range'_concat, List.countP_append, ih]
    by_cases h : ticket < 1 + n
    · simp [h]
      omega
    · simp [h]
      omega

theorem Ticketed.later (h : Ticketed p issues) (ticket : Ticket) :
    issues.countP (fun e => ticket < e.1) = issues.length - ticket := by
  rw [← countP_range' ticket issues.length, ← h.numbered, List.countP_map]
  rfl

theorem Ticketed.acknowledged (h : Ticketed p issues) (ticket : Ticket) :
    p.game.isAcknowledged p.now ticket = true ↔
      p.game.world.acknowledgeActions = true ∧ p.game.world.dropFirstAcks < ticket ∧
        ∃ since, (ticket, since) ∈ issues ∧ issues.countP (fun e => ticket < e.1) < 256 ∧
          since + p.game.world.ackDelayMs ≤ p.now := by
  rw [Simulation.isAcknowledged_iff]
  refine and_congr_right fun _ => and_congr_right fun _ => exists_congr fun since => ?_
  have hlater : issues.countP (fun e => ticket < e.1) < 256 ↔
      issues.length < ticket + Simulation.liveTickets := by
    rw [h.later]
    exact sub_lt_liveTickets issues.length ticket
  rw [h.lookup, hlater, and_assoc]
  refine and_congr_right fun hmem => and_congr_right fun _ => ?_
  -- No ticket was issued in the future, so that the time since its issue is a difference.
  have hpast : since ≤ p.now := h.past _ hmem
  exact Nat.le_sub_iff_add_le' hpast

/-- The acknowledgement of a ticket. Tickets are the numbers from one in the order in which actions
are taken; an action that is refused has none and costs none, and no ticket that is remembered is
past the next one, so that their difference is what it seems. A ticket is acknowledged while the
world acknowledges at all and does not drop it, fewer than 256 later ones were issued, and the delay
since its issue is over. -/
theorem acknowledged_window (begun : Moment) (world : World) (limit : Option Nat)
    (history : List Happening) :
    let p := (start begun world limit).after history
    let issues := (start begun world limit).issues history
    issues.map Prod.fst = List.range' 1 issues.length ∧
    (∀ name ticket, (p.answered (.action name)).1 = .ok ticket →
      ticket = some (issues.length + 1)) ∧
    (∀ name error, (p.answered (.action name)).1 = .error error →
      (p.answered (.action name)).2.nextTicket = p.game.nextTicket) ∧
    (∀ e ∈ p.game.issued, e.1 < p.game.nextTicket) ∧
    ∀ ticket, (p.game.view p.now).isAcknowledged ticket = true ↔
      p.game.world.acknowledgeActions = true ∧ p.game.world.dropFirstAcks < ticket ∧
        ∃ since, (ticket, since) ∈ issues ∧ issues.countP (fun e => ticket < e.1) < 256 ∧
          since + p.game.world.ackDelayMs ≤ p.now := by
  intro p issues
  have hp : Ticketed p issues :=
    told_keeps Ticketed history (fun p issues h _ => .step p issues h) (.start begun world limit)
  refine ⟨hp.numbered, ?_, ?_, ?_, ?_⟩
  · intro name ticket hok
    rcases Simulation.answered_cases p.game p.now (.action name) with ⟨hlook, _⟩ |
      ⟨_, error, hanswered⟩ | ⟨ticket', deed, t, htaken, hanswered⟩
    · cases hlook
    · rw [answered, hanswered] at hok
      cases hok
    · rw [answered, hanswered] at hok
      cases hok
      cases htaken
      rw [hp.next]
  · intro name error herror
    rw [((entered_call p _).1 error herror).2]
  · intro e he
    have hmem := List.mem_map_of_mem (f := Prod.fst) ((hp.live e).mp he).1
    rw [hp.numbered, List.mem_range'_1] at hmem
    rw [hp.next, Nat.add_comm]
    exact hmem.2
  · exact hp.acknowledged

def laggard : World := { actions := ["Observe"], dropFirstAcks := 1, ackDelayMs := 200 }

def watch : List Happening :=
  [.call (.action "Observe"), .call (.action "Hide"), .call (.action "observe"), .pass 199,
    .call (.action "Observe"), .pass 1]

def watched : Gameplay := (start 0 laggard none).after watch

theorem acknowledged_window_watch :
    (watched.answered (.action "Observe")).1 = .ok (some 4) ∧
    ((start 0 laggard none).issues watch).length = 3 ∧
    (∃ error, (watched.answered (.action "Hide")).1 = .error error) ∧
    (watched.answered (.action "Hide")).2.nextTicket = watched.game.nextTicket ∧
    (watched.game.view watched.now).isAcknowledged 2 = true ∧
    ¬ (watched.game.view watched.now).isAcknowledged 1 = true ∧
    ¬ (watched.game.view watched.now).isAcknowledged 3 = true := by
  obtain ⟨_, hnext, hrefused, _, hwindow⟩ := acknowledged_window 0 laggard none watch
  rw [← watched] at hnext hrefused hwindow
  have hok : (watched.answered (.action "Observe")).1 = .ok (some 4) :=
    ok_of_toOption (by decide +kernel)
  obtain ⟨error, herror⟩ : ∃ error, (watched.answered (.action "Hide")).1 = .error error :=
    error_of_toOption (by decide +kernel)
  have hissues : (start 0 laggard none).issues watch = [(1, 0), (2, 0), (3, 199)] := by
    decide +kernel
  have hworld : watched.game.world = laggard := by decide +kernel
  have hnow : watched.now = 200 := by decide +kernel
  have hlength : ((start 0 laggard none).issues watch).length = 3 :=
    (Nat.add_right_cancel (Option.some.inj (hnext _ _ hok) : 3 + 1 = _ + 1)).symm
  rw [hworld, hissues, hnow] at hwindow
  rw [hnow]
  refine ⟨hok, hlength, ⟨error, herror⟩, hrefused _ _ herror, ?_, ?_, ?_⟩
  · exact (hwindow 2).mpr ⟨rfl, by decide, 0, by decide, by decide, by decide⟩
  · intro hack
    obtain ⟨_, hdropped, _⟩ := (hwindow 1).mp hack
    exact absurd hdropped (by decide)
  · intro hack
    obtain ⟨_, _, since, hmem, _, hdue⟩ := (hwindow 3).mp hack
    have hsince : since = 199 := by simpa using hmem
    rw [hsince] at hdue
    exact absurd hdue (by decide)

end Gameplay
end MacroEngine
