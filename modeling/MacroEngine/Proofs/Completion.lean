import MacroEngine.Proofs.Following

/-! A run whose plain steps all complete executes the steps of the passage of its macro, all of
them and no others, and ends when the passage does. -/
namespace MacroEngine

/-- A game that shows nothing and takes whatever it is given. -/
def Client.still : Client Unit where
  view _ _ := {
    isAcknowledged := fun _ => true
    isBusy := false
    category := fun _ => .general
    condition := none
    conditionNames := []
    quality := none
    hqChance := none
    stats := {}
    needsRepair := false
    spiritbondReady := fun _ => false
    hasStatus := fun _ => false
    itemCount := fun _ _ => some 0
    target := none
    addon := fun _ => .missing }
  issue _ _ _ := (.ok 0, ())
  perform _ _ _ := (.ok (), ())
  echo _ _ _ := ()
  notify _ _ _ := ()

def Engine.still (library : Library) : Engine Unit := ⟨⟨.default, library⟩, .still, .lowest⟩

def Phase.clear : Phase → Bool
  | .busy (.doing (.fail _ _)) | .busy (.doing (.mark (.held _) _)) => false
  | _ => true

namespace Snapshot

/-- Left alone, the run meets no failing step and no check that pauses it, and every macro that it
enters ends. -/
structure Completes (engine : Engine γ) (s : Snapshot γ) : Prop where
  unfailing : ∀ n site error, (s.after engine n).run.fiber.phase ≠ .busy (.doing (.fail site error))
  unheld : ∀ n, ¬ (s.after engine n).run.fiber.Trips
  returning : ∀ n, ∃ m, n ≤ m ∧ (s.after engine m).run.fiber.stack.length ≤ 1

variable {engine : Engine γ} {s : Snapshot γ} {name : String} {routine : Routine} {p : Passage}

theorem Completes.tick (hs : s.Completes engine) : (s.tick engine).Completes engine where
  unfailing n := by
    rw [after_tick]
    exact hs.unfailing (n + 1)
  unheld n := by
    rw [after_tick]
    exact hs.unheld (n + 1)
  returning n := by
    obtain ⟨m, hm, hlow⟩ := hs.returning (n + 1)
    obtain ⟨k, rfl⟩ : ∃ k, m = k + 1 := ⟨m - 1, by omega⟩
    exact ⟨k, by omega, by rwa [after_tick]⟩

theorem after_of_over {N : Nat} (ho : (s.after engine N).run.outcome.isSome) (n : Nat) :
    s.after engine (N + n) = s.after engine N := by
  have hfix : (s.after engine N).tick engine = s.after engine N := by
    simp [Snapshot.tick, Run.step?, Run.wake?, ho]
  induction n with
  | zero => rfl
  | succ n ih => rw [← Nat.add_assoc, Snapshot.after_succ, ih, hfix]

/-- A run completes that was seen to the end without a failure or a pause. -/
theorem Completes.of_over {N : Nat} (ho : (s.after engine N).run.outcome.isSome)
    (hlow : (s.after engine N).run.fiber.stack.length ≤ 1)
    (hclear : ∀ n ≤ N, (s.after engine n).run.fiber.phase.clear = true) : s.Completes engine := by
  have hall : ∀ n, (s.after engine n).run.fiber.phase.clear = true := by
    intro n
    by_cases hn : n ≤ N
    · exact hclear n hn
    · obtain ⟨k, rfl⟩ : ∃ k, n = N + k := ⟨n - N, by omega⟩
      rw [after_of_over ho]
      exact hclear N (Nat.le_refl N)
  refine ⟨fun n site error hp => ?_, fun n ⟨reason, next, hp⟩ => ?_, fun n => ?_⟩
  · have hn := hall n
    rw [hp] at hn
    cases hn
  · have hn := hall n
    rw [hp] at hn
    cases hn
  · exact ⟨N + n, Nat.le_add_left n N, by rwa [after_of_over ho]⟩

structure Smooth (engine : Engine γ) (s : Snapshot γ) : Prop
    extends s.Completes engine, s.Free engine

theorem Completes.smooth {now : Moment} {game : γ}
    (h : (start now game name routine).Completes engine) :
    (start now game name routine).Smooth engine where
  toCompletes := h
  native := rfl
  governed := governed_start Lifecycle.kept_started now game name routine

theorem Smooth.tick (hs : s.Smooth engine) : (s.tick engine).Smooth engine where
  toCompletes := hs.toCompletes.tick
  native := hs.toFree.tick.native
  governed := hs.toFree.tick.governed

theorem Smooth.after (hs : s.Smooth engine) (n : Nat) : (s.after engine n).Smooth engine := by
  induction n with
  | zero => exact hs
  | succ n ih =>
    rw [after_succ]
    exact ih.tick

structure Finished (name : String) (routine : Routine) (p : Passage) (s : Snapshot γ) : Prop where
  tallies : s.run.fiber.Tallies name routine p
  crossings : routine.Alone → s.run.fiber.crossings = p.crossings
  spot : p.spot = none
  outcome : ∃ now, s.run.outcome = some ⟨.ok (s.run.report false), now⟩

inductive Follows (config : Config) (name : String) (routine : Routine) (p : Passage)
    (s : Snapshot γ) : Prop where
  | before {base} : s.run.outcome = none → s.run.fiber.Before name routine p base →
      Follows config name routine p s
  | during {entering base c} : s.run.outcome = none →
      s.run.fiber.During config name routine p entering base c → Follows config name routine p s
  | away {top rest base} : s.run.outcome = none → s.run.fiber.Away name routine p top rest base →
      Follows config name routine p s
  | ended : s.run.outcome = none → s.run.fiber.Over name routine p → Follows config name routine p s
  | finished : s.Finished name routine p → Follows config name routine p s

theorem Follows.tallies {config : Config} (h : s.Follows config name routine p) :
    s.run.fiber.Tallies name routine p := by
  cases h with
  | before _ h | during _ h | away _ h | ended _ h => exact h.toTallies
  | finished h => exact h.tallies

theorem tick_over (hn : s.Native) (ho : s.run.outcome = none)
    (hf : s.run.fiber.Over name routine p) : (s.tick engine).Finished name routine p := by
  have htick : s.tick engine = { s with run := s.run.finish s.now (.ok (s.run.report false)) } :=
    tick_finishes engine hn ho hf.phase
  rw [htick]
  exact ⟨⟨hf.completed, hf.steps⟩, hf.crossings, hf.spot, s.now, rfl⟩

theorem tick_finished (hf : s.Finished name routine p) : s.tick engine = s := by
  obtain ⟨now, ho⟩ := hf.outcome
  simp [Snapshot.tick, Run.step?, Run.wake?, ho]

theorem follows_onward {config : Config} (ho : s.run.outcome = none)
    (h : s.run.fiber.Onward name routine p) : s.Follows config name routine p := by
  rcases h with ⟨base, h⟩ | h
  · exact .before ho h
  · exact .ended ho h

theorem before_tick {base : Invocation} (hs : s.Smooth engine) (ho : s.run.outcome = none)
    (hf : s.run.fiber.Before name routine p base) :
    (∃ c, (s.tick engine).run.outcome = none ∧
        (s.tick engine).run.fiber.During engine.rules.config name routine p True base c) ∨
      (s.tick engine).Follows engine.rules.config name routine
        (p.next engine.rules.config routine) := by
  have hstate : s.run.fiber.controls.state base.control = .running := by
    unfold Controls.state
    rw [hs.toFree.head_started ho hf.stack, Lifecycle.started_state]
  have hr : s.run.fiber.result? = none := by simp [Fiber.result?, hf.phase]
  obtain ⟨⟨game, f⟩, hstep⟩ := Option.isSome_iff_exists.mp
    (Fiber.step?_running engine s.now s.game hf.stack hf.phase hstate)
  rw [tick_of_step? hs.native ho hr hstep]
  rcases hf.step (hs.governed ho) (Fiber.smallStep_of_step? hstep) with ⟨c, h⟩ | h
  · exact .inl ⟨c, ho, h⟩
  · exact .inr (follows_onward ho h)

theorem during_tick {entering : Prop} {base : Invocation} {c : Course Flow}
    (hs : s.Smooth engine) (ho : s.run.outcome = none)
    (hf : s.run.fiber.During engine.rules.config name routine p entering base c) :
    (c.end? = none ∧ ∃ base c, (s.tick engine).run.outcome = none ∧
        (s.tick engine).run.fiber.During engine.rules.config name routine p entering base c) ∨
      (s.tick engine).Follows engine.rules.config name routine
        (p.next engine.rules.config routine) ∨
      entering ∧ ∃ top rest base, (s.tick engine).run.outcome = none ∧
        (s.tick engine).run.fiber.Away name routine p top rest base := by
  have hr : s.run.fiber.result? = none := by simp [Fiber.result?, hf.phase]
  rcases tick_native engine hs.native ho hr with
    ⟨game, f, hstep, htick⟩ | ⟨hstep, now, htick⟩
  · rw [htick]
    rcases hf.step (hs.governed ho) (hs.unfailing 0) (Fiber.smallStep_of_step? hstep) with
      ⟨hend, base, c, h⟩ | h | ⟨he, top, rest, base, h⟩
    · exact .inl ⟨hend, base, c, ho, h⟩
    · exact .inr (.inl (follows_onward ho h))
    · exact .inr (.inr ⟨he, top, rest, base, ho, h⟩)
  · cases hend : c.end? with
    | none =>
      rw [htick]
      exact .inl ⟨rfl, base, c, ho, hf⟩
    | some ending =>
      rw [Fiber.step?_concluded hf.stack hf.phase hend] at hstep
      cases hstep

theorem away_tick {top base : Invocation} {rest : List Invocation}
    (hs : s.Smooth engine) (ho : s.run.outcome = none)
    (hf : s.run.fiber.Away name routine p top rest base) :
    (∃ top rest base, (s.tick engine).run.outcome = none ∧
        (s.tick engine).run.fiber.Away name routine p top rest base) ∨
      ∃ base c, (s.tick engine).run.outcome = none ∧
        (s.tick engine).run.fiber.During engine.rules.config name routine p False base c := by
  rcases tick_native engine hs.native ho hf.going with
    ⟨game, f, hstep, htick⟩ | ⟨hstep, now, htick⟩
  · rw [htick]
    rcases hf.step (hs.governed ho) (hs.unfailing 0) (Fiber.smallStep_of_step? hstep) with
      ⟨top, rest, base, h⟩ | ⟨base, c, h⟩
    · exact .inl ⟨top, rest, base, ho, h⟩
    · exact .inr ⟨base, c, ho, h⟩
  · rw [htick]
    exact .inl ⟨top, rest, base, ho, hf⟩

theorem holds_until (engine : Engine γ) {P Q : Snapshot γ → Prop}
    (hstep : ∀ s, P s → P (s.tick engine) ∨ Q (s.tick engine)) (hs : P s) (n : Nat) :
    P (s.after engine n) ∨ ∃ k, Q (s.after engine k) := by
  induction n with
  | zero => exact .inl hs
  | succ n ih =>
    rcases ih with h | h
    · rcases hstep _ h with h | h
      · exact .inl (by rwa [after_succ])
      · exact .inr ⟨n + 1, by rwa [after_succ]⟩
    · exact .inr h

/-- The course of a step ends, and then the step is complete or has entered another macro. -/
theorem during_leaves {entering : Prop} {base : Invocation} {c : Course Flow}
    (hs : s.Smooth engine) (ho : s.run.outcome = none)
    (hf : s.run.fiber.During engine.rules.config name routine p entering base c) :
    ∃ n, (s.after engine n).Follows engine.rules.config name routine
        (p.next engine.rules.config routine) ∨
      entering ∧ ∃ top rest base, (s.after engine n).run.outcome = none ∧
        (s.after engine n).run.fiber.Away name routine p top rest base := by
  obtain ⟨n, c', hbusy, hend, _⟩ := course_ends hs.toFree
    ⟨ho, by rw [hf.stack]; exact List.cons_ne_nil _ _, hf.phase⟩
  have hstill := holds_until engine
    (P := fun s => s.Smooth engine ∧ ∃ base c, s.run.outcome = none ∧
      s.run.fiber.During engine.rules.config name routine p entering base c)
    (Q := fun s => s.Follows engine.rules.config name routine (p.next engine.rules.config routine) ∨
      entering ∧ ∃ top rest base, s.run.outcome = none ∧
        s.run.fiber.Away name routine p top rest base)
    (fun s ⟨hs, base, c, ho, hf⟩ =>
      (during_tick hs ho hf).imp_left fun h => ⟨hs.tick, h.2⟩)
    ⟨hs, base, c, ho, hf⟩ n
  rcases hstill with ⟨hs, base, c, ho, hf⟩ | h
  · rcases during_tick hs ho hf with ⟨hnone, _⟩ | h
    · have hsame := hf.phase.symm.trans hbusy.phase
      cases hsame
      rw [hnone] at hend
      cases hend
    · exact ⟨n + 1, by rwa [after_succ]⟩
  · exact h

theorem away_returns {top base : Invocation} {rest : List Invocation}
    (hs : s.Smooth engine) (ho : s.run.outcome = none)
    (hf : s.run.fiber.Away name routine p top rest base) :
    ∃ n base c, (s.after engine n).run.outcome = none ∧
      (s.after engine n).run.fiber.During engine.rules.config name routine p False base c := by
  obtain ⟨n, _, hlow⟩ := hs.returning 0
  have hstill := holds_until engine
    (P := fun s => s.Smooth engine ∧ ∃ top rest base, s.run.outcome = none ∧
      s.run.fiber.Away name routine p top rest base)
    (Q := fun s => ∃ base c, s.run.outcome = none ∧
      s.run.fiber.During engine.rules.config name routine p False base c)
    (fun s ⟨hs, top, rest, base, ho, hf⟩ =>
      (away_tick hs ho hf).imp_left fun h => ⟨hs.tick, h⟩)
    ⟨hs, top, rest, base, ho, hf⟩ n
  rcases hstill with ⟨_, top, rest, base, _, hf⟩ | h
  · rw [hf.stack] at hlow
    simp at hlow
  · exact h

theorem during_back {base : Invocation} {c : Course Flow} (hs : s.Smooth engine)
    (ho : s.run.outcome = none)
    (hf : s.run.fiber.During engine.rules.config name routine p False base c) :
    ∃ n, (s.after engine n).Follows engine.rules.config name routine
      (p.next engine.rules.config routine) := by
  obtain ⟨n, h | ⟨hno, _⟩⟩ := during_leaves hs ho hf
  · exact ⟨n, h⟩
  · exact hno.elim

theorem away_next {top base : Invocation} {rest : List Invocation} (hs : s.Smooth engine)
    (ho : s.run.outcome = none) (hf : s.run.fiber.Away name routine p top rest base) :
    ∃ n, (s.after engine n).Follows engine.rules.config name routine
      (p.next engine.rules.config routine) := by
  obtain ⟨k, base, c, ho, hf⟩ := away_returns hs ho hf
  obtain ⟨n, h⟩ := during_back (hs.after k) ho hf
  exact ⟨k + n, by rwa [after_add]⟩

theorem during_next {entering : Prop} {base : Invocation} {c : Course Flow} (hs : s.Smooth engine)
    (ho : s.run.outcome = none)
    (hf : s.run.fiber.During engine.rules.config name routine p entering base c) :
    ∃ n, (s.after engine n).Follows engine.rules.config name routine
      (p.next engine.rules.config routine) := by
  obtain ⟨k, h | ⟨_, top, rest, base, ho, hf⟩⟩ := during_leaves hs ho hf
  · exact ⟨k, h⟩
  · obtain ⟨n, h⟩ := away_next (hs.after k) ho hf
    exact ⟨k + n, by rwa [after_add]⟩

/-- Wherever a run follows the passage, it gets to the next step of it. -/
theorem follows_next (hs : s.Smooth engine) (h : s.Follows engine.rules.config name routine p) :
    ∃ n, (s.after engine n).Follows engine.rules.config name routine
      (p.next engine.rules.config routine) := by
  cases h with
  | before ho hf =>
    rcases before_tick hs ho hf with ⟨c, ho, hf⟩ | h
    · obtain ⟨n, h⟩ := during_next hs.tick ho hf
      exact ⟨n + 1, by rwa [← after_tick]⟩
    · exact ⟨1, h⟩
  | during ho hf => exact during_next hs ho hf
  | away ho hf => exact away_next hs ho hf
  | ended ho hf => exact ⟨0, by rw [Passage.next_of_over hf.spot]; exact .ended ho hf⟩
  | finished hf => exact ⟨0, by rw [Passage.next_of_over hf.spot]; exact .finished hf⟩

/-- A tick gets no further than to the next step of the passage. -/
theorem follows_tick (hs : s.Smooth engine) (h : s.Follows engine.rules.config name routine p) :
    (s.tick engine).Follows engine.rules.config name routine p ∨
      (s.tick engine).Follows engine.rules.config name routine
        (p.next engine.rules.config routine) := by
  cases h with
  | before ho hf =>
    rcases before_tick hs ho hf with ⟨c, ho, hf⟩ | h
    · exact .inl (.during ho hf)
    · exact .inr h
  | during ho hf =>
    rcases during_tick hs ho hf with ⟨_, base, c, ho, hf⟩ | h | ⟨_, top, rest, base, ho, hf⟩
    · exact .inl (.during ho hf)
    · exact .inr h
    · exact .inl (.away ho hf)
  | away ho hf =>
    rcases away_tick hs ho hf with ⟨top, rest, base, ho, hf⟩ | ⟨base, c, ho, hf⟩
    · exact .inl (.away ho hf)
    · exact .inl (.during ho hf)
  | ended ho hf => exact .inl (.finished (tick_over hs.native ho hf))
  | finished hf => exact .inl (by rw [tick_finished hf]; exact .finished hf)

namespace Completes

variable {now : Moment} {game : γ}

theorem follows (h : (start now game name routine).Completes engine) (n : Nat) :
    ∃ m, ((start now game name routine).after engine n).Follows engine.rules.config name routine
      (Passage.after engine.rules.config routine m) := by
  induction n with
  | zero => exact ⟨0, .before rfl ⟨⟨rfl, fun _ => rfl⟩, rfl, rfl, ⟨rfl, rfl⟩, rfl, fun _ => rfl⟩⟩
  | succ n ih =>
    obtain ⟨m, hm⟩ := ih
    rw [Snapshot.after_succ]
    rcases follows_tick (h.smooth.after n) hm with h | h
    · exact ⟨m, h⟩
    · exact ⟨m + 1, by rwa [Passage.after_succ]⟩

theorem reaches (h : (start now game name routine).Completes engine) (m : Nat) :
    ∃ n, ((start now game name routine).after engine n).Follows engine.rules.config name routine
      (Passage.after engine.rules.config routine m) := by
  induction m with
  | zero => exact ⟨0, .before rfl ⟨⟨rfl, fun _ => rfl⟩, rfl, rfl, ⟨rfl, rfl⟩, rfl, fun _ => rfl⟩⟩
  | succ m ih =>
    obtain ⟨n, hn⟩ := ih
    obtain ⟨k, hk⟩ := follows_next (h.smooth.after n) hn
    exact ⟨n + k, by rwa [Passage.after_succ, Snapshot.after_add]⟩

theorem executed (h : (start now game name routine).Completes engine) (steps : List Step) :
    (∃ n, completedSteps name ((start now game name routine).after engine n).run.fiber.journal =
        steps) ↔
      ∃ m, steps = Passage.stepsAt routine (Passage.after engine.rules.config routine m).trail := by
  constructor
  · rintro ⟨n, rfl⟩
    obtain ⟨m, hm⟩ := h.follows n
    exact ⟨m, hm.tallies.completed⟩
  · rintro ⟨m, rfl⟩
    obtain ⟨n, hn⟩ := h.reaches m
    exact ⟨n, hn.tallies.completed⟩

theorem finishes (h : (start now game name routine).Completes engine) {m : Nat}
    (hm : (Passage.after engine.rules.config routine m).spot = none) :
    ∃ n, ((start now game name routine).after engine n).Finished name routine
      (Passage.after engine.rules.config routine m) := by
  obtain ⟨n, hn⟩ := h.reaches m
  have hs := h.smooth.after n
  cases hn with
  | before _ hf | away _ hf =>
    rw [hf.spot] at hm
    cases hm
  | during _ hf =>
    obtain ⟨frames, step, hspot, _⟩ := hf.leads
    rw [hspot] at hm
    cases hm
  | ended ho hf => exact ⟨n + 1, by rw [Snapshot.after_succ]; exact tick_over hs.native ho hf⟩
  | finished hf => exact ⟨n, hf⟩

end Completes

end Snapshot
end MacroEngine
