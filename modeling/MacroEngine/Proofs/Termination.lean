import MacroEngine.Proofs.Cycles
import MacroEngine.Proofs.Endings
import MacroEngine.Proofs.Missteps

/-! A run that is left alone ends if its macro, and every macro that runs in it, has a gate before
each loop without end. An invocation goes the way of its passage, whichever of its steps fail, and
that has an end; and the stack grows no higher than the library allows. -/
namespace MacroEngine

def Library.Runs (library : Library) (caller callee : Routine) : Prop :=
  ∃ step ∈ caller.steps, ∃ name, step.command = .runMacro name ∧ library.native name = .ok callee

namespace Snapshot

variable {engine : Engine γ} {s : Snapshot γ} {m : Nat} {inv : Invocation}
  {below : List Invocation} {entering : Prop} {c : Course Flow}

structure Treading (config : Config) (m : Nat) (inv : Invocation) (below : List Invocation)
    (s : Snapshot γ) : Prop where
  stack : s.run.fiber.stack = inv :: below
  phase : s.run.fiber.phase = .ready
  spot : (Passage.after config inv.routine m).spot = some (inv.cursor, inv.frames)

structure Stepping (rules : Rules) (m : Nat) (entering : Prop) (inv : Invocation)
    (below : List Invocation) (c : Course Flow) (s : Snapshot γ) : Prop
    extends s.Going inv below c where
  treads : ∃ frames step, (Passage.after rules.config inv.routine m).spot = some (inv.cursor, frames)
    ∧ inv.routine.get? inv.cursor = some step ∧
    c.Treads rules.config rules.library inv.cursor frames step entering inv.frames

/-- The next step of the passage has entered another macro, which has not begun. -/
structure Calling (rules : Rules) (m : Nat) (parent : Invocation) (below : List Invocation)
    (s : Snapshot γ) : Prop where
  child : ∃ child, s.Treading rules.config 0 child (parent :: below) ∧
    rules.library.Runs parent.routine child.routine
  spot : (Passage.after rules.config parent.routine m).spot = some (parent.cursor, parent.frames)
  command : ∃ step name, parent.routine.get? parent.cursor = some step ∧
    step.command = .runMacro name

/-- The innermost invocation is over: so is all of the stack, or the one below is back in its
step. -/
def Shed (below : List Invocation) (s : Snapshot γ) : Prop :=
  s.run.fiber.result?.isSome ∨ ∃ parent rest span, below = parent :: rest ∧
    s.run.fiber.stack = { parent with resumeWait := none } :: rest ∧
    s.run.fiber.phase = .busy (.doing (.pause span (.done .next)))

theorem shed_leave (now : Moment) (game : γ) (run : Run) (f : Fiber) (inv : Invocation)
    (below : List Invocation) (stopped : Bool) :
    Shed below ⟨now, game, { run with fiber := f.leave inv below stopped }⟩ := by
  cases below with
  | nil => exact .inl rfl
  | cons parent rest => exact .inr ⟨parent, rest, _, rfl, rfl, rfl⟩

def Gone (config : Config) (m : Nat) (routine : Routine) (below : List Invocation)
    (s : Snapshot γ) : Prop :=
  s.Shed below ∨ ∃ inv, inv.routine = routine ∧ s.Treading config (m + 1) inv below

theorem Free.running (hf : s.Free engine) (hs : s.run.Orderly)
    (hstack : s.run.fiber.stack = inv :: below) :
    s.run.fiber.controls.state inv.control = .running := by
  have ho : s.run.outcome = none := by
    refine Option.not_isSome_iff_eq_none.mp fun ho => ?_
    have hempty := hs.finished ho
    rw [hstack] at hempty
    cases hempty
  rw [Controls.state, hf.head_started ho hstack, Lifecycle.started_state]

theorem tick_crosses (hs : s.run.Orderly) (h : s.Treading engine.rules.config m inv below)
    (hrunning : s.run.fiber.controls.state inv.control = .running)
    (hget : inv.routine.get? inv.cursor = none) :
    (s.tick engine).Gone engine.rules.config m inv.routine below := by
  have hstep : s.run.fiber.step? engine s.now s.game =
      some (Fiber.finishSteps engine.client s.now s.game s.run.fiber inv below) := by
    rw [Fiber.step?_ready h.stack h.phase]
    simp [Fiber.begin?, hrunning, hget]
  cases hcross : Frames.crossEnd inv.frames with
  | none =>
    rw [Fiber.finishSteps_none engine.client hcross] at hstep
    rw [tick_stacked hs hstep]
    exact .inl (shed_leave _ _ _ _ _ _ _)
  | some crossing =>
    rw [Fiber.finishSteps_some engine.client hcross] at hstep
    dsimp only at hstep
    split at hstep
    · rename_i hagain
      rw [tick_stacked hs hstep]
      refine .inr ⟨{ inv with frames := crossing.frames, cursor := 0 }, rfl, rfl, rfl, ?_⟩
      rw [Passage.after_succ, Passage.next_crossEnd h.spot hget hcross]
      simp [hagain]
    · rw [tick_stacked hs hstep]
      exact .inl (shed_leave _ _ _ _ _ _ _)

theorem tick_treads {step : Step} (hs : s.run.Orderly)
    (h : s.Treading engine.rules.config m inv below)
    (hrunning : s.run.fiber.controls.state inv.control = .running)
    (hget : inv.routine.get? inv.cursor = some step) :
    ∃ c, (s.tick engine).Stepping engine.rules m True inv below c := by
  have htick : s.tick engine = _ := tick_begins hs h.stack h.phase (by rw [hrunning]; decide)
    (by rw [hrunning]; decide) hget
  refine ⟨_, ⟨⟨orderly_tick hs, ?_, ?_, ?_⟩, inv.frames, step, h.spot, hget,
    Course.treads_step engine.rules s.run.fiber.chain inv.cursor inv.frames step⟩⟩
  · rw [htick]
    exact h.stack
  · rw [htick]
  · rw [htick]
    exact hrunning

/-- The end of the step. A soft error under a lenient policy leads where the step itself would
have led. -/
theorem tick_ends (h : s.Stepping engine.rules m entering inv below c) (hend : c.end?.isSome) :
    (s.tick engine).Gone engine.rules.config m inv.routine below ∨
    entering ∧ ∃ parent, parent.routine = inv.routine ∧
      (s.tick engine).Calling engine.rules m parent below := by
  obtain ⟨ending, hend⟩ := Option.isSome_iff_exists.mp hend
  obtain ⟨frames, step, hspot, hget, htreads⟩ := h.treads
  have htick : s.tick engine = _ := tick_concludes h.orderly h.stack h.phase hend
  have hnext := Passage.after_succ engine.rules.config inv.routine m
  rw [Passage.next_step hspot hget] at hnext
  rcases htreads.ending hend with ⟨rfl, hframes⟩ | ⟨hentering, hframes, name, routine, wait, rfl,
    hcommand, hlib⟩ | ⟨site, error, rfl, hsoft⟩
  · left
    rw [htick]
    cases hflow : (step.transit engine.rules.config inv.cursor frames).flow with
    | next =>
      exact .inr ⟨{ inv with cursor := inv.cursor + 1 }, rfl, rfl, rfl,
        by simp [hnext, hflow, hframes, Passage.target]⟩
    | jump index =>
      exact .inr ⟨{ inv with cursor := index }, rfl, rfl, rfl,
        by simp [hnext, hflow, hframes, Passage.target]⟩
    | finish => exact .inl (shed_leave _ _ _ _ _ _ _)
    | enter => exact absurd hflow (Step.transit_ne_enter _ _ _ _ _ _ _)
  · right
    rw [htick]
    refine ⟨hentering, { inv with resumeWait := some wait }, rfl,
      ⟨_, ⟨rfl, rfl, rfl⟩, step, List.mem_of_getElem? hget, name, hcommand, hlib⟩, ?_,
      step, name, hget, hcommand⟩
    rw [hspot, hframes]
  · left
    rw [htick]
    simp only [Fiber.conclude, Fiber.handleFailure]
    split
    · rename_i hs
      cases engine.rules.config.onError site with
      | stop => exact .inl (.inl rfl)
      | «continue» =>
        exact .inr ⟨{ inv with cursor := inv.cursor + 1 }, rfl, rfl, rfl,
          by simp [hnext, hsoft hs, Passage.target]⟩
    · exact .inl (.inl rfl)

/-- The course of the step comes to its end, as no check pauses the macro. -/
theorem stepping_gone (hf : s.Free engine) (h : s.Stepping engine.rules m entering inv below c) :
    ∃ n, (s.after engine n).Gone engine.rules.config m inv.routine below ∨
      entering ∧ ∃ parent, parent.routine = inv.routine ∧
        (s.after engine n).Calling engine.rules m parent below := by
  obtain ⟨frames, step, hspot, hget, htreads⟩ := h.treads
  obtain ⟨n, frames', c', hgoing, htreads', hend | hheld⟩ :=
    course_arrives (Course.keeps_treads engine.means) h.toGoing htreads
  · have hstepping : (s.after engine n).Stepping engine.rules m entering
        { inv with frames := frames' } below c' := ⟨hgoing, frames, step, hspot, hget, htreads'⟩
    refine ⟨n + 1, ?_⟩
    have hends := tick_ends hstepping hend
    rwa [← after_succ] at hends
  · obtain ⟨reason, next, rfl⟩ := hheld
    exact absurd ⟨reason, next, hgoing.phase⟩ (hf.unheld n)

/-- Back from the macro that it ran, the step is complete. -/
theorem calling_gone {parent : Invocation} (hf : s.Free engine) (hs : s.run.Orderly)
    (h : s.Calling engine.rules m parent below) {n : Nat}
    (hshed : (s.after engine n).Shed (parent :: below)) :
    ∃ n, (s.after engine n).Gone engine.rules.config m parent.routine below := by
  rcases hshed with hresult | ⟨_, _, span, he, hstack, hphase⟩
  · exact ⟨n, .inl (.inl hresult)⟩
  · cases he
    obtain ⟨step, name, hget, hcommand⟩ := h.command
    have horderly : (s.after engine n).run.Orderly := orderly_after hs n
    have hgoing : (s.after engine n).Going { parent with resumeWait := none } below
        (.doing (.pause span (.done .next))) :=
      ⟨horderly, hstack, hphase, (hf.after n).running horderly hstack⟩
    have hstepping : (s.after engine n).Stepping engine.rules m False
        { parent with resumeWait := none } below (.doing (.pause span (.done .next))) :=
      ⟨hgoing, parent.frames, step, h.spot, hget, Course.treads_resumed hcommand span⟩
    obtain ⟨k, hgone | ⟨hno, _⟩⟩ := stepping_gone (hf.after n) hstepping
    · exact ⟨n + k, by rwa [after_add]⟩
    · exact hno.elim

/-- The next move of the passage is made, if every macro that it runs ends. -/
theorem treading_gone (hf : s.Free engine) (hs : s.run.Orderly)
    (henters : ∀ n parent, parent.routine = inv.routine →
      (s.after engine n).Calling engine.rules m parent below →
        ∃ k, ((s.after engine n).after engine k).Shed (parent :: below))
    (h : s.Treading engine.rules.config m inv below) :
    ∃ n, (s.after engine n).Gone engine.rules.config m inv.routine below := by
  have hrunning := hf.running hs h.stack
  cases hget : inv.routine.get? inv.cursor with
  | none => exact ⟨1, tick_crosses hs h hrunning hget⟩
  | some step =>
    obtain ⟨c, hstepping⟩ := tick_treads hs h hrunning hget
    obtain ⟨n, hgone | ⟨_, parent, hroutine, hcalling⟩⟩ := stepping_gone hf.tick hstepping
    · rw [after_tick] at hgone
      exact ⟨n + 1, hgone⟩
    · rw [after_tick] at hcalling
      obtain ⟨k, hshed⟩ := henters (n + 1) parent hroutine hcalling
      obtain ⟨k', hgone⟩ :=
        calling_gone (hf.after (n + 1)) (orderly_after hs (n + 1)) hcalling hshed
      rw [← after_add, hroutine] at hgone
      exact ⟨n + 1 + k', hgone⟩

/-- Induction on the moves that are left of the passage. -/
theorem passage_sheds (hf : s.Free engine) (hs : s.run.Orderly) {routine : Routine} {M : Nat}
    (hend : (Passage.after engine.rules.config routine M).spot = none)
    (henters : ∀ n m parent, parent.routine = routine →
      (s.after engine n).Calling engine.rules m parent below →
        ∃ k, ((s.after engine n).after engine k).Shed (parent :: below)) :
    ∀ left m n inv, M ≤ m + left → inv.routine = routine →
      (s.after engine n).Treading engine.rules.config m inv below →
        ∃ k, ((s.after engine n).after engine k).Shed below := by
  intro left
  induction left with
  | zero =>
    intro m n inv hleft hroutine h
    have hover := h.spot
    rw [hroutine, Passage.after_of_over (n := m) hend hleft] at hover
    cases hover
  | succ left ih =>
    intro m n inv hleft hroutine h
    have horderly : (s.after engine n).run.Orderly := orderly_after hs n
    have henters' : ∀ k parent, parent.routine = inv.routine →
        ((s.after engine n).after engine k).Calling engine.rules m parent below →
          ∃ j, (((s.after engine n).after engine k).after engine j).Shed (parent :: below) := by
      intro k parent hparent
      rw [← after_add]
      exact henters (n + k) m parent (hparent.trans hroutine)
    obtain ⟨k, hshed | ⟨inv', hroutine', h'⟩⟩ := treading_gone (hf.after n) horderly henters' h
    · exact ⟨k, hshed⟩
    · rw [← after_add] at h'
      obtain ⟨j, hshed⟩ := ih (m + 1) (n + k) inv' (by omega) (hroutine'.trans hroutine) h'
      exact ⟨k + j, by rwa [← after_add, ← Nat.add_assoc, after_add]⟩

/-- Induction on how much higher the stack can get. -/
theorem stack_sheds {s : Snapshot γ} (hfresh : s.run.Fresh) (hf : s.Free engine) :
    ∀ higher n m inv below,
      1 + (engine.rules.library.entries.countP fun entry => entry.kind = .native) <
        (inv :: below).length + higher →
      (∀ r, Relation.ReflTransGen engine.rules.library.Runs inv.routine r → r.Gated) →
      (s.after engine n).Treading engine.rules.config m inv below →
        ∃ k, ((s.after engine n).after engine k).Shed below := by
  intro higher
  induction higher with
  | zero =>
    intro n m inv below hhigh _ h
    have hmoves : Moves engine (fun _ => True) s (s.after engine n) := moves_after s n
    have hle := (nested_moves hfresh hmoves).called.length_le
    rw [h.stack] at hle
    omega
  | succ higher ih =>
    intro n m inv below hhigh hgated h
    obtain ⟨M, hend⟩ := Passage.ends engine.rules.config (hgated _ .refl)
    refine passage_sheds hf (Run.orderly_fresh hfresh) hend (fun n m parent hparent hcalling => ?_)
      M m n inv (Nat.le_add_left M m) rfl h
    obtain ⟨child, hchild, hruns⟩ := hcalling.child
    refine ih n 0 child (parent :: below) ?_ (fun r hr => ?_) hchild
    · simp only [List.length_cons] at hhigh ⊢
      omega
    · exact hgated r (.head (hparent ▸ hruns) hr)

/-- Whatever the game answers, whichever steps fail and whatever the policies are. -/
theorem runs_end {now : Moment} {game : γ} {name : String} {routine : Routine}
    (hgated : ∀ r, Relation.ReflTransGen engine.rules.library.Runs routine r → r.Gated)
    (hunheld : ∀ n, ¬ ((start now game name routine).after engine n).run.fiber.Trips) :
    ∃ n outcome, ((start now game name routine).after engine n).run.outcome = some outcome := by
  have hf : (start now game name routine).Free engine :=
    ⟨rfl, governed_start Lifecycle.kept_started now game name routine, hunheld⟩
  have hfresh : (start now game name routine).run.Fresh := .routine name routine
  have hstart : (start now game name routine).Treading engine.rules.config 0
      (.begin name routine Controls.root) [] := ⟨rfl, rfl, rfl⟩
  obtain ⟨n, hresult | ⟨_, _, _, he, _⟩⟩ :=
    stack_sheds hfresh hf (1 + engine.rules.library.entries.countP fun entry => entry.kind = .native)
      0 0 _ [] (by simp only [List.length_singleton]; omega) hgated hstart
  · cases ho : ((start now game name routine).after engine n).run.outcome with
    | some outcome => exact ⟨n, outcome, ho⟩
    | none =>
      obtain ⟨result, hp⟩ : ∃ result, ((start now game name routine).after engine n).run.fiber.phase =
          .ended result := by
        unfold Fiber.result? at hresult
        split at hresult
        · exact ⟨_, ‹_›⟩
        · cases hresult
      refine ⟨n + 1, Option.isSome_iff_exists.mp ?_⟩
      rw [after_succ, tick_finishes engine (hf.after n).native ho hp]
      rfl
  · cases he

def kettle : Library := ⟨[⟨"pot", .native, "/craft 1\n/loop"⟩]⟩

def simmering : Routine := ⟨[⟨1, .craft 1, "1", {}⟩, ⟨2, .loop .infinite, "", {}⟩]⟩

def boiling : Routine :=
  ⟨[⟨1, .loop .infinite, "", {}⟩, ⟨2, .runMacro "pot", "pot", {}⟩, ⟨3, .craft 1, "1", {}⟩]⟩

theorem runs_end_boiling :
    (∀ r, Relation.ReflTransGen kettle.Runs boiling r → r.Gated) ∧
    (∀ n, ¬ ((start 0 () "m" boiling).after (.still kettle) n).run.fiber.Trips) ∧
    ∃ n outcome, ((start 0 () "m" boiling).after (.still kettle) n).run.outcome =
      some outcome := by
  have hpot : kettle.native "pot" = .ok simmering := by decide +kernel
  have hgated : ∀ r, Relation.ReflTransGen kettle.Runs boiling r → r.Gated := by
    intro r hr
    have hr : r = boiling ∨ r = simmering := by
      induction hr with
      | refl => exact .inl rfl
      | tail _ hruns ih =>
        obtain ⟨step, hstep, name, hcommand, hlib⟩ := hruns
        right
        have hname : name = "pot" := by
          rcases ih with rfl | rfl <;> simp [boiling, simmering] at hstep <;>
            rcases hstep with rfl | rfl | rfl <;> simp_all
        rw [hname, hpot] at hlib
        exact (Except.ok.inj hlib).symm
    rcases hr with rfl | rfl <;> decide
  have hunheld : ∀ n, ¬ ((start 0 () "m" boiling).after (.still kettle) n).run.fiber.Trips := by
    intro n
    have hmoves : Moves (.still kettle) (fun _ => True) (start 0 () "m" boiling)
        ((start 0 () "m" boiling).after (.still kettle) n) := moves_after _ n
    exact not_trips_of_quiet Client.still_quiet (.routine "m" boiling) hmoves
  exact ⟨hgated, hunheld, runs_end hgated hunheld⟩

end Snapshot
end MacroEngine
