import MacroEngine.Proofs.Callers
import MacroEngine.Proofs.Stopping

/-! What a run that is stopped in the middle of its steps has counted. The step that the stop cut
short is not counted, and neither are those that had entered a macro, if they have waits: the wait
is cut short too. One without a wait is counted on the way out. -/
namespace MacroEngine

/-- The steps that a phase will count before it leaves its invocation, when all is stopped. -/
def Phase.owed : Phase → Nat
  | .busy (.doing (.pause span _)) => if span.isZero then 1 else 0
  | .busy (.doing (.done _)) => 1
  | _ => 0

/-- The step that entered the invocation above has no wait. -/
def Invocation.passing (inv : Invocation) : Bool := (inv.resumeWait.getD .zero).isZero

namespace Fiber

variable {engine : Engine γ} {now bound : Moment} {game : γ} {f : Fiber} {r : γ × Fiber}

/-- The steps that will have been counted when everything was left. -/
def due (f : Fiber) : Nat :=
  f.steps + f.phase.owed + f.stack.tail.countP Invocation.passing

/-- A stopped fiber crosses no loop, and counts the steps that it owes. -/
structure Settles (f : Fiber) (r : γ × Fiber) : Prop where
  due : r.2.due = f.due
  crossings : r.2.crossings = f.crossings

theorem settles_leave {inv : Invocation} {below : List Invocation} (hs : f.stack = inv :: below)
    (hp : f.phase.owed = 0) : f.Settles (game, f.leave inv below true) := by
  cases below with
  | nil =>
    refine ⟨?_, rfl⟩
    rw [due, due, hs, hp]
    rfl
  | cons parent rest =>
    refine ⟨?_, rfl⟩
    rw [due, due, hs, hp, List.tail_cons, List.countP_cons]
    change f.steps + (if parent.passing then 1 else 0) + rest.countP Invocation.passing = _
    omega

theorem settles_step (hf : f.Halted bound) (h : SmallStep engine now game f r) : f.Settles r := by
  have hhalt : ∀ inv below, f.stack = inv :: below → f.controls.state inv.control = .stopped :=
    fun _ _ hs => governed_head hf.governed hs
  have hspent := hf.spent
  cases h with
  | halted hs hp => exact settles_leave hs (by rw [hp]; rfl)
  -- The innermost invocation has stopped, so no step begins and none of the loops is crossed.
  | finished hs _ hne | begun hs _ hne => exact absurd (hhalt _ _ hs) hne
  | @moved inv below c s c' hs hp hc =>
    have hstate : (f.scene inv game).control.state = .stopped := hhalt _ _ hs
    rw [hp] at hspent
    cases hspent with
    | interrupted | resumed => cases hc
    | @asleep wait _ _ hwake =>
      simp only [Course.step?, Wait.readiness, hstate] at hc
      by_cases hw : now < wait.wake
      · simp [hw] at hc
      · simp only [hw, if_false] at hc
        cases hc
        exact ⟨by simp [due, withScene, scene, hs, hp, Phase.owed], rfl⟩
    | resuming span =>
      simp only [Course.step?, Course.proceed?] at hc
      split at hc
      · rename_i hz
        cases hc
        exact ⟨by simp [due, withScene, scene, hs, hp, Phase.owed, hz], rfl⟩
      · rename_i hz
        cases hc
        exact ⟨by simp [due, withScene, scene, hs, hp, Phase.owed, hz], rfl⟩
  | @concluded inv below c ending hs hp hend =>
    have howed : f.phase.owed = (Phase.busy c).owed := by rw [hp]
    rw [hp] at hspent
    cases hspent with
    | asleep | resuming => cases hend
    | interrupted =>
      cases hend
      exact settles_leave hs howed
    | resumed =>
      cases hend
      refine ⟨?_, crossings_complete f now inv⟩
      rw [due, due, howed, hs]
      change (f.complete now inv).steps + 0 + below.countP Invocation.passing =
        f.steps + 1 + below.countP Invocation.passing
      rw [steps_complete]

end Fiber

namespace Fiber

variable {bound bound' : Moment} {f : Fiber}

theorem Halted.mono (hf : f.Halted bound) (hle : bound ≤ bound') : f.Halted bound' := by
  refine ⟨hf.governed, ?_, hf.stacked⟩
  have hspent := hf.spent
  generalize f.phase = p at hspent ⊢
  cases hspent with
  | ready => exact .ready
  | asleep hwake => exact .asleep (Nat.le_trans hwake hle)
  | interrupted => exact .interrupted
  | resuming span => exact .resuming span
  | resumed => exact .resumed
  | ended => exact .ended

end Fiber

theorem Called.waits {library : Library} {stack : List Invocation} (h : Called library stack) :
    ∀ inv ∈ stack.tail, ∃ step, inv.routine.get? inv.cursor = some step ∧
      inv.resumeWait = some (step.modifiers.wait.getD .zero) := by
  induction stack with
  | nil => exact fun _ hm => nomatch hm
  | cons child below ih =>
    cases below with
    | nil => exact fun _ hm => nomatch hm
    | cons parent rest =>
      intro inv hm
      obtain ⟨⟨step, hget, _, hwait, _⟩, _⟩ := List.isChain_cons_cons.mp h.calls
      rcases List.mem_cons.mp hm with rfl | hm
      · exact ⟨step, hget, hwait⟩
      · exact ih h.tail inv hm

def Invocation.waitless (inv : Invocation) : Bool :=
  (inv.routine.get? inv.cursor).any fun step => (step.modifiers.wait.getD .zero).isZero

theorem Called.passing_eq {library : Library} {stack : List Invocation}
    (h : Called library stack) :
    stack.tail.countP Invocation.passing = stack.tail.countP Invocation.waitless := by
  apply List.countP_congr
  intro inv hm
  obtain ⟨step, hget, hwait⟩ := h.waits inv hm
  rw [Invocation.passing, Invocation.waitless, hget, hwait]
  rfl

namespace Snapshot

variable {engine : Engine γ} {s t : Snapshot γ} {now : Moment} {game : γ} {name : String}
  {routine : Routine} {steps crossings : Nat}

structure Counting (steps crossings : Nat) (s : Snapshot γ) : Prop where
  native : s.Native
  orderly : s.run.Orderly
  under : s.run.outcome = none → ∃ bound, s.now ≤ bound ∧ s.run.fiber.Halted bound ∧
    s.run.fiber.due = steps ∧ s.run.fiber.crossings = crossings
  outcome : ∀ o, s.run.outcome = some o → ∃ report, o.result = .ok report ∧
    report.stepsExecuted = steps ∧ report.loopCrossings = crossings

theorem counting_move {asks : Controls.Wish → Prop} (hs : s.Counting steps crossings)
    (h : Move engine asks s t) : t.Counting steps crossings := by
  have hnative := native_move h hs.native
  have horderly := orderly_move hs.orderly h
  cases h with
  | wish =>
    refine ⟨hnative, horderly, fun ho => ?_, hs.outcome⟩
    obtain ⟨bound, hnow, hf, hcounts⟩ := hs.under ho
    exact ⟨bound, hnow, ⟨hf.governed.grant fun _ hl => hl.apply _, hf.spent, hf.stacked⟩, hcounts⟩
  | lapse now =>
    refine ⟨hnative, horderly, fun ho => ?_, hs.outcome⟩
    obtain ⟨bound, _, hf, hcounts⟩ := hs.under ho
    exact ⟨max bound now, Nat.le_max_right _ _, hf.mono (Nat.le_max_left _ _), hcounts⟩
  | work hstep =>
    obtain ⟨ho, ⟨result, hr, rfl, rfl⟩ | ⟨f, _, hf, rfl⟩⟩ := Run.step?_native hs.native hstep
    · refine ⟨hnative, horderly, fun ho => (nomatch ho), fun o he => ?_⟩
      cases he
      obtain ⟨bound, _, hf, hdue, hcrossings⟩ := hs.under ho
      have hempty := hs.orderly.emptied hr
      have hspent := hf.spent
      unfold Fiber.result? at hr
      split at hr
      · rename_i hp
        rw [hp] at hspent
        cases hspent
        cases hr
        rw [Fiber.due, hp, hempty] at hdue
        exact ⟨_, rfl, hdue, hcrossings⟩
      · cases hr
    · refine ⟨hnative, horderly, fun _ => ?_, fun o he => ?_⟩
      · obtain ⟨bound, hnow, hhalted, hdue, hcrossings⟩ := hs.under ho
        have hsmall := Fiber.smallStep_of_step? hf
        obtain ⟨hdue', hcrossings'⟩ := Fiber.settles_step hhalted hsmall
        exact ⟨bound, hnow, (Fiber.winds_step hnow hhalted hsmall).halted, hdue'.trans hdue,
          hcrossings'.trans hcrossings⟩
      · rw [ho] at he
        cases he

theorem counting_moves {asks : Controls.Wish → Prop} (hs : s.Counting steps crossings)
    (h : Moves engine asks s t) : t.Counting steps crossings := by
  induction h with
  | refl => exact hs
  | tail _ hmove ih => exact counting_move ih hmove

theorem Counting.ends (hs : s.Counting steps crossings) :
    ∃ n report ended, (s.after engine n).run.outcome = some ⟨.ok report, ended⟩ ∧
      report.stepsExecuted = steps ∧ report.loopCrossings = crossings := by
  obtain ⟨n, hout⟩ : ∃ n, (s.after engine n).run.outcome ≠ none := by
    by_cases ho : s.run.outcome = none
    · obtain ⟨bound, hnow, hf, _⟩ := hs.under ho
      have hhalting : s.Halting bound :=
        ⟨hs.native, fun _ => ⟨hnow, hf⟩, fun o he => by rw [ho] at he; cases he⟩
      exact hhalting.ends _ rfl
    · exact ⟨0, ho⟩
  obtain ⟨o, ho⟩ := Option.ne_none_iff_exists'.mp hout
  have hmoves : Moves engine (fun _ => True) s (s.after engine n) := moves_after s n
  obtain ⟨report, hresult, hsteps, hcrossings⟩ := (counting_moves hs hmoves).outcome o ho
  exact ⟨n, report, o.ended, by rw [ho, ← hresult], hsteps, hcrossings⟩

/-- A run that is stopped while it waits counts nothing more, but for the steps without a wait
that had entered another macro: each of them is complete when that is left. -/
theorem stop_counts (h : Moves engine (fun _ => True) (start now game name routine) s)
    (hwaits : s.run.fiber.Waits)
    (ht : Moves engine (fun _ => True) { s with run := (s.run.grant .stop).2 } t) :
    ∃ n report ended, (t.after engine n).run.outcome = some ⟨.ok report, ended⟩ ∧
      report.stepsExecuted =
        s.run.fiber.steps + s.run.fiber.stack.tail.countP Invocation.waitless ∧
      report.loopCrossings = s.run.fiber.crossings := by
  have hfresh : Run.Fresh (.ofRoutine name routine) := .routine name routine
  have horderly := orderly_moves (Run.orderly_fresh hfresh) h
  have hcalled := (nested_moves hfresh h).called
  obtain ⟨hsound, hg⟩ := sound_moves h
  obtain ⟨hshown, hwakes⟩ := waits_of_moves h
  have hnone : s.run.outcome = none := hsound.running fun result he => by
    rcases hwaits with hp | ⟨_, _, _, hp⟩ <;> (rw [hp] at he; cases he)
  have howed : s.run.fiber.phase.owed = 0 := by
    rcases hwaits with hp | ⟨_, _, _, hp⟩ <;> (rw [hp]; rfl)
  have hdue : s.run.fiber.due =
      s.run.fiber.steps + s.run.fiber.stack.tail.countP Invocation.waitless := by
    rw [Fiber.due, howed, hcalled.passing_eq, Nat.add_zero]
  have hstop : ({ s with run := (s.run.grant .stop).2 } : Snapshot γ).Counting
      (s.run.fiber.steps + s.run.fiber.stack.tail.countP Invocation.waitless)
      s.run.fiber.crossings := by
    have hmove : Move engine (fun _ => True) s { s with run := (s.run.grant .stop).2 } :=
      .wish s trivial
    refine ⟨hsound.native, orderly_move horderly hmove, fun _ => ?_, fun o ho => ?_⟩
    · exact ⟨s.now + engine.slice, Nat.le_add_right _ _,
        Fiber.halted_of_stop (hg hnone) hshown hwakes hwaits, hdue, rfl⟩
    · cases hnone.symm.trans ho
  exact (counting_moves hstop ht).ends

/-- Stopped in the wait of the nested macro: of the steps that were begun none is counted. -/
theorem stop_counts_steeping :
    steeped.run.fiber.steps = 1 ∧ steeped.run.fiber.stack.length = 2 ∧
    ∃ n report ended, (spilled.after (.still cupboard) n).run.outcome =
        some ⟨.ok report, ended⟩ ∧
      report.stepsExecuted = 1 ∧ report.loopCrossings = 0 := by
  have hmoves : Moves (.still cupboard) (fun _ => True) (start 0 () "m" steeping) steeped :=
    moves_after (start 0 () "m" steeping) 12
  have hspilled : Moves (.still cupboard) (fun _ => True)
      { steeped with run := (steeped.run.grant .stop).2 } spilled := .single (.wish _ trivial)
  obtain ⟨n, report, ended, hout, hsteps, hcrossings⟩ :=
    stop_counts hmoves (by decide +kernel) hspilled
  exact ⟨by decide +kernel, by decide +kernel, n, report, ended, hout,
    hsteps.trans (by decide +kernel), hcrossings.trans (by decide +kernel)⟩

def outer : Routine := ⟨[⟨1, .runMacro "inner", "inner", {}⟩]⟩

def inside : Library := ⟨[⟨"inner", .native, "/wait 5"⟩]⟩

/-- Without a wait the step that had entered the nested macro is counted, though that was cut
short. -/
theorem stop_counts_entry :
    let s := (start 0 () "outer" outer).after (.still inside) 12
    let stopped := { s with run := (s.run.grant .stop).2 }.after (.still inside) 20
    s.run.invocations = [("outer", .running), ("inner", .running)] ∧ s.run.fiber.Waits ∧
    s.run.fiber.steps = 0 ∧
    (stopped.run.outcome.bind fun o => o.result.toOption) = some ⟨"outer", 1, 0, [], true⟩ := by
  decide +kernel

end Snapshot
end MacroEngine
