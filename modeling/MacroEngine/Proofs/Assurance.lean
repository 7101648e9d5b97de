import MacroEngine.Proofs.Completion
import MacroEngine.Proofs.Unwinding

/-! Steps that cannot fail as long as the game shows what they wait for and takes the orders that
they give. A run completes if the other steps do. -/
namespace MacroEngine

section Sure

variable {shows : View → Prop} {takes : Order → Prop}

namespace Activity

/-- As long as the views show this and these orders are taken, it neither fails nor pauses the
macro. -/
def Sure (shows : View → Prop) (takes : Order → Prop) : Activity α → Prop
  | .done _ => True
  | .fail _ _ => False
  | .look next => ∀ view, shows view → (next view).Sure shows takes
  | .issue _ next => ∀ reply, (next reply).Sure shows takes
  | .perform order next => takes order ∧ (next (.ok ())).Sure shows takes
  | .echo _ next => next.Sure shows takes
  | .mark m next => (∀ reason, m ≠ .held reason) ∧ next.Sure shows takes
  | .pause _ next => next.Sure shows takes
  | .await holds _ next => (∀ view, shows view → holds view = true) ∧ (next true).Sure shows takes

end Activity

def Course.Sure (shows : View → Prop) (takes : Order → Prop) : Course α → Prop
  | .doing a => a.Sure shows takes
  | .waiting _ holds next => ∀ view, shows view → (next (holds view)).Sure shows takes
  | .interrupted => True

theorem Course.sure_step? {means : Means γ} {now : Moment} {s s' : Scene γ} {c c' : Course α}
    (hview : shows (means.client.view s.game now))
    (htakes : ∀ order, takes order → (means.client.perform s.game now order).1 = .ok ())
    (hc : c.Sure shows takes) (h : c.step? means now s = some (s', c')) : c'.Sure shows takes := by
  cases smallStep_of_step? h with
  | cut => trivial
  | met _ hverdict => exact Wait.holds_of_met hverdict ▸ hc _ hview
  | late _ hverdict => exact Wait.holds_of_late hverdict ▸ hc _ hview
  | again | echo | passed => exact hc
  | look => exact hc _ hview
  | issue => exact hc _
  | @perform order next =>
    have hnext := hc.2
    rwa [← htakes order hc.1] at hnext
  | mark => exact hc.2
  | slept => exact fun _ _ => hc
  | awaited =>
    intro view hv
    rw [hc.1 view hv]
    exact hc.2

end Sure

namespace Fiber

variable {own : Step → Prop} {shows : View → Prop} {takes : Order → Prop} {engine : Engine γ}
  {now : Moment} {game : γ} {f : Fiber} {r : γ × Fiber}

def On (own : Step → Prop) (f : Fiber) : Prop :=
  ∃ base step, f.stack = [base] ∧ base.routine.get? base.cursor = some step ∧ own step

def Assured (own : Step → Prop) (shows : View → Prop) (takes : Order → Prop) (f : Fiber) : Prop :=
  ∀ base step c, f.stack = [base] → base.routine.get? base.cursor = some step → own step →
    f.phase = .busy c → c.Sure shows takes

theorem assured_of_not_busy (h : ∀ c, f.phase ≠ .busy c) : f.Assured own shows takes :=
  fun _ _ c _ _ _ hp => absurd hp (h c)

theorem assured_leave (f : Fiber) (inv : Invocation) (below : List Invocation) (stopped : Bool) :
    (f.leave inv below stopped).Assured own shows takes := by
  cases below with
  | nil => exact assured_of_not_busy fun _ hp => nomatch hp
  | cons parent rest =>
    intro base step c _ _ _ hp
    cases hp
    trivial

theorem assured_step (hown : ∀ step, own step → ∀ chain index frames,
      (Execution.step engine.rules chain index frames step).Sure shows takes)
    (hview : shows (engine.client.view game now))
    (htakes : ∀ order, takes order → (engine.client.perform game now order).1 = .ok ())
    (hf : f.Assured own shows takes) (h : SmallStep engine now game f r) :
    r.2.Assured own shows takes := by
  cases h with
  | halted => exact assured_leave _ _ _ _
  | @finished inv below =>
    cases hcross : Frames.crossEnd inv.frames with
    | none =>
      rw [finishSteps_none engine.client hcross]
      exact assured_leave _ _ _ _
    | some crossing =>
      rw [finishSteps_some engine.client hcross]
      dsimp only
      split
      · exact assured_of_not_busy fun _ hp => nomatch hp
      · exact assured_leave _ _ _ _
  | @begun inv below step hs hp _ hget =>
    intro base step' c hs' hget' ho hp'
    have hs' : f.stack = [base] := hs'
    cases hs.symm.trans hs'
    cases hget.symm.trans hget'
    cases hp'
    exact hown step ho _ _ _
  | @moved inv below c s c' hs hp hc =>
    intro base step c'' hs' hget ho hp'
    cases hs'
    cases hp'
    exact Course.sure_step? hview htakes (hf inv step c hs hget ho hp) hc
  | @concluded inv below _ ending =>
    match ending with
    | .value .next | .value (.jump _) | .value (.enter ..) =>
      exact assured_of_not_busy fun _ hp => nomatch hp
    | .value .finish | .interrupted => exact assured_leave _ _ _ _
    | .failure site error =>
      exact assured_of_not_busy (handleFailure_phase _ _ _ _ _ _ _ site error)

end Fiber

namespace Snapshot

variable {engine : Engine γ} {s : Snapshot γ} {own : Step → Prop} {shows : View → Prop}
  {takes : Order → Prop}

/-- Left alone, no step but such of the outermost invocation fails or pauses the macro, and every
macro that the run enters ends. -/
structure CompletesApart (engine : Engine γ) (own : Step → Prop) (s : Snapshot γ) : Prop where
  unfailing : ∀ n site error,
    (s.after engine n).run.fiber.phase = .busy (.doing (.fail site error)) →
      (s.after engine n).run.fiber.On own
  unheld : ∀ n, (s.after engine n).run.fiber.Trips → (s.after engine n).run.fiber.On own
  returning : ∀ n, ∃ m, n ≤ m ∧ (s.after engine m).run.fiber.stack.length ≤ 1

theorem CompletesApart.completes (h : s.CompletesApart engine own) (hn : s.Native)
    (hf : s.run.fiber.Assured own shows takes) (hown : ∀ step, own step → ∀ chain index frames,
      (Execution.step engine.rules chain index frames step).Sure shows takes)
    (hview : ∀ n, shows (engine.client.view (s.after engine n).game (s.after engine n).now))
    (htakes : ∀ n order, takes order →
      (engine.client.perform (s.after engine n).game (s.after engine n).now order).1 = .ok ()) :
    s.Completes engine := by
  have hassured : ∀ n, (s.after engine n).Native ∧
      (s.after engine n).run.fiber.Assured own shows takes := by
    intro n
    induction n with
    | zero => exact ⟨hn, hf⟩
    | succ n ih =>
      rw [after_succ]
      refine ⟨native_tick ih.1, ?_⟩
      rcases tick_cases ih.1 with ⟨controls, hsame⟩ | ⟨_, _, hstep⟩
      · rw [hsame]
        exact ih.2
      · exact Fiber.assured_step hown (hview n) (htakes n) ih.2 hstep
  refine ⟨fun n site error hp => ?_, fun n htrips => ?_, h.returning⟩
  · obtain ⟨base, step, hs, hget, ho⟩ := h.unfailing n site error hp
    exact (hassured n).2 base step _ hs hget ho hp
  · obtain ⟨base, step, hs, hget, ho⟩ := h.unheld n htrips
    obtain ⟨reason, next, hp⟩ := htrips
    exact ((hassured n).2 base step _ hs hget ho hp).1 reason rfl

end Snapshot

end MacroEngine
