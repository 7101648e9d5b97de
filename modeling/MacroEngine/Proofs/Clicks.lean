import MacroEngine.Proofs.Completion
import MacroEngine.Proofs.Dealings
import MacroEngine.Proofs.Unwinding

/-! The clicks of a run. In a run whose steps complete, a button is clicked once for each step that
clicks it, in whatever macro that is, and at no other time. -/
namespace MacroEngine

def Event.isClick (button : String) : Event → Bool
  | .performed (.click b) => b = button
  | _ => false

def Event.isClickStep (button : String) : Event → Bool
  | .completed _ step => step.command = .click button
  | _ => false

def clicks (button : String) (journal : List (Moment × Event)) : Nat :=
  journal.countP fun e => e.2.isClick button

def clickSteps (button : String) (journal : List (Moment × Event)) : Nat :=
  journal.countP fun e => e.2.isClickStep button

variable {button : String} {now : Moment} {event : Event} {journal : List (Moment × Event)}

theorem clicks_cons : clicks button ((now, event) :: journal) =
    clicks button journal + (event.isClick button).toNat := by
  unfold clicks
  rw [List.countP_cons]
  cases event.isClick button <;> rfl

theorem clickSteps_cons : clickSteps button ((now, event) :: journal) =
    clickSteps button journal + (event.isClickStep button).toNat := by
  unfold clickSteps
  rw [List.countP_cons]
  cases event.isClickStep button <;> rfl

/-- The steps that click the button are one of them, as often as a macro completed it, and others. -/
theorem clickSteps_split {step : Step} (hc : step.command = .click button) (name : String)
    (journal : List (Moment × Event)) :
    clickSteps button journal = (completedSteps name journal).count step +
      clickSteps button (journal.filter fun e => e.2 ≠ .completed name step) := by
  induction journal with
  | nil => rfl
  | cons e journal ih =>
    obtain ⟨now, event⟩ := e
    rw [clickSteps_cons, completedSteps_cons, List.count_append, List.filter_cons]
    by_cases he : event = .completed name step
    · subst he
      simp [Event.completedBy, Event.isClickStep, hc, ih]
      omega
    · have hnone : (event.completedBy name).toList.count step = 0 := by
        cases event <;> simp_all [Event.completedBy]
        split <;> simp_all
      simp [he, clickSteps_cons, hnone, ih]
      omega

namespace Course

/-- Until it ends in a value it clicks the button so many times. -/
def Clicks (button : String) : Course α → Nat → Prop
  | .doing a, n => a.Sends (.click button) n
  | .waiting _ _ next, n => ∀ met, (next met).Sends (.click button) n
  | .interrupted, _ => False

/-- The clicks done and those to come are as many after a step of the course. -/
theorem clicks_step? {means : Means γ} {s s' : Scene γ} {c c' : Course α} {n : Nat}
    (hs : s.control.state ≠ .stopped) (hc : c.Clicks button n)
    (h : c.step? means now s = some (s', c')) :
    clickSteps button s'.journal = clickSteps button s.journal ∧
      ∃ m, c'.Clicks button m ∧ clicks button s'.journal + m = clicks button s.journal + n := by
  cases smallStep_of_step? h with
  | cut hready => exact absurd (Wait.stopped_of_readiness hready) hs
  | met | late | look => exact ⟨rfl, n, hc _, rfl⟩
  | again | awaited | passed => exact ⟨rfl, n, hc, rfl⟩
  | slept => exact ⟨rfl, n, fun _ => hc, rfl⟩
  | issue => exact ⟨clickSteps_cons, n, hc _, by simp [Scene.log, clicks_cons, Event.isClick]⟩
  | @perform order next =>
    obtain ⟨m, rfl, hm⟩ := hc (means.client.perform s.game now order).1
    refine ⟨clickSteps_cons, m, hm, ?_⟩
    have horder : (Event.isClick button (.performed order)).toNat =
        if order = .click button then 1 else 0 := by
      cases order <;> simp [Event.isClick]
      split <;> simp_all
    simp only [Scene.log, clicks_cons, horder]
    omega
  | echo => exact ⟨clickSteps_cons, n, hc, by simp [Scene.log, clicks_cons, Event.isClick]⟩
  | @mark m next =>
    cases m with
    | crossed | frames | boundary => exact ⟨rfl, n, hc, rfl⟩
    | held =>
      exact ⟨clickSteps_cons, n, hc, by simp [Scene.mark, Scene.notify, clicks_cons, Event.isClick]⟩

end Course

def Invocation.onClick (button : String) (inv : Invocation) : Bool :=
  (inv.routine.get? inv.cursor).any fun step => step.command = .click button

theorem Level.Runs.onClick {inv : Invocation} {name : String} (h : inv.level.Runs name) :
    inv.onClick button = false := by
  obtain ⟨step, hget, hc⟩ := h
  have hget : inv.routine.get? inv.cursor = some step := hget
  simp [Invocation.onClick, hget, hc]

namespace Fiber

variable {engine : Engine γ} {game game' : γ} {f f' : Fiber} {inv : Invocation}
  {below : List Invocation}

/-- The clicks were those of the steps that were completed, but for the step under way. -/
def Balanced (button : String) (f : Fiber) : Prop :=
  match f.phase with
  | .busy c => ∀ inv below, f.stack = inv :: below → ∃ n, c.Clicks button n ∧
      clicks button f.journal + n = clickSteps button f.journal + (inv.onClick button).toNat
  | _ => clicks button f.journal = clickSteps button f.journal

theorem balanced_leave (h : clicks button f.journal = clickSteps button f.journal)
    (hl : Linked (levels (inv :: below))) (inv' : Invocation) (stopped : Bool) :
    (f.leave inv' below stopped).Balanced button := by
  cases below with
  | nil => exact h
  | cons parent rest =>
    intro inv below hs
    cases hs
    have hclick : Invocation.onClick button { parent with resumeWait := none } = false := by
      have hruns : (Invocation.level { parent with resumeWait := none }).Runs inv.level.name := hl.1
      exact hruns.onClick
    exact ⟨0, rfl, by rw [hclick]; exact h⟩

theorem clicks_complete (f : Fiber) (now : Moment) (inv : Invocation) :
    clicks button (f.complete now inv).journal = clicks button f.journal ∧
      clickSteps button (f.complete now inv).journal =
        clickSteps button f.journal + (inv.onClick button).toNat := by
  unfold complete Invocation.onClick
  cases inv.routine.get? inv.cursor with
  | none => exact ⟨rfl, rfl⟩
  | some step => exact ⟨clicks_cons, clickSteps_cons⟩

theorem clicks_cross (client : Client γ) (now : Moment) (s : Scene γ) (crossing : Crossing) :
    clicks button (s.cross client now crossing).journal = clicks button s.journal ∧
      clickSteps button (s.cross client now crossing).journal = clickSteps button s.journal := by
  unfold Scene.cross
  cases crossing.news with
  | none => exact ⟨rfl, rfl⟩
  | some text => exact ⟨clicks_cons, clickSteps_cons⟩

theorem balanced_finishSteps (h : clicks button f.journal = clickSteps button f.journal)
    (hl : Linked (levels (inv :: below))) (client : Client γ) (now : Moment) (game : γ) :
    (finishSteps client now game f inv below).2.Balanced button := by
  cases hcross : Frames.crossEnd inv.frames with
  | none =>
    rw [finishSteps_none client hcross]
    exact balanced_leave h hl _ _
  | some crossing =>
    have hboth : clicks button ((f.scene inv game).cross client now crossing).journal = _ ∧ _ :=
      clicks_cross client now (f.scene inv game) crossing
    have hjournal : clicks button ((f.scene inv game).cross client now crossing).journal =
        clickSteps button ((f.scene inv game).cross client now crossing).journal :=
      hboth.1.trans (h.trans hboth.2.symm)
    rw [finishSteps_some client hcross]
    dsimp only
    split
    · exact hjournal
    · exact balanced_leave hjournal hl _ _

theorem balanced_concluded {now : Moment} {flow : Flow}
    (hsum : clicks button f.journal =
      clickSteps button f.journal + (inv.onClick button).toNat)
    (hl : Linked (levels (inv :: below)))
    (hruns : ∀ name routine wait, flow = .enter name routine wait → inv.level.Runs name) :
    (conclude engine now game f inv below (.value flow)).2.Balanced button := by
  have hclick : clicks button (f.complete now inv).journal = _ ∧ _ := clicks_complete f now inv
  have hcomplete : clicks button (f.complete now inv).journal =
      clickSteps button (f.complete now inv).journal := by
    rw [hclick.1, hclick.2, hsum]
  cases flow with
  | next | jump => exact hcomplete
  | finish => exact balanced_leave hcomplete hl _ _
  | enter name routine wait =>
    have hoff : inv.onClick button = false := (hruns name routine wait rfl).onClick
    rw [hoff] at hsum
    exact hsum

theorem balanced_step (hf : f.Balanced button) (hheads : f.Heads) (hl : Linked (levels f.stack))
    (hn : ∀ inv below, f.stack = inv :: below → f.controls.state inv.control ≠ .stopped)
    (hfail : ∀ site error, f.phase ≠ .busy (.doing (.fail site error)))
    (h : SmallStep engine now game f (game', f')) : f'.Balanced button := by
  generalize hr : (game', f') = r at h
  suffices hg : r.2.Balanced button by rwa [← hr] at hg
  cases h with
  | halted hs _ hstop => exact absurd hstop (hn _ _ hs)
  | finished hs hp =>
    rw [Balanced, hp] at hf
    rw [hs] at hl
    exact balanced_finishSteps hf hl _ _ _
  | @begun inv below step hs hp _ hget =>
    rw [Balanced, hp] at hf
    intro inv' below' hs'
    have hs' : f.stack = inv' :: below' := hs'
    rw [hs] at hs'
    cases hs'
    refine ⟨_, Execution.sends_step _ _ _ _ step button, ?_⟩
    have hclick : (inv.onClick button).toNat = if step.command = .click button then 1 else 0 := by
      simp only [Invocation.onClick, hget, Option.any_some]
      split <;> simp_all
    rw [hclick]
    exact congrArg (· + _) hf
  | @moved inv below c s c' hs hp hc =>
    rw [Balanced, hp] at hf
    intro inv' below' hs'
    cases hs'
    obtain ⟨n, hclicks, hsum⟩ := hf inv below hs
    obtain ⟨hsteps, m, hm, hmoved⟩ := Course.clicks_step? (hn inv below hs) hclicks hc
    refine ⟨m, hm, ?_⟩
    have hscene : clickSteps button s.journal = clickSteps button f.journal := hsteps
    have hmoved : clicks button s.journal + m = clicks button f.journal + n := hmoved
    change clicks button s.journal + m = clickSteps button s.journal + (inv.onClick button).toNat
    rw [hmoved, hsum, hscene]
  | @concluded inv below c ending hs hp hend =>
    rw [Balanced, hp] at hf
    obtain ⟨n, hclicks, hsum⟩ := hf inv below hs
    match ending with
    | .value flow =>
      have hc : c = .doing (.done flow) := Course.eq_of_end? hend
      rw [hc] at hclicks
      have hn : n = 0 := hclicks
      rw [hn, Nat.add_zero] at hsum
      refine balanced_concluded hsum (hs ▸ hl) fun name routine wait hflow => ?_
      have hruns := hheads c inv below hp hs
      rw [hc] at hruns
      exact hruns name routine wait hflow
    | .failure site error =>
      have hc : c = .doing (.fail site error) := Course.eq_of_end? hend
      exact absurd (hc ▸ hp) (hfail site error)
    | .interrupted =>
      have hc : c = .interrupted := Course.eq_of_end? hend
      rw [hc] at hclicks
      exact hclicks.elim

end Fiber

namespace Snapshot

variable {engine : Engine γ} {s : Snapshot γ}

theorem Smooth.balanced_after (hs : s.Smooth engine) (hstands : s.Stands)
    (hb : s.run.fiber.Balanced button) (n : Nat) :
    (s.after engine n).run.fiber.Balanced button := by
  induction n with
  | zero => exact hb
  | succ n ih =>
    rw [after_succ]
    have hfree := (hs.after n).toFree
    rcases tick_cases hfree.native with ⟨controls, hsame⟩ | ⟨ho, _, hstep⟩
    · rw [hsame]
      exact ih
    · obtain ⟨hheads, hlinked⟩ := hs.toFree.stands_after hstands n
      have hn : ∀ inv below, (s.after engine n).run.fiber.stack = inv :: below →
          (s.after engine n).run.fiber.controls.state inv.control ≠ .stopped :=
        fun _ _ => Fiber.state_ne_stopped (hfree.governed ho)
      exact Fiber.balanced_step ih hheads hlinked hn (hs.unfailing n) hstep

/-- When the run is over, a button was clicked by the steps that click it and by no others. -/
theorem Completes.clicks_eq {now : Moment} {game : γ} {name : String} {routine : Routine} {n : Nat}
    (h : (start now game name routine).Completes engine)
    (ho : ((start now game name routine).after engine n).run.outcome.isSome) :
    clicks button ((start now game name routine).after engine n).run.fiber.journal =
      clickSteps button ((start now game name routine).after engine n).run.fiber.journal := by
  have hbalanced :
      ((start now game name routine).after engine n).run.fiber.Balanced button :=
    h.smooth.balanced_after (stands_start now game name routine) rfl n
  have hmoves : Moves engine (fun _ => False) (start now game name routine)
      ((start now game name routine).after engine n) := moves_after _ n
  obtain ⟨o, ho⟩ := Option.isSome_iff_exists.mp ho
  obtain ⟨result, hphase, _⟩ := (sound_moves hmoves).1.outcome o ho
  rwa [Fiber.Balanced, hphase] at hbalanced

end Snapshot
end MacroEngine
