import MacroEngine.Proofs.Abreast
import MacroEngine.Proofs.Recitals

/-! A script that yields some lines and a macro that consists of them, side by side. While the
script is told what came of a line and hands over the next one, the macro is between two steps;
else both take the same small steps at the same times. -/
namespace MacroEngine

structure Report.AsYielded (report report' : Report) : Prop where
  macroName : report'.macroName = report.macroName
  stepsExecuted : report'.stepsExecuted = report.stepsExecuted
  loopCrossings : report'.loopCrossings = report.loopCrossings
  softErrors : List.Forall₂ NoticeAsYielded report.softErrors report'.softErrors
  stoppedByUser : report'.stoppedByUser = report.stoppedByUser

inductive ResultAsYielded : Except RunError Report → Except RunError Report → Prop where
  | ok {report report'} : report.AsYielded report' → ResultAsYielded (.ok report) (.ok report')
  | error {error error'} : error.AsYielded error' → ResultAsYielded (.error error) (.error error')

structure Outcome.AsYielded (o o' : Outcome) : Prop where
  result : ResultAsYielded o.result o'.result
  ended : o'.ended = o.ended

structure Snapshot.AsYielded {client : Client γ} (blind : client.Blind) (s s' : Snapshot γ) :
    Prop where
  now : s'.now = s.now
  game : blind.Same s.game s'.game
  commands : JournalAsYielded s.run.fiber.journal s'.run.fiber.journal
  steps : s'.run.fiber.steps = s.run.fiber.steps
  crossings : s'.run.fiber.crossings = s.run.fiber.crossings
  softErrors : List.Forall₂ NoticeAsYielded s.run.fiber.softErrors s'.run.fiber.softErrors
  outcome : Option.Rel Outcome.AsYielded s.run.outcome s'.run.outcome

def Fiber.Goes (f : Fiber) : Prop :=
  f.controls.state Controls.root ≠ .pausedNow ∧ f.controls.state Controls.root ≠ .stopped

/-- The macro is before a step, and these lines hold the steps that are left. -/
structure Fiber.AtStep (name : String) (routine : Routine) (cursor : Nat) (lines : List String)
    (f : Fiber) : Prop where
  stack : f.stack = [.outer name routine cursor none]
  phase : f.phase = .ready
  spells : Spells (routine.steps.drop cursor) lines

inductive Fiber.OnLine (name : String) (routine : Routine) (lines : List String) :
    Fiber → Fiber → Prop where
  | intro {f f' : Fiber} {cursor step step'} (above wait) : routine.get? cursor = some step →
      step.AsYielded step' → step.command.isBoundary = false →
      Inside name routine cursor step' above wait f f' →
      Spells (routine.steps.drop (cursor + 1)) lines → OnLine name routine lines f f'

theorem EndsAlike.reply {result result' : Except RunError Bool} (h : EndsAlike result result') :
    ∃ error, Bridge.replyTo result' = some error := by
  cases h with
  | stopped => exact ⟨_, rfl⟩
  | failed => exact ⟨_, rfl⟩

namespace Fiber

variable {engine : Engine γ} {now : Moment} {game : γ} {f f' : Fiber} {name : String}
  {routine : Routine} {cursor : Nat} {step step' : Step} {wait : Option WaitSpan}
  {lines : List String}

theorem AtStep.result? (h : f.AtStep name routine cursor lines) :
    f.result? = none := by
  simp [Fiber.result?, h.phase]

theorem step?_paused (hs : f.stack = [.outer name routine cursor none]) (hp : f.phase = .ready)
    (hstate : f.controls.state Controls.root = .pausedNow) : f.step? engine now game = none := by
  rw [step?_ready hs hp, begin?]
  simp only [Invocation.outer, hstate]

theorem step?_stopped (hs : f.stack = [.outer name routine cursor none]) (hp : f.phase = .ready)
    (hstate : f.controls.state Controls.root = .stopped) :
    f.step? engine now game =
      some (game, { f with stack := [], phase := .ended (.ok true) }) := by
  rw [step?_ready hs hp, begin?]
  simp only [Invocation.outer, hstate]
  rfl

theorem step?_last (hs : f.stack = [.outer name routine cursor none]) (hp : f.phase = .ready)
    (hg : f.Goes) (hget : routine.get? cursor = none) :
    f.step? engine now game =
      some (game, { f with stack := [], phase := .ended (.ok false) }) := by
  obtain ⟨hpaused, hstopped⟩ := hg
  rw [step?_ready hs hp, begin?]
  simp only [Invocation.outer, hget]
  rfl

theorem Inside.result? {above : List Invocation}
    (h : Inside name routine cursor step' above wait f f') :
    f.result? = none ∧ f'.result? = none := by
  have hphase := h.phase
  generalize hp : f.phase = phase, hp' : f'.phase = phase' at hphase
  cases hphase <;> simp [Fiber.result?, hp, hp']

theorem Inside.wake? {above : List Invocation}
    (h : Inside name routine cursor step' above wait f f') (now : Moment) :
    f'.wake? now = f.wake? now := by
  have hphase := h.phase
  generalize hp : f.phase = phase, hp' : f'.phase = phase' at hphase
  cases hphase with
  | ready => simp [Fiber.wake?, hp, hp']
  | busy hlike => simpa [Fiber.wake?, hp, hp'] using Course.like_wake? hlike now

end Fiber

inductive Bridge.Companions (name : String) (routine : Routine) :
    Fiber → Fiber → Bridge → Prop where
  | speaking {f f' : Fiber} {cursor lines dialogue} : f.AtStep name routine cursor lines → f.Goes →
      dialogue.Recites lines → Companions name routine f f' ⟨.speaking dialogue, none, none⟩
  | requested {f f' : Fiber} {cursor line lines next} :
      f.AtStep name routine cursor (line :: lines) → f.Goes → (next none).Recites lines →
      (∀ error, (next (some error)).GivesUp error) →
      Companions name routine f f' ⟨.awaiting next, some line, none⟩
  | onLine {f f' : Fiber} {line lines next} : f.OnLine name routine lines f' →
      (next none).Recites lines → (∀ error, (next (some error)).GivesUp error) →
      Companions name routine f f' ⟨.awaiting next, none, some line⟩
  | completed {f f' : Fiber} {cursor step' line lines next} :
      f.AtStep name routine cursor lines → f'.stack = [.outer name ⟨[step']⟩ 1 none] →
      f'.phase = .ready → (next none).Recites lines →
      (∀ error, (next (some error)).GivesUp error) →
      Companions name routine f f' ⟨.awaiting next, none, some line⟩
  | served {f f' : Fiber} {cursor line lines next} :
      f.AtStep name routine cursor lines → f.Goes → f'.phase = .ended (.ok false) →
      (next none).Recites lines →
      Companions name routine f f' ⟨.awaiting next, none, some line⟩
  | failed {f f' : Fiber} {result result' line next} : f.phase = .ended result →
      f'.phase = .ended result' → EndsAlike result result' →
      (∀ error, (next (some error)).GivesUp error) →
      Companions name routine f f' ⟨.awaiting next, none, some line⟩
  | givingUp {f f' : Fiber} {result result' error dialogue} : f.phase = .ended result →
      EndsAlike result result' → Bridge.replyTo result' = some error → dialogue.GivesUp error →
      Companions name routine f f' ⟨.speaking dialogue, none, none⟩
  | done {f f' : Fiber} : f.phase = .ended (.ok false) → f.Goes →
      Companions name routine f f' ⟨.speaking (.ended none), none, none⟩

namespace Snapshot

variable {engine : Engine γ} {blind : engine.client.Blind} {s t : Snapshot γ} {now : Moment}
  {game game' : γ} {name : String} {routine : Routine} {f f' : Fiber} {b : Bridge}

def startScript (now : Moment) (game : γ) (name : String) (dialogue : Dialogue) : Snapshot γ :=
  ⟨now, game, .ofDialogue name dialogue⟩

def ofMacro (now : Moment) (game : γ) (name : String) (f : Fiber) : Snapshot γ :=
  ⟨now, game, name, f, none, none⟩

def ofScript (now : Moment) (game : γ) (name : String) (f : Fiber) (b : Bridge) : Snapshot γ :=
  ⟨now, game, name, f, some b, none⟩

inductive Paired {client : Client γ} (blind : client.Blind) (name : String) (routine : Routine) :
    Snapshot γ → Snapshot γ → Prop where
  | going {now : Moment} {game game' : γ} {f f' : Fiber} {b : Bridge} :
      f.Alike blind game game' f' → b.Companions name routine f f' →
      Paired blind name routine (ofMacro now game name f) (ofScript now game' name f' b)
  | closed {s t : Snapshot γ} {o o' : Outcome} : s.AsYielded blind t → s.run.outcome = some o →
      t.run.outcome = some o' → Paired blind name routine s t

theorem Paired.asYielded (h : Paired blind name routine s t) : s.AsYielded blind t := by
  cases h with
  | going ha => exact ⟨rfl, ha.game, ha.journal, ha.steps, ha.crossings, ha.softErrors, .none⟩
  | closed h => exact h

theorem tick_of_outcome {o : Outcome} (h : s.run.outcome = some o) : s.tick engine = s := by
  simp [tick, Run.step?, Run.wake?, h]

section Ticks
variable {line : String} {next : Option RunError → Dialogue}

theorem tick_yielded : (ofScript now game name f ⟨.speaking (.yielded line next), none, none⟩).tick
    engine = ofScript now game name f ⟨.awaiting next, some line, none⟩ := rfl

theorem tick_blank (h : Bridge.readLine line = .error none) :
    (ofScript now game name f ⟨.awaiting next, some line, none⟩).tick engine =
      ofScript now game name f ⟨.speaking (next none), none, none⟩ := by
  simp [tick, ofScript, Run.step?, Bridge.ended?, Bridge.speak?, Bridge.serve?, h, Bridge.reply]

theorem tick_loaded {step : Step} (h : Bridge.readLine line = .ok step) :
    (ofScript now game name f ⟨.awaiting next, some line, none⟩).tick engine =
      ofScript now game name { f with stack := [.outer name ⟨[step]⟩ 0 none], phase := .ready }
        ⟨.awaiting next, none, some line⟩ := by
  simp [tick, ofScript, Run.step?, Bridge.ended?, Bridge.speak?, Bridge.serve?, h, Fiber.load,
    Invocation.begin, Invocation.outer]

theorem tick_replied {result : Except RunError Bool} (h : f.phase = .ended result) :
    (ofScript now game name f ⟨.awaiting next, none, some line⟩).tick engine =
      ofScript now game name f ⟨.speaking (next (Bridge.replyTo result)), none, none⟩ := by
  simp [tick, ofScript, Run.step?, Bridge.ended?, Bridge.speak?, Bridge.serve?, Fiber.result?, h,
    Bridge.reply]

theorem tick_serving (hr : f.result? = none) {game' : γ}
    (h : f.step? engine now game = some (game', f')) :
    (ofScript now game name f ⟨.awaiting next, none, some line⟩).tick engine =
      ofScript now game' name f' ⟨.awaiting next, none, some line⟩ := by
  simp [tick, ofScript, Run.step?, Bridge.ended?, Bridge.speak?, Bridge.serve?, hr, h]

/-- While nothing can be done, time goes to the end of the sleep, if there is one. -/
theorem tick_asleep (hr : f.result? = none) (h : f.step? engine now game = none) :
    (ofMacro now game name f).tick engine =
      ofMacro (((f.wake? now).map (max now)).getD now) game name f := by
  simp only [tick, ofMacro, Run.step?, hr, h, Run.wake?]
  cases f.wake? now <;> rfl

theorem tick_serving_asleep (hr : f.result? = none) (h : f.step? engine now game = none) :
    (ofScript now game name f ⟨.awaiting next, none, some line⟩).tick engine =
      ofScript (((f.wake? now).map (max now)).getD now) game name f
        ⟨.awaiting next, none, some line⟩ := by
  simp only [tick, ofScript, Run.step?, Bridge.ended?, Bridge.speak?, Bridge.serve?, hr, h,
    Run.wake?]
  cases f.wake? now <;> rfl

theorem tick_ended {result : Except RunError Bool} (h : f.phase = .ended result) :
    (ofMacro now game name f).tick engine =
      ⟨now, game, Run.finish ⟨name, f, none, none⟩ now
        (result.map (Run.report ⟨name, f, none, none⟩))⟩ := by
  simp [tick, ofMacro, Run.step?, Fiber.result?, h]

theorem tick_script_ended {error : Option RunError} :
    (ofScript now game name f ⟨.speaking (.ended error), none, none⟩).tick engine =
      let r : Run := ⟨name, f, some ⟨.speaking (.ended error), none, none⟩, none⟩
      ⟨now, game, r.finish now (r.scriptResult error)⟩ := rfl

end Ticks

section Joint
variable {cursor : Nat} {step step' : Step} {wait : Option WaitSpan} {above : List Invocation}
  {line : String} {lines : List String} {next : Option RunError → Dialogue}
  {result result' : Except RunError Bool}

theorem report_asYielded (ha : f.Alike blind game game' f') (bridge : Option Bridge)
    (stopped : Bool) : (Run.report ⟨name, f, none, none⟩ stopped).AsYielded
      (Run.report ⟨name, f', bridge, none⟩ stopped) :=
  ⟨rfl, ha.steps, ha.crossings, List.forall₂_reverse_iff.mpr ha.softErrors, rfl⟩

theorem paired_finish (ha : f.Alike blind game game' f') (b : Bridge)
    {result result' : Except RunError Report} (hr : ResultAsYielded result result') :
    Paired blind name routine ⟨now, game, Run.finish ⟨name, f, none, none⟩ now result⟩
      ⟨now, game', Run.finish ⟨name, f', some b, none⟩ now result'⟩ :=
  .closed ⟨rfl, ha.game, ha.journal, ha.steps, ha.crossings, ha.softErrors, .some ⟨hr, rfl⟩⟩ rfl rfl

/-- The script ends with the error of a line as the macro does with that of a step. -/
theorem gaveUp_tick (ha : f.Alike blind game game' f') (hp : f.phase = .ended result)
    (hends : EndsAlike result result') {error : RunError}
    (hreply : Bridge.replyTo result' = some error) :
    Paired blind name routine ((ofMacro now game name f).tick engine)
      ((ofScript now game' name f' ⟨.speaking (.ended (some error)), none, none⟩).tick engine) := by
  rw [tick_ended hp, tick_script_ended]
  refine paired_finish ha _ ?_
  cases hends with
  | stopped =>
    cases hreply
    exact .ok (report_asYielded ha _ true)
  | failed hne he =>
    cases hreply
    have hne' := he.ne_stopped hne
    unfold Run.scriptResult
    split
    · contradiction
    · rename_i heq
      cases heq
      contradiction
    · rename_i heq
      cases heq
      exact .error he

theorem done_tick (ha : f.Alike blind game game' f') (hp : f.phase = .ended (.ok false))
    (hg : f.Goes) : Paired blind name routine ((ofMacro now game name f).tick engine)
      ((ofScript now game' name f' ⟨.speaking (.ended none), none, none⟩).tick engine) := by
  rw [tick_ended hp, tick_script_ended]
  have hstate : decide (f'.controls.state Controls.root = .stopped) = false := by
    rw [ha.controls]
    exact decide_eq_false hg.2
  refine paired_finish ha _ ?_
  simp only [Run.scriptResult, hstate]
  exact .ok (report_asYielded ha _ false)

theorem before_end_tick (ha : f.Alike blind game game' f') (hb : f.AtStep name routine cursor [])
    (hg : f.Goes) : ∃ f₁, f₁.Alike blind game game' f' ∧ f₁.phase = .ended (.ok false) ∧ f₁.Goes ∧
      (ofMacro now game name f).tick engine = ofMacro now game name f₁ := by
  have hspells := hb.spells
  have hget : routine.get? cursor = none := by
    generalize hdrop : routine.steps.drop cursor = steps at hspells
    cases hspells
    exact List.getElem?_eq_none (List.drop_eq_nil_iff.mp hdrop)
  exact ⟨_, ha.place _ f'.stack _ f'.phase, rfl, hg, tick_of_step? (s := ofMacro now game name f)
    rfl rfl hb.result? (Fiber.step?_last hb.stack hb.phase hg hget)⟩

theorem requested_tick (ha : f.Alike blind game game' f')
    (hb : f.AtStep name routine cursor (line :: lines)) :
    (f.AtStep name routine cursor lines ∧
        (ofScript now game' name f' ⟨.awaiting next, some line, none⟩).tick engine =
          ofScript now game' name f' ⟨.speaking (next none), none, none⟩) ∨
      ∃ f'', f.Alike blind game game' f'' ∧ f.OnLine name routine lines f'' ∧
        (ofScript now game' name f' ⟨.awaiting next, some line, none⟩).tick engine =
          ofScript now game' name f'' ⟨.awaiting next, none, some line⟩ := by
  have hspells := hb.spells
  generalize hdrop : routine.steps.drop cursor = steps at hspells
  cases hspells with
  | blank hread hrest => exact .inl ⟨⟨hb.stack, hb.phase, hdrop ▸ hrest⟩, tick_blank hread⟩
  | @step _ step step' steps _ hread hstep hrest =>
    have hget : routine.get? cursor = some step := by
      have hhead : (routine.steps.drop cursor)[0]? = routine.steps[cursor + 0]? :=
        List.getElem?_drop
      rw [hdrop] at hhead
      exact hhead.symm
    have htail : routine.steps.drop (cursor + 1) = steps := by
      rw [← List.tail_drop, hdrop, List.tail_cons]
    have hplain : step.command.isBoundary = false := by
      rw [← hstep.command]
      exact Bridge.readLine_plain hread
    have hphase : Fiber.PhaseLike true f.phase .ready := by
      rw [hb.phase]
      exact .ready
    exact .inr ⟨_, ha.place f.stack _ f.phase _, .intro [] none hget hstep hplain
      ⟨hb.stack, rfl, fun _ => rfl, hphase⟩ (htail ▸ hrest), tick_loaded hread⟩

/-- On a line both take the same small step, or sleep until the same time. -/
theorem onLine_tick (ha : f.Alike blind game game' f') (ho : f.OnLine name routine lines f')
    (hrecites : (next none).Recites lines) (hgives : ∀ error, (next (some error)).GivesUp error) :
    Paired blind name routine ((ofMacro now game name f).tick engine)
      ((ofScript now game' name f' ⟨.awaiting next, none, some line⟩).tick engine) := by
  obtain ⟨above, wait, hget, hstep, hplain, hinside, hspells⟩ := id ho
  obtain ⟨hr, hr'⟩ := hinside.result?
  have hsteps : Option.Rel _ (f.step? engine now game) (f'.step? engine now game') :=
    Fiber.abreast_step? hget hstep hplain ha hinside
  rcases rel_cases hsteps with ⟨hn, hn'⟩ | ⟨⟨g, f₁⟩, ⟨g', f₁'⟩, hs, hs', ha', hab⟩
  · rw [tick_asleep hr hn, tick_serving_asleep hr' hn', hinside.wake?]
    exact .going ha (.onLine ho hrecites hgives)
  · rw [tick_of_step? (s := ofMacro now game name f) rfl rfl hr hs, tick_serving hr' hs']
    refine .going ha' ?_
    cases hab with
    | inside _ _ hinside' =>
      exact .onLine (.intro _ _ hget hstep hplain hinside' hspells) hrecites hgives
    | completed hst hp hst' hp' => exact .completed ⟨hst, hp, hspells⟩ hst' hp' hrecites hgives
    | ended hp hp' hends => exact .failed hp hp' hends hgives

theorem completed_tick (ha : f.Alike blind game game' f')
    (hb : f.AtStep name routine cursor lines) (hs' : f'.stack = [.outer name ⟨[step']⟩ 1 none])
    (hp' : f'.phase = .ready) (hrecites : (next none).Recites lines)
    (hgives : ∀ error, (next (some error)).GivesUp error) :
    Paired blind name routine ((ofMacro now game name f).tick engine)
        ((ofScript now game' name f' ⟨.awaiting next, none, some line⟩).tick engine) ∨
      f.Goes ∧ ∃ f'', f.Alike blind game game' f'' ∧ f''.phase = .ended (.ok false) ∧
        (ofScript now game' name f' ⟨.awaiting next, none, some line⟩).tick engine =
          ofScript now game' name f'' ⟨.awaiting next, none, some line⟩ := by
  have hr' : f'.result? = none := by simp [Fiber.result?, hp']
  by_cases hpaused : f.controls.state Controls.root = .pausedNow
  · have hpaused' : f'.controls.state Controls.root = .pausedNow := by rw [ha.controls, hpaused]
    left
    rw [tick_asleep hb.result? (Fiber.step?_paused hb.stack hb.phase hpaused),
      tick_serving_asleep hr' (Fiber.step?_paused hs' hp' hpaused')]
    simp only [Fiber.wake?, hb.phase, hp']
    exact .going ha (.completed hb hs' hp' hrecites hgives)
  · by_cases hstopped : f.controls.state Controls.root = .stopped
    · have hstopped' : f'.controls.state Controls.root = .stopped := by rw [ha.controls, hstopped]
      left
      rw [tick_of_step? (s := ofMacro now game name f) rfl rfl hb.result?
          (Fiber.step?_stopped hb.stack hb.phase hstopped),
        tick_serving hr' (Fiber.step?_stopped hs' hp' hstopped')]
      exact .going (ha.place _ _ _ _) (.failed rfl rfl .stopped hgives)
    · have hg' : f'.Goes := by
        unfold Fiber.Goes
        rw [ha.controls]
        exact ⟨hpaused, hstopped⟩
      exact .inr ⟨⟨hpaused, hstopped⟩, _, ha.place f.stack _ f.phase _, rfl,
        tick_serving hr' (Fiber.step?_last hs' hp' hg' rfl)⟩

theorem alike_noted (ha : f.Alike blind game game' f') {event : Event}
    (he : event.isCommand = false) : f.Alike blind game game' (f'.log now event) :=
  ⟨ha.game, ha.controls, ha.draws, ha.steps, ha.crossings, ha.softErrors,
    ha.journal.skip_right now he⟩

end Joint

end Snapshot
end MacroEngine
