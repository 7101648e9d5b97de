import MacroEngine.Proofs.Completion
import MacroEngine.Proofs.Dealings
import MacroEngine.Proofs.Resting

/-! Where a request for the next loop takes effect. A loop waits before it is crossed, and so does
a gate that has no wait: nothing is left of the step but its end. A gate with a wait is crossed
before it, and a request that takes effect there cuts the wait. -/
namespace MacroEngine

namespace Activity

variable {P P' : Activity α → Prop}

/-- `P` holds of what follows each boundary. -/
def Closes (P : Activity α → Prop) : Activity α → Prop
  | .done _ | .fail _ _ => True
  | .look next => ∀ view, (next view).Closes P
  | .issue _ next => ∀ reply, (next reply).Closes P
  | .perform _ next => ∀ reply, (next reply).Closes P
  | .echo _ next => next.Closes P
  | .mark .boundary next => P next ∧ next.Closes P
  | .mark .crossed next => next.Closes P
  | .mark (.frames _) next => next.Closes P
  | .mark (.held _) next => next.Closes P
  | .pause _ next => next.Closes P
  | .await _ _ next => ∀ met, (next met).Closes P

variable {p : Order → Prop} {q : Mark → Prop}

theorem Within.closes_bind (hq : ¬ q .boundary) (a : Activity α) (ha : a.Within p q)
    {f : α → Activity β} {P : Activity β → Prop} (hf : ∀ x, (f x).Closes P) :
    (a.bind f).Closes P := by
  induction a with
  | done value => exact hf value
  | fail => trivial
  | look next ih | issue action next ih | await holds limit next ih => exact fun x => ih x (ha x)
  | perform order next ih => exact fun reply => ih reply (ha.2 reply)
  | echo text next ih | pause span next ih => exact ih ha
  | mark m next ih =>
    cases m with
    | boundary => exact (hq ha.1).elim
    | crossed | frames | held => exact ih ha.2

theorem Within.closes (hq : ¬ q .boundary) (a : Activity α) (ha : a.Within p q) : a.Closes P := by
  have hbind := Within.closes_bind hq a ha (f := .done) (P := P) fun _ => trivial
  rwa [bind_done] at hbind

theorem Closes.mono (h : ∀ next, P next → P' next) (a : Activity α) (ha : a.Closes P) :
    a.Closes P' := by
  induction a with
  | done | fail => trivial
  | look next ih | issue action next ih | perform order next ih | await holds limit next ih =>
    exact fun x => ih x (ha x)
  | echo text next ih | pause span next ih => exact ih ha
  | mark m next ih =>
    cases m with
    | boundary => exact ⟨h next ha.1, ih ha.2⟩
    | crossed | frames | held => exact ih ha

end Activity

theorem Activity.inherited_closes (P : Activity α → Prop) :
    Inherited (fun _ => True) fun _ _ a => a.Closes P := by
  intro frames n a frames' n' b hnext ha
  cases hnext with
  | look | issue | perform | await => exact ha _
  | echo | crossed | frames | held | pause => exact ha
  | boundary => exact ha.2

def Course.Closes (P : Activity α → Prop) (c : Course α) : Prop :=
  c.Lifts True (fun _ _ a => a.Closes P) [] 0

theorem Course.closes_step? {P : Activity α → Prop} {means : Means γ} {now : Moment}
    {s s' : Scene γ} {c c' : Course α} (hc : c.Closes P)
    (h : c.step? means now s = some (s', c')) : c'.Closes P :=
  Lifts.step? (Activity.inherited_closes P) trivial (fun _ => trivial) hc h

inductive Step.Closing (step : Step) : Activity Flow → Prop where
  | next : Closing step (.done .next)
  | jump (target : Nat) : Closing step (.done (.jump target))
  | finish : Closing step (.done .finish)
  | rest {count : Nat} : step.command = .craft count →
      Closing step (.pause (step.modifiers.wait.getD .zero) (.done .next))

theorem resolve_wait {config : Config} {names : List String} {step : Step} {eff : Effective}
    (h : resolve config names step = .ok eff) : eff.wait = step.modifiers.wait.getD .zero := by
  unfold resolve at h
  simp only [bind, Except.bind] at h
  repeat' split at h
  all_goals cases h
  all_goals rfl

namespace Execution
open Activity

theorem closes_tell (wanted : Bool) (news : Option String) {f : Unit → Activity β}
    {P : Activity β → Prop} (hf : ∀ x, (f x).Closes P) : ((tell wanted news).bind f).Closes P :=
  Within.closes_bind (p := fun _ => False) (q := fun _ => False) id _ (within_tell _ _) hf

/-- A gate is crossed before its wait. -/
theorem closes_gate (index : Nat) (eff : Effective) (frames : List Frame) {step : Step}
    {count : Nat} (hc : step.command = .craft count)
    (hw : eff.wait = step.modifiers.wait.getD .zero) :
    (gate index count eff frames).Closes step.Closing := by
  refine closes_tell _ _ fun _ => ?_
  change step.Closing (if _ then _ else _) ∧ Activity.Closes _ (if _ then _ else _)
  split
  · exact ⟨hw ▸ .rest hc, trivial⟩
  · exact ⟨.finish, trivial⟩

/-- A loop is crossed after its wait. -/
theorem closes_loop (config : Config) (index : Nat) (count : LoopCount) (eff : Effective)
    (frames : List Frame) (step : Step) :
    (loop config index count eff frames).Closes step.Closing := by
  unfold loop
  by_cases hi : index = 0
  · simp only [hi, if_true]
    by_cases hz : count = .finite 0
    · simp only [hz, if_true]
      exact closes_tell _ _ fun _ => trivial
    · simp only [hz, if_false]
      trivial
  · simp only [hi, if_false]
    refine closes_tell _ _ fun _ => ⟨?_, trivial⟩
    change step.Closing (.done (if _ then _ else _))
    split
    · exact .jump 0
    · exact .next

theorem closes_command (rules : Rules) (chain : List String) (index : Nat) (frames : List Frame)
    (step : Step) (eff : Effective) (hw : eff.wait = step.modifiers.wait.getD .zero) :
    (command rules chain index frames step eff).Closes step.Closing := by
  by_cases hb : step.command.isBoundary
  · unfold command
    cases hc : step.command with
    | craft count => exact closes_gate index eff frames hc hw
    | loop count => exact closes_loop rules.config index count eff frames step
    | _ => simp [hc, Command.isBoundary] at hb
  · refine Within.closes (fun hm => ?_) _ (within_command rules chain index frames step eff)
    cases hc : step.command <;> simp_all [Command.Makes, Command.isBoundary]

theorem closes_step (rules : Rules) (chain : List String) (index : Nat) (frames : List Frame)
    (step : Step) : (Execution.step rules chain index frames step).Closes step.Closing := by
  intro view
  dsimp only
  split
  · trivial
  · rename_i eff hr
    exact closes_command rules chain index frames step eff (resolve_wait hr)

end Execution

namespace Lifecycle

variable {l : Lifecycle}

def Pending (l : Lifecycle) : Prop := l.state = .pausedAtNextLoop ∨ l.state = .stoppedAtNextLoop

theorem Pending.state_boundary (h : l.Pending) :
    some (l.apply .loopBoundary).state = l.state.next? .loopBoundary := by
  obtain ⟨state, single⟩ := l
  rcases h with h | h <;> (cases h; rfl)

theorem Pending.afterStep_boundary (h : l.Pending) :
    (l.apply .loopBoundary).afterStep = l.apply .loopBoundary := by
  obtain ⟨state, single⟩ := l
  rcases h with h | h <;>
    (cases h; simp [Lifecycle.apply, next?, RunState.next?, Lifecycle.afterStep])

end Lifecycle

namespace Fiber

variable {engine : Engine γ} {now : Moment} {game : γ} {f : Fiber} {inv : Invocation}
  {below : List Invocation} {Q : Lifecycle → Prop} {r : γ × Fiber}

/-- A step that is under way is that of the cursor, and is as good as over at each boundary. -/
def Closing (f : Fiber) : Prop := ∀ inv below c, f.stack = inv :: below → f.phase = .busy c →
  c.Closes fun next => ∃ step, inv.routine.get? inv.cursor = some step ∧ step.Closing next

theorem closing_of_not_busy (h : ∀ c, f.phase ≠ .busy c) : f.Closing :=
  fun _ _ c _ hp => absurd hp (h c)

theorem closing_leave (f : Fiber) (inv : Invocation) (below : List Invocation) (stopped : Bool) :
    (f.leave inv below stopped).Closing := by
  cases below with
  | nil => exact closing_of_not_busy fun c hp => nomatch hp
  | cons parent rest =>
    intro inv' below' c hs hp
    cases hp
    trivial

theorem closing_step (hf : f.Closing) (h : SmallStep engine now game f r) : r.2.Closing := by
  cases h with
  | halted => exact closing_leave _ _ _ _
  | @finished inv below =>
    cases hcross : Frames.crossEnd inv.frames with
    | none =>
      rw [finishSteps_none engine.client hcross]
      exact closing_leave _ _ _ _
    | some crossing =>
      rw [finishSteps_some engine.client hcross]
      dsimp only
      split
      · exact closing_of_not_busy fun c hp => nomatch hp
      · exact closing_leave _ _ _ _
  | @begun inv below step hs hp _ hget =>
    intro inv' below' c hs' hp'
    have hs' : f.stack = inv' :: below' := hs'
    rw [hs] at hs'
    cases hs'
    cases hp'
    exact Activity.Closes.mono (fun next hnext => ⟨step, hget, hnext⟩) _
      (Execution.closes_step _ _ _ _ step)
  | @moved inv below c _ _ hs hp hc =>
    intro inv' below' c' hs' hp'
    cases hs'
    cases hp'
    exact Course.closes_step? (hf inv below c hs hp) hc
  | @concluded inv below _ ending =>
    match ending with
    | .value .next | .value (.jump _) | .value (.enter ..) =>
      exact closing_of_not_busy fun c hp => nomatch hp
    | .value .finish | .interrupted => exact closing_leave _ _ _ _
    | .failure site error => exact closing_of_not_busy (handleFailure_phase _ _ _ _ _ _ _ site error)

/-- The invocation is about to cross a loop: in a step, or at the end of its steps. -/
inductive Crosses (f : Fiber) (inv : Invocation) : Prop where
  | step {next : Activity Flow} : f.phase = .busy (.doing (.mark .boundary next)) → Crosses f inv
  | header : f.phase = .ready → inv.routine.get? inv.cursor = none →
      (Frames.crossEnd inv.frames).isSome → Crosses f inv

instance (f : Fiber) (inv : Invocation) : Decidable (f.Crosses inv) :=
  match hp : f.phase with
  | .ready =>
    if hend : inv.routine.get? inv.cursor = none ∧ (Frames.crossEnd inv.frames).isSome then
      isTrue (.header hp hend.1 hend.2)
    else isFalse fun hc => by cases hc <;> simp_all
  | .busy (.doing (.mark .boundary _)) => isTrue (.step hp)
  | .busy (.doing (.mark .crossed _)) | .busy (.doing (.mark (.frames _) _))
  | .busy (.doing (.mark (.held _) _)) | .busy (.doing (.done _)) | .busy (.doing (.fail ..))
  | .busy (.doing (.look _)) | .busy (.doing (.issue ..)) | .busy (.doing (.perform ..))
  | .busy (.doing (.echo ..)) | .busy (.doing (.pause ..)) | .busy (.doing (.await ..))
  | .busy (.waiting ..) | .busy .interrupted | .ended _ =>
    isFalse fun hc => by cases hc <;> simp_all

theorem handles_leave (f : Fiber) (inv : Invocation) (below : List Invocation) (stopped : Bool) :
    (f.leave inv below stopped).handles = below.map Invocation.control := by
  cases below <;> rfl

theorem not_mem_below (hg : f.Governed Q)
    (hh : f.handles = inv.control :: below.map Invocation.control) :
    inv.control ∉ below.map Invocation.control := by
  have hd := hg.descending
  rw [hh] at hd
  exact fun hm => absurd ((List.pairwise_cons.mp hd).1 _ hm) (Nat.lt_irrefl _)

theorem not_mem_leave (hg : f.Governed Q)
    (hh : f.handles = inv.control :: below.map Invocation.control) (stopped : Bool) :
    inv.control ∉ (f.leave inv below stopped).handles := by
  rw [handles_leave]
  exact not_mem_below hg hh

end Fiber

namespace Snapshot

variable {engine : Engine γ} {asks : Controls.Wish → Prop} {s t : Snapshot γ}
  {now : Moment} {game : γ} {name : String} {routine : Routine} {inv : Invocation}
  {below : List Invocation}

theorem closing_moves (h : Moves engine asks (start now game name routine) s) :
    s.run.fiber.Closing := by
  induction h with
  | refl => exact Fiber.closing_of_not_busy fun c hp => nomatch hp
  | tail hmoves hmove ih =>
    cases hmove with
    | lapse | wish => exact ih
    | work hstep =>
      obtain ⟨_, ⟨_, _, _, rfl⟩ | ⟨f, _, hf, rfl⟩⟩ := Run.step?_native (sound_moves hmoves).1.native hstep
      · exact ih
      · exact Fiber.closing_step ih (Fiber.smallStep_of_step? hf)

def Between (s : Snapshot γ) (h : Handle) (l : Lifecycle) : Prop :=
  h ∉ s.run.fiber.handles ∨
    s.run.fiber.phase = .ready ∧ s.run.fiber.stack.head?.map Invocation.control = some h ∧
      s.run.fiber.controls.lifecycle h = l

/-- A step that is done is concluded at once, even in an invocation that is paused or stopped. -/
theorem tick_concluded (hn : s.Native) (ho : s.run.outcome = none)
    (hg : s.run.fiber.Governed fun _ => True) (hs : s.run.fiber.stack = inv :: below)
    {flow : Flow} (hp : s.run.fiber.phase = .busy (.doing (.done flow)))
    (hflow : ∀ name routine wait, flow ≠ .enter name routine wait) :
    (s.tick engine).now = s.now ∧ (s.tick engine).run.fiber.steps = s.run.fiber.steps + 1 ∧
      (s.tick engine).Between inv.control
        (s.run.fiber.controls.lifecycle inv.control).afterStep := by
  have hr : s.run.fiber.result? = none := by simp [Fiber.result?, hp]
  have hh : s.run.fiber.handles = inv.control :: below.map Invocation.control := by
    simp [Fiber.handles, hs]
  have hcontrol : ∀ target,
      (s.run.fiber.advance s.now inv below target).controls.lifecycle inv.control =
        (s.run.fiber.controls.lifecycle inv.control).afterStep :=
    fun _ => Controls.lifecycle_set_self (hg.live _ (by simp [hh]))
  rw [tick_of_step? hn ho hr (Fiber.step?_concluded hs hp rfl)]
  cases flow with
  | enter name routine wait => exact absurd rfl (hflow name routine wait)
  | next | jump =>
    exact ⟨rfl, Fiber.steps_complete .., .inr ⟨rfl, rfl, hcontrol _⟩⟩
  | finish =>
    have hc : (s.run.fiber.complete s.now inv).Governed fun _ => True := by
      simpa only [Fiber.Governed, Fiber.handles, Fiber.complete_stack, Fiber.complete_controls]
        using hg
    have hh' : (s.run.fiber.complete s.now inv).handles =
        inv.control :: below.map Invocation.control := by
      simpa only [Fiber.handles, Fiber.complete_stack] using hh
    refine ⟨rfl, ?_, .inl (Fiber.not_mem_leave hc hh' false)⟩
    rw [← Fiber.steps_complete s.run.fiber s.now inv]
    cases below <;> rfl

/-- What is left of a step after its boundary takes no time, unless it is a gate with a wait. -/
theorem closing_concluded (hn : s.Native) (ho : s.run.outcome = none)
    (hg : s.run.fiber.Governed fun _ => True) (hs : s.run.fiber.stack = inv :: below)
    {step : Step} {next : Activity Flow} (hp : s.run.fiber.phase = .busy (.doing next))
    (hnext : step.Closing next)
    (hgate : ∀ count, step.command = .craft count →
      (step.modifiers.wait.getD .zero).isZero = true) :
    ∃ k, (s.after engine k).now = s.now ∧
      (s.after engine k).run.fiber.steps = s.run.fiber.steps + 1 ∧
      (s.after engine k).Between inv.control
        (s.run.fiber.controls.lifecycle inv.control).afterStep := by
  cases hnext with
  | next | jump | finish => exact ⟨1, tick_concluded hn ho hg hs hp (by simp)⟩
  | rest hc =>
    have hr : s.run.fiber.result? = none := by simp [Fiber.result?, hp]
    have hlive := hg.live inv.control (by simp [Fiber.handles, hs])
    have htick : s.tick engine = _ := tick_of_step? hn ho hr (Fiber.step?_moved hs hp rfl
      (by rw [Course.step?, Course.proceed?, if_pos (hgate _ hc)]))
    have hcontrol : (s.tick engine).run.fiber.controls.lifecycle inv.control =
        s.run.fiber.controls.lifecycle inv.control := by
      rw [htick]
      exact Controls.lifecycle_set_self hlive
    have hstack : (s.tick engine).run.fiber.stack = inv :: below := by rw [htick]; rfl
    have hphase : (s.tick engine).run.fiber.phase = .busy (.doing (.done .next)) := by rw [htick]
    have hgoverned : (s.tick engine).run.fiber.Governed fun _ => True := by
      rw [htick]
      exact Fiber.governed_withScene hg hs trivial
    obtain ⟨hnow, hsteps, hbetween⟩ :
        ((s.tick engine).tick engine).now = (s.tick engine).now ∧ _ ∧ _ :=
      tick_concluded (native_tick hn) (by rw [htick]; exact ho) hgoverned hstack hphase (by simp)
    rw [hcontrol] at hbetween
    refine ⟨2, ?_, ?_, hbetween⟩
    · exact hnow.trans (by rw [htick])
    · exact hsteps.trans (by rw [htick]; rfl)

/-- An invocation that is paused between two steps stays there until somebody asks otherwise. -/
theorem still_of_paused {h : Handle} (hn : s.Native) (hp : s.run.fiber.phase = .ready)
    (hhead : s.run.fiber.stack.head?.map Invocation.control = some h)
    (hpaused : s.run.fiber.controls.state h = .pausedNow)
    (hm : Moves engine (fun _ => False) s t) : t.run = s.run := by
  induction hm with
  | refl => rfl
  | @tail t u _ hmove ih =>
    cases hmove with
    | lapse => exact ih
    | wish hw => exact hw.elim
    | work hstep =>
      exfalso
      rw [ih] at hstep
      obtain ⟨inv, hinv, rfl⟩ := Option.map_eq_some_iff.mp hhead
      obtain ⟨below, hs⟩ := List.head?_eq_some_iff.mp hinv
      obtain ⟨_, ⟨result, hr, _⟩ | ⟨f, _, hf, _⟩⟩ := Run.step?_native hn hstep
      · simp [Fiber.result?, hp] at hr
      · rw [Fiber.step?_ready hs hp] at hf
        simp [Fiber.begin?, hpaused] at hf

/-- At the end of the steps no step is under way. -/
theorem header_crossed (hn : s.Native) (ho : s.run.outcome = none)
    (hg : s.run.fiber.Governed fun _ => True) (hs : s.run.fiber.stack = inv :: below)
    (hp : s.run.fiber.phase = .ready) (hget : inv.routine.get? inv.cursor = none)
    (hcross : (Frames.crossEnd inv.frames).isSome)
    (hpending : (s.run.fiber.controls.lifecycle inv.control).Pending) :
    (s.tick engine).now = s.now ∧ (s.tick engine).run.fiber.steps = s.run.fiber.steps ∧
      (s.tick engine).Between inv.control
        ((s.run.fiber.controls.lifecycle inv.control).apply .loopBoundary) := by
  obtain ⟨crossing, hcross⟩ := Option.isSome_iff_exists.mp hcross
  have hr : s.run.fiber.result? = none := by simp [Fiber.result?, hp]
  have hlive := hg.live inv.control (by simp [Fiber.handles, hs])
  have hbegin : s.run.fiber.step? engine s.now s.game =
      some (Fiber.finishSteps engine.client s.now s.game s.run.fiber inv below) := by
    rw [Fiber.step?_ready hs hp]
    unfold Fiber.begin? Controls.state
    rcases hpending with hstate | hstate <;> simp only [hstate, hget]
  have hscene := Fiber.governed_withScene (Q := fun _ => True)
    (s := (s.run.fiber.scene inv s.game).cross engine.client s.now crossing) hg hs trivial
  rw [Fiber.finishSteps_some engine.client hcross] at hbegin
  dsimp only at hbegin
  split at hbegin
  · rw [tick_of_step? hn ho hr hbegin]
    refine ⟨rfl, rfl, .inr ⟨rfl, rfl, ?_⟩⟩
    have hcontrol := Fiber.cross_control engine.client s.now (s.run.fiber.scene inv s.game) crossing
    exact (Controls.lifecycle_set_self hlive).trans hcontrol
  · rw [tick_of_step? hn ho hr hbegin]
    refine ⟨rfl, ?_, .inl (Fiber.not_mem_leave hscene rfl false)⟩
    cases below <;> rfl

/-- In a step the boundary is all that is left of it, but for the wait of a gate. -/
theorem step_crossed (hn : s.Native) (ho : s.run.outcome = none)
    (hg : s.run.fiber.Governed fun _ => True) (hclosing : s.run.fiber.Closing)
    (hs : s.run.fiber.stack = inv :: below) {next : Activity Flow}
    (hp : s.run.fiber.phase = .busy (.doing (.mark .boundary next)))
    (hgate : ∀ step count, inv.routine.get? inv.cursor = some step → step.command = .craft count →
      (step.modifiers.wait.getD .zero).isZero = true) :
    (inv.routine.get? inv.cursor).isSome ∧ ∃ k, (s.after engine k).now = s.now ∧
      (s.after engine k).run.fiber.steps = s.run.fiber.steps + 1 ∧
      (s.after engine k).Between inv.control
        ((s.run.fiber.controls.lifecycle inv.control).apply .loopBoundary).afterStep := by
  obtain ⟨⟨step, hget, hnext⟩, _⟩ := hclosing inv below _ hs hp
  have hr : s.run.fiber.result? = none := by simp [Fiber.result?, hp]
  have hlive := hg.live inv.control (by simp [Fiber.handles, hs])
  have htick : s.tick engine = _ := tick_of_step? hn ho hr (Fiber.step?_moved hs hp rfl rfl)
  have hcontrol : (s.tick engine).run.fiber.controls.lifecycle inv.control =
      (s.run.fiber.controls.lifecycle inv.control).apply .loopBoundary := by
    rw [htick]
    exact Controls.lifecycle_set_self hlive
  have hstack : (s.tick engine).run.fiber.stack = inv :: below := by rw [htick]; rfl
  have hgoverned : (s.tick engine).run.fiber.Governed fun _ => True := by
    rw [htick]
    exact Fiber.governed_withScene hg hs trivial
  obtain ⟨k, hnow, hsteps, hbetween⟩ :
      ∃ k, ((s.tick engine).after engine k).now = (s.tick engine).now ∧ _ ∧ _ :=
    closing_concluded (native_tick hn) (by rw [htick]; exact ho) hgoverned hstack (by rw [htick])
      hnext fun count => hgate step count hget
  rw [after_tick] at hnow hsteps hbetween
  rw [hcontrol] at hbetween
  refine ⟨by simp [hget], k + 1, ?_, ?_, hbetween⟩
  · exact hnow.trans (by rw [htick])
  · exact hsteps.trans (by rw [htick]; rfl)

/-- A request for the next loop that takes effect leaves nothing of the step that crosses it, if
gates do not wait: it is counted before any time passes, and a paused invocation then stands
before a step that has not begun. -/
theorem next_loop_whole {pending : RunState}
    (h : Moves engine (fun _ => True) (start now game name routine) s)
    (hs : s.run.fiber.stack = inv :: below) (hcross : s.run.fiber.Crosses inv)
    (hstate : s.run.fiber.controls.state inv.control = pending)
    (hpending : pending = .pausedAtNextLoop ∨ pending = .stoppedAtNextLoop)
    (hgate : ∀ step count, inv.routine.get? inv.cursor = some step → step.command = .craft count →
      (step.modifiers.wait.getD .zero).isZero = true) :
    ∃ k, (s.after engine k).now = s.now ∧
      (s.after engine k).run.fiber.steps =
        s.run.fiber.steps + (if (inv.routine.get? inv.cursor).isSome then 1 else 0) ∧
      (inv.control ∉ (s.after engine k).run.fiber.handles ∨
        (s.after engine k).run.fiber.phase = .ready ∧
        (s.after engine k).run.fiber.stack.head?.map Invocation.control = some inv.control ∧
        some ((s.after engine k).run.fiber.controls.state inv.control) =
          pending.next? .loopBoundary ∧
        (pending = .pausedAtNextLoop → ∀ t, Moves engine (fun _ => False) (s.after engine k) t →
          t.run = (s.after engine k).run)) := by
  subst hstate
  obtain ⟨hsound, hg⟩ := sound_moves h
  have hn := hsound.native
  have hnone : s.run.outcome = none := hsound.running fun result he => by
    cases hcross with
    | step hp | header hp => rw [hp] at he; cases he
  have hl : (s.run.fiber.controls.lifecycle inv.control).Pending := hpending
  obtain ⟨k, hnow, hsteps, hbetween⟩ : ∃ k, (s.after engine k).now = s.now ∧
      (s.after engine k).run.fiber.steps =
        s.run.fiber.steps + (if (inv.routine.get? inv.cursor).isSome then 1 else 0) ∧
      (s.after engine k).Between inv.control
        ((s.run.fiber.controls.lifecycle inv.control).apply .loopBoundary) := by
    cases hcross with
    | step hp =>
      obtain ⟨hsome, k, hnow, hsteps, hbetween⟩ :=
        step_crossed hn hnone (hg hnone) (closing_moves h) hs hp hgate
      rw [hl.afterStep_boundary] at hbetween
      exact ⟨k, hnow, by rw [if_pos hsome, hsteps], hbetween⟩
    | header hp hget hend =>
      obtain ⟨hnow, hsteps, hbetween⟩ := header_crossed hn hnone (hg hnone) hs hp hget hend hl
      exact ⟨1, hnow, by rw [hget]; exact hsteps, hbetween⟩
  refine ⟨k, hnow, hsteps, hbetween.imp_right ?_⟩
  rintro ⟨hp, hhead, hafter⟩
  have hstate : some ((s.after engine k).run.fiber.controls.state inv.control) =
      (s.run.fiber.controls.state inv.control).next? .loopBoundary := by
    unfold Controls.state
    rw [hafter]
    exact hl.state_boundary
  refine ⟨hp, hhead, hstate, fun hpause t ht => ?_⟩
  rw [hpause] at hstate
  exact still_of_paused (hsound.after k).native hp hhead (Option.some.inj hstate) ht

def sipping : Routine :=
  ⟨[⟨1, .echo "sip", "sip", {}⟩,
    ⟨2, .loop (.finite 1), "1", { wait := some (.fixed (.ofNat 2)) }⟩]⟩

def sipped : Snapshot Unit :=
  let s := (start 0 () "m" sipping).after (.still .empty) 7
  { s with run := (s.run.grant .pauseAtLoop).2 }.after (.still .empty) 44

def sipper : Invocation := sipped.run.fiber.stack.headD (.begin "m" sipping Controls.root)

theorem moves_sipped :
    Moves (.still .empty) (fun _ => True) (start 0 () "m" sipping) sipped := by
  have hwait : Moves (.still .empty) (fun _ => True) (start 0 () "m" sipping) _ :=
    moves_after (start 0 () "m" sipping) 7
  have hpause := hwait.tail (.wish _ (w := .pauseAtLoop) trivial)
  exact hpause.trans (moves_after _ 44)

theorem next_loop_whole_sipping :
    sipped.now = 2000 ∧ sipped.run.fiber.steps = 1 ∧ ∃ k,
      (sipped.after (.still .empty) k).now = sipped.now ∧
      (sipped.after (.still .empty) k).run.fiber.steps = 2 ∧
      (sipper.control ∉ (sipped.after (.still .empty) k).run.fiber.handles ∨
        (sipped.after (.still .empty) k).run.fiber.phase = .ready ∧
        (sipped.after (.still .empty) k).run.fiber.controls.state sipper.control = .pausedNow) := by
  have hgate : ∀ step count, sipper.routine.get? sipper.cursor = some step →
      step.command = .craft count → (step.modifiers.wait.getD .zero).isZero = true := by
    have hloop : (sipper.routine.get? sipper.cursor).map Step.command =
        some (.loop (.finite 1)) := by decide +kernel
    intro step count hget hc
    rw [hget] at hloop
    cases hc.symm.trans (Option.some.inj hloop)
  have hsteps : sipped.run.fiber.steps +
      (if (sipper.routine.get? sipper.cursor).isSome then 1 else 0) = 2 := by decide +kernel
  have hstack : sipped.run.fiber.stack = [sipper] := by decide +kernel
  have hpending : sipped.run.fiber.controls.state sipper.control = .pausedAtNextLoop := by
    decide +kernel
  obtain ⟨k, hnow, hcount, hbetween⟩ :=
    next_loop_whole moves_sipped hstack (by decide +kernel) hpending (.inl rfl) hgate
  refine ⟨by decide +kernel, by decide +kernel, k, hnow, hcount.trans hsteps,
    hbetween.imp_right ?_⟩
  rintro ⟨hp, _, hstate, _⟩
  exact ⟨hp, Option.some.inj hstate⟩

def gating : Routine :=
  ⟨[⟨1, .wait (.fixed (.ofNat 1)), "1", {}⟩,
    ⟨2, .craft 3, "3", { wait := some (.fixed (.ofNat 2)) }⟩, ⟨3, .echo "done", "done", {}⟩]⟩

/-- A gate that waits is paused before its wait, or stopped without it. -/
theorem next_loop_cuts_gate :
    let s := (start 0 () "m" gating).after (.still .empty) 6
    let paused := { s with run := (s.run.grant .pauseAtLoop).2 }.after (.still .empty) 60
    let stopped := { s with run := (s.run.grant .stopAtLoop).2 }.after (.still .empty) 60
    (paused.now = 1000 ∧ paused.run.invocations = [("m", .pausedNow)] ∧
      paused.run.fiber.stack.map Invocation.cursor = [1] ∧ ¬ paused.run.fiber.Resting ∧
      paused.run.fiber.steps = 1) ∧
    (stopped.run.outcome.map Outcome.ended = some 1000 ∧
      (stopped.run.outcome.bind fun o => o.result.toOption) = some ⟨"m", 1, 1, [], true⟩) := by
  decide +kernel

end Snapshot
end MacroEngine
