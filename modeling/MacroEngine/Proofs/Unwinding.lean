import MacroEngine.Proofs.Progress
import MacroEngine.Proofs.Settling

/-! How a stack of invocations grows and shrinks. A step of the innermost invocation leaves those
below it alone, and each of these is on the step that runs the one above. When an invocation is
over, the one that ran it goes on with the step after. -/
namespace MacroEngine

def Level.Runs (level : Level) (name : String) : Prop :=
  ∃ step, level.routine.get? level.cursor = some step ∧ step.command = .runMacro name

/-- Each level runs the one above it, which is the one before. -/
def Linked : List Level → Prop
  | child :: parent :: rest => parent.Runs child.name ∧ Linked (parent :: rest)
  | _ => True

theorem Linked.tail {child : Level} {below : List Level} (h : Linked (child :: below)) :
    Linked below := by
  cases below with
  | nil => trivial
  | cons parent rest => exact h.2

theorem Linked.head {child child' : Level} {below : List Level} (h : Linked (child :: below))
    (hname : child'.name = child.name) : Linked (child' :: below) := by
  cases below with
  | nil => trivial
  | cons parent rest => exact ⟨hname ▸ h.1, h.2⟩

namespace Fiber

inductive Turn (f f' : Fiber) : Prop where
  | stays {inv inv' below} : f.stack = inv :: below → f'.stack = inv' :: below →
      inv'.name = inv.name → Turn f f'
  | enters {course name routine wait} : f.phase = .busy course →
      course.end? = some (.value (.enter name routine wait)) →
      levels f'.stack = ⟨name, routine, 0, []⟩ :: levels f.stack → Turn f f'
  | leaves {inv below} : f.stack = inv :: below → levels f'.stack = levels below →
      (below ≠ [] → ∃ span, f'.phase = .busy (.doing (.pause span (.done .next)))) → Turn f f'
  | aborts {error} : f'.stack = [] → f'.phase = .ended (.error error) → Turn f f'

variable {engine : Engine γ} {now : Moment} {game game' : γ} {f f' : Fiber} {inv : Invocation}
  {below : List Invocation}

theorem turn_leave {g : Fiber} (hs : f.stack = inv :: below) (inv' : Invocation) (stopped : Bool) :
    f.Turn (g.leave inv' below stopped) := by
  cases below with
  | nil => exact .leaves hs rfl fun h => absurd rfl h
  | cons => exact .leaves hs rfl fun _ => ⟨_, rfl⟩

theorem turn_finishSteps (hs : f.stack = inv :: below) (client : Client γ) (now : Moment)
    (game : γ) : f.Turn (finishSteps client now game f inv below).2 := by
  cases hcross : Frames.crossEnd inv.frames with
  | none =>
    rw [finishSteps_none client hcross]
    exact turn_leave hs _ _
  | some crossing =>
    rw [finishSteps_some client hcross]
    dsimp only
    split
    · exact .stays hs rfl rfl
    · exact turn_leave hs _ _

theorem turn_handleFailure (hs : f.stack = inv :: below) (client : Client γ) (config : Config)
    (now : Moment) (game : γ) (site : Site) (error : RunError) :
    f.Turn (handleFailure client config now game f inv below site error).2 := by
  unfold handleFailure
  split
  · dsimp only
    split
    · exact .aborts rfl rfl
    · exact .stays hs rfl rfl
  · exact .aborts rfl rfl

theorem turn_conclude {course : Course Flow} {ending : Course.End Flow}
    (hs : f.stack = inv :: below) (hp : f.phase = .busy course) (hend : course.end? = some ending)
    (engine : Engine γ) (now : Moment) (game : γ) :
    f.Turn (conclude engine now game f inv below ending).2 := by
  match ending with
  | .value .next | .value (.jump _) => exact .stays hs rfl rfl
  | .value .finish | .interrupted => exact turn_leave hs _ _
  | .value (.enter name routine wait) =>
    refine .enters hp hend ?_
    rw [hs]
    rfl
  | .failure site error => exact turn_handleFailure hs _ _ _ _ site error

theorem turn_of_step (h : SmallStep engine now game f (game', f')) : f.Turn f' := by
  generalize hr : (game', f') = r at h
  suffices hf : f.Turn r.2 by rwa [← hr] at hf
  cases h with
  | halted hs => exact turn_leave hs _ _
  | finished hs => exact turn_finishSteps hs _ _ _
  | begun hs => exact .stays hs hs rfl
  | moved hs => exact .stays hs rfl rfl
  | concluded hs hp hend => exact turn_conclude hs hp hend _ _ _

/-- The invocations below the innermost one are left alone, unless the run fails. -/
theorem Turn.frame (h : f.Turn f') :
    (levels f.stack).tail <:+ levels f'.stack ∨ ∃ error, f'.phase = .ended (.error error) := by
  cases h with
  | stays hs hs' =>
    rw [hs, hs']
    exact .inl (List.suffix_cons _ _)
  | enters _ _ hs =>
    rw [hs]
    exact .inl ((List.tail_suffix _).trans (List.suffix_cons _ _))
  | leaves hs hs' =>
    rw [hs, hs']
    exact .inl List.suffix_rfl
  | aborts _ hp => exact .inr ⟨_, hp⟩

/-- If the step under way enters a macro, it is a step that runs it. -/
def Heads (f : Fiber) : Prop :=
  ∀ course inv below, f.phase = .busy course → f.stack = inv :: below → course.Ensures
    (fun _ _ flow => ∀ name routine wait, flow = .enter name routine wait → inv.level.Runs name)
    inv.frames f.crossings

theorem heads_leave (f : Fiber) (inv : Invocation) (below : List Invocation) (stopped : Bool) :
    (f.leave inv below stopped).Heads := by
  cases below with
  | nil => exact fun _ _ _ hp => nomatch hp
  | cons parent rest =>
    intro course inv' below' hp hs
    cases hp
    exact fun _ _ _ h => nomatch h

theorem heads_of_not_busy (h : ∀ course, f.phase ≠ .busy course) : f.Heads :=
  fun course _ _ hp => absurd hp (h course)

theorem heads_step
    (hn : ∀ inv below, f.stack = inv :: below → f.controls.state inv.control ≠ .stopped)
    (hf : f.Heads) (h : SmallStep engine now game f (game', f')) : f'.Heads := by
  generalize hr : (game', f') = r at h
  suffices hf : r.2.Heads by rwa [← hr] at hf
  cases h with
  | halted => exact heads_leave _ _ _ _
  | @finished inv below =>
    cases hcross : Frames.crossEnd inv.frames with
    | none =>
      rw [finishSteps_none engine.client hcross]
      exact heads_leave _ _ _ _
    | some crossing =>
      rw [finishSteps_some engine.client hcross]
      dsimp only
      split
      · exact heads_of_not_busy fun _ h => nomatch h
      · exact heads_leave _ _ _ _
  | @begun inv below step hs _ _ hget =>
    intro course inv' below' hp hs'
    cases hp
    cases hs.symm.trans hs'
    refine Activity.ensures_mono ?_ _ (Execution.ensures_step engine.rules f.chain inv.cursor step)
    rintro _ _ _ hleads name routine wait rfl
    exact ⟨step, hget, hleads.enter⟩
  | @moved inv below course s course' hs hp hc =>
    intro course'' inv' below' hp' hs'
    cases hp'
    cases hs'
    have hmoved := Course.ensures_step? (hn inv below hs) (hf course inv below hp hs) hc
    exact hmoved
  | @concluded inv below course ending =>
    match ending with
    | .value .next | .value (.jump _) | .value (.enter ..) =>
      exact heads_of_not_busy fun _ h => nomatch h
    | .value .finish | .interrupted => exact heads_leave _ _ _ _
    | .failure site error =>
      exact heads_of_not_busy (handleFailure_phase _ _ _ _ _ _ _ site error)

theorem linked_step (hf : f.Heads) (hl : Linked (levels f.stack))
    (h : SmallStep engine now game f (game', f')) : Linked (levels f'.stack) := by
  cases turn_of_step h with
  | stays hs hs' hname =>
    rw [hs] at hl
    rw [hs']
    exact hl.head hname
  | leaves hs hs' =>
    rw [hs] at hl
    rw [hs']
    exact hl.tail
  | aborts hs =>
    rw [hs]
    trivial
  | @enters course name routine wait hp hend hs =>
    rw [hs]
    cases hstack : f.stack with
    | nil => trivial
    | cons inv below =>
      rw [hstack] at hl
      rcases Course.ensures_end (hf course inv below hp hstack) hend with
        ⟨_, hvalue, hruns⟩ | ⟨_, _, hfail, _⟩
      · cases hvalue
        exact ⟨hruns name routine wait rfl, hl⟩
      · cases hfail

end Fiber

def Course.Resumes : Course Flow → Prop
  | .doing (.pause _ next) => next = .done .next
  | .doing (.done flow) => flow = .next
  | .waiting _ _ next => ∀ met, next met = .done .next
  | _ => False

theorem Course.Resumes.step_or_cut {means : Means γ} {now : Moment} {s s' : Scene γ}
    {c c' : Course Flow} (hc : c.Resumes) (h : c.step? means now s = some (s', c')) :
    (c'.Resumes ∧ s'.frames = s.frames) ∨ c' = .interrupted ∧ s.control.state = .stopped := by
  cases smallStep_of_step? h with
  | cut hready => exact .inr ⟨rfl, Wait.stopped_of_readiness hready⟩
  | met | late => exact .inl ⟨by rw [hc _]; rfl, rfl⟩
  | again => exact .inl ⟨hc, rfl⟩
  | passed =>
    obtain rfl : _ = Activity.done Flow.next := hc
    exact .inl ⟨rfl, rfl⟩
  | slept => exact .inl ⟨fun _ => hc, rfl⟩
  | _ => exact hc.elim

theorem Course.Resumes.step? {means : Means γ} {now : Moment} {s s' : Scene γ} {c c' : Course Flow}
    (hc : c.Resumes) (hs : s.control.state ≠ .stopped) (h : c.step? means now s = some (s', c')) :
    c'.Resumes ∧ s'.frames = s.frames :=
  (hc.step_or_cut h).resolve_right fun hcut => hs hcut.2

theorem Course.Resumes.end {c : Course Flow} {ending : Course.End Flow} (hc : c.Resumes)
    (h : c.end? = some ending) : ending = .value .next := by
  cases c with
  | interrupted => exact hc.elim
  | waiting => cases h
  | doing a =>
    cases a with
    | done flow =>
      cases h
      exact congrArg Course.End.value hc
    | fail => exact hc.elim
    | _ => cases h

namespace Fiber

structure Back (parent : Level) (rest : List Level) (c : Course Flow) (f : Fiber) : Prop where
  levels : levels f.stack = parent :: rest
  phase : f.phase = .busy c
  resumes : c.Resumes

theorem Back.step {engine : Engine γ} {now : Moment} {game game' : γ} {f f' : Fiber}
    {parent : Level} {rest : List Level} {c : Course Flow} (hf : f.Back parent rest c)
    (hg : f.Governed (· = .started)) (h : SmallStep engine now game f (game', f')) :
    (c.end? = none ∧ ∃ c', f'.Back parent rest c') ∨
      f'.phase = .ready ∧
        Fiber.levels f'.stack = { parent with cursor := parent.cursor + 1 } :: rest := by
  generalize hr : (game', f') = r at h
  suffices hgoal : (c.end? = none ∧ ∃ c', r.2.Back parent rest c') ∨ r.2.phase = .ready ∧
      Fiber.levels r.2.stack = { parent with cursor := parent.cursor + 1 } :: rest by
    rwa [← hr] at hgoal
  have hlevels := hf.levels
  cases h with
  | halted _ hp | finished _ hp | begun _ hp =>
    rw [hf.phase] at hp
    cases hp
  | @moved inv below _ s c' hs hp hc =>
    rw [hf.phase] at hp
    cases hp
    rw [hs] at hlevels
    cases hlevels
    obtain ⟨hresumes, hframes⟩ := hf.resumes.step? (state_ne_stopped hg hs) hc
    refine .inl ⟨Course.end?_of_step? hc, c', ?_, rfl, hresumes⟩
    simp only [withScene, hframes]
    rfl
  | @concluded inv below _ ending hs hp hend =>
    rw [hf.phase] at hp
    cases hp
    rw [hs] at hlevels
    cases hlevels
    cases hf.resumes.end hend
    exact .inr ⟨rfl, rfl⟩

end Fiber

namespace Snapshot

variable {engine : Engine γ} {s : Snapshot γ} {parent : Level} {rest : List Level}

def levels (s : Snapshot γ) : List Level := Fiber.levels s.run.fiber.stack

/-- A tick is a small step, or changes nothing but time and whether the run is over. -/
theorem tick_cases (hn : s.Native) :
    (∃ controls, (s.tick engine).run.fiber = { s.run.fiber with controls := controls }) ∨
      s.run.outcome = none ∧ (s.tick engine).run.outcome = none ∧
        Fiber.SmallStep engine s.now s.game s.run.fiber
          ((s.tick engine).game, (s.tick engine).run.fiber) := by
  rcases tick_eq_or_move engine (fun _ => False) s with h | h
  · rw [h]
    exact .inl ⟨_, rfl⟩
  · generalize s.tick engine = s' at h
    cases h with
    | lapse => exact .inl ⟨_, rfl⟩
    | wish hno => exact hno.elim
    | work hstep =>
      obtain ⟨ho, ⟨_, _, _, rfl⟩ | ⟨f, _, hf, rfl⟩⟩ := Run.step?_native hn hstep
      · exact .inl ⟨_, rfl⟩
      · exact .inr ⟨ho, ho, Fiber.smallStep_of_step? hf⟩

/-- The stack of a run: each invocation runs the one above, also in the step under way. -/
structure Stands (s : Snapshot γ) : Prop where
  heads : s.run.fiber.Heads
  linked : Linked s.levels

theorem stands_start (now : Moment) (game : γ) (name : String) (routine : Routine) :
    (start now game name routine).Stands :=
  ⟨Fiber.heads_of_not_busy fun _ h => (nomatch h), trivial⟩

theorem Free.stands_after (hs : s.Free engine) (h : s.Stands) (n : Nat) :
    (s.after engine n).Stands := by
  induction n with
  | zero => exact h
  | succ n ih =>
    rw [after_succ]
    obtain ⟨hheads, hlinked⟩ := ih
    rcases tick_cases (hs.after n).native with ⟨controls, hsame⟩ | ⟨ho, _, hstep⟩
    · refine ⟨?_, ?_⟩
      · rw [hsame]
        exact hheads
      · unfold levels
        rw [hsame]
        exact hlinked
    · have hn : ∀ inv below, (s.after engine n).run.fiber.stack = inv :: below →
          (s.after engine n).run.fiber.controls.state inv.control ≠ .stopped :=
        fun _ _ => Fiber.state_ne_stopped ((hs.after n).governed ho)
      exact ⟨Fiber.heads_step hn hheads hstep, Fiber.linked_step hheads hlinked hstep⟩

theorem Free.frame_tick (hs : s.Free engine) :
    s.levels.tail <:+ (s.tick engine).levels ∨
      ∃ error, (s.tick engine).run.fiber.phase = .ended (.error error) := by
  rcases tick_cases hs.native with ⟨controls, hsame⟩ | ⟨_, _, hstep⟩
  · unfold levels
    rw [hsame]
    exact .inl (List.tail_suffix _)
  · exact (Fiber.turn_of_step hstep).frame

/-- An invocation that is over gives way to the one that ran it. -/
theorem Free.tick_back {child : Level} (hs : s.Free engine) (h : s.levels = child :: parent :: rest)
    (h' : (s.tick engine).levels = parent :: rest) :
    (s.tick engine).run.outcome = none ∧ ∃ c, (s.tick engine).run.fiber.Back parent rest c := by
  have hshorter : (s.tick engine).levels.length < s.levels.length := by
    rw [h, h']
    exact Nat.lt_succ_self _
  unfold levels Fiber.levels at hshorter
  rw [List.length_map, List.length_map] at hshorter
  rcases tick_cases hs.native with ⟨controls, hsame⟩ | ⟨_, ho, hstep⟩
  · rw [hsame] at hshorter
    exact absurd hshorter (Nat.lt_irrefl _)
  · refine ⟨ho, ?_⟩
    cases Fiber.turn_of_step hstep with
    | stays hs hs' =>
      rw [hs, hs'] at hshorter
      exact absurd hshorter (Nat.lt_irrefl _)
    | enters _ _ hs' =>
      have hlonger := congrArg List.length hs'
      simp only [Fiber.levels, List.length_map, List.length_cons] at hlonger
      omega
    | aborts hs' =>
      unfold levels at h'
      rw [hs'] at h'
      cases h'
    | @leaves inv below _ hs' hback =>
      have hne : below ≠ [] := by
        rintro rfl
        exact List.cons_ne_nil _ _ (h'.symm.trans hs')
      obtain ⟨span, hp⟩ := hback hne
      exact ⟨_, h', hp, rfl⟩

theorem Free.back_tick {c : Course Flow} (hs : s.Free engine) (ho : s.run.outcome = none)
    (hb : s.run.fiber.Back parent rest c) :
    (c.end? = none ∧ (s.tick engine).run.outcome = none ∧
      ∃ c', (s.tick engine).run.fiber.Back parent rest c') ∨
    (s.tick engine).run.fiber.phase = .ready ∧
      (s.tick engine).levels = { parent with cursor := parent.cursor + 1 } :: rest := by
  have hr : s.run.fiber.result? = none := by simp [Fiber.result?, hb.phase]
  rcases tick_native engine hs.native ho hr with ⟨game, f, hstep, htick⟩ | ⟨hstep, now, htick⟩
  · rw [htick]
    rcases hb.step (hs.governed ho) (Fiber.smallStep_of_step? hstep) with ⟨hend, hb'⟩ | hready
    · exact .inl ⟨hend, ho, hb'⟩
    · exact .inr hready
  · rw [htick]
    obtain ⟨inv, below, hstack, _⟩ := List.map_eq_cons_iff.mp hb.levels
    cases hend : c.end? with
    | none => exact .inl ⟨rfl, ho, c, hb⟩
    | some ending =>
      rw [Fiber.step?_concluded hstack hb.phase hend] at hstep
      cases hstep

/-- The invocation that is back waits, and then goes on with the step after the one that it was on.
Until then nothing changes on the stack. -/
theorem Free.back_resumes {c : Course Flow} (hs : s.Free engine) (ho : s.run.outcome = none)
    (hb : s.run.fiber.Back parent rest c) :
    ∃ n, (∀ i ≤ n, (s.after engine i).levels = parent :: rest) ∧
      (s.after engine (n + 1)).run.fiber.phase = .ready ∧
      (s.after engine (n + 1)).levels = { parent with cursor := parent.cursor + 1 } :: rest := by
  obtain ⟨inv, below, hstack, _⟩ := List.map_eq_cons_iff.mp hb.levels
  obtain ⟨n, c', hbusy, hend, hall⟩ := course_ends hs
    ⟨ho, by rw [hstack]; exact List.cons_ne_nil _ _, hb.phase⟩
  have hback : ∀ i ≤ n, (s.after engine i).run.outcome = none ∧
      ∃ c, (s.after engine i).run.fiber.Back parent rest c := by
    intro i
    induction i with
    | zero => exact fun _ => ⟨ho, c, hb⟩
    | succ i ih =>
      intro hi
      obtain ⟨ho, c, hb⟩ := ih (by omega)
      rw [after_succ]
      rcases (hs.after i).back_tick ho hb with ⟨_, h⟩ | ⟨hready, _⟩
      · exact h
      · obtain ⟨c'', hbusy'⟩ := hall (i + 1) hi
        rw [after_succ] at hbusy'
        exact absurd (hready.symm.trans hbusy'.phase) (by simp)
  refine ⟨n, fun i hi => ?_, ?_⟩
  · obtain ⟨_, c, hb⟩ := hback i hi
    exact hb.levels
  · obtain ⟨ho, c, hb⟩ := hback n (Nat.le_refl n)
    rw [after_succ]
    rcases (hs.after n).back_tick ho hb with ⟨hnone, _⟩ | h
    · cases hb.phase.symm.trans hbusy.phase
      rw [hnone] at hend
      cases hend
    · exact h

/-- The stack is unwound as it was wound up. Each level below another runs that one; a tick leaves
all levels alone but the innermost; and where the innermost is over, the one below goes on with the
step after the one that it was on, and until then nothing changes on the stack. -/
structure Unwinds (engine : Engine γ) (s : Snapshot γ) : Prop where
  linked : Linked s.levels
  frame : s.levels.tail <:+ (s.tick engine).levels
  resumes : ∀ child parent rest, s.levels = child :: parent :: rest →
    (s.tick engine).levels = parent :: rest →
    ∃ n, (∀ i ≤ n, ((s.tick engine).after engine i).levels = parent :: rest) ∧
      ((s.tick engine).after engine (n + 1)).run.fiber.phase = .ready ∧
      ((s.tick engine).after engine (n + 1)).levels =
        { parent with cursor := parent.cursor + 1 } :: rest

theorem Free.unwinds (hs : s.Free engine) (h : s.Stands)
    (hfail : ∀ error, (s.tick engine).run.fiber.phase ≠ .ended (.error error)) :
    s.Unwinds engine := by
  refine ⟨h.linked, ?_, fun child parent rest hlevels htick => ?_⟩
  · rcases hs.frame_tick with hframe | ⟨error, hp⟩
    · exact hframe
    · exact absurd hp (hfail error)
  · obtain ⟨ho, c, hback⟩ := hs.tick_back hlevels htick
    exact hs.tick.back_resumes ho hback

end Snapshot
end MacroEngine
