import MacroEngine.Proofs.Effects
import MacroEngine.Proofs.Progress

/-! A run follows the passage of its macro. At each moment the outermost invocation stands before
a step of the passage, is in it, waits for the macro that the step entered, is back from it, or is
over; it goes through these in order, and so the steps it completes are those of the passage. -/
namespace MacroEngine

def Event.completedBy (name : String) : Event → Option Step
  | .completed n step => if n = name then some step else none
  | _ => none

def completedSteps (name : String) (journal : List (Moment × Event)) : List Step :=
  journal.reverse.filterMap fun e => e.2.completedBy name

/-- None of the steps runs another macro. -/
def Routine.Alone (routine : Routine) : Prop :=
  ∀ step ∈ routine.steps, ∀ name, step.command ≠ .runMacro name

theorem completedSteps_cons (name : String) (now : Moment) (event : Event)
    (journal : List (Moment × Event)) :
    completedSteps name ((now, event) :: journal) =
      completedSteps name journal ++ (event.completedBy name).toList := by
  simp only [completedSteps, List.reverse_cons, List.filterMap_append]
  cases h : event.completedBy name <;> simp [h]

theorem Course.completedSteps_step? {means : Means γ} {now : Moment} {s s' : Scene γ}
    {c c' : Course α} (name : String) (h : c.step? means now s = some (s', c')) :
    completedSteps name s'.journal = completedSteps name s.journal := by
  cases smallStep_of_step? h with
  | issue | perform | echo => simp [Scene.log, completedSteps_cons, Event.completedBy]
  | @mark m next =>
    cases m with
    | crossed | frames | boundary => rfl
    | held => simp [Scene.mark, Scene.notify, completedSteps_cons, Event.completedBy]
  | _ => rfl

theorem completedSteps_cross (name : String) (client : Client γ) (now : Moment) (s : Scene γ)
    (crossing : Crossing) :
    completedSteps name (s.cross client now crossing).journal = completedSteps name s.journal := by
  unfold Scene.cross
  cases crossing.news with
  | none => rfl
  | some text => simp [Scene.mark, Scene.log, completedSteps_cons, Event.completedBy]

namespace Fiber

variable {engine : Engine γ} {now : Moment} {game : γ} {f f' : Fiber}
  {name : String} {routine : Routine} {p : Passage} {base : Invocation}

theorem completedSteps_complete (f : Fiber) (now : Moment) {inv : Invocation} {step : Step}
    (h : inv.routine.get? inv.cursor = some step) :
    completedSteps name (f.complete now inv).journal =
      completedSteps name f.journal ++ if inv.name = name then [step] else [] := by
  simp only [complete, h, log, completedSteps_cons, Event.completedBy]
  split <;> simp_all

theorem steps_complete (f : Fiber) (now : Moment) (inv : Invocation) :
    (f.complete now inv).steps = f.steps + 1 := by
  unfold complete
  split <;> rfl

theorem crossings_complete (f : Fiber) (now : Moment) (inv : Invocation) :
    (f.complete now inv).crossings = f.crossings := by
  unfold complete
  split <;> rfl

/-- The outermost invocation is of the macro, the fiber has completed the steps of the passage,
and the macro, if it runs no other, has done all that was done. -/
structure Tallies (name : String) (routine : Routine) (p : Passage) (f : Fiber) : Prop where
  completed : completedSteps name f.journal = Passage.stepsAt routine p.trail
  steps : routine.Alone → f.steps = p.trail.length

structure Before (name : String) (routine : Routine) (p : Passage) (base : Invocation)
    (f : Fiber) : Prop extends Tallies name routine p f where
  stack : f.stack = [base]
  phase : f.phase = .ready
  runs : base.name = name ∧ base.routine = routine
  spot : p.spot = some (base.cursor, base.frames)
  crossings : routine.Alone → f.crossings = p.crossings

def Leaves (config : Config) (name : String) (routine : Routine) (p : Passage) (index : Nat)
    (frames : List Frame) (step : Step) (entering : Prop) : List Frame → Nat → Flow → Prop :=
  fun frames' n flow =>
    let t := step.transit config index frames
    frames' = t.frames ∧ (routine.Alone → n = p.crossings + t.crossed) ∧
      (flow = t.flow ∨ entering ∧ ∃ called r w,
        flow = .enter called r w ∧ step.command = .runMacro called ∧ called ≠ name)

/-- The next step of the passage is under way. Only before another macro ran for it may it be
`entering` one. -/
structure During (config : Config) (name : String) (routine : Routine) (p : Passage)
    (entering : Prop) (base : Invocation) (c : Course Flow) (f : Fiber) : Prop
    extends Tallies name routine p f where
  stack : f.stack = [base]
  phase : f.phase = .busy c
  runs : base.name = name ∧ base.routine = routine
  leads : ∃ frames step, p.spot = some (base.cursor, frames) ∧
    routine.get? base.cursor = some step ∧
    c.Ensures (Leaves config name routine p base.cursor frames step entering) base.frames
      f.crossings

structure Away (name : String) (routine : Routine) (p : Passage) (top : Invocation)
    (rest : List Invocation) (base : Invocation) (f : Fiber) : Prop
    extends Tallies name routine p f where
  stack : f.stack = top :: (rest ++ [base])
  going : f.result? = none
  runs : base.name = name ∧ base.routine = routine
  spot : p.spot = some (base.cursor, base.frames)
  calls : ∃ step, routine.get? base.cursor = some step ∧ ∃ called, step.command = .runMacro called
  others : ∀ inv ∈ top :: rest, inv.name ≠ name
  fresh : ∀ c, f.phase = .busy c →
    c.Ensures (fun _ _ flow => ∀ n r w, flow = .enter n r w → n ≠ name) top.frames f.crossings

structure Over (name : String) (routine : Routine) (p : Passage) (f : Fiber) : Prop
    extends Tallies name routine p f where
  phase : f.phase = .ended (.ok false)
  spot : p.spot = none
  crossings : routine.Alone → f.crossings = p.crossings

def Onward (name : String) (routine : Routine) (p : Passage) (f : Fiber) : Prop :=
  (∃ base, f.Before name routine p base) ∨ f.Over name routine p

theorem Tallies.moved {c c' : Course Flow} {inv : Invocation} {below : List Invocation}
    {s : Scene γ} (hf : f.Tallies name routine p)
    (h : c.step? engine.means now (f.scene inv game) = some (s, c')) :
    Tallies name routine p { f.withScene inv below s with phase := .busy c' } where
  completed := (Course.completedSteps_step? name h).trans hf.completed
  steps := hf.steps

theorem Tallies.entered {inv : Invocation} {below : List Invocation} {called : String}
    {r : Routine} {w : WaitSpan} (hf : f.Tallies name routine p) :
    Tallies name routine p (f.enter inv below called r w) where
  completed := hf.completed
  steps := hf.steps

theorem ne_of_not_sameName {a b : String} (h : ¬ sameName a b) : a ≠ b := by
  rintro rfl
  exact h (by simp [sameName])

/-- Another crossing of the end of the steps, or the end of the macro. -/
theorem Before.finished (hf : f.Before name routine p base) (config : Config)
    (client : Client γ) (now : Moment) (game : γ) (hget : routine.get? base.cursor = none) :
    Onward name routine (p.next config routine) (finishSteps client now game f base []).2 := by
  cases hcross : Frames.crossEnd base.frames with
  | none =>
    rw [Passage.next_end hf.spot hget hcross, finishSteps_none client hcross]
    exact .inr ⟨⟨hf.completed, hf.steps⟩, rfl, rfl, hf.crossings⟩
  | some crossing =>
    rw [Passage.next_crossEnd hf.spot hget hcross, finishSteps_some client hcross]
    have hmore : routine.Alone →
        ((f.scene base game).cross client now crossing).crossings = p.crossings + 1 := by
      intro halone
      rw [cross_crossings, ← hf.crossings halone]
      rfl
    have hdone := (completedSteps_cross name client now (f.scene base game) crossing).trans
      hf.completed
    by_cases hagain : crossing.again
    · simp only [hagain, if_true]
      exact .inl ⟨_, ⟨hdone, hf.steps⟩, rfl, rfl, hf.runs, rfl, hmore⟩
    · simp only [hagain]
      exact .inr ⟨⟨hdone, hf.steps⟩, rfl, rfl, hmore⟩

theorem Before.step (hf : f.Before name routine p base) (hg : f.Governed (· = .started))
    (h : SmallStep engine now game f (game', f')) :
    (∃ c, f'.During engine.rules.config name routine p True base c) ∨
      f'.Onward name routine (p.next engine.rules.config routine) := by
  generalize hr : (game', f') = r at h
  obtain ⟨hname, hroutine⟩ := hf.runs
  have hbase : ∀ {inv below}, f.stack = inv :: below → inv = base ∧ below = [] := by
    intro inv below hs
    rw [hf.stack] at hs
    cases hs
    exact ⟨rfl, rfl⟩
  cases h with
  | halted hs _ hstop => exact absurd hstop (state_ne_stopped hg hs)
  | finished hs _ _ hget =>
    obtain ⟨rfl, rfl⟩ := hbase hs
    have hdone := hf.finished engine.rules.config engine.client now game
      (hroutine ▸ hget)
    rw [← hr] at hdone
    exact .inr hdone
  | @begun inv below step hs _ _ hget =>
    obtain ⟨rfl, rfl⟩ := hbase hs
    cases hr
    have hchain : f.chain = [name] := by simp [chain, hf.stack, hname]
    refine .inl ⟨_, ⟨⟨hf.completed, hf.steps⟩, hf.stack, rfl, hf.runs,
      inv.frames, step, hf.spot, hroutine ▸ hget, ?_⟩⟩
    rw [hchain]
    refine Activity.ensures_mono ?_ _
      (Execution.ensures_step engine.rules [name] inv.cursor step (n := f.crossings))
    rintro frames n flow ⟨hframes, hn, hflow⟩
    refine ⟨hframes, fun halone => by rw [hn, hf.crossings halone], ?_⟩
    split at hflow
    · rename_i called hcalled
      obtain ⟨r, w, hflow, _, hother⟩ := hflow
      exact .inr ⟨trivial, called, r, w, hflow, hcalled,
        (ne_of_not_sameName (hother name (List.mem_singleton_self name))).symm⟩
    · exact .inl hflow
  | moved _ hp => rw [hf.phase] at hp; cases hp
  | concluded _ hp => rw [hf.phase] at hp; cases hp

theorem Tallies.concluded {config : Config} {step : Step} {frames : List Frame}
    (hf : f.Tallies name routine p)
    (hr : base.name = name ∧ base.routine = routine)
    (hspot : p.spot = some (base.cursor, frames)) (hget : routine.get? base.cursor = some step)
    (hframes : base.frames = (step.transit config base.cursor frames).frames)
    (hcross : routine.Alone →
      f.crossings = p.crossings + (step.transit config base.cursor frames).crossed)
    (engine : Engine γ) (now : Moment) (game : γ) :
    Onward name routine (p.next config routine) (conclude engine now game f base []
      (.value (step.transit config base.cursor frames).flow)).2 := by
  have hget' : base.routine.get? base.cursor = some step := by rw [hr.2, hget]
  have hdone : completedSteps name (f.complete now base).journal =
      Passage.stepsAt routine (p.trail ++ [base.cursor]) := by
    rw [completedSteps_complete f now hget', if_pos hr.1, hf.completed, Passage.stepsAt_append]
    simp [Passage.stepsAt, hget]
  have hsteps : routine.Alone →
      (f.complete now base).steps = (p.trail ++ [base.cursor]).length := by
    intro halone
    rw [steps_complete, hf.steps halone, List.length_append, List.length_singleton]
  have hc : routine.Alone → (f.complete now base).crossings =
      p.crossings + (step.transit config base.cursor frames).crossed := by
    rwa [crossings_complete]
  rw [Passage.next_step hspot hget]
  cases hflow : (step.transit config base.cursor frames).flow with
  | next => exact .inl ⟨_, ⟨hdone, hsteps⟩, rfl, rfl, hr, by simp [Passage.target, hframes], hc⟩
  | jump t => exact .inl ⟨_, ⟨hdone, hsteps⟩, rfl, rfl, hr, by simp [Passage.target, hframes], hc⟩
  | finish => exact .inr ⟨⟨hdone, hsteps⟩, rfl, rfl, hc⟩
  | enter => exact absurd hflow (Step.transit_ne_enter _ _ _ _ _ _ _)

theorem During.step {config : Config} {entering : Prop} {c : Course Flow}
    (hf : f.During config name routine p entering base c) (hg : f.Governed (· = .started))
    (hu : ∀ site error, f.phase ≠ .busy (.doing (.fail site error)))
    (h : SmallStep engine now game f (game', f')) :
    (c.end? = none ∧ ∃ base c, f'.During config name routine p entering base c) ∨
      f'.Onward name routine (p.next config routine) ∨
      entering ∧ ∃ top rest base, f'.Away name routine p top rest base := by
  generalize hr : (game', f') = r at h
  obtain ⟨frames, step, hspot, hget, hc⟩ := hf.leads
  have hbusy : ∀ {inv below course}, f.stack = inv :: below → f.phase = .busy course →
      inv = base ∧ below = [] ∧ course = c := by
    intro inv below course hs hp
    rw [hf.stack] at hs
    rw [hf.phase] at hp
    cases hs
    cases hp
    exact ⟨rfl, rfl, rfl⟩
  cases h with
  | halted _ hp | finished _ hp | begun _ hp => rw [hf.phase] at hp; cases hp
  | @moved inv below course s c' hs hp hstep =>
    obtain ⟨rfl, rfl, rfl⟩ := hbusy hs hp
    cases hr
    have hstate := state_ne_stopped hg hs
    refine .inl ⟨Course.end?_of_step? hstep, { inv with frames := s.frames }, c',
      ⟨hf.moved hstep, rfl, rfl, hf.runs, frames, step, hspot, hget, ?_⟩⟩
    exact Course.ensures_step? hstate hc hstep
  | @concluded inv below course ending hs hp hend =>
    obtain ⟨rfl, rfl, rfl⟩ := hbusy hs hp
    rcases Course.ensures_end hc hend with ⟨flow, rfl, hframes, hcross, hflow⟩ | ⟨_, _, _, hfail⟩
    · rcases hflow with rfl | ⟨hentering, called, r, w, rfl, hcalled, hne⟩
      · have hon := hf.concluded hf.runs hspot hget hframes hcross engine now game
        rw [← hr] at hon
        exact .inr (.inl hon)
      · cases hr
        refine .inr (.inr ⟨hentering, _, [], { inv with resumeWait := some w },
          hf.toTallies.entered, rfl, rfl, hf.runs, ?_, ⟨step, hget, called, hcalled⟩, ?_, ?_⟩)
        · rw [hspot, hframes, Step.transit_runMacro hcalled]
        · intro other hm
          rw [List.mem_singleton.mp hm]
          exact hne
        · intro c hp
          cases hp
    · exact absurd (hfail ▸ hf.phase) (hu _ _)

theorem left_along (hf : f.Tallies name routine p) (config : Config) {top : Invocation}
    {rest : List Invocation} (hr : base.name = name ∧ base.routine = routine)
    (hspot : p.spot = some (base.cursor, base.frames))
    (hcalls : ∃ step, routine.get? base.cursor = some step ∧
      ∃ called, step.command = .runMacro called)
    (hothers : ∀ inv ∈ rest, inv.name ≠ name) (stopped : Bool) :
    (∃ top' rest' base',
        (f.leave top (rest ++ [base]) stopped).Away name routine p top' rest' base') ∨
      ∃ base' c,
        (f.leave top (rest ++ [base]) stopped).During config name routine p False base' c := by
  obtain ⟨step, hget, called, hcalled⟩ := hcalls
  cases rest with
  | nil =>
    refine .inr ⟨{ base with resumeWait := none }, _, ⟨⟨hf.completed, hf.steps⟩, rfl, rfl, hr,
      base.frames, step, hspot, hget, ?_⟩⟩
    refine ⟨?_, fun halone => ?_, .inl ?_⟩
    · rw [Step.transit_runMacro hcalled]
    · exact absurd hcalled (halone step (List.mem_of_getElem? hget) called)
    · rw [Step.transit_runMacro hcalled]
  | cons parent rest =>
    refine .inl ⟨{ parent with resumeWait := none }, rest, base, ⟨hf.completed, hf.steps⟩, rfl, rfl,
      hr, hspot, ⟨step, hget, called, hcalled⟩, ?_, ?_⟩
    · intro inv hm
      rcases List.mem_cons.mp hm with rfl | hm
      · exact hothers parent List.mem_cons_self
      · exact hothers inv (List.mem_cons_of_mem _ hm)
    · intro c hp
      cases hp
      rintro n r w hflow
      cases hflow

theorem Tallies.finished (hf : f.Tallies name routine p) (client : Client γ) (now : Moment)
    (game : γ) (inv : Invocation) (below : List Invocation) :
    ∃ g frames, Tallies name routine p g ∧
      ((finishSteps client now game f inv below).2 =
          { g with stack := { inv with frames := frames, cursor := 0 } :: below, phase := .ready } ∨
        (finishSteps client now game f inv below).2 =
          g.leave { inv with frames := frames } below false) := by
  cases hcross : Frames.crossEnd inv.frames with
  | none => exact ⟨f, inv.frames, hf, .inr (by rw [finishSteps_none client hcross])⟩
  | some crossing =>
    refine ⟨f.withScene inv below ((f.scene inv game).cross client now crossing), crossing.frames,
      ⟨(completedSteps_cross _ _ _ _ _).trans hf.completed, hf.steps⟩, ?_⟩
    rw [finishSteps_some client hcross]
    by_cases hagain : crossing.again
    · exact .inl (by simp only [hagain, if_true])
    · exact .inr (by simp only [hagain]; rfl)

/-- A step of an invocation of another name counts for nothing. -/
theorem Away.complete {top : Invocation} {rest : List Invocation}
    (hf : f.Away name routine p top rest base) (now : Moment) :
    Tallies name routine p (f.complete now top) where
  completed := by
    cases hget : top.routine.get? top.cursor with
    | none =>
      simp only [Fiber.complete, hget]
      exact hf.completed
    | some step =>
      rw [completedSteps_complete f now hget, if_neg (hf.others top List.mem_cons_self),
        List.append_nil]
      exact hf.completed
  steps := by
    obtain ⟨step, hget, called, hcalled⟩ := hf.calls
    exact fun halone => absurd hcalled (halone step (List.mem_of_getElem? hget) called)

theorem Away.replaced {top top' : Invocation} {rest : List Invocation} {g : Fiber}
    (hf : f.Away name routine p top rest base) (hg : Tallies name routine p g)
    (hstack : g.stack = top' :: (rest ++ [base])) (hgoing : g.result? = none)
    (hname : top'.name = top.name)
    (hfresh : ∀ c, g.phase = .busy c → c.Ensures
      (fun _ _ flow => ∀ n r w, flow = .enter n r w → n ≠ name) top'.frames g.crossings) :
    g.Away name routine p top' rest base := by
  refine ⟨hg, hstack, hgoing, hf.runs, hf.spot, hf.calls, ?_, hfresh⟩
  intro inv hm
  rcases List.mem_cons.mp hm with rfl | hm
  · rw [hname]
    exact hf.others top List.mem_cons_self
  · exact hf.others inv (List.mem_cons_of_mem _ hm)

theorem Away.entered {top : Invocation} {rest : List Invocation} {called : String} {r : Routine}
    {w : WaitSpan} (hf : f.Away name routine p top rest base) (hne : called ≠ name) :
    (f.enter top (rest ++ [base]) called r w).Away name routine p
      (.begin called r f.controls.nextHandle) ({ top with resumeWait := some w } :: rest) base := by
  refine ⟨hf.toTallies.entered, rfl, rfl, hf.runs, hf.spot, hf.calls, ?_, fun _ hp => by cases hp⟩
  intro other hm
  rcases List.mem_cons.mp hm with rfl | hm
  · exact hne
  · rcases List.mem_cons.mp hm with rfl | hm
    · exact hf.others top List.mem_cons_self
    · exact hf.others other (List.mem_cons_of_mem _ hm)

/-- The macro is under way, so no step enters it again. -/
theorem Away.begun {top : Invocation} {rest : List Invocation} {rules : Rules}
    (hf : f.Away name routine p top rest base) (step : Step) :
    (Execution.step rules f.chain top.cursor top.frames step).Ensures
      (fun _ _ flow => ∀ n r w, flow = .enter n r w → n ≠ name) top.frames f.crossings := by
  refine Activity.ensures_mono ?_ _ (Execution.ensures_step rules f.chain top.cursor step)
  rintro frames n flow ⟨_, _, hflow⟩ called r w rfl
  have hunder : name ∈ f.chain := by simp [chain, hf.stack, hf.runs.1]
  split at hflow
  · obtain ⟨_, _, hcalled, _, hother⟩ := hflow
    cases hcalled
    exact (ne_of_not_sameName (hother name hunder)).symm
  · exact absurd hflow.symm (Step.transit_ne_enter _ _ _ _ _ _ _)

/-- What happens above the outermost invocation leaves it alone until that is over. -/
theorem Away.step {top : Invocation} {rest : List Invocation}
    (hf : f.Away name routine p top rest base) (hg : f.Governed (· = .started))
    (hu : ∀ site error, f.phase ≠ .busy (.doing (.fail site error)))
    (h : SmallStep engine now game f (game', f')) :
    (∃ top rest base, f'.Away name routine p top rest base) ∨
      ∃ base c, f'.During engine.rules.config name routine p False base c := by
  generalize hr : (game', f') = r at h
  have htop : ∀ {inv below}, f.stack = inv :: below → inv = top ∧ below = rest ++ [base] := by
    intro inv below hs
    rw [hf.stack] at hs
    cases hs
    exact ⟨rfl, rfl⟩
  have hrest : ∀ inv ∈ rest, inv.name ≠ name :=
    fun inv hm => hf.others inv (List.mem_cons_of_mem _ hm)
  cases h with
  | halted hs _ hstop => exact absurd hstop (state_ne_stopped hg hs)
  | @finished inv below hs hp =>
    obtain ⟨rfl, rfl⟩ := htop hs
    obtain ⟨g, frames, htallies, hdone | hdone⟩ :=
      hf.finished engine.client now game inv (rest ++ [base])
    · rw [← hr] at hdone
      cases hdone
      exact .inl ⟨_, rest, base, hf.replaced ⟨htallies.completed, htallies.steps⟩ rfl rfl rfl
        (fun _ hp => by cases hp)⟩
    · rw [← hr] at hdone
      cases hdone
      exact left_along htallies _ hf.runs hf.spot hf.calls hrest false
  | @begun inv below step hs =>
    obtain ⟨rfl, rfl⟩ := htop hs
    cases hr
    refine .inl ⟨inv, rest, base, hf.replaced ⟨hf.completed, hf.steps⟩ hf.stack rfl rfl ?_⟩
    intro c hp
    cases hp
    exact hf.begun step
  | @moved inv below course s c' hs hp hstep =>
    obtain ⟨rfl, rfl⟩ := htop hs
    cases hr
    refine .inl ⟨_, rest, base, hf.replaced (hf.moved hstep) rfl rfl rfl ?_⟩
    intro c hc
    cases hc
    exact Course.ensures_step? (state_ne_stopped hg hs) (hf.fresh _ hp) hstep
  | @concluded inv below course ending hs hp hend =>
    obtain ⟨rfl, rfl⟩ := htop hs
    have htallies := hf.complete now
    rcases Course.ensures_end (hf.fresh _ hp) hend with ⟨flow, rfl, hflow⟩ | ⟨_, _, _, hfail⟩
    · cases flow with
      | next | jump =>
        cases hr
        exact .inl ⟨_, rest, base, hf.replaced ⟨htallies.completed, htallies.steps⟩ rfl rfl rfl
          (fun _ hp => by cases hp)⟩
      | finish =>
        cases hr
        exact left_along htallies _ hf.runs hf.spot hf.calls hrest false
      | enter called r w =>
        cases hr
        exact .inl ⟨_, _, base, hf.entered (hflow called r w rfl)⟩
    · exact absurd (hfail ▸ hp) (hu _ _)

end Fiber
end MacroEngine
