import MacroEngine.Proofs.Bystanders

/-! One invocation is to complete a single step. It stands before that step, is in it, was paused
by it, or waits for the macro that the step has entered; each small step of the fiber leads from one
of these to another, or the errand is over. -/
namespace MacroEngine

/-- An invocation that is to complete a single step, the stack below it, and the steps that were
completed under its name before. -/
structure Errand where
  inv : Invocation
  below : List Invocation
  done : List Step

namespace Errand

/-- The step to come. At the end of the steps it is the first one, to which a loop there leads
back. -/
def Next (e : Errand) (index : Nat) (step : Step) : Prop :=
  e.inv.routine.get? index = some step ∧
    (index = e.inv.cursor ∨ e.inv.routine.get? e.inv.cursor = none ∧ index = 0)

structure Holds (e : Errand) (top : Invocation) : Prop where
  name : top.name = e.inv.name
  routine : top.routine = e.inv.routine
  control : top.control = e.inv.control
  cursor : top.cursor = e.inv.cursor ∨ e.inv.routine.get? e.inv.cursor = none ∧ top.cursor = 0

structure Open (e : Errand) (f : Fiber) : Prop where
  lifecycle : f.controls.lifecycle e.inv.control = ⟨.running, true⟩
  completed : completedSteps e.inv.name f.journal = e.done

structure Before (e : Errand) (top : Invocation) (f : Fiber) : Prop extends e.Open f where
  holds : e.Holds top
  stack : f.stack = top :: e.below
  phase : f.phase = .ready

/-- In the step. If that runs another macro, it can only enter it, unless `met`: that it did, or
that it was under way already when the errand began. -/
structure During (e : Errand) (met : Prop) (top : Invocation) (c : Course Flow) (f : Fiber) : Prop
    extends e.Open f where
  holds : e.Holds top
  stack : f.stack = top :: e.below
  phase : f.phase = .busy c
  uncut : c ≠ .interrupted
  calls : ∀ step name, top.routine.get? top.cursor = some step → step.command = .runMacro name →
    met ∨ c.Always (fun _ => True) Activity.Enters

/-- The step was a check that has paused the invocation, and is about to be complete. -/
structure Held (e : Errand) (top : Invocation) (step : Step) (f : Fiber) : Prop where
  holds : e.Holds top
  stack : f.stack = top :: e.below
  phase : f.phase = .busy (.doing (.done .next))
  get : top.routine.get? top.cursor = some step
  plain : ¬ step.command.Steers
  lifecycle : f.controls.lifecycle e.inv.control = ⟨.pausedNow, false⟩
  completed : completedSteps e.inv.name f.journal = e.done

/-- The step has entered another macro. All that was entered runs freely. -/
structure Away (e : Errand) (above : List Invocation) (top : Invocation) (f : Fiber) : Prop
    extends e.Open f where
  holds : e.Holds top
  stack : f.stack = above ++ top :: e.below
  entered : above ≠ []
  others : ∀ inv ∈ above, f.controls.lifecycle inv.control = .started

inductive Place (e : Errand) (met : Prop) (f : Fiber) : Prop where
  | before {top} : e.Before top f → Place e met f
  | during {top c} : e.During met top c f → Place e met f
  | held {top step} : e.Held top step f → Place e met f
  | away {above top} : e.Away above top f → Place e met f

inductive Over (e : Errand) (met : Prop) (f : Fiber) : Prop where
  /-- The step is complete, and the invocation is paused again. -/
  | paused {top index step} : top.name = e.inv.name → top.routine = e.inv.routine →
      top.control = e.inv.control → f.stack = top :: e.below → f.phase = .ready →
      f.controls.lifecycle e.inv.control = ⟨.pausedNow, false⟩ → e.Next index step →
      (∀ name, step.command = .runMacro name → met) →
      completedSteps e.inv.name f.journal = e.done ++ [step] → Over e met f
  /-- The step was a gate, or a loop on the first step without passes, and ended the invocation. -/
  | cut {index step} : e.inv.control ∉ f.handles → e.Next index step → step.Cuts index →
      completedSteps e.inv.name f.journal = e.done ++ [step] → Over e met f
  /-- There was no step left. -/
  | ran : e.inv.control ∉ f.handles → e.inv.routine.get? e.inv.cursor = none →
      completedSteps e.inv.name f.journal = e.done → Over e met f
  /-- All of the stack has ended with an error. -/
  | failed {error} : f.phase = .ended (.error error) → Over e met f

variable {e : Errand} {met met' : Prop} {engine : Engine γ} {now : Moment} {game : γ}
  {f g : Fiber} {r : γ × Fiber} {top inv : Invocation} {above : List Invocation} {c : Course Flow}
  {library : Library} {name : String} {step : Step}

theorem Place.mono (h : met → met') (hp : e.Place met f) : e.Place met' f := by
  cases hp with
  | before hb => exact .before hb
  | during hd =>
    exact .during { hd with calls := fun step name hget hc => (hd.calls step name hget hc).imp_left h }
  | held hh => exact .held hh
  | away ha => exact .away ha

theorem Over.mono (h : met → met') (ho : e.Over met f) : e.Over met' f := by
  cases ho with
  | paused hn hr hc hs hp hl hnext hmet hdone =>
    exact .paused hn hr hc hs hp hl hnext (fun name hrun => h (hmet name hrun)) hdone
  | cut hm hnext hcuts hdone => exact .cut hm hnext hcuts hdone
  | ran hm hget hdone => exact .ran hm hget hdone
  | failed hp => exact .failed hp

theorem Holds.next (h : e.Holds top) (hget : top.routine.get? top.cursor = some step) :
    e.Next top.cursor step := by
  rw [h.routine] at hget
  exact ⟨hget, h.cursor⟩

theorem Holds.ended (h : e.Holds top) (hget : top.routine.get? top.cursor = none) :
    e.inv.routine.get? e.inv.cursor = none := by
  rcases h.cursor with hc | ⟨hnone, _⟩
  · rwa [h.routine, hc] at hget
  · exact hnone

theorem Holds.live (h : e.Holds top) (hg : f.Governed Lifecycle.Awake)
    (hs : f.stack = top :: e.below) : f.controls.Live e.inv.control :=
  h.control ▸ hg.live _ (Fiber.mem_handles hs)

theorem Holds.not_mem_leave (h : e.Holds top) (hg : f.Governed Lifecycle.Awake)
    (hs : f.handles = top.control :: e.below.map Invocation.control) (stopped : Bool) :
    e.inv.control ∉ (f.leave top e.below stopped).handles :=
  h.control ▸ Fiber.not_mem_leave hg hs stopped

theorem Holds.completed (h : e.Holds top) (hget : top.routine.get? top.cursor = some step)
    (hdone : completedSteps e.inv.name f.journal = e.done) (now : Moment) :
    completedSteps e.inv.name (f.complete now top).journal = e.done ++ [step] := by
  rw [Fiber.completedSteps_complete f now hget, if_pos h.name, hdone]

theorem over_advance (h : e.Holds top) (hlive : f.controls.Live e.inv.control)
    (hget : top.routine.get? top.cursor = some step)
    (hl : (f.controls.lifecycle e.inv.control).afterStep = ⟨.pausedNow, false⟩)
    (hmet : ∀ name, step.command = .runMacro name → met)
    (hdone : completedSteps e.inv.name f.journal = e.done) (now : Moment) (target : Nat) :
    e.Over met (f.advance now top e.below target) := by
  have hpaused : (f.advance now top e.below target).controls.lifecycle e.inv.control =
      ⟨.pausedNow, false⟩ := by
    change (f.controls.set top.control _).lifecycle e.inv.control = _
    rw [h.control, Controls.lifecycle_set_self hlive]
    exact hl
  have hname : ({ top with cursor := target } : Invocation).name = e.inv.name := h.name
  exact .paused hname h.routine h.control rfl rfl hpaused (h.next hget) hmet
    (h.completed hget hdone now)

/-- At the end of the steps a loop leads back to the first one, or the invocation is over. -/
theorem Before.ends (hf : f.Proper library name) (h : e.Before top f)
    (hget : top.routine.get? top.cursor = none) (client : Client γ) (now : Moment) (game : γ) :
    let g := (Fiber.finishSteps client now game f top e.below).2
    (∃ top, e.Before top g ∧ (top.routine.get? top.cursor).isSome) ∨ e.Over met g := by
  have hg := hf.grounded.governed
  have hlive := h.holds.live hg h.stack
  have hended := h.holds.ended hget
  have hhandles : f.handles = top.control :: e.below.map Invocation.control := by
    simp [Fiber.handles, h.stack]
  refine Fiber.finishSteps_cases (P := fun f => (∃ top, e.Before top f ∧
    (top.routine.get? top.cursor).isSome) ∨ e.Over met f) client (fun _ => ?_) fun crossing hcross => ?_
  · refine .inr (.ran (h.holds.not_mem_leave hg hhandles false) hended ?_)
    rw [Fiber.journal_leave]
    exact h.completed
  · have hcontrol : ((f.scene top game).cross client now crossing).control = ⟨.running, true⟩ := by
      rw [Fiber.cross_control]
      change (f.controls.lifecycle top.control).apply .loopBoundary = _
      rw [h.holds.control, h.lifecycle]
      rfl
    have hdone := (completedSteps_cross e.inv.name client now (f.scene top game) crossing).trans
      h.completed
    refine ⟨fun _ => ?_, fun _ => ?_⟩
    · have hsteps := hf.rooted top (by rw [h.stack]; exact .head _)
        (Frames.ne_nil_of_crossEnd hcross)
      have hlen : 0 < top.routine.steps.length := List.length_pos_of_ne_nil hsteps
      refine .inl ⟨{ top with frames := crossing.frames, cursor := 0 },
        ⟨⟨?_, hdone⟩, ⟨h.holds.name, h.holds.routine, h.holds.control, .inr ⟨hended, rfl⟩⟩, rfl,
          rfl⟩, Option.isSome_iff_exists.mpr ⟨_, List.getElem?_eq_getElem hlen⟩⟩
      change (f.controls.set top.control _).lifecycle e.inv.control = _
      rw [h.holds.control, Controls.lifecycle_set_self hlive, hcontrol]
    · have hscene := Fiber.governed_withScene (s := (f.scene top game).cross client now crossing)
        hg h.stack (by rw [hcontrol]; decide)
      refine .inr (.ran (h.holds.not_mem_leave hscene rfl false) hended ?_)
      rw [Fiber.journal_leave]
      exact hdone

/-- The next step begins, a loop leads back to the first step, or there is no step left. -/
theorem before_step (hf : f.Proper library name) (h : e.Before top f)
    (hstep : Fiber.SmallStep engine now game f r) :
    (∃ c, e.During met top c r.2) ∨
    (∃ top, e.Before top r.2 ∧ (top.routine.get? top.cursor).isSome) ∨ e.Over met r.2 := by
  cases hstep with
  | halted hs _ hstopped =>
    cases h.stack.symm.trans hs
    rw [Controls.state, h.holds.control, h.lifecycle] at hstopped
    cases hstopped
  | begun hs _ _ hget =>
    cases h.stack.symm.trans hs
    refine .inl ⟨_, ⟨h.lifecycle, h.completed⟩, h.holds, h.stack, rfl, by simp, ?_⟩
    intro step' name hget' hc
    cases hget.symm.trans hget'
    exact .inr (Execution.enters_step _ _ _ _ hc)
  | finished hs _ _ hget =>
    cases h.stack.symm.trans hs
    exact .inr (h.ends hf hget engine.client now game)
  | moved hs hp => rw [h.phase] at hp; cases hp
  | concluded hs hp => rw [h.phase] at hp; cases hp

/-- A small step of the course, in which a check may pause the invocation. -/
theorem during_moves (hf : f.Proper library name) (h : e.During met top c f) {s : Scene γ}
    {c' : Course Flow} (hc : c.step? engine.means now (f.scene top game) = some (s, c')) :
    let g := { f.withScene top e.below s with phase := .busy c' }
    (∃ top', e.During met top' c' g) ∨ ∃ top' step, e.Held top' step g := by
  intro g
  have hg := hf.grounded.governed
  have hlive := h.holds.live hg h.stack
  have hrunning : (f.scene top game).control = ⟨.running, true⟩ := by
    change f.controls.lifecycle top.control = _
    rw [h.holds.control, h.lifecycle]
  have hset : g.controls.lifecycle e.inv.control = s.control := by
    change (f.controls.set top.control s.control).lifecycle e.inv.control = _
    rw [h.holds.control, Controls.lifecycle_set_self hlive]
  have hdone : completedSteps e.inv.name g.journal = e.done :=
    (Course.completedSteps_step? e.inv.name hc).trans h.completed
  have hholds : e.Holds { top with frames := s.frames } :=
    ⟨h.holds.name, h.holds.routine, h.holds.control, h.holds.cursor⟩
  by_cases hheld : ∃ reason next, c = .doing (.mark (.held reason) next)
  · obtain ⟨reason, next, rfl⟩ := hheld
    obtain ⟨step, hget, habides⟩ := hf.abides.top top e.below _ h.stack h.phase
    obtain ⟨rfl, hplain⟩ := habides.1
    cases hc
    refine .inr ⟨_, step, hholds, rfl, rfl, hget, hplain, ?_, hdone⟩
    rw [hset]
    change (f.scene top game).control.apply .pause = _
    rw [hrunning]
    rfl
  · have hcontrol := Course.running_step? (by rw [hrunning]) (fun reason next he =>
      hheld ⟨reason, next, he⟩) hc
    refine .inl ⟨{ top with frames := s.frames }, ⟨?_, hdone⟩, hholds, rfl, rfl, ?_, ?_⟩
    · rw [hset, hcontrol, hrunning]
    · rintro rfl
      have hstopped := (Course.interrupted_step? hc).1
      rw [hrunning] at hstopped
      cases hstopped
    · intro step name hget hcommand
      exact (h.calls step name hget hcommand).imp_right
        fun henters => Course.always_step? (fun _ _ => trivial) henters hc

/-- If the step runs another macro, that has been met by now, unless the step enters it. -/
theorem During.was_met {ending : Course.End Flow} (h : e.During met top c f)
    (hget : top.routine.get? top.cursor = some step) (hend : c.end? = some ending)
    (hpasses : match ending with
      | .value flow => ∀ name routine wait, flow ≠ .enter name routine wait
      | .failure _ error => error.isSoft = true
      | .interrupted => False) (hrun : step.command = .runMacro name) : met := by
  refine (h.calls step name hget hrun).resolve_right fun henters => ?_
  rw [Course.eq_of_end? hend] at henters
  match ending with
  | .value flow =>
    obtain ⟨name, routine, wait, he⟩ := henters.1
    exact hpasses name routine wait he
  | .failure site error =>
    have hhard : error.isSoft = false := henters.1
    simp [hhard] at hpasses
  | .interrupted => exact hpasses

theorem During.entered (hg : f.Governed Lifecycle.Awake) (h : e.During met top c f)
    (called : String) (routine : Routine) (wait : WaitSpan) :
    e.Away [.begin called routine f.controls.nextHandle] { top with resumeWait := some wait }
      (f.enter top e.below called routine wait) := by
  have hgiven := hg.given _ (Fiber.mem_handles h.stack)
  rw [h.holds.control] at hgiven
  refine ⟨⟨(Controls.lifecycle_enter_of_ne (Nat.ne_of_lt hgiven)).trans h.lifecycle, h.completed⟩,
    ⟨h.holds.name, h.holds.routine, h.holds.control, h.holds.cursor⟩, rfl, List.cons_ne_nil _ _, ?_⟩
  intro inv hm
  rw [List.mem_singleton.mp hm]
  exact Controls.lifecycle_enter_self

/-- The end of the step, also with an error that a policy passes over. -/
theorem during_concludes {ending : Course.End Flow} (hf : f.Proper library name)
    (h : e.During met top c f) (hend : c.end? = some ending) (engine : Engine γ) (now : Moment)
    (game : γ) :
    (∃ above top', e.Away above top' (Fiber.conclude engine now game f top e.below ending).2) ∨
      e.Over met (Fiber.conclude engine now game f top e.below ending).2 := by
  have hg := hf.grounded.governed
  have hlive := h.holds.live hg h.stack
  obtain ⟨step, hget, habides⟩ := hf.abides.top top e.below c h.stack h.phase
  have hafter : (f.controls.lifecycle e.inv.control).afterStep = ⟨.pausedNow, false⟩ := by
    rw [h.lifecycle]
    rfl
  match ending with
  | .value .next | .value (.jump _) =>
    exact .inr (over_advance h.holds hlive hget hafter
      (fun name hrun => h.was_met hget hend (by simp) hrun) h.completed now _)
  | .value (.enter called routine wait) =>
    exact .inl ⟨_, _, h.entered hg called routine wait⟩
  | .value .finish =>
    rw [Course.eq_of_end? hend] at habides
    have hcuts : step.Cuts top.cursor := habides.1 rfl
    have hcomplete : (f.complete now top).Governed Lifecycle.Awake := by
      simpa only [Fiber.Governed, Fiber.handles, Fiber.complete_stack, Fiber.complete_controls]
        using hg
    refine .inr (.cut (h.holds.not_mem_leave hcomplete ?_ false) (h.holds.next hget) hcuts ?_)
    · simp [Fiber.handles, Fiber.complete_stack, h.stack]
    · change completedSteps _ ((f.complete now top).leave top e.below false).journal = _
      rw [Fiber.journal_leave]
      exact h.holds.completed hget h.completed now
  | .failure site error =>
    refine .inr (Fiber.handleFailure_cases engine.client engine.rules.config
      (fun hsoft => ⟨?_, .failed rfl⟩) (.failed rfl))
    refine over_advance h.holds (Controls.live_set.mpr hlive) hget ?_
      (fun name hrun => h.was_met hget hend hsoft hrun) ?_ now _
    · change ((f.controls.set top.control _).lifecycle e.inv.control).afterStep = _
      rw [h.holds.control, Controls.lifecycle_set_self hlive]
      change (f.controls.lifecycle top.control).afterStep = _
      rw [h.holds.control]
      exact hafter
    · change completedSteps _ ((now, .notified _) :: f.journal) = _
      rw [completedSteps_cons]
      simpa [Event.completedBy] using h.completed
  | .interrupted => exact absurd (Course.eq_of_end? hend) h.uncut

theorem held_step (hf : f.Proper library name) (h : e.Held top step f)
    (hstep : Fiber.SmallStep engine now game f r) : e.Over met r.2 := by
  cases hstep with
  | halted _ hp | finished _ hp | begun _ hp => rw [h.phase] at hp; cases hp
  | moved _ hp hc =>
    rw [h.phase] at hp
    cases hp
    cases hc
  | concluded hs hp hend =>
    rw [h.phase] at hp
    cases hp
    cases hend
    cases h.stack.symm.trans hs
    refine over_advance h.holds (h.holds.live hf.grounded.governed h.stack) h.get ?_
      (fun name hrun => absurd (hrun ▸ trivial) h.plain) h.completed now _
    rw [h.lifecycle]
    rfl

variable {rest : List Invocation}

/-- The macro that is over leaves the one below it in the wait that is left of its step. -/
theorem away_left (h : e.Away (inv :: rest) top f) {g : Fiber} (hopen : e.Open g)
    (hkept : ∀ other ∈ rest, g.controls.lifecycle other.control = .started)
    (hstack : ∀ parent below, rest ++ top :: e.below = parent :: below →
      g.stack = { parent with resumeWait := none } :: below ∧
        ∃ span, g.phase = .busy (.doing (.pause span (.done .next)))) :
    (∃ above top, e.Away above top g) ∨ ∃ top c, e.During True top c g ∧ c.Resumes := by
  have hholds : e.Holds { top with resumeWait := none } :=
    ⟨h.holds.name, h.holds.routine, h.holds.control, h.holds.cursor⟩
  cases rest with
  | nil =>
    obtain ⟨hs, span, hp⟩ := hstack top e.below rfl
    exact .inr ⟨_, _, ⟨hopen, hholds, hs, hp, by simp, fun _ _ _ _ => .inl trivial⟩, rfl⟩
  | cons parent rest =>
    obtain ⟨hs, _⟩ := hstack parent (rest ++ top :: e.below) rfl
    obtain ⟨hparent, hrest⟩ := List.forall_mem_cons.mp hkept
    exact .inl ⟨{ parent with resumeWait := none } :: rest, top, hopen, h.holds, hs,
      List.cons_ne_nil _ _, List.forall_mem_cons.mpr ⟨hparent, hrest⟩⟩

/-- Names on the stack are distinct, so what is entered does not count for the errand. -/
theorem Away.name_ne (h : e.Away (inv :: rest) top f) (hf : f.Nested library) :
    inv.name ≠ e.inv.name := by
  intro hsame
  have hdistinct := hf.called.distinct
  rw [h.stack, List.cons_append, List.map_cons] at hdistinct
  refine (List.nodup_cons.mp hdistinct).1 (List.mem_map.mpr ⟨top, by simp, ?_⟩)
  rw [Invocation.key, Invocation.key, h.holds.name, hsame]

theorem away_step (hf : f.Proper library name) (hu : ¬ f.Trips) (h : e.Away above top f)
    (hstep : Fiber.SmallStep engine now game f r) :
    (∃ above top, e.Away above top r.2) ∨
    (∃ top c, e.During True top c r.2 ∧ c.Resumes) ∨ e.Over met r.2 := by
  obtain ⟨inv, rest, rfl⟩ := List.exists_cons_of_ne_nil h.entered
  have hg := hf.grounded.governed
  have hs : f.stack = inv :: (rest ++ top :: e.below) := h.stack
  obtain ⟨hstarted, hothers⟩ := List.forall_mem_cons.mp h.others
  by_cases hfailed : ∃ error, r.2.phase = .ended (.error error)
  · obtain ⟨error, hp⟩ := hfailed
    exact .inr (.inr (.failed hp))
  have hsame : ∀ other ∈ rest ++ top :: e.below,
      r.2.controls.lifecycle other.control = f.controls.lifecycle other.control := by
    intro other hm
    obtain ⟨hne, hgiven⟩ := Fiber.below_given hg hs hm
    exact (Fiber.others_step hs hne hgiven hstep).resolve_right hfailed
  have hown : r.2.controls.lifecycle e.inv.control = f.controls.lifecycle e.inv.control :=
    h.holds.control ▸ hsame top (by simp)
  have hkept : ∀ other ∈ rest, r.2.controls.lifecycle other.control = .started :=
    fun other hm => (hsame other (List.mem_append_left _ hm)).trans (hothers other hm)
  have hdone := (Fiber.completedSteps_step hs (h.name_ne hf.nested) hstep).trans h.completed
  have hopen : e.Open r.2 := ⟨hown.trans h.lifecycle, hdone⟩
  cases Fiber.shift_of_step hstep with
  | stays cursor frames hs' hstack =>
    cases hs.symm.trans hs'
    have htop := Fiber.started_step hg hs hstarted hu hstep (by rw [hstack]; rfl)
    exact .inl ⟨{ inv with cursor := cursor, frames := frames } :: rest, top, hopen, h.holds,
      hstack, List.cons_ne_nil _ _, List.forall_mem_cons.mpr ⟨htop, hkept⟩⟩
  | @enters _ _ _ called routine wait hs' _ _ he =>
    cases hs.symm.trans hs'
    have hchild : r.2.controls.lifecycle f.controls.nextHandle = .started := by
      rw [he]
      exact Controls.lifecycle_enter_self
    have hparent : r.2.controls.lifecycle inv.control = .started := by
      rw [he]
      have hgiven := hg.given _ (Fiber.mem_handles hs)
      exact (Controls.lifecycle_enter_of_ne (Nat.ne_of_lt hgiven)).trans hstarted
    exact .inl ⟨.begin called routine f.controls.nextHandle ::
      { inv with resumeWait := some wait } :: rest, top, hopen, h.holds, by rw [he]; rfl,
      List.cons_ne_nil _ _,
      List.forall_mem_cons.mpr ⟨hchild, List.forall_mem_cons.mpr ⟨hparent, hkept⟩⟩⟩
  | leaves hs' _ he =>
    cases hs.symm.trans hs'
    refine (away_left h hopen hkept fun parent below hbelow => ?_).imp_right .inl
    rw [he, hbelow]
    exact ⟨rfl, _, rfl⟩
  | aborts _ _ he =>
    rw [he]
    exact .inr (.inr (.failed rfl))

end Errand
end MacroEngine
