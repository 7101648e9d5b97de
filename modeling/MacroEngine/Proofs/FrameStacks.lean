import MacroEngine.Proofs.Boundaries
import MacroEngine.Proofs.Conduct
import MacroEngine.Proofs.FrameOrder

/-! The frames of the invocations of a run. A step is followed with the frames that it has come to:
where it leads they are in order for the step that comes next, and it marks a crossing only right
before the frames after it. So the frames of all invocations are in order throughout a run, and
each crossing counts in one of them. -/
namespace MacroEngine

namespace Activity

/-- `P` holds of the activity and of all that can follow, with the frames that it has come to. -/
def Tracks (P : List Frame → Activity α → Prop) (a : Activity α) (frames : List Frame) : Prop :=
  P frames a ∧ match a with
    | .done _ | .fail _ _ => True
    | .look next => ∀ view, (next view).Tracks P frames
    | .issue _ next => ∀ reply, (next reply).Tracks P frames
    | .perform _ next => ∀ reply, (next reply).Tracks P frames
    | .echo _ next => next.Tracks P frames
    | .mark (.frames frames) next => next.Tracks P frames
    | .mark .crossed next => next.Tracks P frames
    | .mark .boundary next => next.Tracks P frames
    | .mark (.held _) next => next.Tracks P frames
    | .pause _ next => next.Tracks P frames
    | .await _ _ next => ∀ met, (next met).Tracks P frames

/-- It ends in the value after so many marks and echoes, and takes no time. -/
inductive Prompt (value : α) : Activity α → Nat → Prop where
  | done : Prompt value (.done value) 0
  | echo {next n} (text : String) : Prompt value next n → Prompt value (.echo text next) (n + 1)
  | mark {next n} (m : Mark) : Prompt value next n → Prompt value (.mark m next) (n + 1)

end Activity

theorem Activity.inherited_tracks (P : List Frame → Activity α → Prop) :
    Inherited (fun _ => True) fun frames _ a => a.Tracks P frames := by
  intro frames n a frames' n' b hnext ha
  cases hnext with
  | look | issue | perform | await => exact ha.2 _
  | echo | crossed | frames | boundary | held | pause => exact ha.2

def Course.Tracks (P : List Frame → Activity α → Prop) (frames : List Frame) (c : Course α) : Prop :=
  c.Lifts True (fun frames _ a => a.Tracks P frames) frames 0

theorem Course.tracks_step? {P : List Frame → Activity α → Prop} {means : Means γ} {now : Moment}
    {s s' : Scene γ} {c c' : Course α} (hc : c.Tracks P s.frames)
    (h : c.step? means now s = some (s', c')) : c'.Tracks P s'.frames :=
  Lifts.step? (Activity.inherited_tracks P) trivial (fun _ => trivial) hc h

inductive Course.Marking (s s' : Scene γ) (c c' : Course α) : Prop where
  | none : s'.frames = s.frames → s'.crossings = s.crossings → Marking s s' c c'
  | crossed {next} : c = .doing (.mark .crossed next) → c' = .doing next → s'.frames = s.frames →
      s'.crossings = s.crossings + 1 → Marking s s' c c'
  | frames {next} : c = .doing (.mark (.frames s'.frames) next) → c' = .doing next →
      s'.crossings = s.crossings → Marking s s' c c'

theorem Course.marking_step? {means : Means γ} {now : Moment} {s s' : Scene γ} {c c' : Course α}
    (h : c.step? means now s = some (s', c')) : Marking s s' c c' := by
  cases smallStep_of_step? h with
  | @mark m next =>
    cases m with
    | crossed => exact .crossed rfl rfl rfl rfl
    | frames => exact .frames rfl rfl rfl
    | boundary | held => exact .none rfl rfl
  | _ => exact .none rfl rfl

/-- The frames are in order for where the step on the cursor leads, and it marks a crossing right
before the frames after it. A gate that lets nothing more through ends its invocation at once. -/
def Routine.Keeps (config : Config) (routine : Routine) (cursor : Nat) (frames : List Frame) :
    Activity Flow → Prop
  | .done (.jump target) => routine.Stacked target frames
  | .done .finish => True
  | .done .next | .done (.enter ..) => routine.Stacked (cursor + 1) frames
  | .fail _ error => error.isSoft = true → routine.Stacked (cursor + 1) frames
  | .mark .crossed next => ∃ outer frame inner rest,
      routine.Meets config cursor frames outer frame inner ∧ frame.kind ≠ .header ∧
      next = .mark (.frames (outer ++ frame.passed ++ inner)) rest ∧
      (frame.kind = .gate → frame.remaining.pass? = none → ∃ n ≤ 2, rest.Prompt .finish n)
  | .mark (.frames frames') _ => routine.Stacked cursor frames' ∧ Frames.KeepsGates frames frames'
  | _ => True

namespace Execution
open Activity

variable {config : Config} {routine : Routine} {cursor : Nat} {frames : List Frame} {step : Step}

/-- A step without loops and gates leaves the frames alone, and leads on or into another macro. -/
theorem tracks_plain {p : Order → Prop} {q : Mark → Prop}
    (hq : ∀ m, q m → ∃ reason, m = .held reason) (a : Activity Flow) : ∀ {n}, a.Within p q →
      a.Ensures (fun _ _ flow => flow = .next ∨ ∃ name routine wait,
        flow = .enter name routine wait) frames n →
      routine.Stacked (cursor + 1) frames → a.Tracks (routine.Keeps config cursor) frames := by
  induction a with
  | done flow =>
    rintro _ _ (rfl | ⟨_, _, _, rfl⟩) hs
    · exact ⟨hs, trivial⟩
    · exact ⟨hs, trivial⟩
  | fail => exact fun _ _ hs => ⟨fun _ => hs, trivial⟩
  | look next ih | issue action next ih | await holds limit next ih =>
    exact fun hw he hs => ⟨trivial, fun x => ih x (hw x) (he x) hs⟩
  | perform order next ih => exact fun hw he hs => ⟨trivial, fun x => ih x (hw.2 x) (he x) hs⟩
  | echo text next ih | pause span next ih => exact fun hw he hs => ⟨trivial, ih hw he hs⟩
  | mark m next ih =>
    intro _ hw he hs
    obtain ⟨hm, hw⟩ := hw
    obtain ⟨reason, rfl⟩ := hq m hm
    exact ⟨trivial, ih hw he hs⟩

theorem tracks_tell (wanted : Bool) (news : Option String) {f : Unit → Activity Flow}
    (hf : (f ()).Tracks (routine.Keeps config cursor) frames) :
    ((tell wanted news).bind f).Tracks (routine.Keeps config cursor) frames := by
  unfold tell
  split
  · exact ⟨trivial, hf⟩
  · exact hf

theorem prompt_tell (wanted : Bool) (news : Option String) {f : Unit → Activity Flow} {flow : Flow}
    {n : Nat} (hf : (f ()).Prompt flow n) :
    ∃ m ≤ n + 1, ((tell wanted news).bind f).Prompt flow m := by
  unfold tell
  split
  · exact ⟨n + 1, Nat.le_refl _, .echo _ hf⟩
  · exact ⟨n, Nat.le_succ n, hf⟩

/-- A crossing is marked with the frames after it, and told. -/
theorem tracks_crossed {outer inner : List Frame} {frame : Frame} {crossing : Crossing}
    {rest : Activity Flow} (h : routine.Stacked cursor frames)
    (hmeets : routine.Meets config cursor frames outer frame inner) (hkind : frame.kind ≠ .header)
    (hcrossing : crossing.Of outer frame inner) (wanted : Bool)
    (hdone : frame.kind = .gate → crossing.again = false → rest = .done .finish)
    (hrest : rest.Tracks (routine.Keeps config cursor) (outer ++ frame.passed ++ inner)) :
    (Activity.mark .crossed (.mark (.frames crossing.frames)
      ((tell wanted crossing.news).bind fun _ => .mark .boundary rest))).Tracks
        (routine.Keeps config cursor) frames := by
  obtain ⟨hframes, hagain⟩ := hcrossing
  rw [hframes]
  refine ⟨⟨outer, frame, inner, _, hmeets, hkind, rfl, ?_⟩, ⟨?_, ?_⟩,
    tracks_tell _ _ ⟨trivial, hrest⟩⟩
  · intro hkind hpass
    obtain rfl := hdone hkind (by rw [hagain, hpass]; rfl)
    exact prompt_tell wanted crossing.news (f := fun _ => .mark .boundary (.done .finish))
      (.mark .boundary .done)
  · exact (h.meets hmeets).passed
  · exact hmeets.keepsGates

theorem tracks_gate {count : Nat} {eff : Effective} (h : routine.Stacked cursor frames)
    (hget : routine.get? cursor = some step) (hc : step.command = .craft count)
    (he : eff.echo = step.echoes config) :
    (gate cursor count eff frames).Tracks (routine.Keeps config cursor) frames := by
  obtain ⟨outer, frame, inner, hmeets, hkind, hcrossing⟩ := h.crossGate config hget hc
  have hpassed := (h.meets hmeets).passed
  have hnext : routine.Stacked (cursor + 1) (outer ++ frame.passed ++ inner) :=
    hpassed.next (hpassed.free hget fun _ hloop => by rw [hc] at hloop; cases hloop)
  unfold gate
  rw [he]
  refine tracks_crossed h hmeets (by simp [hkind]) hcrossing _
    (fun _ hagain => if_neg (by simp [hagain])) ?_
  split
  · exact ⟨trivial, hnext, trivial⟩
  · exact ⟨trivial, trivial⟩

theorem tracks_loop {count : LoopCount} {eff : Effective} (h : routine.Stacked cursor frames)
    (hget : routine.get? cursor = some step) (hc : step.command = .loop count)
    (he : eff.echo = step.echoes config) :
    (loop config cursor count eff frames).Tracks (routine.Keeps config cursor) frames := by
  unfold loop
  by_cases hzero : cursor = 0
  · subst hzero
    by_cases hnone : count = .finite 0
    · simp only [hnone, if_true]
      exact ⟨trivial, tracks_tell _ _ ⟨trivial, trivial⟩⟩
    · simp only [hnone, if_true, if_false]
      obtain ⟨hheader, hkeeps⟩ := h.enterHeader hget hc eff.echo
      have hnext := hheader.next (hheader.free hget fun _ _ => rfl)
      exact ⟨trivial, ⟨hheader, hkeeps⟩, hnext, trivial⟩
  · simp only [hzero, if_false]
    obtain ⟨outer, frame, inner, hmeets, hstep, hkind, hcrossing⟩ :=
      h.crossLoop config hget hc hzero
    have hstacked := h.meets hmeets
    rw [he]
    refine ⟨trivial, tracks_crossed h hmeets (by simp [hkind]) hcrossing _
      (fun hgate => absurd (hgate.symm.trans hkind) (by simp)) ⟨?_, trivial⟩⟩
    have hagain := hcrossing.again
    split
    · exact hstacked.passed.begin
    · -- The frame of a loop that is done is gone, and no other one is of its step.
      rename_i hlast
      have hpass : frame.remaining.pass? = none := by simpa [hagain] using hlast
      refine hstacked.passed.next fun f hf hs => ?_
      rw [Frame.passed_done hpass, hkind] at hf
      rcases List.mem_append.mp (by simpa using hf) with hf | hf
      · exact absurd (hs.trans hstep.symm) (hstacked.outer_ne f hf)
      · exact absurd (hs.trans hstep.symm) (hstacked.inner_ne f hf)

theorem tracks_command {rules : Rules} {eff : Effective} (chain : List String)
    (h : routine.Stacked cursor frames) (hget : routine.get? cursor = some step)
    (he : eff.echo = step.echoes rules.config) :
    (command rules chain cursor frames step eff).Tracks (routine.Keeps rules.config cursor)
      frames := by
  by_cases hb : step.command.isBoundary
  · unfold command
    cases hc : step.command with
    | craft count => exact tracks_gate h hget hc he
    | loop count => exact tracks_loop h hget hc he
    | _ => simp [hc, Command.isBoundary] at hb
  · have hb : step.command.isBoundary = false := by simpa using hb
    have hends : (command rules chain cursor frames step eff).Ensures (fun _ _ flow =>
        flow = .next ∨ ∃ name routine wait, flow = .enter name routine wait) frames 0 := by
      refine ensures_mono ?_ _ (ensures_command rules chain cursor step eff he)
      rintro _ _ flow ⟨_, _, hflow⟩
      rw [Step.transit_of_not_boundary hb] at hflow
      split at hflow
      · obtain ⟨routine, wait, hflow, _⟩ := hflow
        exact .inr ⟨_, routine, wait, hflow⟩
      · exact .inl hflow
    have hwithin := within_command rules chain cursor frames step eff
    have hnext : routine.Stacked (cursor + 1) frames :=
      h.next (h.free hget fun count hc => by rw [hc] at hb; cases hb)
    refine tracks_plain (fun m hm => ?_) _ hwithin hends hnext
    cases hc : step.command <;> simp_all [Command.Makes, Command.isBoundary]

theorem tracks_step (rules : Rules) (chain : List String)
    (h : routine.Stacked cursor frames) (hget : routine.get? cursor = some step) :
    (Execution.step rules chain cursor frames step).Tracks (routine.Keeps rules.config cursor)
      frames := by
  refine ⟨trivial, fun view => ?_⟩
  dsimp only
  split
  · exact ⟨fun hsoft => (by cases hsoft), trivial⟩
  · rename_i eff hr
    exact tracks_command chain h hget (resolve_echo hr)

end Execution

namespace Fiber

variable {engine : Engine γ} {now : Moment} {game : γ} {f g : Fiber} {r : γ × Fiber}
  {config : Config} {inv inv' : Invocation} {below : List Invocation}

/-- The frames of the innermost invocation are in order for its step, and those of the others for
the step after theirs. -/
structure Layered (config : Config) (stack : List Invocation) (phase : Phase) : Prop where
  head : ∀ inv below, stack = inv :: below → inv.routine.Stacked inv.cursor inv.frames
  callers : ∀ inv ∈ stack.tail, inv.routine.Stacked (inv.cursor + 1) inv.frames
  step : ∀ inv below c, stack = inv :: below → phase = .busy c →
    c.Tracks (inv.routine.Keeps config inv.cursor) inv.frames

theorem Layered.under {stack : List Invocation} {phase : Phase} (h : Layered config stack phase)
    (hs : stack = inv :: below) :
    ∀ inv' ∈ below, inv'.routine.Stacked (inv'.cursor + 1) inv'.frames := by
  subst hs
  exact h.callers

theorem Layered.each {stack : List Invocation} {phase : Phase} (h : Layered config stack phase) :
    ∀ inv ∈ stack, inv.routine.Stacked inv.cursor inv.frames := by
  intro inv hm
  cases stack with
  | nil => cases hm
  | cons top below =>
    rcases List.mem_cons.mp hm with rfl | hm
    · exact h.head _ below rfl
    · exact (h.callers inv hm).before

theorem layered_nil (phase : Phase) : Layered config [] phase :=
  ⟨fun _ _ hs => (nomatch hs), fun _ hm => (nomatch hm), fun _ _ _ hs => (nomatch hs)⟩

theorem layered_ready (hhead : inv.routine.Stacked inv.cursor inv.frames)
    (hbelow : ∀ inv ∈ below, inv.routine.Stacked (inv.cursor + 1) inv.frames) :
    Layered config (inv :: below) .ready := by
  refine ⟨?_, hbelow, fun _ _ _ _ hp => nomatch hp⟩
  rintro _ _ ⟨⟩
  exact hhead

theorem layered_leave (hbelow : ∀ inv ∈ below, inv.routine.Stacked (inv.cursor + 1) inv.frames)
    (f : Fiber) (inv : Invocation) (stopped : Bool) :
    Layered config (f.leave inv below stopped).stack (f.leave inv below stopped).phase := by
  cases below with
  | nil => exact layered_nil _
  | cons parent rest =>
    have hparent := hbelow parent (.head _)
    refine ⟨?_, fun inv' hm => hbelow inv' (.tail _ hm), ?_⟩
    · rintro _ _ ⟨⟩
      exact hparent.before
    · rintro _ _ _ ⟨⟩ ⟨⟩
      exact ⟨trivial, hparent, trivial⟩

theorem layered_step (hf : Layered engine.rules.config f.stack f.phase)
    (h : SmallStep engine now game f r) :
    Layered engine.rules.config r.2.stack r.2.phase := by
  cases h with
  | halted hs => exact layered_leave (hf.under hs) _ _ _
  | @finished inv below hs =>
    have hstacked := hf.head inv below hs
    refine finishSteps_cases (P := fun f => Layered engine.rules.config f.stack f.phase)
      engine.client (fun _ => layered_leave (hf.under hs) _ _ _) fun crossing hcross =>
        ⟨fun _ => layered_ready ?_ (hf.under hs), fun _ => layered_leave (hf.under hs) _ _ _⟩
    -- The macro begins anew, and no loop is behind its first step.
    obtain ⟨outer, frame, inner, heq, _, hframes, _⟩ := hstacked.crossEnd hcross
    rw [heq] at hstacked
    exact hframes ▸ hstacked.passed.begin
  | @begun inv below step hs hp _ hget =>
    have hstacked := hf.head inv below hs
    refine ⟨hf.head, hf.callers, ?_⟩
    rintro inv' below' c hs' ⟨⟩
    cases hs.symm.trans hs'
    exact Execution.tracks_step engine.rules f.chain hstacked hget
  | @moved inv below c s c' hs hp hc =>
    have htracks := hf.step inv below c hs hp
    have hstacked := hf.head inv below hs
    refine ⟨?_, hf.under hs, ?_⟩
    · rintro _ _ ⟨⟩
      cases Course.marking_step? hc with
      | none hframes => exact hframes ▸ hstacked
      | crossed _ _ hframes => exact hframes ▸ hstacked
      | frames hmark =>
        subst hmark
        exact htracks.1.1
    · rintro _ _ _ ⟨⟩ ⟨⟩
      exact Course.tracks_step? (s := f.scene inv game) htracks hc
  | @concluded inv below c ending hs hp hend =>
    have htracks := hf.step inv below c hs hp
    rw [Course.eq_of_end? hend] at htracks
    match ending with
    | .value .next => exact layered_ready htracks.1 (hf.under hs)
    | .value (.jump target) => exact layered_ready htracks.1 (hf.under hs)
    | .value (.enter name routine wait) =>
      refine layered_ready .nil fun inv' hm => ?_
      rcases List.mem_cons.mp hm with rfl | hm
      · exact htracks.1
      · exact hf.under hs inv' hm
    | .value .finish | .interrupted => exact layered_leave (hf.under hs) _ _ _
    | .failure site error =>
      exact handleFailure_cases (P := fun f => Layered engine.rules.config f.stack f.phase)
        engine.client engine.rules.config
        (fun hsoft => ⟨layered_ready (htracks.1 hsoft) (hf.under hs), layered_nil _⟩)
        (layered_nil _)

def Gated (f : Fiber) (inv' : Invocation) : Prop :=
  ∃ inv ∈ f.stack, inv.control = inv'.control ∧ Frames.KeepsGates inv.frames inv'.frames

theorem gated_of_mem (h : inv ∈ f.stack) : f.Gated inv := ⟨inv, h, rfl, .refl _⟩

theorem gated_leave (hs : ∀ inv ∈ below, inv ∈ f.stack) {stopped : Bool}
    (h : inv' ∈ (g.leave inv below stopped).stack) : f.Gated inv' := by
  cases below with
  | nil => cases h
  | cons parent rest =>
    rcases List.mem_cons.mp h with rfl | h
    · exact ⟨parent, hs parent (.head _), rfl, .refl _⟩
    · exact gated_of_mem (hs inv' (.tail _ h))

/-- An invocation that is on the stack after a small step is new, or has all its gates still. -/
theorem gated_step (hf : Layered engine.rules.config f.stack f.phase)
    (h : SmallStep engine now game f r) :
    ∀ inv' ∈ r.2.stack, inv'.control = f.controls.nextHandle ∨ f.Gated inv' := by
  have hunder : ∀ {inv below}, f.stack = inv :: below → ∀ inv ∈ below, inv ∈ f.stack :=
    fun hs inv' hm => by rw [hs]; exact .tail _ hm
  have hstays : ∀ {inv top inv' below}, f.stack = inv :: below → inv' ∈ top :: below →
      inv.control = top.control → Frames.KeepsGates inv.frames top.frames → f.Gated inv' := by
    intro inv top inv' below hs hm hcontrol hkeeps
    rcases List.mem_cons.mp hm with rfl | hm
    · exact ⟨inv, by rw [hs]; exact .head _, hcontrol, hkeeps⟩
    · exact gated_of_mem (hunder hs inv' hm)
  intro inv' hm
  cases h with
  | halted hs => exact .inr (gated_leave (hunder hs) hm)
  | @finished inv below hs =>
    refine .inr (finishSteps_cases (P := fun g => inv' ∈ g.stack → f.Gated inv') engine.client
      (fun _ hm => gated_leave (hunder hs) hm) (fun crossing hcross =>
        ⟨fun _ hm => hstays hs hm rfl ?_, fun _ hm => gated_leave (hunder hs) hm⟩) hm)
    obtain ⟨outer, frame, inner, heq, _, hframes, _⟩ := (hf.head inv below hs).crossEnd hcross
    rw [heq, hframes]
    exact Frame.keepsGates_passed outer inner frame
  | begun => exact .inr (gated_of_mem hm)
  | @moved inv below c s c' hs hp hc =>
    refine .inr (hstays hs hm rfl ?_)
    cases Course.marking_step? hc with
    | none hframes => exact hframes ▸ .refl _
    | crossed _ _ hframes => exact hframes ▸ .refl _
    | frames hmark =>
      have htracks := hf.step inv below c hs hp
      subst hmark
      exact htracks.1.2
  | @concluded inv below c ending hs =>
    match ending with
    | .value .next | .value (.jump _) => exact .inr (hstays hs hm rfl (.refl _))
    | .value (.enter name routine wait) =>
      rcases List.mem_cons.mp hm with rfl | hm
      · exact .inl rfl
      · exact .inr (hstays hs hm rfl (.refl _))
    | .value .finish | .interrupted => exact .inr (gated_leave (hunder hs) hm)
    | .failure site error =>
      exact .inr (handleFailure_cases (P := fun g => inv' ∈ g.stack → f.Gated inv') engine.client
        engine.rules.config (fun _ => ⟨fun hm => hstays hs hm rfl (.refl _),
          fun hm => nomatch hm⟩) (fun hm => nomatch hm) hm)

theorem Governed.eq_of_control {Q : Lifecycle → Prop} (hg : f.Governed Q) (hm : inv ∈ f.stack)
    (hm' : inv' ∈ f.stack) (h : inv'.control = inv.control) : inv' = inv := by
  have hnodup : (f.stack.map Invocation.control).Nodup :=
    hg.descending.imp fun hlt => (Nat.ne_of_gt hlt)
  exact List.inj_on_of_nodup_map hnodup hm' hm h

/-- As long as an invocation lasts it has all its gates. -/
theorem keepsGates_step (hf : Layered engine.rules.config f.stack f.phase)
    (hg : f.Governed Lifecycle.Awake) (h : SmallStep engine now game f r) :
    ∀ inv ∈ f.stack, ∀ inv' ∈ r.2.stack, inv'.control = inv.control →
      Frames.KeepsGates inv.frames inv'.frames := by
  intro inv hm inv' hm' hcontrol
  have hgiven := hg.given inv.control (List.mem_map_of_mem hm)
  rcases gated_step hf h inv' hm' with hnew | ⟨old, hold, hsame, hkeeps⟩
  · rw [← hnew, hcontrol] at hgiven
    exact absurd hgiven (Nat.lt_irrefl _)
  · obtain rfl := hg.eq_of_control hm hold (hsame.trans hcontrol)
    exact hkeeps

/-- A crossing is counted: of the step under way, whose frames come next, or of a header. -/
inductive Crossed (config : Config) (f f' : Fiber) : Prop where
  | step {inv below outer frame inner rest} : f.stack = inv :: below →
      inv.routine.Meets config inv.cursor inv.frames outer frame inner → frame.kind ≠ .header →
      f'.stack = inv :: below →
      f'.phase = .busy (.doing (.mark (.frames (outer ++ frame.passed ++ inner)) rest)) →
      (frame.kind = .gate → frame.remaining.pass? = none → ∃ n ≤ 2, rest.Prompt .finish n) →
      f'.crossings = f.crossings + 1 → Crossed config f f'
  | header {inv below outer frame inner} : f.stack = inv :: below →
      inv.routine.Meets config inv.cursor inv.frames outer frame inner → frame.kind = .header →
      (frame.remaining.pass?.isSome → f'.stack =
        { inv with cursor := 0, frames := outer ++ frame.passed ++ inner } :: below) →
      (frame.remaining.pass? = none → inv.control ∉ f'.handles) →
      f'.crossings = f.crossings + 1 → Crossed config f f'

theorem crossings_leave (f : Fiber) (inv : Invocation) (below : List Invocation) (stopped : Bool) :
    (f.leave inv below stopped).crossings = f.crossings := by
  cases below <;> rfl

theorem crossings_conclude (engine : Engine γ) (now : Moment) (game : γ) (f : Fiber)
    (inv : Invocation) (below : List Invocation) (ending : Course.End Flow) :
    (conclude engine now game f inv below ending).2.crossings = f.crossings := by
  cases ending with
  | value flow =>
    cases flow with
    | next | jump => exact crossings_complete f now inv
    | finish => exact (crossings_leave _ _ _ _).trans (crossings_complete f now inv)
    | enter => rfl
  | failure site error =>
    exact handleFailure_cases (P := fun g => g.crossings = f.crossings) engine.client
      engine.rules.config (fun _ => ⟨crossings_complete _ now inv, rfl⟩) rfl
  | interrupted => exact crossings_leave _ _ _ _

theorem crossed_step (hf : Layered engine.rules.config f.stack f.phase)
    (hg : f.Governed Lifecycle.Awake) (h : SmallStep engine now game f r) :
    r.2.crossings = f.crossings ∨ Crossed engine.rules.config f r.2 := by
  cases h with
  | halted hs => exact .inl (crossings_leave _ _ _ _)
  | @finished inv below hs hp hstop hget =>
    refine finishSteps_cases (P := fun g => g.crossings = f.crossings ∨
      Crossed engine.rules.config f g) engine.client (fun _ => .inl (crossings_leave _ _ _ _))
      fun crossing hcross => ?_
    obtain ⟨outer, frame, inner, heq, hkind, hframes, hagain⟩ :=
      (hf.head inv below hs).crossEnd hcross
    have hcount := cross_crossings engine.client now (f.scene inv game) crossing
    have hmeets : inv.routine.Meets engine.rules.config inv.cursor inv.frames outer frame inner :=
      .header heq hkind hget
    refine ⟨fun hgoes => .inr ?_, fun hends => .inr ?_⟩
    · rw [hagain] at hgoes
      refine .header hs hmeets hkind (fun _ => ?_) (fun hnone => ?_) hcount
      · rw [← hframes]
      · rw [hnone] at hgoes
        cases hgoes
    · rw [hagain] at hends
      refine .header hs hmeets hkind (fun hsome => ?_) (fun _ => ?_) ?_
      · rw [hends] at hsome
        cases hsome
      · rw [handles_leave]
        exact not_mem_below hg (by simp [handles, hs])
      · exact (crossings_leave _ _ _ _).trans hcount
  | begun => exact .inl rfl
  | @moved inv below c s c' hs hp hc =>
    cases Course.marking_step? hc with
    | none _ hsame => exact .inl hsame
    | frames _ _ hsame => exact .inl hsame
    | crossed hmark hnext hframes hcount =>
      have htracks := hf.step inv below c hs hp
      subst hmark
      obtain ⟨outer, frame, inner, rest, hmeets, hkind, rfl, hgate⟩ := htracks.1
      subst hnext
      have hstack : { inv with frames := s.frames } :: below = inv :: below := by
        rw [hframes]
        rfl
      exact .inr (.step hs hmeets hkind hstack rfl hgate hcount)
  | concluded => exact .inl (crossings_conclude _ _ _ _ _ _ _)

end Fiber

namespace Snapshot

variable {engine : Engine γ} {asks : Controls.Wish → Prop} {s t : Snapshot γ} {now : Moment}
  {game : γ} {run : Run} {inv : Invocation} {below : List Invocation}

/-- In so many small steps at most, which take no time, the stack comes to be like that. -/
def Soon (engine : Engine γ) (n : Nat) (P : List Invocation → Prop) (s : Snapshot γ) : Prop :=
  ∃ k ≤ n, (s.after engine k).now = s.now ∧ P (s.after engine k).run.fiber.stack

/-- What comes of the crossing of a frame. If it has passes left, it has one less, and all the
other frames are as they were. If it has none, the crossing ends it: a loop gives it up, and with
a header or a gate the invocation is over. -/
def Counts (engine : Engine γ) (s : Snapshot γ) (inv : Invocation) (below : List Invocation)
    (outer : List Frame) (frame : Frame) (inner : List Frame) : Prop :=
  let goesOn (frames : List Frame) : Prop := s.Soon engine 1 (· = { inv with
    cursor := if frame.kind = .header then 0 else inv.cursor, frames := frames } :: below)
  match frame.remaining with
  | .infinite => goesOn (outer ++ frame :: inner)
  | .finite (n + 1) => goesOn (outer ++ { frame with remaining := .finite n } :: inner)
  | .finite 0 =>
    if frame.kind = .loop then goesOn (outer ++ inner)
    else s.Soon engine 4 fun stack => inv.control ∉ stack.map Invocation.control

theorem layered_moves (hfresh : run.Fresh) (h : Moves engine asks ⟨now, game, run⟩ s) :
    Fiber.Layered engine.rules.config s.run.fiber.stack s.run.fiber.phase :=
  posture_moves hfresh (Fiber.layered_nil _)
    (fun _ _ => Fiber.layered_ready .nil fun _ hm => nomatch hm)
    (fun _ hlayered hstep => Fiber.layered_step hlayered hstep) h

theorem keepsGates_move (hs : s.run.Orderly)
    (hl : Fiber.Layered engine.rules.config s.run.fiber.stack s.run.fiber.phase)
    (h : Move engine asks s t) :
    ∀ inv ∈ s.run.fiber.stack, ∀ inv' ∈ t.run.fiber.stack, inv'.control = inv.control →
      Frames.KeepsGates inv.frames inv'.frames := by
  have hgoverned := hs.grounded.governed
  have hsame : ∀ inv ∈ s.run.fiber.stack, ∀ inv' ∈ s.run.fiber.stack,
      inv'.control = inv.control → Frames.KeepsGates inv.frames inv'.frames :=
    fun inv hm inv' hm' hcontrol => hgoverned.eq_of_control hm hm' hcontrol ▸ .refl _
  cases h with
  | lapse | wish => exact hsame
  | work hstep =>
    cases (hs.work hstep).2 with
    | finishes | talks => exact hsame
    | plays hf => exact Fiber.keepsGates_step hl hgoverned (Fiber.smallStep_of_step? hf)
    | loads step hfair hserving hempty =>
      intro inv hm
      rw [hempty] at hm
      cases hm

theorem crossed_move (hs : s.run.Orderly)
    (hl : Fiber.Layered engine.rules.config s.run.fiber.stack s.run.fiber.phase)
    (h : Move engine asks s t) : t.run.fiber.crossings = s.run.fiber.crossings ∨
      Fiber.Crossed engine.rules.config s.run.fiber t.run.fiber := by
  cases h with
  | lapse | wish => exact .inl rfl
  | work hstep =>
    cases (hs.work hstep).2 with
    | finishes | talks | loads => exact .inl rfl
    | plays hf =>
      exact Fiber.crossed_step hl hs.grounded.governed (Fiber.smallStep_of_step? hf)

/-- Marks and echoes take no time, whatever is asked of the invocation meanwhile. -/
theorem prompt_after {flow : Flow} {a : Activity Flow} {n : Nat} (hprompt : a.Prompt flow n)
    (hs : s.run.Orderly) (hstack : s.run.fiber.stack = inv :: below)
    (hp : s.run.fiber.phase = .busy (.doing a)) :
    (s.after engine n).now = s.now ∧ ∃ frames,
      (s.after engine n).run.fiber.stack = { inv with frames := frames } :: below ∧
      (s.after engine n).run.fiber.phase = .busy (.doing (.done flow)) := by
  induction hprompt generalizing s inv with
  | done => exact ⟨rfl, inv.frames, hstack, hp⟩
  | echo _ _ ih | mark _ _ ih =>
    have htick : s.tick engine = _ := tick_moves hs hstack hp rfl
    obtain ⟨hnow, frames, hafter⟩ := ih (orderly_tick hs) (by rw [htick]; rfl) (by rw [htick])
    rw [after_tick] at hnow hafter
    exact ⟨hnow.trans (by rw [htick]), frames, hafter⟩

theorem soon_finishes {a : Activity Flow} {n : Nat} (hprompt : a.Prompt .finish n)
    (hs : s.run.Orderly) (hstack : s.run.fiber.stack = inv :: below)
    (hp : s.run.fiber.phase = .busy (.doing a)) :
    s.Soon engine (n + 1) fun stack => inv.control ∉ stack.map Invocation.control := by
  obtain ⟨hnow, frames, hstack', hp'⟩ : (s.after engine n).now = s.now ∧ _ :=
    prompt_after hprompt hs hstack hp
  have htick : (s.after engine n).tick engine = _ :=
    tick_concludes (orderly_after hs n) hstack' hp' rfl
  refine ⟨n + 1, Nat.le_refl _, ?_, ?_⟩
  · rw [after_succ, htick]
    exact hnow
  · rw [after_succ, htick]
    change _ ∉ Fiber.handles (Fiber.leave _ _ below false)
    rw [Fiber.handles_leave]
    exact Fiber.not_mem_below hs.grounded.governed (by simp [Fiber.handles, hstack])

theorem counts_of_goesOn {outer inner : List Frame} {frame : Frame}
    (hpass : frame.remaining.pass?.isSome ∨ frame.kind = .loop)
    (h : s.Soon engine 1 (· = { inv with
      cursor := if frame.kind = .header then 0 else inv.cursor,
      frames := outer ++ frame.passed ++ inner } :: below)) :
    s.Counts engine inv below outer frame inner := by
  obtain ⟨index, kind, total, remaining, echo⟩ := frame
  unfold Counts
  match remaining with
  | .infinite => simpa [Frame.passed] using h
  | .finite (n + 1) => simpa [Frame.passed] using h
  | .finite 0 =>
    obtain rfl : kind = .loop := hpass.resolve_left (by simp [LoopCount.pass?])
    simpa [Frame.passed] using h

theorem counts_of_soon {outer inner : List Frame} {frame : Frame}
    (hpass : frame.remaining.pass? = none) (hkind : frame.kind ≠ .loop)
    (h : s.Soon engine 4 fun stack => inv.control ∉ stack.map Invocation.control) :
    s.Counts engine inv below outer frame inner := by
  obtain ⟨index, kind, total, remaining, echo⟩ := frame
  unfold Counts
  match remaining with
  | .finite 0 => simpa [if_neg hkind] using h

/-- Each crossing counts in the frame that it is of. -/
theorem counts_of_crossed (hs : t.run.Orderly)
    (h : Fiber.Crossed engine.rules.config s.run.fiber t.run.fiber) :
    t.run.fiber.crossings = s.run.fiber.crossings + 1 ∧ ∃ inv below outer frame inner,
      s.run.fiber.stack = inv :: below ∧
      inv.routine.Meets engine.rules.config inv.cursor inv.frames outer frame inner ∧
      t.Counts engine inv below outer frame inner := by
  cases h with
  | @step inv below outer frame inner rest hstack hmeets hkind hstack' hp hgate hcount =>
    refine ⟨hcount, inv, below, outer, frame, inner, hstack, hmeets, ?_⟩
    by_cases hgoes : frame.remaining.pass?.isSome ∨ frame.kind = .loop
    · refine counts_of_goesOn hgoes ⟨1, Nat.le_refl 1, ?_⟩
      have htick : t.tick engine = _ := tick_moves hs hstack' hp rfl
      change (t.tick engine).now = t.now ∧ (t.tick engine).run.fiber.stack = _
      rw [htick, if_neg hkind]
      exact ⟨rfl, rfl⟩
    · have hpass : frame.remaining.pass? = none := by
        simpa using fun hsome => hgoes (.inl hsome)
      have hloop : frame.kind ≠ .loop := fun hloop => hgoes (.inr hloop)
      have hgated : frame.kind = .gate := by
        cases hk : frame.kind <;> simp_all
      obtain ⟨n, hn, hprompt⟩ := hgate hgated hpass
      obtain ⟨k, hk, hover⟩ : t.Soon engine (n + 1 + 1) _ :=
        soon_finishes (.mark _ hprompt) hs hstack' hp
      exact counts_of_soon hpass hloop ⟨k, by omega, hover⟩
  | @header inv below outer frame inner hstack hmeets hkind hgoes hover hcount =>
    refine ⟨hcount, inv, below, outer, frame, inner, hstack, hmeets, ?_⟩
    cases hpass : frame.remaining.pass? with
    | some rest =>
      refine counts_of_goesOn (.inl (by rw [hpass]; rfl)) ⟨0, Nat.zero_le 1, rfl, ?_⟩
      rw [if_pos hkind]
      exact hgoes (by rw [hpass]; rfl)
    | none =>
      exact counts_of_soon hpass (by simp [hkind]) ⟨0, Nat.zero_le 4, rfl, hover hpass⟩

/-- The frames of each invocation are a stack in every state of a run. No move takes the frame of
a gate away as long as the invocation lasts, and every crossing counts in one frame. -/
theorem frames_stacked (hrun : run.Fresh) (h : Moves engine asks ⟨now, game, run⟩ s) :
    (∀ inv ∈ s.run.fiber.stack, inv.routine.Stacked inv.cursor inv.frames ∧
      (inv.frames.filter fun f => f.kind = .header).length ≤ 1 ∧
      ∀ f ∈ inv.frames, f.kind = .header → f.step = 0) ∧
    ∀ t, Move engine asks s t →
      (∀ inv ∈ s.run.fiber.stack, ∀ inv' ∈ t.run.fiber.stack, inv'.control = inv.control →
        Frames.KeepsGates inv.frames inv'.frames) ∧
      (t.run.fiber.crossings = s.run.fiber.crossings ∨
        t.run.fiber.crossings = s.run.fiber.crossings + 1 ∧ ∃ inv below outer frame inner,
          s.run.fiber.stack = inv :: below ∧
          inv.routine.Meets engine.rules.config inv.cursor inv.frames outer frame inner ∧
          t.Counts engine inv below outer frame inner) := by
  have horderly := orderly_moves (Run.orderly_fresh hrun) h
  have hlayered := layered_moves hrun h
  constructor
  · intro inv hm
    have hstacked := hlayered.each inv hm
    exact ⟨hstacked, hstacked.headers, hstacked.header_step⟩
  · intro t hmove
    refine ⟨keepsGates_move horderly hlayered hmove, ?_⟩
    exact (crossed_move horderly hlayered hmove).imp_right
      (counts_of_crossed (orderly_move horderly hmove))

def folding : Routine :=
  ⟨[⟨1, .loop (.finite 2), "2", {}⟩, ⟨2, .craft 9, "9", {}⟩, ⟨3, .loop (.finite 2), "2", {}⟩,
    ⟨4, .loop (.finite 1), "1", {}⟩]⟩

def folded : Snapshot Unit := (start 0 () "m" folding).after (.still .empty) 98

theorem frames_stacked_folded :
    (folded.run.fiber.stack.map fun inv => inv.frames.map fun f => (f.step, f.remaining)) =
      [[(0, .finite 1), (1, .finite 4), (3, .finite 0), (2, .finite 1)]] ∧
    (((folded.tick (.still .empty)).after (.still .empty) 1).run.fiber.stack.map fun inv =>
      inv.frames.map fun f => (f.step, f.remaining)) =
      [[(0, .finite 1), (1, .finite 4), (3, .finite 0), (2, .finite 0)]] ∧
    (∀ inv ∈ folded.run.fiber.stack, inv.routine.Stacked inv.cursor inv.frames ∧
      (inv.frames.filter fun f => f.kind = .header).length ≤ 1) ∧
    (folded.tick (.still .empty)).run.fiber.crossings = folded.run.fiber.crossings + 1 ∧
    ∃ inv below outer frame inner, folded.run.fiber.stack = inv :: below ∧
      inv.routine.Meets .default inv.cursor inv.frames outer frame inner ∧
      (folded.tick (.still .empty)).Counts (.still .empty) inv below outer frame inner := by
  have hmoves : Moves (.still .empty) (fun _ => True) (start 0 () "m" folding) folded :=
    moves_after (start 0 () "m" folding) 98
  have hne : (folded.tick (.still .empty)).run.fiber.crossings ≠ folded.run.fiber.crossings := by
    decide +kernel
  have hmove : Move (.still .empty) (fun _ => True) folded (folded.tick (.still .empty)) :=
    (tick_eq_or_move _ _ folded).resolve_left fun hsame => hne (by rw [hsame])
  obtain ⟨hstacked, hmoved⟩ := frames_stacked (.routine "m" folding) hmoves
  obtain ⟨hcount, hcrossed⟩ := (hmoved _ hmove).2.resolve_left hne
  refine ⟨by decide +kernel, by decide +kernel, fun inv hm => ?_, hcount, hcrossed⟩
  obtain ⟨hinv, hheaders, _⟩ := hstacked inv hm
  exact ⟨hinv, hheaders⟩

end Snapshot
end MacroEngine
