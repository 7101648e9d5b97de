import MacroEngine.Proofs.Courses
import MacroEngine.Proofs.Refusals
import MacroEngine.Proofs.Unwinding

/-! How the step under way can end its invocation or pause it, and what holds of the invocations of
every run: only where one was stopped is a step cut short, and only in one that has steps are loops
and gates entered. Nothing fails as if it had been stopped. -/
namespace MacroEngine

/-- A gate, or a loop on the first step that has no passes, can end the invocation. -/
def Step.Cuts (index : Nat) (step : Step) : Prop :=
  (∃ count, step.command = .craft count) ∨ index = 0 ∧ step.command = .loop (.finite 0)

theorem Step.cuts_of_finish {config : Config} {step : Step} {index : Nat} {frames : List Frame}
    (h : (step.transit config index frames).flow = .finish) : step.Cuts index := by
  unfold transit at h
  split at h
  · exact .inl ⟨_, ‹_›⟩
  · rename_i count hc
    split at h
    · split at h
      · rename_i hindex hzero
        exact .inr ⟨hindex, hzero ▸ hc⟩
      · cases h
    · dsimp only at h
      split at h <;> cases h
  · cases h

/-- If it ends the invocation now, the step is one that can; if it pauses the macro now, nothing
else is left of the step. -/
def Step.Abides (index : Nat) (step : Step) : Activity Flow → Prop
  | .done flow => flow = .finish → step.Cuts index
  | .mark (.held _) next => next = .done .next ∧ ¬ step.command.Steers
  | _ => True

/-- If it ends now, then in another macro or with an error that no policy passes over. -/
def Activity.Enters : Activity Flow → Prop
  | .done flow => ∃ name routine wait, flow = .enter name routine wait
  | .fail _ error => error.isSoft = false
  | _ => True

namespace Execution
open Activity

variable {V : View → Prop} {step : Step} {index : Nat} {frames : List Frame} {n : Nat}

theorem abides_within {p : Order → Prop} {q : Mark → Prop} (hq : ∀ reason, ¬ q (.held reason))
    (a : Activity Flow) : ∀ {frames n}, a.Within p q →
      a.Ensures (fun _ _ flow => flow = .finish → step.Cuts index) frames n →
        a.Always V (step.Abides index) := by
  induction a with
  | done flow => exact fun _ hends => ⟨hends, trivial⟩
  | fail => exact fun _ _ => ⟨trivial, trivial⟩
  | look next ih => exact fun hw he => ⟨trivial, fun view _ => ih view (hw view) (he view)⟩
  | issue action next ih | await holds limit next ih =>
    exact fun hw he => ⟨trivial, fun x => ih x (hw x) (he x)⟩
  | perform order next ih => exact fun hw he => ⟨trivial, fun x => ih x (hw.2 x) (he x)⟩
  | echo text next ih | pause span next ih => exact fun hw he => ⟨trivial, ih hw he⟩
  | mark m next ih =>
    intro frames n hw he
    cases m with
    | held reason => exact absurd hw.1 (hq reason)
    | crossed | frames | boundary => exact ⟨trivial, ih hw.2 he⟩

theorem abides_check (hc : ¬ step.command.Steers) (reason : String) (wait : WaitSpan)
    (trips : View → Bool) : (check reason wait trips).Always V (step.Abides index) := by
  have hnext : Activity.Always V (step.Abides index) (.done .next) :=
    ⟨fun h => (by cases h), trivial⟩
  refine ⟨trivial, fun view _ => ?_⟩
  dsimp only
  split
  · exact ⟨⟨rfl, hc⟩, hnext⟩
  · exact ⟨trivial, hnext⟩

theorem abides_command (rules : Rules) (chain : List String) (step : Step) (eff : Effective)
    (he : eff.echo = step.echoes rules.config) :
    (command rules chain index frames step eff).Always V (step.Abides index) := by
  have hends : (command rules chain index frames step eff).Ensures
      (fun _ _ flow => flow = .finish → step.Cuts index) frames 0 := by
    refine ensures_mono ?_ _ (ensures_command rules chain index step eff he)
    rintro _ _ flow ⟨_, _, hflow⟩ rfl
    split at hflow
    · obtain ⟨_, _, henter, _⟩ := hflow
      cases henter
    · exact Step.cuts_of_finish hflow.symm
  have hwithin := within_command rules chain index frames step eff
  unfold command at hends hwithin ⊢
  cases hc : step.command with
  | requireRepair | requireSpiritbond => exact abides_check (by rw [hc]; exact id) _ _ _
  | craft | loop =>
    rw [hc] at hends hwithin
    exact abides_within (fun reason hm => hm reason rfl) _ hwithin hends
  | _ =>
    rw [hc] at hends hwithin
    exact abides_within (fun _ hm => hm) _ hwithin hends

theorem abides_step (rules : Rules) (chain : List String) (index : Nat) (frames : List Frame)
    (step : Step) : (Execution.step rules chain index frames step).Always V (step.Abides index) := by
  refine ⟨trivial, fun view _ => ?_⟩
  dsimp only
  split
  · exact ⟨trivial, trivial⟩
  · rename_i eff hr
    exact abides_command rules chain step eff (resolve_echo hr)

theorem enters_step (rules : Rules) (chain : List String) (index : Nat) (frames : List Frame)
    {step : Step} {name : String} (hc : step.command = .runMacro name) :
    (Execution.step rules chain index frames step).Always V Enters := by
  refine ⟨trivial, fun view _ => ?_⟩
  dsimp only
  split
  · exact ⟨rfl, trivial⟩
  · rw [command]
    simp only [hc, enter]
    split
    · exact ⟨rfl, trivial⟩
    · split
      · exact ⟨rfl, trivial⟩
      · exact ⟨⟨_, _, _, rfl⟩, trivial⟩

end Execution

def Invocation.Abides (inv : Invocation) (c : Course Flow) : Prop :=
  ∃ step, inv.routine.get? inv.cursor = some step ∧
    c.Always (fun _ => True) (step.Abides inv.cursor)

theorem lasting_abides (engine : Engine γ) : Lasting engine Invocation.Abides where
  begun chain inv step hget :=
    ⟨step, hget, Execution.abides_step engine.rules chain inv.cursor inv.frames step⟩
  moved _ hc h := by
    obtain ⟨step, hget, habides⟩ := hc
    exact ⟨step, hget, Course.always_step? (fun _ _ => trivial) habides h⟩
  resumed hc _ _ := by
    obtain ⟨step, hget, _⟩ := hc
    exact ⟨step, hget, trivial, fun h => (by cases h), trivial⟩

/-- Where the step runs another macro, it will enter it, or is back from it. -/
def Invocation.Enters (inv : Invocation) (c : Course Flow) : Prop :=
  ∀ step name, inv.routine.get? inv.cursor = some step → step.command = .runMacro name →
    c.Resumes ∨ c.Always (fun _ => True) Activity.Enters

theorem lasting_enters (engine : Engine γ) : Lasting engine Invocation.Enters where
  begun chain inv step hget step' name hget' hcommand := by
    cases hget.symm.trans hget'
    exact .inr (Execution.enters_step engine.rules chain inv.cursor inv.frames hcommand)
  moved _ hc h step name hget hcommand := by
    rcases hc step name hget hcommand with hresumes | henters
    · rcases hresumes.step_or_cut h with ⟨hresumes, _⟩ | ⟨rfl, _⟩
      · exact .inl hresumes
      · exact .inr trivial
    · exact .inr (Course.always_step? (fun _ _ => trivial) henters h)
  resumed _ _ _ := fun _ _ _ _ => .inl rfl

theorem Frames.ne_nil_of_crossEnd {frames : List Frame} {crossing : Crossing}
    (h : Frames.crossEnd frames = some crossing) : frames ≠ [] := by
  rintro rfl
  cases h

namespace Fiber

variable {engine : Engine γ} {now : Moment} {game : γ} {f : Fiber} {r : γ × Fiber}
  {inv : Invocation} {below : List Invocation}

theorem mem_handles (hs : f.stack = inv :: below) : inv.control ∈ f.handles := by
  simp [handles, hs]

def Rooted (f : Fiber) : Prop := ∀ inv ∈ f.stack, inv.frames ≠ [] → inv.routine.steps ≠ []

theorem rooted_of_empty (h : f.stack = []) : f.Rooted := by simp [Rooted, h]

theorem rooted_leave (h : ∀ inv ∈ below, inv.frames ≠ [] → inv.routine.steps ≠ [])
    (f : Fiber) (inv : Invocation) (stopped : Bool) : (f.leave inv below stopped).Rooted := by
  cases below with
  | nil => exact rooted_of_empty rfl
  | cons parent rest =>
    intro inv' hm
    rcases List.mem_cons.mp hm with rfl | hm
    · exact h parent (.head _)
    · exact h inv' (.tail _ hm)

theorem rooted_step (hf : f.Rooted) (hu : f.Underway Invocation.Abides)
    (h : SmallStep engine now game f r) : r.2.Rooted := by
  have hbelow : ∀ {inv below}, f.stack = inv :: below →
      ∀ inv ∈ below, inv.frames ≠ [] → inv.routine.steps ≠ [] := by
    intro inv below hs inv' hm
    exact hf inv' (by rw [hs]; exact .tail _ hm)
  have hstays : ∀ {inv below} (g : Fiber) top, f.stack = inv :: below → g.stack = top :: below →
      (top.frames ≠ [] → top.routine.steps ≠ []) → g.Rooted := by
    intro inv below g top hs hg htop inv' hm
    rw [hg] at hm
    rcases List.mem_cons.mp hm with rfl | hm
    · exact htop
    · exact hbelow hs inv' hm
  have hhead : ∀ {inv below}, f.stack = inv :: below → inv.frames ≠ [] → inv.routine.steps ≠ [] :=
    fun hs => hf _ (by rw [hs]; exact .head _)
  cases h with
  | halted hs => exact rooted_leave (hbelow hs) _ _ _
  | finished hs =>
    have hinv := hhead hs
    exact finishSteps_cases engine.client (fun _ => rooted_leave (hbelow hs) _ _ _)
      fun crossing hcross =>
        ⟨fun _ => hstays _ _ hs rfl fun _ => hinv (Frames.ne_nil_of_crossEnd hcross),
          fun _ => rooted_leave (hbelow hs) _ _ _⟩
  | begun hs => exact hf
  | @moved inv below c s c' hs hp =>
    obtain ⟨step, hget, _⟩ := hu.top inv below c hs hp
    exact hstays _ _ hs rfl fun _ => List.ne_nil_of_mem (List.mem_of_getElem? hget)
  | @concluded inv below c ending hs hp =>
    have hinv := hhead hs
    match ending with
    | .value .next | .value (.jump _) => exact hstays _ _ hs rfl hinv
    | .value (.enter name routine wait) =>
      intro inv' hm
      rcases List.mem_cons.mp hm with rfl | hm
      · exact fun hne => absurd rfl hne
      · rcases List.mem_cons.mp hm with rfl | hm
        · exact hinv
        · exact hbelow hs inv' hm
    | .value .finish | .interrupted => exact rooted_leave (hbelow hs) _ _ _
    | .failure site error =>
      exact handleFailure_cases engine.client engine.rules.config
        (fun _ => ⟨hstays _ _ hs rfl hinv, rooted_of_empty rfl⟩) (rooted_of_empty rfl)

/-- Where the step under way is cut short, the invocation was stopped. -/
def Severed (f : Fiber) : Prop := ∀ inv below, f.stack = inv :: below →
  f.phase = .busy .interrupted → f.controls.state inv.control = .stopped

theorem severed_of_phase (h : f.phase ≠ .busy .interrupted) : f.Severed :=
  fun _ _ _ hp => absurd hp h

theorem severed_leave (f : Fiber) (inv : Invocation) (below : List Invocation) (stopped : Bool) :
    (f.leave inv below stopped).Severed := by
  apply severed_of_phase
  cases below <;> exact fun hp => nomatch hp

end Fiber

theorem Course.interrupted_step? {means : Means γ} {now : Moment} {s s' : Scene γ} {c : Course α}
    (h : c.step? means now s = some (s', .interrupted)) :
    s.control.state = .stopped ∧ s'.control = s.control := by
  cases smallStep_of_step? h with
  | cut hready => exact ⟨Wait.stopped_of_readiness hready, rfl⟩

namespace Fiber

variable {engine : Engine γ} {now : Moment} {game : γ} {f : Fiber} {r : γ × Fiber}

theorem severed_step (hg : f.Governed Lifecycle.Awake) (h : SmallStep engine now game f r) :
    r.2.Severed := by
  cases h with
  | halted => exact severed_leave _ _ _ _
  | finished =>
    exact finishSteps_cases engine.client (fun _ => severed_leave _ _ _ _) fun crossing _ =>
      ⟨fun _ => severed_of_phase fun hp => (by cases hp), fun _ => severed_leave _ _ _ _⟩
  | begun => exact severed_of_phase fun hp => nomatch hp
  | @moved inv below c s c' hs hp hc =>
    intro inv' below' hs' hp'
    cases hs'
    cases hp'
    obtain ⟨hstopped, hcontrol⟩ := Course.interrupted_step? hc
    have hlive : f.controls.Live inv.control := hg.live _ (mem_handles hs)
    change ((f.controls.set inv.control s.control).lifecycle inv.control).state = .stopped
    rw [Controls.lifecycle_set_self hlive, hcontrol]
    exact hstopped
  | @concluded inv below c ending =>
    match ending with
    | .value .next | .value (.jump _) | .value (.enter ..) =>
      exact severed_of_phase fun hp => nomatch hp
    | .value .finish | .interrupted => exact severed_leave _ _ _ _
    | .failure site error => exact severed_of_phase (handleFailure_phase _ _ _ _ _ _ _ site error _)

def Unstopped (f : Fiber) : Prop := ∀ error, f.phase = .ended (.error error) → error ≠ .stopped

theorem unstopped_of_phase (h : ∀ error, f.phase ≠ .ended (.error error)) : f.Unstopped :=
  fun error hp => absurd hp (h error)

theorem unstopped_leave (f : Fiber) (inv : Invocation) (below : List Invocation) (stopped : Bool) :
    (f.leave inv below stopped).Unstopped := by
  cases below <;> exact unstopped_of_phase (by simp [leave])

theorem unstopped_step (hu : f.Underway Invocation.Heeds) (h : SmallStep engine now game f r) :
    r.2.Unstopped := by
  cases h with
  | halted => exact unstopped_leave _ _ _ _
  | finished =>
    exact finishSteps_cases engine.client (fun _ => unstopped_leave _ _ _ _) fun crossing _ =>
      ⟨fun _ => unstopped_of_phase fun _ hp => (by cases hp), fun _ => unstopped_leave _ _ _ _⟩
  | begun | moved => exact unstopped_of_phase fun _ hp => (by cases hp)
  | @concluded inv below c ending hs hp hend =>
    match ending with
    | .value .next | .value (.jump _) | .value (.enter ..) => exact unstopped_of_phase fun _ hp => (by cases hp)
    | .value .finish | .interrupted => exact unstopped_leave _ _ _ _
    | .failure site error =>
      have hheeds := hu.top inv below c hs hp
      rw [Course.eq_of_end? hend] at hheeds
      have herror : error ≠ .stopped := hheeds.1
      have haborts : ∀ f : Fiber, (f.abort error).Unstopped := by
        rintro f error' hp
        cases hp
        exact herror
      exact handleFailure_cases engine.client engine.rules.config
        (fun _ => ⟨unstopped_of_phase fun _ hp => (by cases hp), haborts _⟩) (haborts f)

structure Proper (library : Library) (name : String) (f : Fiber) : Prop where
  grounded : f.Grounded name
  nested : f.Nested library
  abides : f.Underway Invocation.Abides
  rooted : f.Rooted
  severed : f.Severed
  unstopped : f.Unstopped

end Fiber

namespace Snapshot

variable {engine : Engine γ} {asks : Controls.Wish → Prop} {s : Snapshot γ} {now : Moment}
  {game : γ} {run : Run}

theorem posture_moves {Q : List Invocation → Phase → Prop} (hfresh : run.Fresh)
    (hidle : Q [] (.ended (.ok false)))
    (hload : ∀ name routine, Q [.begin name routine Controls.root] .ready)
    (hstep : ∀ {t : Snapshot γ} {r}, Moves engine asks ⟨now, game, run⟩ t →
      Q t.run.fiber.stack t.run.fiber.phase →
      Fiber.SmallStep engine t.now t.game t.run.fiber r → Q r.2.stack r.2.phase)
    (h : Moves engine asks ⟨now, game, run⟩ s) : Q s.run.fiber.stack s.run.fiber.phase := by
  induction h with
  | refl =>
    cases hfresh with
    | routine => exact hload _ _
    | dialogue => exact hidle
  | tail hmoves hmove ih =>
    cases hmove with
    | lapse | wish => exact ih
    | work hwork =>
      cases ((orderly_moves (Run.orderly_fresh hfresh) hmoves).work hwork).2 with
      | finishes | talks => exact ih
      | plays hf => exact hstep hmoves ih (Fiber.smallStep_of_step? hf)
      | loads => exact hload _ _

theorem rooted_moves (hfresh : run.Fresh) (h : Moves engine asks ⟨now, game, run⟩ s) :
    s.run.fiber.Rooted := by
  refine posture_moves (Q := fun stack _ => ∀ inv ∈ stack, inv.frames ≠ [] →
    inv.routine.steps ≠ []) hfresh (fun _ hm => nomatch hm) (fun name routine inv hm => ?_)
    (fun hmoves hrooted hstep => ?_) h
  · obtain rfl := List.mem_singleton.mp hm
    exact fun hne => absurd rfl hne
  · exact Fiber.rooted_step hrooted (underway_moves (lasting_abides engine) hfresh hmoves) hstep

theorem unstopped_moves (hfresh : run.Fresh) (h : Moves engine asks ⟨now, game, run⟩ s) :
    s.run.fiber.Unstopped := by
  refine posture_moves (Q := fun _ phase => ∀ error, phase = .ended (.error error) →
    error ≠ .stopped) hfresh (fun _ hp => nomatch hp) (fun _ _ _ hp => nomatch hp)
    (fun hmoves _ hstep => ?_) h
  exact Fiber.unstopped_step (underway_moves (lasting_heeds engine) hfresh hmoves) hstep

theorem severed_moves (hfresh : run.Fresh) (h : Moves engine asks ⟨now, game, run⟩ s) :
    s.run.fiber.Severed := by
  induction h with
  | refl => cases hfresh <;> exact Fiber.severed_of_phase fun hp => nomatch hp
  | tail hmoves hmove ih =>
    have horderly := orderly_moves (Run.orderly_fresh hfresh) hmoves
    cases hmove with
    | lapse => exact ih
    | @wish w =>
      intro inv below hs hp
      have hgiven := horderly.grounded.governed.given inv.control (Fiber.mem_handles hs)
      exact Controls.holds_grant (Q := Lifecycle.Halted) (fun _ hl => hl.apply _) hgiven
        (ih inv below hs hp)
    | work hstep =>
      cases (horderly.work hstep).2 with
      | finishes result hempty =>
        intro inv below hs
        cases hempty.symm.trans hs
      | talks => exact ih
      | plays hf => exact Fiber.severed_step horderly.grounded.governed (Fiber.smallStep_of_step? hf)
      | loads => exact Fiber.severed_of_phase fun hp => nomatch hp

theorem proper_moves (hfresh : run.Fresh) (h : Moves engine asks ⟨now, game, run⟩ s) :
    s.run.fiber.Proper engine.rules.library s.run.name :=
  ⟨(orderly_moves (Run.orderly_fresh hfresh) h).grounded, nested_moves hfresh h,
    underway_moves (lasting_abides engine) hfresh h, rooted_moves hfresh h,
    severed_moves hfresh h, unstopped_moves hfresh h⟩

end Snapshot
end MacroEngine
