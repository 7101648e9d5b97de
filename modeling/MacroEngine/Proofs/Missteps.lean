import MacroEngine.Proofs.Courses

/-! Where a step leads that may fail. Only plain steps fail with a soft error, and these leave the
frames alone: a step that is passed over has gone where its transit leads. -/
namespace MacroEngine

namespace Activity

variable {E E' : List Frame → RunError → Prop} {frames : List Frame}

/-- Wherever the activity fails, the frames and the error satisfy `E`. -/
def Errs (E : List Frame → RunError → Prop) : Activity α → List Frame → Prop
  | .done _, _ => True
  | .fail _ error, frames => E frames error
  | .look next, frames => ∀ view, (next view).Errs E frames
  | .issue _ next, frames => ∀ reply, (next reply).Errs E frames
  | .perform _ next, frames => ∀ reply, (next reply).Errs E frames
  | .echo _ next, frames => next.Errs E frames
  | .mark (.frames frames) next, _ => next.Errs E frames
  | .mark .crossed next, frames => next.Errs E frames
  | .mark .boundary next, frames => next.Errs E frames
  | .mark (.held _) next, frames => next.Errs E frames
  | .pause _ next, frames => next.Errs E frames
  | .await _ _ next, frames => ∀ met, (next met).Errs E frames

theorem errs_mono (h : ∀ frames error, E frames error → E' frames error) (a : Activity α) :
    ∀ {frames}, a.Errs E frames → a.Errs E' frames := by
  induction a with
  | done => exact fun _ => trivial
  | fail => exact fun ha => h _ _ ha
  | look next ih | issue action next ih | perform order next ih | await holds limit next ih =>
    exact fun ha x => ih x (ha x)
  | echo text next ih | pause span next ih => exact fun ha => ih ha
  | mark m next ih => cases m <;> exact fun ha => ih ha

theorem errs_of_within {p : Order → Prop} {q : Mark → Prop}
    (hq : ∀ frames, ¬ q (.frames frames)) (a : Activity α) (ha : a.Within p q) :
    a.Errs (fun frames' _ => frames' = frames) frames := by
  induction a with
  | done => trivial
  | fail => rfl
  | look next ih | issue action next ih | await holds limit next ih => exact fun x => ih x (ha x)
  | perform order next ih => exact fun reply => ih reply (ha.2 reply)
  | echo text next ih | pause span next ih => exact ih ha
  | mark m next ih =>
    cases m with
    | frames frames => exact absurd ha.1 (hq frames)
    | crossed | boundary | held => exact ih ha.2

theorem inherited_errs (E : List Frame → RunError → Prop) :
    Inherited (fun _ => True) fun frames _ (a : Activity α) => a.Errs E frames := by
  intro frames n a frames' n' b hnext ha
  cases hnext with
  | look | issue | perform | await => exact ha _
  | echo | crossed | frames | boundary | held | pause => exact ha

end Activity

namespace Course

variable {E : List Frame → RunError → Prop} {post : List Frame → α → Prop}
  {frames : List Frame}

def Errs (E : List Frame → RunError → Prop) (frames : List Frame) (c : Course α) : Prop :=
  c.Lifts True (fun frames _ a => a.Errs E frames) frames 0

theorem errs_step? {means : Means γ} {now : Moment} {s s' : Scene γ} {c c' : Course α}
    (hc : c.Errs E s.frames) (h : c.step? means now s = some (s', c')) : c'.Errs E s'.frames :=
  Lifts.step? (Activity.inherited_errs E) trivial (fun _ => trivial) hc h

theorem ensures_uncounted {c : Course α} {n : Nat}
    (hc : c.Ensures (fun frames _ value => post frames value) frames n) (n' : Nat) :
    c.Ensures (fun frames _ value => post frames value) frames n' := by
  cases c with
  | doing a => exact a.ensures_uncounted hc n'
  | waiting wait holds next => exact fun met => (next met).ensures_uncounted (hc met) n'
  | interrupted => exact hc

end Course

namespace Execution
open Activity

variable {E : List Frame → RunError → Prop} {frames : List Frame}

theorem errs_tell (wanted : Bool) (news : Option String) {f : Unit → Activity Flow}
    (hf : ∀ x, (f x).Errs E frames) : ((tell wanted news).bind f).Errs E frames := by
  unfold tell
  split
  · exact hf ()
  · exact hf ()

theorem errs_gate (index count : Nat) (eff : Effective) (frames' : List Frame) :
    (gate index count eff frames').Errs E frames := by
  refine errs_tell _ _ fun _ => ?_
  change Activity.Errs E (if _ then _ else _) _
  split <;> trivial

theorem errs_loop (config : Config) (index : Nat) (count : LoopCount) (eff : Effective)
    (frames' : List Frame) : (loop config index count eff frames').Errs E frames := by
  unfold loop
  by_cases hi : index = 0
  · simp only [hi, if_true]
    by_cases hz : count = .finite 0
    · simp only [hz, if_true]
      exact errs_tell _ _ fun _ => trivial
    · simp only [hz, if_false]
      trivial
  · simp only [hi, if_false]
    exact errs_tell _ _ fun _ => trivial

theorem errs_enter (hE : ∀ error, error.isSoft = false → E frames error) (library : Library)
    (chain : List String) (eff : Effective) (name : String) :
    (enter library chain eff name).Errs E frames := by
  unfold enter
  split
  · exact hE _ rfl
  · split
    · exact hE _ rfl
    · trivial

theorem errs_command (rules : Rules) (chain : List String) (index : Nat) (step : Step)
    (eff : Effective) : (command rules chain index frames step eff).Errs (fun frames' error =>
      error.isSoft → frames' = frames ∧ ¬ step.command.Steers) frames := by
  by_cases h : step.command.Steers
  · unfold command
    cases hc : step.command with
    | craft => exact errs_gate _ _ _ _
    | loop => exact errs_loop _ _ _ _ _
    | runMacro => exact errs_enter (fun error hhard hsoft => by simp [hhard] at hsoft) _ _ _ _
    | _ => rw [hc] at h; exact h.elim
  · refine errs_mono (fun _ _ hsame _ => ⟨hsame, h⟩) _ (errs_of_within (fun frames' hm => ?_) _
      (within_command rules chain index frames step eff))
    cases hc : step.command with
    | craft | loop => exact h (hc ▸ trivial)
    | requireRepair | requireSpiritbond =>
      rw [hc] at hm
      obtain ⟨_, he⟩ := hm
      cases he
    | _ => rw [hc] at hm; exact hm

theorem errs_step (rules : Rules) (chain : List String) (index : Nat) (step : Step) :
    (Execution.step rules chain index frames step).Errs (fun frames' error =>
      error.isSoft → frames' = frames ∧ ¬ step.command.Steers) frames := by
  intro view
  dsimp only
  split
  · exact fun hsoft => by cases hsoft
  · exact errs_command rules chain index step _

end Execution

/-- The course of a step goes where the transit of the step leads from some frames, also when it
fails with a soft error. If it is `entering`, it may lead into another macro first. -/
structure Course.Treads (config : Config) (library : Library) (index : Nat) (start : List Frame)
    (step : Step) (entering : Prop) (frames : List Frame) (c : Course Flow) : Prop where
  values : c.Ensures (fun frames' _ flow =>
    let t := step.transit config index start
    frames' = t.frames ∧ (flow = t.flow ∨ entering ∧ ∃ name routine wait,
      flow = .enter name routine wait ∧ step.command = .runMacro name ∧
        library.native name = .ok routine)) frames 0
  errors : c.Errs (fun frames' error => error.isSoft →
    step.transit config index start = ⟨frames', 0, .next⟩) frames

namespace Course

variable {config : Config} {library : Library} {index : Nat} {start frames : List Frame}
  {step : Step} {entering : Prop} {c : Course Flow}

theorem treads_step (rules : Rules) (chain : List String) (index : Nat) (start : List Frame)
    (step : Step) : Treads rules.config rules.library index start step True start
      (.doing (Execution.step rules chain index start step)) where
  values := by
    refine Activity.ensures_mono ?_ _ (Execution.ensures_step rules chain index step (n := 0))
    rintro _ _ flow ⟨hframes, _, hflow⟩
    refine ⟨hframes, ?_⟩
    split at hflow
    · rename_i name hc
      obtain ⟨routine, wait, rfl, hlib, _⟩ := hflow
      exact .inr ⟨trivial, name, routine, wait, rfl, hc, hlib⟩
    · exact .inl hflow
  errors := by
    refine Activity.errs_mono ?_ _ (Execution.errs_step rules chain index step)
    intro _ error h hsoft
    obtain ⟨rfl, hplain⟩ := h hsoft
    exact Step.transit_plain hplain _ _ _

/-- Back from the macro that it ran, a step only waits. -/
theorem treads_resumed {name : String} (hc : step.command = .runMacro name) (span : WaitSpan) :
    Treads config library index start step False start (.doing (.pause span (.done .next))) where
  values := by
    rw [Step.transit_runMacro hc]
    exact ⟨rfl, .inl rfl⟩
  errors := trivial

theorem keeps_treads (means : Means γ) : Keeps means
    (Treads config library index start step entering) := by
  intro now s s' c c' hs hc h
  constructor
  · have hne : s.control.state ≠ .stopped := by rw [hs]; decide
    exact ensures_uncounted (ensures_step? hne (ensures_uncounted hc.values _) h) 0
  · exact errs_step? hc.errors h

/-- What such a course comes to. -/
theorem Treads.ending {ending : End Flow}
    (hc : c.Treads config library index start step entering frames) (h : c.end? = some ending) :
    let t := step.transit config index start
    (ending = .value t.flow ∧ frames = t.frames) ∨
    (entering ∧ frames = start ∧ ∃ name routine wait, ending = .value (.enter name routine wait) ∧
      step.command = .runMacro name ∧ library.native name = .ok routine) ∨
    ∃ site error, ending = .failure site error ∧
      (error.isSoft → t = ⟨frames, 0, .next⟩) := by
  intro t
  rcases ensures_end hc.values h with ⟨flow, rfl, hframes, hflow⟩ | ⟨site, error, rfl, rfl⟩
  · rcases hflow with rfl | ⟨hentering, name, routine, wait, rfl, hcommand, hlib⟩
    · exact .inl ⟨rfl, hframes⟩
    · rw [Step.transit_runMacro hcommand] at hframes
      exact .inr (.inl ⟨hentering, hframes, name, routine, wait, rfl, hcommand, hlib⟩)
  · exact .inr (.inr ⟨site, error, rfl, hc.errors⟩)

end Course
end MacroEngine
