import MacroEngine.Proofs.CourseSteps
import MacroEngine.Proofs.Passage

/-! What an activity does to the frames and crossings of its invocation, and what it ends in,
whatever the game answers. An activity that fails or is cut short promises nothing. -/
namespace MacroEngine

namespace Activity

variable {post post' : List Frame → Nat → α → Prop} {frames : List Frame} {n : Nat}

/-- Wherever the activity ends in a value, the frames, the crossings and the value satisfy
`post`. -/
def Ensures (post : List Frame → Nat → α → Prop) : Activity α → List Frame → Nat → Prop
  | .done value, frames, n => post frames n value
  | .fail _ _, _, _ => True
  | .look next, frames, n => ∀ view, (next view).Ensures post frames n
  | .issue _ next, frames, n => ∀ reply, (next reply).Ensures post frames n
  | .perform _ next, frames, n => ∀ reply, (next reply).Ensures post frames n
  | .echo _ next, frames, n => next.Ensures post frames n
  | .mark .crossed next, frames, n => next.Ensures post frames (n + 1)
  | .mark (.frames frames) next, _, n => next.Ensures post frames n
  | .mark .boundary next, frames, n => next.Ensures post frames n
  | .mark (.held _) next, frames, n => next.Ensures post frames n
  | .pause _ next, frames, n => next.Ensures post frames n
  | .await _ _ next, frames, n => ∀ met, (next met).Ensures post frames n

/-- A promise carries over from one start to another if marks keep a relation between the two
under which the values that satisfy the one satisfy the other. -/
theorem Ensures.carry {R : List Frame → Nat → List Frame → Nat → Prop}
    (hcrossed : ∀ {frames n frames' n'}, R frames n frames' n' → R frames (n + 1) frames' (n' + 1))
    (hframes : ∀ {frames n frames' n'}, R frames n frames' n' → ∀ given, R given n given n')
    (hpost : ∀ {frames n frames' n'}, R frames n frames' n' →
      ∀ value, post frames n value → post' frames' n' value) (a : Activity α) :
    ∀ {frames n frames' n'}, R frames n frames' n' → a.Ensures post frames n →
      a.Ensures post' frames' n' := by
  induction a with
  | done value => exact fun hR ha => hpost hR value ha
  | fail => exact fun _ _ => trivial
  | look next ih | issue action next ih | perform order next ih | await holds limit next ih =>
    exact fun hR ha x => ih x hR (ha x)
  | echo text next ih | pause span next ih => exact fun hR ha => ih hR ha
  | mark m next ih =>
    intro _ _ _ _ hR ha
    cases m with
    | crossed => exact ih (hcrossed hR) ha
    | frames given => exact ih (hframes hR given) ha
    | boundary | held => exact ih hR ha

theorem ensures_mono (h : ∀ frames n value, post frames n value → post' frames n value)
    (a : Activity α) {frames : List Frame} {n : Nat} (ha : a.Ensures post frames n) :
    a.Ensures post' frames n := by
  refine ha.carry (R := fun frames n frames' n' => frames' = frames ∧ n' = n) ?_ ?_ ?_ a ⟨rfl, rfl⟩
  · rintro _ _ _ _ ⟨rfl, rfl⟩
    exact ⟨rfl, rfl⟩
  · rintro _ _ _ _ ⟨_, rfl⟩ given
    exact ⟨rfl, rfl⟩
  · rintro frames n _ _ ⟨rfl, rfl⟩
    exact h _ _

/-- A promise about the frames and the value does not depend on the crossings. -/
theorem ensures_uncounted {post : List Frame → α → Prop} (a : Activity α) {frames : List Frame}
    {n : Nat} (ha : a.Ensures (fun frames _ value => post frames value) frames n) (n' : Nat) :
    a.Ensures (fun frames _ value => post frames value) frames n' := by
  refine ha.carry (R := fun frames _ frames' _ => frames' = frames) id (fun _ _ => rfl) ?_ a rfl
  rintro _ _ _ _ rfl _ hvalue
  exact hvalue

/-- A promise about the value alone does not depend on where the activity begins. -/
theorem ensures_value {P : α → Prop} (a : Activity α) {frames : List Frame} {n : Nat}
    (ha : a.Ensures (fun _ _ value => P value) frames n) (frames' : List Frame) (n' : Nat) :
    a.Ensures (fun _ _ value => P value) frames' n' := by
  refine ha.carry (R := fun _ _ _ _ => True) id (fun _ _ => trivial) ?_ a trivial
  exact fun _ _ hvalue => hvalue

theorem inherited_ensures (post : List Frame → Nat → α → Prop) :
    Inherited (fun _ => True) fun frames n a => a.Ensures post frames n := by
  intro frames n a frames' n' b hnext ha
  cases hnext with
  | look | issue | perform | await => exact ha _
  | echo | crossed | frames | boundary | held | pause => exact ha

theorem ensures_bind (a : Activity α) (f : α → Activity β) {post : List Frame → Nat → β → Prop} :
    ∀ {frames n}, (a.bind f).Ensures post frames n ↔
      a.Ensures (fun frames n value => (f value).Ensures post frames n) frames n := by
  induction a with
  | done | fail => exact Iff.rfl
  | look next ih | issue action next ih | perform order next ih | await holds limit next ih =>
    exact forall_congr' fun x => ih x
  | echo text next ih | pause span next ih => exact ih
  | mark m next ih => cases m <;> exact ih

end Activity

/-- The promise of the activity that a course still has to do, if nobody stopped it. -/
def Course.Ensures (post : List Frame → Nat → α → Prop) (frames : List Frame) (n : Nat)
    (c : Course α) : Prop :=
  c.Lifts False (fun frames n a => a.Ensures post frames n) frames n

/-- A small step of a course keeps its promise unless the invocation is stopped. -/
theorem Course.ensures_step? {post : List Frame → Nat → α → Prop} {means : Means γ} {now : Moment}
    {s s' : Scene γ} {c c' : Course α} (hs : s.control.state ≠ .stopped)
    (hc : c.Ensures post s.frames s.crossings) (h : c.step? means now s = some (s', c')) :
    c'.Ensures post s'.frames s'.crossings :=
  Lifts.step? (Activity.inherited_ensures post) trivial hs hc h

theorem Course.end?_of_step? {means : Means γ} {now : Moment} {s s' : Scene γ} {c c' : Course α}
    (h : c.step? means now s = some (s', c')) : c.end? = none := by
  cases smallStep_of_step? h <;> rfl

def Course.End.course : Course.End α → Course α
  | .value v => .doing (.done v)
  | .failure site error => .doing (.fail site error)
  | .interrupted => .interrupted

theorem Course.eq_of_end? {c : Course α} {ending : Course.End α} (h : c.end? = some ending) :
    c = ending.course := by
  unfold end? at h
  split at h <;> cases h <;> rfl

theorem Course.ensures_end {post : List Frame → Nat → α → Prop} {frames : List Frame} {n : Nat}
    {c : Course α} {ending : Course.End α} (hc : c.Ensures post frames n)
    (h : c.end? = some ending) :
    (∃ value, ending = .value value ∧ post frames n value) ∨
      ∃ site error, ending = .failure site error ∧ c = .doing (.fail site error) := by
  unfold end? at h
  split at h
  · cases h; exact .inl ⟨_, rfl, hc⟩
  · cases h; exact .inr ⟨_, _, rfl, rfl⟩
  · exact hc.elim
  · cases h

namespace Execution
open Activity

variable {frames : List Frame} {n : Nat}

/-- Frames and crossings are as they were, and the next step comes next. -/
def Passes (frames : List Frame) (n : Nat) : List Frame → Nat → Flow → Prop :=
  fun frames' n' flow => frames' = frames ∧ n' = n ∧ flow = .next

theorem ensures_attempt (action : String) (ackTimeout : Duration) (left : Nat) :
    ∀ used, (Retry.attempt action ackTimeout used left).Ensures
      (fun frames' n' _ => frames' = frames ∧ n' = n) frames n := by
  induction left with
  | zero => exact fun used => ⟨rfl, rfl⟩
  | succ left ih =>
    intro used reply
    cases reply with
    | error e => exact ⟨rfl, rfl⟩
    | ok ticket =>
      intro met
      cases met with
      | true => exact ⟨rfl, rfl⟩
      | false => exact ih (used + 1)

theorem ensures_issue (maxRetries : Nat) (ackTimeout : Duration) (action : String)
    (unconfirmed : Bool) : (Retry.issue maxRetries ackTimeout action unconfirmed).Ensures
      (fun frames' n' _ => frames' = frames ∧ n' = n) frames n := by
  unfold Retry.issue
  split
  · intro reply
    cases reply <;> exact ⟨rfl, rfl⟩
  · exact ensures_attempt action ackTimeout _ 0

theorem ensures_act (config : Config) (line : Nat) (eff : Effective) (name : String) :
    (act config line eff name).Ensures (Passes frames n) frames n := by
  intro view
  dsimp only
  by_cases hskip : skips config eff.condition name view
  · rw [if_pos hskip]
    exact ⟨rfl, rfl, rfl⟩
  · rw [if_neg hskip]
    apply (ensures_bind _ _).mpr
    apply ensures_mono _ _ (ensures_issue config.maxRetries config.ackTimeout name eff.unconfirmed)
    rintro _ _ outcome ⟨rfl, rfl⟩
    cases outcome with
    | refused | exhausted => trivial
    | success =>
      dsimp only
      split
      · exact fun _ => ⟨rfl, rfl, rfl⟩
      · exact ⟨rfl, rfl, rfl⟩

theorem ensures_orderly (line : Nat) (site : GameError → Site) (wait : WaitSpan) (order : Order) :
    (orderly line site wait order).Ensures (Passes frames n) frames n := by
  intro reply
  cases reply with
  | ok => exact ⟨rfl, rfl, rfl⟩
  | error => trivial

theorem ensures_check (reason : String) (wait : WaitSpan) (trips : View → Bool) :
    (check reason wait trips).Ensures (Passes frames n) frames n := by
  intro view
  dsimp only
  split <;> exact ⟨rfl, rfl, rfl⟩

theorem ensures_waitAddon (line : Nat) (eff : Effective) (name : String) :
    (waitAddon line eff name).Ensures (Passes frames n) frames n := by
  intro met
  cases met with
  | true => exact ⟨rfl, rfl, rfl⟩
  | false => exact fun _ => trivial

theorem ensures_tell (wanted : Bool) (news : Option String) :
    (tell wanted news).Ensures (fun frames' n' _ => frames' = frames ∧ n' = n) frames n := by
  unfold tell
  split <;> exact ⟨rfl, rfl⟩

/-- Where a step leads that is completed. Running another macro enters one that the library has
and that is not under way; every other step goes by its transit. -/
def Leads (rules : Rules) (chain : List String) (index : Nat) (frames : List Frame) (n : Nat)
    (step : Step) : List Frame → Nat → Flow → Prop := fun frames' n' flow =>
  let t := step.transit rules.config index frames
  frames' = t.frames ∧ n' = n + t.crossed ∧
    match step.command with
    | .runMacro name => ∃ routine wait, flow = .enter name routine wait ∧
        rules.library.native name = .ok routine ∧ ∀ other ∈ chain, ¬ sameName other name
    | _ => flow = t.flow

theorem Leads.enter {rules : Rules} {chain : List String} {index : Nat} {step : Step}
    {frames' : List Frame} {n' : Nat} {name : String} {routine : Routine} {wait : WaitSpan}
    (h : Leads rules chain index frames n step frames' n' (.enter name routine wait)) :
    step.command = .runMacro name := by
  have hflow := h.2.2
  split at hflow
  · rename_i called hc
    obtain ⟨_, _, henter, _⟩ := hflow
    cases henter
    exact hc
  · exact absurd hflow.symm (Step.transit_ne_enter _ _ _ _ _ _ _)

theorem ensures_gate (index count : Nat) (eff : Effective) :
    (gate index count eff frames).Ensures (fun frames' n' flow =>
      let crossing := Frames.crossGate index count eff.echo frames
      frames' = crossing.frames ∧ n' = n + 1 ∧ flow = if crossing.again then .next else .finish)
      frames n := by
  apply (ensures_bind (tell _ _) _).mpr
  apply ensures_mono _ _ (ensures_tell _ _)
  rintro _ _ _ ⟨rfl, rfl⟩
  change (if (Frames.crossGate index count eff.echo frames).again then
    Activity.pause eff.wait (.done Flow.next) else .done Flow.finish).Ensures _ _ _
  split
  · exact ⟨rfl, rfl, (if_pos ‹_›).symm⟩
  · exact ⟨rfl, rfl, (if_neg ‹_›).symm⟩

theorem ensures_loop (config : Config) (index : Nat) (count : LoopCount) (eff : Effective)
    (step : Step) (hc : step.command = .loop count) (he : eff.echo = step.echoes config) :
    (loop config index count eff frames).Ensures (fun frames' n' flow =>
      let t := step.transit config index frames
      frames' = t.frames ∧ n' = n + t.crossed ∧ flow = t.flow) frames n := by
  unfold loop Step.transit
  rw [hc, ← he]
  by_cases hi : index = 0
  · by_cases hz : count = .finite 0
    · simp only [hi, hz, if_true]
      apply (ensures_bind (tell _ _) _).mpr
      apply ensures_mono _ _ (ensures_tell _ _)
      rintro _ _ _ ⟨rfl, rfl⟩
      exact ⟨rfl, rfl, rfl⟩
    · simp only [hi, hz, if_true, if_false]
      exact ⟨rfl, rfl, rfl⟩
  · simp only [hi, if_false]
    apply (ensures_bind (tell _ _) _).mpr
    apply ensures_mono _ _ (ensures_tell _ _)
    rintro _ _ _ ⟨rfl, rfl⟩
    exact ⟨rfl, rfl, rfl⟩

theorem ensures_demand (line : Nat) (site : Site) (what : String) (limit : Duration)
    (holds : View → Bool) : (demand line site what limit holds).Ensures
      (fun frames' n' _ => frames' = frames ∧ n' = n) frames n := by
  intro met
  cases met with
  | true => exact ⟨rfl, rfl⟩
  | false => trivial

theorem ensures_enter (library : Library) (chain : List String) (eff : Effective) (name : String) :
    (enter library chain eff name).Ensures (fun frames' n' flow => frames' = frames ∧ n' = n ∧
      ∃ routine wait, flow = .enter name routine wait ∧ library.native name = .ok routine ∧
        ∀ other ∈ chain, ¬ sameName other name) frames n := by
  unfold enter
  split
  · trivial
  · rename_i hchain
    split
    · trivial
    · rename_i routine hlib
      exact ⟨rfl, rfl, routine, eff.wait, rfl, hlib,
        fun other hm hsame => hchain (List.any_eq_true.mpr ⟨other, hm, hsame⟩)⟩

theorem ensures_plain (rules : Rules) (chain : List String) (index : Nat) {step : Step}
    (eff : Effective) (h : ¬ step.command.Steers) :
    (command rules chain index frames step eff).Ensures (Passes frames n) frames n := by
  have hdemand : ∀ (site : Site) (what : String) (holds : View → Bool),
      ((demand step.line site what eff.maxWait holds).bind fun _ =>
        .pause eff.wait (.done .next)).Ensures (Passes frames n) frames n := by
    intro site what holds
    apply (ensures_bind _ _).mpr
    apply ensures_mono _ _ (ensures_demand _ _ _ _ _)
    rintro _ _ _ ⟨rfl, rfl⟩
    exact ⟨rfl, rfl, rfl⟩
  unfold command
  cases hc : step.command with
  | craft | loop | runMacro => exact absurd (hc ▸ trivial) h
  | action name => exact ensures_act _ _ _ _
  | click | recipe | item | send | hold | release | target | native =>
    exact ensures_orderly _ _ _ _
  | require | requireQuality | requireStats => exact hdemand _ _ _
  | requireRepair | requireSpiritbond => exact ensures_check _ _ _
  | waitAddon => exact ensures_waitAddon _ _ _
  | wait | echo => exact ⟨rfl, rfl, rfl⟩

theorem ensures_command (rules : Rules) (chain : List String) (index : Nat) (step : Step)
    (eff : Effective) (he : eff.echo = step.echoes rules.config) :
    (command rules chain index frames step eff).Ensures (Leads rules chain index frames n step)
      frames n := by
  by_cases h : step.command.Steers
  · unfold command
    cases hc : step.command with
    | craft count =>
      refine ensures_mono ?_ _ (ensures_gate index count eff)
      rintro _ _ _ ⟨rfl, rfl, rfl⟩
      simp [Leads, Step.transit, hc, he]
    | loop count =>
      refine ensures_mono ?_ _ (ensures_loop rules.config index count eff step hc he)
      rintro _ _ _ ⟨rfl, rfl, rfl⟩
      simp [Leads, hc]
    | runMacro name =>
      refine ensures_mono ?_ _ (ensures_enter rules.library chain eff name)
      rintro _ _ _ ⟨rfl, rfl, hflow⟩
      simpa [Leads, Step.transit, hc] using hflow
    | _ => rw [hc] at h; exact h.elim
  · refine ensures_mono ?_ _ (ensures_plain rules chain index eff h)
    rintro _ _ _ ⟨rfl, rfl, rfl⟩
    unfold Leads
    rw [Step.transit_plain h]
    refine ⟨rfl, rfl, ?_⟩
    split
    · rename_i name hc
      exact absurd (hc ▸ trivial) h
    · rfl

theorem ensures_step (rules : Rules) (chain : List String) (index : Nat) (step : Step) :
    (Execution.step rules chain index frames step).Ensures
      (Leads rules chain index frames n step) frames n := by
  intro view
  dsimp only
  split
  · trivial
  · rename_i eff hr
    exact ensures_command rules chain index step eff (resolve_echo hr)

end Execution
end MacroEngine
