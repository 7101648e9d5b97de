import MacroEngine.Proofs.CourseSteps
import MacroEngine.Proofs.Handles
import MacroEngine.Run.Fiber

/-! What one small step of a fiber can do, and what it keeps of the lifecycles on its stack. -/
namespace MacroEngine

namespace Lifecycle

structure Kept (Q : Lifecycle → Prop) : Prop where
  started : Q .started
  boundary : ∀ l, Q l → Q (l.apply .loopBoundary)
  afterStep : ∀ l, Q l → Q l.afterStep

theorem kept_any : Kept fun _ => True := ⟨trivial, fun _ _ => trivial, fun _ _ => trivial⟩

end Lifecycle

def Scene.cross (client : Client γ) (now : Moment) (s : Scene γ) (crossing : Crossing) : Scene γ :=
  let s := (s.mark client now .crossed).mark client now (.frames crossing.frames)
  let s := match crossing.news with
    | some text => { s with game := client.echo s.game now text }.log now (.echoed text)
    | none => s
  s.mark client now .boundary

namespace Fiber

def handles (f : Fiber) : List Handle := f.stack.map Invocation.control

/-- The stack has live handles of its own, and their lifecycles have the property. -/
def Governed (Q : Lifecycle → Prop) (f : Fiber) : Prop := Controls.Governs Q f.handles f.controls

/-- A check is about to pause the macro for the user. -/
def Trips (f : Fiber) : Prop := ∃ reason next, f.phase = .busy (.doing (.mark (.held reason) next))

inductive SmallStep (engine : Engine γ) (now : Moment) (game : γ) (f : Fiber) :
    γ × Fiber → Prop where
  | halted {inv below} : f.stack = inv :: below → f.phase = .ready →
      f.controls.state inv.control = .stopped →
      SmallStep engine now game f (game, f.leave inv below true)
  | finished {inv below} : f.stack = inv :: below → f.phase = .ready →
      f.controls.state inv.control ≠ .stopped → inv.routine.get? inv.cursor = none →
      SmallStep engine now game f (finishSteps engine.client now game f inv below)
  | begun {inv below step} : f.stack = inv :: below → f.phase = .ready →
      f.controls.state inv.control ≠ .stopped → inv.routine.get? inv.cursor = some step →
      SmallStep engine now game f
        (game, { f with phase := .busy (.doing
          (Execution.step engine.rules f.chain inv.cursor inv.frames step)) })
  | moved {inv below course s course'} : f.stack = inv :: below → f.phase = .busy course →
      course.step? engine.means now (f.scene inv game) = some (s, course') →
      SmallStep engine now game f (s.game, { f.withScene inv below s with phase := .busy course' })
  | concluded {inv below course ending} : f.stack = inv :: below → f.phase = .busy course →
      course.end? = some ending →
      SmallStep engine now game f (conclude engine now game f inv below ending)

variable {engine : Engine γ} {now : Moment} {game game' : γ} {f f' : Fiber}
  {inv : Invocation} {below : List Invocation} {Q : Lifecycle → Prop}

theorem smallStep_of_step? (h : f.step? engine now game = some (game', f')) :
    SmallStep engine now game f (game', f') := by
  unfold step? at h
  split at h
  · rename_i inv below hs hp
    unfold begin? at h
    split at h
    · cases h
    · rename_i hstop
      cases h
      exact .halted hs hp hstop
    · rename_i hne hns
      split at h
      · rename_i hget
        rw [Option.some.injEq] at h
        exact h ▸ .finished hs hp (fun he => hns he) hget
      · rename_i step hget
        cases h
        exact .begun hs hp (fun he => hns he) hget
  · rename_i inv below course hs hp
    split at h
    · rename_i ending hend
      rw [Option.some.injEq] at h
      exact h ▸ .concluded hs hp hend
    · obtain ⟨moved, hc, he⟩ := Option.bind_eq_some_iff.mp h
      cases he
      exact .moved hs hp hc
  · cases h

theorem finishSteps_none (client : Client γ) (h : Frames.crossEnd inv.frames = none) :
    finishSteps client now game f inv below = (game, f.leave inv below false) := by
  simp only [finishSteps, h]

theorem finishSteps_some (client : Client γ) {crossing : Crossing}
    (h : Frames.crossEnd inv.frames = some crossing) :
    finishSteps client now game f inv below =
      let s := (f.scene inv game).cross client now crossing
      let f := f.withScene inv below s
      let inv := { inv with frames := crossing.frames }
      if crossing.again then
        (s.game, { f with stack := { inv with cursor := 0 } :: below, phase := .ready })
      else (s.game, f.leave inv below false) := by
  cases hnews : crossing.news <;> simp only [finishSteps, Scene.cross, h, hnews]

/-- At the end of the steps the invocation is over, or a loop leads back to the first step. -/
theorem finishSteps_cases {P : Fiber → Prop} (client : Client γ)
    (hdone : Frames.crossEnd inv.frames = none → P (f.leave inv below false))
    (hcross : ∀ crossing, Frames.crossEnd inv.frames = some crossing →
      let crossed := f.withScene inv below ((f.scene inv game).cross client now crossing)
      let inv := { inv with frames := crossing.frames }
      (crossing.again = true →
        P { crossed with stack := { inv with cursor := 0 } :: below, phase := .ready }) ∧
      (crossing.again = false → P (crossed.leave inv below false))) :
    P (finishSteps client now game f inv below).2 := by
  cases h : Frames.crossEnd inv.frames with
  | none =>
    rw [finishSteps_none client h]
    exact hdone h
  | some crossing =>
    rw [finishSteps_some client h]
    cases hagain : crossing.again with
    | true => simpa using (hcross crossing h).1 hagain
    | false => simpa using (hcross crossing h).2 hagain

/-- A failure is passed over, or ends all of the stack. -/
theorem handleFailure_cases {P : Fiber → Prop} (client : Client γ) (config : Config) {site : Site}
    {error : RunError}
    (hsoft : error.isSoft = true →
      let told := f.withScene inv below ((f.scene inv game).notify client now error.message)
      P (told.advance now inv below (inv.cursor + 1)) ∧ P (told.abort error))
    (hhard : P (f.abort error)) :
    P (handleFailure client config now game f inv below site error).2 := by
  unfold handleFailure
  split
  · obtain ⟨hpasses, hstops⟩ := hsoft ‹_›
    dsimp only
    split
    · exact hstops
    · exact hpasses
  · exact hhard

theorem cross_control (client : Client γ) (now : Moment) (s : Scene γ) (crossing : Crossing) :
    (s.cross client now crossing).control = s.control.apply .loopBoundary := by
  unfold Scene.cross
  cases crossing.news <;> rfl

theorem cross_crossings (client : Client γ) (now : Moment) (s : Scene γ) (crossing : Crossing) :
    (s.cross client now crossing).crossings = s.crossings + 1 := by
  unfold Scene.cross
  cases crossing.news <;> rfl

/-- After a failure no step is under way. -/
theorem handleFailure_phase (client : Client γ) (config : Config) (now : Moment) (game : γ)
    (f : Fiber) (inv : Invocation) (below : List Invocation) (site : Site) (error : RunError)
    (c : Course Flow) :
    (handleFailure client config now game f inv below site error).2.phase ≠ .busy c := by
  intro hp
  unfold handleFailure at hp
  split at hp
  · dsimp only at hp
    split at hp <;> cases hp
  · cases hp

theorem governed_withScene {s : Scene γ} (hf : f.Governed Q) (hs : f.stack = inv :: below)
    (hq : Q s.control) : (f.withScene inv below s).Governed Q := by
  have hh : (f.withScene inv below s).handles = f.handles := by simp [handles, withScene, hs]
  unfold Governed
  rw [hh]
  exact hf.set fun _ => hq

theorem governed_head (hf : f.Governed Q) (hs : f.stack = inv :: below) :
    Q (f.controls.lifecycle inv.control) :=
  hf.holds inv.control (by simp [handles, hs])

theorem complete_controls (f : Fiber) (now : Moment) (inv : Invocation) :
    (f.complete now inv).controls = f.controls := by
  unfold complete
  split <;> rfl

theorem complete_stack (f : Fiber) (now : Moment) (inv : Invocation) :
    (f.complete now inv).stack = f.stack := by
  unfold complete
  split <;> rfl

theorem governed_advance (hQ : ∀ l, Q l → Q l.afterStep) (hf : f.Governed Q)
    (hs : f.handles = inv.control :: below.map Invocation.control) (now : Moment) (target : Nat) :
    (f.advance now inv below target).Governed Q := by
  have hq : Q (f.controls.lifecycle inv.control) := hf.holds inv.control (by simp [hs])
  have hh : (f.advance now inv below target).handles = f.handles := by
    rw [hs]
    simp [handles, advance]
  unfold Governed
  rw [hh]
  exact hf.set fun _ => hQ _ hq

theorem governed_leave (hf : f.Governed Q)
    (hs : f.handles = inv.control :: below.map Invocation.control)
    (stopped : Bool) : (f.leave inv below stopped).Governed Q := by
  cases below with
  | nil => exact Controls.Governs.empty _
  | cons parent rest =>
    unfold Governed at hf
    rw [hs] at hf
    exact hf.retire

theorem governed_enter (hQ : Lifecycle.Kept Q) (hf : f.Governed Q) (hs : f.stack = inv :: below)
    (name : String) (routine : Routine) (wait : WaitSpan) :
    (f.enter inv below name routine wait).Governed Q := by
  have hh : (f.enter inv below name routine wait).handles = f.controls.nextHandle :: f.handles := by
    simp [handles, enter, Invocation.begin, hs]
  unfold Governed
  rw [hh]
  exact hf.enter hQ.started name

theorem governed_abort (f : Fiber) (error : RunError) : (f.abort error).Governed Q :=
  Controls.Governs.empty _

theorem governed_finishSteps (hQ : Lifecycle.Kept Q) (hf : f.Governed Q)
    (hs : f.stack = inv :: below) (client : Client γ) (now : Moment) (game : γ) :
    (finishSteps client now game f inv below).2.Governed Q := by
  have hh : f.handles = inv.control :: below.map Invocation.control := by simp [handles, hs]
  cases hcross : Frames.crossEnd inv.frames with
  | none =>
    rw [finishSteps_none client hcross]
    exact governed_leave hf hh false
  | some crossing =>
    rw [finishSteps_some client hcross]
    have hq : Q ((f.scene inv game).cross client now crossing).control := by
      rw [cross_control]
      exact hQ.boundary _ (governed_head hf hs)
    dsimp only
    split
    · exact governed_withScene hf hs hq
    · exact governed_leave (governed_withScene hf hs hq) rfl false

theorem governed_conclude (hQ : Lifecycle.Kept Q) (hf : f.Governed Q)
    (hs : f.stack = inv :: below) (engine : Engine γ) (now : Moment) (game : γ)
    (ending : Course.End Flow) : (conclude engine now game f inv below ending).2.Governed Q := by
  have hh : f.handles = inv.control :: below.map Invocation.control := by simp [handles, hs]
  match ending with
  | .value .next => exact governed_advance hQ.afterStep hf hh now _
  | .value (.jump target) => exact governed_advance hQ.afterStep hf hh now target
  | .value .finish =>
    have hc : (f.complete now inv).Governed Q := by
      simpa only [Governed, handles, complete_stack, complete_controls] using hf
    exact governed_leave hc (by simpa only [handles, complete_stack] using hh) false
  | .value (.enter name routine wait) => exact governed_enter hQ hf hs name routine wait
  | .interrupted => exact governed_leave hf hh true
  | .failure site error =>
    change (handleFailure engine.client engine.rules.config now game f inv below site
      error).2.Governed Q
    have hq := governed_head hf hs
    unfold handleFailure
    split
    · dsimp only
      split
      · exact governed_abort _ error
      · exact governed_advance hQ.afterStep (governed_withScene hf hs hq) rfl now _
    · exact governed_abort _ error

end Fiber

/-- What a course does to the lifecycle of its invocation. -/
theorem Course.control_step? {Q : Lifecycle → Prop} {means : Means γ} {now : Moment}
    {s s' : Scene γ} {c c' : Course α} (hQ : Lifecycle.Kept Q)
    (hp : (∀ l, Q l → Q (l.apply .pause)) ∨ ∀ reason next, c ≠ .doing (.mark (.held reason) next))
    (hs : Q s.control) (h : c.step? means now s = some (s', c')) : Q s'.control := by
  cases smallStep_of_step? h with
  | @mark m next =>
    cases m with
    | crossed | frames => exact hs
    | boundary => exact hQ.boundary _ hs
    | held reason => exact hp.elim (fun hp => hp _ hs) fun hn => absurd rfl (hn reason next)
  | _ => exact hs

namespace Fiber

variable {engine : Engine γ} {now : Moment} {game game' : γ} {f f' : Fiber}
  {Q : Lifecycle → Prop}

/-- A step keeps what requests by the fiber itself keep. The pause of a tripped check is the only
one of them that a fiber does not make while it runs freely. -/
theorem governed_step? (hQ : Lifecycle.Kept Q)
    (hp : (∀ l, Q l → Q (l.apply .pause)) ∨ ¬ f.Trips) (hf : f.Governed Q)
    (h : f.step? engine now game = some (game', f')) : f'.Governed Q := by
  generalize hr : (game', f') = r
  have hstep := smallStep_of_step? h
  rw [hr] at hstep
  suffices hg : r.2.Governed Q by rwa [← hr] at hg
  cases hstep with
  | halted hs hphase hstop => exact governed_leave hf (by simp [handles, hs]) true
  | finished hs => exact governed_finishSteps hQ hf hs _ _ _
  | begun => exact hf
  | moved hs hphase hc =>
    have hq := Course.control_step? hQ
      (hp.imp_right fun ht reason next he => ht ⟨reason, next, hphase.trans (he ▸ rfl)⟩)
      (governed_head hf hs) hc
    exact governed_withScene hf hs hq
  | concluded hs => exact governed_conclude hQ hf hs _ _ _ _

end Fiber
end MacroEngine
