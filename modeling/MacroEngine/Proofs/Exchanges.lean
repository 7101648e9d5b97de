import MacroEngine.Proofs.Effects
import MacroEngine.Proofs.Progress
import MacroEngine.Proofs.Shifts

/-! Runs of all kinds. A run of a script has its bridge beside the fiber: the fiber has a stack
only while a line of the script is served, and the script then waits for its reply. -/
namespace MacroEngine

/-- While the script speaks, none of its lines is under way; and never is more than one. -/
structure Bridge.Fair (b : Bridge) : Prop where
  speaking : ∀ dialogue, b.speaker = .speaking dialogue → b.request = none ∧ b.serving = none
  single : b.request = none ∨ b.serving = none

namespace Bridge

variable {b b' : Bridge} {f f' : Fiber} {client : Client γ} {now : Moment} {game : γ}

theorem Fair.of_awaiting {next : Option RunError → Dialogue} (hb : b.speaker = .awaiting next)
    (hsingle : b.request = none ∨ b.serving = none) : b.Fair :=
  ⟨fun dialogue hd => (by rw [hb] at hd; cases hd), hsingle⟩

/-- What a script says changes nothing on the other side but the journal. -/
theorem Fair.speak (hb : b.Fair) (h : b.speak? client now game f = some (f', b')) :
    b'.Fair ∧ b'.serving = b.serving ∧ ∃ journal, f' = { f with journal := journal } := by
  unfold speak? at h
  split at h
  · cases h
  · cases h
  · rename_i line next hspeaker
    split at h
    · cases h
      exact ⟨.of_awaiting rfl (.inr (hb.speaking _ hspeaker).2), rfl, _, rfl⟩
    · cases h
  · rename_i event next hspeaker
    cases h
    exact ⟨⟨fun _ _ => hb.speaking _ hspeaker, hb.single⟩, rfl, _, rfl⟩
  · rename_i query next hspeaker
    cases h
    exact ⟨⟨fun _ _ => hb.speaking _ hspeaker, hb.single⟩, rfl, _, rfl⟩
  · rename_i next hspeaker
    cases h
    exact ⟨⟨fun _ _ => hb.speaking _ hspeaker, hb.single⟩, rfl, _, rfl⟩

theorem Fair.awaiting (hb : b.Fair) (hended : b.ended? = none)
    (h : b.speak? client now game f = none) : ∃ next, b.speaker = .awaiting next := by
  cases hspeaker : b.speaker with
  | awaiting next => exact ⟨next, rfl⟩
  | speaking dialogue =>
    exfalso
    have hrequest := (hb.speaking dialogue hspeaker).1
    cases dialogue <;> simp [ended?, speak?, hspeaker, hrequest] at hended h

theorem Fair.reply {next : Option RunError → Dialogue} (hb : b.speaker = .awaiting next)
    (hrequest : b.request = none) (error : Option RunError) : (b.reply error).Fair := by
  simp only [Bridge.reply, hb]
  exact ⟨fun _ _ => ⟨hrequest, rfl⟩, .inl hrequest⟩

end Bridge

namespace Run

variable {engine : Engine γ} {now : Moment} {game game' : γ} {r r' : Run}

inductive Fresh : Run → Prop where
  | routine (name : String) (routine : Routine) : Fresh (.ofRoutine name routine)
  | dialogue (name : String) (dialogue : Dialogue) : Fresh (.ofDialogue name dialogue)

structure Orderly (r : Run) : Prop where
  grounded : r.fiber.Grounded r.name
  fair : ∀ b, r.bridge = some b → b.Fair
  idle : ∀ b, r.bridge = some b → b.serving = none → r.fiber.stack = []
  finished : r.outcome.isSome → r.fiber.stack = []

inductive Work (engine : Engine γ) (now : Moment) (game : γ) (r : Run) : γ × Run → Prop where
  | finishes (result : Except RunError Report) : r.fiber.stack = [] →
      Work engine now game r (game, r.finish now result)
  | plays {game' f} : r.fiber.step? engine now game = some (game', f) →
      Work engine now game r (game', { r with fiber := f })
  | talks (journal : List (Moment × Event)) {b : Bridge} : b.Fair →
      (b.serving = none → r.fiber.stack = []) →
      Work engine now game r
        (game, { r with fiber := { r.fiber with journal := journal }, bridge := some b })
  | loads (step : Step) {b : Bridge} : b.Fair → b.serving.isSome → r.fiber.stack = [] →
      Work engine now game r
        (game, { r with
          fiber := r.fiber.load (.begin r.name ⟨[step]⟩ Controls.root), bridge := some b })

theorem orderly_fresh (h : r.Fresh) : r.Orderly := by
  have hroot : ∀ name, Controls.Governs Lifecycle.Awake [Controls.root] (.start name) :=
    Controls.Governs.start Lifecycle.kept_awake.started
  cases h with
  | routine name routine =>
    constructor
    · exact ⟨hroot name, fun _ => rfl,
        iff_of_false (fun ⟨_, he⟩ => nomatch he) (List.cons_ne_nil _ _)⟩
    · exact fun _ hb => nomatch hb
    · exact fun _ hb => nomatch hb
    · exact fun ho => nomatch ho
  | dialogue name dialogue =>
    constructor
    · exact ⟨hroot name, fun hne => absurd rfl hne, iff_of_true ⟨_, rfl⟩ rfl⟩
    · rintro _ ⟨⟩
      exact ⟨fun _ _ => ⟨rfl, rfl⟩, .inl rfl⟩
    · exact fun _ _ _ => rfl
    · exact fun ho => nomatch ho

theorem Orderly.emptied (hr : r.Orderly) {result : Except RunError Bool}
    (h : r.fiber.result? = some result) : r.fiber.stack = [] := by
  apply hr.grounded.emptied.mp
  unfold Fiber.result? at h
  split at h
  · exact ⟨_, ‹_›⟩
  · cases h

theorem Orderly.serve (hr : r.Orderly) {b b' : Bridge} {f : Fiber}
    {next : Option RunError → Dialogue} (hb : r.bridge = some b)
    (hnext : b.speaker = .awaiting next)
    (h : b.serve? engine now r.name game r.fiber = some (game', f, b')) :
    r.Work engine now game (game', { r with fiber := f, bridge := some b' }) := by
  have hfair := hr.fair b hb
  unfold Bridge.serve? at h
  split at h
  · cases h
  · rename_i line hserving hrequest
    have hempty := hr.idle b hb hserving
    dsimp only at h
    split at h
    · cases h
      have hreply :=
        Bridge.Fair.reply (b := { b with request := none, serving := some line }) hnext rfl
      exact .talks _ (hreply _) fun _ => hempty
    · cases h
      exact .loads _ (.of_awaiting hnext (.inl rfl)) rfl hempty
  · rename_i line hserving
    have hrequest : b.request = none := hfair.single.resolve_right (by simp [hserving])
    split at h
    · rename_i result hresult
      cases h
      exact .talks _ (.reply hnext hrequest _) fun _ => hr.emptied hresult
    · obtain ⟨⟨game₁, f₁⟩, hf, he⟩ := Option.map_eq_some_iff.mp h
      cases he
      rw [← hb]
      exact .plays hf

theorem Orderly.work (hr : r.Orderly) (h : r.step? engine now game = some (game', r')) :
    r.outcome = none ∧ r.Work engine now game (game', r') := by
  unfold step? at h
  split at h
  · cases h
  · rename_i ho
    refine ⟨Option.not_isSome_iff_eq_none.mp ho, ?_⟩
    split at h
    · rename_i hb
      split at h
      · rename_i result hresult
        cases h
        exact .finishes _ (hr.emptied hresult)
      · obtain ⟨⟨game₁, f⟩, hf, he⟩ := Option.map_eq_some_iff.mp h
        cases he
        exact .plays hf
    · rename_i b hb
      have hfair := hr.fair b hb
      split at h
      · rename_i error hended
        cases h
        refine .finishes _ (hr.idle b hb ?_)
        unfold Bridge.ended? at hended
        split at hended
        · exact (hfair.speaking _ ‹_›).2
        · cases hended
      · rename_i hended
        split at h
        · rename_i f b' hspeak
          cases h
          obtain ⟨hfair', hserving, journal, rfl⟩ := hfair.speak hspeak
          exact .talks journal hfair' fun hnone => hr.idle b hb (hserving ▸ hnone)
        · rename_i hspeak
          obtain ⟨⟨game₁, f, b'⟩, hserve, he⟩ := Option.map_eq_some_iff.mp h
          cases he
          obtain ⟨next, hnext⟩ := hfair.awaiting hended hspeak
          exact hr.serve hb hnext hserve

theorem Orderly.worked (hr : r.Orderly) (ho : r.outcome = none)
    (h : r.Work engine now game (game', r')) : r'.Orderly := by
  have hunfinished : ¬ r.outcome.isSome := by simp [ho]
  cases h with
  | finishes result hempty =>
    constructor
    · exact ⟨hr.grounded.governs.apply Controls.root fun _ hl => hl.apply _, hr.grounded.bottom,
        hr.grounded.emptied⟩
    · exact hr.fair
    · exact hr.idle
    · exact fun _ => hempty
  | @plays game' f hf =>
    have hsmall := Fiber.smallStep_of_step? hf
    constructor
    · exact hr.grounded.step hsmall
    · exact hr.fair
    · exact fun b hb hserving => absurd (hr.idle b hb hserving) hsmall.stacked
    · exact fun hout => absurd hout hunfinished
  | talks journal hfair hidle =>
    constructor
    · exact ⟨hr.grounded.governs, hr.grounded.bottom, hr.grounded.emptied⟩
    · rintro _ ⟨⟩
      exact hfair
    · rintro _ ⟨⟩
      exact hidle
    · exact hr.finished
  | loads step hfair hserving hempty =>
    constructor
    · exact hr.grounded.load _
    · rintro _ ⟨⟩
      exact hfair
    · rintro _ ⟨⟩ hnone
      simp [hnone] at hserving
    · exact fun hout => absurd hout hunfinished

/-- As long as it has a stack, a run does what its fiber does. -/
theorem Orderly.step?_stacked (hr : r.Orderly) (hne : r.fiber.stack ≠ []) :
    r.step? engine now game = (r.fiber.step? engine now game).map fun (game, f) =>
      (game, { r with fiber := f }) := by
  have ho : ¬ r.outcome.isSome := fun ho => hne (hr.finished ho)
  have hresult : r.fiber.result? = none := by
    cases hres : r.fiber.result? with
    | none => rfl
    | some result => exact absurd (hr.emptied hres) hne
  unfold step?
  rw [if_neg ho]
  cases hb : r.bridge with
  | none => simp [hresult]
  | some b =>
    obtain ⟨line, hserving⟩ : ∃ line, b.serving = some line :=
      Option.ne_none_iff_exists'.mp fun hnone => hne (hr.idle b hb hnone)
    obtain ⟨next, hnext⟩ : ∃ next, b.speaker = .awaiting next := by
      cases hspeaker : b.speaker with
      | awaiting next => exact ⟨next, rfl⟩
      | speaking dialogue => simp [((hr.fair b hb).speaking dialogue hspeaker).2] at hserving
    simp [Bridge.ended?, Bridge.speak?, Bridge.serve?, hserving, hnext, hresult, Function.comp_def]

end Run

instance (p : Phase) : Decidable (p = .ready) :=
  match p with
  | .ready => isTrue rfl
  | .busy _ | .ended _ => isFalse fun h => nomatch h

def Step.settled (config : Config) (view : View) (step : Step) : Except ModifierError Effective :=
  resolve config (if step.modifiers.condition.isSome then view.conditionNames else []) step

def Step.settle (rules : Rules) (chain : List String) (inv : Invocation) (view : View)
    (step : Step) : Activity Flow :=
  match step.settled rules.config view with
  | .error e => .fail .other (.modifier step.line e)
  | .ok eff => Execution.command rules chain inv.cursor inv.frames step eff

namespace Snapshot

variable {engine : Engine γ} {asks : Controls.Wish → Prop} {s t : Snapshot γ} {now : Moment}
  {game : γ} {run : Run}

theorem orderly_move (hs : s.run.Orderly) (h : Move engine asks s t) : t.run.Orderly := by
  cases h with
  | lapse => exact hs
  | wish => exact ⟨hs.grounded.grant _, hs.fair, hs.idle, hs.finished⟩
  | work hstep =>
    obtain ⟨ho, hwork⟩ := hs.work hstep
    exact hs.worked ho hwork

theorem orderly_moves (hs : s.run.Orderly) (h : Moves engine asks s t) : t.run.Orderly := by
  induction h with
  | refl => exact hs
  | tail _ hmove ih => exact orderly_move ih hmove

theorem orderly_tick (hs : s.run.Orderly) : (s.tick engine).run.Orderly := by
  have hmoves : Moves engine (fun _ => True) s (s.tick engine) := moves_tick s
  exact orderly_moves hs hmoves

theorem tick_stacked {f : Fiber} {game : γ} (hs : s.run.Orderly)
    (hstep : s.run.fiber.step? engine s.now s.game = some (game, f)) :
    s.tick engine = ⟨s.now, game, { s.run with fiber := f }⟩ := by
  have hne := (Fiber.smallStep_of_step? hstep).stacked
  simp [tick, hs.step?_stacked hne, hstep]

variable {inv : Invocation} {below : List Invocation} {c : Course Flow}

theorem tick_begins {step : Step} (hrun : s.run.Orderly) (hs : s.run.fiber.stack = inv :: below)
    (hp : s.run.fiber.phase = .ready)
    (hpaused : s.run.fiber.controls.state inv.control ≠ .pausedNow)
    (hstopped : s.run.fiber.controls.state inv.control ≠ .stopped)
    (hget : inv.routine.get? inv.cursor = some step) :
    s.tick engine = ⟨s.now, s.game, { s.run with fiber := { s.run.fiber with phase := .busy (.doing
      (Execution.step engine.rules s.run.fiber.chain inv.cursor inv.frames step)) } }⟩ := by
  apply tick_stacked hrun
  rw [Fiber.step?_ready hs hp]
  unfold Fiber.begin?
  split
  · exact absurd ‹_› hpaused
  · exact absurd ‹_› hstopped
  · rw [hget]

theorem tick_moves {scene : Scene γ} {c' : Course Flow} (hrun : s.run.Orderly)
    (hs : s.run.fiber.stack = inv :: below) (hp : s.run.fiber.phase = .busy c)
    (hc : c.step? engine.means s.now (s.run.fiber.scene inv s.game) = some (scene, c')) :
    s.tick engine = ⟨s.now, scene.game, { s.run with
      fiber := { s.run.fiber.withScene inv below scene with phase := .busy c' } }⟩ :=
  tick_stacked hrun (Fiber.step?_moved hs hp (Course.end?_of_step? hc) hc)

theorem tick_concludes {ending : Course.End Flow} (hrun : s.run.Orderly)
    (hs : s.run.fiber.stack = inv :: below) (hp : s.run.fiber.phase = .busy c)
    (hend : c.end? = some ending) :
    s.tick engine =
      let r := Fiber.conclude engine s.now s.game s.run.fiber inv below ending
      ⟨s.now, r.1, { s.run with fiber := r.2 }⟩ :=
  tick_stacked hrun (Fiber.step?_concluded hs hp hend)

theorem after_begun {step : Step} (hrun : s.run.Orderly) (hs : s.run.fiber.stack = inv :: below)
    (hp : s.run.fiber.phase = .ready)
    (hpaused : s.run.fiber.controls.state inv.control ≠ .pausedNow)
    (hstopped : s.run.fiber.controls.state inv.control ≠ .stopped)
    (hget : inv.routine.get? inv.cursor = some step) :
    s.after engine 2 = ⟨s.now, s.game, { s.run with fiber :=
      { s.run.fiber.withScene inv below (s.run.fiber.scene inv s.game) with
        phase := .busy (.doing (step.settle engine.rules s.run.fiber.chain inv
          (engine.client.view s.game s.now))) } }⟩ := by
  have hfirst : s.tick engine = _ := tick_begins hrun hs hp hpaused hstopped hget
  have hstack : (s.tick engine).run.fiber.stack = inv :: below := by rw [hfirst]; exact hs
  have hphase : (s.tick engine).run.fiber.phase = .busy (.doing (Execution.step engine.rules
      s.run.fiber.chain inv.cursor inv.frames step)) := by rw [hfirst]
  have hsecond : (s.tick engine).tick engine = _ :=
    tick_moves (orderly_tick hrun) hstack hphase rfl
  change (s.tick engine).tick engine = _
  rw [hsecond, hfirst]
  rfl

end Snapshot
end MacroEngine
