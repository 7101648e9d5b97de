import MacroEngine.Proofs.Progress
import MacroEngine.Proofs.Twins

/-! A step of a macro beside the same line yielded by a script. The one is run where it stands in
its macro, the other as a macro of its own, and on top of both are the macros that it runs. Small
step by small step they do the same, until both are done with the line or have failed alike. -/
namespace MacroEngine

def Invocation.outer (name : String) (routine : Routine) (cursor : Nat) (wait : Option WaitSpan) :
    Invocation :=
  ⟨name, routine, cursor, [], Controls.root, wait⟩

/-- How the stack of a line ended that was not done to its end. -/
inductive EndsAlike : Except RunError Bool → Except RunError Bool → Prop where
  | stopped : EndsAlike (.ok true) (.ok true)
  | failed {error error'} : error ≠ .stopped → error.AsYielded error' →
      EndsAlike (.error error) (.error error')

theorem rel_cases {r : α → β → Prop} {o : Option α} {o' : Option β} (h : Option.Rel r o o') :
    (o = none ∧ o' = none) ∨ ∃ a b, o = some a ∧ o' = some b ∧ r a b := by
  cases h with
  | none => exact .inl ⟨rfl, rfl⟩
  | some h => exact .inr ⟨_, _, rfl, rfl, h⟩

namespace Fiber

/-- The outermost invocation sets no frames and goes on with the next step only; for those on top
of it there is no such restriction. -/
inductive PhaseLike (outermost : Bool) : Phase → Phase → Prop where
  | ready : PhaseLike outermost .ready .ready
  | busy {c c'} : c.Like (fun m => outermost → ∀ frames, m ≠ .frames frames)
      (fun flow => outermost → flow.Onward) c' → PhaseLike outermost (.busy c) (.busy c')

structure Inside (name : String) (routine : Routine) (cursor : Nat) (step' : Step)
    (above : List Invocation) (wait : Option WaitSpan) (f f' : Fiber) : Prop where
  stack : f.stack = above ++ [.outer name routine cursor wait]
  stack' : f'.stack = above ++ [.outer name ⟨[step']⟩ 0 wait]
  rested : above.isEmpty → wait = none
  phase : PhaseLike above.isEmpty f.phase f'.phase

inductive Abreast (name : String) (routine : Routine) (cursor : Nat) (step' : Step) :
    Fiber → Fiber → Prop where
  | inside {f f'} (above wait) : Inside name routine cursor step' above wait f f' →
      Abreast name routine cursor step' f f'
  | completed {f f'} : f.stack = [.outer name routine (cursor + 1) none] → f.phase = .ready →
      f'.stack = [.outer name ⟨[step']⟩ 1 none] → f'.phase = .ready →
      Abreast name routine cursor step' f f'
  | ended {f f' result result'} : f.phase = .ended result → f'.phase = .ended result' →
      EndsAlike result result' → Abreast name routine cursor step' f f'

variable {engine : Engine γ} {blind : engine.client.Blind} {now : Moment} {game game' : γ}
  {f f' : Fiber} {name : String} {routine : Routine} {cursor : Nat} {step step' : Step}
  {wait : Option WaitSpan} {inv : Invocation} {rest : List Invocation}

theorem step?_going {below : List Invocation} {c : Course Flow} (hs : f.stack = inv :: below)
    (hp : f.phase = .busy c) (hend : c.end? = none) :
    f.step? engine now game = (c.step? engine.means now (f.scene inv game)).map fun moved =>
      (moved.1.game, { f.withScene inv below moved.1 with phase := .busy moved.2 }) := by
  cases hc : c.step? engine.means now (f.scene inv game) with
  | some moved => exact step?_moved hs hp hend hc
  | none => simp [step?, hs, hp, hend, hc]

theorem Inside.chain {above : List Invocation}
    (h : Inside name routine cursor step' above wait f f') : f'.chain = f.chain := by
  simp [Fiber.chain, h.stack, h.stack', Invocation.outer]

theorem Inside.handles {above : List Invocation}
    (h : Inside name routine cursor step' above wait f f') : f'.handles = f.handles := by
  simp [Fiber.handles, h.stack, h.stack', Invocation.outer]

/-- When a nested macro is left, the wait of the step follows that ran it. -/
theorem inside_leave (f f' : Fiber) (inv : Invocation) (rest : List Invocation) (stopped : Bool) :
    ∃ above wait', Inside name routine cursor step' above wait'
      (f.leave inv (rest ++ [.outer name routine cursor wait]) stopped)
      (f'.leave inv (rest ++ [.outer name ⟨[step']⟩ 0 wait]) stopped) := by
  cases rest with
  | nil =>
    exact ⟨[], none, rfl, rfl, fun _ => rfl, .busy (.doing (.pause (.done fun _ => trivial)))⟩
  | cons parent rest =>
    exact ⟨{ parent with resumeWait := none } :: rest, wait, rfl, rfl, nofun,
      .busy (.doing (.pause (.done fun _ => trivial)))⟩

def Keeps (blind : engine.client.Blind) (name : String) (routine : Routine) (cursor : Nat)
    (step' : Step) (p p' : γ × Fiber) : Prop :=
  Alike blind p.1 p.2 p'.1 p'.2 ∧ Abreast name routine cursor step' p.2 p'.2

theorem keeps_leave (ha : Alike blind game f game' f') (inv : Invocation) (rest : List Invocation)
    (stopped : Bool) : Keeps blind name routine cursor step'
      (game, f.leave inv (rest ++ [.outer name routine cursor wait]) stopped)
      (game', f'.leave inv (rest ++ [.outer name ⟨[step']⟩ 0 wait]) stopped) := by
  obtain ⟨_, _, hinside⟩ := inside_leave f f' inv rest stopped
  exact ⟨ha.leave rfl (by cases rest <;> rfl) stopped, .inside _ _ hinside⟩

theorem keeps_stopped (ha : Alike blind game f game' f') : Keeps blind name routine cursor step'
    (game, f.leave (.outer name routine cursor wait) [] true)
    (game', f'.leave (.outer name ⟨[step']⟩ 0 wait) [] true) := by
  have hleft : Alike blind game (f.leave (.outer name routine cursor wait) [] true)
      game' (f'.leave (.outer name ⟨[step']⟩ 0 wait) [] true) := ha.leave rfl rfl true
  exact ⟨hleft, .ended rfl rfl .stopped⟩

theorem keeps_abort (ha : Alike blind game f game' f')
    (hd : f'.handles = f.handles) {error error' : RunError} (hne : error ≠ .stopped)
    (he : error.AsYielded error') :
    Keeps blind name routine cursor step' (game, f.abort error) (game', f'.abort error') :=
  ⟨ha.abort hd error error', .ended rfl rfl (.failed hne he)⟩

/-- A failure is reported alike, and the policy is that of the site. -/
theorem keeps_failure (ha : Alike blind game f game' f') {inv inv' : Invocation}
    {below below' : List Invocation} (hs : f.stack = inv :: below) (hs' : f'.stack = inv' :: below')
    (hc : inv'.control = inv.control) (hf : inv'.frames = inv.frames)
    (hd : f'.handles = f.handles) {error error' : RunError} (hne : error ≠ .stopped)
    (he : error.AsYielded error') (site : Site)
    (hgo : ∀ game game' (g g' : Fiber), Alike blind game g game' g' →
      Keeps blind name routine cursor step' (game, g.advance now inv below (inv.cursor + 1))
        (game', g'.advance now inv' below' (inv'.cursor + 1))) :
    Keeps blind name routine cursor step'
      (handleFailure engine.client engine.rules.config now game f inv below site error)
      (handleFailure engine.client engine.rules.config now game' f' inv' below' site error') := by
  have hscene := (ha.scene hc hf).notify now he.notice
  have hreported := ha.withScene hc below below' hscene
  unfold handleFailure
  rw [he.isSoft]
  split
  · have hd' : (f'.withScene inv' below' ((f'.scene inv' game').notify engine.client now
        error'.message)).handles = (f.withScene inv below ((f.scene inv game).notify engine.client
        now error.message)).handles := by
      simpa [Fiber.handles, withScene, hs, hs'] using hd
    cases engine.rules.config.onError site with
    | stop => exact keeps_abort hreported hd' hne he
    | «continue» => exact hgo _ _ _ _ hreported
  · exact keeps_abort ha hd hne he

theorem keeps_finishSteps (ha : Alike blind game f game' f') (inv : Invocation)
    (rest : List Invocation) : Keeps blind name routine cursor step'
      (finishSteps engine.client now game f inv (rest ++ [.outer name routine cursor wait]))
      (finishSteps engine.client now game' f' inv (rest ++ [.outer name ⟨[step']⟩ 0 wait])) := by
  cases hcross : Frames.crossEnd inv.frames with
  | none =>
    rw [finishSteps_none engine.client hcross, finishSteps_none engine.client hcross]
    exact keeps_leave ha inv rest false
  | some crossing =>
    rw [finishSteps_some engine.client hcross, finishSteps_some engine.client hcross]
    have hscene : Scene.Alike blind ((f.scene inv game).cross engine.client now crossing)
        ((f'.scene inv game').cross engine.client now crossing) :=
      (ha.scene rfl rfl).cross now crossing
    have hcrossed : Alike blind _ (f.withScene inv (rest ++ [.outer name routine cursor wait]) _)
        _ (f'.withScene inv (rest ++ [.outer name ⟨[step']⟩ 0 wait]) _) :=
      ha.withScene rfl _ _ hscene
    dsimp only
    split
    · exact ⟨hcrossed.place _ _ _ _, .inside
        ({ inv with frames := crossing.frames, cursor := 0 } :: rest) _ ⟨rfl, rfl, nofun, .ready⟩⟩
    · exact keeps_leave hcrossed _ rest false

theorem nested_begin? (ha : Alike blind game f game' f')
    (h : Inside name routine cursor step' (inv :: rest) wait f f') :
    Option.Rel (Keeps blind name routine cursor step')
      (begin? engine now game f inv (rest ++ [.outer name routine cursor wait]))
      (begin? engine now game' f' inv (rest ++ [.outer name ⟨[step']⟩ 0 wait])) := by
  have hstate : f'.controls.state inv.control = f.controls.state inv.control := by rw [ha.controls]
  unfold begin?
  rw [hstate, h.chain]
  cases f.controls.state inv.control with
  | pausedNow => exact .none
  | stopped => exact .some (keeps_leave ha inv rest true)
  | idle | running | pausedAtNextLoop | stoppedAtNextLoop =>
    dsimp only
    cases inv.routine.get? inv.cursor with
    | none => exact .some (keeps_finishSteps ha inv rest)
    | some step =>
      have hlike : (Execution.step engine.rules f.chain inv.cursor inv.frames step).Like
          (fun m => false → ∀ frames, m ≠ .frames frames) (fun flow => false → flow.Onward)
          (Execution.step engine.rules f.chain inv.cursor inv.frames step) :=
        Execution.like_step (.inl rfl) (fun _ _ hn => absurd hn Bool.false_ne_true)
          (fun _ hn => absurd hn Bool.false_ne_true)
          (fun _ => ⟨rfl, fun _ hn => absurd hn Bool.false_ne_true,
            fun _ hn => absurd hn Bool.false_ne_true⟩) _ _ _
      exact .some ⟨ha.place _ _ _ _,
        .inside _ _ ⟨h.stack, h.stack', h.rested, .busy (.doing hlike)⟩⟩

theorem nested_conclude (ha : Alike blind game f game' f')
    (h : Inside name routine cursor step' (inv :: rest) wait f f') {r : Flow → Prop}
    {ending ending' : Course.End Flow} (hend : ending.Like r ending') :
    Keeps blind name routine cursor step'
      (conclude engine now game f inv (rest ++ [.outer name routine cursor wait]) ending)
      (conclude engine now game' f' inv (rest ++ [.outer name ⟨[step']⟩ 0 wait]) ending') := by
  have hgo : ∀ target game game' (g g' : Fiber), Alike blind game g game' g' →
      Keeps blind name routine cursor step'
        (game, g.advance now inv (rest ++ [.outer name routine cursor wait]) target)
        (game', g'.advance now inv (rest ++ [.outer name ⟨[step']⟩ 0 wait]) target) :=
    fun target _ _ g g' hg => ⟨hg.advance rfl _ _, .inside
      ({ inv with cursor := target } :: rest) _ ⟨rfl, rfl, nofun, .ready⟩⟩
  cases hend with
  | interrupted => exact keeps_leave ha inv rest true
  | failure hne he =>
    exact keeps_failure ha h.stack h.stack' rfl rfl h.handles hne he _ (hgo (inv.cursor + 1))
  | @value flow _ =>
    cases flow with
    | next => exact hgo _ _ _ _ _ ha
    | jump target => exact hgo target _ _ _ _ ha
    | finish => exact keeps_leave (ha.complete now inv inv) inv rest false
    | enter called entered wait' =>
      refine ⟨ha.enter called entered wait', .inside (.begin called entered
        f.controls.nextHandle :: { inv with resumeWait := some wait' } :: rest) _
        ⟨rfl, ?_, nofun, .ready⟩⟩
      simp [conclude, Fiber.enter, ha.controls]

theorem outer_begin? (hget : routine.get? cursor = some step) (hstep : step.AsYielded step')
    (hplain : step.command.isBoundary = false) (ha : Alike blind game f game' f')
    (h : Inside name routine cursor step' [] wait f f') :
    Option.Rel (Keeps blind name routine cursor step')
      (begin? engine now game f (.outer name routine cursor wait) [])
      (begin? engine now game' f' (.outer name ⟨[step']⟩ 0 wait) []) := by
  have hstate : f'.controls.state Controls.root = f.controls.state Controls.root := by
    rw [ha.controls]
  have hget' : Routine.get? ⟨[step']⟩ 0 = some step' := rfl
  unfold begin?
  simp only [Invocation.outer, hstate, h.chain, hget, hget']
  cases f.controls.state Controls.root with
  | pausedNow => exact .none
  | stopped => exact .some (keeps_stopped ha)
  | idle | running | pausedAtNextLoop | stoppedAtNextLoop =>
    have hlike : (Execution.step engine.rules f.chain cursor [] step).Like
        (fun m => true → ∀ frames, m ≠ .frames frames) (fun flow => true → flow.Onward)
        (Execution.step engine.rules f.chain 0 [] step') :=
      Execution.like_step hstep (fun _ hflow _ => hflow) (fun _ _ _ hm => nomatch hm)
        (fun hb => absurd (hplain.symm.trans hb) Bool.false_ne_true) _ _ _
    exact .some ⟨ha.place _ _ _ _, .inside _ _ ⟨h.stack, h.stack', h.rested, .busy (.doing hlike)⟩⟩

theorem outer_conclude (ha : Alike blind game f game' f')
    (h : Inside name routine cursor step' [] wait f f')
    {r : Flow → Prop} (hr : ∀ flow, r flow → flow.Onward) {ending ending' : Course.End Flow}
    (hend : ending.Like r ending') :
    Keeps blind name routine cursor step'
      (conclude engine now game f (.outer name routine cursor wait) [] ending)
      (conclude engine now game' f' (.outer name ⟨[step']⟩ 0 wait) [] ending') := by
  have hgo : ∀ game game' (g g' : Fiber), Alike blind game g game' g' →
      Keeps blind name routine cursor step'
        (game, g.advance now (.outer name routine cursor wait) [] (cursor + 1))
        (game', g'.advance now (.outer name ⟨[step']⟩ 0 wait) [] 1) :=
    fun _ _ g g' hg => ⟨hg.advance (by rfl) _ _,
      .completed (by rw [h.rested rfl]; rfl) rfl (by rw [h.rested rfl]; rfl) rfl⟩
  cases hend with
  | interrupted => exact keeps_stopped ha
  | failure hne he => exact keeps_failure ha h.stack h.stack' rfl rfl h.handles hne he _ hgo
  | @value flow hflow =>
    cases flow with
    | next => exact hgo _ _ _ _ ha
    | jump | finish => exact (hr _ hflow).elim
    | enter called entered wait' =>
      refine ⟨ha.enter called entered wait', .inside
        [.begin called entered f.controls.nextHandle] (some wait') ⟨rfl, ?_, nofun, .ready⟩⟩
      simp [conclude, Fiber.enter, ha.controls, Invocation.outer]

theorem keeps_busy {inv inv' : Invocation} {below below' : List Invocation}
    {q : Mark → Prop} {r : Flow → Prop} {c c' : Course Flow}
    (ha : Alike blind game f game' f') (hs : f.stack = inv :: below)
    (hs' : f'.stack = inv' :: below') (hc : inv'.control = inv.control)
    (hf : inv'.frames = inv.frames)
    (hp : f.phase = .busy c) (hp' : f'.phase = .busy c') (hlike : c.Like q r c')
    (hmoved : ∀ (s s' : Scene γ) (c c' : Course Flow), s'.frames = s.frames →
      ((∀ frames, ¬ q (.frames frames)) → s.frames = inv.frames) → c.Like q r c' →
      Abreast name routine cursor step' { f.withScene inv below s with phase := .busy c }
        { f'.withScene inv' below' s' with phase := .busy c' })
    (hend : ∀ ending ending', Course.End.Like r ending ending' →
      Keeps blind name routine cursor step' (conclude engine now game f inv below ending)
        (conclude engine now game' f' inv' below' ending')) :
    Option.Rel (Keeps blind name routine cursor step')
      (f.step? engine now game) (f'.step? engine now game') := by
  rcases rel_cases (Course.like_end? hlike) with ⟨hce, hce'⟩ | ⟨_, _, hce, hce', hends⟩
  · have hmoves : Option.Rel _ (c.step? engine.means now (f.scene inv game))
        (c'.step? engine.means now (f'.scene inv' game')) :=
      Course.like_step? (ha.scene hc hf) hlike
    rw [step?_going hs hp hce, step?_going hs' hp' hce']
    rcases rel_cases hmoves with ⟨hm, hm'⟩ | ⟨⟨s, c⟩, ⟨s', c'⟩, hm, hm', hscene, hlike', hframes⟩
    · rw [hm, hm']
      exact .none
    · rw [hm, hm']
      exact .some ⟨(ha.withScene hc below below' hscene).place _ _ _ _,
        hmoved s s' c c' hscene.frames hframes hlike'⟩
  · rw [step?_concluded hs hp hce, step?_concluded hs' hp' hce']
    exact .some (hend _ _ hends)

/-- A small step of the one run is a small step of the other. -/
theorem abreast_step? {above : List Invocation} (hget : routine.get? cursor = some step)
    (hstep : step.AsYielded step') (hplain : step.command.isBoundary = false)
    (ha : Alike blind game f game' f') (h : Inside name routine cursor step' above wait f f') :
    Option.Rel (Keeps blind name routine cursor step')
      (f.step? engine now game) (f'.step? engine now game') := by
  obtain ⟨hs, hs', _, hphase⟩ := id h
  cases above with
  | nil =>
    generalize hp : f.phase = phase, hp' : f'.phase = phase' at hphase
    cases hphase with
    | ready =>
      rw [step?_ready hs hp, step?_ready hs' hp']
      exact outer_begin? hget hstep hplain ha h
    | busy hlike =>
      refine keeps_busy ha hs hs' rfl rfl hp hp' hlike (fun s s' c c' hf hframes hc => ?_)
        fun _ _ hend => outer_conclude ha h (fun _ hflow => hflow rfl) hend
      have hnil : s.frames = [] := hframes fun frames hq => hq rfl frames rfl
      exact .inside [] wait ⟨by simp [withScene, Invocation.outer, hnil],
        by simp [withScene, Invocation.outer, hf, hnil], h.rested, .busy hc⟩
  | cons inv rest =>
    generalize hp : f.phase = phase, hp' : f'.phase = phase' at hphase
    cases hphase with
    | ready =>
      rw [step?_ready hs hp, step?_ready hs' hp']
      exact nested_begin? ha h
    | busy hlike =>
      refine keeps_busy ha hs hs' rfl rfl hp hp' hlike (fun s s' c c' hf _ hc => ?_)
        fun _ _ hend => nested_conclude ha h hend
      exact .inside ({ inv with frames := s.frames } :: rest) wait
        ⟨rfl, by simp [withScene, hf], by simp, .busy hc⟩

end Fiber
end MacroEngine
