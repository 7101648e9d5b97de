import MacroEngine.Proofs.Effects
import MacroEngine.Proofs.Histories
import MacroEngine.Proofs.Stages

/-! In a game that does not look at the clock, what is left of a step is decided when it begins.
So every moment of a run settles to one stage, whenever that is reached, and what the run does
either leaves the stage as it is or takes one stride. Nothing but that moves it: neither time nor
a request that does not stop the run. -/
namespace MacroEngine

/-- A game whose answers depend on what was done to it, and not on when. -/
structure Client.Timeless (client : Client γ) : Prop where
  view : ∀ game now, client.view game now = client.view game 0
  issue : ∀ game now action, client.issue game now action = client.issue game 0 action
  perform : ∀ game now order, client.perform game now order = client.perform game 0 order
  echo : ∀ game now text, client.echo game now text = client.echo game 0 text
  notify : ∀ game now text, client.notify game now text = client.notify game 0 text

def Scene.account (steps : Nat) (s : Scene γ) : Account γ :=
  ⟨s.game, steps, s.crossings, s.softErrors, s.journal.map Prod.snd⟩

def Invocation.level (inv : Invocation) : Level := ⟨inv.name, inv.routine, inv.cursor, inv.frames⟩

theorem Wait.holds_of_met {w : Wait} {poll : Duration} {now : Moment} {holds : Bool}
    (h : w.verdict poll now holds = .met) : holds = true := by
  unfold verdict at h
  cases holds with
  | true => rfl
  | false =>
    dsimp only at h
    split at h
    · rename_i hfalse
      cases hfalse
    · split at h <;> cases h

theorem Wait.holds_of_late {w : Wait} {poll : Duration} {now : Moment} {holds : Bool}
    (h : w.verdict poll now holds = .late) : holds = false := by
  unfold verdict at h
  cases holds with
  | false => rfl
  | true => cases h

/-- A small step of a course leaves it to end as it would have. -/
theorem Course.play_step? {means : Means γ} (ht : means.client.Timeless) {now : Moment}
    {s s' : Scene γ} {c c' : Course α} (hs : s.control.state ≠ .stopped)
    (h : c.step? means now s = some (s', c')) (steps : Nat) :
    c'.play means.client (s'.account steps) s'.frames =
      c.play means.client (s.account steps) s.frames := by
  have hgame : (s.account steps).game = s.game := rfl
  cases smallStep_of_step? h with
  | cut hready => exact absurd (Wait.stopped_of_readiness hready) hs
  | met _ hverdict =>
    rw [ht.view] at hverdict
    simp only [play, hgame, Wait.holds_of_met hverdict]
  | late _ hverdict =>
    rw [ht.view] at hverdict
    simp only [play, hgame, Wait.holds_of_late hverdict]
  | again | awaited | passed | slept => rfl
  | look =>
    simp only [play, Activity.play, ht.view _ now]
    rfl
  | issue =>
    simp only [play, Activity.play, ht.issue _ now]
    rfl
  | perform =>
    simp only [play, Activity.play, ht.perform _ now]
    rfl
  | echo =>
    simp only [play, Activity.play, Account.echo, ht.echo _ now]
    rfl
  | @mark m next =>
    cases m with
    | crossed | frames | boundary => rfl
    | held reason =>
      simp only [play, Activity.play, Account.notify, Scene.mark, Scene.notify, ht.notify _ now]
      rfl

theorem Course.play_end {c : Course α} {ending : Course.End α} (h : c.end? = some ending)
    (client : Client γ) (a : Account γ) (frames : List Frame) :
    c.play client a frames = ⟨a, frames, ending⟩ := by
  unfold end? at h
  split at h
  · cases h; rfl
  · cases h; rfl
  · cases h; rfl
  · cases h

namespace Fiber

variable {engine : Engine γ} {now : Moment} {game game' : γ} {f f' : Fiber} {inv : Invocation}
  {below : List Invocation}

def account (game : γ) (f : Fiber) : Account γ :=
  ⟨game, f.steps, f.crossings, f.softErrors, f.journal.map Prod.snd⟩

def levels (stack : List Invocation) : List Level := stack.map Invocation.level

/-- The stage that a moment leads to: what is left of the step under way is done. -/
def settle (engine : Engine γ) (game : γ) (f : Fiber) : Stage γ :=
  match f.phase, f.stack with
  | .ended result, _ => ⟨f.account game, [], some result⟩
  | .busy course, inv :: below =>
    let played := course.play engine.client (f.account game) inv.frames
    .conclude engine played.account { inv.level with frames := played.frames } (levels below)
      played.ending
  | _, stack => ⟨f.account game, levels stack, none⟩

theorem settle_busy {c : Course Flow} (hp : f.phase = .busy c) (hs : f.stack = inv :: below) :
    f.settle engine game =
      let played := c.play engine.client (f.account game) inv.frames
      .conclude engine played.account { inv.level with frames := played.frames } (levels below)
        played.ending := by
  unfold settle
  rw [hp, hs]

theorem settle_ready (hp : f.phase = .ready) :
    f.settle engine game = ⟨f.account game, levels f.stack, none⟩ := by
  unfold settle
  rw [hp]

theorem account_complete (game : γ) (f : Fiber) (now : Moment) (inv : Invocation) :
    (f.complete now inv).account game = Stage.complete (f.account game) inv.level := by
  unfold complete Stage.complete
  have hget : inv.level.routine.get? inv.level.cursor = inv.routine.get? inv.cursor := rfl
  rw [hget]
  cases inv.routine.get? inv.cursor <;> rfl

theorem settle_advance (engine : Engine γ) (game : γ) (f : Fiber) (now : Moment) (inv : Invocation)
    (below : List Invocation) (target : Nat) :
    (f.advance now inv below target).settle engine game =
      .advance (f.account game) inv.level (levels below) target := by
  rw [settle_ready rfl, Stage.advance, ← account_complete game f now inv]
  rfl

/-- The wait after a nested macro is one more that is over at once. -/
theorem settle_leave (engine : Engine γ) (game : γ) (f : Fiber) (inv : Invocation)
    (below : List Invocation) (stopped : Bool) :
    (f.leave inv below stopped).settle engine game =
      .leave (f.account game) (levels below) stopped := by
  cases below <;> rfl

theorem settle_abort (engine : Engine γ) (game : γ) (f : Fiber) (error : RunError) :
    (f.abort error).settle engine game = ⟨f.account game, [], some (.error error)⟩ :=
  rfl

theorem settle_handleFailure (ht : engine.client.Timeless) (now : Moment) (game : γ) (f : Fiber)
    (inv : Invocation) (below : List Invocation) (site : Site) (error : RunError) :
    (handleFailure engine.client engine.rules.config now game f inv below site error).2.settle
        engine (handleFailure engine.client engine.rules.config now game f inv below site error).1 =
      .handleFailure engine (f.account game) inv.level (levels below) site error := by
  unfold handleFailure Stage.handleFailure
  by_cases hsoft : error.isSoft
  · rw [if_pos hsoft, if_pos hsoft]
    have hnotify : (f.withScene inv below ((f.scene inv game).notify engine.client now
        error.message)).account (engine.client.notify game now error.message) =
          (f.account game).notify engine.client error.message := by
      simp only [Account.notify, ht.notify _ now]
      rfl
    cases hr : engine.rules.config.onError site with
    | stop =>
      dsimp only
      rw [settle_abort]
      exact congrArg (Stage.mk · _ _) hnotify
    | «continue» =>
      dsimp only
      rw [settle_advance]
      exact congrArg (Stage.advance · _ _ _) hnotify
  · rw [if_neg hsoft, if_neg hsoft]
    rfl

theorem settle_conclude (ht : engine.client.Timeless) (now : Moment) (game : γ) (f : Fiber)
    (inv : Invocation) (below : List Invocation) (ending : Course.End Flow) :
    (conclude engine now game f inv below ending).2.settle engine
        (conclude engine now game f inv below ending).1 =
      .conclude engine (f.account game) inv.level (levels below) ending := by
  match ending with
  | .value .next => exact settle_advance engine game f now inv below _
  | .value (.jump target) => exact settle_advance engine game f now inv below target
  | .value .finish =>
    have hleave := settle_leave engine game (f.complete now inv) inv below false
    rw [account_complete] at hleave
    exact hleave
  | .value (.enter name routine wait) => rfl
  | .failure site error => exact settle_handleFailure ht now game f inv below site error
  | .interrupted => exact settle_leave engine game f inv below true

theorem settle_finishSteps (ht : engine.client.Timeless) (now : Moment) (game : γ) (f : Fiber)
    (inv : Invocation) (below : List Invocation) :
    (finishSteps engine.client now game f inv below).2.settle engine
        (finishSteps engine.client now game f inv below).1 =
      .finishSteps engine.client (f.account game) inv.level (levels below) := by
  have hframes : inv.level.frames = inv.frames := rfl
  unfold Stage.finishSteps
  rw [hframes]
  cases hcross : Frames.crossEnd inv.frames with
  | none =>
    rw [finishSteps_none engine.client hcross]
    exact settle_leave engine game f inv below false
  | some crossing =>
    rw [finishSteps_some engine.client hcross]
    have haccount : (f.withScene inv below ((f.scene inv game).cross engine.client now
        crossing)).account ((f.scene inv game).cross engine.client now crossing).game =
          Stage.cross engine.client (f.account game) crossing := by
      unfold Scene.cross Stage.cross
      cases crossing.news with
      | none => rfl
      | some text =>
        simp only [Account.echo, ← ht.echo _ now]
        rfl
    dsimp only
    rw [← haccount]
    cases hagain : crossing.again with
    | true => rfl
    | false => exact settle_leave engine _ _ _ below false

theorem chain_eq (hs : f.stack = inv :: below) :
    f.chain = Stage.chain (inv.level :: levels below) := by
  simp [chain, Stage.chain, hs, levels, Invocation.level]

/-- A small step stays at its stage or takes one stride. -/
theorem settle_step (ht : engine.client.Timeless)
    (hn : ∀ inv below, f.stack = inv :: below → f.controls.state inv.control ≠ .stopped)
    (h : SmallStep engine now game f (game', f')) :
    f.phase = .ready ∧ f'.settle engine game' = (f.settle engine game).stride engine ∨
      f.phase ≠ .ready ∧ f'.settle engine game' = f.settle engine game := by
  generalize hr : (game', f') = r at h
  have hr' : f'.settle engine game' = r.2.settle engine r.1 := by rw [← hr]
  rw [hr']
  cases h with
  | halted hs _ hstop => exact absurd hstop (hn _ _ hs)
  | @finished inv below hs hp _ hget =>
    have hget' : inv.level.routine.get? inv.level.cursor = none := hget
    refine .inl ⟨hp, ?_⟩
    rw [settle_ready hp, hs, settle_finishSteps ht]
    simp only [Stage.stride, levels, List.map_cons, hget']
  | @begun inv below step hs hp _ hget =>
    have hget' : inv.level.routine.get? inv.level.cursor = some step := hget
    refine .inl ⟨hp, ?_⟩
    rw [settle_ready hp, settle_busy (f := { f with phase := .busy (.doing
      (Execution.step engine.rules f.chain inv.cursor inv.frames step)) }) rfl hs, hs, chain_eq hs]
    simp only [Stage.stride, levels, List.map_cons, hget']
    rfl
  | @moved inv below c s c' hs hp hc =>
    have hplay := Course.play_step? ht (hn inv below hs) hc f.steps
    refine .inr ⟨by simp [hp], ?_⟩
    rw [settle_busy hp hs, settle_busy rfl rfl]
    exact congrArg (fun played : Played γ Flow => Stage.conclude engine played.account
      { inv.level with frames := played.frames } (levels below) played.ending) hplay
  | @concluded inv below c ending hs hp hend =>
    refine .inr ⟨by simp [hp], ?_⟩
    rw [settle_busy hp hs, settle_conclude ht, Course.play_end hend]
    rfl

def Stacked (f : Fiber) : Prop := ∀ c, f.phase = .busy c → f.stack ≠ []

theorem stacked_leave (f : Fiber) (inv : Invocation) (below : List Invocation) (stopped : Bool) :
    (f.leave inv below stopped).Stacked := by
  cases below with
  | nil => exact fun _ hp => nomatch hp
  | cons => exact fun _ _ => List.cons_ne_nil _ _

theorem stacked_step (h : SmallStep engine now game f (game', f')) : f'.Stacked := by
  generalize hr : (game', f') = r at h
  suffices hf : r.2.Stacked by rwa [← hr] at hf
  cases h with
  | halted => exact stacked_leave _ _ _ _
  | @finished inv below =>
    cases hcross : Frames.crossEnd inv.frames with
    | none =>
      rw [finishSteps_none engine.client hcross]
      exact stacked_leave _ _ _ _
    | some crossing =>
      rw [finishSteps_some engine.client hcross]
      dsimp only
      split
      · exact fun _ _ => List.cons_ne_nil _ _
      · exact stacked_leave _ _ _ _
  | begun hs =>
    intro _ _
    rw [hs]
    exact List.cons_ne_nil _ _
  | moved => exact fun _ _ => List.cons_ne_nil _ _
  | @concluded inv below _ ending =>
    match ending with
    | .value .next | .value (.jump _) | .value (.enter ..) => exact fun _ _ => List.cons_ne_nil _ _
    | .value .finish | .interrupted => exact stacked_leave _ _ _ _
    | .failure site error =>
      exact fun c hp => absurd hp (handleFailure_phase _ _ _ _ _ _ _ site error c)

theorem upto_settle (engine : Engine γ) (game : γ) (f : Fiber) :
    (f.account game).Upto (f.settle engine game).account := by
  unfold settle
  split
  · exact .refl _
  · exact (Course.upto_play _ _ _ _).trans (Stage.upto_conclude ..)
  · exact .refl _

end Fiber

namespace Snapshot

variable {engine : Engine γ} {asks : Controls.Wish → Prop} {s s' : Snapshot γ}
  {Q : Lifecycle → Prop} {now : Moment} {game : γ} {name : String} {routine : Routine}

def settle (engine : Engine γ) (s : Snapshot γ) : Stage γ := s.run.fiber.settle engine s.game

theorem settle_move (ht : engine.client.Timeless) (hQ : ∀ l, Q l → l.state ≠ .stopped)
    (hn : s.Native) (hg : s.Governed Q) (h : Move engine asks s s') :
    s'.settle engine = s.settle engine ∨ s'.settle engine = (s.settle engine).stride engine := by
  cases h with
  | lapse | wish => exact .inl rfl
  | work hstep =>
    obtain ⟨ho, ⟨result, _, rfl, rfl⟩ | ⟨f, _, hf, rfl⟩⟩ := Run.step?_native hn hstep
    · exact .inl rfl
    · have hstate : ∀ inv below, s.run.fiber.stack = inv :: below →
          s.run.fiber.controls.state inv.control ≠ .stopped :=
        fun inv below hs => hQ _ (Fiber.governed_head (hg ho) hs)
      rcases Fiber.settle_step ht hstate (Fiber.smallStep_of_step? hf) with ⟨_, he⟩ | ⟨_, he⟩
      · exact .inr he
      · exact .inl he

theorem settle_ended {result : Except RunError Bool} (h : s.run.fiber.phase = .ended result)
    (engine : Engine γ) : s.settle engine = ⟨s.run.fiber.account s.game, [], some result⟩ := by
  unfold settle Fiber.settle
  rw [h]

theorem settle_start (engine : Engine γ) (now : Moment) (game : γ) (name : String)
    (routine : Routine) : (start now game name routine).settle engine = .start game name routine :=
  rfl

structure Sound (name : String) (s : Snapshot γ) : Prop where
  native : s.Native
  stacked : s.run.fiber.Stacked
  name : s.run.name = name
  outcome : ∀ o, s.run.outcome = some o →
    ∃ result, s.run.fiber.phase = .ended result ∧ o.result = result.map s.run.report

theorem sound_start (now : Moment) (game : γ) (name : String) (routine : Routine) :
    (start now game name routine).Sound name :=
  ⟨rfl, fun _ hp => (nomatch hp), rfl, fun _ ho => (nomatch ho)⟩

theorem sound_move (hs : s.Sound name) (h : Move engine asks s s') : s'.Sound name := by
  refine ⟨native_move h hs.native, ?_, ?_, ?_⟩
  · cases h with
    | lapse | wish => exact hs.stacked
    | work hstep =>
      obtain ⟨_, ⟨_, _, _, rfl⟩ | ⟨_, _, hf, rfl⟩⟩ := Run.step?_native hs.native hstep
      · exact hs.stacked
      · exact Fiber.stacked_step (Fiber.smallStep_of_step? hf)
  · cases h with
    | lapse | wish => exact hs.name
    | work hstep =>
      obtain ⟨_, ⟨_, _, _, rfl⟩ | ⟨_, _, _, rfl⟩⟩ := Run.step?_native hs.native hstep
      · exact hs.name
      · exact hs.name
  · intro o ho
    cases h with
    | lapse | wish => exact hs.outcome o ho
    | work hstep =>
      obtain ⟨hnone, ⟨result, hr, _, rfl⟩ | ⟨f, _, _, rfl⟩⟩ := Run.step?_native hs.native hstep
      · cases ho
        refine ⟨result, ?_, rfl⟩
        unfold Fiber.result? at hr
        split at hr
        · rename_i he
          cases hr
          exact he
        · cases hr
      · rw [hnone] at ho
        cases ho

/-- Whatever is asked of a run, it stays sound and its stack has handles of its own. -/
theorem sound_moves (h : Moves engine asks (start now game name routine) s) :
    s.Sound name ∧ s.Governed fun _ => True := by
  induction h with
  | refl => exact ⟨sound_start .., governed_start Lifecycle.kept_any _ _ _ _⟩
  | tail _ hmove ih =>
    obtain ⟨hsound, hg⟩ := ih
    exact ⟨sound_move hsound hmove, governed_move Lifecycle.kept_any (.inl fun _ _ => trivial)
      (fun _ _ _ _ => trivial) hsound.native hg hmove⟩

theorem Sound.tick (hs : s.Sound name) : (s.tick engine).Sound name := by
  rcases tick_eq_or_move engine (fun _ => False) s with h | h
  · rwa [h]
  · exact sound_move hs h

theorem Sound.after (hs : s.Sound name) (n : Nat) : (s.after engine n).Sound name := by
  induction n with
  | zero => exact hs
  | succ n ih =>
    rw [after_succ]
    exact ih.tick

end Snapshot
end MacroEngine
