import MacroEngine.Proofs.Completion
import MacroEngine.Proofs.Publishing
import MacroEngine.Proofs.Resting

/-! A stop is final. It reaches every invocation on the stack, so that nothing of the step under
way is done any more: the wait ends with the sleep that it is in, and then one invocation after
the other is left, each through a wait that is interrupted at once. -/
namespace MacroEngine

namespace Lifecycle

variable {l : Lifecycle}

def Halted (l : Lifecycle) : Prop := l.state = .stopped

theorem halted_stop (l : Lifecycle) : (l.apply .stop).Halted := by
  obtain ⟨state, single⟩ := l
  cases state <;> rfl

theorem Halted.apply (h : l.Halted) (r : Request) : (l.apply r).Halted := by
  obtain ⟨state, single⟩ := l
  cases h
  cases r <;> rfl

theorem Halted.afterStep (h : l.Halted) : l.afterStep.Halted := by
  unfold Lifecycle.afterStep
  split
  · rename_i hrun
    simp [show l.state = .stopped from h] at hrun
  · exact h

end Lifecycle

namespace Controls

variable {c : Controls} {h k : Handle} {hs : List Handle} {Q : Lifecycle → Prop}

theorem halted_apply (hl : c.Live k) (hk : (c.lifecycle k).Halted) (h : Handle) (r : Request) :
    ((c.apply h r).lifecycle k).Halted := by
  by_cases he : k = h
  · subst he
    change ((c.set k _).lifecycle k).Halted
    rw [lifecycle_set_self hl]
    exact hk.apply r
  · change ((c.set h _).lifecycle k).Halted
    rwa [lifecycle_set_of_ne he]

theorem halted_stopEach (ps : List Published) : ∀ c : Controls, c.Live k →
    k ∈ ps.map Published.handle ∨ (c.lifecycle k).Halted →
    let c' := ps.foldl (fun c p => c.apply p.handle .stop) c
    c'.Live k ∧ (c'.lifecycle k).Halted := by
  induction ps with
  | nil =>
    intro c hl hk
    rcases hk with hk | hk
    · cases hk
    · exact ⟨hl, hk⟩
  | cons p ps ih =>
    intro c hl hk
    have hl' : (c.apply p.handle .stop).Live k := live_set.mpr hl
    refine ih _ hl' ?_
    rcases hk with hk | hk
    · rcases List.mem_cons.mp hk with rfl | hk
      · right
        change ((c.set p.handle _).lifecycle p.handle).Halted
        rw [lifecycle_set_self hl]
        exact Lifecycle.halted_stop _
      · exact .inl hk
    · exact .inr (halted_apply hl hk p.handle .stop)

theorem Governs.halt (hc : Governs Q hs c) (hp : ∀ h ∈ hs, h ∈ c.published.map Published.handle) :
    Governs Lifecycle.Halted hs c.stop.2 := by
  have hstop : Governs (fun _ => True) hs c.stop.2 :=
    Governs.stop ⟨hc.descending, hc.given, hc.live, fun _ _ => trivial⟩ fun _ _ => trivial
  refine ⟨hstop.descending, hstop.given, hstop.live, fun h hh => ?_⟩
  have hmem : h ∈ c.published.reverse.map Published.handle := by
    rw [List.map_reverse]
    exact List.mem_reverse.mpr (hp h hh)
  obtain ⟨hlive, hhalt⟩ := halted_stopEach c.published.reverse c (hc.live h hh) (.inl hmem)
  exact halted_apply hlive hhalt root .stop

end Controls

def Engine.slice (engine : Engine γ) : Nat := max engine.rules.config.pollMs 1

namespace Wait
open Duration (nanosPerMilli)

theorem ceiling_mono {m n : Nat} (h : m ≤ n) : ceiling m ≤ ceiling n :=
  Nat.div_le_div_right (Nat.add_le_add_right h _)

theorem ceiling_millis (n : Nat) : ceiling (n * nanosPerMilli) = n := by
  have hm : nanosPerMilli = 1000000 := rfl
  change (n * nanosPerMilli + (nanosPerMilli - 1)) / nanosPerMilli = n
  rw [hm]
  omega

/-- A look that leads to another sleep leads to one of at most one poll interval. -/
theorem wake_again (engine : Engine γ) {w w' : Wait} {now : Moment} {holds : Bool}
    (h : w.verdict engine.means.poll now holds = .again w') : w'.wake ≤ now + engine.slice := by
  unfold verdict at h
  dsimp only at h
  split at h
  · cases h
  · split at h
    · cases h
    · cases h
      have hslice : max engine.means.poll.nanos nanosPerMilli = engine.slice * nanosPerMilli := by
        change max (engine.rules.config.pollMs * nanosPerMilli) nanosPerMilli = _
        rw [Engine.slice, ← Nat.mul_max_mul_right, Nat.one_mul]
      calc ceiling (now * nanosPerMilli + min (w.deadline - now * nanosPerMilli)
            (max engine.means.poll.nanos nanosPerMilli))
          ≤ ceiling (now * nanosPerMilli + engine.slice * nanosPerMilli) := by
            rw [← hslice]
            exact ceiling_mono (Nat.add_le_add_left (Nat.min_le_right _ _) _)
        _ = now + engine.slice := by rw [← Nat.add_mul, ceiling_millis]

end Wait

def Course.Wakes (bound : Moment) : Course α → Prop
  | .waiting wait _ _ => wait.wake ≤ bound
  | _ => True

theorem Course.wakes_step? {engine : Engine γ} {now : Moment} {s s' : Scene γ} {c c' : Course α}
    (hc : c.Wakes (now + engine.slice)) (h : c.step? engine.means now s = some (s', c')) :
    c'.Wakes (now + engine.slice) := by
  cases smallStep_of_step? h with
  | again _ hverdict => exact Wait.wake_again engine hverdict
  | slept | awaited => exact Nat.le_add_right _ _
  | _ => trivial

/-- How many small steps and sleeps a phase has left, at most, before it leaves an invocation. -/
def Phase.remaining (now : Moment) : Phase → Nat
  | .ended _ => 0
  | .ready | .busy .interrupted => 1
  | .busy (.doing (.done _)) => 2
  | .busy (.waiting wait _ _) => if now < wait.wake then 4 else 3
  | .busy (.doing _) => 5

namespace Fiber

variable {engine : Engine γ} {now bound : Moment} {game : γ} {f : Fiber} {inv : Invocation}
  {below : List Invocation} {Q : Lifecycle → Prop} {r : γ × Fiber}

def Wakes (bound : Moment) (f : Fiber) : Prop := ∀ c, f.phase = .busy c → c.Wakes bound

theorem wakes_leave (f : Fiber) (inv : Invocation) (below : List Invocation) (stopped : Bool) :
    (f.leave inv below stopped).Wakes bound := by
  cases below <;> (intro c hp; cases hp)
  trivial

theorem wakes_step (hf : f.Wakes (now + engine.slice)) (h : SmallStep engine now game f r) :
    r.2.Wakes (now + engine.slice) := by
  cases h with
  | halted => exact wakes_leave _ _ _ _
  | @finished inv below =>
    cases hcross : Frames.crossEnd inv.frames with
    | none =>
      rw [finishSteps_none engine.client hcross]
      exact wakes_leave _ _ _ _
    | some crossing =>
      rw [finishSteps_some engine.client hcross]
      dsimp only
      split
      · exact fun c hp => nomatch hp
      · exact wakes_leave _ _ _ _
  | begun => intro c hp; cases hp; trivial
  | moved _ hp hc =>
    intro c hp'
    cases hp'
    exact Course.wakes_step? (hf _ hp) hc
  | @concluded inv below _ ending =>
    match ending with
    | .value .next | .value (.jump _) | .value (.enter ..) => exact fun c hp => nomatch hp
    | .value .finish | .interrupted => exact wakes_leave _ _ _ _
    | .failure site error =>
      exact fun c hp => absurd hp (handleFailure_phase _ _ _ _ _ _ _ site error c)

/-- The fiber goes on only when time passes or a wish is granted. -/
def Waits (f : Fiber) : Prop :=
  f.phase = .ready ∨ ∃ wait holds next, f.phase = .busy (.waiting wait holds next)

instance (f : Fiber) : Decidable f.Waits :=
  match hp : f.phase with
  | .ready => isTrue (.inl hp)
  | .busy (.waiting wait holds next) => isTrue (.inr ⟨wait, holds, next, hp⟩)
  | .busy (.doing _) | .busy .interrupted | .ended _ => isFalse (by simp [Waits, hp])

/-- What can be under way when all is stopped: nothing that is sent, and sleeps that end. -/
inductive Spent (bound : Moment) : Phase → Prop where
  | ready : Spent bound .ready
  | asleep {wait holds next} : wait.wake ≤ bound → Spent bound (.busy (.waiting wait holds next))
  | interrupted : Spent bound (.busy .interrupted)
  | resuming (span : WaitSpan) : Spent bound (.busy (.doing (.pause span (.done .next))))
  | resumed : Spent bound (.busy (.doing (.done .next)))
  | ended : Spent bound (.ended (.ok true))

structure Halted (bound : Moment) (f : Fiber) : Prop where
  governed : f.Governed Lifecycle.Halted
  spent : Spent bound f.phase
  stacked : f.phase = .ended (.ok true) ∨ f.stack ≠ []

/-- A stop reaches all that waits. -/
theorem halted_of_stop (hg : f.Governed Q) (hs : f.Shown) (hwakes : f.Wakes bound)
    (hwaits : f.Waits) : ({ f with controls := (f.controls.grant .stop).2 }).Halted bound := by
  have hended : ∀ result, f.phase ≠ .ended result := by
    rcases hwaits with hp | ⟨wait, holds, next, hp⟩ <;> simp [hp]
  rcases hs with ⟨result, he⟩ | ⟨hne, hm⟩
  · exact absurd he (hended result)
  · have hall : ∀ h ∈ f.handles, h ∈ f.controls.published.map Published.handle := by
      intro h hh
      rw [hm, List.map_reverse, List.map_map]
      exact List.mem_reverse.mpr hh
    refine ⟨Controls.Governs.halt hg hall, ?_, .inr hne⟩
    rcases hwaits with hp | ⟨wait, holds, next, hp⟩
    · exact hp ▸ .ready
    · exact hp ▸ .asleep (hwakes _ hp)

def remaining (now : Moment) (f : Fiber) : Nat := 6 * f.stack.length + f.phase.remaining now

/-- The commands, the game and the lifecycles stay as they are, and the end is closer. -/
structure Winds (bound now : Moment) (game : γ) (f : Fiber) (r : γ × Fiber) : Prop where
  game : r.1 = game
  commands : commands r.2.journal = commands f.journal
  halted : r.2.Halted bound
  remaining : r.2.remaining now < f.remaining now

theorem winds_leave (hg : f.Governed Lifecycle.Halted) (hs : f.stack = inv :: below) :
    Winds bound now game f (game, f.leave inv below true) := by
  have hh : f.handles = inv.control :: below.map Invocation.control := by simp [handles, hs]
  have hg' := governed_leave hg hh true
  cases below with
  | nil =>
    refine ⟨rfl, rfl, ⟨hg', .ended, .inl rfl⟩, ?_⟩
    simp only [remaining, leave, Phase.remaining, hs, List.length_cons, List.length_nil]
    omega
  | cons parent rest =>
    refine ⟨rfl, rfl, ⟨hg', .resuming _, .inr (List.cons_ne_nil _ _)⟩, ?_⟩
    simp only [remaining, leave, Phase.remaining, hs, List.length_cons]
    omega

theorem commands_complete (f : Fiber) (now : Moment) (inv : Invocation) :
    commands (f.complete now inv).journal = commands f.journal := by
  unfold complete
  split
  · simp [commands, log, Event.isCommand]
  · rfl

theorem winds_advance (hg : f.Governed Lifecycle.Halted) (hs : f.stack = inv :: below)
    (hp : f.phase = .busy (.doing (.done .next))) (target : Nat) :
    Winds bound now game f (game, f.advance now inv below target) := by
  have hh : f.handles = inv.control :: below.map Invocation.control := by simp [handles, hs]
  refine ⟨rfl, commands_complete f now inv, ⟨?_, .ready, .inr (List.cons_ne_nil _ _)⟩, ?_⟩
  · exact governed_advance (fun _ hl => hl.afterStep) hg hh now target
  · simp [remaining, advance, Phase.remaining, hs, hp]

theorem winds_moved (hnow : now ≤ bound) (hf : f.Halted bound) (hs : f.stack = inv :: below)
    {c c' : Course Flow} {s : Scene γ} (hp : f.phase = .busy c)
    (hc : c.step? engine.means now (f.scene inv game) = some (s, c')) :
    Winds bound now game f (s.game, { f.withScene inv below s with phase := .busy c' }) := by
  have hhalt : (f.scene inv game).control.state = .stopped := governed_head hf.governed hs
  have hspent := hf.spent
  rw [hp] at hspent
  have winds : ∀ (draws : Nat) (c' : Course Flow), Spent bound (.busy c') →
      Phase.remaining now (.busy c') < Phase.remaining now (.busy c) →
      Winds bound now game f (game, { f.withScene inv below
        { f.scene inv game with draws := draws } with phase := .busy c' }) := by
    intro draws c' hspent' hlt
    refine ⟨rfl, rfl, ⟨governed_withScene hf.governed hs hhalt, hspent',
      .inr (List.cons_ne_nil _ _)⟩, ?_⟩
    simp only [remaining, withScene, hs, hp, List.length_cons]
    omega
  cases hspent with
  | interrupted | resumed => cases hc
  | @asleep wait _ _ hwake =>
    simp only [Course.step?, Wait.readiness, hhalt] at hc
    by_cases hw : now < wait.wake
    · simp [hw] at hc
    · simp only [hw, if_false] at hc
      cases hc
      refine winds f.draws .interrupted .interrupted ?_
      simp [Phase.remaining, hw]
  | resuming span =>
    simp only [Course.step?, Course.proceed?] at hc
    split at hc
    · cases hc
      refine winds f.draws _ .resumed ?_
      simp [Phase.remaining]
    · cases hc
      refine winds _ _ (.asleep hnow) ?_
      simp [Phase.remaining, Wait.start]

theorem winds_step (hnow : now ≤ bound) (hf : f.Halted bound) (h : SmallStep engine now game f r) :
    Winds bound now game f r := by
  have hhalt : ∀ inv below, f.stack = inv :: below → f.controls.state inv.control = .stopped :=
    fun _ _ hs => governed_head hf.governed hs
  cases h with
  | halted hs => exact winds_leave hf.governed hs
  | finished hs _ hne | begun hs _ hne => exact absurd (hhalt _ _ hs) hne
  | moved hs hp hc => exact winds_moved hnow hf hs hp hc
  | concluded hs hp hend =>
    have hspent := hf.spent
    rw [hp] at hspent
    cases hspent with
    | asleep | resuming => cases hend
    | interrupted =>
      cases hend
      exact winds_leave hf.governed hs
    | resumed =>
      cases hend
      exact winds_advance hf.governed hs hp _

/-- A stopped fiber that has nothing to do now is in a sleep. -/
theorem asleep_of_step?_none (hf : f.Halted bound) (hr : f.result? = none)
    (h : f.step? engine now game = none) :
    ∃ wake, f.wake? now = some wake ∧ now < wake ∧ wake ≤ bound ∧
      f.remaining wake < f.remaining now := by
  have hne : f.stack ≠ [] := by
    rcases hf.stacked with hp | hne
    · simp [result?, hp] at hr
    · exact hne
  obtain ⟨inv, below, hs⟩ := List.exists_cons_of_ne_nil hne
  have hhalt : f.controls.state inv.control = .stopped := governed_head hf.governed hs
  have hspent := hf.spent
  cases hp : f.phase with
  | ended result => simp [result?, hp] at hr
  | ready =>
    rw [step?_ready hs hp] at h
    simp [begin?, hhalt] at h
  | busy c =>
    rw [hp] at hspent
    cases hspent with
    | interrupted | resumed =>
      rw [step?_concluded hs hp rfl] at h
      cases h
    | resuming span =>
      by_cases hz : span.isZero
      · rw [step?_moved hs hp rfl (by rw [Course.step?, Course.proceed?, if_pos hz])] at h
        cases h
      · rw [step?_moved hs hp rfl (by rw [Course.step?, Course.proceed?, if_neg hz])] at h
        cases h
    | @asleep wait holds next hwake =>
      by_cases hw : now < wait.wake
      · refine ⟨wait.wake, by simp [wake?, hp, Course.wake?, hw], hw, hwake, ?_⟩
        simp [remaining, hp, Phase.remaining, hw]
      · have hready : wait.readiness (f.scene inv game).control.state now = .interrupted := by
          change wait.readiness (f.controls.state inv.control) now = _
          simp [Wait.readiness, hw, hhalt]
        rw [step?_moved hs hp rfl (by simp only [Course.step?, hready]; rfl)] at h
        cases h

end Fiber

theorem Run.wake?_later {now wake : Moment} {r : Run} (h : r.wake? now = some wake) :
    now < wake := by
  unfold Run.wake? Fiber.wake? Course.wake? at h
  grind

namespace Snapshot

variable {engine : Engine γ} {s t : Snapshot γ} {bound : Moment} {now : Moment} {game : γ}
  {name : String} {routine : Routine}

/-- One move of a run that is never late: all that is due is done before time passes, and time
stops at each end of a sleep. -/
inductive Beat (engine : Engine γ) : Snapshot γ → Snapshot γ → Prop where
  | work (s : Snapshot γ) {game : γ} {run : Run} :
      s.run.step? engine s.now s.game = some (game, run) →
      Beat engine s { s with game := game, run := run }
  | lapse (s : Snapshot γ) (now : Moment) : s.run.step? engine s.now s.game = none →
      s.now ≤ now → (∀ wake, s.run.wake? s.now = some wake → now ≤ wake) →
      Beat engine s { s with now := now }
  | wish (s : Snapshot γ) (w : Controls.Wish) :
      Beat engine s { s with run := (s.run.grant w).2 }

abbrev Beats (engine : Engine γ) : Snapshot γ → Snapshot γ → Prop :=
  Relation.ReflTransGen (Beat engine)

theorem tick_eq_or_beat (engine : Engine γ) (s : Snapshot γ) :
    s.tick engine = s ∨ Beat engine s (s.tick engine) := by
  unfold tick
  split
  · rename_i hstep
    exact .inr (.work s hstep)
  · rename_i hstep
    split
    · rename_i wake hwake
      have hlater := Run.wake?_later hwake
      refine .inr (.lapse s _ hstep (Nat.le_max_left _ _) fun wake' hwake' => ?_)
      rw [hwake] at hwake'
      cases hwake'
      exact Nat.max_le.mpr ⟨Nat.le_of_lt hlater, Nat.le_refl _⟩
    · exact .inl rfl

theorem wakes_move {asks : Controls.Wish → Prop} (hn : s.Native)
    (hs : s.run.fiber.Wakes (s.now + engine.slice)) (h : Move engine asks s t) :
    t.run.fiber.Wakes (t.now + engine.slice) := by
  cases h with
  | wish => exact hs
  | lapse now hle =>
    intro c hp
    have hwake := hs c hp
    cases c with
    | waiting => exact Nat.le_trans hwake (Nat.add_le_add_right hle _)
    | doing | interrupted => trivial
  | work hstep =>
    obtain ⟨_, ⟨_, _, _, rfl⟩ | ⟨f, _, hf, rfl⟩⟩ := Run.step?_native hn hstep
    · exact hs
    · exact Fiber.wakes_step hs (Fiber.smallStep_of_step? hf)

/-- Whatever was asked of a run, its sleeps are short and its stack is published. -/
theorem waits_of_moves (h : Moves engine (fun _ => True) (start now game name routine) s) :
    s.run.fiber.Shown ∧ s.run.fiber.Wakes (s.now + engine.slice) := by
  induction h with
  | refl => exact ⟨shown_start .., fun c hp => nomatch hp⟩
  | tail hmoves hmove ih =>
    obtain ⟨hshown, hwakes⟩ := ih
    obtain ⟨hsound, hg⟩ := sound_moves hmoves
    exact ⟨shown_move hsound.native hg hshown hmove, wakes_move hsound.native hwakes hmove⟩

structure Halting (bound : Moment) (s : Snapshot γ) : Prop where
  native : s.Native
  under : s.run.outcome = none → s.now ≤ bound ∧ s.run.fiber.Halted bound
  outcome : ∀ o, s.run.outcome = some o →
    ∃ report, o.result = .ok report ∧ report.stoppedByUser = true ∧ o.ended ≤ bound

/-- Nothing is sent by a run that was stopped, whatever else is asked of it. -/
theorem halting_beat (hs : s.Halting bound) (h : Beat engine s t) :
    t.Halting bound ∧ t.game = s.game ∧
      commands t.run.fiber.journal = commands s.run.fiber.journal := by
  cases h with
  | wish w =>
    refine ⟨⟨hs.native, fun ho => ?_, hs.outcome⟩, rfl, rfl⟩
    obtain ⟨hnow, hf⟩ := hs.under ho
    exact ⟨hnow, hf.governed.grant fun l hl => Lifecycle.Halted.apply hl _, hf.spent, hf.stacked⟩
  | work hstep =>
    obtain ⟨ho, ⟨result, hr, rfl, rfl⟩ | ⟨f, _, hf, rfl⟩⟩ := Run.step?_native hs.native hstep
    · obtain ⟨hnow, hf⟩ := hs.under ho
      refine ⟨⟨hs.native, fun ho => (nomatch ho), fun o he => ?_⟩, rfl, rfl⟩
      cases he
      have hspent := hf.spent
      unfold Fiber.result? at hr
      split at hr
      · rename_i hp
        rw [hp] at hspent
        cases hspent
        cases hr
        exact ⟨_, rfl, rfl, hnow⟩
      · cases hr
    · obtain ⟨hnow, hhalt⟩ := hs.under ho
      obtain ⟨hgame, hcommands, hhalt', _⟩ :=
        Fiber.winds_step hnow hhalt (Fiber.smallStep_of_step? hf)
      refine ⟨⟨hs.native, fun _ => ⟨hnow, hhalt'⟩, fun o he => ?_⟩, hgame, hcommands⟩
      rw [ho] at he
      cases he
  | lapse now hstep _ hwake =>
    refine ⟨⟨hs.native, fun ho => ?_, hs.outcome⟩, rfl, rfl⟩
    have ho : s.run.outcome = none := ho
    obtain ⟨_, hf⟩ := hs.under ho
    have hb : s.run.bridge = none := hs.native
    have hr : s.run.fiber.result? = none := by
      by_contra hr
      obtain ⟨result, hr⟩ := Option.ne_none_iff_exists'.mp hr
      simp [Run.step?, ho, hb, hr] at hstep
    have hfiber : s.run.fiber.step? engine s.now s.game = none := by
      simpa [Run.step?, ho, hb, hr] using hstep
    obtain ⟨wake, hw, _, hle, _⟩ := Fiber.asleep_of_step?_none hf hr hfiber
    exact ⟨Nat.le_trans (hwake wake (by simp [Run.wake?, ho, hw])) hle, hf⟩

theorem halting_beats (hs : s.Halting bound) (h : Beats engine s t) :
    t.Halting bound ∧ t.game = s.game ∧
      commands t.run.fiber.journal = commands s.run.fiber.journal := by
  induction h with
  | refl => exact ⟨hs, rfl, rfl⟩
  | tail _ hbeat ih =>
    obtain ⟨ht, hgame, hcommands⟩ := ih
    obtain ⟨ht', hgame', hcommands'⟩ := halting_beat ht hbeat
    exact ⟨ht', hgame'.trans hgame, hcommands'.trans hcommands⟩

theorem Halting.tick (hs : s.Halting bound) : (s.tick engine).Halting bound := by
  rcases tick_eq_or_beat engine s with h | h
  · rwa [h]
  · exact (halting_beat hs h).1

/-- Left alone, it is over or closer to its end after each tick. -/
theorem Halting.tick_remaining (hs : s.Halting bound) (ho : s.run.outcome = none) :
    (s.tick engine).run.outcome ≠ none ∨
      (s.tick engine).run.fiber.remaining (s.tick engine).now < s.run.fiber.remaining s.now := by
  have hb : s.run.bridge = none := hs.native
  obtain ⟨hnow, hf⟩ := hs.under ho
  cases hr : s.run.fiber.result? with
  | some result => exact .inl (by simp [Snapshot.tick, Run.step?, ho, hb, hr, Run.finish])
  | none =>
    right
    cases hstep : s.run.fiber.step? engine s.now s.game with
    | some r =>
      rw [tick_of_step? hs.native ho hr hstep]
      exact (Fiber.winds_step hnow hf (Fiber.smallStep_of_step? hstep)).remaining
    | none =>
      obtain ⟨wake, hw, hlt, _, hless⟩ := Fiber.asleep_of_step?_none hf hr hstep
      have hrun : s.run.step? engine s.now s.game = none := by simp [Run.step?, ho, hb, hr, hstep]
      have hwake : s.run.wake? s.now = some wake := by simp [Run.wake?, ho, hw]
      have htick : s.tick engine = { s with now := wake } := by
        simp [Snapshot.tick, hrun, hwake, Nat.max_eq_right (Nat.le_of_lt hlt)]
      rwa [htick]

/-- Induction on what remains. -/
theorem Halting.ends : ∀ (k : Nat) {s : Snapshot γ}, s.run.fiber.remaining s.now = k →
    s.Halting bound → ∃ n, (s.after engine n).run.outcome ≠ none := by
  intro k
  induction k using Nat.strongRecOn with
  | ind k ih =>
    intro s hk hs
    by_cases ho : s.run.outcome = none
    · have hleft : (s.tick engine).run.outcome ≠ none ∨ _ := hs.tick_remaining ho
      rcases hleft with hout | hlt
      · exact ⟨1, hout⟩
      · obtain ⟨n, hn⟩ := ih _ (hk ▸ hlt) rfl hs.tick
        exact ⟨n + 1, by rwa [after_tick] at hn⟩
    · exact ⟨0, ho⟩

theorem Halting.after (hs : s.Halting bound) (n : Nat) : (s.after engine n).Halting bound := by
  induction n with
  | zero => exact hs
  | succ n ih =>
    rw [after_succ]
    exact ih.tick

/-- Once a run that waits was stopped it sends nothing more, whatever is asked of it, and within
one poll interval it is over. -/
theorem stop_final (h : Moves engine (fun _ => True) (start now game name routine) s)
    (hwaits : s.run.fiber.Waits)
    (ht : Beats engine { s with run := (s.run.grant .stop).2 } t) :
    t.game = s.game ∧ commands t.run.fiber.journal = commands s.run.fiber.journal ∧
    (t.run.outcome = none → t.now ≤ s.now + max engine.rules.config.pollMs 1) ∧
    ∃ n report ended, (t.after engine n).run.outcome = some ⟨.ok report, ended⟩ ∧
      report.stoppedByUser = true ∧ ended ≤ s.now + max engine.rules.config.pollMs 1 := by
  obtain ⟨hsound, hg⟩ := sound_moves h
  obtain ⟨hshown, hwakes⟩ := waits_of_moves h
  have hs : ({ s with run := (s.run.grant .stop).2 } : Snapshot γ).Halting
      (s.now + engine.slice) := by
    have hnone : s.run.outcome = none := hsound.running fun result he => by
      rcases hwaits with hp | ⟨_, _, _, hp⟩ <;> (rw [hp] at he; cases he)
    refine ⟨hsound.native, fun _ => ⟨Nat.le_add_right _ _, ?_⟩, fun o ho => ?_⟩
    · exact Fiber.halted_of_stop (hg hnone) hshown hwakes hwaits
    · cases hnone.symm.trans ho
  obtain ⟨hhalt, hgame, hcommands⟩ := halting_beats hs ht
  obtain ⟨n, hout⟩ : ∃ n, (t.after engine n).run.outcome ≠ none := hhalt.ends _ rfl
  obtain ⟨o, ho⟩ := Option.ne_none_iff_exists'.mp hout
  obtain ⟨report, hres, hstopped, hended⟩ := (hhalt.after n).outcome o ho
  refine ⟨hgame, hcommands, fun hnone => (hhalt.under hnone).1, n, report, o.ended, ?_, hstopped,
    hended⟩
  rw [ho, ← hres]

def cupboard : Library := ⟨[⟨"steep", .native, "/echo water\n/wait 5\n/echo tea"⟩]⟩

def steeping : Routine :=
  ⟨[⟨1, .runMacro "steep", "steep", { wait := some (.fixed (.ofNat 1)) }⟩,
    ⟨2, .echo "cup", "cup", {}⟩]⟩

def steeped : Snapshot Unit := (start 0 () "m" steeping).after (.still cupboard) 12

def spilled : Snapshot Unit :=
  let s := { steeped with run := (steeped.run.grant .stop).2 }
  { s with run := (s.run.grant .resume).2 }

theorem stop_final_steeping :
    steeped.run.invocations = [("m", .running), ("steep", .running)] ∧ steeped.run.fiber.Waits ∧
    commands spilled.run.fiber.journal = [.echoed "water"] ∧
    ∃ n report ended, (spilled.after (.still cupboard) n).run.outcome =
        some ⟨.ok report, ended⟩ ∧
      report.stoppedByUser = true ∧ ended ≤ 100 := by
  have hwaits : steeped.run.fiber.Waits := by decide +kernel
  have hmoves : Moves (.still cupboard) (fun _ => True) (start 0 () "m" steeping) steeped :=
    moves_after (start 0 () "m" steeping) 12
  have hbeats : Beats (.still cupboard) { steeped with run := (steeped.run.grant .stop).2 }
      spilled := .single (.wish _ .resume)
  obtain ⟨_, hcommands, _, n, report, ended, hout, hstopped, hended⟩ :=
    stop_final hmoves hwaits hbeats
  have hnow : steeped.now + max (Engine.still cupboard).rules.config.pollMs 1 ≤ 100 := by
    decide +kernel
  exact ⟨by decide +kernel, hwaits, hcommands.trans (by decide +kernel), n, report, ended, hout,
    hstopped, Nat.le_trans hended hnow⟩

end Snapshot
end MacroEngine
