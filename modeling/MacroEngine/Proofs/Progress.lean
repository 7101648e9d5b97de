import MacroEngine.Proofs.Histories

/-! A run that is left alone gets on: every wait ends, and with it every step that was begun, as
long as no check pauses the macro. A wait may look often, but each look that leads to another
sleep brings the moment of waking closer to the deadline. -/
namespace MacroEngine

namespace Lifecycle

theorem kept_started : Kept (· = started) where
  started := rfl
  boundary := by rintro _ rfl; rfl
  afterStep := by rintro _ rfl; rfl

theorem started_state : started.state = .running := rfl

end Lifecycle

namespace Wait
open Duration (nanosPerMilli)

theorem nanosPerMilli_pos : 0 < nanosPerMilli := by decide

theorem lt_ceiling (now : Nat) {span : Nat} (h : 0 < span) :
    now < ceiling (now * nanosPerMilli + span) := by
  have hm : nanosPerMilli = 1000000 := rfl
  change now < (now * nanosPerMilli + span + (nanosPerMilli - 1)) / nanosPerMilli
  rw [hm]
  omega

def distance (w : Wait) : Nat := w.deadline - w.wake * nanosPerMilli

theorem readiness_running {w : Wait} {now : Moment} (h : w.wake ≤ now) :
    w.readiness .running now = .due := by
  simp [readiness, Nat.not_lt.mpr h]

theorem readiness_asleep {w : Wait} {state : RunState} {now : Moment} (h : now < w.wake) :
    w.readiness state now = .asleep := by
  simp [readiness, h]

theorem distance_again {w w' : Wait} {poll : Duration} {now : Moment} {holds : Bool}
    (hw : w.wake ≤ now) (h : w.verdict poll now holds = .again w') :
    now < w'.wake ∧ w'.distance < w.distance := by
  unfold verdict at h
  dsimp only at h
  split at h
  · cases h
  · split at h
    · cases h
    · rename_i hlate
      cases h
      have hspan : 0 < min (w.deadline - now * nanosPerMilli) (max poll.nanos nanosPerMilli) := by
        have := nanosPerMilli_pos
        omega
      have hwake := lt_ceiling now hspan
      refine ⟨hwake, ?_⟩
      have hmul := Nat.mul_le_mul_right nanosPerMilli (Nat.succ_le_of_lt hwake)
      have hold := Nat.mul_le_mul_right nanosPerMilli hw
      have := nanosPerMilli_pos
      rw [Nat.succ_mul] at hmul
      unfold distance
      dsimp only
      omega

end Wait

theorem Course.step?_due (means : Means γ) {now : Moment} (s : Scene γ) {wait : Wait}
    (holds : View → Bool) (next : Bool → Activity α)
    (h : wait.readiness s.control.state now = .due) :
    (Course.waiting wait holds next).step? means now s =
      some (s, match wait.verdict means.poll now (holds (means.client.view s.game now)) with
        | .met => .doing (next true)
        | .late => .doing (next false)
        | .again wait => .waiting wait holds next) := by
  simp only [step?, h]
  split <;> simp_all

namespace Fiber

variable {engine : Engine γ} {now : Moment} {game : γ} {f : Fiber}
  {inv : Invocation} {below : List Invocation} {c : Course Flow}

theorem step?_moved {s : Scene γ} {c' : Course Flow} (hs : f.stack = inv :: below)
    (hp : f.phase = .busy c) (hend : c.end? = none)
    (hc : c.step? engine.means now (f.scene inv game) = some (s, c')) :
    f.step? engine now game =
      some (s.game, { f.withScene inv below s with phase := .busy c' }) := by
  unfold step?
  split
  · rename_i hphase
    rw [hp] at hphase
    cases hphase
  · rename_i hstack hphase
    rw [hs] at hstack
    rw [hp] at hphase
    cases hstack
    cases hphase
    rw [hend]
    simp [hc]
  · rename_i hready hbusy
    exact absurd hp (hbusy inv below c hs)

theorem step?_concluded {ending : Course.End Flow} (hs : f.stack = inv :: below)
    (hp : f.phase = .busy c) (hend : c.end? = some ending) :
    f.step? engine now game = some (conclude engine now game f inv below ending) := by
  unfold step?
  split
  · rename_i hphase
    rw [hp] at hphase
    cases hphase
  · rename_i hstack hphase
    rw [hs] at hstack
    rw [hp] at hphase
    cases hstack
    cases hphase
    rw [hend]
  · rename_i hready hbusy
    exact absurd hp (hbusy inv below c hs)

theorem step?_ready (hs : f.stack = inv :: below) (hp : f.phase = .ready) :
    f.step? engine now game = begin? engine now game f inv below := by
  unfold step?
  split
  · rename_i hstack _
    rw [hs] at hstack
    cases hstack
    rfl
  · rename_i hphase
    rw [hp] at hphase
    cases hphase
  · rename_i hready hbusy
    exact absurd hp (hready inv below hs)

theorem state_ne_stopped (hf : f.Governed (· = .started)) (hs : f.stack = inv :: below) :
    f.controls.state inv.control ≠ .stopped := by
  have h := governed_head hf hs
  unfold Controls.state
  rw [h]
  decide

/-- An invocation that runs has a next step, or comes to an end. -/
theorem step?_running (engine : Engine γ) (now : Moment) (game : γ) (hs : f.stack = inv :: below)
    (hp : f.phase = .ready)
    (hstate : f.controls.state inv.control = .running) : (f.step? engine now game).isSome := by
  rw [step?_ready hs hp]
  unfold begin?
  rw [hstate]
  dsimp only
  split <;> rfl

end Fiber

namespace Snapshot

variable {engine : Engine γ} {s : Snapshot γ} {c : Course Flow}

/-- A native run that runs freely, now and ever after: nobody pauses it. -/
structure Free (engine : Engine γ) (s : Snapshot γ) : Prop where
  native : s.Native
  governed : s.Governed (· = .started)
  unheld : ∀ n, ¬ (s.after engine n).run.fiber.Trips

theorem Free.tick (hs : s.Free engine) : (s.tick engine).Free engine := by
  have hu : ∀ n, ¬ ((s.tick engine).after engine n).run.fiber.Trips := by
    intro n
    rw [after_tick]
    exact hs.unheld (n + 1)
  rcases tick_eq_or_move engine (fun _ => False) s with h | h
  · rwa [h]
  · exact ⟨native_move h hs.native, governed_move Lifecycle.kept_started (.inr (hs.unheld 0))
      (fun _ hw => hw.elim) hs.native hs.governed h, hu⟩

theorem Free.after (hs : s.Free engine) (n : Nat) : (s.after engine n).Free engine := by
  induction n with
  | zero => exact hs
  | succ n ih =>
    rw [after_succ]
    exact ih.tick

structure Busy (c : Course Flow) (s : Snapshot γ) : Prop where
  running : s.run.outcome = none
  stacked : s.run.fiber.stack ≠ []
  phase : s.run.fiber.phase = .busy c

theorem Busy.result? (hb : s.Busy c) : s.run.fiber.result? = none := by
  simp [Fiber.result?, hb.phase]

theorem tick_of_step? {game : γ} {f : Fiber} (hn : s.Native) (ho : s.run.outcome = none)
    (hr : s.run.fiber.result? = none)
    (h : s.run.fiber.step? engine s.now s.game = some (game, f)) :
    s.tick engine = ⟨s.now, game, { s.run with fiber := f }⟩ := by
  have hb : s.run.bridge = none := hn
  have hstep : s.run.step? engine s.now s.game = some (game, { s.run with fiber := f }) := by
    simp [Run.step?, ho, hb, hr, h]
  simp [Snapshot.tick, hstep]

theorem tick_finishes {result : Except RunError Bool} (engine : Engine γ) (hn : s.Native)
    (ho : s.run.outcome = none) (hp : s.run.fiber.phase = .ended result) :
    s.tick engine = { s with run := s.run.finish s.now (result.map s.run.report) } := by
  have hb : s.run.bridge = none := hn
  have hr : s.run.fiber.result? = some result := by simp [Fiber.result?, hp]
  have hstep : s.run.step? engine s.now s.game =
      some (s.game, s.run.finish s.now (result.map s.run.report)) := by simp [Run.step?, ho, hb, hr]
  simp [Snapshot.tick, hstep]

/-- A tick of a run that is not over: a small step of its fiber, or only time. -/
theorem tick_native (engine : Engine γ) (hn : s.Native) (ho : s.run.outcome = none)
    (hr : s.run.fiber.result? = none) :
    (∃ game f, s.run.fiber.step? engine s.now s.game = some (game, f) ∧
      s.tick engine = ⟨s.now, game, { s.run with fiber := f }⟩) ∨
    s.run.fiber.step? engine s.now s.game = none ∧
      ∃ now, s.tick engine = { s with now := now } := by
  cases hf : s.run.fiber.step? engine s.now s.game with
  | some r => exact .inl ⟨r.1, r.2, rfl, tick_of_step? hn ho hr hf⟩
  | none =>
    have hb : s.run.bridge = none := hn
    have hstep : s.run.step? engine s.now s.game = none := by simp [Run.step?, ho, hb, hr, hf]
    cases hw : s.run.wake? s.now with
    | none => exact .inr ⟨rfl, s.now, by simp [Snapshot.tick, hstep, hw]⟩
    | some wake => exact .inr ⟨rfl, max s.now wake, by simp [Snapshot.tick, hstep, hw]⟩

theorem Free.head_started (hs : s.Free engine) (ho : s.run.outcome = none) {inv : Invocation}
    {below : List Invocation} (hstack : s.run.fiber.stack = inv :: below) :
    s.run.fiber.controls.lifecycle inv.control = .started :=
  Fiber.governed_head (hs.governed ho) hstack

theorem Free.tick_moved (hs : s.Free engine) (hb : s.Busy c) (hend : c.end? = none)
    {inv : Invocation} {below : List Invocation} (hstack : s.run.fiber.stack = inv :: below)
    {sc : Scene γ} {c' : Course Flow}
    (hc : c.step? engine.means s.now (s.run.fiber.scene inv s.game) = some (sc, c')) :
    (s.tick engine).Busy c' := by
  rw [tick_of_step? hs.native hb.running hb.result? (Fiber.step?_moved hstack hb.phase hend hc)]
  exact ⟨hb.running, List.cons_ne_nil _ _, rfl⟩

theorem Free.tick_asleep (hs : s.Free engine) {wait : Wait} {holds : View → Bool}
    {next : Bool → Activity Flow} (hb : s.Busy (.waiting wait holds next))
    (hw : s.now < wait.wake) : s.tick engine = { s with now := wait.wake } := by
  obtain ⟨inv, below, hstack⟩ := List.exists_cons_of_ne_nil hb.stacked
  have hstep : s.run.fiber.step? engine s.now s.game = none := by
    cases h : s.run.fiber.step? engine s.now s.game with
    | none => rfl
    | some r =>
      obtain ⟨game, f⟩ := r
      have hsmall := Fiber.smallStep_of_step? h
      -- A sleeping course has no step, and has not ended.
      exfalso
      generalize (game, f) = r at hsmall
      cases hsmall with
      | halted _ hp => rw [hb.phase] at hp; cases hp
      | finished _ hp => rw [hb.phase] at hp; cases hp
      | begun _ hp => rw [hb.phase] at hp; cases hp
      | moved _ hp hc =>
        rw [hb.phase] at hp
        cases hp
        simp [Course.step?, Wait.readiness_asleep hw] at hc
      | concluded _ hp hend =>
        rw [hb.phase] at hp
        cases hp
        cases hend
  have hnative : s.run.bridge = none := hs.native
  have hrun : s.run.step? engine s.now s.game = none := by
    simp [Run.step?, hb.running, hnative, hb.result?, hstep]
  have hwake : s.run.wake? s.now = some wait.wake := by
    simp [Run.wake?, hb.running, Fiber.wake?, hb.phase, Course.wake?, hw]
  simp [Snapshot.tick, hrun, hwake, Nat.max_eq_right (Nat.le_of_lt hw)]

/-- The course of the step that is under way comes to an end, and until then no other begins. -/
def Ends (engine : Engine γ) (s : Snapshot γ) : Prop :=
  ∃ n c, (s.after engine n).Busy c ∧ c.end?.isSome ∧
    ∀ m ≤ n, ∃ c, (s.after engine m).Busy c

theorem ends_now (hb : s.Busy c) (hend : c.end?.isSome) : s.Ends engine :=
  ⟨0, c, hb, hend, fun m hm => ⟨c, by rwa [Nat.le_zero.mp hm]⟩⟩

theorem ends_of_tick (hb : s.Busy c) (h : (s.tick engine).Ends engine) : s.Ends engine := by
  obtain ⟨n, c', hb', hend, hall⟩ := h
  refine ⟨n + 1, c', by rwa [← after_tick], hend, fun m hm => ?_⟩
  cases m with
  | zero => exact ⟨c, hb⟩
  | succ m =>
    rw [← after_tick]
    exact hall m (by omega)

/-- Induction on the distance of the wake-up from the deadline. -/
theorem waiting_ends {holds : View → Bool} {next : Bool → Activity Flow}
    (hnext : ∀ b (s : Snapshot γ), s.Free engine → s.Busy (.doing (next b)) → s.Ends engine) :
    ∀ (d : Nat) (wait : Wait) (s : Snapshot γ), wait.distance = d → s.Free engine →
      s.Busy (.waiting wait holds next) → s.Ends engine := by
  intro d
  induction d using Nat.strongRecOn with
  | ind d ih =>
    have due : ∀ (wait : Wait) (s : Snapshot γ), wait.distance = d → wait.wake ≤ s.now →
        s.Free engine → s.Busy (.waiting wait holds next) → s.Ends engine := by
      intro wait s hd hw hs hb
      obtain ⟨inv, below, hstack⟩ := List.exists_cons_of_ne_nil hb.stacked
      have hstate : (s.run.fiber.scene inv s.game).control.state = .running := by
        change (s.run.fiber.controls.lifecycle inv.control).state = .running
        rw [hs.head_started hb.running hstack, Lifecycle.started_state]
      have hstep := Course.step?_due engine.means (s.run.fiber.scene inv s.game) holds next
        (hstate ▸ Wait.readiness_running hw)
      apply ends_of_tick hb
      cases hv : wait.verdict engine.means.poll s.now
          (holds (engine.means.client.view (s.run.fiber.scene inv s.game).game s.now)) with
      | met =>
        rw [hv] at hstep
        exact hnext true _ hs.tick (hs.tick_moved hb rfl hstack hstep)
      | late =>
        rw [hv] at hstep
        exact hnext false _ hs.tick (hs.tick_moved hb rfl hstack hstep)
      | again wait' =>
        rw [hv] at hstep
        have hdist := (Wait.distance_again hw hv).2
        exact ih _ (hd ▸ hdist) wait' _ rfl hs.tick (hs.tick_moved hb rfl hstack hstep)
    intro wait s hd hs hb
    by_cases hw : wait.wake ≤ s.now
    · exact due wait s hd hw hs hb
    · apply ends_of_tick hb
      have htick := hs.tick_asleep hb (Nat.lt_of_not_le hw)
      have hfree := hs.tick
      rw [htick] at hfree ⊢
      exact due wait _ hd (Nat.le_refl _) hfree ⟨hb.running, hb.stacked, hb.phase⟩

/-- Induction on the activity. A pause for the user is excluded, and waits end. -/
theorem doing_ends (a : Activity Flow) :
    ∀ s : Snapshot γ, s.Free engine → s.Busy (.doing a) → s.Ends engine := by
  induction a with
  | done | fail => exact fun s _ hb => ends_now hb rfl
  | look next ih | issue action next ih | perform order next ih =>
    intro s hs hb
    obtain ⟨inv, below, hstack⟩ := List.exists_cons_of_ne_nil hb.stacked
    exact ends_of_tick hb (ih _ _ hs.tick (hs.tick_moved hb rfl hstack rfl))
  | echo text next ih =>
    intro s hs hb
    obtain ⟨inv, below, hstack⟩ := List.exists_cons_of_ne_nil hb.stacked
    exact ends_of_tick hb (ih _ hs.tick (hs.tick_moved hb rfl hstack rfl))
  | mark m next ih =>
    intro s hs hb
    obtain ⟨inv, below, hstack⟩ := List.exists_cons_of_ne_nil hb.stacked
    exact ends_of_tick hb (ih _ hs.tick (hs.tick_moved hb rfl hstack rfl))
  | pause span next ih =>
    intro s hs hb
    obtain ⟨inv, below, hstack⟩ := List.exists_cons_of_ne_nil hb.stacked
    apply ends_of_tick hb
    by_cases hz : span.isZero
    · exact ih _ hs.tick (hs.tick_moved hb rfl hstack
        (by rw [Course.step?, Course.proceed?, if_pos hz]))
    · exact waiting_ends (fun _ => ih) _ _ _ rfl hs.tick (hs.tick_moved hb rfl hstack
        (by rw [Course.step?, Course.proceed?, if_neg hz]))
  | await holds limit next ih =>
    intro s hs hb
    obtain ⟨inv, below, hstack⟩ := List.exists_cons_of_ne_nil hb.stacked
    exact ends_of_tick hb (waiting_ends ih _ _ _ rfl hs.tick (hs.tick_moved hb rfl hstack rfl))

theorem course_ends (hs : s.Free engine) (hb : s.Busy c) : s.Ends engine := by
  cases c with
  | doing a => exact doing_ends a s hs hb
  | waiting wait holds next =>
    exact waiting_ends (fun b => doing_ends (next b)) _ _ _ rfl hs hb
  | interrupted => exact ends_now hb rfl

end Snapshot
end MacroEngine
