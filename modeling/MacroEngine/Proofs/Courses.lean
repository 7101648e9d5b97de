import MacroEngine.Proofs.Checks
import MacroEngine.Proofs.Underway

/-! The course of a step in an invocation that runs comes to its end, or to a check that pauses
the macro, whatever the invocations below are told to do. What its small steps keep holds there.
No check pauses the macro in a game that never calls for it. -/
namespace MacroEngine

theorem Lifecycle.boundary_running {l : Lifecycle} (h : l.state = .running) :
    l.apply .loopBoundary = l := by
  obtain ⟨state, single⟩ := l
  cases h
  rfl

def Course.Keeps (means : Means γ) (P : List Frame → Course Flow → Prop) : Prop :=
  ∀ {now : Moment} {s s' : Scene γ} {c c' : Course Flow}, s.control.state = .running →
    P s.frames c → c.step? means now s = some (s', c') → P s'.frames c'

/-- Nothing but a check pauses an invocation that runs. -/
theorem Course.running_step? {means : Means γ} {now : Moment} {s s' : Scene γ} {c c' : Course α}
    (hs : s.control.state = .running) (hc : ∀ reason next, c ≠ .doing (.mark (.held reason) next))
    (h : c.step? means now s = some (s', c')) : s'.control = s.control := by
  cases smallStep_of_step? h with
  | @mark m next =>
    cases m with
    | crossed | frames => rfl
    | boundary => exact Lifecycle.boundary_running hs
    | held reason => exact absurd rfl (hc reason next)
  | _ => rfl

namespace Snapshot

variable {engine : Engine γ} {s : Snapshot γ} {inv : Invocation} {below : List Invocation}
  {c : Course Flow} {P : List Frame → Course Flow → Prop}

theorem orderly_after (hs : s.run.Orderly) (n : Nat) : (s.after engine n).run.Orderly := by
  have hmoves : Moves engine (fun _ => True) s (s.after engine n) := moves_after s n
  exact orderly_moves hs hmoves

structure Going (inv : Invocation) (below : List Invocation) (c : Course Flow) (s : Snapshot γ) :
    Prop where
  orderly : s.run.Orderly
  stack : s.run.fiber.stack = inv :: below
  phase : s.run.fiber.phase = .busy c
  running : s.run.fiber.controls.state inv.control = .running

theorem Going.tick (hg : s.Going inv below c) {scene : Scene γ} {c' : Course Flow}
    (hc : ∀ reason next, c ≠ .doing (.mark (.held reason) next))
    (h : c.step? engine.means s.now (s.run.fiber.scene inv s.game) = some (scene, c')) :
    (s.tick engine).Going { inv with frames := scene.frames } below c' := by
  have hcontrol := Course.running_step? (s := s.run.fiber.scene inv s.game) hg.running hc h
  have htick : s.tick engine = _ := tick_moves hg.orderly hg.stack hg.phase h
  refine ⟨orderly_tick hg.orderly, by rw [htick]; rfl, by rw [htick], ?_⟩
  have hset : (s.run.fiber.controls.set inv.control scene.control).lifecycle inv.control =
      scene.control := Controls.lifecycle_set_self (live_innermost hg.orderly hg.stack)
  rw [htick]
  change ((s.run.fiber.controls.set inv.control scene.control).lifecycle inv.control).state = _
  rw [hset, hcontrol]
  exact hg.running

theorem tick_sleeps {wait : Wait} {holds : View → Bool} {next : Bool → Activity Flow}
    (hg : s.Going inv below (.waiting wait holds next)) (hw : s.now < wait.wake) :
    s.tick engine = { s with now := wait.wake } := by
  have hstep : s.run.step? engine s.now s.game = none := by
    rw [hg.orderly.step?_stacked (by rw [hg.stack]; exact List.cons_ne_nil _ _)]
    unfold Fiber.step?
    rw [hg.stack, hg.phase]
    simp [Course.end?, Course.step?, Wait.readiness_asleep hw]
  have ho : ¬ s.run.outcome.isSome := by
    intro ho
    have hempty := hg.orderly.finished ho
    rw [hg.stack] at hempty
    cases hempty
  have hwake : s.run.wake? s.now = some wait.wake := by
    simp [Run.wake?, ho, Fiber.wake?, hg.phase, Course.wake?, hw]
  simp [Snapshot.tick, hstep, hwake, Nat.max_eq_right (Nat.le_of_lt hw)]

/-- The course comes to its end, or to a check that is about to pause the macro. -/
def Arrives (engine : Engine γ) (P : List Frame → Course Flow → Prop) (inv : Invocation)
    (below : List Invocation) (s : Snapshot γ) : Prop :=
  ∃ n frames c, (s.after engine n).Going { inv with frames := frames } below c ∧ P frames c ∧
    (c.end?.isSome ∨ ∃ reason next, c = .doing (.mark (.held reason) next))

theorem arrives_now (hg : s.Going inv below c) (hc : P inv.frames c)
    (h : c.end?.isSome ∨ ∃ reason next, c = .doing (.mark (.held reason) next)) :
    s.Arrives engine P inv below :=
  ⟨0, inv.frames, c, hg, hc, h⟩

theorem arrives_of_tick (h : (s.tick engine).Arrives engine P inv below) :
    s.Arrives engine P inv below := by
  obtain ⟨n, frames, c, hg, hc, hend⟩ := h
  exact ⟨n + 1, frames, c, by rwa [← after_tick], hc, hend⟩

theorem arrives_of_step (hP : Course.Keeps engine.means P) (hg : s.Going inv below c)
    (hp : P inv.frames c) {scene : Scene γ} {c' : Course Flow}
    (hc : ∀ reason next, c ≠ .doing (.mark (.held reason) next))
    (hstep : c.step? engine.means s.now (s.run.fiber.scene inv s.game) = some (scene, c'))
    (hnext : (s.tick engine).Going { inv with frames := scene.frames } below c' →
      P scene.frames c' → (s.tick engine).Arrives engine P { inv with frames := scene.frames } below) :
    s.Arrives engine P inv below :=
  arrives_of_tick (hnext (hg.tick hc hstep)
    (hP (s := s.run.fiber.scene inv s.game) hg.running hp hstep))

/-- Induction on the distance of the wake-up from the deadline. -/
theorem waiting_arrives (hP : Course.Keeps engine.means P) {holds : View → Bool}
    {next : Bool → Activity Flow}
    (hnext : ∀ b (s : Snapshot γ) inv, s.Going inv below (.doing (next b)) →
      P inv.frames (.doing (next b)) → s.Arrives engine P inv below) :
    ∀ (d : Nat) (wait : Wait) (s : Snapshot γ) (inv : Invocation), wait.distance = d →
      s.Going inv below (.waiting wait holds next) → P inv.frames (.waiting wait holds next) →
      s.Arrives engine P inv below := by
  intro d
  induction d using Nat.strongRecOn with
  | ind d ih =>
    have due : ∀ (wait : Wait) (s : Snapshot γ) (inv : Invocation), wait.distance = d →
        wait.wake ≤ s.now → s.Going inv below (.waiting wait holds next) →
        P inv.frames (.waiting wait holds next) → s.Arrives engine P inv below := by
      intro wait s inv hd hw hg hp
      have hrunning : (s.run.fiber.scene inv s.game).control.state = .running := hg.running
      have hstep := Course.step?_due engine.means (s.run.fiber.scene inv s.game) holds next
        (hrunning ▸ Wait.readiness_running hw)
      refine arrives_of_step hP hg hp (fun _ _ => by simp) hstep fun hgoing hkept => ?_
      cases hv : wait.verdict engine.means.poll s.now
          (holds (engine.means.client.view (s.run.fiber.scene inv s.game).game s.now)) with
      | met =>
        rw [hv] at hgoing hkept
        exact hnext true _ _ hgoing hkept
      | late =>
        rw [hv] at hgoing hkept
        exact hnext false _ _ hgoing hkept
      | again wait' =>
        rw [hv] at hgoing hkept
        exact ih _ (hd ▸ (Wait.distance_again hw hv).2) wait' _ _ rfl hgoing hkept
    intro wait s inv hd hg hp
    by_cases hw : wait.wake ≤ s.now
    · exact due wait s inv hd hw hg hp
    · apply arrives_of_tick
      rw [tick_sleeps hg (Nat.lt_of_not_le hw)]
      exact due wait _ inv hd (Nat.le_refl _) ⟨hg.orderly, hg.stack, hg.phase, hg.running⟩ hp

/-- Induction on the activity; its waits end. -/
theorem doing_arrives (hP : Course.Keeps engine.means P) (a : Activity Flow) :
    ∀ (s : Snapshot γ) (inv : Invocation), s.Going inv below (.doing a) → P inv.frames (.doing a) →
      s.Arrives engine P inv below := by
  induction a with
  | done | fail => exact fun s inv hg hp => arrives_now hg hp (.inl rfl)
  | look next ih | issue action next ih | perform order next ih =>
    exact fun s inv hg hp =>
      arrives_of_step hP hg hp (fun _ _ => by simp) rfl (ih _ _ _)
  | echo text next ih =>
    exact fun s inv hg hp => arrives_of_step hP hg hp (fun _ _ => by simp) rfl (ih _ _)
  | mark m next ih =>
    intro s inv hg hp
    cases m with
    | held reason => exact arrives_now hg hp (.inr ⟨reason, next, rfl⟩)
    | crossed | frames | boundary =>
      exact arrives_of_step hP hg hp (fun _ _ => by simp) rfl (ih _ _)
  | pause span next ih =>
    intro s inv hg hp
    by_cases hz : span.isZero
    · exact arrives_of_step hP hg hp (fun _ _ => by simp)
        (by rw [Course.step?, Course.proceed?, if_pos hz]) (ih _ _)
    · exact arrives_of_step hP hg hp (fun _ _ => by simp)
        (by rw [Course.step?, Course.proceed?, if_neg hz])
        (waiting_arrives hP (fun _ => ih) _ _ _ _ rfl)
  | await holds limit next ih =>
    exact fun s inv hg hp => arrives_of_step hP hg hp (fun _ _ => by simp) rfl
      (waiting_arrives hP ih _ _ _ _ rfl)

theorem course_arrives (hP : Course.Keeps engine.means P) (hg : s.Going inv below c)
    (hp : P inv.frames c) : s.Arrives engine P inv below := by
  cases c with
  | doing a => exact doing_arrives hP a s inv hg hp
  | waiting wait holds next =>
    exact waiting_arrives hP (fun b => doing_arrives hP (next b)) _ _ _ _ rfl hg hp
  | interrupted => exact arrives_now hg hp (.inl rfl)

end Snapshot

def View.Quiet (view : View) : Prop := ∀ command : Command, command.warning? view = none

def Activity.Unheld : Activity α → Prop
  | .mark (.held _) _ => False
  | _ => True

namespace Execution
open Activity

theorem unheld_check {reason : String} {trips : View → Bool} (wait : WaitSpan)
    (h : ∀ view : View, view.Quiet → trips view = false) :
    (check reason wait trips).Always View.Quiet Unheld := by
  refine ⟨trivial, fun view hquiet => ?_⟩
  simp [h view hquiet, Always, Unheld]

theorem unheld_within {p : Order → Prop} {q : Mark → Prop} (hq : ∀ reason, ¬ q (.held reason))
    (a : Activity α) (ha : a.Within p q) : a.Always View.Quiet Unheld := by
  refine Within.always a ha fun a hmark => ?_
  unfold Unheld
  split
  · exact hq _ (hmark _ _ rfl)
  · trivial

theorem unheld_step (rules : Rules) (chain : List String) (index : Nat) (frames : List Frame)
    (step : Step) : (Execution.step rules chain index frames step).Always View.Quiet Unheld := by
  refine ⟨trivial, fun view _ => ?_⟩
  dsimp only
  split
  · exact ⟨trivial, trivial⟩
  · rename_i eff _
    have hwithin := within_command rules chain index frames step eff
    unfold command at hwithin ⊢
    cases hc : step.command with
    | requireRepair =>
      exact unheld_check _ fun view hquiet => by simpa [Command.warning?] using hquiet .requireRepair
    | requireSpiritbond below =>
      exact unheld_check _ fun view hquiet => by
        simpa [Command.warning?] using hquiet (.requireSpiritbond below)
    | craft | loop =>
      rw [hc] at hwithin
      exact unheld_within (fun reason hm => hm reason rfl) _ hwithin
    | _ =>
      rw [hc] at hwithin
      exact unheld_within (fun _ hm => hm) _ hwithin

end Execution

theorem Client.still_quiet (game : Unit) (now : Moment) : (Client.still.view game now).Quiet := by
  intro command
  cases command <;> rfl

theorem lasting_unheld {engine : Engine γ}
    (hquiet : ∀ game now, (engine.client.view game now).Quiet) :
    Lasting engine fun _ c => c.Always View.Quiet Activity.Unheld where
  begun chain inv step _ := Execution.unheld_step engine.rules chain inv.cursor inv.frames step
  moved _ hc h := Course.always_step? hquiet hc h
  resumed _ _ _ := ⟨trivial, trivial, trivial⟩

namespace Snapshot

/-- Whatever is asked of a run, in a game that never calls for it no check pauses its macro. -/
theorem not_trips_of_quiet {engine : Engine γ} {asks : Controls.Wish → Prop} {s t : Snapshot γ}
    (hquiet : ∀ game now, (engine.client.view game now).Quiet) (hfresh : s.run.Fresh)
    (h : Moves engine asks s t) : ¬ t.run.fiber.Trips := by
  rintro ⟨reason, next, hp⟩
  have hu := underway_moves (lasting_unheld hquiet) hfresh h
  have hstack : t.run.fiber.stack ≠ [] := by
    intro he
    obtain ⟨result, hresult⟩ :=
      (orderly_moves (Run.orderly_fresh hfresh) h).grounded.emptied.mpr he
    rw [hp] at hresult
    cases hresult
  obtain ⟨inv, below, hs⟩ := List.exists_cons_of_ne_nil hstack
  exact (hu.top inv below _ hs hp).1

end Snapshot
end MacroEngine
