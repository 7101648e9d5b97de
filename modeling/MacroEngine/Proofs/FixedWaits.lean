import MacroEngine.Proofs.Watching

/-! A fixed wait, which is a wait for what never holds. It ends at the first moment at or after its
deadline at which it is not paused, or at the first one after a stop at which it is awake. -/
namespace MacroEngine
namespace Watch
open Duration (nanosPerMilli)

def never : Nat → Moment → Bool := fun _ _ => false

variable {poll limit : Duration} {states : Moment → RunState} {begun now moment : Moment}
  {deadline : Nat} {w : Watch} {control : Lifecycle}

namespace Waits

/-- At or after its deadline a fixed wait ends unless it is paused or stopped. -/
theorem late (hw : Waits poll states begun deadline now w) (hlate : Wait.ceiling deadline ≤ now)
    (hp : states now ≠ .pausedNow) (hs : states now ≠ .stopped) :
    EndsAt poll never states (now, w) now .late := by
  have hverdict : w.wait.verdict poll now false = .late :=
    Wait.verdict_late (hw.fixed ▸ Wait.ceiling_le_iff.mp hlate) poll
  refine ⟨0, w, ((w.under (states now)).looked now).judged .late, rfl, ?_, rfl⟩
  exact hverdict ▸
    step?_due (w := w.under (states now)) hw.ending (Nat.le_trans hw.wake hlate) hp hs

/-- Before its deadline, and where it is paused, a fixed wait goes on. -/
theorem goes (hw : Waits poll states begun deadline now w)
    (h : states now = .pausedNow ∨ now < Wait.ceiling deadline ∧ states now ≠ .stopped) :
    ∃ n w', (beat poll never states)^[n] (now, w) = (now + 1, w') ∧
      Waits poll states begun deadline (now + 1) w' := by
  have idle : ∀ {w : Watch}, Waits poll states begun deadline now w →
      now < w.wait.wake ∨ states now = .pausedNow → ∃ n w',
        (beat poll never states)^[n] (now, w) = (now + 1, w') ∧
          Waits poll states begun deadline (now + 1) w' := fun hw h =>
    ⟨1, _, hw.idle h⟩
  by_cases hidle : now < w.wait.wake ∨ states now = .pausedNow
  · exact idle hw hidle
  · obtain ⟨hawake, hp⟩ := not_or.mp hidle
    obtain ⟨hearly, hs⟩ := h.resolve_left hp
    have hbefore : now * nanosPerMilli < w.wait.deadline := by
      rw [hw.fixed]
      exact Nat.lt_of_not_le fun hpast => Nat.not_le.mpr hearly (Wait.ceiling_le_iff.mpr hpast)
    obtain ⟨wait, hverdict⟩ := Wait.exists_again hbefore poll
    have hnever : w.wait.verdict poll now (never (w.looked now).looks.size now) = .again wait :=
      hverdict
    obtain ⟨w', hbeat, _, hasleep, hw'⟩ := hw.again (Nat.le_of_not_lt hawake) hp hs hnever
    obtain ⟨n, v, hrun, hv⟩ := idle hw' (.inl hasleep)
    exact ⟨n + 1, v, by rw [Function.iterate_succ_apply, hbeat, hrun], hv⟩

/-- It is still waiting at a moment before which it was neither stopped nor could have ended. -/
theorem reaches (hw : Waits poll states begun deadline now w) (hle : now ≤ moment)
    (h : ∀ i, now ≤ i → i < moment →
      states i = .pausedNow ∨ i < Wait.ceiling deadline ∧ states i ≠ .stopped) :
    ∃ n w', (beat poll never states)^[n] (now, w) = (moment, w') ∧
      Waits poll states begun deadline moment w' := by
  induction hle with
  | refl => exact ⟨0, w, rfl, hw⟩
  | @step moment hle ih =>
    obtain ⟨n, v, hrun, hv⟩ := ih fun i hi hlt => h i hi (Nat.lt_succ_of_lt hlt)
    obtain ⟨k, v', hrun', hv'⟩ := hv.goes (h moment hle (Nat.lt_succ_self moment))
    exact ⟨k + n, v', by rw [Function.iterate_add_apply, hrun, hrun'], hv'⟩

end Waits

/-- A fixed wait ends once. Whatever its pauses are its deadline stays where it was set, and it ends
in time at the first moment at or after the deadline at which it is not paused. A stop is seen by
the looks of the millisecond in which it is requested, or else by those of the next one on. If it is
seen before the wait ends, it interrupts it at the first moment from then on that its sleep under
way does not go past. This is at most one poll interval after the moment from which it is seen, and
at most one poll interval, rounded up to whole milliseconds, after the request. -/
theorem sleep_on_time (hlimit : limit.nanos < Wait.horizon) (poll : Duration)
    (states : Moment → RunState) (begun : Moment) (control : Lifecycle) :
    let s := (begun, start begun limit control)
    let deadline := begun * nanosPerMilli + limit.nanos
    (∀ n, ((beat poll never states)^[n] s).2.wait.deadline = deadline) ∧
    (∀ m e m' e', EndsAt poll never states s m e → EndsAt poll never states s m' e' →
      m = m' ∧ e = e') ∧
    (∀ moment, Wait.ceiling deadline ≤ moment → states moment ≠ .pausedNow →
      (∀ i, Wait.ceiling deadline ≤ i → i < moment → states i = .pausedNow) →
      (∀ i, begun ≤ i → i ≤ moment → states i ≠ .stopped) →
      EndsAt poll never states s moment .late) ∧
    (∀ stop seen, begun ≤ stop → seen = stop ∨ seen = stop + 1 →
      (∀ i, seen ≤ i → states i = .stopped) →
      (∀ i, begun ≤ i → i < seen → states i ≠ .stopped) →
      (∀ i, Wait.ceiling deadline ≤ i → i < seen → states i = .pausedNow) →
      ∃ n w, (beat poll never states)^[n] s = (seen, w) ∧ w.ending = none ∧
        EndsAt poll never states s (max seen w.wait.wake) .interrupted ∧
        (max seen w.wait.wake - seen) * nanosPerMilli ≤ max poll.nanos nanosPerMilli ∧
        max seen w.wait.wake ≤ stop + Wait.stride poll) ∧
    (0 < poll.nanos → nanosPerMilli ∣ poll.nanos →
      Wait.stride poll * nanosPerMilli = poll.nanos) := by
  intro s deadline
  have hstart : Waits poll states begun deadline begun (start begun limit control) :=
    waits_start hlimit poll states begun control
  have hgoes : ∀ moment, (∀ i, begun ≤ i → i < moment → states i ≠ .stopped) →
      (∀ i, Wait.ceiling deadline ≤ i → i < moment → states i = .pausedNow) →
      ∀ i, begun ≤ i → i < moment →
        states i = .pausedNow ∨ i < Wait.ceiling deadline ∧ states i ≠ .stopped := by
    intro moment hrunning hpaused i hi hlt
    by_cases hlate : Wait.ceiling deadline ≤ i
    · exact .inl (hpaused i hlate hlt)
    · exact .inr ⟨Nat.lt_of_not_le hlate, hrunning i hi hlt⟩
  refine ⟨fun n => (deadline_beats s n).trans hstart.fixed,
    fun m e m' e' h h' => h.unique h', ?_, ?_, Wait.stride_of_dvd⟩
  · intro moment hlate hp hpaused hrunning
    have hbegun : begun ≤ moment := Nat.le_trans hstart.wake hlate
    obtain ⟨n, w, hrun, hw⟩ := hstart.reaches hbegun
      (hgoes moment (fun i hi hlt => hrunning i hi (Nat.le_of_lt hlt)) hpaused)
    exact (hw.late hlate hp (hrunning moment hbegun (Nat.le_refl _))).of_beats hrun
  · intro stop seen hbegun hseen hstop hrunning hpaused
    have hbegun' : begun ≤ seen := by
      rcases hseen with rfl | rfl
      · exact hbegun
      · exact Nat.le_succ_of_le hbegun
    have hsoon : seen ≤ stop + 1 := by
      rcases hseen with rfl | rfl
      · exact Nat.le_succ _
      · exact Nat.le_refl _
    obtain ⟨n, w, hrun, hw⟩ := hstart.reaches hbegun' (hgoes seen hrunning hpaused)
    obtain ⟨hends, hshort⟩ : EndsAt poll never states (seen, w) (max seen w.wait.wake) .interrupted ∧
        (max seen w.wait.wake - seen) * nanosPerMilli ≤ Wait.slice poll := hw.halts hbegun' hstop
    exact ⟨n, w, hrun, hw.ending, hends.of_beats hrun, hshort, hw.halts_by hbegun' hstop hsoon⟩

/-- A pause that outlasts a wait of 250.5 ms begun at 10 ms. -/
def napping (moment : Moment) : RunState :=
  if 120 ≤ moment ∧ moment < 400 then .pausedNow else .running

def roused (moment : Moment) : RunState := if moment < 57 then .running else .stopped

def nap : Moment × Watch := (10, start 10 ⟨250500000⟩ .started)

theorem sleep_on_time_napping :
    (250500000 : Nat) < Wait.horizon ∧ Wait.ceiling (10 * nanosPerMilli + 250500000) = 261 ∧
    EndsAt (.ofMillis 100) never napping nap 400 .late ∧
    ∃ n w, (beat (.ofMillis 100) never roused)^[n] nap = (57, w) ∧ w.ending = none ∧
      EndsAt (.ofMillis 100) never roused nap (max 57 w.wait.wake) .interrupted ∧
      max 57 w.wait.wake ≤ 56 + 100 := by
  have hlimit : (⟨250500000⟩ : Duration).nanos < Wait.horizon := by decide
  have hceiling : Wait.ceiling (10 * nanosPerMilli + 250500000) = 261 := by decide
  obtain ⟨_, _, hends, _⟩ := sleep_on_time hlimit (.ofMillis 100) napping 10 .started
  obtain ⟨_, _, _, hstops, _⟩ := sleep_on_time hlimit (.ofMillis 100) roused 10 .started
  refine ⟨hlimit, hceiling, hends 400 (by decide) (by decide) (fun i hi hlt => ?_)
    (fun i _ _ => ?_), ?_⟩
  · rw [hceiling] at hi
    exact if_pos ⟨Nat.le_trans (by decide) hi, hlt⟩
  · unfold napping
    split <;> decide
  · obtain ⟨n, w, hrun, hending, hend, _, hshort⟩ :=
      hstops 56 57 (by decide) (.inr rfl) (fun i hi => if_neg (Nat.not_lt.mpr hi))
        (fun i _ hlt => by rw [roused, if_pos hlt]; decide) (fun i hi hlt => by
          rw [hceiling] at hi
          exact absurd (Nat.lt_of_le_of_lt hi hlt) (by decide))
    exact ⟨n, w, hrun, hending, hend, hshort⟩

/-- A stop that is requested right after the look of the first moment. -/
def hushed (moment : Moment) : RunState := if moment = 0 then .running else .stopped

def drowsing (moment : Moment) : RunState :=
  if moment < 2 then .running else if moment < 20 then .pausedNow else .stopped

/-- With a poll interval of 1.5 ms a stop that is requested at once can take 2 ms. Where a stop ends
a pause after the deadline, the first moment that is not paused is the one that interrupts. -/
theorem sleep_stopped_late :
    ((∀ i, 1 ≤ i → hushed i = .stopped) ∧
      EndsAt ⟨1500000⟩ never hushed (0, start 0 (.ofMillis 10) .started) 2 .interrupted ∧
      1500000 < (2 - 0) * nanosPerMilli) ∧
    (∀ i < 20, 5 ≤ i → drowsing i = .pausedNow) ∧ drowsing 20 ≠ .pausedNow ∧
      (∀ i < 20, drowsing i ≠ .stopped) ∧
      EndsAt (.ofMillis 100) never drowsing (0, start 0 (.ofMillis 5) .started) 20
        .interrupted := by
  refine ⟨⟨fun i hi => if_neg (Nat.ne_of_gt hi), ⟨3, _, _, rfl, rfl, rfl⟩, by decide⟩,
    by decide, by decide, by decide, ⟨21, _, _, rfl, rfl, rfl⟩⟩

end Watch
end MacroEngine
