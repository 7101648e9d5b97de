import MacroEngine.Proofs.Stopping
import MacroEngine.Run.Solo

/-! A wait under a timeline of control states. At each moment the wait does what it can in the
state of that moment; where it can do nothing a millisecond passes. Its deadline stays where it
was set, its sleeps are short, and between them it only stands still where it is paused. -/
namespace MacroEngine

namespace Wait
open Duration (nanosPerMilli)

/-- The longest sleep of a wait, in nanoseconds. -/
def slice (poll : Duration) : Nat := max poll.nanos nanosPerMilli

theorem slice_pos (poll : Duration) : 0 < slice poll :=
  Nat.lt_of_lt_of_le nanosPerMilli_pos (Nat.le_max_right _ _)

/-- The poll interval as the clock keeps it, in milliseconds. -/
def stride (poll : Duration) : Nat := ceiling (slice poll)

theorem stride_pos (poll : Duration) : 0 < stride poll := by
  have hslice := lt_ceiling 0 (slice_pos poll)
  rwa [Nat.zero_mul, Nat.zero_add] at hslice

theorem stride_of_dvd {poll : Duration} (hpos : 0 < poll.nanos) (h : nanosPerMilli ∣ poll.nanos) :
    stride poll * nanosPerMilli = poll.nanos := by
  have hslice : slice poll = poll.nanos := Nat.max_eq_left (Nat.le_of_dvd hpos h)
  rw [stride, hslice]
  obtain ⟨k, hk⟩ := h
  rw [hk, Nat.mul_comm nanosPerMilli k, ceiling_millis]

theorem ceiling_le_iff {nanos : Nat} {moment : Moment} :
    ceiling nanos ≤ moment ↔ nanos ≤ moment * nanosPerMilli := by
  have hm : nanosPerMilli = 1000000 := rfl
  change (nanos + (nanosPerMilli - 1)) / nanosPerMilli ≤ moment ↔ _
  rw [hm]
  omega

theorem ceiling_mul_lt (nanos : Nat) : ceiling nanos * nanosPerMilli < nanos + nanosPerMilli := by
  have hm : nanosPerMilli = 1000000 := rfl
  change (nanos + (nanosPerMilli - 1)) / nanosPerMilli * nanosPerMilli < _
  rw [hm]
  omega

/-- The deadline of a span that the clock has room for. -/
theorem deadline_start {limit : Duration} (h : limit.nanos < horizon) (now : Moment) :
    (start now limit).deadline = now * nanosPerMilli + limit.nanos := by
  simp [start, h]

variable {w w' : Wait} {poll : Duration} {now : Moment} {holds : Bool}

/-- A look before the deadline that finds nothing leads to another sleep, and one at or after it
does not. -/
theorem exists_again (h : now * nanosPerMilli < w.deadline) (poll : Duration) :
    ∃ w', w.verdict poll now false = .again w' := by
  simp [verdict, Nat.not_le.mpr h]

theorem verdict_late (h : w.deadline ≤ now * nanosPerMilli) (poll : Duration) :
    w.verdict poll now false = .late := by
  simp [verdict, h]

/-- A look that leads to another sleep came before the deadline, and the sleep is a short one that
does not pass the deadline. -/
theorem again_of_verdict (h : w.verdict poll now holds = .again w') :
    now * nanosPerMilli < w.deadline ∧ w'.deadline = w.deadline ∧ now < w'.wake ∧
      w'.wake ≤ ceiling w.deadline ∧
      w'.wake * nanosPerMilli < now * nanosPerMilli + slice poll + nanosPerMilli := by
  unfold verdict at h
  dsimp only at h
  split at h
  · cases h
  · split at h
    · cases h
    · rename_i hlate
      cases h
      have hbefore : now * nanosPerMilli < w.deadline := Nat.lt_of_not_le hlate
      have hslice := slice_pos poll
      have hspan : 0 < min (w.deadline - now * nanosPerMilli) (slice poll) := by omega
      refine ⟨hbefore, rfl, lt_ceiling now hspan, ceiling_mono ?_, ?_⟩
      · exact Nat.le_trans (Nat.add_le_add_left (Nat.min_le_left _ _) _) (by omega)
      · refine Nat.lt_of_lt_of_le (ceiling_mul_lt _) (Nat.add_le_add_right ?_ _)
        exact Nat.add_le_add_left (Nat.min_le_right _ _) _

end Wait

namespace Watch
open Duration (nanosPerMilli)

variable {poll : Duration} {holds : Nat → Moment → Bool} {states : Moment → RunState}
  {now moment : Moment} {w w' : Watch} {ending : WatchEnd}

def under (w : Watch) (state : RunState) : Watch := { w with control := ⟨state, false⟩ }

/-- One look, or an interruption, if it is time in the state of the moment; else a millisecond. -/
def beat (poll : Duration) (holds : Nat → Moment → Bool) (states : Moment → RunState)
    (s : Moment × Watch) : Moment × Watch :=
  match (s.2.under (states s.1)).step? poll holds s.1 with
  | some w => (s.1, w)
  | none => (s.1 + 1, s.2)

def EndsAt (poll : Duration) (holds : Nat → Moment → Bool) (states : Moment → RunState)
    (s : Moment × Watch) (moment : Moment) (ending : WatchEnd) : Prop :=
  ∃ n w w', (beat poll holds states)^[n] s = (moment, w) ∧
    (w.under (states moment)).step? poll holds moment = some w' ∧ w'.ending = some ending

theorem ending_of_step? (h : w.step? poll holds now = some w') : w.ending = none := by
  unfold step? at h
  split at h
  · cases h
  · rename_i hnone
    exact Option.not_isSome_iff_eq_none.mp hnone

theorem ended_beat {s : Moment × Watch} (h : s.2.ending ≠ none) :
    (beat poll holds states s).2.ending ≠ none := by
  unfold beat
  split
  · rename_i hstep
    exact absurd (ending_of_step? hstep) h
  · exact h

theorem ended_beats {s : Moment × Watch} (h : s.2.ending ≠ none) (n : Nat) :
    ((beat poll holds states)^[n] s).2.ending ≠ none := by
  induction n with
  | zero => exact h
  | succ n ih =>
    rw [Function.iterate_succ_apply']
    exact ended_beat ih

theorem EndsAt.unique {s : Moment × Watch} {moment' : Moment} {ending' : WatchEnd}
    (h : EndsAt poll holds states s moment ending)
    (h' : EndsAt poll holds states s moment' ending') : moment = moment' ∧ ending = ending' := by
  have before : ∀ {n n' m m' v v' x x' e}, (beat poll holds states)^[n] s = (m, v) →
      (v.under (states m)).step? poll holds m = some x → x.ending = some e →
      (beat poll holds states)^[n'] s = (m', v') →
      (v'.under (states m')).step? poll holds m' = some x' → n' ≤ n := by
    intro n n' m m' v v' x x' e hrun hstep hend hrun' hstep'
    by_contra hlt
    obtain ⟨k, rfl⟩ : ∃ k, n' = k + (n + 1) := ⟨n' - (n + 1), by omega⟩
    have hbeat : (beat poll holds states)^[n + 1] s = (m, x) := by
      rw [Function.iterate_succ_apply', hrun, beat, hstep]
    rw [Function.iterate_add_apply, hbeat] at hrun'
    have hended : ((beat poll holds states)^[k] (m, x)).2.ending ≠ none :=
      ended_beats (by simp [hend]) k
    rw [hrun'] at hended
    exact hended (ending_of_step? (w := v'.under (states m')) hstep')
  obtain ⟨n, v, x, hrun, hstep, hend⟩ := h
  obtain ⟨n', v', x', hrun', hstep', hend'⟩ := h'
  have hn : n = n' := Nat.le_antisymm (before hrun' hstep' hend' hrun hstep)
    (before hrun hstep hend hrun' hstep')
  subst hn
  obtain ⟨rfl, rfl⟩ := Prod.mk.inj (hrun.symm.trans hrun')
  rw [hstep] at hstep'
  cases hstep'
  exact ⟨rfl, Option.some.inj (hend.symm.trans hend')⟩

theorem EndsAt.of_beats {s t : Moment × Watch} {n : Nat}
    (hrun : (beat poll holds states)^[n] s = t) (h : EndsAt poll holds states t moment ending) :
    EndsAt poll holds states s moment ending := by
  obtain ⟨k, v, x, hk, hstep, hend⟩ := h
  exact ⟨k + n, v, x, by rw [Function.iterate_add_apply, hrun, hk], hstep, hend⟩

theorem deadline_step? (h : w.step? poll holds now = some w') :
    w'.wait.deadline = w.wait.deadline := by
  unfold step? at h
  split at h
  · cases h
  split at h
  · cases h
  · cases h
  · cases h
    rfl
  · dsimp only at h
    split at h
    · cases h
      rfl
    · cases h
      rfl
    · rename_i hverdict
      cases h
      exact (Wait.again_of_verdict hverdict).2.1

theorem deadline_beats (s : Moment × Watch) (n : Nat) :
    ((beat poll holds states)^[n] s).2.wait.deadline = s.2.wait.deadline := by
  induction n with
  | zero => rfl
  | succ n ih =>
    rw [Function.iterate_succ_apply', ← ih]
    generalize (beat poll holds states)^[n] s = t
    unfold beat
    split
    · rename_i hstep
      exact deadline_step? (w := t.2.under (states t.1)) hstep
    · rfl

/-! What a watch does at a moment. -/

theorem step?_asleep (h : now < w.wait.wake) : w.step? poll holds now = none := by
  simp [step?, Wait.readiness_asleep h]

theorem step?_held (h : w.control.state = .pausedNow) : w.step? poll holds now = none := by
  unfold step? Wait.readiness
  rw [h]
  split
  · rfl
  · by_cases hlt : now < w.wait.wake <;> simp [hlt]

theorem step?_stopped (he : w.ending = none) (hw : w.wait.wake ≤ now)
    (h : w.control.state = .stopped) :
    w.step? poll holds now = some { w with ending := some .interrupted } := by
  simp [step?, Wait.readiness, he, h, Nat.not_lt.mpr hw]

def looked (w : Watch) (now : Moment) : Watch := { w with looks := w.looks.push now }

def judged (w : Watch) : Verdict → Watch
  | .met => { w with ending := some .met }
  | .late => { w with ending := some .late }
  | .again wait => { w with wait := wait }

theorem step?_due (he : w.ending = none) (hw : w.wait.wake ≤ now)
    (hp : w.control.state ≠ .pausedNow) (hs : w.control.state ≠ .stopped) :
    w.step? poll holds now = some ((w.looked now).judged
      (w.wait.verdict poll now (holds (w.looked now).looks.size now))) := by
  have hready : w.wait.readiness w.control.state now = .due := by
    unfold Wait.readiness
    rw [if_neg (Nat.not_lt.mpr hw)]
    split
    · exact absurd ‹_› hp
    · exact absurd ‹_› hs
    · rfl
  unfold step?
  rw [if_neg (by simp [he]), hready]
  dsimp only [judged, looked]
  cases w.wait.verdict poll now (holds (w.looks.push now).size now) <;> rfl

structure Waits (poll : Duration) (states : Moment → RunState) (begun : Moment) (deadline : Nat)
    (now : Moment) (w : Watch) : Prop where
  ending : w.ending = none
  fixed : w.wait.deadline = deadline
  wake : w.wait.wake ≤ Wait.ceiling deadline
  /-- It stands still only where it is paused. -/
  held : ∀ i, w.wait.wake ≤ i → i < now → states i = .pausedNow
  /-- The sleep under way began with a look, and is a short one. -/
  short : w.wait.wake = begun ∨ ∃ look ≤ now, look < w.wait.wake ∧ states look ≠ .stopped ∧
    w.wait.wake * nanosPerMilli < look * nanosPerMilli + Wait.slice poll + nanosPerMilli

theorem waits_start {limit : Duration} (h : limit.nanos < Wait.horizon) (poll : Duration)
    (states : Moment → RunState) (begun : Moment) (control : Lifecycle) :
    Waits poll states begun (begun * nanosPerMilli + limit.nanos) begun
      (start begun limit control) where
  ending := rfl
  fixed := Wait.deadline_start h begun
  wake := by
    have hstart := Wait.ceiling_mono (Nat.le_add_right (begun * nanosPerMilli) limit.nanos)
    rwa [Wait.ceiling_millis] at hstart
  held := fun i hle hlt => absurd hle (Nat.not_le.mpr hlt)
  short := .inl rfl

namespace Waits

variable {begun : Moment} {deadline : Nat}

theorem idle (hw : Waits poll states begun deadline now w)
    (h : now < w.wait.wake ∨ states now = .pausedNow) :
    beat poll holds states (now, w) = (now + 1, w) ∧
      Waits poll states begun deadline (now + 1) w := by
  have hstep : (w.under (states now)).step? poll holds now = none :=
    h.elim (fun h => step?_asleep h) fun h => step?_held h
  refine ⟨by simp [beat, hstep], hw.ending, hw.fixed, hw.wake, fun i hle hlt => ?_,
    hw.short.imp_right fun ⟨look, hlook, hshort⟩ => ⟨look, Nat.le_succ_of_le hlook, hshort⟩⟩
  rcases Nat.lt_succ_iff_lt_or_eq.mp hlt with hlt | rfl
  · exact hw.held i hle hlt
  · exact h.resolve_left (Nat.not_lt.mpr hle)

theorem again {wait : Wait} (hw : Waits poll states begun deadline now w)
    (hdue : w.wait.wake ≤ now) (hp : states now ≠ .pausedNow) (hs : states now ≠ .stopped)
    (hverdict : w.wait.verdict poll now (holds (w.looked now).looks.size now) = .again wait) :
    ∃ w', beat poll holds states (now, w) = (now, w') ∧ w'.looks = w.looks.push now ∧
      now < w'.wait.wake ∧ Waits poll states begun deadline now w' := by
  have hstep : (w.under (states now)).step? poll holds now =
      some (((w.under (states now)).looked now).judged (.again wait)) :=
    hverdict ▸ step?_due (w := w.under (states now)) hw.ending hdue hp hs
  obtain ⟨_, hdeadline, hlater, hwake, hshort⟩ := Wait.again_of_verdict hverdict
  refine ⟨((w.under (states now)).looked now).judged (.again wait), by simp only [beat, hstep], rfl,
    hlater, hw.ending, hdeadline.trans hw.fixed, ?_, ?_, ?_⟩
  · exact hw.fixed ▸ hwake
  · exact fun i hle hlt => absurd (Nat.lt_of_lt_of_le hlater hle) (Nat.not_lt.mpr (Nat.le_of_lt hlt))
  · exact .inr ⟨now, Nat.le_refl _, hlater, hs, hshort⟩

theorem interrupted (hw : Waits poll states begun deadline now w) (hdue : w.wait.wake ≤ now)
    (hs : states now = .stopped) : EndsAt poll holds states (now, w) now .interrupted :=
  ⟨0, w, _, rfl, step?_stopped (w := w.under (states now)) hw.ending hdue hs, rfl⟩

theorem sleeps (hw : Waits poll states begun deadline now w) (hle : now ≤ moment)
    (hwake : moment ≤ max now w.wait.wake) :
    ∃ n, (beat poll holds states)^[n] (now, w) = (moment, w) ∧
      Waits poll states begun deadline moment w := by
  induction hle with
  | refl => exact ⟨0, rfl, hw⟩
  | @step moment hle ih =>
    have hasleep : moment < w.wait.wake := Nat.lt_of_not_le fun hawake =>
      absurd hwake (Nat.not_le.mpr (Nat.lt_succ_of_le (Nat.max_le.mpr ⟨hle, hawake⟩)))
    obtain ⟨n, hrun, hwaits⟩ := ih (Nat.le_of_succ_le hwake)
    obtain ⟨hbeat, hnext⟩ : beat poll holds states (moment, w) = (moment + 1, w) ∧
        Waits poll states begun deadline (moment + 1) w := hwaits.idle (.inl hasleep)
    exact ⟨n + 1, by rw [Function.iterate_succ_apply', hrun, hbeat], hnext⟩

/-- A sleep that is under way when looks begin to see a stop began with an earlier look. -/
theorem slept (hw : Waits poll states begun deadline now w) (hbegun : begun ≤ now)
    (hstop : ∀ i, now ≤ i → states i = .stopped) (hasleep : now < w.wait.wake) :
    ∃ look < now, w.wait.wake * nanosPerMilli < look * nanosPerMilli + Wait.slice poll +
      nanosPerMilli := by
  rcases hw.short with hstart | ⟨look, hlook, _, hseen, hshort⟩
  · exact absurd (hstart ▸ hasleep) (Nat.not_lt.mpr hbegun)
  · refine ⟨look, Nat.lt_of_le_of_ne hlook ?_, hshort⟩
    rintro rfl
    exact hseen (hstop look (Nat.le_refl _))

/-- From a stop on that stays it goes on only to the end of the sleep under way, which is within one
poll interval of the first moment that sees the stop. -/
theorem halts (hw : Waits poll states begun deadline now w) (hbegun : begun ≤ now)
    (hstop : ∀ i, now ≤ i → states i = .stopped) :
    EndsAt poll holds states (now, w) (max now w.wait.wake) .interrupted ∧
      (max now w.wait.wake - now) * nanosPerMilli ≤ Wait.slice poll := by
  obtain ⟨n, hrun, hwaits⟩ : ∃ n, (beat poll holds states)^[n] (now, w) =
      (max now w.wait.wake, w) ∧ Waits poll states begun deadline (max now w.wait.wake) w :=
    hw.sleeps (Nat.le_max_left now w.wait.wake) (Nat.le_refl _)
  refine ⟨(hwaits.interrupted (Nat.le_max_right _ _)
    (hstop _ (Nat.le_max_left _ _))).of_beats hrun, ?_⟩
  by_cases hasleep : now < w.wait.wake
  · obtain ⟨look, hlook, hshort⟩ := hw.slept hbegun hstop hasleep
    have hshort := Nat.succ_le_of_lt hshort
    have hscaled := Nat.mul_le_mul_right nanosPerMilli (Nat.succ_le_of_lt hlook)
    rw [Nat.succ_mul] at hscaled
    rw [Nat.max_eq_right (Nat.le_of_lt hasleep), Nat.sub_mul]
    refine Nat.sub_le_iff_le_add.mpr ?_
    omega
  · rw [Nat.max_eq_left (Nat.le_of_not_lt hasleep), Nat.sub_self, Nat.zero_mul]
    exact Nat.zero_le _

/-- Counted from the request, which comes in the same millisecond or in the one before, that is
within one poll interval as the clock keeps it. -/
theorem halts_by (hw : Waits poll states begun deadline now w) (hbegun : begun ≤ now)
    (hstop : ∀ i, now ≤ i → states i = .stopped) {stop : Moment} (hseen : now ≤ stop + 1) :
    max now w.wait.wake ≤ stop + Wait.stride poll := by
  have hpos := Wait.stride_pos poll
  by_cases hasleep : now < w.wait.wake
  · obtain ⟨look, hlook, hshort⟩ := hw.slept hbegun hstop hasleep
    have hslice : Wait.slice poll ≤ Wait.stride poll * nanosPerMilli :=
      Wait.ceiling_le_iff.mp (Nat.le_refl _)
    have hwake : w.wait.wake < look + Wait.stride poll + 1 := by
      refine Nat.lt_of_mul_lt_mul_right (Nat.lt_of_lt_of_le hshort ?_)
      rw [Nat.add_mul, Nat.add_mul, Nat.one_mul]
      exact Nat.add_le_add_right (Nat.add_le_add_left hslice _) _
    have hearlier : look ≤ stop := Nat.le_of_lt_succ (Nat.lt_of_lt_of_le hlook hseen)
    rw [Nat.max_eq_right (Nat.le_of_lt hasleep)]
    exact Nat.le_trans (Nat.le_of_lt_succ hwake) (Nat.add_le_add_right hearlier _)
  · rw [Nat.max_eq_left (Nat.le_of_not_lt hasleep)]
    exact Nat.le_trans hseen (Nat.add_le_add_left hpos _)

end Waits
end Watch
end MacroEngine
