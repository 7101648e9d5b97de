import Mathlib.Algebra.Order.Floor.Div
import MacroEngine.Proofs.FixedWaits

/-! A wait for something to hold. Its looks follow a timetable: the first comes when the wait
begins, the next ones a poll apart, and the last at the deadline; a look whose time comes in a pause
is made when the pause ends. The wait ends with the first look that finds what it waits for, or with
the first one at or after the deadline. -/
namespace MacroEngine

namespace Wait
open Duration (nanosPerMilli)

theorem ceiling_add (now nanos : Nat) :
    ceiling (now * nanosPerMilli + nanos) = now + ceiling nanos := by
  have hm : nanosPerMilli = 1000000 := rfl
  change (now * nanosPerMilli + nanos + (nanosPerMilli - 1)) / nanosPerMilli =
    now + (nanos + (nanosPerMilli - 1)) / nanosPerMilli
  rw [hm]
  omega

theorem ceiling_le_add_iff {begun nanos count stride : Nat} :
    ceiling (begun * nanosPerMilli + nanos) ≤ begun + count * stride ↔
      nanos ≤ stride * nanosPerMilli * count := by
  rw [ceiling_le_iff, Nat.add_mul, Nat.add_le_add_iff_left, Nat.mul_assoc, Nat.mul_comm count]

theorem ceiling_min (m n : Nat) : ceiling (min m n) = min (ceiling m) (ceiling n) := by
  rcases Nat.le_total m n with h | h
  · rw [Nat.min_eq_left h]
    exact (Nat.min_eq_left (ceiling_mono h)).symm
  · rw [Nat.min_eq_right h]
    exact (Nat.min_eq_right (ceiling_mono h)).symm

theorem add_min_sub {time deadline : Nat} (h : time < deadline) (span : Nat) :
    time + min (deadline - time) span = min deadline (time + span) := by
  omega

variable {w : Wait} {now : Moment}

/-- After a look in vain before the deadline the next one is a poll later, but not past the
deadline. -/
theorem verdict_again (h : now < ceiling w.deadline) (poll : Duration) :
    w.verdict poll now false =
      .again { w with wake := min (ceiling w.deadline) (now + stride poll) } := by
  have hbefore : now * nanosPerMilli < w.deadline := by
    rw [← Nat.not_le, ceiling_le_iff, Nat.not_le] at h
    exact h
  unfold verdict
  dsimp only
  rw [if_neg Bool.false_ne_true, if_neg (Nat.not_le.mpr hbefore)]
  change Verdict.again { w with wake := ceiling (_ + min _ (slice poll)) } = _
  rw [add_min_sub hbefore, ceiling_min, ceiling_add, stride]

end Wait

namespace Watch
open Duration (nanosPerMilli)

structure FirstFree (states : Moment → RunState) (time now : Moment) : Prop where
  due : time ≤ now
  free : states now ≠ .pausedNow
  held : ∀ i, time ≤ i → i < now → states i = .pausedNow

/-- When the next look is due: at the beginning, and then a stride after the last look or at the
deadline. -/
def nextLook (begun last : Moment) (stride : Nat) (looks : List Moment) : Moment :=
  match looks.getLast? with
  | none => begun
  | some look => min last (look + stride)

@[simp] theorem nextLook_append (begun last : Moment) (stride : Nat) (looks : List Moment)
    (look : Moment) : nextLook begun last stride (looks ++ [look]) = min last (look + stride) := by
  simp [nextLook]

theorem nextLook_le {begun last : Moment} (h : begun ≤ last) (stride : Nat)
    (looks : List Moment) : nextLook begun last stride looks ≤ last := by
  unfold nextLook
  split
  · exact h
  · exact Nat.min_le_left _ _

/-- Looks of a wait that goes on, oldest first: each was made as soon as it was due and not paused,
before the deadline and in vain. -/
inductive InVain (holds : Nat → Moment → Bool) (states : Moment → RunState) (begun last : Moment)
    (stride : Nat) : List Moment → Prop
  | start : InVain holds states begun last stride []
  | again {looks : List Moment} {now : Moment}
      (before : InVain holds states begun last stride looks)
      (made : FirstFree states (nextLook begun last stride looks) now)
      (fails : holds (looks.length + 1) now = false) (early : now < last) :
      InVain holds states begun last stride (looks ++ [now])

structure Decides (holds : Nat → Moment → Bool) (states : Moment → RunState) (begun last : Moment)
    (stride : Nat) (before : List Moment) (now : Moment) (ending : WatchEnd) : Prop where
  vain : InVain holds states begun last stride before
  made : FirstFree states (nextLook begun last stride before) now
  ending : ending = .met ∧ holds (before.length + 1) now = true ∨
    ending = .late ∧ holds (before.length + 1) now = false ∧ last ≤ now

def ClosesAt (poll : Duration) (holds : Nat → Moment → Bool) (states : Moment → RunState)
    (s : Moment × Watch) (moment : Moment) (ending : WatchEnd) (looks : List Moment) : Prop :=
  ∃ n w w', (beat poll holds states)^[n] s = (moment, w) ∧
    (w.under (states moment)).step? poll holds moment = some w' ∧ w'.ending = some ending ∧
    w'.looks.toList = looks

variable {poll : Duration} {holds : Nat → Moment → Bool} {states : Moment → RunState}
  {begun now moment : Moment} {deadline : Nat} {w w' : Watch} {looks : List Moment}

theorem ClosesAt.of_beats {s t : Moment × Watch} {n : Nat} {ending : WatchEnd}
    (hrun : (beat poll holds states)^[n] s = t)
    (h : ClosesAt poll holds states t moment ending looks) :
    ClosesAt poll holds states s moment ending looks := by
  obtain ⟨k, v, x, hk, hstep⟩ := h
  exact ⟨k + n, v, x, by rw [Function.iterate_add_apply, hrun, hk], hstep⟩

structure Complete (t : Trace Moment) : Prop where
  unlimited : t.limit = none
  size : t.size = t.toList.length

theorem Complete.push {t : Trace Moment} (h : Complete t) (now : Moment) :
    Complete (t.push now) ∧ (t.push now).toList = t.toList ++ [now] := by
  have happend : t.push now = t.append now := by simp [Trace.push, Trace.isFull, h.unlimited]
  rw [happend]
  refine ⟨⟨h.unlimited, ?_⟩, t.toList_append now⟩
  rw [t.toList_append, List.length_append, ← h.size]
  rfl

structure Polling (poll : Duration) (holds : Nat → Moment → Bool) (states : Moment → RunState)
    (begun : Moment) (deadline : Nat) (now : Moment) (w : Watch) : Prop where
  since : begun ≤ now
  ending : w.ending = none
  fixed : w.wait.deadline = deadline
  complete : Complete w.looks
  vain : InVain holds states begun (Wait.ceiling deadline) (Wait.stride poll) w.looks.toList
  wake : w.wait.wake = nextLook begun (Wait.ceiling deadline) (Wait.stride poll) w.looks.toList
  /-- No look is overdue. -/
  held : ∀ i, w.wait.wake ≤ i → i < now → states i = .pausedNow

def AfterLook (poll : Duration) (holds : Nat → Moment → Bool) (states : Moment → RunState)
    (begun : Moment) (deadline : Nat) (now : Moment) (w w' : Watch) : Prop :=
  w'.looks.toList = w.looks.toList ++ [now] ∧
    ((∃ ending, w'.ending = some ending ∧
        Decides holds states begun (Wait.ceiling deadline) (Wait.stride poll) w.looks.toList now
          ending) ∨
      now < w'.wait.wake ∧ Polling poll holds states begun deadline now w')

theorem polling_start {limit : Duration} (h : limit.nanos < Wait.horizon) (poll : Duration)
    (holds : Nat → Moment → Bool) (states : Moment → RunState) (begun : Moment)
    (control : Lifecycle) :
    Polling poll holds states begun (begun * nanosPerMilli + limit.nanos) begun
      (start begun limit control) where
  since := Nat.le_refl _
  ending := rfl
  fixed := Wait.deadline_start h begun
  complete := ⟨rfl, rfl⟩
  vain := .start
  wake := rfl
  held := fun _ hle hlt => absurd hle (Nat.not_le.mpr hlt)

namespace Polling

theorem idle (h : Polling poll holds states begun deadline now w)
    (hidle : now < w.wait.wake ∨ states now = .pausedNow) :
    (w.under (states now)).step? poll holds now = none ∧
      Polling poll holds states begun deadline (now + 1) w := by
  refine ⟨hidle.elim (fun h => step?_asleep h) fun h => step?_held h, Nat.le_succ_of_le h.since,
    h.ending, h.fixed, h.complete, h.vain, h.wake, fun i hle hlt => ?_⟩
  rcases Nat.lt_succ_iff_lt_or_eq.mp hlt with hlt | rfl
  · exact h.held i hle hlt
  · exact hidle.resolve_left (Nat.not_lt.mpr hle)

theorem look (h : Polling poll holds states begun deadline now w) (hdue : w.wait.wake ≤ now)
    (hp : states now ≠ .pausedNow) (hs : states now ≠ .stopped) :
    ∃ w', (w.under (states now)).step? poll holds now = some w' ∧
      AfterLook poll holds states begun deadline now w w' := by
  have hstep : (w.under (states now)).step? poll holds now = some (((w.under (states now)).looked
      now).judged (w.wait.verdict poll now (holds (w.looks.push now).size now))) :=
    step?_due (w := w.under (states now)) h.ending hdue hp hs
  obtain ⟨hcomplete, hlooks⟩ := h.complete.push now
  rw [hcomplete.size, hlooks, List.length_append, List.length_singleton] at hstep
  have hmade : FirstFree states
      (nextLook begun (Wait.ceiling deadline) (Wait.stride poll) w.looks.toList) now :=
    ⟨h.wake ▸ hdue, hp, h.wake ▸ h.held⟩
  refine ⟨_, hstep, ?_, ?_⟩
  · rw [← hlooks]
    cases w.wait.verdict poll now (holds (w.looks.toList.length + 1) now) <;> rfl
  · cases hholds : holds (w.looks.toList.length + 1) now with
    | true =>
      have hmet : w.wait.verdict poll now true = .met := rfl
      rw [hmet]
      exact .inl ⟨.met, rfl, h.vain, hmade, .inl ⟨rfl, hholds⟩⟩
    | false =>
      by_cases hlast : Wait.ceiling deadline ≤ now
      · have hlate : w.wait.verdict poll now false = .late :=
          Wait.verdict_late (h.fixed ▸ Wait.ceiling_le_iff.mp hlast) poll
        rw [hlate]
        exact .inl ⟨.late, rfl, h.vain, hmade, .inr ⟨rfl, hholds, hlast⟩⟩
      · have hearly : now < Wait.ceiling deadline := Nat.lt_of_not_le hlast
        have hagain := Wait.verdict_again (w := w.wait) (h.fixed.symm ▸ hearly) poll
        rw [hagain, h.fixed]
        have hwake : now < min (Wait.ceiling deadline) (now + Wait.stride poll) :=
          Nat.lt_min.mpr ⟨hearly, Nat.lt_add_of_pos_right (Wait.stride_pos poll)⟩
        refine .inr ⟨hwake, h.since, h.ending, rfl, hcomplete, ?_, ?_, ?_⟩
        · exact hlooks ▸ h.vain.again hmade hholds hearly
        · change min _ _ = nextLook _ _ _ (w.looks.push now).toList
          rw [hlooks, nextLook_append]
        · intro i hle hlt
          exact absurd (Nat.lt_trans hwake (Nat.lt_of_le_of_lt hle hlt)) (Nat.lt_irrefl now)

/-- All that can happen at a moment: nothing, the look that ends the wait, or a look in vain. -/
theorem step_cases (h : Polling poll holds states begun deadline now w)
    (hs : states now ≠ .stopped) :
    (w.under (states now)).step? poll holds now = none ∧
        Polling poll holds states begun deadline (now + 1) w ∨
      ∃ w', (w.under (states now)).step? poll holds now = some w' ∧
        AfterLook poll holds states begun deadline now w w' := by
  by_cases hidle : now < w.wait.wake ∨ states now = .pausedNow
  · exact .inl (h.idle hidle)
  · obtain ⟨hawake, hp⟩ := not_or.mp hidle
    exact .inr (h.look (Nat.le_of_not_lt hawake) hp hs)

theorem beat (h : Polling poll holds states begun deadline now w) (hs : states now ≠ .stopped)
    (hgoes : (Watch.beat poll holds states (now, w)).2.ending = none) :
    Polling poll holds states begun deadline (Watch.beat poll holds states (now, w)).1
      (Watch.beat poll holds states (now, w)).2 := by
  unfold Watch.beat at hgoes ⊢
  rcases h.step_cases hs with ⟨hstep, hnext⟩ | ⟨w', hstep, _, ⟨ending, hending, _⟩ | ⟨_, hnext⟩⟩
  · simpa only [hstep] using hnext
  · simp [hstep, hending] at hgoes
  · simpa only [hstep] using hnext

theorem next (h : Polling poll holds states begun deadline now w) (hs : states now ≠ .stopped) :
    (∃ ending looks, ClosesAt poll holds states (now, w) now ending looks) ∨
      ∃ n w', (Watch.beat poll holds states)^[n] (now, w) = (now + 1, w') ∧
        Polling poll holds states begun deadline (now + 1) w' := by
  rcases h.step_cases hs with
    ⟨hstep, hnext⟩ | ⟨w', hstep, _, ⟨ending, hending, _⟩ | ⟨hlater, hpolling⟩⟩
  · exact .inr ⟨1, w, by simp only [Function.iterate_one, Watch.beat, hstep], hnext⟩
  · exact .inl ⟨ending, _, 0, w, w', rfl, hstep, hending, rfl⟩
  · obtain ⟨hasleep, hnext⟩ := hpolling.idle (.inl hlater)
    refine .inr ⟨2, w', ?_, hnext⟩
    simp only [Function.iterate_succ_apply, Function.iterate_zero_apply, Watch.beat, hstep, hasleep]

theorem closes (h : Polling poll holds states begun deadline now w)
    (hbegun : begun ≤ Wait.ceiling deadline) (hlast : Wait.ceiling deadline ≤ now)
    (hp : states now ≠ .pausedNow) (hs : states now ≠ .stopped) :
    ∃ ending looks, ClosesAt poll holds states (now, w) now ending looks := by
  have hdue : ∀ {w}, Polling poll holds states begun deadline now w → w.wait.wake ≤ now := by
    intro w h
    rw [h.wake]
    exact Nat.le_trans (nextLook_le hbegun _ _) hlast
  obtain ⟨w', hstep, _, hclose | ⟨hlater, hnext⟩⟩ := h.look (hdue h) hp hs
  · obtain ⟨ending, hending, _⟩ := hclose
    exact ⟨ending, _, 0, w, w', rfl, hstep, hending, rfl⟩
  · exact absurd (hdue hnext) (Nat.not_le.mpr hlater)

theorem closes_by (h : Polling poll holds states begun deadline now w)
    (hbegun : begun ≤ Wait.ceiling deadline) (hs : ∀ i, now ≤ i → states i ≠ .stopped)
    (hle : now ≤ moment) (hlast : Wait.ceiling deadline ≤ moment)
    (hp : states moment ≠ .pausedNow) :
    ∃ m ≤ moment, ∃ ending looks, ClosesAt poll holds states (now, w) m ending looks := by
  obtain ⟨k, rfl⟩ := Nat.exists_eq_add_of_le hle
  induction k generalizing now w with
  | zero =>
    exact ⟨now, Nat.le_refl _, h.closes hbegun hlast hp (hs now (Nat.le_refl _))⟩
  | succ k ih =>
    rcases h.next (hs now (Nat.le_refl _)) with hclose | ⟨n, w', hrun, hnext⟩
    · exact ⟨now, hle, hclose⟩
    · have hshift : now + (k + 1) = now + 1 + k := Nat.add_right_comm now k 1
      rw [hshift] at hlast hp ⊢
      obtain ⟨m, hm, ending, looks, hclose⟩ :=
        ih hnext (fun i hi => hs i (Nat.le_of_succ_le hi)) (Nat.le_add_right _ _) hlast hp
      exact ⟨m, hm, ending, looks, hclose.of_beats hrun⟩

theorem of_beats {s : Moment × Watch} (h : Polling poll holds states begun deadline s.1 s.2)
    (hs : ∀ i, begun ≤ i → states i ≠ .stopped) (n : Nat)
    (hgoes : ((Watch.beat poll holds states)^[n] s).2.ending = none) :
    Polling poll holds states begun deadline ((Watch.beat poll holds states)^[n] s).1
      ((Watch.beat poll holds states)^[n] s).2 := by
  induction n with
  | zero => exact h
  | succ n ih =>
    rw [Function.iterate_succ_apply'] at hgoes ⊢
    have hbefore := ih (by_contra fun hended => ended_beat hended hgoes)
    exact hbefore.beat (hs _ hbefore.since) hgoes

theorem decides (h : Polling poll holds states begun deadline now w) (hs : states now ≠ .stopped)
    {ending : WatchEnd} (hstep : (w.under (states now)).step? poll holds now = some w')
    (hending : w'.ending = some ending) :
    w'.looks.toList = w.looks.toList ++ [now] ∧
      Decides holds states begun (Wait.ceiling deadline) (Wait.stride poll) w.looks.toList now
        ending := by
  rcases h.step_cases hs with ⟨hnone, _⟩ | ⟨v, hv, hlooks, hclose⟩
  · rw [hnone] at hstep
    cases hstep
  · obtain rfl : v = w' := Option.some.inj (hv.symm.trans hstep)
    refine ⟨hlooks, ?_⟩
    rcases hclose with ⟨ending', hending', hdecides⟩ | ⟨_, hpolling⟩
    · obtain rfl : ending' = ending := Option.some.inj (hending'.symm.trans hending)
      exact hdecides
    · rw [hpolling.ending] at hending
      cases hending

theorem decides_of_closesAt {s : Moment × Watch} {ending : WatchEnd}
    (h : Polling poll holds states begun deadline s.1 s.2)
    (hs : ∀ i, begun ≤ i → states i ≠ .stopped)
    (hclose : ClosesAt poll holds states s moment ending looks) :
    ∃ before, looks = before ++ [moment] ∧ Decides holds states begun (Wait.ceiling deadline)
      (Wait.stride poll) before moment ending := by
  obtain ⟨n, w, w', hrun, hstep, hending, rfl⟩ := hclose
  have hpolling := h.of_beats hs n
  rw [hrun] at hpolling
  have hw := hpolling (ending_of_step? (w := w.under (states moment)) hstep)
  exact ⟨_, hw.decides (hs _ hw.since) hstep hending⟩

end Polling

/-! A wait without pauses. -/

variable {last stride : Nat}

theorem FirstFree.eq {time : Moment} (h : FirstFree states time now)
    (hfree : ∀ i, begun ≤ i → states i ≠ .pausedNow) (hbegun : begun ≤ time) : now = time :=
  Nat.le_antisymm (Nat.le_of_not_lt fun hlt => hfree time hbegun (h.held time (Nat.le_refl _) hlt))
    h.due

theorem InVain.evenly (h : InVain holds states begun last stride looks)
    (hfree : ∀ i, begun ≤ i → states i ≠ .pausedNow) (hbegun : begun ≤ last) :
    nextLook begun last stride looks = min last (begun + looks.length * stride) ∧
      ∀ k < looks.length,
        begun + k * stride < last ∧ holds (k + 1) (begun + k * stride) = false := by
  induction h with
  | start =>
    refine ⟨?_, fun k hk => absurd hk (Nat.not_lt_zero k)⟩
    rw [List.length_nil, Nat.zero_mul, Nat.add_zero, Nat.min_eq_right hbegun]
    rfl
  | @again looks now before made fails early ih =>
    obtain ⟨hnext, hlooks⟩ := ih
    have hle : begun ≤ min last (begun + looks.length * stride) :=
      Nat.le_min.mpr ⟨hbegun, Nat.le_add_right _ _⟩
    have hmade : now = min last (begun + looks.length * stride) := (hnext ▸ made).eq hfree hle
    have hlt : begun + looks.length * stride < last :=
      (min_lt_iff.mp (hmade ▸ early)).resolve_left (Nat.lt_irrefl last)
    have hnow : now = begun + looks.length * stride :=
      hmade.trans (Nat.min_eq_right (Nat.le_of_lt hlt))
    rw [nextLook_append, List.length_append, List.length_singleton, Nat.succ_mul, ← Nat.add_assoc,
      ← hnow]
    refine ⟨rfl, fun k hk => ?_⟩
    rcases Nat.lt_succ_iff_lt_or_eq.mp hk with hlt | rfl
    · exact hlooks k hlt
    · exact hnow ▸ ⟨early, fails⟩

theorem Decides.evenly {ending : WatchEnd}
    (h : Decides holds states begun last stride looks now ending)
    (hfree : ∀ i, begun ≤ i → states i ≠ .pausedNow) (hbegun : begun ≤ last) :
    now = min last (begun + looks.length * stride) := by
  obtain ⟨hnext, _⟩ := h.vain.evenly hfree hbegun
  exact (hnext ▸ h.made).eq hfree (Nat.le_min.mpr ⟨hbegun, Nat.le_add_right _ _⟩)

/-- The polls of a wait, by the time since it began: a stride apart, and one when it is over. -/
def IsPoll (stride span offset : Nat) : Prop :=
  offset ≤ span ∧ (stride ∣ offset ∨ offset = span)

/-- It ends with the first poll that finds what it waits for, or else with the last poll. -/
theorem Decides.at_poll {ending : WatchEnd} {span : Nat} {p : Moment → Bool}
    (h : Decides (fun _ => p) states begun (begun + span) stride looks now ending)
    (hfree : ∀ i, begun ≤ i → states i ≠ .pausedNow) :
    ∃ offset, now = begun + offset ∧ IsPoll stride span offset ∧
      (∀ earlier < offset, IsPoll stride span earlier → p (begun + earlier) = false) ∧
      (ending = .met ∧ p now = true ∨ ending = .late ∧ p now = false ∧ offset = span) := by
  have hbegun : begun ≤ begun + span := Nat.le_add_right _ _
  obtain ⟨_, hlooks⟩ := h.vain.evenly hfree hbegun
  refine ⟨min span (looks.length * stride), ?_, ⟨Nat.min_le_left _ _, ?_⟩, ?_, ?_⟩
  · rw [h.evenly hfree hbegun, Nat.add_min_add_left]
  · rcases Nat.le_total span (looks.length * stride) with hle | hle
    · exact .inr (Nat.min_eq_left hle)
    · rw [Nat.min_eq_right hle]
      exact .inl (Nat.dvd_mul_left _ _)
  · rintro earlier hlt ⟨_, hpoll⟩
    obtain ⟨hspan, hmul⟩ := Nat.lt_min.mp hlt
    obtain ⟨k, rfl⟩ := hpoll.resolve_right (Nat.ne_of_lt hspan)
    rw [Nat.mul_comm] at hmul ⊢
    exact (hlooks k (Nat.lt_of_mul_lt_mul_right hmul)).2
  · refine h.ending.imp_right fun ⟨hlate, hvain, hlast⟩ => ⟨hlate, hvain, ?_⟩
    rw [h.evenly hfree hbegun] at hlast
    have hspan := Nat.add_le_add_iff_left.mp (Nat.le_trans hlast (Nat.min_le_right _ _))
    exact Nat.min_eq_left hspan

theorem strides_eq {span count : Nat} (hstride : 0 < stride)
    (hearly : ∀ k < count, begun + k * stride < Wait.ceiling (begun * nanosPerMilli + span))
    (hlast : Wait.ceiling (begun * nanosPerMilli + span) ≤ begun + count * stride) :
    count = span ⌈/⌉ (stride * nanosPerMilli) := by
  have hpos : 0 < stride * nanosPerMilli := Nat.mul_pos hstride Wait.nanosPerMilli_pos
  apply Nat.le_antisymm
  · by_contra hfewer
    refine absurd (hearly _ (Nat.lt_of_not_le hfewer)) (Nat.not_lt.mpr ?_)
    exact Wait.ceiling_le_add_iff.mpr ((ceilDiv_le_iff_le_mul hpos).mp (Nat.le_refl _))
  · exact (ceilDiv_le_iff_le_mul hpos).mpr (Wait.ceiling_le_add_iff.mp hlast)

/-- A wait that is not stopped looks when it begins, then one poll interval after each look and at
its deadline, in each case as soon as it is not paused. While it goes on each look was in vain and
none is overdue. It ends with the first look that finds what it waits for, or with a look in vain
at or after its deadline. It does end, at its deadline or as soon after it as it is not paused.
Without pauses a wait in vain ends at its deadline, after a look for each poll interval begun and
one more. -/
theorem until_decides (hlimit : limit.nanos < Wait.horizon) (poll : Duration)
    (holds : Nat → Moment → Bool) (hs : ∀ i, begun ≤ i → states i ≠ .stopped)
    (control : Lifecycle) :
    let s := (begun, start begun limit control)
    let last := Wait.ceiling (begun * nanosPerMilli + limit.nanos)
    let interval := Wait.stride poll
    (∀ n now w, (beat poll holds states)^[n] s = (now, w) → w.ending = none →
      InVain holds states begun last interval w.looks.toList ∧
        ∀ i, nextLook begun last interval w.looks.toList ≤ i → i < now → states i = .pausedNow) ∧
    (∀ moment ending looks, ClosesAt poll holds states s moment ending looks →
      ∃ before, looks = before ++ [moment] ∧
        Decides holds states begun last interval before moment ending) ∧
    (∀ moment, last ≤ moment → states moment ≠ .pausedNow →
      ∃ m ≤ moment, ∃ ending looks, ClosesAt poll holds states s m ending looks) ∧
    ((∀ i, begun ≤ i → states i ≠ .pausedNow) → (∀ n i, holds n i = false) →
      ∃ looks, ClosesAt poll holds states s last .late looks ∧
        looks.length = limit.nanos ⌈/⌉ (interval * nanosPerMilli) + 1) ∧
    (0 < poll.nanos → nanosPerMilli ∣ poll.nanos → interval * nanosPerMilli = poll.nanos) := by
  intro s last interval
  have hstart : Polling poll holds states begun (begun * nanosPerMilli + limit.nanos) s.1 s.2 :=
    polling_start hlimit poll holds states begun control
  have hbegun : begun ≤ last := by
    have hle := Wait.ceiling_mono (Nat.le_add_right (begun * nanosPerMilli) limit.nanos)
    rwa [Wait.ceiling_millis] at hle
  have hdecides : ∀ {moment ending looks}, ClosesAt poll holds states s moment ending looks →
      ∃ before, looks = before ++ [moment] ∧
        Decides holds states begun last interval before moment ending :=
    hstart.decides_of_closesAt hs
  have hcloses : ∀ moment, last ≤ moment → states moment ≠ .pausedNow →
      ∃ m ≤ moment, ∃ ending looks, ClosesAt poll holds states s m ending looks :=
    fun moment hlast hp => hstart.closes_by hbegun hs (Nat.le_trans hbegun hlast) hlast hp
  refine ⟨fun n now w hrun hending => ?_, fun _ _ _ => hdecides, hcloses, fun hfree hnever => ?_,
    Wait.stride_of_dvd⟩
  · have hpolling := hstart.of_beats hs n
    rw [hrun] at hpolling
    have hw := hpolling hending
    exact ⟨hw.vain, hw.wake ▸ hw.held⟩
  · obtain ⟨m, hm, ending, looks, hclose⟩ := hcloses last (Nat.le_refl _) (hfree last hbegun)
    obtain ⟨before, rfl, hend⟩ := hdecides hclose
    obtain ⟨rfl, _, hlate⟩ : ending = .late ∧ _ ∧ last ≤ m :=
      hend.ending.resolve_left fun hmet => by simp [hnever] at hmet
    obtain rfl : m = last := Nat.le_antisymm hm hlate
    obtain ⟨_, hlooks⟩ := hend.vain.evenly hfree hbegun
    refine ⟨_, hclose, ?_⟩
    rw [List.length_append, List.length_singleton]
    congr 1
    exact strides_eq (Wait.stride_pos poll) (fun k hk => (hlooks k hk).1)
      (min_eq_left_iff.mp (hend.evenly hfree hbegun).symm)

def awake (_ : Moment) : RunState := .running

theorem until_decides_napping :
    (250500000 : Nat) < Wait.horizon ∧
    (∃ m ≤ 400, ∃ ending looks,
      ClosesAt (.ofMillis 100) (fun _ now => decide (400 ≤ now)) napping nap m ending looks) ∧
    ∃ looks, ClosesAt (.ofMillis 100) never awake nap 261 .late looks ∧
      looks.length = 4 := by
  have hlimit : (⟨250500000⟩ : Duration).nanos < Wait.horizon := by decide
  have hnapping : ∀ i, 10 ≤ i → napping i ≠ .stopped := by
    intro i _
    unfold napping
    split <;> decide
  obtain ⟨_, _, hcloses, _⟩ := until_decides hlimit (.ofMillis 100)
    (fun _ now => decide (400 ≤ now)) hnapping .started
  have hawake : ∀ i, 10 ≤ i → awake i ≠ .stopped := fun _ _ => by simp [awake]
  obtain ⟨_, _, _, hlate, hinterval⟩ := until_decides hlimit (.ofMillis 100) never hawake .started
  refine ⟨hlimit, hcloses 400 (by decide) (by decide), ?_⟩
  rw [hinterval (by decide) (by decide)] at hlate
  exact hlate (fun _ _ => by simp [awake]) fun _ _ => rfl

def nodding (moment : Moment) : RunState :=
  if 2 ≤ moment ∧ moment < 4 then .pausedNow else .running

/-- A poll interval of 1.5 ms takes two, and so there are four looks in 6 ms, not five. A resume
before the end of a sleep is followed by no look until then. -/
theorem until_looks_late :
    (∃ looks, ClosesAt ⟨1500000⟩ never awake (0, start 0 ⟨6000000⟩ .started) 6 .late looks ∧
      looks.length = 4 ∧ looks.length < 6000000 / 1500000 + 1) ∧
    nodding 3 = .pausedNow ∧ nodding 4 ≠ .pausedNow ∧
      ClosesAt (.ofMillis 10) (fun look _ => look = 2) nodding
        (0, start 0 (.ofMillis 20) .started) 10 .met [0, 10] := by
  refine ⟨⟨[0, 2, 4, 6], ⟨9, _, _, rfl, rfl, rfl, rfl⟩, rfl, by decide⟩, by decide, by decide,
    ⟨11, _, _, rfl, rfl, rfl, rfl⟩⟩

end Watch
end MacroEngine
