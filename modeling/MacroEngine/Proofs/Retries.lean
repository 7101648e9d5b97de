import Mathlib.Logic.Relation
import MacroEngine.Proofs.PolledWaits

/-! An action that is issued until the game acknowledges it. Each attempt has its own ticket and the
whole timeout, in which it is polled as any other wait is; the next attempt is made when the timeout
is over. Whatever a game does, the moments of the attempts are known in advance. -/
namespace MacroEngine

namespace Solo
variable {means : Means γ} {now moment : Moment} {scene : Scene γ}

/-- One small step if there is one; else a millisecond. -/
def beat (means : Means γ) (s : Moment × Solo γ α) : Moment × Solo γ α :=
  match (clockwork means).step? s.1 s.2 with
  | some solo => (s.1, solo)
  | none => (s.1 + 1, s.2)

def Leads (means : Means γ) : Moment × Solo γ α → Moment × Solo γ α → Prop :=
  Relation.ReflTransGen fun s t => s.2.course.end? = none ∧ beat means s = t

theorem Leads.trans {s t u : Moment × Solo γ α} (h : Leads means s t) (h' : Leads means t u) :
    Leads means s u :=
  Relation.ReflTransGen.trans h h'

theorem Leads.step {scene' : Scene γ} {c c' : Course α}
    (h : c.step? means now scene = some (scene', c')) :
    Leads means (now, ⟨scene, c⟩) (now, ⟨scene', c'⟩) :=
  .single ⟨Course.end?_of_step? h, by simp [beat, clockwork, h]⟩

theorem Leads.rest {s : Solo γ α} (hend : s.course.end? = none) (hle : now ≤ moment)
    (h : ∀ i, now ≤ i → i < moment → (clockwork means).step? i s = none) :
    Leads means (now, s) (moment, s) := by
  induction hle with
  | refl => exact .refl
  | @step moment hle ih =>
    refine .tail (ih fun i hi hlt => h i hi (Nat.lt_succ_of_lt hlt)) ⟨hend, ?_⟩
    simp only [beat, h moment hle (Nat.lt_succ_self moment)]

/-- A stop interrupts an activity that waits, and nothing else happens. -/
theorem Leads.interrupted {s : Solo γ α} (hend : s.course.end? = none)
    (hrest : (clockwork means).step? now s = none) :
    ∃ moment, Leads means (now, s.request .stop)
      (moment, ⟨(s.request .stop).scene, .interrupted⟩) := by
  obtain ⟨scene, c⟩ := s
  cases c with
  | interrupted => cases hend
  | doing a =>
    -- An activity that does not wait has something to do, or is over.
    cases a with
    | done | fail => cases hend
    | look | issue | perform | echo | mark | await => cases hrest
    | pause span next =>
      simp only [clockwork, Course.step?, Course.proceed?] at hrest
      split at hrest <;> cases hrest
  | waiting wait holds next =>
    have hstopped : (scene.control.apply .stop).state = .stopped := Lifecycle.halted_stop _
    refine ⟨max now wait.wake,
      (Leads.rest rfl (Nat.le_max_left _ _) fun i hi hlt => ?_).trans (Leads.step ?_)⟩
    · have hasleep : i < wait.wake := (lt_max_iff.mp hlt).resolve_left (Nat.not_lt.mpr hi)
      simp [clockwork, request, Course.step?, Wait.readiness_asleep hasleep]
    · have hawake : ¬ max now wait.wake < wait.wake := Nat.not_lt.mpr (Nat.le_max_right _ _)
      simp [request, Course.step?, Wait.readiness, hawake, hstopped]

end Solo

/-! The wait of an activity is a watch on the game. -/

def WatchEnd.course (next : Bool → Activity α) : WatchEnd → Course α
  | .met => .doing (next true)
  | .late => .doing (next false)
  | .interrupted => .interrupted

namespace Watch

def course (holds : View → Bool) (next : Bool → Activity α) (w : Watch) : Course α :=
  match w.ending with
  | none => .waiting w.wait holds next
  | some ending => ending.course next

variable {means : Means γ} {scene : Scene γ} {holds : View → Bool} {next : Bool → Activity α}
  {now moment : Moment} {w : Watch}

def sees (means : Means γ) (scene : Scene γ) (holds : View → Bool) (now : Moment) : Bool :=
  holds (means.client.view scene.game now)

theorem course_step? (he : w.ending = none) :
    (w.course holds next).step? means now scene =
      ((w.under scene.control.state).step? means.poll (fun _ => sees means scene holds) now).map
        fun w' => (scene, w'.course holds next) := by
  have hcourse : w.course holds next = .waiting w.wait holds next := by simp [course, he]
  rw [hcourse]
  unfold Course.step? step? under sees
  cases hready : w.wait.readiness scene.control.state now with
  | asleep | held => simp [he, hready]
  | interrupted => simp [he, hready, course, WatchEnd.course]
  | due =>
    cases hverdict : w.wait.verdict means.poll now (holds (means.client.view scene.game now)) <;>
      simp [he, hready, hverdict, course, WatchEnd.course]

theorem leads_beats (next : Bool → Activity α) (w : Watch) (n : Nat) :
    let t := (beat means.poll (fun _ => sees means scene holds)
      fun _ => scene.control.state)^[n] (now, w)
    t.2.ending = none → Solo.Leads means (now, ⟨scene, w.course holds next⟩)
      (t.1, ⟨scene, t.2.course holds next⟩) := by
  intro t hgoes
  induction n with
  | zero => exact .refl
  | succ n ih =>
    unfold t at hgoes ⊢
    rw [Function.iterate_succ_apply'] at hgoes ⊢
    have hbefore := by_contra fun hended => ended_beat hended hgoes
    refine .tail (ih hbefore) ⟨by simp [course, hbefore, Course.end?], ?_⟩
    simp only [Solo.beat, Solo.clockwork, course_step? hbefore, beat]
    cases step? _ _ _ (under _ _) <;> rfl

/-- A wait ends as the watch does. -/
theorem ClosesAt.leads {ending : WatchEnd} {looks : List Moment}
    (h : ClosesAt means.poll (fun _ => sees means scene holds) (fun _ => scene.control.state)
      (now, w) moment ending looks) :
    Solo.Leads means (now, ⟨scene, w.course holds next⟩) (moment, ⟨scene, ending.course next⟩) := by
  obtain ⟨n, v, v', hrun, hstep, hending, _⟩ := h
  have hnone : v.ending = none := ending_of_step? (w := v.under scene.control.state) hstep
  have hwaits := leads_beats next w n (by rw [hrun]; exact hnone)
  rw [hrun] at hwaits
  refine hwaits.trans (Solo.Leads.step ?_)
  rw [course_step? hnone, hstep]
  simp [course, hending]

end Watch

/-- A wait for whole milliseconds, in an activity that is not paused or stopped, ends with its first
poll at which what it waits for holds, or with its last poll. -/
theorem Solo.Leads.await (means : Means γ) {scene : Scene γ} (hrun : scene.control.state = .running)
    {span : Nat} (hspan : (Duration.ofMillis span).nanos < Wait.horizon) (begun : Moment)
    (holds : View → Bool) (next : Bool → Activity α) :
    ∃ offset, Watch.IsPoll (Wait.stride means.poll) span offset ∧
      (∀ earlier < offset, Watch.IsPoll (Wait.stride means.poll) span earlier →
        Watch.sees means scene holds (begun + earlier) = false) ∧
      (Watch.sees means scene holds (begun + offset) = false → offset = span) ∧
      Leads means (begun, ⟨scene, .doing (.await holds (.ofMillis span) next)⟩) (begun + offset,
        ⟨scene, .doing (next (Watch.sees means scene holds (begun + offset)))⟩) := by
  have hfree : ∀ i, begun ≤ i → scene.control.state ≠ .pausedNow := by simp [hrun]
  have hs : ∀ i, begun ≤ i → scene.control.state ≠ .stopped := by simp [hrun]
  have hlast : Wait.ceiling (begun * Duration.nanosPerMilli + (Duration.ofMillis span).nanos) =
      begun + span := by
    rw [Wait.ceiling_add]
    exact congrArg _ (Wait.ceiling_millis span)
  have hstart := Watch.polling_start hspan means.poll (fun _ => Watch.sees means scene holds)
    (fun _ => scene.control.state) begun scene.control
  have hend : begun ≤ begun + span := Nat.le_add_right _ _
  obtain ⟨m, _, ending, looks, hclose⟩ :=
    hstart.closes_by (hlast ▸ hend) hs hend (Nat.le_of_eq hlast) (hfree begun (Nat.le_refl _))
  obtain ⟨before, _, hdecides⟩ := hstart.decides_of_closesAt hs hclose
  rw [hlast] at hdecides
  obtain ⟨offset, rfl, hpoll, hearlier, hends⟩ := hdecides.at_poll hfree
  have hleads : Leads means (begun, ⟨scene, .doing (.await holds (.ofMillis span) next)⟩)
      (begun + offset, ⟨scene, ending.course next⟩) := (Leads.step rfl).trans hclose.leads
  refine ⟨offset, hpoll, hearlier, ?_, ?_⟩
  · intro hvain
    rcases hends with ⟨_, hmet⟩ | ⟨_, _, hoffset⟩
    · rw [hmet] at hvain
      cases hvain
    · exact hoffset
  · rcases hends with ⟨rfl, hmet⟩ | ⟨rfl, hlate, _⟩
    · exact hmet ▸ hleads
    · exact hlate ▸ hleads

/-- Attempts at an action in a game, each made when the timeout of the one before it is over. -/
structure Attempts (γ : Type) where
  means : Means γ
  action : String
  /-- In milliseconds. -/
  timeout : Nat
  begun : Moment
  game : γ

namespace Attempts

variable (a : Attempts γ)

/-- When an attempt is made; they are counted from zero. -/
def moment (k : Nat) : Moment := a.begun + k * a.timeout

def gameAt : Nat → γ
  | 0 => a.game
  | k + 1 => (a.means.client.issue (gameAt k) (a.moment k) a.action).2

def reply (k : Nat) : Except GameError Ticket :=
  (a.means.client.issue (a.gameAt k) (a.moment k) a.action).1

def acknowledged (k offset : Nat) : Bool :=
  match a.reply k with
  | .ok ticket =>
    (a.means.client.view (a.gameAt (k + 1)) (a.moment k + offset)).isAcknowledged ticket
  | .error _ => false

def Polls (offset : Nat) : Prop := Watch.IsPoll (Wait.stride a.means.poll) a.timeout offset

/-- An attempt is accepted, and no poll sees its ticket acknowledged. -/
structure Fails (k : Nat) : Prop where
  accepted : ∃ ticket, a.reply k = .ok ticket
  unseen : ∀ offset, a.Polls offset → a.acknowledged k offset = false

structure SeenAt (k offset : Nat) : Prop where
  polled : a.Polls offset
  acknowledged : a.acknowledged k offset = true
  unseen : ∀ earlier < offset, a.Polls earlier → a.acknowledged k earlier = false

def issues : Nat → List (Moment × Event)
  | 0 => []
  | k + 1 => (a.moment k, .issued a.action) :: issues k

def scene (k : Nat) : Scene γ := ⟨a.gameAt k, .started, [], 0, 0, [], a.issues k⟩

def before (k left : Nat) : Moment × Solo γ RetryOutcome :=
  (a.moment k, ⟨a.scene k, .doing (Retry.attempt a.action (.ofMillis a.timeout) k left)⟩)

def concluded (k : Nat) (now : Moment) (outcome : RetryOutcome) : Moment × Solo γ RetryOutcome :=
  (now, ⟨a.scene k, .doing (.done outcome)⟩)

def start (maxRetries : Nat) : Moment × Solo γ RetryOutcome :=
  (a.begun, .start a.game .started
    (Retry.issue maxRetries (.ofMillis a.timeout) a.action false))

variable {a} {k left : Nat}

theorem fails_or_seenAt (h : ∃ ticket, a.reply k = .ok ticket) :
    a.Fails k ∨ ∃ offset, a.SeenAt k offset := by
  classical
  by_cases hseen : ∃ offset, a.Polls offset ∧ a.acknowledged k offset = true
  · obtain ⟨hpoll, hack⟩ := Nat.find_spec hseen
    refine .inr ⟨Nat.find hseen, hpoll, hack, fun earlier hlt hearlier => ?_⟩
    exact Bool.eq_false_of_not_eq_true fun htrue => Nat.find_min hseen hlt ⟨hearlier, htrue⟩
  · refine .inl ⟨h, fun offset hpoll => ?_⟩
    exact Bool.eq_false_of_not_eq_true fun htrue => hseen ⟨offset, hpoll, htrue⟩

theorem attempt_step? (a : Attempts γ) (k left : Nat) :
    (Course.doing (Retry.attempt a.action (.ofMillis a.timeout) k (left + 1))).step? a.means
        (a.moment k) (a.scene k) =
      some (a.scene (k + 1), .doing (match a.reply k with
        | .error e => .done (.refused e)
        | .ok ticket => .await (fun view => view.isAcknowledged ticket) (.ofMillis a.timeout) fun
          | true => .done (.success (k + 1))
          | false => Retry.attempt a.action (.ofMillis a.timeout) (k + 1) left)) :=
  rfl

theorem leads_refused {e : GameError} (h : a.reply k = .error e) :
    Solo.Leads a.means (a.before k (left + 1)) (a.concluded (k + 1) (a.moment k) (.refused e)) :=
  .step (by rw [attempt_step?, h])

section
variable (htimeout : (Duration.ofMillis a.timeout).nanos < Wait.horizon)
include htimeout

/-- An accepted attempt is polled until it is seen or its timeout is over. -/
theorem leads_accepted (left : Nat) {ticket : Ticket} (h : a.reply k = .ok ticket) :
    ∃ offset, a.Polls offset ∧
      (∀ earlier < offset, a.Polls earlier → a.acknowledged k earlier = false) ∧
      (a.acknowledged k offset = false → offset = a.timeout) ∧
      Solo.Leads a.means (a.before k (left + 1)) (a.moment k + offset, ⟨a.scene (k + 1), .doing
        (match a.acknowledged k offset with
          | true => .done (.success (k + 1))
          | false => Retry.attempt a.action (.ofMillis a.timeout) (k + 1) left)⟩) := by
  have hrun : (a.scene (k + 1)).control.state = .running := rfl
  have hack : ∀ offset, a.acknowledged k offset = Watch.sees a.means (a.scene (k + 1))
      (fun view => view.isAcknowledged ticket) (a.moment k + offset) := by
    intro offset
    rw [acknowledged, h]
    rfl
  obtain ⟨offset, hpoll, hearlier, hlate, hleads⟩ := Solo.Leads.await a.means hrun
    htimeout (a.moment k) (fun view => view.isAcknowledged ticket) fun
      | true => .done (.success (k + 1))
      | false => Retry.attempt a.action (.ofMillis a.timeout) (k + 1) left
  simp only [← hack] at hearlier hlate hleads
  exact ⟨offset, hpoll, hearlier, hlate, .trans (.step (by rw [attempt_step?, h])) hleads⟩

theorem leads_failed (h : a.Fails k) :
    Solo.Leads a.means (a.before k (left + 1)) (a.before (k + 1) left) := by
  obtain ⟨ticket, hreply⟩ := h.accepted
  obtain ⟨offset, hpoll, _, hlate, hleads⟩ := leads_accepted htimeout left hreply
  rw [h.unseen offset hpoll] at hlate hleads
  rw [hlate rfl] at hleads
  have hmoment : a.moment (k + 1) = a.moment k + a.timeout := by
    rw [moment, moment, Nat.succ_mul, Nat.add_assoc]
  rw [before, before, hmoment]
  exact hleads

theorem leads_seen {offset : Nat} (h : a.SeenAt k offset) : Solo.Leads a.means
    (a.before k (left + 1)) (a.concluded (k + 1) (a.moment k + offset) (.success (k + 1))) := by
  obtain ⟨ticket, hreply⟩ : ∃ ticket, a.reply k = .ok ticket := by
    have hack := h.acknowledged
    unfold acknowledged at hack
    split at hack
    · exact ⟨_, ‹_›⟩
    · cases hack
  obtain ⟨ended, hpoll, hearlier, hlate, hleads⟩ := leads_accepted htimeout left hreply
  have hended : ended = offset := by
    rcases Nat.lt_trichotomy ended offset with hlt | heq | hlt
    · -- Only the last poll ends a wait without seeing anything.
      have hspan := hlate (h.unseen ended hlt hpoll)
      exact absurd h.polled.1 (Nat.not_le.mpr (hspan ▸ hlt))
    · exact heq
    · have hack := h.acknowledged
      rw [hearlier offset hlt h.polled] at hack
      cases hack
  rw [hended, h.acknowledged] at hleads
  exact hleads

theorem leads_before (k left : Nat) (h : ∀ j < k, a.Fails j) :
    Solo.Leads a.means (a.before 0 (k + left)) (a.before k left) := by
  induction k generalizing left with
  | zero =>
    rw [Nat.zero_add]
    exact .refl
  | succ k ih =>
    have hbefore := ih (left + 1) fun j hj => h j (Nat.lt_succ_of_lt hj)
    rw [← Nat.add_assoc, Nat.add_right_comm] at hbefore
    exact hbefore.trans (leads_failed htimeout (h k (Nat.lt_succ_self k)))

theorem start_leads (maxRetries : Nat) (hk : k ≤ min maxRetries Config.maxRetriesLimit + 1)
    (h : ∀ j < k, a.Fails j) : Solo.Leads a.means (a.start maxRetries)
      (a.before k (min maxRetries Config.maxRetriesLimit + 1 - k)) := by
  have hstart : a.start maxRetries = a.before 0 (Retry.maxAttempts maxRetries) := by
    rw [before, moment, Nat.zero_mul, Nat.add_zero]
    rfl
  have hleads := leads_before htimeout k (min maxRetries Config.maxRetriesLimit + 1 - k) h
  rwa [Nat.add_sub_cancel' hk, ← Retry.maxAttempts, ← hstart] at hleads

/-- An action that must be confirmed is issued anew whenever the timeout, for which the clock has
room, is over, as long as the attempts before it were accepted and no poll saw their tickets
acknowledged. It succeeds at the first poll that sees the ticket of the attempt under way. A refusal
ends it at once, and so does the end of the last attempt; there are at most ten attempts after the
first. Whenever it is stopped while it waits it is interrupted, and nothing is issued any more. -/
theorem issue_until_seen (maxRetries : Nat) :
    (∀ k, (∃ ticket, a.reply k = .ok ticket) → a.Fails k ∨ ∃ offset, a.SeenAt k offset) ∧
    (∀ k offset, k ≤ min maxRetries 10 → (∀ j < k, a.Fails j) → a.SeenAt k offset →
      Solo.Leads a.means (a.start maxRetries)
        (a.concluded (k + 1) (a.moment k + offset) (.success (k + 1)))) ∧
    ((∀ j ≤ min maxRetries 10, a.Fails j) →
      Solo.Leads a.means (a.start maxRetries)
        (a.concluded (min maxRetries 10 + 1) (a.moment (min maxRetries 10 + 1))
          (.exhausted (min maxRetries 10 + 1)
            (.timeout ("no acknowledgement for " ++ a.action))))) ∧
    (∀ k e, k ≤ min maxRetries 10 → (∀ j < k, a.Fails j) → a.reply k = .error e →
      Solo.Leads a.means (a.start maxRetries) (a.concluded (k + 1) (a.moment k) (.refused e))) ∧
    (∀ now s, Solo.Leads a.means (a.start maxRetries) (now, s) → s.course.end? = none →
      (Solo.clockwork a.means).step? now s = none →
      ∃ moment, Solo.Leads a.means (now, s.request .stop)
        (moment, ⟨(s.request .stop).scene, .interrupted⟩)) := by
  have hlast : ∀ {k}, k ≤ min maxRetries 10 → (∀ j < k, a.Fails j) → ∃ left,
      Solo.Leads a.means (a.start maxRetries) (a.before k (left + 1)) := by
    intro k hk h
    have hleads := start_leads htimeout maxRetries (Nat.le_succ_of_le hk) h
    have hleft : min maxRetries Config.maxRetriesLimit + 1 - k =
        min maxRetries Config.maxRetriesLimit - k + 1 := Nat.succ_sub hk
    exact ⟨_, hleft ▸ hleads⟩
  refine ⟨fun k => fails_or_seenAt, ?_, ?_, ?_, ?_⟩
  · intro k offset hk hfails hseen
    obtain ⟨left, hleads⟩ := hlast hk hfails
    exact hleads.trans (leads_seen htimeout hseen)
  · intro hfails
    have hleads := start_leads htimeout maxRetries (Nat.le_refl _)
      fun j hj => hfails j (Nat.le_of_lt_succ hj)
    rwa [Nat.sub_self] at hleads
  · intro k e hk hfails hrefused
    obtain ⟨left, hleads⟩ := hlast hk hfails
    exact hleads.trans (leads_refused hrefused)
  · intro now s _ hend hrest
    exact Solo.Leads.interrupted hend hrest

end

def hesitant : Client Nat where
  view _ now := { Client.still.view () now with
    isAcknowledged := fun ticket => decide (ticket = 1 ∧ 1350 ≤ now) }
  issue game _ _ := (.ok game, game + 1)
  perform game _ _ := (.ok (), game)
  echo game _ _ := game
  notify game _ _ := game

def patient : Attempts Nat := ⟨⟨hesitant, .ofMillis 100, .lowest⟩, "Observe", 1000, 0, 0⟩

theorem issue_until_seen_hesitant :
    (Duration.ofMillis patient.timeout).nanos < Wait.horizon ∧
    Solo.Leads patient.means (patient.start 5) (patient.concluded 2 1400 (.success 2)) ∧
    patient.issues 2 = [(1000, .issued "Observe"), (0, .issued "Observe")] := by
  have htimeout : (Duration.ofMillis patient.timeout).nanos < Wait.horizon := by decide
  have hfails : patient.Fails 0 := by
    refine ⟨⟨0, rfl⟩, fun offset _ => ?_⟩
    change decide ((0 : Nat) = 1 ∧ 1350 ≤ patient.moment 0 + offset) = false
    simp
  have hseen : patient.SeenAt 1 400 := by
    refine ⟨⟨by decide, .inl (by decide)⟩, rfl, ?_⟩
    rintro earlier hlt ⟨_, hpoll⟩
    obtain ⟨k, rfl⟩ := hpoll.resolve_right (Nat.ne_of_lt (Nat.lt_trans hlt (by decide)))
    have hstride : Wait.stride patient.means.poll = 100 := by decide
    rw [hstride] at hlt ⊢
    change decide ((1 : Nat) = 1 ∧ 1350 ≤ 1000 + 100 * k) = false
    exact decide_eq_false (by omega)
  obtain ⟨_, hsuccess, _⟩ := issue_until_seen htimeout 5
  refine ⟨htimeout, hsuccess 1 400 (by decide) (fun j hj => ?_) hseen, rfl⟩
  rwa [Nat.lt_one_iff.mp hj]

end Attempts
end MacroEngine
