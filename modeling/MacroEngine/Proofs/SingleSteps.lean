import MacroEngine.Proofs.Errands
import MacroEngine.Proofs.Failures
import MacroEngine.Proofs.Listings
import MacroEngine.Proofs.Nesting
import Mathlib.Data.Nat.Find

/-! A step that is granted to a paused run is a single one: the innermost invocation completes it and
is paused again, or is over with it, or all of the run fails. Until then the run goes on. -/
namespace MacroEngine

namespace Lifecycle

theorem step_paused {l : Lifecycle} (h : l.state = .pausedNow) :
    l.request .step = (.ok .running, ⟨.running, true⟩) := by
  obtain ⟨state, single⟩ := l
  cases h
  rfl

end Lifecycle

theorem Course.Resumes.keeps (means : Means γ) : Course.Keeps means fun _ c => c.Resumes :=
  fun hs hc h => (hc.step? (by rw [hs]; decide) h).1

namespace Errand

def Nested (e : Errand) (f : Fiber) : Prop := e.inv.control ∈ f.handles.tail

variable {e : Errand} {f : Fiber} {above : List Invocation} {top : Invocation} {c : Course Flow}
  {met met' : Prop} {name : String}

theorem Away.nested (h : e.Away above top f) : e.Nested f := by
  obtain ⟨inv, rest, rfl⟩ := List.exists_cons_of_ne_nil h.entered
  rw [Nested, Fiber.handles, h.stack, ← h.holds.control]
  exact List.mem_map_of_mem (List.mem_append_right rest (.head _))

theorem Away.length_lt (h : e.Away above top f) : e.below.length + 1 < f.stack.length := by
  have hpos := List.length_pos_of_ne_nil h.entered
  rw [h.stack, List.length_append, List.length_cons]
  omega

theorem Place.mem_handles (h : e.Place met f) : e.inv.control ∈ f.handles := by
  have htop : ∀ {top}, e.Holds top → f.stack = top :: e.below → e.inv.control ∈ f.handles :=
    fun hholds hs => hholds.control ▸ Fiber.mem_handles hs
  cases h with
  | before hb => exact htop hb.holds hb.stack
  | during hd => exact htop hd.holds hd.stack
  | held hh => exact htop hh.holds hh.stack
  | away ha => exact List.mem_of_mem_tail ha.nested

theorem Place.stack_ne_nil (h : e.Place met f) : f.stack ≠ [] := by
  intro hs
  have hm := h.mem_handles
  rw [Fiber.handles, hs] at hm
  cases hm

theorem Place.completed (h : e.Place met f) : completedSteps e.inv.name f.journal = e.done := by
  cases h with
  | before h | during h | held h | away h => exact h.completed

/-- As long as it goes on, the errand is not over. -/
theorem Over.not_place (hg : f.Grounded name) (ho : e.Over met f) : ¬ e.Place met' f := by
  intro hp
  cases ho with
  | cut hm | ran hm => exact hm hp.mem_handles
  | failed hphase => exact hp.stack_ne_nil (hg.emptied.mp ⟨_, hphase⟩)
  | paused _ _ _ _ hphase hl =>
    have hrunning : f.controls.lifecycle e.inv.control ≠ ⟨.running, true⟩ := by
      rw [hl]
      decide
    cases hp with
    | before hb => exact hrunning hb.lifecycle
    | during hd => exact hrunning hd.lifecycle
    | held hh => cases hphase.symm.trans hh.phase
    | away ha => exact hrunning ha.lifecycle

theorem Place.busy (h : e.Place met f) (hs : f.stack = top :: e.below) (hp : f.phase = .busy c) :
    e.During met top c f ∨ ∃ step, e.Held top step f := by
  cases h with
  | before hb => cases hp.symm.trans hb.phase
  | during hd =>
    cases hs.symm.trans hd.stack
    cases hp.symm.trans hd.phase
    exact .inl hd
  | held hh =>
    cases hs.symm.trans hh.stack
    exact .inr ⟨_, hh⟩
  | away ha =>
    have hlt := ha.length_lt
    rw [hs, List.length_cons] at hlt
    exact absurd hlt (Nat.lt_irrefl _)

end Errand

namespace Snapshot

variable {engine : Engine γ} {s t : Snapshot γ} {e : Errand} {met : Prop} {top : Invocation}
  {below : List Invocation} {c : Course Flow}

/-- A run that is left alone from here on, in which no check pauses a macro that the step runs. -/
structure Undisturbed (engine : Engine γ) (e : Errand) (s : Snapshot γ) : Prop where
  orderly : s.run.Orderly
  strict : s.run.Strict
  proper : ∀ n, ∃ name, (s.after engine n).run.fiber.Proper engine.rules.library name
  unheld : ∀ n, (s.after engine n).run.fiber.Trips → ¬ e.Nested (s.after engine n).run.fiber

theorem Undisturbed.after (h : s.Undisturbed engine e) (n : Nat) :
    (s.after engine n).Undisturbed engine e where
  orderly := orderly_after h.orderly n
  strict := strict_after h.strict n
  proper m := by
    rw [← after_add]
    exact h.proper (n + m)
  unheld m := by
    rw [← after_add]
    exact h.unheld (n + m)

/-- A tick of a run that has a stack: a small step of its fiber, or only time. -/
theorem tick_or_lapse (engine : Engine γ) (hs : s.run.Orderly) (hne : s.run.fiber.stack ≠ []) :
    (∃ r, Fiber.SmallStep engine s.now s.game s.run.fiber r ∧
      s.tick engine = ⟨s.now, r.1, { s.run with fiber := r.2 }⟩) ∨
    ∃ now, s.tick engine = { s with now := now } := by
  cases hstep : s.run.fiber.step? engine s.now s.game with
  | some r => exact .inl ⟨r, Fiber.smallStep_of_step? hstep, tick_stacked hs hstep⟩
  | none =>
    have hnone : s.run.step? engine s.now s.game = none := by
      rw [hs.step?_stacked hne, hstep]
      rfl
    cases hw : s.run.wake? s.now with
    | none => exact .inr ⟨s.now, by simp [tick, hnone, hw]⟩
    | some wake => exact .inr ⟨max s.now wake, by simp [tick, hnone, hw]⟩

theorem unfinished (hs : s.run.Orderly) (hne : s.run.fiber.stack ≠ []) : s.run.outcome = none :=
  Option.not_isSome_iff_eq_none.mp fun ho => hne (hs.finished ho)

/-- The errand is over. If all of the stack has failed, so does the run. -/
structure Landed (engine : Engine γ) (e : Errand) (met : Prop) (s : Snapshot γ) : Prop where
  ended : e.Over met s.run.fiber
  fails : ∀ error, s.run.fiber.phase = .ended (.error error) → s.Fails engine error

theorem landed_tick {r : γ × Fiber} (h : s.Undisturbed engine e) (hne : s.run.fiber.stack ≠ [])
    (htick : s.tick engine = ⟨s.now, r.1, { s.run with fiber := r.2 }⟩) (hover : e.Over met r.2) :
    (s.tick engine).Landed engine e met where
  ended := by rwa [htick]
  fails error hp := by
    obtain ⟨_, hproper⟩ := h.proper 1
    have ho := unfinished h.orderly hne
    refine fails_of_ended (orderly_tick h.orderly) (h.after 1).strict (by rwa [htick])
      (fun b hb hidle => ?_) hp (hproper.unstopped error hp)
    rw [htick] at hb
    exact hne (h.orderly.idle b hb hidle)

theorem place_tick (h : s.Undisturbed engine e) (hp : e.Place met s.run.fiber) :
    (s.tick engine).Landed engine e (met ∨ e.Nested s.run.fiber) ∨
      e.Place (met ∨ e.Nested s.run.fiber) (s.tick engine).run.fiber := by
  have hne := hp.stack_ne_nil
  obtain ⟨name, hproper⟩ := h.proper 0
  have hproper : s.run.fiber.Proper engine.rules.library name := hproper
  rcases tick_or_lapse engine h.orderly hne with ⟨r, hstep, htick⟩ | ⟨now, htick⟩
  · suffices hr : e.Over (met ∨ e.Nested s.run.fiber) r.2 ∨
        e.Place (met ∨ e.Nested s.run.fiber) r.2 by
      refine hr.imp (landed_tick h hne htick) fun hplace => ?_
      rwa [htick]
    cases hp with
    | before hb =>
      rcases Errand.before_step hproper hb hstep with ⟨c, hd⟩ | ⟨top, hb, _⟩ | hover
      · exact .inr (.during hd)
      · exact .inr (.before hb)
      · exact .inl hover
    | @during top c hd =>
      have hd : e.During (met ∨ e.Nested s.run.fiber) top c s.run.fiber :=
        { hd with calls := fun step name hget hc => (hd.calls step name hget hc).imp_left .inl }
      cases hstep with
      | halted _ hp | finished _ hp | begun _ hp => rw [hd.phase] at hp; cases hp
      | moved hs hp hc =>
        cases hd.stack.symm.trans hs
        cases hd.phase.symm.trans hp
        rcases Errand.during_moves hproper hd hc with ⟨top, hd⟩ | ⟨top, step, hh⟩
        · exact .inr (.during hd)
        · exact .inr (.held hh)
      | concluded hs hp hend =>
        cases hd.stack.symm.trans hs
        cases hd.phase.symm.trans hp
        have hconcludes := Errand.during_concludes hproper hd hend engine s.now s.game
        rcases hconcludes with ⟨above, top', ha⟩ | hover
        · exact .inr (.away ha)
        · exact .inl hover
    | held hh => exact .inl (Errand.held_step hproper hh hstep)
    | away ha =>
      have hnested := ha.nested
      rcases Errand.away_step hproper (fun ht => h.unheld 0 ht hnested) ha hstep with
        ⟨above, top, ha⟩ | ⟨top, c, hd, _⟩ | hover
      · exact .inr (.away ha)
      · exact .inr (.during { hd with calls := fun _ _ _ _ => .inl (.inr hnested) })
      · exact .inl hover
  · rw [htick]
    exact .inr (hp.mono .inl)

def Met (engine : Engine γ) (e : Errand) (s : Snapshot γ) (n : Nat) : Prop :=
  ∃ m < n, e.Nested (s.after engine m).run.fiber

theorem met_succ (n : Nat) : s.Met engine e (n + 1) ↔
    s.Met engine e n ∨ e.Nested (s.after engine n).run.fiber := by
  constructor
  · rintro ⟨m, hm, hn⟩
    rcases Nat.lt_succ_iff_lt_or_eq.mp hm with hm | rfl
    · exact .inl ⟨m, hm, hn⟩
    · exact .inr hn
  · rintro (⟨m, hm, hn⟩ | hn)
    · exact ⟨m, Nat.lt_succ_of_lt hm, hn⟩
    · exact ⟨n, Nat.lt_succ_self n, hn⟩

/-- Induction on the ticks: the errand goes on until it is over. -/
theorem place_after (h : s.Undisturbed engine e) (hp : e.Place met s.run.fiber) (n : Nat) :
    (∃ m ≤ n, (s.after engine m).Landed engine e (met ∨ s.Met engine e m)) ∨
      e.Place (met ∨ s.Met engine e n) (s.after engine n).run.fiber := by
  induction n with
  | zero => exact .inr (hp.mono .inl)
  | succ n ih =>
    rcases ih with ⟨m, hm, hl⟩ | hp
    · exact .inl ⟨m, Nat.le_succ_of_le hm, hl⟩
    · have hmet : (met ∨ s.Met engine e n) ∨ e.Nested (s.after engine n).run.fiber →
          met ∨ s.Met engine e (n + 1) := by
        rw [met_succ, or_assoc]
        exact id
      rw [after_succ]
      rcases place_tick (h.after n) hp with ⟨hover, hfails⟩ | hp
      · rw [← after_succ] at hover hfails
        exact .inl ⟨n + 1, Nat.le_refl _, hover.mono hmet, hfails⟩
      · exact .inr (hp.mono hmet)

end Snapshot

theorem Course.goes_on {means : Means γ} {now : Moment} {s : Scene γ} {c : Course α}
    (hs : s.control.state = .running) (hend : c.end? = none) :
    (c.step? means now s).isSome ∨ (c.wake? now).isSome := by
  cases c with
  | interrupted => cases hend
  | waiting wait holds next =>
    by_cases hw : now < wait.wake
    · exact .inr (by simp [wake?, hw])
    · left
      rw [step?_due means s holds next (hs ▸ Wait.readiness_running (Nat.le_of_not_lt hw))]
      rfl
  | doing a =>
    left
    cases a with
    | done | fail => cases hend
    | pause span next =>
      simp only [step?, proceed?]
      split <;> rfl
    | _ => rfl

namespace Snapshot

variable {engine : Engine γ} {s t : Snapshot γ} {e : Errand} {met : Prop} {inv top : Invocation}
  {below : List Invocation} {c : Course Flow}

def GoesOn (engine : Engine γ) (s : Snapshot γ) : Prop :=
  (s.run.step? engine s.now s.game).isSome ∨ (s.run.wake? s.now).isSome

theorem running_goes (hs : s.run.Orderly) (hstack : s.run.fiber.stack = inv :: below)
    (hrunning : s.run.fiber.controls.state inv.control = .running) : s.GoesOn engine := by
  have hne : s.run.fiber.stack ≠ [] := by simp [hstack]
  have hstep : (s.run.fiber.step? engine s.now s.game).isSome → s.GoesOn engine := by
    intro hf
    left
    rw [hs.step?_stacked hne]
    simpa using hf
  cases hp : s.run.fiber.phase with
  | ready => exact hstep (Fiber.step?_running engine s.now s.game hstack hp hrunning)
  | ended result => exact absurd (hs.grounded.emptied.mp ⟨result, hp⟩) hne
  | busy c =>
    cases hend : c.end? with
    | some ending => exact hstep (by rw [Fiber.step?_concluded hstack hp hend]; rfl)
    | none =>
      have hscene : (s.run.fiber.scene inv s.game).control.state = .running := hrunning
      have hgoes : (c.step? engine.means s.now (s.run.fiber.scene inv s.game)).isSome ∨
          (c.wake? s.now).isSome := Course.goes_on hscene hend
      rcases hgoes with hc | hw
      · obtain ⟨⟨scene, c'⟩, hc⟩ := Option.isSome_iff_exists.mp hc
        exact hstep (by rw [Fiber.step?_moved hstack hp hend hc]; rfl)
      · right
        simpa [Run.wake?, unfinished hs hne, Fiber.wake?, hp] using hw

theorem place_goes (h : s.Undisturbed engine e) (hp : e.Place met s.run.fiber) :
    s.GoesOn engine := by
  have hopen : ∀ {inv below}, s.run.fiber.stack = inv :: below →
      (s.run.fiber.controls.lifecycle inv.control).state = .running → s.GoesOn engine :=
    running_goes h.orderly
  cases hp with
  | before hb => exact hopen hb.stack (by rw [hb.holds.control, hb.lifecycle])
  | during hd => exact hopen hd.stack (by rw [hd.holds.control, hd.lifecycle])
  | held hh =>
    left
    rw [h.orderly.step?_stacked (by simp [hh.stack]), Fiber.step?_concluded hh.stack hh.phase rfl]
    rfl
  | away ha =>
    obtain ⟨inv, rest, rfl⟩ := List.exists_cons_of_ne_nil ha.entered
    exact hopen ha.stack (by rw [ha.others inv (.head _)]; rfl)

structure Endless (engine : Engine γ) (e : Errand) (s : Snapshot γ) : Prop where
  undisturbed : s.Undisturbed engine e
  place : ∀ n, e.Place True (s.after engine n).run.fiber

namespace Endless

variable {above : List Invocation} {step : Step} {ending : Course.End Flow}

theorem after (h : s.Endless engine e) (n : Nat) : (s.after engine n).Endless engine e where
  undisturbed := h.undisturbed.after n
  place m := by
    rw [← after_add]
    exact h.place (n + m)

theorem next (h : s.Endless engine e) : (s.tick engine).Endless engine e := h.after 1

theorem not_over (h : s.Endless engine e) : ¬ e.Over met s.run.fiber :=
  fun ho => ho.not_place h.undisturbed.orderly.grounded (h.place 0)

theorem proper (h : s.Endless engine e) :
    ∃ name, s.run.fiber.Proper engine.rules.library name := h.undisturbed.proper 0

theorem not_held (h : s.Endless engine e) : ¬ e.Held top step s.run.fiber := by
  intro hh
  obtain ⟨_, hproper⟩ := h.proper
  have hover : e.Over True (s.tick engine).run.fiber := by
    rw [tick_concludes h.undisturbed.orderly hh.stack hh.phase rfl]
    exact Errand.held_step hproper hh (.concluded hh.stack hh.phase rfl)
  exact h.next.not_over hover

theorem during (h : s.Endless engine e) (hs : s.run.fiber.stack = top :: e.below)
    (hp : s.run.fiber.phase = .busy c) : e.During True top c s.run.fiber :=
  ((h.place 0).busy hs hp).resolve_right fun ⟨_, hh⟩ => h.not_held hh

/-- The step can only end in another macro. -/
theorem enters (h : s.Endless engine e) (hd : e.During True top c s.run.fiber)
    (hend : c.end? = some ending) :
    ending ≠ .value .next ∧ ∃ above top, e.Away above top (s.tick engine).run.fiber := by
  obtain ⟨_, hproper⟩ := h.proper
  have hfiber : (s.tick engine).run.fiber =
      (Fiber.conclude engine s.now s.game s.run.fiber top e.below ending).2 := by
    rw [tick_concludes h.undisturbed.orderly hd.stack hd.phase hend]
  have hconcludes := Errand.during_concludes hproper hd hend engine s.now s.game
  rw [← hfiber] at hconcludes
  obtain ⟨above, top', ha⟩ := hconcludes.resolve_right h.next.not_over
  refine ⟨?_, above, top', ha⟩
  rintro rfl
  have hlt := ha.length_lt
  rw [hfiber] at hlt
  exact absurd hlt (Nat.lt_irrefl _)

theorem departs (h : s.Endless engine e) (hd : e.During True top c s.run.fiber) :
    ¬ c.Resumes ∧ ∃ n above top, e.Away above top (s.after engine n).run.fiber := by
  have hkeeps : Course.Keeps engine.means fun _ c' => c.Resumes → c'.Resumes :=
    fun hs hc hstep hresumes => Course.Resumes.keeps engine.means hs (hc hresumes) hstep
  have hgoing : s.Going top e.below c :=
    ⟨h.undisturbed.orderly, hd.stack, hd.phase, by
      rw [Controls.state, hd.holds.control, hd.lifecycle]⟩
  obtain ⟨n, frames, c', hg, hkept, hend | ⟨reason, next, rfl⟩⟩ :=
    course_arrives (P := fun _ c' => c.Resumes → c'.Resumes) hkeeps hgoing id
  · obtain ⟨ending, hend⟩ := Option.isSome_iff_exists.mp hend
    obtain ⟨hne, above, top', ha⟩ := (h.after n).enters ((h.after n).during hg.stack hg.phase) hend
    rw [← after_succ] at ha
    exact ⟨fun hresumes => hne ((hkept hresumes).end hend), n + 1, above, top', ha⟩
  · -- A check that pauses the invocation would be complete with the next step.
    obtain ⟨_, hproper⟩ := (h.after n).proper
    obtain ⟨step, _, habides⟩ := hproper.abides.top _ _ _ hg.stack hg.phase
    obtain ⟨rfl, _⟩ := habides.1
    have htick : (s.after engine n).tick engine = _ :=
      tick_moves hg.orderly hg.stack hg.phase rfl
    have hnext : e.During True { top with frames := frames } (.doing (.done .next))
        ((s.after engine n).tick engine).run.fiber :=
      (h.after n).next.during (by rw [htick]; rfl) (by rw [htick])
    exact absurd rfl ((h.after n).next.enters hnext rfl).1

theorem begins (h : s.Endless engine e) (hb : e.Before top s.run.fiber) (step : Step)
    (hget : top.routine.get? top.cursor = some step) :
    ∃ c, e.During True top c (s.tick engine).run.fiber := by
  have hrunning : s.run.fiber.controls.state top.control = .running := by
    rw [Controls.state, hb.holds.control, hb.lifecycle]
  have htick : s.tick engine = _ := tick_begins h.undisturbed.orderly hb.stack hb.phase
    (by rw [hrunning]; decide) (by rw [hrunning]; decide) hget
  exact ⟨_, h.next.during (by rw [htick]; exact hb.stack) (by rw [htick])⟩

/-- From the end of its steps only a loop leads the invocation into a step. -/
theorem begins_after (h : s.Endless engine e) (hb : e.Before top s.run.fiber) :
    ∃ n top c, e.During True top c (s.after engine n).run.fiber := by
  cases hget : top.routine.get? top.cursor with
  | some step =>
    obtain ⟨c, hd⟩ := h.begins hb step hget
    exact ⟨1, top, c, hd⟩
  | none =>
    obtain ⟨_, hproper⟩ := h.proper
    have hrunning : s.run.fiber.controls.state top.control = .running := by
      rw [Controls.state, hb.holds.control, hb.lifecycle]
    obtain ⟨r, hr⟩ := Option.isSome_iff_exists.mp
      (Fiber.step?_running engine s.now s.game hb.stack hb.phase hrunning)
    have htick : s.tick engine = _ := tick_stacked h.undisturbed.orderly hr
    have hnext : (∃ c, e.During True top c (s.tick engine).run.fiber) ∨
        (∃ top, e.Before top (s.tick engine).run.fiber ∧ (top.routine.get? top.cursor).isSome) ∨
        e.Over True (s.tick engine).run.fiber := by
      rw [htick]
      exact Errand.before_step hproper hb (Fiber.smallStep_of_step? hr)
    rcases hnext with ⟨c, hd⟩ | ⟨top', hb', hget'⟩ | hover
    · exact ⟨1, top, c, hd⟩
    · obtain ⟨step, hget'⟩ := Option.isSome_iff_exists.mp hget'
      obtain ⟨c, hd⟩ := h.next.begins hb' step hget'
      exact ⟨2, top', c, hd⟩
    · exact absurd hover h.next.not_over

theorem stays (h : s.Endless engine e) (ha : e.Away above top s.run.fiber) :
    ∃ above top, e.Away above top (s.tick engine).run.fiber := by
  obtain ⟨_, hproper⟩ := h.proper
  have hstuck := h.undisturbed.unheld 0
  rcases tick_or_lapse engine h.undisturbed.orderly (h.place 0).stack_ne_nil with
    ⟨r, hstep, htick⟩ | ⟨now, htick⟩
  · have hnext := h.next
    rw [htick] at hnext ⊢
    have haway : (∃ above top, e.Away above top r.2) ∨
        (∃ top c, e.During True top c r.2 ∧ c.Resumes) ∨ e.Over True r.2 :=
      Errand.away_step hproper (fun ht => hstuck ht ha.nested) ha hstep
    rcases haway with haway | ⟨top, c, hd, hresumes⟩ | hover
    · exact haway
    · exact absurd hresumes (hnext.departs hd).1
    · exact absurd hover hnext.not_over
  · rw [htick]
    exact ⟨above, top, ha⟩

theorem away_after (h : s.Endless engine e) (ha : e.Away above top s.run.fiber) (n : Nat) :
    ∃ above top, e.Away above top (s.after engine n).run.fiber := by
  induction n with
  | zero => exact ⟨above, top, ha⟩
  | succ n ih =>
    obtain ⟨above, top, ha⟩ := ih
    rw [after_succ]
    exact (h.after n).stays ha

theorem nested (h : s.Endless engine e) :
    ∃ N, ∀ n, N ≤ n → e.Nested (s.after engine n).run.fiber := by
  have hduring : ∀ n top c, e.During True top c (s.after engine n).run.fiber →
      ∃ N above top, e.Away above top (s.after engine N).run.fiber := by
    intro n top c hd
    obtain ⟨_, k, haway⟩ := (h.after n).departs hd
    exact ⟨n + k, by rwa [after_add]⟩
  obtain ⟨N, above, top, ha⟩ :
      ∃ N above top, e.Away above top (s.after engine N).run.fiber := by
    cases h.place 0 with
    | before hb =>
      obtain ⟨n, top, c, hd⟩ := h.begins_after hb
      exact hduring n top c hd
    | during hd => exact hduring 0 _ _ hd
    | held hh => exact absurd hh h.not_held
    | away ha => exact ⟨0, _, _, ha⟩
  refine ⟨N, fun n hn => ?_⟩
  obtain ⟨k, rfl⟩ := Nat.exists_eq_add_of_le hn
  obtain ⟨above, top, ha⟩ := (h.after N).away_after ha k
  rw [after_add]
  exact ha.nested

end Endless

variable {asks : Controls.Wish → Prop} {now : Moment} {game : γ} {run : Run}

def stepped (s : Snapshot γ) : Snapshot γ := { s with run := (s.run.grant .step).2 }

def errand (s : Snapshot γ) (inv : Invocation) (below : List Invocation) : Errand :=
  ⟨inv, below, completedSteps inv.name s.run.fiber.journal⟩

/-- Only a wait is left of the step under way; if it runs another macro, that is over. -/
def Back (s : Snapshot γ) : Prop := ∃ c, s.run.fiber.phase = .busy c ∧ c.Resumes

theorem grant_step (hfresh : run.Fresh) (h : Moves engine asks ⟨now, game, run⟩ s)
    (hs : s.run.fiber.stack = inv :: below)
    (hpaused : s.run.fiber.controls.state inv.control = .pausedNow) :
    s.run.grant .step = (.ok .running, { s.run with fiber := { s.run.fiber with
      controls := s.run.fiber.controls.set inv.control ⟨.running, true⟩ } }) := by
  have hinnermost := (listed_moves hfresh h).fiber.innermost
    (orderly_moves (Run.orderly_fresh hfresh) h).grounded hs
  simp only [Run.grant, Controls.grant, Controls.onInnermost, Controls.request, hinnermost,
    Lifecycle.step_paused hpaused]

/-- The errand begins between two steps or in the middle of one. -/
theorem place_stepped (hfresh : run.Fresh) (h : Moves engine asks ⟨now, game, run⟩ s)
    (hs : s.run.fiber.stack = inv :: below)
    (hpaused : s.run.fiber.controls.state inv.control = .pausedNow) :
    (s.errand inv below).Place s.Back s.stepped.run.fiber := by
  have horderly := orderly_moves (Run.orderly_fresh hfresh) h
  have hopen : (s.errand inv below).Open s.stepped.run.fiber := by
    rw [stepped, grant_step hfresh h hs hpaused]
    exact ⟨Controls.lifecycle_set_self (live_innermost horderly hs), rfl⟩
  have hholds : (s.errand inv below).Holds inv := ⟨rfl, rfl, rfl, .inl rfl⟩
  cases hp : s.run.fiber.phase with
  | ready => exact .before ⟨hopen, hholds, hs, hp⟩
  | ended result =>
    have hempty := horderly.grounded.emptied.mp ⟨result, hp⟩
    cases hs.symm.trans hempty
  | busy c =>
    refine .during ⟨hopen, hholds, hs, hp, ?_, fun step name hget hcommand => ?_⟩
    · rintro rfl
      have hstopped := severed_moves hfresh h inv below hs hp
      rw [hpaused] at hstopped
      cases hstopped
    · have hlasting := underway_moves (lasting_enters engine) hfresh h
      exact (hlasting.top inv below c hs hp step name hget hcommand).imp_left fun hc => ⟨c, hp, hc⟩

structure Pending (engine : Engine γ) (e : Errand) (s : Snapshot γ) : Prop where
  present : e.inv.control ∈ s.run.fiber.handles
  completed : completedSteps e.inv.name s.run.fiber.journal = e.done
  goes : s.GoesOn engine

/-- A run whose innermost invocation is paused goes on for one step of that invocation, when a step
is granted and nothing else is asked: until the step is complete and the invocation is paused again,
or the invocation is over, or all of the stack has failed. A step that runs another macro is complete
when that macro is over; only if that never happens the run goes on for ever. -/
theorem single_steps (hrun : run.OfMacro) (h : Moves engine (fun _ => True) ⟨now, game, run⟩ s)
    (hs : s.run.fiber.stack = inv :: below)
    (hpaused : s.run.fiber.controls.state inv.control = .pausedNow)
    (hunheld : ∀ n, (s.stepped.after engine n).run.fiber.Trips →
      ¬ (s.errand inv below).Nested (s.stepped.after engine n).run.fiber) :
    let e := s.errand inv below
    (s.run.grant .step).1 = .ok .running ∧
    ((∃ n, (s.stepped.after engine n).Landed engine e (s.Back ∨ s.stepped.Met engine e n) ∧
        ∀ m < n, (s.stepped.after engine m).Pending engine e) ∨
      (∀ n, (s.stepped.after engine n).Pending engine e) ∧
        ∃ N, ∀ n, N ≤ n → e.Nested (s.stepped.after engine n).run.fiber) := by
  intro e
  have hfresh := hrun.fresh
  have hmove : Moves engine (fun _ => True) ⟨now, game, run⟩ s.stepped := h.tail (.wish s trivial)
  have hund : s.stepped.Undisturbed engine e := by
    refine ⟨orderly_moves (Run.orderly_fresh hfresh) hmove, strict_moves hrun.strict hmove,
      fun n => ?_, hunheld⟩
    exact ⟨_, proper_moves hfresh (hmove.trans (moves_after _ n))⟩
  have hplace : e.Place s.Back s.stepped.run.fiber := place_stepped hfresh h hs hpaused
  have hpending : ∀ {n met}, e.Place met (s.stepped.after engine n).run.fiber →
      (s.stepped.after engine n).Pending engine e :=
    fun hp => ⟨hp.mem_handles, hp.completed, place_goes (hund.after _) hp⟩
  refine ⟨by rw [grant_step hfresh h hs hpaused], ?_⟩
  by_cases hland : ∃ n, (s.stepped.after engine n).Landed engine e
      (s.Back ∨ s.stepped.Met engine e n)
  · classical
    refine .inl ⟨Nat.find hland, Nat.find_spec hland, fun m hm => ?_⟩
    rcases place_after hund hplace m with ⟨k, hk, hlanded⟩ | hp
    · exact absurd hlanded (Nat.find_min hland (Nat.lt_of_le_of_lt hk hm))
    · exact hpending hp
  · have hforever : ∀ n, e.Place (s.Back ∨ s.stepped.Met engine e n)
        (s.stepped.after engine n).run.fiber := fun n =>
      (place_after hund hplace n).resolve_left fun ⟨k, _, hlanded⟩ => hland ⟨k, hlanded⟩
    have hendless : s.stepped.Endless engine e :=
      ⟨hund, fun n => (hforever n).mono fun _ => trivial⟩
    exact .inr ⟨fun n => hpending (hforever n), hendless.nested⟩

def ordering : Snapshot Unit :=
  let s := (start 0 () "m" serving).after (.still pantry) 6
  { s with run := (s.run.grant .pause).2 }

theorem single_steps_ordering :
    ∃ inv, ordering.run.fiber.stack = [inv] ∧
      ordering.run.fiber.controls.state inv.control = .pausedNow ∧
      (∀ n, ¬ (ordering.stepped.after (.still pantry) n).run.fiber.Trips) ∧
      ∃ n, (ordering.stepped.after (.still pantry) n).Landed (.still pantry)
          (ordering.errand inv []) (ordering.Back ∨
            ordering.stepped.Met (.still pantry) (ordering.errand inv []) n) ∧
        ∀ m < n, (ordering.stepped.after (.still pantry) m).Pending (.still pantry)
          (ordering.errand inv []) := by
  have hrun : (start 0 () "m" serving).run.OfMacro := .native "m" serving
  have hmoves : Moves (.still pantry) (fun _ => True) (start 0 () "m" serving) ordering :=
    (moves_after _ 6).tail (.wish _ trivial)
  have hhandles : ordering.run.fiber.handles = [Controls.root] := by decide +kernel
  have hstate : ordering.run.fiber.controls.state Controls.root = .pausedNow := by decide +kernel
  have hidle : (((ordering.stepped.after (.still pantry) 26).run.step? (.still pantry)
      (ordering.stepped.after (.still pantry) 26).now ()).isNone ∧
      ((ordering.stepped.after (.still pantry) 26).run.wake?
        (ordering.stepped.after (.still pantry) 26).now).isNone) ∧
      (ordering.stepped.after (.still pantry) 26).run.fiber.handles.tail = [] := by decide +kernel
  obtain ⟨inv, hs, hcontrol⟩ := List.map_eq_singleton_iff.mp hhandles
  have hpaused : ordering.run.fiber.controls.state inv.control = .pausedNow := by
    rw [hcontrol, hstate]
  have hunheld : ∀ n, ¬ (ordering.stepped.after (.still pantry) n).run.fiber.Trips := by
    intro n
    have hstepped : Moves (.still pantry) (fun _ => True) (start 0 () "m" serving)
        ordering.stepped := hmoves.tail (.wish _ trivial)
    have hafter : Moves (.still pantry) (fun _ => True) ordering.stepped
        (ordering.stepped.after (.still pantry) n) := moves_after _ n
    exact not_trips_of_quiet Client.still_quiet hrun.fresh (hstepped.trans hafter)
  refine ⟨inv, hs, hpaused, hunheld, ?_⟩
  obtain ⟨_, hlanded | ⟨_, N, hnested⟩⟩ :=
    single_steps hrun hmoves hs hpaused fun n ht => absurd ht (hunheld n)
  · exact hlanded
  · -- After 26 ticks nothing is left to do, and the invocation has not entered a macro.
    have hn := hnested (26 + N) (Nat.le_add_left N 26)
    rw [after_add] at hn
    generalize ordering.stepped.after (.still pantry) 26 = u at hidle hn
    obtain ⟨⟨hstep, hwake⟩, htail⟩ := hidle
    have hfix : u.tick (.still pantry) = u := by
      simp [tick, Option.isNone_iff_eq_none.mp hstep, Option.isNone_iff_eq_none.mp hwake]
    rw [after, Function.iterate_fixed hfix] at hn
    simp [Errand.Nested, htail] at hn

end Snapshot
end MacroEngine
