import MacroEngine.Proofs.Completion
import MacroEngine.Proofs.Resting

/-! Pausing is transparent. However often and whenever a run is paused, resumed and stepped, it
goes through the stages of the run that is left alone: it sends a part of the same commands, and
when it ends it has sent the same commands and ended alike. -/
namespace MacroEngine

theorem commands_eq (game : γ) (f : Fiber) :
    commands f.journal = (f.account game).events.reverse.filter Event.isCommand := by
  simp [commands, Fiber.account]

namespace Lifecycle

def Going (l : Lifecycle) : Prop :=
  l.state = .running ∨ l.state = .pausedNow ∨ l.state = .pausedAtNextLoop

theorem Going.not_stopped {l : Lifecycle} (h : l.Going) : l.state ≠ .stopped := by
  rcases h with h | h | h <;> simp [h]

/-- Each of these requests is refused or leads to such a state again. -/
theorem Going.apply {l : Lifecycle} (h : l.Going) {r : Request}
    (hr : r = .pause ∨ r = .pauseAtLoop ∨ r = .resume ∨ r = .step ∨ r = .loopBoundary) :
    (l.apply r).Going := by
  obtain ⟨state, single⟩ := l
  rcases h with h | h | h <;> dsimp only at h <;> subst h <;>
    rcases hr with rfl | rfl | rfl | rfl | rfl <;>
      simp [Lifecycle.apply, next?, RunState.next?, Going]

theorem kept_going : Kept Going where
  started := .inl rfl
  boundary l h := h.apply (by simp)
  afterStep l h := by
    unfold Lifecycle.afterStep
    split
    · exact .inr (.inl rfl)
    · exact h

end Lifecycle

def Controls.Wish.Pauses : Controls.Wish → Prop
  | .pause | .pauseAtLoop | .resume | .step => True
  | .stop | .stopAtLoop => False

namespace Snapshot

variable {engine : Engine γ} {s : Snapshot γ} {now : Moment} {game : γ} {name : String}
  {routine : Routine}

/-- Whatever is asked of a run but to stop, it goes through its stages. -/
theorem pauses_settle (ht : engine.client.Timeless)
    (h : Moves engine Controls.Wish.Pauses (start now game name routine) s) :
    s.Sound name ∧ s.Governed Lifecycle.Going ∧
      ∃ k, s.settle engine = (Stage.start game name routine).after engine k := by
  induction h with
  | refl =>
    exact ⟨sound_start .., governed_start Lifecycle.kept_going _ _ _ _, 0, settle_start ..⟩
  | tail _ hmove ih =>
    obtain ⟨hsound, hgoing, k, hk⟩ := ih
    have hwish : ∀ w : Controls.Wish, w.Pauses → ∀ l : Lifecycle, l.Going →
        (l.apply w.request).Going := by
      intro w hw l hl
      cases w with
      | pause | pauseAtLoop | resume | step => exact hl.apply (by simp [Controls.Wish.request])
      | stop | stopAtLoop => exact hw.elim
    refine ⟨sound_move hsound hmove, governed_move Lifecycle.kept_going
      (.inl fun l hl => hl.apply (by simp)) hwish hsound.native hgoing hmove, ?_⟩
    rcases settle_move ht (fun l => Lifecycle.Going.not_stopped) hsound.native hgoing hmove with
      he | he
    · exact ⟨k, by rw [he, hk]⟩
    · exact ⟨k + 1, by rw [he, hk, Stage.after_succ]⟩

/-- Pausing, resuming and stepping change only when a run does what it does. -/
theorem pausing_transparent (ht : engine.client.Timeless)
    (hu : ∀ n, ¬ ((start now game name routine).after engine n).run.fiber.Trips)
    (h : Moves engine Controls.Wish.Pauses (start now game name routine) s) :
    (∃ n, commands s.run.fiber.journal <+:
      commands ((start now game name routine).after engine n).run.fiber.journal) ∧
    ∀ o, s.run.outcome = some o → ∃ n ended,
      ((start now game name routine).after engine n).run.outcome = some ⟨o.result, ended⟩ ∧
      commands ((start now game name routine).after engine n).run.fiber.journal =
        commands s.run.fiber.journal ∧
      ((start now game name routine).after engine n).run.fiber.steps = s.run.fiber.steps ∧
      ((start now game name routine).after engine n).run.fiber.crossings = s.run.fiber.crossings ∧
      ((start now game name routine).after engine n).run.fiber.softErrors =
        s.run.fiber.softErrors := by
  obtain ⟨hsound, _, k, hk⟩ := pauses_settle ht h
  have hfree : (start now game name routine).Free engine :=
    ⟨rfl, governed_start Lifecycle.kept_started _ _ _ _, hu⟩
  have hstart := sound_start now game name routine
  constructor
  · obtain ⟨n, hrest, hn⟩ := hfree.reaches ht hstart k
    refine ⟨n, ?_⟩
    have hupto := (Fiber.upto_settle engine s.game s.run.fiber).events
    change _ <:+ (s.settle engine).account.events at hupto
    rw [hk, ← settle_start engine now, ← hn, account_eq hrest] at hupto
    rw [commands_eq s.game s.run.fiber,
      commands_eq _ ((start now game name routine).after engine n).run.fiber]
    exact (List.reverse_prefix.mpr hupto).filter _
  · intro o ho
    obtain ⟨result, hp, hres⟩ := hsound.outcome o ho
    have hsettle := settle_ended hp engine
    have hended : (((start now game name routine).settle engine).after engine k).ended =
        some result := by
      rw [settle_start, ← hk, hsettle]
    obtain ⟨n, ended, hout, haccount⟩ := hfree.finishes ht hstart hended
    rw [settle_start, ← hk, hsettle] at haccount
    have hsteps := congrArg Account.steps haccount
    have hcrossings := congrArg Account.crossings haccount
    have hsoft := congrArg Account.softErrors haccount
    have hreport : ((start now game name routine).after engine n).run.report = s.run.report := by
      funext stopped
      have hname : ((start now game name routine).after engine n).run.name = name :=
        (hstart.after n).name
      simp only [Run.report, hname, hsound.name]
      congr 1
      exact congrArg List.reverse hsoft
    refine ⟨n, ended, by rw [hout, hreport, ← hres], ?_, hsteps, hcrossings, hsoft⟩
    calc commands ((start now game name routine).after engine n).run.fiber.journal
        = _ := commands_eq ((start now game name routine).after engine n).game _
      _ = _ := by rw [haccount]
      _ = commands s.run.fiber.journal := (commands_eq s.game _).symm

theorem timeless_still : Client.still.Timeless :=
  ⟨fun _ _ => rfl, fun _ _ _ => rfl, fun _ _ _ => rfl, fun _ _ _ => rfl, fun _ _ _ => rfl⟩

def brewing : Routine :=
  ⟨[⟨1, .wait (.fixed (.ofNat 1)), "1", {}⟩, ⟨2, .echo "tea", "tea", {}⟩]⟩

def interruption : Snapshot Unit :=
  let s := (start 0 () "m" brewing).after (.still .empty) 4
  let s := { s with run := (s.run.grant .pause).2 }
  let s := { s with now := 5000 }
  let s := { s with run := (s.run.grant .resume).2 }
  s.after (.still .empty) 40

theorem moves_interruption :
    Moves (.still .empty) Controls.Wish.Pauses (start 0 () "m" brewing) interruption := by
  have hwait : Moves (.still .empty) Controls.Wish.Pauses (start 0 () "m" brewing) _ :=
    moves_after (start 0 () "m" brewing) 4
  have hpause := hwait.tail (.wish _ (w := .pause) trivial)
  have hlapse := hpause.tail (.lapse _ 5000 (by decide +kernel))
  have hresume := hlapse.tail (.wish _ (w := .resume) trivial)
  exact hresume.trans (moves_after _ 40)

theorem pausing_transparent_brewing :
    ∃ o, interruption.run.outcome = some o ∧ o.ended = 5000 ∧ ∃ n ended,
      ((start 0 () "m" brewing).after (.still .empty) n).run.outcome = some ⟨o.result, ended⟩ ∧
      commands ((start 0 () "m" brewing).after (.still .empty) n).run.fiber.journal =
        [.echoed "tea"] := by
  have hc : (start 0 () "m" brewing).Completes (.still .empty) :=
    Completes.of_over (N := 60) (by decide +kernel) (by decide +kernel) (by decide +kernel)
  have hended : interruption.run.outcome.map Outcome.ended = some 5000 := by decide +kernel
  obtain ⟨o, ho, htime⟩ := Option.map_eq_some_iff.mp hended
  obtain ⟨n, ended, hout, hcommands, _⟩ :=
    (pausing_transparent timeless_still hc.unheld moves_interruption).2 o ho
  exact ⟨o, ho, htime, n, ended, hout, hcommands.trans (by decide +kernel)⟩

end Snapshot
end MacroEngine
