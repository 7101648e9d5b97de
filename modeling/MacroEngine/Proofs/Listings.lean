import MacroEngine.Proofs.Callers
import MacroEngine.Proofs.Stopping

/-! The published invocations are those of the stack at every moment at which a run waits, and
when it is over only the outermost one is left. All that were taken off the list are stopped, and
nothing starts them again. -/
namespace MacroEngine
namespace Controls

variable {c c' : Controls} {h k : Handle} {P : Handle → Prop} {Q : Lifecycle → Prop}
  {ps : List Published}

def Over (c : Controls) (h : Handle) : Prop := ¬ c.Live h ∧ (c.lifecycle h).Halted

theorem lookup_filtered (es : List (Handle × Lifecycle)) (h : Handle) :
    (es.filter fun e => e.1 ≠ h).lookup h = none := by
  induction es with
  | nil => rfl
  | cons e es ih =>
    by_cases he : e.1 = h
    · simpa [he] using ih
    · simpa [he, lookup_cons_of_ne _ (Ne.symm he)] using ih

theorem halted_finish (l : Lifecycle) : (l.apply .finish).Halted := by
  obtain ⟨state, single⟩ := l
  cases state <;> rfl

theorem over_retire (c : Controls) (h : Handle) : (c.retire h).Over h := by
  have hgone : (c.retire h).live.lookup h = none := lookup_filtered c.live h
  constructor
  · simp [Live, hgone]
  · have hlifecycle : (c.retire h).lifecycle h = (c.lifecycle h).apply .finish := by
      unfold lifecycle
      rw [hgone]
      simp [retire, lifecycle]
    rw [hlifecycle]
    exact halted_finish _

theorem Over.retire (ho : c.Over k) (h : Handle) : (c.retire h).Over k := by
  by_cases hk : k = h
  · subst hk
    exact over_retire c k
  · have hlive : (c.retire h).Live k ↔ c.Live k := by
      unfold Live Controls.retire
      rw [lookup_removed _ hk]
    rw [Over, hlive, lifecycle_retire_of_ne hk]
    exact ho

theorem over_retireEach (hk : k ∈ ps.map Published.handle ∨ c.Over k) :
    (ps.foldl (fun c p => c.retire p.handle) c).Over k := by
  induction ps generalizing c with
  | nil => exact hk.resolve_left (List.not_mem_nil)
  | cons p ps ih =>
    apply ih
    rcases hk with hk | hk
    · rcases List.mem_cons.mp hk with rfl | hk
      · exact .inr (over_retire c p.handle)
      · exact .inl hk
    · exact .inr (hk.retire p.handle)

theorem Over.tuned (ho : c.Over k) (ht : Tuned P c c') : c'.Over k := by
  rw [Over, ht.live k, ht.kept k fun hk => ho.1 hk.2]
  exact ho

theorem Over.enter (ho : c.Over k) (hk : k < c.nextHandle) (name : String) :
    (c.enter name).Over k := by
  have hne : k ≠ c.nextHandle := Nat.ne_of_lt hk
  constructor
  · unfold Live Controls.enter
    rw [lookup_cons_of_ne _ hne]
    exact ho.1
  · rw [lifecycle_enter_of_ne hne]
    exact ho.2

theorem nextHandle_retireEach (ps : List Published) (c : Controls) :
    (ps.foldl (fun c p => c.retire p.handle) c).nextHandle = c.nextHandle := by
  induction ps generalizing c with
  | nil => rfl
  | cons p ps ih => exact ih _

theorem published_retireEach {rest : List Published} :
    ∀ {c : Controls}, Governs Q ((ps ++ rest).map Published.handle) c →
      c.published = (ps ++ rest).reverse →
      (ps.foldl (fun c p => c.retire p.handle) c).published = rest.reverse := by
  induction ps with
  | nil => exact fun _ h => h
  | cons p ps ih =>
    intro c hg h
    exact ih hg.retire (published_retire hg h)

end Controls

namespace Fiber

variable {engine : Engine γ} {now : Moment} {game : γ} {f f' : Fiber} {name : String}
  {r : γ × Fiber}

/-- What is listed is published, and all else is over. -/
structure Listed (name : String) (f : Fiber) : Prop where
  published : f.controls.published = (f.listing name).reverse
  others : ∀ h < f.controls.nextHandle, h ∉ (f.listing name).map Published.handle →
    f.controls.Over h

theorem Listed.shift (hg : f.Grounded name) (hl : f.Listed name) (hne : f.stack ≠ [])
    (h : f.Shift f') : f'.Listed name := by
  cases (h.relisted hg).1 with
  | @pushes child hlist hc =>
    constructor
    · rw [hc, hlist, List.reverse_cons]
      change f.controls.published ++ _ = _
      rw [hl.published]
    · intro k hk hmem
      rw [hc] at hk ⊢
      rw [hlist] at hmem
      simp only [List.map_cons, List.mem_cons, not_or] at hmem
      have hlt : k < f.controls.nextHandle :=
        Nat.lt_of_le_of_ne (Nat.le_of_lt_succ hk) hmem.1
      exact (hl.others k hlt hmem.2).enter hlt child
  | @pops inv g popped htuned _ hlist hc =>
    have hgoverns := hg.popped hne htuned hlist
    constructor
    · rw [hc]
      apply Controls.published_retireEach hgoverns
      rw [htuned.tuned.published, hl.published, hlist]
    · intro k hk hmem
      rw [hc, Controls.nextHandle_retireEach, htuned.tuned.nextHandle] at hk
      rw [hc]
      apply Controls.over_retireEach
      by_cases hpopped : k ∈ popped.map Published.handle
      · exact .inl hpopped
      · refine .inr ((hl.others k hk ?_).tuned htuned.tuned)
        rw [hlist, List.map_append, List.mem_append, not_or]
        exact ⟨hpopped, hmem⟩

theorem Listed.tuned {P : Handle → Prop} {c : Controls} (hl : f.Listed name)
    (ht : Controls.Tuned P f.controls c) : ({ f with controls := c }).Listed name := by
  constructor
  · exact ht.published.trans hl.published
  · intro k hk hmem
    change k < c.nextHandle at hk
    rw [ht.nextHandle] at hk
    exact (hl.others k hk hmem).tuned ht

theorem Listed.innermost {inv : Invocation} {below : List Invocation} (hl : f.Listed name)
    (hg : f.Grounded name) (hs : f.stack = inv :: below) : f.controls.innermost = inv.control := by
  have hbottom := hg.bottom (by simp [hs])
  rw [Controls.innermost, hl.published, ← hbottom, hs, List.getLast?_reverse]
  rfl

end Fiber

namespace Run

variable {engine : Engine γ} {now : Moment} {game game' : γ} {r r' : Run}

/-- The listing of a run; once it is over, its outermost invocation is stopped too. -/
structure Listed (r : Run) : Prop where
  fiber : r.fiber.Listed r.name
  outcome : r.outcome.isSome → (r.fiber.controls.lifecycle Controls.root).Halted

theorem listed_fresh (h : r.Fresh) : r.Listed := by
  have hstart : ∀ (f : Fiber) name, f.controls = .start name →
      f.listing name = [⟨name, Controls.root⟩] → f.Listed name := by
    intro f name hc hl
    constructor
    · rw [hc, hl]
      rfl
    · intro k hk hmem
      rw [hc] at hk
      rw [hl] at hmem
      obtain rfl : k = Controls.root := Nat.lt_one_iff.mp hk
      exact absurd (List.mem_singleton_self _) hmem
  cases h with
  | routine name routine => exact ⟨hstart _ name rfl rfl, fun ho => nomatch ho⟩
  | dialogue name dialogue => exact ⟨hstart _ name rfl rfl, fun ho => nomatch ho⟩

theorem Listed.work (hr : r.Orderly) (hl : r.Listed) (ho : r.outcome = none)
    (h : r.Work engine now game (game', r')) : r'.Listed := by
  have hrunning : ¬ r.outcome.isSome := by simp [ho]
  have hroot : r.fiber.controls.Live Controls.root :=
    hr.grounded.governs.live _ (by simp [Fiber.listing])
  cases h with
  | finishes result hempty =>
    constructor
    · exact hl.fiber.tuned (Controls.tuned_set (P := fun _ => True) trivial _)
    · intro _
      change ((r.fiber.controls.set Controls.root _).lifecycle Controls.root).Halted
      rw [Controls.lifecycle_set_self hroot]
      exact Controls.halted_finish _
  | plays hf =>
    have hsmall := Fiber.smallStep_of_step? hf
    have hlisted := hl.fiber.shift hr.grounded hsmall.stacked (Fiber.shift_of_step hsmall)
    exact ⟨hlisted, fun hout => absurd hout hrunning⟩
  | talks => exact ⟨⟨hl.fiber.published, hl.fiber.others⟩, hl.outcome⟩
  | loads step _ _ hempty =>
    have hlisting : (r.fiber.load (.begin r.name ⟨[step]⟩ Controls.root)).listing r.name =
        r.fiber.listing r.name := by
      simp [Fiber.listing, Fiber.load, hempty]
    refine ⟨⟨?_, ?_⟩, fun hout => absurd hout hrunning⟩
    · rw [hlisting]
      exact hl.fiber.published
    · rw [hlisting]
      exact hl.fiber.others

end Run

namespace Snapshot

variable {engine : Engine γ} {asks : Controls.Wish → Prop} {s : Snapshot γ} {now : Moment}
  {game : γ} {run : Run}

theorem listed_moves (hrun : run.Fresh) (h : Moves engine asks ⟨now, game, run⟩ s) :
    s.run.Listed := by
  induction h with
  | refl => exact Run.listed_fresh hrun
  | tail hmoves hmove ih =>
    have horderly := orderly_moves (Run.orderly_fresh hrun) hmoves
    cases hmove with
    | lapse => exact ih
    | @wish w =>
      have hroot : Controls.root < _ := horderly.grounded.governs.given _ (by simp [Fiber.listing])
      refine ⟨ih.fiber.tuned (Controls.tuned_grant _ w), fun ho => ?_⟩
      exact Controls.holds_grant (fun _ hl => hl.apply _) hroot (ih.outcome ho)
    | work hstep =>
      obtain ⟨ho, hwork⟩ := horderly.work hstep
      exact ih.work horderly ho hwork

/-- While a run waits, what is published is its stack, in which each invocation is on the step that
runs the next one; when it is over, only its outermost invocation is published. Whatever is not on
the stack is stopped. -/
theorem listing_mirrors (hrun : run.Fresh)
    (h : Moves engine (fun _ => True) ⟨now, game, run⟩ s) :
    (s.run.fiber.Waits →
      s.run.fiber.controls.published =
        (s.run.fiber.stack.map fun inv => ⟨inv.name, inv.control⟩).reverse ∧
      (s.run.fiber.stack.IsChain fun child parent => ∃ step,
        parent.routine.get? parent.cursor = some step ∧ step.command = .runMacro child.name ∧
        parent.resumeWait = some (step.modifiers.wait.getD .zero)) ∧
      ∀ h < s.run.fiber.controls.nextHandle, h ∉ s.run.fiber.stack.map Invocation.control →
        h ∉ s.run.fiber.controls.published.map Published.handle ∧
        s.run.fiber.controls.state h = .stopped) ∧
    (s.run.outcome.isSome →
      s.run.fiber.controls.published = [⟨s.run.name, Controls.root⟩] ∧
      ∀ h < s.run.fiber.controls.nextHandle, s.run.fiber.controls.state h = .stopped) := by
  have horderly := orderly_moves (Run.orderly_fresh hrun) h
  have hcalled := (nested_moves hrun h).called
  obtain ⟨⟨hpublished, hothers⟩, houtcome⟩ := listed_moves hrun h
  have hgrounded := horderly.grounded
  constructor
  · intro hwaits
    have hne : s.run.fiber.stack ≠ [] := by
      intro hempty
      obtain ⟨result, he⟩ := hgrounded.emptied.mpr hempty
      rcases hwaits with hp | ⟨_, _, _, hp⟩ <;> (rw [hp] at he; cases he)
    have hlisting := hgrounded.bottom hne
    have hhandles : s.run.fiber.stack.map Invocation.control =
        (s.run.fiber.listing s.run.name).map Published.handle := hgrounded.handles hne
    refine ⟨by rw [hpublished, ← hlisting]; rfl, hcalled.calls.imp ?_, ?_⟩
    · rintro child parent ⟨step, hget, hcommand, hwait, _⟩
      exact ⟨step, hget, hcommand, hwait⟩
    · intro k hk hmem
      rw [hhandles] at hmem
      refine ⟨?_, (hothers k hk hmem).2⟩
      rw [hpublished, List.map_reverse, List.mem_reverse]
      exact hmem
  · intro ho
    have hlisting : s.run.fiber.listing s.run.name = [⟨s.run.name, Controls.root⟩] := by
      simp [Fiber.listing, horderly.finished ho]
    rw [hlisting] at hpublished hothers
    refine ⟨hpublished, fun k hk => ?_⟩
    by_cases hroot : k = Controls.root
    · rw [hroot]
      exact houtcome ho
    · exact (hothers k hk (by simpa using hroot)).2

def drunk : Snapshot Unit := steeped.after (.still cupboard) 150

theorem listing_mirrors_steeping :
    steeped.run.fiber.controls.published = [⟨"m", 0⟩, ⟨"steep", 1⟩] ∧
    (steeped.run.fiber.stack.IsChain fun child parent => ∃ step,
      parent.routine.get? parent.cursor = some step ∧ step.command = .runMacro child.name ∧
      parent.resumeWait = some (step.modifiers.wait.getD .zero)) ∧
    drunk.run.outcome.isSome ∧ drunk.run.fiber.controls.published = [⟨"m", 0⟩] ∧
    drunk.run.fiber.controls.state 1 = .stopped := by
  have hsteeped : Moves (.still cupboard) (fun _ => True) (start 0 () "m" steeping) steeped :=
    moves_after (start 0 () "m" steeping) 12
  have hdrunk : Moves (.still cupboard) (fun _ => True) steeped drunk := moves_after steeped 150
  have hover : drunk.run.outcome.isSome := by decide +kernel
  obtain ⟨hwaiting, _⟩ := listing_mirrors (.routine "m" steeping) hsteeped
  obtain ⟨_, hended⟩ := listing_mirrors (.routine "m" steeping) (hsteeped.trans hdrunk)
  obtain ⟨hpublished, hchain, _⟩ := hwaiting (by decide +kernel)
  obtain ⟨hroot, hstopped⟩ := hended hover
  refine ⟨hpublished.trans (by decide +kernel), hchain, hover, hroot.trans (by decide +kernel), ?_⟩
  exact hstopped 1 (by decide +kernel)

end Snapshot
end MacroEngine
