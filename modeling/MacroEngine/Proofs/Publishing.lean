import MacroEngine.Proofs.Histories

/-! The published invocations are those of the stack, in the opposite order, for as long as the
stack is not done. So a request that goes to every published invocation reaches all that is under
way. -/
namespace MacroEngine

def Invocation.publication (inv : Invocation) : Published := ⟨inv.name, inv.control⟩

namespace Controls

theorem published_grant (c : Controls) (w : Wish) : (c.grant w).2.published = c.published :=
  (tuned_grant c w).published

/-- The innermost invocation is the last one published, and its handle is its own. -/
theorem published_retire {Q : Lifecycle → Prop} {c : Controls} {p : Published}
    {ps : List Published} (hg : Governs Q ((p :: ps).map Published.handle) c)
    (h : c.published = (p :: ps).reverse) : (c.retire p.handle).published = ps.reverse := by
  have hd := List.pairwise_cons.mp hg.descending
  have hkeep : ∀ lower ∈ ps.reverse, decide (lower.handle ≠ p.handle) = true := by
    intro lower hl
    have hlt := hd.1 lower.handle (List.mem_map_of_mem (List.mem_reverse.mp hl))
    exact decide_eq_true (Nat.ne_of_lt hlt)
  change (c.published.filter fun lower => lower.handle ≠ p.handle) = _
  rw [h, List.reverse_cons, List.filter_append, List.filter_eq_self.mpr hkeep]
  simp

end Controls

namespace Fiber

variable {engine : Engine γ} {now : Moment} {game : γ} {f : Fiber} {inv : Invocation}
  {below : List Invocation} {Q : Lifecycle → Prop}

def Mirrored (f : Fiber) : Prop :=
  f.controls.published = (f.stack.map Invocation.publication).reverse

def Shown (f : Fiber) : Prop := (∃ result, f.phase = .ended result) ∨ f.stack ≠ [] ∧ f.Mirrored

theorem mirrored_cons (h : f.Mirrored) (hs : f.stack = inv :: below) :
    f.controls.published = (below.map Invocation.publication).reverse ++ [inv.publication] := by
  rw [h, hs]
  simp

theorem shown_leave (hg : f.Governed Q)
    (hh : f.handles = inv.control :: below.map Invocation.control)
    (h : f.controls.published =
      (below.map Invocation.publication).reverse ++ [inv.publication])
    (stopped : Bool) : (f.leave inv below stopped).Shown := by
  cases below with
  | nil => exact .inl ⟨_, rfl⟩
  | cons parent rest =>
    have hhandles : f.handles =
        ((inv :: parent :: rest).map Invocation.publication).map Published.handle := by
      rw [hh, List.map_map]
      rfl
    unfold Governed at hg
    rw [hhandles] at hg
    exact .inr ⟨List.cons_ne_nil _ _,
      Controls.published_retire hg (h.trans (List.reverse_cons ..).symm)⟩

theorem shown_advance (h : f.controls.published =
      (below.map Invocation.publication).reverse ++ [inv.publication])
    (now : Moment) (target : Nat) : (f.advance now inv below target).Shown := by
  refine .inr ⟨List.cons_ne_nil _ _, ?_⟩
  change f.controls.published = _
  rw [h]
  simp [advance, Invocation.publication]

theorem shown_finishSteps (hg : f.Governed Q) (hm : f.Mirrored) (hs : f.stack = inv :: below)
    (client : Client γ) (now : Moment) (game : γ) :
    (finishSteps client now game f inv below).2.Shown := by
  have hh : f.handles = inv.control :: below.map Invocation.control := by simp [handles, hs]
  have hpub := mirrored_cons hm hs
  cases hcross : Frames.crossEnd inv.frames with
  | none =>
    rw [finishSteps_none client hcross]
    exact shown_leave hg hh hpub false
  | some crossing =>
    rw [finishSteps_some client hcross]
    have hg' : (f.withScene inv below ((f.scene inv game).cross client now crossing)).Governed
        fun _ => True :=
      governed_withScene ⟨hg.descending, hg.given, hg.live, fun _ _ => trivial⟩ hs trivial
    dsimp only
    split
    · refine .inr ⟨List.cons_ne_nil _ _, ?_⟩
      change f.controls.published = _
      rw [hpub]
      simp [Invocation.publication]
    · exact shown_leave hg' rfl hpub false

theorem shown_conclude (hg : f.Governed Q) (hm : f.Mirrored) (hs : f.stack = inv :: below)
    (engine : Engine γ) (now : Moment) (game : γ) (ending : Course.End Flow) :
    (conclude engine now game f inv below ending).2.Shown := by
  have hh : f.handles = inv.control :: below.map Invocation.control := by simp [handles, hs]
  have hpub := mirrored_cons hm hs
  cases ending with
  | value flow =>
    cases flow with
    | next | jump => exact shown_advance hpub now _
    | finish =>
      have hc : (f.complete now inv).Governed Q := by
        simpa only [Governed, handles, complete_stack, complete_controls] using hg
      refine shown_leave hc ?_ ?_ false
      · simpa only [handles, complete_stack] using hh
      · rwa [complete_controls]
    | enter name routine wait =>
      refine .inr ⟨List.cons_ne_nil _ _, ?_⟩
      change f.controls.published ++ [⟨name, f.controls.nextHandle⟩] = _
      rw [hpub]
      simp [conclude, enter, Invocation.begin, Invocation.publication]
  | interrupted => exact shown_leave hg hh hpub true
  | failure site error =>
    change (handleFailure engine.client engine.rules.config now game f inv below site
      error).2.Shown
    unfold handleFailure
    split
    · dsimp only
      split
      · exact .inl ⟨_, rfl⟩
      · exact shown_advance (f := f.withScene inv below _) hpub now _
    · exact .inl ⟨_, rfl⟩

/-- Each small step publishes what it puts on the stack, and nothing else. -/
theorem shown_step {r : γ × Fiber} (hg : f.Governed Q) (hf : f.Shown)
    (h : SmallStep engine now game f r) : r.2.Shown := by
  have hm : ∀ inv below, f.stack = inv :: below → (∀ result, f.phase ≠ .ended result) →
      f.Mirrored := by
    intro inv below hs hp
    rcases hf with ⟨result, he⟩ | ⟨_, hm⟩
    · exact absurd he (hp result)
    · exact hm
  cases h with
  | @halted inv below hs hp =>
    have hh : f.handles = inv.control :: below.map Invocation.control := by simp [handles, hs]
    exact shown_leave hg hh (mirrored_cons (hm _ _ hs (by simp [hp])) hs) true
  | finished hs hp => exact shown_finishSteps hg (hm _ _ hs (by simp [hp])) hs _ _ _
  | begun hs hp =>
    exact .inr ⟨by rw [hs]; exact List.cons_ne_nil _ _, hm _ _ hs (by simp [hp])⟩
  | moved hs hp =>
    refine .inr ⟨List.cons_ne_nil _ _, ?_⟩
    change f.controls.published = _
    rw [mirrored_cons (hm _ _ hs (by simp [hp])) hs]
    simp [withScene, Invocation.publication]
  | concluded hs hp => exact shown_conclude hg (hm _ _ hs (by simp [hp])) hs _ _ _ _

end Fiber

namespace Snapshot

variable {engine : Engine γ} {asks : Controls.Wish → Prop} {s s' : Snapshot γ}
  {Q : Lifecycle → Prop}

theorem shown_start (now : Moment) (game : γ) (name : String) (routine : Routine) :
    (start now game name routine).run.fiber.Shown :=
  .inr ⟨List.cons_ne_nil _ _, rfl⟩

theorem shown_move (hn : s.Native) (hg : s.Governed Q) (hs : s.run.fiber.Shown)
    (h : Move engine asks s s') : s'.run.fiber.Shown := by
  cases h with
  | lapse => exact hs
  | @wish w =>
    rcases hs with hended | ⟨hne, hm⟩
    · exact .inl hended
    · exact .inr ⟨hne, (Controls.published_grant _ w).trans hm⟩
  | work hstep =>
    obtain ⟨ho, ⟨result, hr, _, rfl⟩ | ⟨f, _, hf, rfl⟩⟩ := Run.step?_native hn hstep
    · rcases hs with hended | hshown
      · exact .inl hended
      · exact .inr hshown
    · exact Fiber.shown_step (hg ho) hs (Fiber.smallStep_of_step? hf)

end Snapshot
end MacroEngine
