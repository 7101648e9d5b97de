import MacroEngine.Proofs.Conduct

/-! What a step of the innermost invocation does to the others: it completes nothing under their
names and leaves their lifecycles alone. Its own goes on as it was, if it runs freely. -/
namespace MacroEngine
namespace Fiber

variable {engine : Engine γ} {now : Moment} {game : γ} {f g : Fiber} {r : γ × Fiber}
  {inv : Invocation} {below : List Invocation} {name : String} {h : Handle}

theorem journal_leave (f : Fiber) (inv : Invocation) (below : List Invocation) (stopped : Bool) :
    (f.leave inv below stopped).journal = f.journal := by
  cases below <;> rfl

theorem completedSteps_complete_of_ne (f : Fiber) (now : Moment) (hne : inv.name ≠ name) :
    completedSteps name (f.complete now inv).journal = completedSteps name f.journal := by
  cases hget : inv.routine.get? inv.cursor with
  | none => simp [complete, hget]
  | some step => rw [completedSteps_complete f now hget, if_neg hne, List.append_nil]

theorem completedSteps_step (hs : f.stack = inv :: below) (hne : inv.name ≠ name)
    (h : SmallStep engine now game f r) :
    completedSteps name r.2.journal = completedSteps name f.journal := by
  have hcomplete := completedSteps_complete_of_ne f now hne
  cases h with
  | halted =>
    rw [journal_leave]
  | @finished inv' =>
    refine finishSteps_cases (P := fun f' => completedSteps name f'.journal =
      completedSteps name f.journal) engine.client
      (fun _ => congrArg _ (journal_leave _ _ _ _)) fun crossing _ => ?_
    have hcrossed := completedSteps_cross name engine.client now (f.scene inv' game) crossing
    refine ⟨fun _ => hcrossed, fun _ => ?_⟩
    rw [journal_leave]
    exact hcrossed
  | begun => rfl
  | moved _ _ hc => exact Course.completedSteps_step? name hc
  | @concluded inv' below' c ending hs' =>
    cases hs.symm.trans hs'
    match ending with
    | .value .next | .value (.jump _) => exact hcomplete
    | .value (.enter ..) => rfl
    | .value .finish => exact (congrArg _ (journal_leave _ _ _ _)).trans hcomplete
    | .interrupted => exact congrArg _ (journal_leave _ _ _ _)
    | .failure site error =>
      have hnotify : completedSteps name ((now, .notified error.message) :: f.journal) =
          completedSteps name f.journal := by
        rw [completedSteps_cons]
        simp [Event.completedBy]
      exact handleFailure_cases (P := fun f' => completedSteps name f'.journal =
        completedSteps name f.journal) engine.client engine.rules.config
        (fun _ => ⟨(completedSteps_complete_of_ne _ now hne).trans hnotify, hnotify⟩) rfl

theorem length_leave (f : Fiber) (inv : Invocation) (below : List Invocation) (stopped : Bool) :
    (f.leave inv below stopped).stack.length = below.length := by
  cases below <;> rfl

def FreeAt (height : Nat) (h : Handle) (f : Fiber) : Prop :=
  f.stack.length = height → f.controls.lifecycle h = .started

theorem freeAt_leave (f : Fiber) (inv : Invocation) (below : List Invocation) (stopped : Bool) :
    (f.leave inv below stopped).FreeAt (below.length + 1) h := by
  intro hlen
  rw [length_leave] at hlen
  omega

theorem freeAt_abort (f : Fiber) (error : RunError) (height : Nat) :
    (f.abort error).FreeAt (height + 1) h := by
  intro hlen
  cases hlen

theorem started_step (hg : f.Governed Lifecycle.Awake) (hs : f.stack = inv :: below)
    (hl : f.controls.lifecycle inv.control = .started) (hu : ¬ f.Trips)
    (h : SmallStep engine now game f r) : r.2.FreeAt (below.length + 1) inv.control := by
  have hlive : f.controls.Live inv.control := hg.live _ (mem_handles hs)
  have hset : ∀ {l}, l = .started → (f.controls.set inv.control l).lifecycle inv.control = .started :=
    fun hl => (Controls.lifecycle_set_self hlive).trans hl
  have hafter : (f.controls.lifecycle inv.control).afterStep = .started := by
    rw [hl]
    rfl
  cases h with
  | halted hs' =>
    cases hs.symm.trans hs'
    exact freeAt_leave _ _ _ _
  | begun => exact fun _ => hl
  | finished hs' =>
    cases hs.symm.trans hs'
    refine finishSteps_cases engine.client (fun _ => freeAt_leave _ _ _ _) fun crossing _ =>
      ⟨fun _ _ => hset ?_, fun _ => freeAt_leave _ _ _ _⟩
    rw [cross_control]
    change (f.controls.lifecycle inv.control).apply .loopBoundary = _
    rw [hl]
    rfl
  | moved hs' hp hc =>
    cases hs.symm.trans hs'
    have hrunning : (f.scene inv game).control.state = .running := by
      change (f.controls.lifecycle inv.control).state = _
      rw [hl]
      rfl
    refine fun _ => hset ((Course.running_step? hrunning (fun reason next he => ?_) hc).trans hl)
    exact hu ⟨reason, next, he ▸ hp⟩
  | @concluded _ _ _ ending hs' =>
    cases hs.symm.trans hs'
    match ending with
    | .value .next | .value (.jump _) => exact fun _ => hset hafter
    | .value (.enter ..) =>
      intro hlen
      simp [conclude, enter] at hlen
    | .value .finish | .interrupted => exact freeAt_leave _ _ _ _
    | .failure site error =>
      refine handleFailure_cases engine.client engine.rules.config
        (fun _ => ⟨fun _ => ?_, freeAt_abort _ error _⟩) (freeAt_abort f error _)
      have hsame : (f.controls.set inv.control (f.controls.lifecycle inv.control)).lifecycle
          inv.control = f.controls.lifecycle inv.control := Controls.lifecycle_set_self hlive
      refine (Controls.lifecycle_set_self (Controls.live_set.mpr hlive)).trans ?_
      exact (congrArg Lifecycle.afterStep hsame).trans hafter

theorem below_given {Q : Lifecycle → Prop} {other : Invocation} (hg : f.Governed Q)
    (hs : f.stack = inv :: below) (hm : other ∈ below) :
    other.control ≠ inv.control ∧ other.control < f.controls.nextHandle := by
  have hhandles : f.handles = inv.control :: below.map Invocation.control := by simp [handles, hs]
  have hmem : other.control ∈ below.map Invocation.control := List.mem_map_of_mem hm
  have hdescending := hg.descending
  have hgiven := hg.given other.control
  rw [hhandles] at hdescending hgiven
  exact ⟨Nat.ne_of_lt ((List.pairwise_cons.mp hdescending).1 _ hmem), hgiven (.tail _ hmem)⟩

/-- A step leaves the lifecycles of the other invocations as they were, unless all are ended. -/
theorem others_step (hs : f.stack = inv :: below) (hne : h ≠ inv.control)
    (hgiven : h < f.controls.nextHandle) (hstep : SmallStep engine now game f r) :
    r.2.controls.lifecycle h = f.controls.lifecycle h ∨ ∃ error, r.2.phase = .ended (.error error) := by
  have htuned : ∀ {g : Fiber}, f.Retuned inv g → g.controls.lifecycle h = f.controls.lifecycle h :=
    fun hr => hr.tuned.kept h fun hk => hne hk.1
  cases shift_of_step hstep with
  | stays _ _ hs' _ _ hr =>
    cases hs.symm.trans hs'
    exact .inl (htuned hr)
  | enters _ _ _ he =>
    rw [he]
    exact .inl (Controls.lifecycle_enter_of_ne (Nat.ne_of_lt hgiven))
  | @leaves _ below' g _ hs' hr he =>
    cases hs.symm.trans hs'
    have hsame := htuned hr
    rw [he]
    cases below with
    | nil => exact .inl hsame
    | cons parent rest => exact .inl ((Controls.lifecycle_retire_of_ne hne).trans hsame)
  | aborts _ _ he =>
    rw [he]
    exact .inr ⟨_, rfl⟩

end Fiber
end MacroEngine
