import MacroEngine.Proofs.Passage

/-! Stretches of a passage, which are put together one after another. -/
namespace MacroEngine
namespace Passage

variable {config : Config} {routine : Routine} {a b : Nat × List Frame}
  {c : Option (Nat × List Frame)} {xs ys : List Step} {k l index : Nat} {frames : List Frame}

/-- Wherever it stands at `a`, a passage goes on with these steps and so many crossings. -/
def Walks (config : Config) (routine : Routine) (a : Nat × List Frame) (steps : List Step)
    (crossed : Nat) (c : Option (Nat × List Frame)) : Prop :=
  ∀ trail n, ∃ m more, (next config routine)^[m] ⟨trail, n, some a⟩ =
    ⟨trail ++ more, n + crossed, c⟩ ∧ stepsAt routine more = steps ∧ more.length = steps.length

theorem Walks.refl (a : Nat × List Frame) : Walks config routine a [] 0 (some a) :=
  fun _ _ => ⟨0, [], by simp, rfl, rfl⟩

theorem Walks.trans (h : Walks config routine a xs k (some b))
    (h' : Walks config routine b ys l c) :
    Walks config routine a (xs ++ ys) (k + l) c := by
  intro trail n
  obtain ⟨m, more, hrun, hsteps, hlen⟩ := h trail n
  obtain ⟨m', more', hrun', hsteps', hlen'⟩ := h' (trail ++ more) (n + k)
  refine ⟨m' + m, more ++ more', ?_, ?_, ?_⟩
  · rw [Function.iterate_add_apply, hrun, hrun', List.append_assoc, Nat.add_assoc]
  · rw [stepsAt_append, hsteps, hsteps']
  · simp [hlen, hlen']

theorem Walks.of_eq (h : Walks config routine a xs k c) (hx : xs = ys) (hk : k = l) :
    Walks config routine a ys l c :=
  hx ▸ hk ▸ h

theorem Walks.step {step : Step} (hget : routine.get? index = some step) {t : Transit}
    (ht : step.transit config index frames = t) :
    Walks config routine (index, frames) [step] t.crossed
      ((target index t.flow).map fun i => (i, t.frames)) := by
  intro trail n
  refine ⟨1, [index], ?_, by simp [stepsAt, hget], rfl⟩
  rw [Function.iterate_one, next_step rfl hget, ht]

/-- The end of the steps, with a loop around them. -/
theorem Walks.crossing {crossing : Crossing} (hget : routine.get? index = none)
    (hcross : Frames.crossEnd frames = some crossing) :
    Walks config routine (index, frames) [] 1
      (if crossing.again then some (0, crossing.frames) else none) := by
  intro trail n
  refine ⟨1, [], ?_, rfl, rfl⟩
  rw [Function.iterate_one, next_crossEnd rfl hget hcross, List.append_nil]

theorem Walks.ended (hget : routine.get? index = none) (hcross : Frames.crossEnd frames = none) :
    Walks config routine (index, frames) [] 0 none := by
  intro trail n
  refine ⟨1, [], ?_, rfl, rfl⟩
  rw [Function.iterate_one, next_end rfl hget hcross, List.append_nil]
  rfl

/-- Steps that neither loop nor gate, one after another. -/
theorem Walks.plain (config : Config) {before steps after : List Step}
    (hr : routine.steps = before ++ steps ++ after)
    (hplain : ∀ step ∈ steps, step.command.isBoundary = false) (frames : List Frame) :
    Walks config routine (before.length, frames) steps 0
      (some ((before ++ steps).length, frames)) := by
  induction steps generalizing before with
  | nil => simpa using (Walks.refl (before.length, frames) : Walks config routine _ _ _ _)
  | cons step steps ih =>
    have hget : routine.get? before.length = some step := by
      simp [Routine.get?, hr]
    have hstep := Walks.step hget
      (Step.transit_of_not_boundary (hplain step List.mem_cons_self) config _ frames)
    have hsteps : routine.steps = before ++ [step] ++ steps ++ after := by simp [hr]
    have hrest := ih hsteps fun s hm => hplain s (List.mem_cons_of_mem _ hm)
    have hlen : (before ++ [step]).length = before.length + 1 := by simp
    rw [hlen] at hrest
    simpa using hstep.trans hrest

theorem Walks.whole (h : Walks config routine (0, []) xs k none) :
    ∃ m, stepsAt routine (after config routine m).trail = xs ∧
      (after config routine m).trail.length = xs.length ∧
      (after config routine m).crossings = k ∧ (after config routine m).spot = none := by
  obtain ⟨m, more, hrun, hsteps, hlen⟩ := h [] 0
  have hafter : after config routine m = ⟨more, k, none⟩ := by
    simpa [after, start] using hrun
  exact ⟨m, by rw [hafter]; exact hsteps, by rw [hafter]; exact hlen, by rw [hafter],
    by rw [hafter]⟩

end Passage
end MacroEngine
