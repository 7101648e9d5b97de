import MacroEngine.Proofs.Likeness
import MacroEngine.Proofs.LineReading
import MacroEngine.Proofs.Stages
import MacroEngine.Run.Bridge

/-! Scripts that yield some lines in order, and macros that consist of the same lines. -/
namespace MacroEngine
open Text

namespace Dialogue

/-- It ends with this error, and yields nothing before. -/
inductive GivesUp (error : RunError) : Dialogue → Prop where
  | ended : GivesUp error (.ended (some error))
  | noted {event next} : event.isCommand = false → GivesUp error (next ()) →
      GivesUp error (.noted event next)
  | asked {query next} : (∀ view : View, GivesUp error (next (view.answer query))) →
      GivesUp error (.asked query next)
  | idle {next} : GivesUp error (next ()) → GivesUp error (.idle next)

/-- It yields these lines in order and then ends, whatever it is told of the game; when a line
fails, it ends with the error. -/
inductive Recites : List String → Dialogue → Prop where
  | ended : Recites [] (.ended none)
  | yielded {line lines next} : Recites lines (next none) →
      (∀ error, (next (some error)).GivesUp error) → Recites (line :: lines) (.yielded line next)
  | noted {lines event next} : event.isCommand = false → Recites lines (next ()) →
      Recites lines (.noted event next)
  | asked {lines query next} : (∀ view : View, Recites lines (next (view.answer query))) →
      Recites lines (.asked query next)
  | idle {lines next} : Recites lines (next ()) → Recites lines (.idle next)

theorem recites_ofLines (lines : List String) : (ofLines false lines).Recites lines := by
  induction lines with
  | nil => exact .ended
  | cons line lines ih => exact .yielded (.noted rfl ih) fun _ => .noted rfl .ended

end Dialogue

/-- The steps of a macro, and lines that hold the same steps when they are yielded. Blank lines
hold none. -/
inductive Spells : List Step → List String → Prop where
  | nil : Spells [] []
  | blank {line steps lines} : Bridge.readLine line = .error none → Spells steps lines →
      Spells steps (line :: lines)
  | step {line step step' steps lines} : Bridge.readLine line = .ok step' →
      step.AsYielded step' → Spells steps lines → Spells (step :: steps) (line :: lines)

/-- What a script yields neither loops nor gates. -/
theorem Bridge.readLine_plain {line : String} {step : Step} (h : Bridge.readLine line = .ok step) :
    step.command.isBoundary = false := by
  unfold Bridge.readLine at h
  split at h
  · cases h
  · cases h
  · split at h
    · cases h
    · rename_i hplain
      cases h
      simpa using hplain

theorem Step.AsYielded.command {step step' : Step} (h : step.AsYielded step') :
    step'.command = step.command := by
  rcases h with rfl | rfl <;> rfl

structure Yieldable (lines : List String) : Prop where
  reads : ∀ line ∈ lines, ∃ step?, Step.read line = .ok step?
  plain : ∀ line ∈ lines, ∀ step, Step.read line = .ok (some step) →
    step.command.isBoundary = false
  oneLine : ∀ line ∈ lines, OneLine line.toList

theorem Yieldable.tail {line : String} {lines : List String} (h : Yieldable (line :: lines)) :
    Yieldable lines :=
  ⟨fun l hl => h.reads l (List.mem_cons_of_mem _ hl),
    fun l hl => h.plain l (List.mem_cons_of_mem _ hl),
    fun l hl => h.oneLine l (List.mem_cons_of_mem _ hl)⟩

/-- Wherever it stands, a line is read as it is when it is yielded. -/
theorem readLine_yielded {line : String} {step? : Option Step} (h : Step.read line = .ok step?)
    (n : Nat) : readLine (n + 1) line.toList = .ok (step?.map (Step.later n)) := by
  have hlater := readLine_later 1 n line.toList
  rw [Nat.add_comm, hlater]
  have hread : readLine 1 line.toList = .ok step? := h
  rw [hread]
  rfl

theorem asYielded_later {step : Step} (h : step.line = 1) (n : Nat) :
    (step.later n).AsYielded step := by
  refine .inr ?_
  obtain ⟨line, command, rawArgs, modifiers⟩ := step
  subst h
  rfl

theorem Yieldable.spells {lines : List String} (h : Yieldable lines) (n : Nat) : ∃ steps,
    readLines (numbered (n + 1) (lines.map String.toList)) = .ok steps ∧ Spells steps lines := by
  induction lines generalizing n with
  | nil => exact ⟨[], rfl, .nil⟩
  | cons line lines ih =>
    obtain ⟨steps, hsteps, hspells⟩ := ih h.tail (n + 1)
    obtain ⟨step?, hread⟩ := h.reads line List.mem_cons_self
    have hline := readLine_yielded hread n
    refine ⟨(step?.map (Step.later n)).toList ++ steps, ?_, ?_⟩
    · rw [List.map_cons, numbered, readLines, hline, hsteps]
      rfl
    · cases step? with
      | none => exact .blank (by simp [Bridge.readLine, hread]) hspells
      | some step =>
        have hplain := h.plain line List.mem_cons_self step hread
        exact .step (by simp [Bridge.readLine, hread, hplain])
          (asYielded_later (readLine_line hread) n) hspells

/-- A text is read as the lines that it was put together from; an empty last line is lost, and
holds nothing. -/
theorem readLines_unlines {ls : List (List Char)} (h : ∀ l ∈ ls, OneLine l) (n : Nat) :
    readLines (numbered n (lines (unlines ls))) = readLines (numbered n ls) := by
  rcases List.eq_nil_or_concat ls with rfl | ⟨before, last, rfl⟩
  · rfl
  · have hbefore : ∀ l ∈ before, OneLine l := fun l hl => h l (by simp [hl])
    rw [List.concat_eq_append, lines_unlines_append hbefore (by simp)]
    by_cases hlast : last = []
    · subst hlast
      have hblank : lines (unlines [[]]) = [] := rfl
      rw [hblank, List.append_nil, numbered_append, readLines_append]
      cases readLines (numbered n before) with
      | error e => rfl
      | ok steps => exact congrArg Except.ok (List.append_nil steps).symm
    · rw [lines_single (h last (by simp)) hlast]

/-- Lines that a script can yield make up a macro. -/
theorem Yieldable.read {lines : List String} (h : Yieldable lines) : ∃ routine,
    Routine.read (unlines (lines.map String.toList)) = .ok routine ∧
      Spells routine.steps lines := by
  obtain ⟨steps, hsteps, hspells⟩ := h.spells 0
  have hone : ∀ l ∈ lines.map String.toList, OneLine l := by
    intro l hl
    obtain ⟨line, hm, rfl⟩ := List.mem_map.mp hl
    exact h.oneLine line hm
  refine ⟨⟨steps⟩, ?_, hspells⟩
  rw [Routine.read, readLines_unlines hone, hsteps]
  rfl

/-- Without tabs, and without a byte order mark in front, a library holds the lines as they are. -/
theorem Yieldable.ofSource {lines : List String} (h : Yieldable lines)
    (htab : ∀ line ∈ lines, '\t' ∉ line.toList)
    (hmark : ∀ line ∈ lines.head?, line.toList.head? ≠ some '\ufeff') :
    Routine.ofSource (String.ofList (unlines (lines.map String.toList))) =
      Routine.read (unlines (lines.map String.toList)) := by
  have heven : ∀ c ∈ unlines (lines.map String.toList), c ≠ '\r' ∧ c ≠ '\t' := by
    intro c hc
    rcases mem_unlines hc with rfl | ⟨l, hl, hc⟩
    · decide
    · obtain ⟨line, hm, rfl⟩ := List.mem_map.mp hl
      exact ⟨fun he => (h.oneLine line hm).2 (he ▸ hc), fun he => htab line hm (he ▸ hc)⟩
  have hhead : (unlines (lines.map String.toList)).head? ≠ some '\ufeff' := by
    cases lines with
    | nil => simp [unlines, List.intercalate]
    | cons line lines =>
      by_cases hline : line.toList = []
      · by_cases hlines : lines.map String.toList = []
        · simp [hlines, hline, unlines, List.intercalate]
        · simp [unlines_cons _ hlines, hline]
      · rw [List.map_cons, head?_unlines hline]
        exact hmark line rfl
  rw [Routine.ofSource, String.toList_ofList, normalize_eq_self heven hhead]

end MacroEngine
