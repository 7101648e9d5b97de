import MacroEngine.Proofs.RoundTrip

/-! Rewriting a loop count. The last loop of a macro is the only step that changes: its command and
the text it was read from are edited side by side, and what is edited is again a step that could
have been read, so that it is written as a line that reads as itself. -/
namespace MacroEngine
open Text Number

namespace Step

variable {step : Step} {n : Nat}

def counted (step : Step) (n : Nat) : Step :=
  { step with command := .loop (.finite n), rawArgs := String.ofList (digits n) }

theorem commandOf_digits (hn : n ≤ max32) :
    commandOf "loop" (canonicalName "loop") (digits n) = .ok (.loop (.finite n)) := by
  have hname : canonicalName "loop" = "loop" := canonicalName_of_mem _ (by decide)
  have hne : (digits n).isEmpty = false := List.isEmpty_eq_false_iff.mpr (digits_ne_nil n)
  rw [hname]
  simp only [commandOf, hne, Bool.false_eq_true, if_false, readUpTo_digits hn, Option.map_some]

/-- An edited step is one that could have been read. -/
theorem Settled.counted (h : step.Settled) (hn : n ≤ max32) : (step.counted n).Settled where
  word := by
    have hname : "loop" ∈ Command.names := by decide
    exact fun c hc => (chars_of_mem_names hname hc).1
  slash := by
    change "loop".toList.head? ≠ some '/'
    decide
  squeezed := by
    rw [Step.counted, String.toList_ofList]
    exact squeeze_of_no_blanks fun _ hc => isBlank_of_mem_digits hc
  quotes := by
    rw [Step.counted, String.toList_ofList]
    exact quoteAfter_of_not_mem (not_mem_digits (by decide)) false
  oneLine := by
    rw [Step.counted, String.toList_ofList]
    exact not_mem_digits (by decide)
  modifiers := h.modifiers
  command := by
    change commandOf "loop" (canonicalName "loop") (String.ofList (digits n)).toList = _
    rw [String.toList_ofList]
    exact commandOf_digits hn

theorem printable_counted (h : ∀ terms ∈ step.modifiers.condition, ∀ term ∈ terms,
    '"' ∉ term.name.toList ∧ '#' ∉ term.name.toList) : (step.counted n).Printable where
  tags := by
    rw [counted, String.toList_ofList]
    exact untagged_of_not_mem (not_mem_digits (by decide))
  comments := by
    rw [counted, String.toList_ofList]
    exact uncommented_of_not_mem (not_mem_digits (by decide))
  native := nofun
  conditions := h

end Step

namespace Routine

variable {steps before after : List Step} {step : Step} {routine rewritten : Routine} {n : Nat}

theorem setFirstLoop_append (h : ∀ s ∈ before, s.command.isLoop = false) (n : Nat)
    (rest : List Step) :
    setFirstLoop n (before ++ rest) = (setFirstLoop n rest).map (before ++ ·) := by
  induction before with
  | nil => simp
  | cons s before ih =>
    have hs := h s List.mem_cons_self
    rw [List.cons_append, setFirstLoop, hs, ih fun t ht => h t (List.mem_cons_of_mem s ht)]
    simp [Function.comp_def]

theorem withLastLoop_of_no_loop (h : ∀ s ∈ routine.steps, s.command.isLoop = false) (n : Nat) :
    routine.withLastLoop n = none := by
  have hreverse : ∀ s ∈ routine.steps.reverse, s.command.isLoop = false :=
    fun s hs => h s (List.mem_reverse.mp hs)
  have hset := setFirstLoop_append hreverse n []
  rw [List.append_nil] at hset
  rw [withLastLoop, hset]
  rfl

/-- The loop behind which no other comes is the one that is set. -/
theorem withLastLoop_append (hstep : step.command.isLoop = true)
    (hafter : ∀ s ∈ after, s.command.isLoop = false) (before : List Step) (n : Nat) :
    withLastLoop ⟨before ++ step :: after⟩ n = some ⟨before ++ step.counted n :: after⟩ := by
  have hreverse : (before ++ step :: after).reverse = after.reverse ++ step :: before.reverse := by
    simp
  have hset : setFirstLoop n (step :: before.reverse) = some (step.counted n :: before.reverse) := by
    rw [setFirstLoop, if_pos hstep]
    rfl
  rw [withLastLoop, hreverse,
    setFirstLoop_append (fun s hs => hafter s (List.mem_reverse.mp hs)), hset]
  simp

theorem exists_last_loop (steps : List Step) : (∀ s ∈ steps, s.command.isLoop = false) ∨
    ∃ before step after, steps = before ++ step :: after ∧ step.command.isLoop = true ∧
      ∀ s ∈ after, s.command.isLoop = false := by
  induction steps with
  | nil => exact .inl fun _ hs => absurd hs List.not_mem_nil
  | cons s steps ih =>
    rcases ih with hnone | ⟨before, step, after, rfl, hstep, hafter⟩
    · cases hs : s.command.isLoop with
      | true => exact .inr ⟨[], s, steps, rfl, hs, hnone⟩
      | false =>
        refine .inl fun t ht => ?_
        rcases List.mem_cons.mp ht with rfl | ht
        · exact hs
        · exact hnone t ht
    · exact .inr ⟨s :: before, step, after, rfl, hstep, hafter⟩

/-- Setting the count of the last loop. Without a loop there is nothing to set; otherwise the last
one has the count, in its command and in its text, and all else is as it was, so that setting it
again is setting it once. The step that was edited is read back from the line it is written as. -/
theorem last_loop_set {source : List Char} (hread : read source = .ok routine) (hn : n ≤ max32) :
    (routine.withLastLoop n = none ↔ ∀ s ∈ routine.steps, s.command.isLoop = false) ∧
    ∀ rewritten, routine.withLastLoop n = some rewritten →
      (∃ before step after, routine.steps = before ++ step :: after ∧
        step.command.isLoop = true ∧ (∀ s ∈ after, s.command.isLoop = false) ∧
        rewritten.steps = before ++ ⟨step.line, .loop (.finite n), String.ofList (digits n),
          step.modifiers⟩ :: after ∧
        ((∀ terms ∈ step.modifiers.condition, ∀ term ∈ terms,
            '"' ∉ term.name.toList ∧ '#' ∉ term.name.toList) →
          Step.read (String.ofList (step.counted n).text) =
            .ok (some { step.counted n with line := 1 }))) ∧
      ∀ m, rewritten.withLastLoop m = routine.withLastLoop m := by
  obtain ⟨steps, hsteps, rfl⟩ := map_eq_ok.mp hread
  have hsettled := settled_of_readLines (fun _ hl => not_mem_of_mem_lines hl) hsteps
  rcases exists_last_loop steps with hnone | ⟨before, step, after, rfl, hstep, hafter⟩
  · have hwithout : withLastLoop ⟨steps⟩ n = none := withLastLoop_of_no_loop hnone n
    refine ⟨⟨fun _ => hnone, fun _ => hwithout⟩, fun rewritten h => ?_⟩
    rw [hwithout] at h
    cases h
  · have hset := fun m => withLastLoop_append hstep hafter before m
    refine ⟨⟨fun h => ?_, fun h => ?_⟩, fun rewritten h => ?_⟩
    · rw [hset] at h
      cases h
    · rw [h step (List.mem_append_right _ List.mem_cons_self)] at hstep
      cases hstep
    · rw [hset] at h
      cases h
      refine ⟨⟨before, step, after, rfl, hstep, hafter, rfl, fun hconditions => ?_⟩, fun m => ?_⟩
      · have hmem : step ∈ before ++ step :: after := List.mem_append_right _ List.mem_cons_self
        have hedited : (step.counted n).Settled := (hsettled step hmem).counted hn
        rw [Step.read, String.toList_ofList]
        exact hedited.readLine_text (Step.printable_counted hconditions) 1
      · have hcounted : (step.counted n).command.isLoop = true := rfl
        exact (withLastLoop_append hcounted hafter before m).trans (hset m).symm

def twiceLooped : List Char :=
  unlines (["/loop 3", "/ac Touch <wait.2>", "/LOOP <condition.! poor>  7 <echo>", "/wait 1"].map
    String.toList)

theorem last_loop_set_twiceLooped : ∃ routine rewritten, read twiceLooped = .ok routine ∧
    12 ≤ max32 ∧ routine.withLastLoop 12 = some rewritten ∧
    rewritten.steps.map (fun s => String.ofList s.text) =
      ["/loop 3", "/action Touch <wait.2>", "/loop 12 <condition.!poor> <echo>", "/wait 1"] ∧
    rewritten.withLastLoop 7 = routine.withLastLoop 7 := by
  have hn : 12 ≤ max32 := by decide
  have hchecked : ∃ routine, read twiceLooped = .ok routine ∧
      ((routine.withLastLoop 12).any fun rewritten =>
        rewritten.steps.map (fun s => String.ofList s.text) = ["/loop 3", "/action Touch <wait.2>",
          "/loop 12 <condition.!poor> <echo>", "/wait 1"]) = true := exists_ok (by decide +kernel)
  obtain ⟨routine, hread, hany⟩ := hchecked
  cases hset : routine.withLastLoop 12 with
  | none =>
    rw [hset] at hany
    cases hany
  | some rewritten =>
    rw [hset] at hany
    exact ⟨routine, rewritten, hread, hn, hset, of_decide_eq_true hany,
      ((last_loop_set hread hn).2 rewritten hset).2 7⟩

end Routine
end MacroEngine
