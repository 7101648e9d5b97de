import MacroEngine.Proofs.Placement
import MacroEngine.Proofs.StepReading
import MacroEngine.Routine.Printer

/-! Macro text, written and read again. A step that was read is written as a line that reads as the
same step, unless its arguments, kept as they are, could be taken for a tag or a comment; a text
that was read is written as a text with a line for each step. -/
namespace MacroEngine
open Text

/-! Steps that are written. -/

/-- The name of a command that is given to the game as typed. -/
def Command.native? : Command → Option String
  | .native name => some name
  | _ => none

/-- The text of a step holds nothing, outside quotes, that looks like the beginning of a tag or of a
comment, and no quote where quotes do not count. -/
structure Step.Printable (step : Step) : Prop where
  tags : Untagged false step.rawArgs.toList
  comments : Uncommented false true step.rawArgs.toList
  native : ∀ name ∈ step.command.native?, '"' ∉ name.toList
  conditions : ∀ terms ∈ step.modifiers.condition, ∀ term ∈ terms,
    '"' ∉ term.name.toList ∧ '#' ∉ term.name.toList

instance (step : Step) : Decidable step.Printable :=
  decidable_of_iff (_ ∧ _ ∧ _ ∧ _) ⟨fun h => ⟨h.1, h.2.1, h.2.2.1, h.2.2.2⟩,
    fun h => ⟨h.tags, h.comments, h.native, h.conditions⟩⟩

theorem isBlank_of_mem_space {c : Char} (h : c ∈ [' ']) : isBlank c = true := by
  rw [List.mem_singleton.mp h]
  decide

namespace Modifiers

variable {mods : Modifiers}

def spaced (mods : Modifiers) : List Spaced := mods.written.map fun t => ⟨[' '], .tag t⟩

theorem tags_spaced (mods : Modifiers) : Spaced.tags mods.spaced = mods.written := by
  simp [Spaced.tags, spaced, List.filterMap_map, Item.tag?]

theorem blank_intercalate {pieces : List (List Char)} (h : pieces ≠ []) :
    ' ' :: List.intercalate [' '] pieces = pieces.flatMap (' ' :: ·) := by
  induction pieces with
  | nil => exact absurd rfl h
  | cons piece pieces ih =>
    by_cases hne : pieces = []
    · simp [hne, List.intercalate_singleton]
    · obtain ⟨next, rest, rfl⟩ := List.exists_cons_of_ne_nil hne
      rw [List.intercalate_cons_cons, List.flatMap_cons, ← ih hne]
      simp

theorem text_spaced (mods : Modifiers) :
    (if mods.kinds.isEmpty then [] else ' ' :: mods.text) = mods.spaced.flatMap Spaced.text := by
  have hflat : mods.spaced.flatMap Spaced.text = mods.tags.flatMap (' ' :: ·) := by
    rw [tags_eq, spaced, List.flatMap_map, List.flatMap_map]
    rfl
  have htags : mods.tags = [] ↔ mods.kinds = [] := by simp [tags_eq, written]
  rw [hflat]
  by_cases hkinds : mods.kinds = []
  · rw [htags.mpr hkinds, hkinds]
    rfl
  · have hempty : mods.kinds.isEmpty = false := by simpa using hkinds
    rw [hempty, ← blank_intercalate (mt htags.mp hkinds)]
    rfl

theorem Settled.fits (h : mods.Settled) (hnames : ∀ terms ∈ mods.condition, ∀ term ∈ terms,
    '"' ∉ term.name.toList ∧ '#' ∉ term.name.toList) : ∀ x ∈ mods.spaced, x.Fits := by
  intro x hx
  obtain ⟨t, ht, rfl⟩ := List.mem_map.mp hx
  obtain ⟨kind, hkind, rfl⟩ := List.mem_map.mp ht
  have halone : (mods.tagOf kind).alone = .ok (mods.only kind) := alone_eq_ok.mpr
    ⟨kind, kind?_tagOf mods kind, (h kind).given (List.mem_filter.mp hkind).2⟩
  refine ⟨⟨List.cons_ne_nil _ _, fun _ => isBlank_of_mem_space⟩, by rw [halone]; rfl, fun cs hcs c hc => ?_⟩
  obtain ⟨hclose, hline⟩ := (h kind).contained cs hcs
  have hmarks : c ≠ '"' ∧ c ≠ '#' := by
    by_cases hcondition : kind = .condition
    · subst hcondition
      obtain ⟨terms, hterms, rfl⟩ := Option.map_eq_some_iff.mp hcs
      rcases ConditionTerm.mem_listText hc with rfl | rfl | ⟨term, ht, hm⟩
      · decide
      · decide
      · exact ⟨fun he => (hnames terms hterms term ht).1 (he ▸ hm),
          fun he => (hnames terms hterms term ht).2 (he ▸ hm)⟩
    · have hamount := (h kind).amount hcondition cs hcs c hc
      exact ⟨fun he => absurd (he ▸ hamount) (by decide),
        fun he => absurd (he ▸ hamount) (by decide)⟩
  exact ⟨hmarks.1, hmarks.2, fun he => hclose (he ▸ hc), fun he => hline (he ▸ hc)⟩

theorem rest_spaced (mods : Modifiers) :
    ∀ c ∈ mods.spaced.flatMap Spaced.rest, isBlank c = true := by
  intro c hc
  obtain ⟨x, hx, hc⟩ := List.mem_flatMap.mp hc
  obtain ⟨t, -, rfl⟩ := List.mem_map.mp hx
  obtain rfl : c = ' ' := by simpa [Spaced.rest, Item.argument?] using hc
  decide

end Modifiers

namespace Step

variable {step : Step}

def argsText (step : Step) : List Char :=
  if step.rawArgs.isEmpty then [] else ' ' :: step.rawArgs.toList

def afterName (step : Step) : List Char :=
  step.argsText ++ step.modifiers.spaced.flatMap Spaced.text

theorem text_eq (step : Step) :
    step.text = '/' :: (step.command.name.toList ++ step.afterName) := by
  rw [text, Modifiers.text_spaced, afterName, argsText]
  simp only [List.cons_append, List.append_assoc]

theorem argsText_cases (step : Step) :
    step.rawArgs.toList = [] ∧ step.argsText = [] ∨
      step.rawArgs.toList ≠ [] ∧ step.argsText = [' '] ++ step.rawArgs.toList := by
  by_cases h : step.rawArgs = ""
  · exact .inl ⟨by rw [h]; rfl, by rw [argsText, h]; rfl⟩
  · have hempty : step.rawArgs.isEmpty = false := by simpa using h
    exact .inr ⟨by simpa using h, by rw [argsText, hempty]; rfl⟩

theorem squeeze_argsText (step : Step) : squeeze step.argsText = squeeze step.rawArgs.toList := by
  rcases step.argsText_cases with ⟨hargs, htext⟩ | ⟨-, htext⟩
  · rw [hargs, htext]
  · rw [htext, squeeze_blanks_append fun _ => isBlank_of_mem_space]

theorem head?_argsText {c : Char} (h : step.argsText.head? = some c) : c = ' ' := by
  rcases step.argsText_cases with ⟨-, htext⟩ | ⟨-, htext⟩
  · rw [htext] at h
    cases h
  · rw [htext] at h
    exact (Option.some.inj h).symm

theorem Settled.getLast?_argsText (h : step.Settled) {c : Char}
    (hc : step.argsText.getLast? = some c) : isBlank c = false := by
  rcases step.argsText_cases with ⟨-, htext⟩ | ⟨hne, htext⟩
  · rw [htext] at hc
    cases hc
  · rw [htext, List.getLast?_append_of_ne_nil _ hne, ← h.squeezed] at hc
    exact isBlank_of_getLast?_squeeze hc

theorem Settled.inert_argsText (h : step.Settled) (hprint : step.Printable) :
    Inert step.argsText := by
  rcases step.argsText_cases with ⟨-, htext⟩ | ⟨-, htext⟩
  · rw [htext]
    exact inert_blanks fun _ hc => absurd hc List.not_mem_nil
  · rw [htext]
    exact (inert_blanks fun _ => isBlank_of_mem_space).append
      ⟨hprint.tags, hprint.comments, h.quotes⟩

theorem Settled.fits (h : step.Settled) (hprint : step.Printable) :
    ∀ x ∈ step.modifiers.spaced, x.Fits :=
  h.modifiers.fits hprint.conditions

/-- What follows the name is taken apart into the arguments and the modifiers. -/
theorem Settled.splitTags_text (h : step.Settled) (hprint : step.Printable) :
    splitTags step.afterName = .ok (step.rawArgs, step.modifiers) := by
  have hall : Modifiers.addAll {} (Spaced.tags step.modifiers.spaced) = .ok step.modifiers := by
    rw [Modifiers.tags_spaced, h.modifiers.addAll_written]
  have htags := Spaced.takeTags_texts (h.fits hprint) hall
  have hsqueeze : squeeze (step.argsText ++ step.modifiers.spaced.flatMap Spaced.rest) =
      step.rawArgs.toList := by
    rw [squeeze_append_blanks step.modifiers.rest_spaced, squeeze_argsText, h.squeezed]
  rw [splitTags, afterName, takeTags_inert (h.inert_argsText hprint), htags]
  simp only [Except.map, bind, Except.bind, pure, Except.pure, hsqueeze, String.ofList_toList]

theorem Settled.noQuote (h : step.Settled) (hprint : step.Printable) :
    '"' ∉ step.command.name.toList := by
  rcases (commandOf_name h.command).2 with hnative | hm
  · exact hprint.native _ (by rw [hnative]; rfl)
  · exact fun hc => (chars_of_mem_names hm hc).2.2 rfl

theorem Settled.head?_afterName (h : step.Settled) (hprint : step.Printable) {c : Char}
    (hc : step.afterName.head? = some c) : isBlank c = true := by
  rw [afterName, List.head?_append] at hc
  cases hargs : step.argsText.head? with
  | some d =>
    rw [hargs] at hc
    cases hc
    rw [head?_argsText hargs]
    decide
  | none =>
    rw [hargs] at hc
    exact Spaced.head?_texts (h.fits hprint) hc

theorem Settled.getLast?_afterName (h : step.Settled) (hprint : step.Printable) {c : Char}
    (hc : step.afterName.getLast? = some c) : isBlank c = false := by
  rw [afterName, List.getLast?_append] at hc
  cases htags : (step.modifiers.spaced.flatMap Spaced.text).getLast? with
  | some d =>
    rw [htags] at hc
    cases hc
    exact Spaced.getLast?_texts (h.fits hprint) htags
  | none =>
    rw [htags] at hc
    exact h.getLast?_argsText hc

theorem Settled.uncommented_text (h : step.Settled) (hprint : step.Printable) :
    Uncommented false false ('/' :: (step.command.name.toList ++ step.afterName)) := by
  have hinert := h.inert_argsText hprint
  rw [uncommented_cons, uncommented_append, afterName, uncommented_append, if_neg (by decide),
    quoteAfter_of_not_mem (h.noQuote hprint), hinert.quotes]
  exact ⟨by decide, uncommented_word h.word, hinert.comments.anywhere,
    Spaced.uncommented_texts (h.fits hprint) _⟩

theorem Settled.readLine_text (h : step.Settled) (hprint : step.Printable) (n : Nat) :
    readLine n step.text = .ok (some { step with line := n }) := by
  have hslash : (step.command.name.toList ++ step.afterName).head? ≠ some '/' := by
    rw [List.head?_append]
    cases hname : step.command.name.toList.head? with
    | some c => exact fun he => h.slash (hname.trans he)
    | none => exact fun he => absurd (h.head?_afterName hprint he) (by decide)
  rw [text_eq, readLine_command_eq n h.word hslash (h.uncommented_text hprint)
    (fun _ => h.head?_afterName hprint) (fun _ => h.getLast?_afterName hprint),
    h.splitTags_text hprint, String.ofList_toList]
  simp only [Except.mapError, Except.bind, h.command, Except.map]

theorem Settled.getLast?_text (h : step.Settled) (hprint : step.Printable) {c : Char}
    (hc : step.text.getLast? = some c) : isBlank c = false := by
  rw [text_eq, ← List.cons_append, List.getLast?_append] at hc
  cases hafter : step.afterName.getLast? with
  | some d =>
    rw [hafter] at hc
    cases hc
    exact h.getLast?_afterName hprint hafter
  | none =>
    rw [hafter] at hc
    rcases List.mem_cons.mp (List.mem_of_getLast? hc) with rfl | hm
    · decide
    · exact h.word c hm

theorem Settled.oneLine_afterName (h : step.Settled) (hprint : step.Printable) :
    '\n' ∉ step.afterName := by
  intro hm
  rcases List.mem_append.mp hm with hm | hm
  · rcases step.argsText_cases with ⟨-, htext⟩ | ⟨-, htext⟩
    · rw [htext] at hm
      exact List.not_mem_nil hm
    · rw [htext] at hm
      exact (List.mem_append.mp hm).elim (fun hm => absurd hm (by decide)) h.oneLine
  · obtain ⟨x, hx, hm⟩ := List.mem_flatMap.mp hm
    have hfits := h.fits hprint x hx
    obtain ⟨t, -, rfl⟩ := List.mem_map.mp hx
    have hvalue : ∀ value ∈ t.value, '\n' ∉ value :=
      fun value hv hc => (hfits.item.2 value hv _ hc).2.2.2 rfl
    rcases List.mem_append.mp hm with hm | hm
    · exact absurd (List.mem_singleton.mp hm) (by decide)
    · exact Tag.not_mem_text (by decide) (by decide) (hfits.tag rfl).1 hvalue hm

theorem Settled.line_text (h : step.Settled) (hprint : step.Printable) :
    step.text ≠ [] ∧ '\n' ∉ step.text ∧ step.text.getLast? ≠ some '\r' := by
  have hname : '\n' ∉ step.command.name.toList := fun hm => absurd (h.word _ hm) (by decide)
  refine ⟨?_, ?_, fun he => absurd (h.getLast?_text hprint he) (by decide)⟩
  · rw [text_eq]
    exact List.cons_ne_nil _ _
  · rw [text_eq]
    simp only [List.mem_cons, List.mem_append, not_or]
    exact ⟨by decide, hname, h.oneLine_afterName hprint⟩

end Step

/-! Whole texts. -/

namespace Text

variable {a : List Char} {ls : List (List Char)}

theorem linesFrom_unbroken (h : '\n' ∉ a) (line b : List Char) :
    linesFrom line (a ++ b) = linesFrom (a.reverse ++ line) b := by
  induction a generalizing line with
  | nil => rfl
  | cons c a ih =>
    obtain ⟨hc, ha⟩ : '\n' ≠ c ∧ '\n' ∉ a := by simpa using h
    rw [List.cons_append, linesFrom, if_neg (Ne.symm hc), ih ha, List.reverse_cons,
      List.append_assoc]
    rfl

theorem dropReturn_reverse (h : a.getLast? ≠ some '\r') : dropReturn a.reverse = a.reverse := by
  unfold dropReturn
  split
  · rename_i line hline
    exact absurd (by rw [← List.head?_reverse, hline]; rfl) h
  · rfl

/-- Lines that are not empty and do not end like a line ending are found again. -/
theorem lines_unlines (h : ∀ l ∈ ls, l ≠ [] ∧ '\n' ∉ l ∧ l.getLast? ≠ some '\r') :
    lines (unlines ls) = ls := by
  induction ls with
  | nil => rfl
  | cons l ls ih =>
    obtain ⟨hne, hline, hlast⟩ := h l List.mem_cons_self
    by_cases hls : ls = []
    · have hreverse : (l.reverse ++ []).isEmpty = false := by simpa using hne
      have hfrom := linesFrom_unbroken hline [] []
      rw [List.append_nil] at hfrom
      rw [hls, lines, unlines, List.intercalate_singleton, hfrom, linesFrom, hreverse,
        if_neg (by decide), List.append_nil, List.reverse_reverse]
    · rw [unlines_cons l hls, lines, linesFrom_unbroken hline, linesFrom, if_pos rfl,
        List.append_nil, dropReturn_reverse hlast, List.reverse_reverse]
      exact congrArg (l :: ·) (ih fun l' hl => h l' (List.mem_cons_of_mem l hl))

end Text

def relined (n : Nat) (steps : List Step) : List Step :=
  (numbered n steps).map fun (line, step) => { step with line := line }

theorem readLines_texts {steps : List Step} (hsettled : ∀ step ∈ steps, step.Settled)
    (hprint : ∀ step ∈ steps, step.Printable) (n : Nat) :
    readLines (numbered n (steps.map Step.text)) = .ok (relined n steps) := by
  induction steps generalizing n with
  | nil => rfl
  | cons step steps ih =>
    have hstep := (hsettled step List.mem_cons_self).readLine_text
      (hprint step List.mem_cons_self) n
    have hsteps := ih (fun s hs => hsettled s (List.mem_cons_of_mem step hs))
      (fun s hs => hprint s (List.mem_cons_of_mem step hs)) (n + 1)
    rw [List.map_cons, numbered, readLines, hstep, hsteps]
    rfl

namespace Routine

variable {source : List Char} {routine : Routine}

/-- Macro text round trip. What was read from any text is written as a text that reads as the same
steps, each with its command, its arguments and its modifiers, only that every step is now on a line
of its own. -/
theorem read_written (hread : read source = .ok routine)
    (hprint : ∀ step ∈ routine.steps, step.Printable) :
    read routine.text = .ok ⟨relined 1 routine.steps⟩ := by
  obtain ⟨steps, hsteps, rfl⟩ := map_eq_ok.mp hread
  have hsettled := settled_of_readLines (fun _ hl => not_mem_of_mem_lines hl) hsteps
  have hlines : lines (Routine.text ⟨steps⟩) = steps.map Step.text := by
    refine lines_unlines fun l hl => ?_
    obtain ⟨step, hm, rfl⟩ := List.mem_map.mp hl
    exact (hsettled step hm).line_text (hprint step hm)
  rw [read, hlines, readLines_texts hsettled hprint]
  rfl

theorem exists_ok {x : Except ε α} {p : α → Prop} [DecidablePred p]
    (h : (x.toOption.any fun a => decide (p a)) = true) : ∃ a, x = .ok a ∧ p a := by
  cases x with
  | error e => cases h
  | ok a => exact ⟨a, rfl, of_decide_eq_true h⟩

def assorted : List Char :=
  unlines (["Now \"a  <hq> # b\"  <WAIT.0.10-2.50> ok\r",
    "/AC Touch <condition.not. poor,! good> # note", "// aside", "/gate 3 <echo>", "/Bow <unsafe> motion#1", "/loop"].map String.toList)

def assortedLines : List String :=
  ["/echo Now \"a  <hq> # b\" ok <wait.0.1-2.5>", "/action Touch <condition.!poor,!good>",
    "/craft 3 <echo>", "/Bow motion#1 <unsafe>", "/loop"]

theorem read_written_assorted : ∃ routine, read assorted = .ok routine ∧
    (∀ step ∈ routine.steps, step.Printable) ∧
    routine.text = unlines (assortedLines.map String.toList) ∧
    read routine.text = .ok ⟨relined 1 routine.steps⟩ := by
  have hchecked : ∃ routine, read assorted = .ok routine ∧
      (∀ step ∈ routine.steps, step.Printable) ∧
      routine.text = unlines (assortedLines.map String.toList) := exists_ok (by decide +kernel)
  obtain ⟨routine, hread, hprint, htext⟩ := hchecked
  exact ⟨routine, hread, hprint, htext, read_written hread hprint⟩

end Routine
end MacroEngine
