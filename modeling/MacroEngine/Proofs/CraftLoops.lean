import MacroEngine.Library.Basic
import MacroEngine.Proofs.Assurance
import MacroEngine.Proofs.Clicks
import MacroEngine.Proofs.CraftText
import MacroEngine.Proofs.GatedLoops

/-! Crafting loops run the macro as often as they are asked to. Their own steps cannot fail while
the addons are visible and the game takes clicks; the gate counts the rounds, and in the middle of
a synthesis the first round needs no click. -/
namespace MacroEngine
open Text Number

inductive Step.Crafting (layout : CraftLayout) : Step → Prop where
  | gate (line count : Nat) : Crafting layout (craftGate layout line count)
  | recipeNote (line : Nat) : Crafting layout (awaitAddon line "RecipeNote" layout.maxWaitSecs)
  | click (line : Nat) : Crafting layout (clickSynthesize line)
  | synthesis (line : Nat) : Crafting layout (awaitAddon line "Synthesis" layout.maxWaitSecs)
  | back (line : Nat) : Crafting layout (wayBack line)

def View.ShowsCrafting (view : View) : Prop :=
  view.addon "RecipeNote" = .visible ∧ view.addon "Synthesis" = .visible

instance (view : View) : Decidable view.ShowsCrafting := inferInstanceAs (Decidable (_ ∧ _))

namespace Execution
open Activity

theorem sure_tell {shows : View → Prop} {takes : Order → Prop} (wanted : Bool)
    (news : Option String) {f : Unit → Activity β} (hf : (f ()).Sure shows takes) :
    ((tell wanted news).bind f).Sure shows takes := by
  unfold tell
  split <;> exact hf

theorem sure_gate {shows : View → Prop} {takes : Order → Prop} (index count : Nat)
    (eff : Effective) (frames : List Frame) : (gate index count eff frames).Sure shows takes := by
  refine ⟨by simp, by simp, sure_tell _ _ ⟨by simp, ?_⟩⟩
  change Activity.Sure _ _ (if _ then _ else _)
  split <;> trivial

theorem sure_loop {shows : View → Prop} {takes : Order → Prop} (config : Config) (index : Nat)
    (count : LoopCount) (eff : Effective) (frames : List Frame) :
    (loop config index count eff frames).Sure shows takes := by
  unfold loop
  by_cases hi : index = 0
  · simp only [hi, if_true]
    by_cases hz : count = .finite 0
    · simp only [hz, if_true]
      exact sure_tell _ _ trivial
    · simp only [hz, if_false]
      exact ⟨by simp, trivial⟩
  · simp only [hi, if_false]
    exact ⟨by simp, by simp, sure_tell _ _ ⟨by simp, trivial⟩⟩

theorem sure_awaitAddon {shows : View → Prop} {takes : Order → Prop} {name : String}
    (h : ∀ view, shows view → view.addon name = .visible) (line : Nat) (eff : Effective) :
    (waitAddon line eff name).Sure shows takes :=
  ⟨fun view hv => decide_eq_true (h view hv), trivial⟩

theorem resolve_ok {step : Step}
    (hkinds : ∀ kind, step.modifiers.has kind = true → step.command.accepts kind = true)
    (hwait : step.modifiers.wait = none) (hcondition : step.modifiers.condition = none)
    (hmaxWait : ∀ secs ∈ step.modifiers.maxWait, (Duration.ofSeconds? secs).isSome)
    (config : Config) (names : List String) : ∃ eff, resolve config names step = .ok eff := by
  have hfind : (step.modifiers.kinds.find? fun kind => !step.command.accepts kind) = none := by
    rw [List.find?_eq_none]
    intro kind hk
    simp [hkinds kind (List.mem_filter.mp hk).2]
  have hzero : checkWait .zero = .ok () := by decide +kernel
  unfold resolve
  simp only [hfind, hwait, hcondition, Option.getD_none, hzero, Option.bind_none, Bind.bind,
    Except.bind]
  cases hm : step.modifiers.maxWait with
  | none => exact ⟨_, rfl⟩
  | some secs =>
    obtain ⟨limit, hlimit⟩ := Option.isSome_iff_exists.mp (hmaxWait secs hm)
    simp only [hlimit]
    exact ⟨_, rfl⟩

theorem sure_crafting {layout : CraftLayout} (hsecs : layout.maxWaitSecs ≤ max32) {step : Step}
    (h : step.Crafting layout) (rules : Rules) (chain : List String) (index : Nat)
    (frames : List Frame) :
    (Execution.step rules chain index frames step).Sure View.ShowsCrafting
      (· = .click "synthesize") := by
  have hresolve : ∀ names, ∃ eff, resolve rules.config names step = .ok eff := by
    intro names
    have hlimit : ∀ secs ∈ some (wholeSeconds layout.maxWaitSecs),
        (Duration.ofSeconds? secs).isSome := by
      rintro _ ⟨⟩
      rw [ofSeconds?_whole hsecs]
      rfl
    have hkinds : ∀ kind, step.modifiers.has kind = true → step.command.accepts kind = true := by
      cases h <;> (intro kind hk; cases kind <;> first | rfl | cases hk)
    cases h with
    | recipeNote | synthesis => exact resolve_ok hkinds rfl rfl hlimit _ _
    | gate | click | back => exact resolve_ok hkinds rfl rfl (by rintro _ ⟨⟩) _ _
  intro view _
  obtain ⟨eff, heff⟩ := hresolve
    (if step.modifiers.condition.isSome then view.conditionNames else [])
  simp only [heff]
  cases h with
  | gate line count => exact sure_gate _ _ _ _
  | recipeNote line => exact sure_awaitAddon (fun _ hv => hv.1) _ _
  | click line => exact ⟨rfl, trivial⟩
  | synthesis line => exact sure_awaitAddon (fun _ hv => hv.2) _ _
  | back line => exact sure_loop _ _ _ _ _

end Execution

section Rounds

variable {layout : CraftLayout} {count lines : Nat} {steps : List Step}

/-- A crafting loop is a loop without end with a gate in it. -/
def craftRounds (layout : CraftLayout) (count lines : Nat)
    (h : ∀ step ∈ steps, step.command.isBoundary = false) : GatedLoop where
  before := if layout.fromRecipeNote then [] else steps
  gate :=
    if layout.fromRecipeNote then craftGate layout 1 count
    else craftGate layout (1 + lines) (count - 1)
  count := if layout.fromRecipeNote then count else count - 1
  after :=
    if layout.fromRecipeNote then
      synthesisSteps 2 layout.maxWaitSecs ++ steps.map (Step.later 4)
    else synthesisSteps (1 + lines + 1) layout.maxWaitSecs
  loop := wayBack (1 + 4 + lines)
  gates := by split <;> rfl
  loops := rfl
  plain := by
    have hlater : ∀ step ∈ steps.map (Step.later 4), step.command.isBoundary = false := by
      intro step hm
      obtain ⟨step, hs, rfl⟩ := List.mem_map.mp hm
      exact h step hs
    have hsynthesis : ∀ line, ∀ step ∈ synthesisSteps line layout.maxWaitSecs,
        step.command.isBoundary = false := by
      intro line step hm
      simp only [synthesisSteps, List.mem_cons, List.not_mem_nil, or_false] at hm
      rcases hm with rfl | rfl | rfl <;> rfl
    split
    · exact List.forall_mem_append.mpr ⟨by simp, List.forall_mem_append.mpr ⟨hsynthesis _, hlater⟩⟩
    · exact List.forall_mem_append.mpr ⟨h, hsynthesis _⟩

theorem craftRounds_routine (h : ∀ step ∈ steps, step.command.isBoundary = false) :
    (craftRounds layout count lines h).routine = ⟨craftSteps layout (some count) lines steps⟩ := by
  have hline : 1 + 4 + lines = 1 + lines + 1 + 3 := by omega
  unfold GatedLoop.routine craftRounds craftSteps
  by_cases hfrom : layout.fromRecipeNote
  · simp [hfrom]
  · simp [hfrom, hline]

def craftedSteps (layout : CraftLayout) (count : Nat) (steps : List Step) : List Step :=
  steps.map (Step.later (craftShift layout (some count)))

/-- The steps that a crafting loop executes: whole rounds, and then up to the gate. -/
def craftTrail (layout : CraftLayout) (count lines : Nat) (steps : List Step) : List Step :=
  let rounds n := (List.replicate n (craftSteps layout (some count) lines steps)).flatten
  if layout.fromRecipeNote then rounds count ++ [craftGate layout 1 count]
  else rounds (count - 1) ++ (steps ++ [craftGate layout (1 + lines) (count - 1)])

theorem craftRounds_steps (h : ∀ step ∈ steps, step.command.isBoundary = false) :
    (craftRounds layout count lines h).steps = craftTrail layout count lines steps := by
  unfold GatedLoop.steps
  rw [craftRounds_routine]
  unfold craftTrail craftRounds
  by_cases hfrom : layout.fromRecipeNote <;> simp [hfrom]

def clickLine (layout : CraftLayout) (lines : Nat) : Nat :=
  if layout.fromRecipeNote then 3 else 3 + lines

def ownSteps (layout : CraftLayout) (count lines : Nat) : List Step :=
  if layout.fromRecipeNote then
    craftGate layout 1 count :: (synthesisSteps 2 layout.maxWaitSecs ++ [wayBack (1 + 4 + lines)])
  else
    craftGate layout (1 + lines) (count - 1) ::
      (synthesisSteps (1 + lines + 1) layout.maxWaitSecs ++ [wayBack (1 + lines + 1 + 3)])

theorem line_ownSteps {step : Step} (h : step ∈ ownSteps layout count lines) :
    step.line ≤ craftShift layout (some count) ∨ craftShift layout (some count) + lines < step.line := by
  unfold ownSteps at h
  unfold craftShift
  by_cases hfrom : layout.fromRecipeNote
  · simp only [hfrom, if_true, synthesisSteps, List.mem_cons, List.mem_append, List.not_mem_nil,
      or_false] at h
    rcases h with rfl | (rfl | rfl | rfl) | rfl <;>
      simp [hfrom, craftGate, awaitAddon, clickSynthesize, wayBack]
  · simp only [hfrom, Bool.false_eq_true, if_false, synthesisSteps, List.mem_cons, List.mem_append,
      List.not_mem_nil, or_false] at h
    rcases h with rfl | (rfl | rfl | rfl) | rfl <;>
      simp [hfrom, craftGate, awaitAddon, clickSynthesize, wayBack] <;> omega

theorem ownSteps_apart (hlines : ∀ step ∈ steps, 1 ≤ step.line ∧ step.line < 1 + lines) {step : Step}
    (h : step ∈ ownSteps layout count lines) : step ∉ craftedSteps layout count steps := by
  intro hm
  obtain ⟨source, hs, rfl⟩ := List.mem_map.mp hm
  have hline := hlines source hs
  have hown := line_ownSteps h
  have hlater : (source.later (craftShift layout (some count))).line =
      source.line + craftShift layout (some count) := rfl
  omega

theorem craftSteps_split (layout : CraftLayout) (count lines : Nat) (steps : List Step) :
    ∃ pre post, craftSteps layout (some count) lines steps =
        pre ++ craftedSteps layout count steps ++ post ∧ pre ++ post = ownSteps layout count lines := by
  have hmap : steps.map (Step.later 0) = steps := List.map_id steps
  by_cases hfrom : layout.fromRecipeNote
  · exact ⟨craftGate layout 1 count :: synthesisSteps 2 layout.maxWaitSecs, [wayBack (1 + 4 + lines)],
      by simp [craftSteps, craftedSteps, craftShift, hfrom], by simp [ownSteps, hfrom]⟩
  · exact ⟨[], ownSteps layout count lines,
      by simp [craftSteps, craftedSteps, craftShift, hfrom, hmap, ownSteps], rfl⟩

theorem craftTrail_eq (layout : CraftLayout) (count lines : Nat) (steps : List Step) :
    ∃ gate ∈ ownSteps layout count lines, gate ≠ clickSynthesize (clickLine layout lines) ∧
      craftTrail layout count lines steps =
        (List.replicate (if layout.fromRecipeNote then count else count - 1)
          (craftSteps layout (some count) lines steps)).flatten ++
        (if layout.fromRecipeNote then [] else craftedSteps layout count steps) ++ [gate] := by
  have hmap : steps.map (Step.later 0) = steps := List.map_id steps
  by_cases hfrom : layout.fromRecipeNote
  · exact ⟨craftGate layout 1 count, by simp [ownSteps, hfrom], by simp [craftGate, clickSynthesize],
      by simp [craftTrail, hfrom]⟩
  · exact ⟨craftGate layout (1 + lines) (count - 1), by simp [ownSteps, hfrom],
      by simp [craftGate, clickSynthesize],
      by simp [craftTrail, hfrom, craftedSteps, craftShift, hmap]⟩

/-- The steps of the macro are executed in whole, as often as the loop was asked to. -/
theorem filter_craftTrail (hpos : 1 ≤ count)
    (hlines : ∀ step ∈ steps, 1 ≤ step.line ∧ step.line < 1 + lines) :
    (craftTrail layout count lines steps).filter (· ∈ craftedSteps layout count steps) =
      (List.replicate count (craftedSteps layout count steps)).flatten := by
  have hown : ∀ own : List Step, (∀ step ∈ own, step ∈ ownSteps layout count lines) →
      own.filter (· ∈ craftedSteps layout count steps) = [] := by
    intro own h
    rw [List.filter_eq_nil_iff]
    intro step hm
    simpa using ownSteps_apart hlines (h step hm)
  have hself : (craftedSteps layout count steps).filter (· ∈ craftedSteps layout count steps) =
      craftedSteps layout count steps := List.filter_eq_self.mpr fun step hm => by simpa using hm
  obtain ⟨pre, post, hsplit, hpost⟩ := craftSteps_split layout count lines steps
  have hround : (craftSteps layout (some count) lines steps).filter
      (· ∈ craftedSteps layout count steps) = craftedSteps layout count steps := by
    rw [hsplit, List.filter_append, List.filter_append, hself,
      hown pre fun step hm => hpost ▸ List.mem_append_left _ hm,
      hown post fun step hm => hpost ▸ List.mem_append_right _ hm, List.append_nil, List.nil_append]
  obtain ⟨gate, hgate, -, htrail⟩ := craftTrail_eq layout count lines steps
  rw [htrail, List.filter_append, List.filter_append, List.filter_flatten, List.map_replicate, hround,
    hown [gate] (by simpa using hgate), List.append_nil]
  by_cases hfrom : layout.fromRecipeNote
  · simp [hfrom]
  · obtain ⟨n, rfl⟩ : ∃ n, count = n + 1 := ⟨count - 1, by omega⟩
    simp only [hfrom, Bool.false_eq_true, if_false, hself, Nat.add_sub_cancel]
    rw [List.replicate_succ', List.flatten_append, List.flatten_singleton]

/-- In the middle of a synthesis one click less is needed. -/
theorem count_craftTrail
    (hlines : ∀ step ∈ steps, 1 ≤ step.line ∧ step.line < 1 + lines) :
    (craftTrail layout count lines steps).count (clickSynthesize (clickLine layout lines)) =
      if layout.fromRecipeNote then count else count - 1 := by
  have hone : (ownSteps layout count lines).count (clickSynthesize (clickLine layout lines)) = 1 := by
    have hline : 3 + lines = 1 + lines + 1 + 1 := by omega
    by_cases hfrom : layout.fromRecipeNote
    · simp [ownSteps, clickLine, hfrom, synthesisSteps, craftGate, awaitAddon, clickSynthesize,
        wayBack]
    · simp [ownSteps, clickLine, hfrom, synthesisSteps, craftGate, awaitAddon, clickSynthesize,
        wayBack, hline]
  have hnone : (craftedSteps layout count steps).count (clickSynthesize (clickLine layout lines)) = 0 :=
    List.count_eq_zero.mpr
      (ownSteps_apart hlines (List.count_pos_iff.mp (by rw [hone]; exact Nat.one_pos)))
  obtain ⟨pre, post, hsplit, hpost⟩ := craftSteps_split layout count lines steps
  have hround : (craftSteps layout (some count) lines steps).count
      (clickSynthesize (clickLine layout lines)) = 1 := by
    rw [← hpost, List.count_append] at hone
    rw [hsplit, List.count_append, List.count_append, hnone, Nat.add_zero, hone]
  obtain ⟨gate, -, hgate, htrail⟩ := craftTrail_eq layout count lines steps
  rw [htrail, List.count_append, List.count_append, List.count_flatten, List.map_replicate, hround]
  by_cases hfrom : layout.fromRecipeNote <;> simp [hfrom, hnone, hgate]

end Rounds

def Entry.crafting (entry : Entry) (layout : CraftLayout) (counts : Option Nat) (source : Routine) :
    Routine :=
  ⟨craftSteps layout counts (bodyLines entry.text.toList).length source.steps⟩

theorem Library.craftLoop_eq {lib : Library} {name : String} {entry : Entry} {source : Routine}
    {layout : CraftLayout} {counts : Option Nat} (hentry : lib.entry name = .ok entry)
    (hkind : entry.kind = .native) (hsource : Routine.ofSource entry.text = .ok source)
    (hmark : (normalize entry.text.toList).head? ≠ some '\ufeff')
    (hcount : ∀ count ∈ counts, count ≤ max32) (htemplate : layout.useTemplate = false)
    (hsecs : layout.maxWaitSecs ≤ max32) :
    lib.craftLoop name counts layout = .ok (entry.crafting layout counts source) := by
  have hread := craft_read layout hmark hcount hsecs
  have htext : MacroEngine.craftLoop entry.text.toList counts layout =
      .ok (unlines (craftLines layout (craftBody entry.text.toList) counts)) := by
    simp [MacroEngine.craftLoop, htemplate]
  have hsource : Routine.read (normalize entry.text.toList) = .ok source := hsource
  rw [hsource] at hread
  simp only [Library.craftLoop, hentry, bind, Except.bind, hkind, htext, Except.mapError,
    Routine.ofSource, String.toList_ofList, hread]
  rfl

namespace Snapshot

variable {engine : Engine γ} {now : Moment} {game : γ} {name : String} {entry : Entry}
  {source : Routine} {count : Nat}

/-- A crafting loop runs the macro as often as it is asked to. -/
theorem craft_loops (hentry : engine.rules.library.entry name = .ok entry)
    (hkind : entry.kind = .native) (hsource : Routine.ofSource entry.text = .ok source)
    (hmark : (normalize entry.text.toList).head? ≠ some '\ufeff')
    (hplain : ∀ step ∈ source.steps, step.command.isBoundary = false)
    (hpos : 1 ≤ count) (hcount : count ≤ max32)
    (htemplate : engine.rules.config.craftLoop.useTemplate = false)
    (hsecs : engine.rules.config.craftLoop.maxWaitSecs ≤ max32) :
    let layout := engine.rules.config.craftLoop
    let crafting := entry.crafting layout (some count) source
    let macroSteps := craftedSteps layout count source.steps
    let click := clickSynthesize (clickLine layout (bodyLines entry.text.toList).length)
    engine.rules.library.craftLoop name (some count) layout = .ok crafting ∧
    ((∀ n, (engine.client.view ((start now game name crafting).after engine n).game
        ((start now game name crafting).after engine n).now).ShowsCrafting) →
      (∀ n, (engine.client.perform ((start now game name crafting).after engine n).game
        ((start now game name crafting).after engine n).now (.click "synthesize")).1 = .ok ()) →
      (start now game name crafting).CompletesApart engine (Step.Crafting layout) →
      ∃ n ended report journal,
        ((start now game name crafting).after engine n).run.outcome = some ⟨.ok report, ended⟩ ∧
        ((start now game name crafting).after engine n).run.fiber.journal = journal ∧
        report.stoppedByUser = false ∧
        completedSteps name journal =
          craftTrail layout count (bodyLines entry.text.toList).length source.steps ∧
        (completedSteps name journal).filter (· ∈ macroSteps) =
          (List.replicate count macroSteps).flatten ∧
        clicks "synthesize" journal = (if layout.fromRecipeNote then count else count - 1) +
          clickSteps "synthesize" (journal.filter fun e => e.2 ≠ .completed name click)) := by
  intro layout crafting macroSteps click
  refine ⟨Library.craftLoop_eq hentry hkind hsource hmark (by rintro _ ⟨⟩; exact hcount) htemplate
    hsecs, fun hvisible htakes happart => ?_⟩
  have hcompletes : (start now game name crafting).Completes engine :=
    happart.completes rfl (Fiber.assured_of_not_busy fun _ hp => nomatch hp)
      (fun _ h _ _ _ => Execution.sure_crafting hsecs h _ _ _ _) hvisible
      (by rintro n _ rfl; exact htakes n)
  have hlines : ∀ step ∈ source.steps,
      1 ≤ step.line ∧ step.line < 1 + (bodyLines entry.text.toList).length := by
    have hread := readLines_body entry.text.toList 1
    obtain ⟨steps, hsteps, rfl⟩ := map_eq_ok.mp hsource
    exact readLines_line (hread.trans hsteps)
  have hwalks := (craftRounds layout count (bodyLines entry.text.toList).length hplain).walks
    engine.rules.config
  rw [craftRounds_routine, craftRounds_steps] at hwalks
  obtain ⟨m, htrail, -, -, hspot⟩ := hwalks.whole
  obtain ⟨n, hn⟩ := hcompletes.finishes hspot
  obtain ⟨ended, hout⟩ := hn.outcome
  have hcompleted := hn.tallies.completed.trans htrail
  refine ⟨n, ended, _, _, hout, rfl, rfl, hcompleted, ?_, ?_⟩
  · rw [hcompleted]
    exact filter_craftTrail hpos hlines
  · rw [hcompletes.clicks_eq (by rw [hout]; rfl),
      clickSteps_split (show click.command = _ from rfl) name, hcompleted, count_craftTrail hlines]

def workshop : Engine Unit where
  rules := ⟨.default, ⟨[⟨"m", .native, "/echo a"⟩]⟩⟩
  client := { Client.still with
    view := fun game now => { Client.still.view game now with addon := fun _ => .visible } }
  draw := .lowest

def crafted : Routine :=
  Entry.crafting ⟨"m", .native, "/echo a"⟩ .default (some 2) ⟨[⟨1, .echo "a", "a", {}⟩]⟩

theorem craft_loops_crafted :
    workshop.rules.library.craftLoop "m" (some 2) .default = .ok crafted ∧
    (start 0 () "m" crafted).CompletesApart workshop (Step.Crafting .default) ∧
    ∃ n ended report journal,
      ((start 0 () "m" crafted).after workshop n).run.outcome = some ⟨.ok report, ended⟩ ∧
      ((start 0 () "m" crafted).after workshop n).run.fiber.journal = journal ∧
      (completedSteps "m" journal).filter (· ∈ craftedSteps .default 2 [⟨1, .echo "a", "a", {}⟩]) =
        [⟨5, .echo "a", "a", {}⟩, ⟨5, .echo "a", "a", {}⟩] := by
  have hc : (start 0 () "m" crafted).Completes workshop :=
    Completes.of_over (N := 120) (by decide +kernel) (by decide +kernel) (by decide +kernel)
  have hapart : (start 0 () "m" crafted).CompletesApart workshop (Step.Crafting .default) :=
    ⟨fun n site error hp => absurd hp (hc.unfailing n site error),
      fun n ht => absurd ht (hc.unheld n), hc.returning⟩
  have hentry : workshop.rules.library.entry "m" = .ok ⟨"m", .native, "/echo a"⟩ := by
    decide +kernel
  have hsource : Routine.ofSource "/echo a" = .ok ⟨[⟨1, .echo "a", "a", {}⟩]⟩ := by decide +kernel
  have hpos : 1 ≤ 2 := by decide
  obtain ⟨hloop, hrun⟩ := craft_loops hentry rfl hsource (by decide +kernel) (by decide) hpos
    (by decide) rfl (by decide)
  obtain ⟨n, ended, report, journal, hout, hjournal, _, _, hfilter, _⟩ :=
    hrun (fun _ => ⟨rfl, rfl⟩) (fun _ => rfl) hapart
  exact ⟨hloop, hapart, n, ended, report, journal, hout, hjournal, hfilter⟩

end Snapshot

end MacroEngine
