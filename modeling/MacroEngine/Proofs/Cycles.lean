import MacroEngine.Proofs.Callers
import MacroEngine.Proofs.Completion
import Mathlib.Data.List.Perm.Subperm

/-! No macro runs within itself. A step that would enter a macro whose name is on the stack fails
with the cycle, before the library is asked for it; so the stack is no higher than the library has
native macros, and one more for the macro at the bottom. -/
namespace MacroEngine

theorem Library.native_entry {library : Library} {name : String} {routine : Routine}
    (h : library.native name = .ok routine) :
    ∃ entry ∈ library.entries, entry.kind = .native ∧ nameKey entry.name = nameKey name := by
  unfold native get entry at h
  cases hfind : library.find? name with
  | none => simp [hfind, bind, Except.bind] at h
  | some entry =>
    obtain ⟨hsame, hmem⟩ := List.find?_eq_some_iff_append.mp hfind
    refine ⟨entry, List.mem_of_find?_eq_some hfind, ?_, by simpa [sameName] using hsame⟩
    cases hkind : entry.kind with
    | native => rfl
    | script =>
      exfalso
      cases hread : Script.Program.ofSource entry.text <;>
        simp [hfind, bind, Except.bind, Entry.read, hkind, hread, Except.map, Except.mapError,
          Source.native?] at h

namespace Called

variable {library : Library} {stack : List Invocation}

theorem native (h : Called library stack) :
    ∀ inv ∈ stack.dropLast, library.native inv.name = .ok inv.routine := by
  induction stack with
  | nil => exact fun _ hm => nomatch hm
  | cons child below ih =>
    cases below with
    | nil => exact fun _ hm => nomatch hm
    | cons parent rest =>
      intro inv hm
      obtain ⟨⟨_, _, _, _, hlib⟩, _⟩ := List.isChain_cons_cons.mp h.calls
      rcases List.mem_cons.mp hm with rfl | hm
      · exact hlib
      · exact ih h.tail inv hm

theorem length_le (h : Called library stack) :
    stack.length ≤ 1 + library.entries.countP fun entry => entry.kind = .native := by
  have hnodup : (stack.dropLast.map Invocation.key).Nodup :=
    h.distinct.sublist ((List.dropLast_sublist stack).map _)
  have hsubset : stack.dropLast.map Invocation.key ⊆
      (library.entries.filter fun entry => entry.kind = .native).map fun entry =>
        nameKey entry.name := by
    intro key hkey
    obtain ⟨inv, hinv, rfl⟩ := List.mem_map.mp hkey
    obtain ⟨entry, hentry, hkind, hsame⟩ := Library.native_entry (h.native inv hinv)
    exact List.mem_map.mpr ⟨entry, List.mem_filter.mpr ⟨hentry, by simpa using hkind⟩, hsame⟩
  have hle := (hnodup.subperm hsubset).length_le
  rw [List.length_map, List.length_map, List.length_dropLast, ← List.countP_eq_length_filter] at hle
  omega

end Called

namespace Snapshot

variable {engine : Engine γ} {s : Snapshot γ} {now : Moment} {game : γ} {run : Run}
  {inv : Invocation} {below : List Invocation} {step : Step}

theorem tick_fails {site : Site} {error : RunError} (hrun : s.run.Orderly)
    (hs : s.run.fiber.stack = inv :: below)
    (hp : s.run.fiber.phase = .busy (.doing (.fail site error))) (hsoft : error.isSoft = false) :
    (s.tick engine).run.fiber.result? = some (.error error) := by
  rw [tick_concludes hrun hs hp rfl]
  simp [Fiber.conclude, Fiber.handleFailure, hsoft, Fiber.abort, Fiber.result?]

/-- What comes of a step that is to run the macro of a name: it fails with a cycle if one on the
stack has the name, else by the library if that does not give the macro, and else enters it. -/
structure Decides (library : Library) (name : String) (wait : WaitSpan) (inv : Invocation)
    (below : List Invocation) (f f' : Fiber) : Prop where
  cycle : ∀ chain, f'.result? = some (.error (.cycle chain)) ↔
    (∃ other ∈ f.stack, other.key = nameKey name) ∧ chain = f.chain ++ [name]
  missing : ∀ error, f'.result? = some (.error (.library error)) ↔
    (∀ other ∈ f.stack, other.key ≠ nameKey name) ∧ library.native name = .error error
  entered : ∀ routine, (f'.phase = .ready ∧ f'.stack =
      .begin name routine f.controls.nextHandle :: { inv with resumeWait := some wait } :: below) ↔
    (∀ other ∈ f.stack, other.key ≠ nameKey name) ∧ library.native name = .ok routine

theorem tick_decides {name : String} {eff : Effective} (hrun : s.run.Orderly)
    (hs : s.run.fiber.stack = inv :: below)
    (hp : s.run.fiber.phase = .busy (.doing
      (Execution.enter engine.rules.library s.run.fiber.chain eff name))) :
    Decides engine.rules.library name eff.wait inv below s.run.fiber (s.tick engine).run.fiber := by
  have hchain : (s.run.fiber.chain.any fun n => sameName n name) = true ↔
      ∃ other ∈ s.run.fiber.stack, other.key = nameKey name := by
    simp [Fiber.chain, sameName, Invocation.key]
  have hready : ∀ {f : Fiber} {result}, f.result? = some result → f.phase ≠ .ready := by
    intro f result hresult hp
    simp [Fiber.result?, hp] at hresult
  unfold Execution.enter at hp
  split at hp
  · rename_i hany
    have hsame := hchain.mp hany
    have hknown : ¬ ∀ other ∈ s.run.fiber.stack, other.key ≠ nameKey name :=
      fun hfresh => hsame.elim fun other h => hfresh other h.1 h.2
    have hresult : (s.tick engine).run.fiber.result? = _ := tick_fails hrun hs hp rfl
    constructor
    · intro chain
      rw [hresult]
      constructor
      · rintro ⟨⟩
        exact ⟨hsame, rfl⟩
      · rintro ⟨_, rfl⟩
        rfl
    · intro error
      rw [hresult]
      exact iff_of_false (by simp) fun h => hknown h.1
    · intro routine
      exact iff_of_false (fun h => hready hresult h.1) fun h => hknown h.1
  · rename_i hany
    have hfresh : ∀ other ∈ s.run.fiber.stack, other.key ≠ nameKey name :=
      fun other hmem hkey => hany (hchain.mpr ⟨other, hmem, hkey⟩)
    have hcycle : ¬ ∃ other ∈ s.run.fiber.stack, other.key = nameKey name := by
      rintro ⟨other, hmem, hkey⟩
      exact hfresh other hmem hkey
    split at hp
    · rename_i error hlib
      have hresult : (s.tick engine).run.fiber.result? = _ := tick_fails hrun hs hp rfl
      constructor
      · intro chain
        rw [hresult]
        exact iff_of_false (by simp) fun h => hcycle h.1
      · intro error'
        rw [hresult, hlib]
        constructor
        · rintro ⟨⟩
          exact ⟨hfresh, rfl⟩
        · rintro ⟨_, ⟨⟩⟩
          rfl
      · intro routine
        rw [hlib]
        exact iff_of_false (fun h => hready hresult h.1) (by simp)
    · rename_i routine hlib
      rw [tick_concludes hrun hs hp rfl]
      constructor
      · intro chain
        exact iff_of_false (fun h => hready h rfl) fun h => hcycle h.1
      · intro error
        rw [hlib]
        exact iff_of_false (fun h => hready h rfl) (by simp)
      · intro routine'
        rw [hlib]
        constructor
        · rintro ⟨_, hstack⟩
          cases hstack
          exact ⟨hfresh, rfl⟩
        · rintro ⟨_, ⟨⟩⟩
          exact ⟨rfl, rfl⟩

/-- No two invocations of a run have the same name, all but the outermost run what the library has
under theirs, and a step that would run a macro within itself fails, with all that is under way. -/
theorem cycles_exact (hrun : run.Fresh)
    (h : Moves engine (fun _ => True) ⟨now, game, run⟩ s) :
    (s.run.fiber.stack.map Invocation.key).Nodup ∧
    (∀ inv ∈ s.run.fiber.stack.dropLast,
      engine.rules.library.native inv.name = .ok inv.routine) ∧
    s.run.fiber.stack.length ≤
      1 + (engine.rules.library.entries.countP fun entry => entry.kind = .native) ∧
    ∀ inv below step name, s.run.fiber.stack = inv :: below → s.run.fiber.phase = .ready →
      s.run.fiber.controls.state inv.control ≠ .pausedNow →
      s.run.fiber.controls.state inv.control ≠ .stopped →
      inv.routine.get? inv.cursor = some step → step.command = .runMacro name →
      match step.settled engine.rules.config (engine.client.view s.game s.now) with
      | .error e => (s.after engine 3).run.fiber.result? = some (.error (.modifier step.line e))
      | .ok eff => Decides engine.rules.library name eff.wait inv below s.run.fiber
          (s.after engine 3).run.fiber := by
  have horderly := orderly_moves (Run.orderly_fresh hrun) h
  have hcalled := (nested_moves hrun h).called
  refine ⟨hcalled.distinct, hcalled.native, hcalled.length_le, ?_⟩
  intro inv below step name hs hp hpaused hstopped hget hcommand
  have htwo : s.after engine 2 = _ := after_begun horderly hs hp hpaused hstopped hget
  have hrun' : (s.after engine 2).run.Orderly := orderly_tick (orderly_tick horderly)
  have hstack : (s.after engine 2).run.fiber.stack = inv :: below := by rw [htwo]; rfl
  have hphase : (s.after engine 2).run.fiber.phase = .busy (.doing (step.settle engine.rules
      s.run.fiber.chain inv (engine.client.view s.game s.now))) := by rw [htwo]
  rw [after_succ]
  split
  · rename_i e hsettled
    simp only [Step.settle, hsettled] at hphase
    exact tick_fails hrun' hstack hphase rfl
  · rename_i eff hsettled
    have hchain : (s.after engine 2).run.fiber.chain = s.run.fiber.chain := by
      rw [Fiber.chain, Fiber.chain, hstack, hs]
    have hnext : (s.after engine 2).run.fiber.controls.nextHandle =
        s.run.fiber.controls.nextHandle := by
      rw [htwo]
      rfl
    simp only [Step.settle, hsettled, Execution.command, hcommand, ← hchain] at hphase
    obtain ⟨hcycle, hmissing, hentered⟩ := tick_decides hrun' hstack hphase
    rw [hstack, ← hs, hchain] at hcycle
    rw [hstack, ← hs] at hmissing hentered
    rw [hnext] at hentered
    exact ⟨hcycle, hmissing, hentered⟩

def circle : Library :=
  ⟨[⟨"Tea", .native, "/runmacro cup"⟩, ⟨"cup", .native, "/echo hot\n/runmacro TEA"⟩]⟩

def stirring : Routine := ⟨[⟨1, .runMacro "tea", "tea", {}⟩]⟩

def stirred : Snapshot Unit := (start 0 () "m" stirring).after (.still circle) 11

def stirrer : Invocation := stirred.run.fiber.stack.headD (.begin "m" stirring Controls.root)

theorem cycles_exact_stirring :
    stirred.run.fiber.chain = ["m", "tea", "cup"] ∧ stirred.run.fiber.stack.length ≤ 3 ∧
    (stirred.after (.still circle) 3).run.fiber.result? =
      some (.error (.cycle ["m", "tea", "cup", "TEA"])) := by
  have hmoves : Moves (.still circle) (fun _ => True) (start 0 () "m" stirring) stirred :=
    moves_after (start 0 () "m" stirring) 11
  have hstack : stirred.run.fiber.stack = stirrer :: stirred.run.fiber.stack.tail := by
    decide +kernel
  have hphase : stirred.run.fiber.phase = .ready := by decide +kernel
  have hget : stirrer.routine.get? stirrer.cursor = some ⟨2, .runMacro "TEA", "TEA", {}⟩ := by
    decide +kernel
  obtain ⟨_, _, hle, hexec⟩ := cycles_exact (.routine "m" stirring) hmoves
  have hdecides := hexec _ _ _ _ hstack hphase (by decide +kernel) (by decide +kernel) hget rfl
  have hcycle := (hdecides.cycle ["m", "tea", "cup", "TEA"]).mpr (by decide +kernel)
  exact ⟨by decide +kernel, hle.trans (by decide +kernel), hcycle⟩

end Snapshot
end MacroEngine
