import MacroEngine.Run.Execution
import Mathlib.Logic.Function.Iterate

/-! The way of one macro through its steps. Only loops and gates decide it: a passage moves from
step to step by the frames alone, and never looks at a game. -/
namespace MacroEngine

/-- Loops, gates and the running of other macros; all other commands are plain. -/
def Command.Steers : Command → Prop
  | .loop _ | .craft _ | .runMacro _ => True
  | _ => False

def Step.echoes (config : Config) (step : Step) : Bool :=
  step.modifiers.echo || (config.loopEcho && step.command.isBoundary)

theorem resolve_echo {config : Config} {names : List String} {step : Step} {eff : Effective}
    (h : resolve config names step = .ok eff) : eff.echo = step.echoes config := by
  unfold resolve at h
  simp only [bind, Except.bind] at h
  repeat' split at h
  all_goals cases h
  all_goals rfl

/-- What a completed step does to the frames, how many crossings it counts, and where it leads. -/
structure Transit where
  frames : List Frame
  crossed : Nat
  flow : Flow
  deriving DecidableEq

/-- All steps but loops and gates lead to the next one. -/
def Step.transit (config : Config) (step : Step) (index : Nat) (frames : List Frame) : Transit :=
  match step.command with
  | .craft count =>
    let crossing := Frames.crossGate index count (step.echoes config) frames
    ⟨crossing.frames, 1, if crossing.again then .next else .finish⟩
  | .loop count =>
    if index = 0 then
      if count = .finite 0 then ⟨frames, 0, .finish⟩
      else ⟨Frames.enterHeader count (step.echoes config) frames, 0, .next⟩
    else
      let crossing :=
        Frames.crossLoop index count config.loopTotal (step.echoes config) frames
      ⟨crossing.frames, 1, if crossing.again then .jump 0 else .next⟩
  | _ => ⟨frames, 0, .next⟩

theorem Step.transit_of_not_boundary {step : Step} (h : step.command.isBoundary = false)
    (config : Config) (index : Nat) (frames : List Frame) :
    step.transit config index frames = ⟨frames, 0, .next⟩ := by
  unfold transit
  split
  · rename_i hc
    rw [hc] at h
    cases h
  · rename_i hc
    rw [hc] at h
    cases h
  · rfl

theorem Step.transit_plain {step : Step} (h : ¬ step.command.Steers) (config : Config)
    (index : Nat) (frames : List Frame) :
    step.transit config index frames = ⟨frames, 0, .next⟩ := by
  refine transit_of_not_boundary ?_ config index frames
  cases hc : step.command with
  | loop | craft => exact absurd (hc ▸ trivial) h
  | _ => rfl

theorem Step.transit_runMacro {step : Step} {name : String} (h : step.command = .runMacro name)
    (config : Config) (index : Nat) (frames : List Frame) :
    step.transit config index frames = ⟨frames, 0, .next⟩ :=
  transit_of_not_boundary (by rw [h]; rfl) config index frames

theorem Step.transit_ne_enter (config : Config) (step : Step) (index : Nat) (frames : List Frame)
    (name : String) (routine : Routine) (wait : WaitSpan) :
    (step.transit config index frames).flow ≠ .enter name routine wait := by
  unfold transit
  split
  · dsimp only
    split <;> simp
  · split
    · split <;> simp
    · dsimp only
      split <;> simp
  · simp

structure Passage where
  /-- The indices of the steps that were executed, oldest first. -/
  trail : List Nat
  crossings : Nat
  /-- The step that comes next and the frames before it; nothing when the macro is over. -/
  spot : Option (Nat × List Frame)
  deriving DecidableEq

namespace Passage

def start : Passage := ⟨[], 0, some (0, [])⟩

def target (index : Nat) : Flow → Option Nat
  | .next => some (index + 1)
  | .jump index => some index
  | _ => none

def next (config : Config) (routine : Routine) (p : Passage) : Passage :=
  match p.spot with
  | none => p
  | some (index, frames) =>
    match routine.get? index with
    | some step =>
      let t := step.transit config index frames
      ⟨p.trail ++ [index], p.crossings + t.crossed,
        (target index t.flow).map fun i => (i, t.frames)⟩
    | none =>
      match Frames.crossEnd frames with
      | none => { p with spot := none }
      | some crossing =>
        { p with
          crossings := p.crossings + 1
          spot := if crossing.again then some (0, crossing.frames) else none }

def after (config : Config) (routine : Routine) (m : Nat) : Passage :=
  (next config routine)^[m] start

def stepsAt (routine : Routine) (trail : List Nat) : List Step := trail.filterMap routine.get?

theorem after_succ (config : Config) (routine : Routine) (m : Nat) :
    after config routine (m + 1) = (after config routine m).next config routine :=
  Function.iterate_succ_apply' _ _ _

theorem next_of_over {config : Config} {routine : Routine} {p : Passage} (h : p.spot = none) :
    p.next config routine = p := by
  simp [next, h]

theorem next_step {config : Config} {routine : Routine} {p : Passage} {index : Nat}
    {frames : List Frame} {step : Step} (hs : p.spot = some (index, frames))
    (hget : routine.get? index = some step) :
    p.next config routine =
      ⟨p.trail ++ [index], p.crossings + (step.transit config index frames).crossed,
        (target index (step.transit config index frames).flow).map fun i =>
          (i, (step.transit config index frames).frames)⟩ := by
  simp only [next, hs, hget]

theorem next_end {config : Config} {routine : Routine} {p : Passage} {index : Nat}
    {frames : List Frame} (hs : p.spot = some (index, frames))
    (hget : routine.get? index = none) (hcross : Frames.crossEnd frames = none) :
    p.next config routine = { p with spot := none } := by
  simp only [next, hs, hget, hcross]

theorem next_crossEnd {config : Config} {routine : Routine} {p : Passage} {index : Nat}
    {frames : List Frame} {crossing : Crossing} (hs : p.spot = some (index, frames))
    (hget : routine.get? index = none) (hcross : Frames.crossEnd frames = some crossing) :
    p.next config routine =
      ⟨p.trail, p.crossings + 1,
        if crossing.again then some (0, crossing.frames) else none⟩ := by
  simp only [next, hs, hget, hcross]

theorem stepsAt_append (routine : Routine) (xs ys : List Nat) :
    stepsAt routine (xs ++ ys) = stepsAt routine xs ++ stepsAt routine ys :=
  List.filterMap_append

end Passage
end MacroEngine
