import MacroEngine.Proofs.NestedLoops

/-! A loop without end and a gate in it. The gate ends the macro at the pass after as many as it
counts; the frames of both stay as long as the macro runs. -/
namespace MacroEngine

namespace Frames

variable {step other count k : Nat} {total echo : Bool} {rest : List Frame}

def gating (step count left : Nat) (echo : Bool) : Frame :=
  ⟨step, .gate, .finite count, .finite left, echo⟩

def endless (step : Nat) (echo : Bool) : Frame := ⟨step, .loop, .infinite, .infinite, echo⟩

theorem crossGate_fresh :
    crossGate step count echo [] = crossGate step count echo [gating step count count echo] := by
  simp [crossGate, enter, gating]

theorem crossGate_again (h : ∀ f ∈ rest, f.step ≠ step) :
    crossGate step count echo (gating step count (k + 1) echo :: rest) =
      ⟨gating step count k echo :: rest, true, left (.finite k) "crafts"⟩ := by
  have hset : setRemaining step (.finite k) (gating step count (k + 1) echo :: rest) =
      gating step count k echo :: rest := by
    have hcons : setRemaining step (.finite k) (gating step count (k + 1) echo :: rest) =
        gating step count k echo :: setRemaining step (.finite k) rest := by
      simp [setRemaining, gating]
    rw [hcons, setRemaining_of_ne h]
  unfold crossGate enter
  simp only [gating, List.any_cons, decide_true, Bool.true_or, if_true, List.find?_cons,
    LoopCount.pass?]
  exact congrArg (Crossing.mk · true _) hset

theorem crossGate_closed (rest : List Frame) :
    (crossGate step count echo (gating step count 0 echo :: rest)).again = false := by
  simp [crossGate, enter, gating, LoopCount.pass?]

theorem crossLoop_endless (h : other ≠ step) {frame : Frame} (hf : frame.step = other)
    (hrest : rest = [] ∨ rest = [endless step echo]) :
    crossLoop step .infinite total echo (frame :: rest) =
      ⟨[frame, endless step echo], true, none⟩ := by
  have hne : frame.step ≠ step := hf ▸ h
  rcases hrest with rfl | rfl <;> cases total <;>
    simp [crossLoop, enter, endless, hne, LoopCount.pass?, LoopCount.pred, setRemaining, left]

end Frames

/-- A macro that is a loop without end, with one gate and no other loops. -/
structure GatedLoop where
  before : List Step
  gate : Step
  count : Nat
  after : List Step
  loop : Step
  gates : gate.command = .craft count
  loops : loop.command = .loop .infinite
  plain : ∀ step ∈ before ++ after, step.command.isBoundary = false

namespace GatedLoop
open Passage

variable {config : Config} {t : GatedLoop} {k : Nat} {rest frames : List Frame}

def routine (t : GatedLoop) : Routine := ⟨t.before ++ t.gate :: (t.after ++ [t.loop])⟩

/-- Rounds through all steps, and at last the steps up to the gate. -/
def steps (t : GatedLoop) : List Step :=
  (List.replicate t.count t.routine.steps).flatten ++ (t.before ++ [t.gate])

def gateFrame (config : Config) (t : GatedLoop) (left : Nat) : Frame :=
  Frames.gating t.before.length t.count left (t.gate.echoes config)

def loopFrame (config : Config) (t : GatedLoop) : Frame :=
  Frames.endless (t.before.length + 1 + t.after.length) (t.loop.echoes config)

theorem toGate (config : Config) (t : GatedLoop) (frames : List Frame) :
    Walks config t.routine (0, frames) t.before 0 (some (t.before.length, frames)) := by
  have hsteps : t.routine.steps = [] ++ t.before ++ t.gate :: (t.after ++ [t.loop]) := rfl
  exact Walks.plain config hsteps (fun step hm => t.plain step (List.mem_append_left _ hm)) frames

theorem get?_gate (t : GatedLoop) : t.routine.get? t.before.length = some t.gate := by
  simp [Routine.get?, routine]

theorem transit_gate {crossing : Crossing}
    (h : Frames.crossGate t.before.length t.count (t.gate.echoes config) frames = crossing) :
    t.gate.transit config t.before.length frames =
      ⟨crossing.frames, 1, if crossing.again then .next else .finish⟩ := by
  simp only [Step.transit, t.gates, h]

/-- The gate lets the pass through, and the loop leads back. -/
theorem fromGate (hrest : rest = [] ∨ rest = [t.loopFrame config])
    (h : Frames.crossGate t.before.length t.count (t.gate.echoes config) frames =
      Frames.crossGate t.before.length t.count (t.gate.echoes config)
        (t.gateFrame config (k + 1) :: rest)) :
    Walks config t.routine (t.before.length, frames) (t.gate :: (t.after ++ [t.loop])) 2
      (some (0, [t.gateFrame config k, t.loopFrame config])) := by
  have hother : ∀ f ∈ rest, f.step ≠ t.before.length := by
    intro f hf
    rcases hrest with rfl | rfl
    · cases hf
    · rw [List.mem_singleton.mp hf]
      simp only [loopFrame, Frames.endless]
      omega
  rw [gateFrame, Frames.crossGate_again hother] at h
  have hgate := Walks.step t.get?_gate (transit_gate h)
  have hsteps : t.routine.steps = t.before ++ [t.gate] ++ t.after ++ [t.loop] := by simp [routine]
  have hafter := Walks.plain config hsteps
    (fun step hm => t.plain step (List.mem_append_right _ hm)) (t.gateFrame config k :: rest)
  have hlen : (t.before ++ [t.gate]).length = t.before.length + 1 := by simp
  have hlen' : (t.before ++ [t.gate] ++ t.after).length = t.before.length + 1 + t.after.length := by
    rw [List.length_append, hlen]
  rw [hlen, hlen'] at hafter
  have hget : t.routine.get? (t.before.length + 1 + t.after.length) = some t.loop := by
    rw [← hlen']
    simp [Routine.get?, routine]
  have htransit : t.loop.transit config (t.before.length + 1 + t.after.length)
      (t.gateFrame config k :: rest) =
        ⟨[t.gateFrame config k, t.loopFrame config], 1, .jump 0⟩ := by
    have hcross : Frames.crossLoop _ .infinite config.loopTotal (t.loop.echoes config)
        (t.gateFrame config k :: rest) = _ := Frames.crossLoop_endless
      (show t.before.length ≠ t.before.length + 1 + t.after.length by omega) rfl hrest
    simp only [Step.transit, t.loops, hcross]
    rw [if_neg (by omega)]
    rfl
  have hloop := Walks.step hget htransit
  exact ((hgate.trans hafter).trans hloop).of_eq (by simp) rfl

theorem gateCloses (h : Frames.crossGate t.before.length t.count (t.gate.echoes config) frames =
      Frames.crossGate t.before.length t.count (t.gate.echoes config)
        (t.gateFrame config 0 :: rest)) :
    Walks config t.routine (t.before.length, frames) [t.gate] 1 none := by
  have hclosed : (Frames.crossGate t.before.length t.count (t.gate.echoes config)
      (Frames.gating t.before.length t.count 0 (t.gate.echoes config) :: rest)).again = false :=
    Frames.crossGate_closed rest
  have hgate := Walks.step t.get?_gate (transit_gate h)
  rw [gateFrame, hclosed] at hgate
  exact hgate

/-- Induction on the passes that the gate still lets through. -/
theorem passes (hrest : rest = [] ∨ rest = [t.loopFrame config])
    (h : Frames.crossGate t.before.length t.count (t.gate.echoes config) frames =
      Frames.crossGate t.before.length t.count (t.gate.echoes config)
        (t.gateFrame config k :: rest)) :
    Walks config t.routine (0, frames)
      ((List.replicate k t.routine.steps).flatten ++ (t.before ++ [t.gate])) (2 * k + 1) none := by
  induction k generalizing frames rest with
  | zero => exact ((t.toGate config frames).trans (gateCloses h)).of_eq (by simp) (by omega)
  | succ k ih =>
    have hround := (t.toGate config frames).trans (fromGate hrest h)
    refine (hround.trans (ih (.inr rfl) rfl)).of_eq ?_ (by omega)
    simp [List.replicate_succ, routine]

theorem walks (config : Config) (t : GatedLoop) :
    Walks config t.routine (0, []) t.steps (2 * t.count + 1) none :=
  passes (.inl rfl) Frames.crossGate_fresh

end GatedLoop
end MacroEngine
