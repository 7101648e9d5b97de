import MacroEngine.Routine.Command
import MacroEngine.Number.Whole

/-! The loops and gates that an invocation has entered. Each has a frame that counts the passes
left; a loop that is done gives its frame up, so that a loop around it can run it again, while
a gate keeps its count. -/
namespace MacroEngine
open Number

inductive FrameKind where
  /-- A loop on the first step: its body is the rest of the macro. -/
  | header
  | loop
  | gate
  deriving DecidableEq, Repr

structure Frame where
  /-- The index of the step that owns the frame. -/
  step : Nat
  kind : FrameKind
  total : LoopCount
  remaining : LoopCount
  echo : Bool
  deriving DecidableEq, Repr

/-- The count after one more pass; nothing when none is left. -/
def LoopCount.pass? : LoopCount → Option LoopCount
  | .infinite => some .infinite
  | .finite 0 => none
  | .finite (n + 1) => some (.finite n)

def LoopCount.pred (count : LoopCount) : LoopCount := count.pass?.getD (.finite 0)

/-- A crossing: the frames after it, whether there is another pass, and what can be echoed. -/
structure Crossing where
  frames : List Frame
  again : Bool
  news : Option String
  deriving DecidableEq, Repr

namespace Frames

/-- The frames with one for a step, which is made when it has none. -/
def enter (fresh : Frame) (frames : List Frame) : List Frame :=
  if frames.any fun f => f.step = fresh.step then frames else frames ++ [fresh]

def setRemaining (step : Nat) (count : LoopCount) (frames : List Frame) : List Frame :=
  frames.map fun f => if f.step = step then { f with remaining := count } else f

def remove (step : Nat) (frames : List Frame) : List Frame := frames.eraseP fun f => f.step = step

def left (count : LoopCount) (unit : String) : Option String :=
  match count with
  | .infinite => none
  | .finite n => some (String.ofList (digits n) ++ " " ++ unit ++ " remaining")

def crossGate (step count : Nat) (echo : Bool) (frames : List Frame) : Crossing :=
  let frames := enter ⟨step, .gate, .finite count, .finite count, echo⟩ frames
  match frames.find? fun f => f.step = step with
  | none => ⟨frames, true, none⟩
  | some frame =>
    match frame.remaining.pass? with
    | some rest => ⟨setRemaining step rest frames, true, left rest "crafts"⟩
    | none => ⟨frames, false, some "Craft gate complete"⟩

/-- A loop goes back, or is done and passes on. With `total` its count is that of all passes and
not of the repetitions. -/
def crossLoop (step : Nat) (count : LoopCount) (total echo : Bool) (frames : List Frame) :
    Crossing :=
  let first := if total then count.pred else count
  let frames := enter ⟨step, .loop, count, first, echo⟩ frames
  match frames.find? fun f => f.step = step with
  | none => ⟨frames, false, none⟩
  | some frame =>
    match frame.remaining.pass? with
    | some rest => ⟨setRemaining step rest frames, true, left rest "loops"⟩
    | none => ⟨remove step frames, false, some "Loops complete"⟩

def header? (frames : List Frame) : Option Frame := frames.find? fun f => f.kind = .header

def enterHeader (count : LoopCount) (echo : Bool) (frames : List Frame) : List Frame :=
  if (header? frames).isSome then frames
  else frames ++ [⟨0, .header, count, count.pred, echo⟩]

/-- The end of the steps, which a loop on the first step crosses; it has news if it echoes. -/
def crossEnd (frames : List Frame) : Option Crossing :=
  (header? frames).map fun frame =>
    let news (text : Option String) := if frame.echo then text else none
    match frame.remaining.pass? with
    | some rest => ⟨setRemaining frame.step rest frames, true, news (left rest "loops")⟩
    | none => ⟨frames.eraseP fun f => f.kind = .header, false, news (some "Loops complete")⟩

end Frames
end MacroEngine
