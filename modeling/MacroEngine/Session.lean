import MacroEngine.Game.Simulation
import MacroEngine.Routine.Printer
import MacroEngine.Run.Basic
import MacroEngine.Time.Clock

/-! A session: one library and one simulated game, the runs started in it, and a clock. A run
does nothing until time is let pass; then all that is due is done. -/
namespace MacroEngine
open Text Script

structure Session where
  engine : Engine Simulation
  game : Simulation
  now : Moment
  /-- The runs under way, and the one that was started last even when it is over; in the order
  of their start. -/
  runs : List Run

namespace Session

def start (config : Config) (library : Library) (draw : WaitSpan.Draw) (game : Simulation) :
    Session :=
  ⟨⟨⟨config.normalized, library⟩, Simulation.client, draw⟩, game, 0, []⟩

def config (s : Session) : Config := s.engine.rules.config

def library (s : Session) : Library := s.engine.rules.library

def current? (s : Session) : Option Run := s.runs.getLast?

def add (s : Session) (run : Run) : Session :=
  { s with runs := (s.runs.filter fun r => r.outcome.isNone) ++ [run] }

/-- What a library entry is when it is run, with its last loop set if that is wanted. -/
def prepare (library : Library) (name : String) (loops : Option Nat) : Except RunError Run := do
  match (← (library.get name).mapError RunError.library), loops with
  | .native routine, none => pure (.ofRoutine name routine)
  | .native routine, some n =>
    match routine.withLastLoop n with
    | some routine => pure (.ofRoutine name routine)
    | none =>
      throw (.unsupported 0 "loop" (quoted name ++ " has no /loop to set to " ++ toString n))
  | .script program, none => pure (.ofDialogue name (.ofProgram program))
  | .script _, some _ => throw (.unsupported 0 "loop" (quoted name ++ " is a script"))

def run (s : Session) (name : String) (loops : Option Nat) : Except RunError Session := do
  pure (s.add (← prepare s.library name loops))

def craft (s : Session) (name : String) (count : Option Nat) : Except RunError Session := do
  let routine ← (s.library.craftLoop name count s.config.craftLoop).mapError
    RunError.library
  pure (s.add (.ofRoutine name routine))

def bridge (s : Session) (name : String) (lines : List String) (keepGoing : Bool) : Session :=
  s.add (.ofDialogue name (.ofLines keepGoing lines))

def stepRuns? (engine : Engine γ) (now : Moment) (game : γ) :
    List Run → Option (γ × List Run)
  | [] => none
  | r :: rest =>
    match r.step? engine now game with
    | some (game, r) => some (game, r :: rest)
    | none => (stepRuns? engine now game rest).map fun (game, rest) => (game, r :: rest)

def wakeRuns? (now : Moment) (runs : List Run) : Option Moment :=
  (runs.filterMap fun r => r.wake? now).min?

def clockwork (engine : Engine Simulation) : Clockwork (Simulation × List Run) where
  step? := fun now (game, runs) => stepRuns? engine now game runs
  wake? := fun now (_, runs) => wakeRuns? now runs

def passUnless (s : Session) (done : Simulation × List Run → Bool) (limit : Moment) : Session :=
  let (now, game, runs) :=
    (clockwork s.engine).pass done limit Clockwork.ample s.now (s.game, s.runs)
  { s with now := now, game := game, runs := runs }

def advance (s : Session) (millis : Nat) : Session :=
  s.passUnless (fun _ => false) (s.now + millis)

def lastIsOver (state : Simulation × List Run) : Bool :=
  state.2.getLast?.any fun r => r.outcome.isSome

/-- Let time pass until the current run is over, but not more than `millis`; without a run there
is nothing to wait for. -/
def join (s : Session) (millis : Nat) : Session :=
  if s.runs.isEmpty then s else s.passUnless lastIsOver (s.now + millis)

def grant (s : Session) (wish : Controls.Wish) : Option (Except Refusal RunState) × Session :=
  match s.current? with
  | none => (none, s)
  | some run =>
    let (reply, run) := run.grant wish
    (some reply, { s with runs := s.runs.dropLast ++ [run] })

/-- What happened in the runs since this was last asked, in the order of time. -/
def takeJournal (s : Session) : List (Moment × Event) × Session :=
  let taken := s.runs.map Run.takeJournal
  ((taken.flatMap Prod.fst).mergeSort fun a b => a.1 ≤ b.1, { s with runs := taken.map Prod.snd })

def update? (s : Session) (fields : Json) : Option Session :=
  (s.game.update? fields).map fun game => { s with game := game }

end Session
end MacroEngine
