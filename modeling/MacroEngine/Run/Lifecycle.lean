/-! The life of one invocation of a macro: which requests are accepted in which state, and where
they lead. A request that is refused changes nothing. -/
namespace MacroEngine

inductive RunState where
  | idle
  | running
  | pausedNow
  | pausedAtNextLoop
  | stoppedAtNextLoop
  | stopped
  deriving DecidableEq, Repr

namespace RunState

def text : RunState → String
  | .idle => "idle"
  | .running => "running"
  | .pausedNow => "paused"
  | .pausedAtNextLoop => "pausing at next loop"
  | .stoppedAtNextLoop => "stopping at next loop"
  | .stopped => "stopped"

def name : RunState → String
  | .idle => "Idle"
  | .running => "Running"
  | .pausedNow => "PausedNow"
  | .pausedAtNextLoop => "PausedAtNextLoop"
  | .stoppedAtNextLoop => "StoppedAtNextLoop"
  | .stopped => "Stopped"

end RunState

inductive Request where
  | start
  | pause
  | pauseAtLoop
  | resume
  | stop
  | stopAtLoop
  /-- Complete one step, then pause again. -/
  | step
  /-- A loop or a gate was crossed. -/
  | loopBoundary
  /-- There are no steps left. -/
  | finish
  deriving DecidableEq, Repr

def Request.name : Request → String
  | .start => "Start"
  | .pause => "Pause"
  | .pauseAtLoop => "PauseAtLoop"
  | .resume => "Resume"
  | .stop => "Stop"
  | .stopAtLoop => "StopAtLoop"
  | .step => "Step"
  | .loopBoundary => "LoopBoundary"
  | .finish => "Finish"

structure Refusal where
  state : RunState
  request : Request
  deriving DecidableEq, Repr

def Refusal.message (r : Refusal) : String :=
  "cannot " ++ r.request.name ++ " while " ++ r.state.name

def RunState.next? : RunState → Request → Option RunState
  | _, .stop | _, .finish => some .stopped
  | .idle, .start => some .running
  | .running, .pause | .pausedAtNextLoop, .pause => some .pausedNow
  | .running, .pauseAtLoop => some .pausedAtNextLoop
  | .running, .stopAtLoop | .pausedAtNextLoop, .stopAtLoop => some .stoppedAtNextLoop
  | .pausedNow, .resume | .pausedAtNextLoop, .resume => some .running
  | .pausedNow, .step => some .running
  | .running, .loopBoundary => some .running
  | .pausedAtNextLoop, .loopBoundary => some .pausedNow
  | .stoppedAtNextLoop, .loopBoundary => some .stopped
  | _, _ => none

def transition (state : RunState) (request : Request) : Except Refusal RunState :=
  match state.next? request with
  | some next => .ok next
  | none => .error ⟨state, request⟩

/-- A state, and whether to pause again after the step under way. -/
structure Lifecycle where
  state : RunState
  singleStep : Bool
  deriving DecidableEq, Repr

namespace Lifecycle

def fresh : Lifecycle := ⟨.idle, false⟩

/-- The lifecycle after a request that is accepted. Any but the crossing of a loop decides anew
whether a single step is wanted. -/
def next? (c : Lifecycle) (request : Request) : Option Lifecycle :=
  (c.state.next? request).map fun state =>
    ⟨state, if request = .loopBoundary then c.singleStep else decide (request = .step)⟩

def apply (c : Lifecycle) (request : Request) : Lifecycle := (c.next? request).getD c

def request (c : Lifecycle) (request : Request) : Except Refusal RunState × Lifecycle :=
  (transition c.state request, c.apply request)

def started : Lifecycle := fresh.apply .start

/-- After a completed step: a single step ends in a pause. -/
def afterStep (c : Lifecycle) : Lifecycle :=
  if c.singleStep && c.state = .running then ⟨.pausedNow, false⟩ else c

end Lifecycle
end MacroEngine
