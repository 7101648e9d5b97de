import MacroEngine.Run.Controls
import MacroEngine.Run.Course
import MacroEngine.Run.Execution

/-! A stack of invocations and the course of the step that the innermost one is on. Running
another macro pushes an invocation; when it is over, its parent waits the wait of the step that
entered it and goes on with the step after. -/
namespace MacroEngine

structure Invocation where
  name : String
  routine : Routine
  /-- The index of the step that it is on. -/
  cursor : Nat
  frames : List Frame
  control : Handle
  /-- The wait of the step that entered the invocation above this one. -/
  resumeWait : Option WaitSpan
  deriving DecidableEq

def Invocation.begin (name : String) (routine : Routine) (control : Handle) : Invocation :=
  ⟨name, routine, 0, [], control, none⟩

inductive Phase where
  /-- The next step of the innermost invocation comes next. -/
  | ready
  | busy (course : Course Flow)
  /-- The stack is done: whether it was stopped, or the error that ended it. -/
  | ended (result : Except RunError Bool)

structure Fiber where
  /-- Innermost first. -/
  stack : List Invocation
  phase : Phase
  controls : Controls
  draws : Nat
  steps : Nat
  crossings : Nat
  /-- Latest first. -/
  softErrors : List String
  /-- Latest first. -/
  journal : List (Moment × Event)

structure Engine (γ : Type) where
  rules : Rules
  client : Client γ
  draw : WaitSpan.Draw

def Engine.means (engine : Engine γ) : Means γ :=
  ⟨engine.client, engine.rules.config.pollInterval, engine.draw⟩

namespace Fiber

def idle (name : String) : Fiber := ⟨[], .ended (.ok false), .start name, 0, 0, 0, [], []⟩

def load (f : Fiber) (inv : Invocation) : Fiber := { f with stack := [inv], phase := .ready }

def result? (f : Fiber) : Option (Except RunError Bool) :=
  match f.phase with
  | .ended result => some result
  | _ => none

def log (f : Fiber) (now : Moment) (event : Event) : Fiber :=
  { f with journal := (now, event) :: f.journal }

def scene (f : Fiber) (inv : Invocation) (game : γ) : Scene γ :=
  ⟨game, f.controls.lifecycle inv.control, inv.frames, f.draws, f.crossings, f.softErrors,
    f.journal⟩

def withScene (f : Fiber) (inv : Invocation) (below : List Invocation) (s : Scene γ) : Fiber :=
  { f with
    stack := { inv with frames := s.frames } :: below
    controls := f.controls.set inv.control s.control
    draws := s.draws
    crossings := s.crossings
    softErrors := s.softErrors
    journal := s.journal }

def complete (f : Fiber) (now : Moment) (inv : Invocation) : Fiber :=
  match inv.routine.get? inv.cursor with
  | some step => { f with steps := f.steps + 1 }.log now (.completed inv.name step)
  | none => { f with steps := f.steps + 1 }

def advance (f : Fiber) (now : Moment) (inv : Invocation) (below : List Invocation) (target : Nat) :
    Fiber :=
  { f.complete now inv with
    stack := { inv with cursor := target } :: below
    phase := .ready
    controls := f.controls.set inv.control (f.controls.lifecycle inv.control).afterStep }

/-- The innermost invocation is over, and `below` is what is left of the stack. -/
def leave (f : Fiber) (inv : Invocation) (below : List Invocation) (stopped : Bool) : Fiber :=
  match below with
  | [] => { f with stack := [], phase := .ended (.ok stopped) }
  | parent :: rest =>
    { f with
      stack := { parent with resumeWait := none } :: rest
      phase := .busy (.doing (.pause (parent.resumeWait.getD .zero) (.done .next)))
      controls := f.controls.retire inv.control }

def abort (f : Fiber) (error : RunError) : Fiber :=
  { f with
    stack := []
    phase := .ended (.error error)
    controls := f.stack.dropLast.foldl (fun c inv => c.retire inv.control) f.controls }

def enter (f : Fiber) (inv : Invocation) (below : List Invocation) (name : String)
    (routine : Routine) (wait : WaitSpan) : Fiber :=
  { f with
    stack := .begin name routine f.controls.nextHandle ::
      { inv with resumeWait := some wait } :: below
    phase := .ready
    controls := f.controls.enter name }

def chain (f : Fiber) : List String := f.stack.reverse.map Invocation.name

/-- A soft error is reported, and the policy decides what it does. -/
def handleFailure (client : Client γ) (config : Config) (now : Moment) (game : γ) (f : Fiber)
    (inv : Invocation) (below : List Invocation) (site : Site) (error : RunError) : γ × Fiber :=
  if error.isSoft then
    let s := (f.scene inv game).notify client now error.message
    let f := f.withScene inv below s
    match config.onError site with
    | .stop => (s.game, f.abort error)
    | .continue => (s.game, f.advance now inv below (inv.cursor + 1))
  else (game, f.abort error)

/-- The end of the steps of an invocation, which a loop on the first step may send back. -/
def finishSteps (client : Client γ) (now : Moment) (game : γ) (f : Fiber) (inv : Invocation)
    (below : List Invocation) : γ × Fiber :=
  match Frames.crossEnd inv.frames with
  | none => (game, f.leave inv below false)
  | some crossing =>
    let s := (f.scene inv game).mark client now .crossed
    let s := s.mark client now (.frames crossing.frames)
    let s := match crossing.news with
      | some text => { s with game := client.echo s.game now text }.log now (.echoed text)
      | none => s
    let s := s.mark client now .boundary
    let f := f.withScene inv below s
    let inv := { inv with frames := crossing.frames }
    if crossing.again then
      (s.game, { f with stack := { inv with cursor := 0 } :: below, phase := .ready })
    else (s.game, f.leave inv below false)

def begin? (engine : Engine γ) (now : Moment) (game : γ) (f : Fiber) (inv : Invocation)
    (below : List Invocation) : Option (γ × Fiber) :=
  match f.controls.state inv.control with
  | .pausedNow => none
  | .stopped => some (game, f.leave inv below true)
  | _ =>
    match inv.routine.get? inv.cursor with
    | none => some (finishSteps engine.client now game f inv below)
    | some step =>
      let activity := Execution.step engine.rules f.chain inv.cursor inv.frames step
      some (game, { f with phase := .busy (.doing activity) })

def conclude (engine : Engine γ) (now : Moment) (game : γ) (f : Fiber) (inv : Invocation)
    (below : List Invocation) : Course.End Flow → γ × Fiber
  | .value .next => (game, f.advance now inv below (inv.cursor + 1))
  | .value (.jump target) => (game, f.advance now inv below target)
  | .value .finish => (game, (f.complete now inv).leave inv below false)
  | .value (.enter name routine wait) => (game, f.enter inv below name routine wait)
  | .failure site error =>
    handleFailure engine.client engine.rules.config now game f inv below site error
  | .interrupted => (game, f.leave inv below true)

def step? (engine : Engine γ) (now : Moment) (game : γ) (f : Fiber) : Option (γ × Fiber) :=
  match f.stack, f.phase with
  | inv :: below, .ready => begin? engine now game f inv below
  | inv :: below, .busy course =>
    match course.end? with
    | some ending => some (conclude engine now game f inv below ending)
    | none => do
      let (s, course) ← course.step? engine.means now (f.scene inv game)
      pure (s.game, { f.withScene inv below s with phase := .busy course })
  | _, _ => none

def wake? (now : Moment) (f : Fiber) : Option Moment :=
  match f.phase with
  | .busy course => course.wake? now
  | _ => none

end Fiber
end MacroEngine
