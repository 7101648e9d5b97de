import MacroEngine.Run.Fiber
import MacroEngine.Script.Process

/-! Scripts run beside the fiber that executes what they yield. A script hands over one command
line at a time and goes on only with the reply. -/
namespace MacroEngine
open Script

inductive Dialogue where
  | ended (error : Option RunError)
  | yielded (line : String) (next : Option RunError → Dialogue)
  | noted (event : Event) (next : Unit → Dialogue)
  | asked (query : Query) (next : Option String → Dialogue)
  | idle (next : Unit → Dialogue)

namespace Dialogue

/-- What is told of a script whose query has no answer, without the number that its task had. -/
def overflowed : String := "task panicked with message \"attempt to add with overflow\""

/-- A program ends with the first line that fails, and with a query that has no answer. -/
def ofProcess : Process → Dialogue
  | .done _ => .ended none
  | .failed error _ => .ended (some (.script error))
  | .yielded line _ resume => .yielded line fun
    | none => ofProcess (resume ())
    | some error => .ended (some error)
  | .logged text resume => .noted (.logged text) fun _ => ofProcess (resume ())
  | .asked query resume => .asked query fun
    | some answer => ofProcess (resume answer)
    | none => .ended (some (.task overflowed))
  | .looped resume => .idle fun _ => ofProcess (resume ())

def ofProgram (program : Program) : Dialogue := ofProcess (.ofProgram program .empty)

/-- Some lines, one after the other. A line that fails ends the script with its error, unless
the script is told to keep going. -/
def ofLines (keepGoing : Bool) : List String → Dialogue
  | [] => .ended none
  | line :: rest => .yielded line fun error =>
    .noted (.answered line error) fun _ =>
      if error.isNone || keepGoing then ofLines keepGoing rest else .ended error

end Dialogue

inductive Speaker where
  | speaking (dialogue : Dialogue)
  | awaiting (next : Option RunError → Dialogue)

structure Bridge where
  speaker : Speaker
  /-- Yielded and not yet taken. -/
  request : Option String
  /-- Taken and not yet answered. -/
  serving : Option String

namespace Bridge

def start (dialogue : Dialogue) : Bridge := ⟨.speaking dialogue, none, none⟩

def speak? (client : Client γ) (now : Moment) (game : γ) (f : Fiber) (b : Bridge) :
    Option (Fiber × Bridge) :=
  match b.speaker with
  | .awaiting _ => none
  | .speaking (.ended _) => none
  | .speaking (.yielded line next) =>
    if b.request.isNone then
      some (f, { b with speaker := .awaiting next, request := some line })
    else none
  | .speaking (.noted event next) => some (f.log now event, { b with speaker := .speaking (next ()) })
  | .speaking (.asked query next) =>
    some (f, { b with speaker := .speaking (next ((client.view game now).answer query)) })
  | .speaking (.idle next) => some (f, { b with speaker := .speaking (next ()) })

/-- What a yielded line comes to before it is executed: a step to execute, or a reply at once. -/
def readLine (line : String) : Except (Option RunError) Step :=
  match Step.read line with
  | .error e => .error (some (.parse e))
  | .ok none => .error none
  | .ok (some step) =>
    if step.command.isBoundary then
      .error (some (.unsupported step.line step.command.name "scripts loop with repeat"))
    else .ok step

def replyTo : Except RunError Bool → Option RunError
  | .ok false => none
  | .ok true => some .stopped
  | .error e => some e

def reply (error : Option RunError) (b : Bridge) : Bridge :=
  match b.speaker with
  | .awaiting next => { b with speaker := .speaking (next error), serving := none }
  | .speaking _ => { b with serving := none }

def serve? (engine : Engine γ) (now : Moment) (name : String) (game : γ) (f : Fiber) (b : Bridge) :
    Option (γ × Fiber × Bridge) :=
  match b.serving, b.request with
  | none, none => none
  | none, some line =>
    let b := { b with request := none, serving := some line }
    match readLine line with
    | .error error => some (game, f, b.reply error)
    | .ok step => some (game, f.load (.begin name ⟨[step]⟩ Controls.root), b)
  | some _, _ =>
    match f.result? with
    | some result => some (game, f, b.reply (replyTo result))
    | none => (f.step? engine now game).map fun (game, f) => (game, f, b)

def ended? (b : Bridge) : Option (Option RunError) :=
  match b.speaker with
  | .speaking (.ended error) => some error
  | _ => none

end Bridge
end MacroEngine
