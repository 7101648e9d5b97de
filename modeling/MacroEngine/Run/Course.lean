import MacroEngine.Run.Activity
import MacroEngine.Run.Wait

/-! How an activity runs, in small steps. A step takes no time; where none can be taken the
activity is over, interrupted, or waiting for time to pass or for a request. -/
namespace MacroEngine

inductive Event where
  | issued (action : String)
  | performed (order : Order)
  | echoed (text : String)
  | notified (text : String)
  /-- An invocation completed a step. -/
  | completed (name : String) (step : Step)
  | logged (text : String)
  /-- A line of a script was executed. -/
  | answered (line : String) (error : Option RunError)
  deriving DecidableEq

structure Means (γ : Type) where
  client : Client γ
  poll : Duration
  draw : WaitSpan.Draw

structure Scene (γ : Type) where
  game : γ
  control : Lifecycle
  frames : List Frame
  draws : Nat
  crossings : Nat
  /-- Latest first. -/
  softErrors : List String
  /-- Latest first. -/
  journal : List (Moment × Event)

namespace Scene

def log (s : Scene γ) (now : Moment) (event : Event) : Scene γ :=
  { s with journal := (now, event) :: s.journal }

def notify (client : Client γ) (now : Moment) (text : String) (s : Scene γ) : Scene γ :=
  { s with
    game := client.notify s.game now text
    softErrors := text :: s.softErrors
    journal := (now, .notified text) :: s.journal }

def mark (client : Client γ) (now : Moment) (s : Scene γ) : Mark → Scene γ
  | .crossed => { s with crossings := s.crossings + 1 }
  | .frames frames => { s with frames := frames }
  | .boundary => { s with control := s.control.apply .loopBoundary }
  | .held reason =>
    let s := s.notify client now (reason ++ "; macro paused")
    { s with control := s.control.apply .pause }

end Scene

inductive Course (α : Type) where
  | doing (activity : Activity α)
  | waiting (wait : Wait) (holds : View → Bool) (next : Bool → Activity α)
  | interrupted

namespace Course

def proceed? (means : Means γ) (now : Moment) (s : Scene γ) : Activity α → Option (Scene γ × Course α)
  | .done _ | .fail _ _ => none
  | .look next => some (s, .doing (next (means.client.view s.game now)))
  | .issue action next =>
    let (reply, game) := means.client.issue s.game now action
    some ({ s with game := game }.log now (.issued action), .doing (next reply))
  | .perform order next =>
    let (reply, game) := means.client.perform s.game now order
    some ({ s with game := game }.log now (.performed order), .doing (next reply))
  | .echo text next =>
    some ({ s with game := means.client.echo s.game now text }.log now (.echoed text), .doing next)
  | .mark mark next => some (s.mark means.client now mark, .doing next)
  | .pause span next =>
    if span.isZero then some (s, .doing next)
    else
      let draws := if span.isOpen then s.draws + 1 else s.draws
      some ({ s with draws := draws },
        .waiting (.start now (span.sample means.draw s.draws)) (fun _ => false) fun _ => next)
  | .await holds limit next => some (s, .waiting (.start now limit) holds next)

def step? (means : Means γ) (now : Moment) (s : Scene γ) : Course α → Option (Scene γ × Course α)
  | .interrupted => none
  | .doing activity => proceed? means now s activity
  | .waiting wait holds next =>
    match wait.readiness s.control.state now with
    | .asleep | .held => none
    | .interrupted => some (s, .interrupted)
    | .due =>
      match wait.verdict means.poll now (holds (means.client.view s.game now)) with
      | .met => some (s, .doing (next true))
      | .late => some (s, .doing (next false))
      | .again wait => some (s, .waiting wait holds next)

def wake? (now : Moment) : Course α → Option Moment
  | .waiting wait _ _ => if now < wait.wake then some wait.wake else none
  | _ => none

inductive End (α : Type) where
  | value (value : α)
  | failure (site : Site) (error : RunError)
  | interrupted

def end? : Course α → Option (End α)
  | .doing (.done value) => some (.value value)
  | .doing (.fail site error) => some (.failure site error)
  | .interrupted => some .interrupted
  | _ => none

end Course
end MacroEngine
