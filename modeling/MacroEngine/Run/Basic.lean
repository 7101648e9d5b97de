import MacroEngine.Run.Bridge

/-! A run: a macro or a script on a fiber of its own, from its start to its outcome. -/
namespace MacroEngine

structure Report where
  macroName : String
  stepsExecuted : Nat
  loopCrossings : Nat
  /-- In the order in which they were reported. -/
  softErrors : List String
  stoppedByUser : Bool
  deriving DecidableEq, Repr

structure Outcome where
  result : Except RunError Report
  ended : Moment

structure Run where
  name : String
  fiber : Fiber
  /-- The script, in a run of one. -/
  bridge : Option Bridge
  outcome : Option Outcome

namespace Run

def ofRoutine (name : String) (routine : Routine) : Run :=
  ⟨name, (Fiber.idle name).load (.begin name routine Controls.root), none, none⟩

def ofDialogue (name : String) (dialogue : Dialogue) : Run :=
  ⟨name, .idle name, some (.start dialogue), none⟩

def report (r : Run) (stopped : Bool) : Report :=
  ⟨r.name, r.fiber.steps, r.fiber.crossings, r.fiber.softErrors.reverse, stopped⟩

/-- The run is over; so is its outermost invocation. -/
def finish (r : Run) (now : Moment) (result : Except RunError Report) : Run :=
  { r with
    fiber := { r.fiber with controls := r.fiber.controls.apply Controls.root .finish }
    outcome := some ⟨result, now⟩ }

/-- The result of a script. Being stopped is no error. -/
def scriptResult (r : Run) (error : Option RunError) : Except RunError Report :=
  match error with
  | none => .ok (r.report (decide (r.fiber.controls.state Controls.root = .stopped)))
  | some .stopped => .ok (r.report true)
  | some e => .error e

/-- One small step, if there is one to take now. A script speaks as long as it can. -/
def step? (engine : Engine γ) (now : Moment) (game : γ) (r : Run) : Option (γ × Run) :=
  if r.outcome.isSome then none
  else match r.bridge with
    | none =>
      match r.fiber.result? with
      | some result => some (game, r.finish now (result.map r.report))
      | none => (r.fiber.step? engine now game).map fun (game, f) => (game, { r with fiber := f })
    | some bridge =>
      match bridge.ended? with
      | some error => some (game, r.finish now (r.scriptResult error))
      | none =>
        match bridge.speak? engine.client now game r.fiber with
        | some (f, b) => some (game, { r with fiber := f, bridge := some b })
        | none =>
          (bridge.serve? engine now r.name game r.fiber).map fun (game, f, b) =>
            (game, { r with fiber := f, bridge := some b })

def wake? (now : Moment) (r : Run) : Option Moment :=
  if r.outcome.isSome then none else r.fiber.wake? now

def state (r : Run) : RunState := r.fiber.controls.state Controls.root

def invocations (r : Run) : List (String × RunState) := r.fiber.controls.invocations

def grant (r : Run) (wish : Controls.Wish) : Except Refusal RunState × Run :=
  let (reply, controls) := r.fiber.controls.grant wish
  (reply, { r with fiber := { r.fiber with controls := controls } })

def takeJournal (r : Run) : List (Moment × Event) × Run :=
  (r.fiber.journal.reverse, { r with fiber := { r.fiber with journal := [] } })

end Run
end MacroEngine
