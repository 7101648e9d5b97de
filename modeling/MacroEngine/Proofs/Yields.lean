import MacroEngine.Proofs.Stages
import Mathlib.Algebra.GroupWithZero.Nat
import Mathlib.Data.List.Basic

/-! What a run yields, or a part of one: the steps, the crossings, and all that was reported and
done. Yields follow one another, and in the yield of a macro those of the macros that it calls can
be filled in. -/
namespace MacroEngine

/-- Both lists are oldest first. -/
structure Yield where
  steps : Nat
  crossings : Nat
  softErrors : List String
  events : List Event

def Event.call? : Event → Option String
  | .completed _ ⟨_, .runMacro name, _, _⟩ => some name
  | _ => none

namespace Yield

instance : Append Yield :=
  ⟨fun d d' => ⟨d.steps + d'.steps, d.crossings + d'.crossings, d.softErrors ++ d'.softErrors,
    d.events ++ d'.events⟩⟩

def zero : Yield := ⟨0, 0, [], []⟩

def ofCommand (softErrors : List String) (event : Event) : Yield := ⟨0, 0, softErrors, [event]⟩

def ofStep (name : String) (step : Step) : Yield := ⟨1, 0, [], [.completed name step]⟩

variable {d d' : Yield} {runs : String → Yield}

@[simp] theorem append_steps : (d ++ d').steps = d.steps + d'.steps := rfl
@[simp] theorem append_crossings : (d ++ d').crossings = d.crossings + d'.crossings := rfl
@[simp] theorem append_softErrors : (d ++ d').softErrors = d.softErrors ++ d'.softErrors := rfl
@[simp] theorem append_events : (d ++ d').events = d.events ++ d'.events := rfl

@[ext] theorem ext (hsteps : d.steps = d'.steps) (hcrossings : d.crossings = d'.crossings)
    (hsoft : d.softErrors = d'.softErrors) (hevents : d.events = d'.events) : d = d' := by
  cases d
  cases d'
  subst hsteps hcrossings hsoft hevents
  rfl

theorem append_assoc (d d' d'' : Yield) : d ++ d' ++ d'' = d ++ (d' ++ d'') := by
  ext1 <;> simp [Nat.add_assoc]

theorem append_cancel {d'' : Yield} (h : d ++ d' = d ++ d'') : d' = d'' := by
  have hsteps := congrArg steps h
  have hcrossings := congrArg crossings h
  have hsoft := congrArg softErrors h
  have hevents := congrArg events h
  simp only [append_steps, append_crossings, append_softErrors, append_events,
    Nat.add_left_cancel_iff, List.append_cancel_left_eq] at hsteps hcrossings hsoft hevents
  exact ext hsteps hcrossings hsoft hevents

theorem append_cancel_right {d'' : Yield} (h : d ++ d'' = d' ++ d'') : d = d' := by
  have hsteps := congrArg steps h
  have hcrossings := congrArg crossings h
  have hsoft := congrArg softErrors h
  have hevents := congrArg events h
  simp only [append_steps, append_crossings, append_softErrors, append_events,
    Nat.add_right_cancel_iff, List.append_cancel_right_eq] at hsteps hcrossings hsoft hevents
  exact ext hsteps hcrossings hsoft hevents

def calls (d : Yield) : List String := d.events.filterMap Event.call?

def commands (d : Yield) : List Event := d.events.filter Event.isCommand

def fill (runs : String → Yield) (event : Event) : List Event :=
  match event.call? with
  | some name => (runs name).events ++ [event]
  | none => [event]

def sent (runs : String → Yield) (event : Event) : List Event :=
  match event.call? with
  | some name => (runs name).commands
  | none => [event].filter Event.isCommand

def expand (runs : String → Yield) (d : Yield) : Yield where
  steps := d.steps + (d.calls.map fun name => (runs name).steps).sum
  crossings := d.crossings + (d.calls.map fun name => (runs name).crossings).sum
  softErrors := d.softErrors
  events := d.events.flatMap (fill runs)

theorem calls_append (d d' : Yield) : (d ++ d').calls = d.calls ++ d'.calls := by
  simp [calls]

theorem expand_append (runs : String → Yield) (d d' : Yield) :
    (d ++ d').expand runs = d.expand runs ++ d'.expand runs := by
  ext1
  · simp only [expand, calls_append, List.map_append, List.sum_append, append_steps]
    omega
  · simp only [expand, calls_append, List.map_append, List.sum_append, append_crossings]
    omega
  · rfl
  · simp [expand]

theorem expand_of_no_calls (h : ∀ event ∈ d.events, event.call? = none) : d.expand runs = d := by
  have hcalls : d.calls = [] := List.filterMap_eq_nil_iff.mpr h
  ext1
  · simp [expand, hcalls]
  · simp [expand, hcalls]
  · rfl
  · calc (d.expand runs).events = d.events.flatMap fun event => [event] :=
        List.flatMap_congr fun event he => by simp only [fill, h event he]
      _ = d.events := List.flatMap_singleton' _

theorem call?_of_isCommand {event : Event} (h : event.isCommand) : event.call? = none := by
  cases event with
  | completed => cases h
  | _ => rfl

theorem call?_completed {name : String} {step : Step}
    (h : ∀ called, step.command ≠ .runMacro called) :
    (Event.completed name step).call? = none := by
  obtain ⟨line, command, rawArgs, modifiers⟩ := step
  cases command with
  | runMacro called => exact (h called rfl).elim
  | _ => rfl

theorem call?_called {name called : String} {step : Step} (h : step.command = .runMacro called) :
    (Event.completed name step).call? = some called := by
  obtain ⟨line, command, rawArgs, modifiers⟩ := step
  cases h
  rfl

/-- A call that is completed is preceded by what the macro yields. -/
theorem expand_call {name called : String} {step : Step} (h : step.command = .runMacro called)
    (hsoft : (runs called).softErrors = []) :
    (ofStep name step).expand runs = runs called ++ ofStep name step := by
  have hcalls : (ofStep name step).calls = [called] := by
    simp [calls, ofStep, call?_called h]
  ext1
  · simp only [expand, hcalls]
    simp [ofStep, Nat.add_comm]
  · simp only [expand, hcalls]
    simp [ofStep]
  · simp [expand, ofStep, hsoft]
  · simp [expand, fill, ofStep, call?_called h]

theorem commands_fill (runs : String → Yield) (event : Event) :
    (fill runs event).filter Event.isCommand = sent runs event := by
  unfold fill sent
  cases hcall : event.call? with
  | none => rfl
  | some name =>
    have hno : event.isCommand = false := by
      by_contra hyes
      rw [call?_of_isCommand (by simpa using hyes)] at hcall
      cases hcall
    simp [commands, hno]

theorem commands_expand (runs : String → Yield) (d : Yield) :
    (d.expand runs).commands = d.events.flatMap (sent runs) := by
  simp only [commands, expand, List.filter_flatMap, commands_fill]

end Yield

namespace Account

def yield (a : Account γ) : Yield := ⟨a.steps, a.crossings, a.softErrors.reverse, a.events.reverse⟩

def plus (a : Account γ) (d : Yield) (game : γ) : Account γ :=
  ⟨game, a.steps + d.steps, a.crossings + d.crossings, d.softErrors.reverse ++ a.softErrors,
    d.events.reverse ++ a.events⟩

theorem plus_plus (a : Account γ) (d d' : Yield) (game game' : γ) :
    (a.plus d game).plus d' game' = a.plus (d ++ d') game' := by
  simp [plus, Nat.add_assoc]

@[simp] theorem yield_plus (a : Account γ) (d : Yield) (game : γ) :
    (a.plus d game).yield = a.yield ++ d := by
  ext1 <;> simp [yield, plus]

end Account

namespace Stage

variable {a : Account γ} {level : Level}

theorem complete_eq {step : Step} (h : level.routine.get? level.cursor = some step)
    (a : Account γ) :
    complete a level = a.plus (.ofStep level.name step) a.game := by
  simp only [complete, h]
  rfl

theorem cross_eq (client : Client γ) (a : Account γ) (crossing : Crossing) : ∃ game,
    cross client a crossing = a.plus ⟨0, 1, [], crossing.news.toList.map .echoed⟩ game := by
  unfold cross
  cases crossing.news with
  | none => exact ⟨a.game, rfl⟩
  | some text => exact ⟨_, rfl⟩

end Stage
end MacroEngine
