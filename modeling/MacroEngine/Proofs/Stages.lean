import MacroEngine.Run.Fiber
import Mathlib.Logic.Function.Iterate

/-! A run without its clock and its controls. Waits are over at once, with what they wait for
found or not, and each step of an invocation is one stride from one stage of the run to the next. -/
namespace MacroEngine

def Event.isCommand : Event → Bool
  | .issued _ | .performed _ | .echoed _ | .notified _ => true
  | _ => false

def commands (journal : List (Moment × Event)) : List Event :=
  (journal.reverse.map Prod.snd).filter Event.isCommand

structure Account (γ : Type) where
  game : γ
  steps : Nat
  crossings : Nat
  /-- Latest first. -/
  softErrors : List String
  /-- Latest first. -/
  events : List Event

namespace Account

def log (a : Account γ) (event : Event) : Account γ := { a with events := event :: a.events }

def notify (client : Client γ) (a : Account γ) (text : String) : Account γ :=
  { a with
    game := client.notify a.game 0 text
    softErrors := text :: a.softErrors
    events := .notified text :: a.events }

def echo (client : Client γ) (a : Account γ) (text : String) : Account γ :=
  { a with game := client.echo a.game 0 text }.log (.echoed text)

/-- Nothing that was reported or done is undone. -/
structure Upto (a b : Account γ) : Prop where
  softErrors : a.softErrors <:+ b.softErrors
  events : a.events <:+ b.events

variable {a b c : Account γ}

theorem Upto.refl (a : Account γ) : a.Upto a := ⟨List.suffix_rfl, List.suffix_rfl⟩

theorem Upto.trans (h : a.Upto b) (h' : b.Upto c) : a.Upto c :=
  ⟨h.softErrors.trans h'.softErrors, h.events.trans h'.events⟩

theorem upto_notify (client : Client γ) (a : Account γ) (text : String) :
    a.Upto (a.notify client text) :=
  ⟨List.suffix_cons _ _, List.suffix_cons _ _⟩

theorem upto_echo (client : Client γ) (a : Account γ) (text : String) :
    a.Upto (a.echo client text) :=
  ⟨List.suffix_rfl, List.suffix_cons _ _⟩

end Account

structure Played (γ α : Type) where
  account : Account γ
  frames : List Frame
  ending : Course.End α

def Activity.play (client : Client γ) : Activity α → Account γ → List Frame → Played γ α
  | .done value, a, frames => ⟨a, frames, .value value⟩
  | .fail site error, a, frames => ⟨a, frames, .failure site error⟩
  | .look next, a, frames => (next (client.view a.game 0)).play client a frames
  | .issue action next, a, frames =>
    (next (client.issue a.game 0 action).1).play client
      ({ a with game := (client.issue a.game 0 action).2 }.log (.issued action)) frames
  | .perform order next, a, frames =>
    (next (client.perform a.game 0 order).1).play client
      ({ a with game := (client.perform a.game 0 order).2 }.log (.performed order)) frames
  | .echo text next, a, frames => next.play client (a.echo client text) frames
  | .mark .crossed next, a, frames =>
    next.play client { a with crossings := a.crossings + 1 } frames
  | .mark (.frames frames) next, a, _ => next.play client a frames
  | .mark .boundary next, a, frames => next.play client a frames
  | .mark (.held reason) next, a, frames =>
    next.play client (a.notify client (reason ++ "; macro paused")) frames
  | .pause _ next, a, frames => next.play client a frames
  | .await holds _ next, a, frames => (next (holds (client.view a.game 0))).play client a frames

def Course.play (client : Client γ) : Course α → Account γ → List Frame → Played γ α
  | .doing activity, a, frames => activity.play client a frames
  | .waiting _ holds next, a, frames =>
    (next (holds (client.view a.game 0))).play client a frames
  | .interrupted, a, frames => ⟨a, frames, .interrupted⟩

theorem Activity.upto_play (client : Client γ) (activity : Activity α) :
    ∀ (a : Account γ) (frames : List Frame), a.Upto (activity.play client a frames).account := by
  induction activity with
  | done | fail => exact fun a _ => .refl a
  | look next ih | await holds limit next ih => exact fun a frames => ih _ a frames
  | issue action next ih =>
    intro a frames
    have hlog : a.Upto ({ a with game := (client.issue a.game 0 action).2 }.log (.issued action)) :=
      ⟨List.suffix_rfl, List.suffix_cons _ _⟩
    exact hlog.trans (ih _ _ frames)
  | perform order next ih =>
    intro a frames
    have hlog : a.Upto ({ a with game := (client.perform a.game 0 order).2 }.log
        (.performed order)) := ⟨List.suffix_rfl, List.suffix_cons _ _⟩
    exact hlog.trans (ih _ _ frames)
  | echo text next ih => exact fun a frames => (Account.upto_echo client a text).trans (ih _ frames)
  | pause span next ih => exact ih
  | mark m next ih =>
    intro a frames
    cases m with
    | crossed =>
      have hcrossed : a.Upto { a with crossings := a.crossings + 1 } :=
        ⟨List.suffix_rfl, List.suffix_rfl⟩
      exact hcrossed.trans (ih _ frames)
    | frames frames => exact ih a frames
    | boundary => exact ih a frames
    | held reason => exact (Account.upto_notify client a _).trans (ih _ frames)

theorem Course.upto_play (client : Client γ) (c : Course α) (a : Account γ) (frames : List Frame) :
    a.Upto (c.play client a frames).account := by
  cases c with
  | doing activity => exact activity.upto_play client a frames
  | waiting wait holds next => exact (next _).upto_play client a frames
  | interrupted => exact .refl a

structure Level where
  name : String
  routine : Routine
  cursor : Nat
  frames : List Frame
  deriving DecidableEq

/-- Between two steps: the invocations, innermost first, or how the stack ended. -/
structure Stage (γ : Type) where
  account : Account γ
  levels : List Level
  ended : Option (Except RunError Bool)

namespace Stage

variable {engine : Engine γ} {a : Account γ} {level : Level} {below : List Level}

def start (game : γ) (name : String) (routine : Routine) : Stage γ :=
  ⟨⟨game, 0, 0, [], []⟩, [⟨name, routine, 0, []⟩], none⟩

def complete (a : Account γ) (level : Level) : Account γ :=
  match level.routine.get? level.cursor with
  | some step => { a with steps := a.steps + 1 }.log (.completed level.name step)
  | none => { a with steps := a.steps + 1 }

def advance (a : Account γ) (level : Level) (below : List Level) (target : Nat) : Stage γ :=
  ⟨complete a level, { level with cursor := target } :: below, none⟩

def leave (a : Account γ) (below : List Level) (stopped : Bool) : Stage γ :=
  match below with
  | [] => ⟨a, [], some (.ok stopped)⟩
  | parent :: rest => advance a parent rest (parent.cursor + 1)

def handleFailure (engine : Engine γ) (a : Account γ) (level : Level) (below : List Level)
    (site : Site) (error : RunError) : Stage γ :=
  if error.isSoft then
    match engine.rules.config.onError site with
    | .stop => ⟨a.notify engine.client error.message, [], some (.error error)⟩
    | .continue => advance (a.notify engine.client error.message) level below (level.cursor + 1)
  else ⟨a, [], some (.error error)⟩

def conclude (engine : Engine γ) (a : Account γ) (level : Level) (below : List Level) :
    Course.End Flow → Stage γ
  | .value .next => advance a level below (level.cursor + 1)
  | .value (.jump target) => advance a level below target
  | .value .finish => leave (complete a level) below false
  | .value (.enter name routine _) => ⟨a, ⟨name, routine, 0, []⟩ :: level :: below, none⟩
  | .failure site error => handleFailure engine a level below site error
  | .interrupted => leave a below true

def cross (client : Client γ) (a : Account γ) (crossing : Crossing) : Account γ :=
  let a := { a with crossings := a.crossings + 1 }
  match crossing.news with
  | some text => a.echo client text
  | none => a

def finishSteps (client : Client γ) (a : Account γ) (level : Level) (below : List Level) :
    Stage γ :=
  match Frames.crossEnd level.frames with
  | none => leave a below false
  | some crossing =>
    let a := cross client a crossing
    if crossing.again then ⟨a, { level with frames := crossing.frames, cursor := 0 } :: below, none⟩
    else leave a below false

def chain (levels : List Level) : List String := levels.reverse.map Level.name

def playStep (engine : Engine γ) (a : Account γ) (level : Level) (below : List Level)
    (step : Step) : Played γ Flow :=
  (Execution.step engine.rules (chain (level :: below)) level.cursor level.frames step).play
    engine.client a level.frames

/-- The next step of the innermost invocation, or the end of its steps. -/
def stride (engine : Engine γ) (s : Stage γ) : Stage γ :=
  match s.levels with
  | [] => s
  | level :: below =>
    match level.routine.get? level.cursor with
    | none => finishSteps engine.client s.account level below
    | some step =>
      let played := playStep engine s.account level below step
      conclude engine played.account { level with frames := played.frames } below played.ending

theorem upto_complete (a : Account γ) (level : Level) : a.Upto (complete a level) := by
  unfold complete
  split
  · exact ⟨List.suffix_rfl, List.suffix_cons _ _⟩
  · exact ⟨List.suffix_rfl, List.suffix_rfl⟩

theorem upto_leave (a : Account γ) (below : List Level) (stopped : Bool) :
    a.Upto (leave a below stopped).account := by
  cases below with
  | nil => exact .refl a
  | cons parent rest => exact upto_complete a parent

theorem upto_handleFailure (engine : Engine γ) (a : Account γ) (level : Level)
    (below : List Level) (site : Site) (error : RunError) :
    a.Upto (handleFailure engine a level below site error).account := by
  have hnotify := Account.upto_notify engine.client a error.message
  unfold handleFailure
  split
  · split
    · exact hnotify
    · exact hnotify.trans (upto_complete _ level)
  · exact .refl a

theorem upto_conclude (engine : Engine γ) (a : Account γ) (level : Level) (below : List Level)
    (ending : Course.End Flow) : a.Upto (conclude engine a level below ending).account := by
  match ending with
  | .value .next => exact upto_complete a level
  | .value (.jump target) => exact upto_complete a level
  | .value .finish => exact (upto_complete a level).trans (upto_leave _ below false)
  | .value (.enter ..) => exact .refl a
  | .failure site error => exact upto_handleFailure engine a level below site error
  | .interrupted => exact upto_leave a below true

theorem upto_cross (client : Client γ) (a : Account γ) (crossing : Crossing) :
    a.Upto (cross client a crossing) := by
  unfold cross
  dsimp only
  split
  · exact ⟨List.suffix_rfl, List.suffix_cons _ _⟩
  · exact ⟨List.suffix_rfl, List.suffix_rfl⟩

theorem upto_finishSteps (client : Client γ) (a : Account γ) (level : Level) (below : List Level) :
    a.Upto (finishSteps client a level below).account := by
  unfold finishSteps
  split
  · exact upto_leave a below false
  · dsimp only
    split
    · exact upto_cross client a _
    · exact (upto_cross client a _).trans (upto_leave _ below false)

theorem upto_stride (engine : Engine γ) (s : Stage γ) :
    s.account.Upto (s.stride engine).account := by
  unfold stride
  split
  · exact .refl _
  · rename_i level below _
    split
    · exact upto_finishSteps engine.client s.account level below
    · exact (Activity.upto_play _ _ _ _).trans (upto_conclude ..)

def after (engine : Engine γ) (s : Stage γ) (k : Nat) : Stage γ := (stride engine)^[k] s

theorem after_one (engine : Engine γ) (s : Stage γ) : s.after engine 1 = s.stride engine := rfl

theorem after_succ (engine : Engine γ) (s : Stage γ) (k : Nat) :
    s.after engine (k + 1) = (s.after engine k).stride engine :=
  Function.iterate_succ_apply' _ _ _

theorem after_add (engine : Engine γ) (s : Stage γ) (k l : Nat) :
    s.after engine (k + l) = (s.after engine k).after engine l := by
  unfold after
  rw [Nat.add_comm, Function.iterate_add_apply]

theorem upto_after (engine : Engine γ) (s : Stage γ) {k l : Nat} (h : k ≤ l) :
    (s.after engine k).account.Upto (s.after engine l).account := by
  obtain ⟨n, rfl⟩ := Nat.exists_eq_add_of_le h
  clear h
  induction n with
  | zero => exact .refl _
  | succ n ih =>
    rw [← Nat.add_assoc, after_succ]
    exact ih.trans (upto_stride engine _)

end Stage
end MacroEngine
