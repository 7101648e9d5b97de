import MacroEngine.Routine.Command
import MacroEngine.Script.Program

/-! The game as the engine knows it: what can be seen of it at a moment, and what can be done
to it. A client is any game with states of its own that answers in these terms. -/
namespace MacroEngine
open Script Number

/-- Names an action that was issued, so that its acknowledgement can be asked for. -/
abbrev Ticket := Nat

inductive GameError where
  | notFound (what : String)
  | notAvailable (what : String)
  | timeout (what : String)
  deriving DecidableEq, Repr

def GameError.message : GameError → String
  | .notFound what => "not found: " ++ what
  | .notAvailable what => "not available: " ++ what
  | .timeout what => "timed out: " ++ what

inductive AddonState where
  | missing | hidden | visible
  deriving DecidableEq, Repr

namespace AddonState

def name : AddonState → String
  | .missing => "missing"
  | .hidden => "hidden"
  | .visible => "visible"

def ofName? : String → Option AddonState
  | "missing" => some .missing
  | "hidden" => some .hidden
  | "visible" => some .visible
  | _ => none

end AddonState

/-- What an action has to do with a synthesis; a quality action raises quality and nothing else. -/
inductive ActionCategory where
  | general | crafting | quality
  deriving DecidableEq, Repr

def ActionCategory.isCrafting : ActionCategory → Bool
  | .general => false
  | .crafting | .quality => true

inductive KeyMode where
  | press | hold | release
  deriving DecidableEq, Repr

inductive Order where
  | recipe (name : String)
  | item (name : String) (hq : Bool)
  | target (name : String) (index list : Option Nat)
  | click (button : String)
  | keys (mode : KeyMode) (keys : List String)
  | native (line : String)
  deriving DecidableEq, Repr

structure View where
  isAcknowledged : Ticket → Bool
  isBusy : Bool
  category : String → ActionCategory
  /-- The condition of the synthesis under way. -/
  condition : Option String
  /-- The conditions that the game can report. -/
  conditionNames : List String
  quality : Option Nat
  hqChance : Option Nat
  stats : CraftStats
  needsRepair : Bool
  spiritbondReady : Option Binary64 → Bool
  hasStatus : String → Bool
  /-- None where the game cannot count them. -/
  itemCount : String → Bool → Option Nat
  target : Option String
  addon : String → AddonState

/-- The answer to a query, which is always text, if there is one. -/
def View.answer (view : View) : Query → Option String
  | .status name => some (if view.hasStatus name then "true" else "false")
  | .addon name => some (view.addon name).name
  | .condition => some (view.condition.getD "none")
  | .quality => some ((view.quality.map fun n => String.ofList (digits n)).getD "none")
  | .hqChance => some ((view.hqChance.map fun n => String.ofList (digits n)).getD "none")
  | .item name => (view.itemCount name false).map fun n => String.ofList (digits n)
  | .target => some (view.target.getD "none")

/-- A game with states `γ`. Echoes and error notices are always taken. -/
structure Client (γ : Type) where
  view : γ → Moment → View
  issue : γ → Moment → String → Except GameError Ticket × γ
  perform : γ → Moment → Order → Except GameError Unit × γ
  echo : γ → Moment → String → γ
  notify : γ → Moment → String → γ

end MacroEngine
