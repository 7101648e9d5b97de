import MacroEngine.Routine.Modifiers

/-! The commands of a macro. -/
namespace MacroEngine

inductive LoopCount where
  | infinite
  | finite (n : Nat)
  deriving DecidableEq, Repr

structure CraftStats where
  craftsmanship : Nat := 0
  control : Nat := 0
  cp : Nat := 0
  deriving DecidableEq, Repr

def CraftStats.meets (stats required : CraftStats) : Bool :=
  required.craftsmanship ≤ stats.craftsmanship && required.control ≤ stats.control &&
    required.cp ≤ stats.cp

inductive Command where
  | action (name : String)
  | click (button : String)
  | craft (count : Nat)
  | loop (count : LoopCount)
  | recipe (name : String)
  | require (status : String)
  | requireQuality (least : Nat)
  | requireRepair
  | requireSpiritbond (below : Option Binary64)
  | requireStats (least : CraftStats)
  | item (name : String)
  | runMacro (name : String)
  | send (keys : List String)
  | hold (keys : List String)
  | release (keys : List String)
  | target (name : String)
  | waitAddon (name : String)
  | wait (span : WaitSpan)
  | echo (text : String)
  /-- A command that is not one of the others, given to the game as typed. -/
  | native (name : String)
  deriving DecidableEq

namespace Command

def name : Command → String
  | .action _ => "action"
  | .click _ => "click"
  | .craft _ => "craft"
  | .loop _ => "loop"
  | .recipe _ => "recipe"
  | .require _ => "require"
  | .requireQuality _ => "requirequality"
  | .requireRepair => "requirerepair"
  | .requireSpiritbond _ => "requirespiritbond"
  | .requireStats _ => "requirestats"
  | .item _ => "item"
  | .runMacro _ => "runmacro"
  | .send _ => "send"
  | .hold _ => "hold"
  | .release _ => "release"
  | .target _ => "target"
  | .waitAddon _ => "waitaddon"
  | .wait _ => "wait"
  | .echo _ => "echo"
  | .native name => name

def accepted : Command → List ModifierKind
  | .action _ => [.wait, .condition, .unconfirmed]
  | .craft _ | .loop _ => [.wait, .echo]
  | .require _ | .requireQuality _ | .requireStats _ | .waitAddon _ => [.wait, .maxWait]
  | .item _ => [.wait, .hq]
  | .target _ => [.wait, .index, .list]
  | .wait _ => []
  | _ => [.wait]

def accepts (command : Command) (kind : ModifierKind) : Bool := command.accepted.contains kind

/-- Loops and gates are the places where a macro may be paused or stopped between passes. -/
def isBoundary : Command → Bool
  | .loop _ | .craft _ => true
  | _ => false

def isLoop : Command → Bool
  | .loop _ => true
  | _ => false

end Command

structure Step where
  line : Nat
  command : Command
  rawArgs : String
  modifiers : Modifiers
  deriving DecidableEq

structure Routine where
  steps : List Step
  deriving DecidableEq

def Routine.get? (routine : Routine) (i : Nat) : Option Step := routine.steps[i]?

end MacroEngine
