import MacroEngine.Game.Trace
import MacroEngine.Game.World

/-! A game played by a world and a trace of what was done to it. An action gets the next ticket;
a ticket is acknowledged some time after its issue while it is one of the latest. -/
namespace MacroEngine

inductive Deed where
  | action (name : String)
  | recipe (name : String)
  | item (name : String) (hq : Bool)
  | target (name : String) (index : Option Nat)
  | click (button : String)
  | keys (mode : KeyMode) (keys : List String)
  | native (line : String)
  | echo (text : String)
  | error (text : String)
  deriving DecidableEq, Repr

def KeyMode.verb : KeyMode → String
  | .press => "send"
  | .hold => "hold"
  | .release => "release"

def Deed.text : Deed → String
  | .action name => "action " ++ name
  | .recipe name => "recipe " ++ name
  | .item name hq => "item " ++ name ++ if hq then " hq" else ""
  | .target name index =>
    "target " ++ name ++ ((index.map fun i => " #" ++ toString i).getD "")
  | .click button => "click " ++ button
  | .keys mode names => mode.verb ++ " " ++ String.intercalate "+" names
  | .native line => "native " ++ line
  | .echo text => "echo " ++ text
  | .error text => "error " ++ text

def Deed.echo? : Deed → Option String
  | .echo text => some text
  | _ => none

structure Simulation where
  world : World
  trace : Trace Deed
  /-- The tickets that can still be acknowledged, latest first, with the moments of issue. -/
  issued : List (Ticket × Moment)
  nextTicket : Ticket

namespace Simulation

/-- How many of the latest tickets can be acknowledged. -/
def liveTickets : Nat := 256

def defaultTraceLimit : Nat := 4096

def ofWorld (world : World) (traceLimit : Option Nat) : Simulation :=
  ⟨world, .empty traceLimit, [], 1⟩

def record (s : Simulation) (deed : Deed) : Simulation := { s with trace := s.trace.push deed }

def deeds (s : Simulation) : List Deed := s.trace.toList

def countDeeds (s : Simulation) (start : String) : Nat :=
  s.deeds.countP fun deed => start.toList.isPrefixOf deed.text.toList

def echoes (s : Simulation) : List String := s.deeds.filterMap Deed.echo?

def issue (s : Simulation) (now : Moment) (action : String) : Except GameError Ticket × Simulation :=
  if World.known s.world.actions action then
    let ticket := s.nextTicket
    let live := s.issued.filter fun e => ticket - e.1 < liveTickets
    (.ok ticket,
      { s with issued := (ticket, now) :: live, nextTicket := ticket + 1 }.record (.action action))
  else (.error (.notFound ("action " ++ action)), s)

def isAcknowledged (s : Simulation) (now : Moment) (ticket : Ticket) : Bool :=
  s.world.acknowledgeActions && s.world.dropFirstAcks < ticket &&
    match s.issued.lookup ticket with
    | some since => s.world.ackDelayMs ≤ now - since
    | none => false

def refuse (s : Simulation) (error : GameError) : Except GameError Unit × Simulation :=
  (.error error, s)

def accept (s : Simulation) (deed : Deed) : Except GameError Unit × Simulation :=
  (.ok (), s.record deed)

/-- One of an item is used up, if there is one of the wanted quality and it can be used. -/
def useItem (s : Simulation) (name : String) (hq : Bool) : Except GameError Unit × Simulation :=
  match World.find? s.world.inventory name with
  | none => s.refuse (.notFound ("item " ++ name))
  | some stack =>
    if !stack.usable then s.refuse (.notAvailable ("item " ++ name))
    else if (if hq then stack.hq else stack.nq) = 0 then
      s.refuse (.notFound ("item " ++ name ++ if hq then " (hq)" else ""))
    else
      let left := if hq then { stack with hq := stack.hq - 1 } else { stack with nq := stack.nq - 1 }
      let inventory := World.replace s.world.inventory name left
      { s with world := { s.world with inventory := inventory } }.accept (.item name hq)

def perform (s : Simulation) : Order → Except GameError Unit × Simulation
  | .recipe name =>
    if World.known s.world.recipes name then s.accept (.recipe name)
    else s.refuse (.notFound ("recipe " ++ name))
  | .item name hq => s.useItem name hq
  | .target name index list =>
    match s.world.findTarget? name list with
    | some found =>
      { s with world := { s.world with target := some found } }.accept (.target found index)
    | none => s.refuse (.notFound ("target " ++ name))
  | .click button => s.accept (.click button)
  | .keys mode keys => s.accept (.keys mode keys)
  | .native line => s.accept (.native line)

def view (s : Simulation) (now : Moment) : View where
  isAcknowledged := s.isAcknowledged now
  isBusy := s.world.busy
  category := s.world.category
  condition := s.world.condition
  conditionNames := s.world.conditionNames
  quality := s.world.quality
  hqChance := if s.world.condition.isSome then s.world.hqChance else none
  stats := s.world.stats
  needsRepair := s.world.brokenGear
  spiritbondReady := s.world.spiritbondReady
  hasStatus := World.listed s.world.statuses
  itemCount := s.world.itemCount
  target := s.world.target
  addon := fun name => (World.find? s.world.addons name).getD .missing

def client : Client Simulation where
  view := view
  issue := issue
  perform := fun s _ order => s.perform order
  echo := fun s _ text => s.record (.echo text)
  notify := fun s _ text => s.record (.error text)

def update? (s : Simulation) (fields : Json) : Option Simulation :=
  (s.world.update? fields).map fun world => { s with world := world }

end Simulation
end MacroEngine
