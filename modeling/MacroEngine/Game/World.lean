import MacroEngine.Config
import MacroEngine.Game.Basic
import MacroEngine.Json.Reader
import MacroEngine.Routine.Resolution

/-! The world of a simulated game: plain data that can be written in JSON. Names in it are the
same when they agree up to case and blanks at their ends. -/
namespace MacroEngine
open Text Number

/-- How many of an item there are; counts are kept in 32 bits. -/
structure ItemStack where
  nq : UInt32 := 0
  hq : UInt32 := 0
  usable : Bool := false
  deriving DecidableEq, Repr

structure World where
  statuses : List String := []
  addons : List (String × AddonState) := []
  condition : Option String := none
  conditionNames : List String := ["Normal", "Good", "Excellent", "Poor"]
  quality : Option Nat := none
  hqChance : Option Nat := none
  stats : CraftStats := {}
  brokenGear : Bool := false
  /-- How many items are full. -/
  spiritbondFull : Nat := 0
  /-- The highest among the items that are not full yet. -/
  nextSpiritbond : Binary64 := .zero false
  inventory : List (String × ItemStack) := []
  targets : List String := []
  target : Option String := none
  /-- The recipes there are; every one when none is listed. -/
  recipes : List String := []
  /-- The actions there are; every one when none is listed. -/
  actions : List String := []
  craftingActions : List String := []
  qualityActions : List String := []
  acknowledgeActions : Bool := true
  /-- Up to this ticket nothing is acknowledged. -/
  dropFirstAcks : Nat := 0
  ackDelayMs : Nat := 0
  busy : Bool := false
  deriving DecidableEq

def CraftStats.ofJson? (j : Json) : Option CraftStats :=
  if j.isRecord 3 then do
    let craftsmanship ← j.field? 0 "craftsmanship" (Json.upTo? max32) none
    let control ← j.field? 1 "control" (Json.upTo? max32) none
    let cp ← j.field? 2 "cp" (Json.upTo? max32) none
    pure ⟨craftsmanship, control, cp⟩
  else none

def ItemStack.ofJson? (j : Json) : Option ItemStack :=
  if j.isRecord 3 then do
    let nq ← j.field? 0 "nq" (Json.upTo? max32) (some 0)
    let hq ← j.field? 1 "hq" (Json.upTo? max32) (some 0)
    let usable ← j.field? 2 "usable" Json.bool? (some false)
    pure ⟨nq.toUInt32, hq.toUInt32, usable⟩
  else none

namespace World

/-- A world with the fields that a JSON record gives; the others stay as they are. -/
def update? (w : World) (j : Json) : Option World :=
  if j.isRecord 21 then do
    let names := Json.list? Json.string?
    let count := Json.optional? (Json.upTo? max32)
    let statuses ← j.field? 0 "statuses" names w.statuses
    let addons ← j.field? 1 "addons" (Json.table? (Json.choice? AddonState.ofName?)) w.addons
    let condition ← j.field? 2 "condition" (Json.optional? Json.string?) (some w.condition)
    let conditionNames ← j.field? 3 "condition_names" names w.conditionNames
    let quality ← j.field? 4 "quality" count (some w.quality)
    let hqChance ← j.field? 5 "hq_chance" count (some w.hqChance)
    let stats ← j.field? 6 "stats" CraftStats.ofJson? w.stats
    let brokenGear ← j.field? 7 "broken_gear" Json.bool? w.brokenGear
    let spiritbondFull ← j.field? 8 "spiritbond_full" (Json.upTo? max32) w.spiritbondFull
    let nextSpiritbond ← j.field? 9 "next_spiritbond" Json.binary64? w.nextSpiritbond
    let inventory ← j.field? 10 "inventory" (Json.table? ItemStack.ofJson?) w.inventory
    let targets ← j.field? 11 "targets" names w.targets
    let target ← j.field? 12 "target" (Json.optional? Json.string?) (some w.target)
    let recipes ← j.field? 13 "recipes" names w.recipes
    let actions ← j.field? 14 "actions" names w.actions
    let craftingActions ← j.field? 15 "crafting_actions" names w.craftingActions
    let qualityActions ← j.field? 16 "quality_actions" names w.qualityActions
    let acknowledgeActions ← j.field? 17 "acknowledge_actions" Json.bool? w.acknowledgeActions
    let dropFirstAcks ← j.field? 18 "drop_first_acks" (Json.upTo? max64) w.dropFirstAcks
    let ackDelayMs ← j.field? 19 "ack_delay_ms" (Json.upTo? max64) w.ackDelayMs
    let busy ← j.field? 20 "busy" Json.bool? w.busy
    pure ⟨statuses, addons, condition, conditionNames, quality, hqChance, stats, brokenGear,
      spiritbondFull, nextSpiritbond, inventory, targets, target, recipes, actions,
      craftingActions, qualityActions, acknowledgeActions, dropFirstAcks, ackDelayMs, busy⟩
  else none

def ofJson? (j : Json) : Option World := ({} : World).update? j

def ofText? (text : String) : Option World := (Json.ofText? text).bind ofJson?

def ofFile (readFile : Config.ReadFile) (path : String) : Except ConfigError World := do
  let text ← (readFile path).mapError (.io path)
  match ofText? text with
  | some world => pure world
  | none => throw (.json path "it does not describe a world")

def listed (names : List String) (name : String) : Bool := names.any fun n => sameName n name

def known (names : List String) (name : String) : Bool := names.isEmpty || listed names name

def find? (table : List (String × α)) (name : String) : Option α :=
  (table.find? fun e => sameName e.1 name).map Prod.snd

def replace (table : List (String × α)) (name : String) (value : α) : List (String × α) :=
  match table with
  | [] => []
  | e :: rest => if sameName e.1 name then (e.1, value) :: rest else e :: replace rest name value

def category (w : World) (name : String) : ActionCategory :=
  if listed w.qualityActions name then .quality
  else if listed w.craftingActions name then .crafting
  else .general

/-- How many of an item, of high quality only or of both. A sum that 32 bits cannot hold is a
fault: then there is no count. -/
def itemCount (w : World) (name : String) (hq : Bool) : Option Nat :=
  match find? w.inventory name with
  | none => some 0
  | some stack =>
    if hq then some stack.hq.toNat
    else
      let sum := stack.nq.toNat + stack.hq.toNat
      if sum < UInt32.size then some sum else none

def spiritbondReady (w : World) (below : Option Binary64) : Bool :=
  0 < w.spiritbondFull && (below.map fun x => w.nextSpiritbond.lt x).getD true

/-- The target that a name stands for, the `list`-th of that name. -/
def findTarget? (w : World) (name : String) (list : Option Nat) : Option String :=
  (w.targets.filter fun t => sameName t name)[max (list.getD 1) 1 - 1]?

end World
end MacroEngine
