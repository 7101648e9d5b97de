import MacroEngine.Config
import MacroEngine.Routine.Command
import MacroEngine.Text.Blank

/-! What the modifiers of a step come to when it is executed: defaults filled in, support by the
command checked, condition names checked against those the game reports. -/
namespace MacroEngine
open Text

inductive ModifierError where
  | notSupported (kind : ModifierKind) (command : String)
  | unknownCondition (name : String)
  | invertedRange (lo hi : Binary64)
  | outOfRange (kind : ModifierKind) (value : Binary64)
  deriving DecidableEq

def ModifierError.message : ModifierError → String
  | .notSupported kind command => "<" ++ kind.name ++ "> is not supported by /" ++ command
  | .unknownCondition name => "unknown crafting condition " ++ quoted name
  | .invertedRange lo hi => "wait range " ++ lo.toText ++ "-" ++ hi.toText ++ " is inverted"
  | .outOfRange kind value => "<" ++ kind.name ++ "." ++ value.toText ++ "> is too large"

/-- The form in which two names are the same. -/
def nameKey (s : String) : String := lowered (trimmed s)

def sameName (a b : String) : Bool := nameKey a = nameKey b

/-- Does any term match the current condition? Outside a synthesis there is none, and only
negated terms match. -/
def matchesAny (terms : List ConditionTerm) (current : Option String) : Bool :=
  terms.any fun term => decide (current.map nameKey = some (nameKey term.name)) != term.negated

structure Effective where
  wait : WaitSpan
  maxWait : Duration
  condition : Option (List ConditionTerm)
  unconfirmed : Bool
  echo : Bool
  index : Option Nat
  list : Option Nat
  hq : Bool
  deriving DecidableEq

def checkWait : WaitSpan → Except ModifierError Unit
  | .fixed secs =>
    if (Duration.ofSeconds? secs).isNone then .error (.outOfRange .wait secs) else .ok ()
  | .range lo hi =>
    if hi.lt lo then .error (.invertedRange lo hi)
    else if (Duration.ofSeconds? hi).isNone then .error (.outOfRange .wait hi) else .ok ()

/-- The first term that names no known condition; without known names there is none. -/
def unknownTerm? (names : List String) (terms : List ConditionTerm) : Option ConditionTerm :=
  if names.isEmpty then none
  else terms.find? fun term => !names.any fun n => sameName n term.name

def resolve (config : Config) (names : List String) (step : Step) :
    Except ModifierError Effective := do
  let mods := step.modifiers
  match mods.kinds.find? fun kind => !step.command.accepts kind with
  | some kind => throw (.notSupported kind step.command.name)
  | none => pure ()
  let wait := mods.wait.getD .zero
  checkWait wait
  match mods.condition.bind (unknownTerm? names) with
  | some term => throw (.unknownCondition term.name)
  | none => pure ()
  let maxWait ← match mods.maxWait with
    | none => pure config.maxWait
    | some secs =>
      match Duration.ofSeconds? secs with
      | some d => pure d
      | none => throw (.outOfRange .maxWait secs)
  pure {
    wait, maxWait
    condition := mods.condition
    unconfirmed := mods.unconfirmed
    echo := mods.echo || (config.loopEcho && step.command.isBoundary)
    index := mods.index
    list := mods.list
    hq := mods.hq }

end MacroEngine
