import MacroEngine.Routine.WaitSpan
import MacroEngine.Text.Lines
import MacroEngine.Text.Quoted

/-! The modifiers of a step, such as `<wait.3>` or `<condition.good,!poor>`. Each kind occurs at
most once; kinds have one canonical order. -/
namespace MacroEngine
open Text Number

inductive ModifierKind where
  | wait | maxWait | condition | unconfirmed | echo | index | list | hq
  deriving DecidableEq, Repr

namespace ModifierKind

def all : List ModifierKind :=
  [.wait, .maxWait, .condition, .unconfirmed, .echo, .index, .list, .hq]

def name : ModifierKind → String
  | .wait => "wait"
  | .maxWait => "maxwait"
  | .condition => "condition"
  | .unconfirmed => "unsafe"
  | .echo => "echo"
  | .index => "index"
  | .list => "list"
  | .hq => "hq"

def ofName? (s : String) : Option ModifierKind := all.find? fun kind => kind.name = asciiLowered s

end ModifierKind

structure ConditionTerm where
  name : String
  negated : Bool
  deriving DecidableEq, Repr

def ConditionTerm.text (term : ConditionTerm) : List Char :=
  (if term.negated then ['!'] else []) ++ term.name.toList

structure Modifiers where
  wait : Option WaitSpan := none
  maxWait : Option Binary64 := none
  condition : Option (List ConditionTerm) := none
  /-- Sent without waiting for the acknowledgement. -/
  unconfirmed : Bool := false
  echo : Bool := false
  index : Option Nat := none
  list : Option Nat := none
  hq : Bool := false
  deriving DecidableEq

inductive Fault where
  | unknownModifier (name : String)
  | malformedValue (name value : String)
  | duplicateModifier (name : String)
  | unterminatedQuote
  | invalidArgument (command reason : String)
  deriving DecidableEq, Repr

def Fault.message : Fault → String
  | .unknownModifier name => "unknown modifier <" ++ name ++ ">"
  | .malformedValue name value => "malformed value for <" ++ name ++ ">: " ++ quoted value
  | .duplicateModifier name => "modifier <" ++ name ++ "> appears more than once"
  | .unterminatedQuote => "unterminated quote"
  | .invalidArgument command reason => "invalid argument for /" ++ command ++ ": " ++ reason

def readTerm (cs : List Char) : Option ConditionTerm :=
  let raw := trim cs
  let (body, negated) := match raw with
    | '!' :: rest => (rest, true)
    | _ => if eqIgnoringAsciiCase (raw.take 4) ['n', 'o', 't', '.'] then (raw.drop 4, true)
      else (raw, false)
  let name := trim body
  if name.isEmpty then none else some ⟨String.ofList name, negated⟩

def readTerms (cs : List Char) : Option (List ConditionTerm) := (splitOn ',' cs).mapM readTerm

namespace Modifiers

def has (mods : Modifiers) : ModifierKind → Bool
  | .wait => mods.wait.isSome
  | .maxWait => mods.maxWait.isSome
  | .condition => mods.condition.isSome
  | .unconfirmed => mods.unconfirmed
  | .echo => mods.echo
  | .index => mods.index.isSome
  | .list => mods.list.isSome
  | .hq => mods.hq

def kinds (mods : Modifiers) : List ModifierKind := ModifierKind.all.filter mods.has

/-- The modifiers with `kind` set to a written value, or nothing if it is not one. -/
def put? (mods : Modifiers) (kind : ModifierKind) (value : Option (List Char)) :
    Option Modifiers :=
  match kind with
  | .wait => do pure { mods with wait := some (← WaitSpan.read (← value)) }
  | .maxWait => do pure { mods with maxWait := some (← readSeconds (← value)) }
  | .condition => do pure { mods with condition := some (← readTerms (← value)) }
  | .index => do pure { mods with index := some (← readUpTo max32 (trim (← value))) }
  | .list => do pure { mods with list := some (← readUpTo max32 (trim (← value))) }
  | .unconfirmed => if value.isNone then some { mods with unconfirmed := true } else none
  | .echo => if value.isNone then some { mods with echo := true } else none
  | .hq => if value.isNone then some { mods with hq := true } else none

def insert (mods : Modifiers) (name : String) (value : Option (List Char)) :
    Except Fault Modifiers :=
  match ModifierKind.ofName? name with
  | none => .error (.unknownModifier (asciiLowered name))
  | some kind =>
    if mods.has kind then .error (.duplicateModifier kind.name)
    else match mods.put? kind value with
      | some mods => .ok mods
      | none => .error (.malformedValue kind.name (String.ofList (value.getD [])))

def tag (kind : ModifierKind) (value : List Char) : List Char :=
  '<' :: kind.name.toList ++ '.' :: value ++ ['>']

def flag (kind : ModifierKind) : List Char := '<' :: kind.name.toList ++ ['>']

def tags (mods : Modifiers) : List (List Char) :=
  (mods.wait.map fun span => tag .wait span.text).toList ++
  (mods.maxWait.map fun secs => tag .maxWait secs.text).toList ++
  (mods.condition.map fun terms =>
    tag .condition (List.intercalate [','] (terms.map ConditionTerm.text))).toList ++
  (if mods.unconfirmed then [flag .unconfirmed] else []) ++
  (if mods.echo then [flag .echo] else []) ++
  (mods.index.map fun n => tag .index (digits n)).toList ++
  (mods.list.map fun n => tag .list (digits n)).toList ++
  (if mods.hq then [flag .hq] else [])

def text (mods : Modifiers) : List Char := List.intercalate [' '] mods.tags

end Modifiers
end MacroEngine
