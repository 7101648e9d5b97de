import MacroEngine.Routine.CraftLoop
import MacroEngine.Routine.Printer
import MacroEngine.Routine.Reader
import MacroEngine.Routine.Resolution
import MacroEngine.Script.Grammar

/-! A library of macros by name. Names are the same when they agree up to case and blanks at
their ends; the first entry with a name keeps it. -/
namespace MacroEngine
open Text Script Number

inductive MacroKind where
  | native
  | script
  deriving DecidableEq, Repr

/-- The last part of a path, or nothing where that part is `..`. -/
def fileName (path : List Char) : Option (List Char) :=
  match ((splitOn '/' path).filter fun part => part ≠ [] ∧ part ≠ ['.']).getLast? with
  | some ['.', '.'] => none
  | last => last

/-- A file name before and after its last dot; a dot at the start does not count. -/
def splitExtension (name : List Char) : List Char × Option (List Char) :=
  let after := (name.reverse.takeWhile (· ≠ '.')).reverse
  match (name.reverse.dropWhile (· ≠ '.')).reverse.dropLast with
  | [] => (name, none)
  | stem => (stem, some after)

def fileStem (path : String) : Option String :=
  (fileName path.toList).map fun name => String.ofList (splitExtension name).1

namespace MacroKind

def ofExtension? (ext : List Char) : Option MacroKind :=
  match String.ofList (ext.map asciiLower) with
  | "macro" => some .native
  | "script" => some .script
  | _ => none

def ofPath? (path : String) : Option MacroKind :=
  ((fileName path.toList).bind fun name => (splitExtension name).2).bind ofExtension?

/-- The kind of a file; without a known extension it is a native macro. -/
def ofPath (path : String) : MacroKind := (ofPath? path).getD .native

end MacroKind

inductive Source where
  | native (routine : Routine)
  | script (program : Program)

inductive LibraryError where
  | io (path cause : String)
  | notFound (name : String)
  | duplicate (name : String)
  | notNative (name : String)
  | parse (name : String) (error : LineError)
  | script (name : String) (error : ScriptError)
  | craftLoop (name : String) (error : ConfigError)
  deriving DecidableEq

def LibraryError.message : LibraryError → String
  | .io path cause => "cannot read macro library " ++ path ++ ": " ++ cause
  | .notFound name => "no macro named " ++ quoted name
  | .duplicate name => "macro " ++ quoted name ++ " is defined more than once"
  | .notNative name => quoted name ++ " is a script, not a native macro"
  | .parse name error => "macro " ++ quoted name ++ ": " ++ error.message
  | .script name error => "script " ++ quoted name ++ ": " ++ error.message
  | .craftLoop name error => "craft loop for " ++ quoted name ++ ": " ++ error.message

structure Entry where
  name : String
  kind : MacroKind
  text : String
  deriving DecidableEq, Repr

def Entry.read (entry : Entry) : Except LibraryError Source :=
  match entry.kind with
  | .native => ((Routine.ofSource entry.text).map .native).mapError (.parse entry.name)
  | .script => ((Program.ofSource entry.text).map .script).mapError (.script entry.name)

structure Library where
  entries : List Entry
  deriving DecidableEq, Repr

/-- The macro that a source holds if it is native; `name` is how it was asked for. -/
def Source.native? (name : String) : Source → Except LibraryError Routine
  | .native routine => .ok routine
  | .script _ => .error (.notNative name)

namespace Library

def empty : Library := ⟨[]⟩

def find? (lib : Library) (name : String) : Option Entry :=
  lib.entries.find? fun entry => sameName entry.name name

def contains (lib : Library) (name : String) : Bool := (lib.find? name).isSome

def size (lib : Library) : Nat := lib.entries.length

def insert (lib : Library) (name : String) (kind : MacroKind) (text : String) :
    Except LibraryError Library :=
  if lib.contains name then .error (.duplicate name)
  else .ok ⟨lib.entries ++ [⟨trimmed name, kind, text⟩]⟩

def names (lib : Library) : List String :=
  (lib.entries.map Entry.name).mergeSort fun a b => !decide (lowered b < lowered a)

def entry (lib : Library) (name : String) : Except LibraryError Entry :=
  match lib.find? name with
  | some entry => .ok entry
  | none => .error (.notFound name)

def get (lib : Library) (name : String) : Except LibraryError Source := do
  (← lib.entry name).read

def native (lib : Library) (name : String) : Except LibraryError Routine := do
  (← lib.get name).native? name

def craftLoop (lib : Library) (name : String) (count : Option Nat) (layout : CraftLayout) :
    Except LibraryError Routine := do
  let entry ← lib.entry name
  if entry.kind ≠ .native then throw (.notNative entry.name)
  let text ← (MacroEngine.craftLoop entry.text.toList count layout).mapError (.craftLoop entry.name)
  (Routine.ofSource (String.ofList text)).mapError (.parse entry.name)

end Library

/-- A step with its line number, flush right in four places. -/
def listed (step : Step) : List Char :=
  '\n' :: List.replicate (4 - digitCount step.line) ' ' ++ digits step.line ++ ": ".toList ++ step.text

def check (source : String) : MacroKind → Except String String
  | .native =>
    match Routine.ofSource source with
    | .ok routine => .ok ("OK: " ++ toString routine.steps.length ++ " step(s)" ++
        String.ofList (routine.steps.flatMap listed))
    | .error e => .error e.message
  | .script =>
    match Program.ofSource source with
    | .ok program => .ok ("OK: script with " ++ toString program.length ++ " statement(s)")
    | .error e => .error e.message

end MacroEngine
