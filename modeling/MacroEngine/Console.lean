import MacroEngine.Number.Whole
import MacroEngine.Text.Blank
import MacroEngine.Text.Quoted

/-! Command lines of the console. A macro name may contain blanks and may be quoted. -/
namespace MacroEngine
open Text Number

namespace Console

inductive Request where
  | run (name : String) (loops : Option Nat)
  /-- A loop of crafts, without a count until it is stopped. -/
  | craft (name : String) (count : Option Nat)
  | pause (atLoop : Bool)
  | stop (atLoop : Bool)
  | resume | step | status | list | help | version | about | exit
  deriving DecidableEq, Repr

inductive Fault where
  | unknown (line : String)
  | usage (form : String)
  deriving DecidableEq, Repr

def Fault.message : Fault → String
  | .unknown line => "unknown command " ++ quoted line ++ "; try `help`"
  | .usage form => "usage: " ++ form

def runForm : String := "run [loop <N>] <name>"

def craftForm : String := "craft [<N>] <name>"

def unquote (cs : List Char) : List Char :=
  match trim cs with
  | '"' :: rest => trim (if rest.getLast? = some '"' then rest.dropLast else '"' :: rest)
  | cs => cs

def readName (form : String) (cs : List Char) : Except Fault String :=
  let name := unquote cs
  if name.isEmpty then .error (.usage form) else .ok (String.ofList name)

def loopArgs (args : List Char) : Option (Nat × List Char) :=
  match cutAtBlank args with
  | (first, some rest) =>
    match cutAtBlank rest with
    | (count, some name) =>
      if eqIgnoringAsciiCase first ['l', 'o', 'o', 'p'] then
        (readUpTo max32 count).map fun n => (n, name)
      else none
    | _ => none
  | _ => none

/-- The arguments of `run`: `<name>` or `loop <N> <name>`. -/
def readRun (cs : List Char) : Except Fault Request :=
  let args := trim cs
  match loopArgs args with
  | some (n, name) => (readName runForm name).map fun name => .run name (some n)
  | none => (readName runForm args).map fun name => .run name none

/-- The arguments of `craft`: `<name>` or `<N> <name>`. -/
def readCraft (cs : List Char) : Except Fault Request :=
  let args := trim cs
  match cutAtBlank args with
  | (first, some rest) =>
    match readUpTo max32 first with
    | some n => (readName craftForm rest).map fun name => .craft name (some n)
    | none => (readName craftForm args).map fun name => .craft name none
  | _ => (readName craftForm args).map fun name => .craft name none

def readAtLoop (form : String) (rest : List Char) : Except Fault Bool :=
  if rest.isEmpty then .ok false
  else if eqIgnoringAsciiCase rest ['l', 'o', 'o', 'p'] then .ok true
  else .error (.usage form)

/-- One line; a blank line or a comment asks for nothing. -/
def read (cs : List Char) : Except Fault (Option Request) :=
  let line := trim cs
  if line.isEmpty || line.head? = some '#' then .ok none
  else
    let (head, rest) := cutAtBlank line
    let rest := trim (rest.getD [])
    let unknown : Except Fault (Option Request) := .error (.unknown (String.ofList line))
    let bare (request : Request) : Except Fault (Option Request) :=
      if rest.isEmpty then .ok (some request) else unknown
    match String.ofList (head.map asciiLower) with
    | "run" => (readRun rest).map some
    | "craft" => (readCraft rest).map some
    | "pause" => (readAtLoop "pause [loop]" rest).map fun b => some (.pause b)
    | "stop" => (readAtLoop "stop [loop]" rest).map fun b => some (.stop b)
    | "resume" => bare .resume
    | "step" => bare .step
    | "status" => bare .status
    | "list" => bare .list
    | "help" | "--help" | "-h" => .ok (some .help)
    | "version" | "--version" | "-v" => .ok (some .version)
    | "about" | "--about" => .ok (some .about)
    | "exit" | "quit" => .ok (some .exit)
    | _ => unknown

end Console
end MacroEngine
