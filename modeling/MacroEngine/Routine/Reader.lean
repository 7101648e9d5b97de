import MacroEngine.Routine.Command
import MacroEngine.Routine.Tags

/-! Reading macro text. A line `/name arguments <modifier>` is a command, any other line is an
echo of itself; blank lines and comments are passed over. -/
namespace MacroEngine
open Text Number

structure LineError where
  line : Nat
  fault : Fault
  deriving DecidableEq, Repr

def LineError.message (e : LineError) : String :=
  "line " ++ toString e.line ++ ": " ++ e.fault.message

/-- The text before a `#` that stands outside quotes and after a blank. -/
def cutComment (inQuote afterBlank : Bool) : List Char → List Char
  | [] => []
  | c :: cs =>
    if c = '#' && !inQuote && afterBlank then []
    else c :: cutComment (if c = '"' then !inQuote else inQuote) (isBlank c) cs

def withoutComment (cs : List Char) : List Char :=
  match trimStart cs with
  | '#' :: _ => []
  | '/' :: '/' :: _ => []
  | _ => cutComment false false cs

def unquote (cs : List Char) : List Char :=
  match trim cs with
  | '"' :: rest =>
    if rest.getLast? = some '"' then trim rest.dropLast else '"' :: rest
  | cs => cs

def isKeyChar (c : Char) : Bool := isAsciiLetter c || isAsciiDigit c || c = '_'

def readKeys (cs : List Char) : Option (List String) :=
  let keys := (splitOn '+' cs).map fun key => (trim key).map asciiUpper
  if keys.all fun key => !key.isEmpty && key.all isKeyChar then some (keys.map String.ofList)
  else none

def readStats (cs : List Char) : Option CraftStats :=
  match (words cs).mapM (readUpTo max32) with
  | some [craftsmanship, control, cp] => some ⟨craftsmanship, control, cp⟩
  | _ => none

def readFinite (cs : List Char) : Option Binary64 := (Binary64.ofText? cs).filter Binary64.isFinite

def commandOf (name : String) (canonical : String) (args : List Char) : Except String Command :=
  let orElse (reason : String) (command : Option Command) : Except String Command :=
    match command with
    | some command => .ok command
    | none => .error reason
  let named (make : String → Command) : Except String Command :=
    let n := unquote args
    if n.isEmpty then .error "missing name" else .ok (make (String.ofList n))
  let keyed (make : List String → Command) := orElse "expected KEY[+KEY...]" ((readKeys args).map make)
  let count := readUpTo max32 args
  match canonical with
  | "action" => named .action
  | "click" => named .click
  | "craft" => orElse "expected a craft count" (count.map .craft)
  | "loop" =>
    if args.isEmpty then .ok (.loop .infinite)
    else orElse "expected a loop count" (count.map fun n => .loop (.finite n))
  | "recipe" => named .recipe
  | "require" => named .require
  | "requirequality" => orElse "expected a quality value" (count.map .requireQuality)
  | "requirerepair" => .ok .requireRepair
  | "requirespiritbond" =>
    if args.isEmpty then .ok (.requireSpiritbond none)
    else orElse "expected a spiritbond percentage"
      ((readFinite args).map fun x => .requireSpiritbond (some x))
  | "requirestats" =>
    orElse "expected craftsmanship, control and cp" ((readStats args).map .requireStats)
  | "item" => named .item
  | "runmacro" => named .runMacro
  | "send" => keyed .send
  | "hold" => keyed .hold
  | "release" => keyed .release
  | "target" => named .target
  | "waitaddon" => named .waitAddon
  | "wait" => orElse "expected seconds or an ascending lo-hi range" ((WaitSpan.read args).map .wait)
  | "echo" => .ok (.echo (String.ofList args))
  | _ => .ok (.native name)

/-- The name a command is known by: lower case, and in full where it has a short form. -/
def canonicalName (name : String) : String :=
  match lowered name with
  | "ac" => "action"
  | "gate" => "craft"
  | other => other

def readLine (line : Nat) (cs : List Char) : Except LineError (Option Step) :=
  match trim (withoutComment cs) with
  | [] => .ok none
  | '/' :: body => do
    let (name, rest) := firstWord body
    let name := String.ofList name
    let (args, mods) ← (splitTags rest).mapError (LineError.mk line)
    let canonical := canonicalName name
    let command ← (commandOf name canonical args.toList).mapError fun reason =>
      ⟨line, .invalidArgument canonical reason⟩
    pure (some ⟨line, command, args, mods⟩)
  | text => do
    let (args, mods) ← (splitTags text).mapError (LineError.mk line)
    pure (some ⟨line, .echo args, args, mods⟩)

def readLines : List (Nat × List Char) → Except LineError (List Step)
  | [] => .ok []
  | (n, cs) :: rest => do
    let step ← readLine n cs
    let steps ← readLines rest
    pure (step.toList ++ steps)

namespace Routine

def read (cs : List Char) : Except LineError Routine :=
  (readLines (numbered 1 (lines cs))).map Routine.mk

def ofSource (source : String) : Except LineError Routine := read (normalize source.toList)

end Routine

def Step.read (s : String) : Except LineError (Option Step) := readLine 1 s.toList

end MacroEngine
