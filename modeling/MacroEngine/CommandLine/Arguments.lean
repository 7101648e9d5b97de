import MacroEngine.Console
import MacroEngine.CommandLine.Wording

/-! The arguments of the program: a configuration file, and what is to be done. -/
namespace MacroEngine.CommandLine

inductive Job where
  | console
  | help | version | about
  | check (file : String)
  | run (name : String) (loops : Option Nat)
  | craft (name : String) (count : Option Nat)
  /-- A macro or a script outside the library. -/
  | file (path : String)
  deriving DecidableEq, Repr

structure Arguments where
  config : Option String
  job : Job
  deriving DecidableEq, Repr

namespace Arguments

def configForm : String := "usage: --config <file>"

def checkForm : String := "usage: pcraft check <file>"

/-- The file after the first `--config`, and the arguments without both. -/
def takeConfig : List String → Except String (Option String × List String)
  | [] => .ok (none, [])
  | ["--config"] => .error configForm
  | "--config" :: path :: rest => .ok (some path, rest)
  | arg :: rest => (takeConfig rest).map fun (path, rest) => (path, arg :: rest)

def joined (args : List String) : List Char := (String.intercalate " " args).toList

def ofRequest : Console.Request → Job
  | .run name loops => .run name loops
  | .craft name count => .craft name count
  | _ => .console

def readJob : List String → Except String Job
  | [] => .ok .console
  | first :: rest =>
    match first with
    | "help" | "--help" | "-h" => .ok .help
    | "--version" | "-v" => .ok .version
    | "--about" => .ok .about
    | "check" =>
      match rest with
      | file :: _ => .ok (.check file)
      | [] => .error checkForm
    | "run" => ((Console.readRun (joined rest)).map ofRequest).mapError Console.Fault.message
    | "craft" => ((Console.readCraft (joined rest)).map ofRequest).mapError Console.Fault.message
    | path => .ok (.file path)

def read (args : List String) : Except String Arguments := do
  let (config, rest) ← takeConfig args
  pure ⟨config, ← readJob rest⟩

end Arguments
end MacroEngine.CommandLine
