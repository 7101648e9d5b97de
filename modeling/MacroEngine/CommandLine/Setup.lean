import MacroEngine.Library.Directory
import MacroEngine.Session

/-! What a command line run works with: settings, library and game, from the files and variables
that name them. A failure is told with the chain of its causes. -/
namespace MacroEngine.CommandLine

def configCauses : ConfigError → List String
  | .io _ cause | .json _ cause => [cause]
  | .template => []

def libraryCauses : LibraryError → List String
  | .io _ cause => [cause]
  | .parse _ error => [error.message]
  | .script _ error => [error.message]
  | .craftLoop _ error => error.message :: configCauses error
  | _ => []

def runCauses : RunError → List String
  | .library error => libraryCauses error
  | _ => []

def chained (parts : List String) : String := String.intercalate ": " parts

def worldVariable : String := "PCRAFT_WORLD"

def loadConfig (files : Files) (env : Config.Environment) (path : Option String) :
    Except String Config :=
  (Config.load files.read env path).mapError fun e =>
    chained (["loading configuration", e.message] ++ configCauses e)

def loadLibrary (files : Files) (dir : String) : Except String Library :=
  if (files.list? dir).isNone then .ok .empty
  else (Library.ofDirectory files dir).mapError fun e =>
    chained (["loading macros from " ++ dir, e.message] ++ libraryCauses e)

def loadWorld (files : Files) (env : Config.Environment) : Except String World :=
  match env.given worldVariable with
  | none => .ok {}
  | some path => (World.ofFile files.read path).mapError fun e =>
    chained (["loading world " ++ path, e.message] ++ configCauses e)

def loadSession (files : Files) (env : Config.Environment) (draw : WaitSpan.Draw)
    (config : Option String) : Except String Session := do
  let config ← loadConfig files env config
  let library ← loadLibrary files config.macrosDir
  let world ← loadWorld files env
  pure (.start config library draw (.ofWorld world (some Simulation.defaultTraceLimit)))

def readSource (files : Files) (path : String) : Except String String :=
  (files.read path).mapError fun cause => chained ["reading " ++ path, cause]

def sourceRun (path text : String) : Except String Run :=
  let name := (fileStem path).getD "macro"
  match MacroKind.ofPath path with
  | .native => ((Routine.ofSource text).map (Run.ofRoutine name)).mapError LineError.message
  | .script =>
    ((Script.Program.ofSource text).map fun program => Run.ofDialogue name (.ofProgram program)).mapError
      Script.ScriptError.message

end MacroEngine.CommandLine
