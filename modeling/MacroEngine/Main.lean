import MacroEngine.CommandLine.Shell

/-! The program on a terminal: it reads the files and variables that may be asked for, keeps the
clock, and hands lines of input and of output on. -/
namespace MacroEngine.CommandLine.Terminal

def readText (path : String) : IO (Except String String) := do
  try
    return .ok (← IO.FS.readFile path)
  catch
    | .noFileOrDirectory .. => return .error Files.missing
    | e => return .error (toString e)

def readAll (paths : List String) : IO (List (String × Except String String)) :=
  paths.mapM fun path => do return (path, ← readText path)

def listing (dir : String) : IO (Option (List String)) := do
  try
    let entries ← (← IO.FS.realPath dir).readDir
    let files ← entries.filterM fun e => return !(← e.path.isDir)
    return some (files.toList.map fun e => e.fileName)
  catch _ => return none

def filesOf (texts : List (String × Except String String)) (dir : String)
    (names : Option (List String)) : Files where
  read := fun path => (texts.lookup path).getD (.error Files.missing)
  isFile := fun path => (texts.lookup path).any Except.toBool
  list? := fun path => if path = dir then names else none

def environment : IO Config.Environment := do
  let values ← Shell.variableNames.mapM fun name => do return (name, ← IO.getEnv name)
  return fun name => (values.lookup name).join

def gather (env : Config.Environment) (args : List String) : IO Files := do
  let named := ["PCRAFT_CONFIG", worldVariable].filterMap env.given
  let texts ← readAll (args ++ named)
  let config := (Arguments.read args).toOption.bind Arguments.config
  match Config.load (filesOf texts "" none).read env config with
  | .error _ => return filesOf texts "" none
  | .ok config =>
    let names ← listing config.macrosDir
    let macros ← readAll ((names.getD []).map (Library.filePath config.macrosDir))
    return filesOf (texts ++ macros) config.macrosDir names

def appendLog (text : String) : IO Unit := do
  try
    IO.FS.createDirAll "logs"
    (← IO.FS.Handle.mk Shell.logPath .append).putStr text
  catch _ => return

def deliver : Channel × String → IO Unit
  | (.out, text) => do
    (← IO.getStdout).putStr text
    (← IO.getStdout).flush
  | (.err, text) => do (← IO.getStderr).putStr text
  | (.log, text) => appendLog text

def readLine : IO String := do (← IO.getStdin).getLine

def lineOf (text : String) : Option String :=
  (Text.lines text.toList).head?.map String.ofList

/-- Go on until the program exits; `awaited` is the line of input being read. -/
partial def drive (began : Nat) (awaited : Option (Task (Except IO.Error String))) (sh : Shell) :
    IO UInt32 := do
  let (said, sh) := (sh.passTo ((← IO.monoMsNow) - began)).takeSaid
  said.forM deliver
  match sh.code?, awaited with
  | some code, _ => return code.toUInt32
  | none, some task =>
    if ← IO.hasFinished task then
      let text := ((task.get).toOption.bind lineOf)
      let sh := match text with
        | some text => sh.input text
        | none => sh.endInput
      let next ← if sh.takesInput then some <$> IO.asTask readLine else pure none
      drive began next sh
    else
      IO.sleep 10
      drive began awaited sh
  | none, none =>
    IO.sleep 10
    drive began none sh

end MacroEngine.CommandLine.Terminal

open MacroEngine.CommandLine in
def main (args : List String) : IO UInt32 := do
  let env ← Terminal.environment
  let files ← Terminal.gather env args
  let began ← IO.monoMsNow
  let sh := Shell.start files env (MacroEngine.WaitSpan.Draw.spread began) args
  let awaited ← if sh.takesInput then some <$> IO.asTask Terminal.readLine else pure none
  Terminal.drive began awaited sh
