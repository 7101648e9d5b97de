import MacroEngine.CommandLine.Arguments
import MacroEngine.CommandLine.Setup
import MacroEngine.Library.Basic

/-! The program as a whole, moved by lines of input, by their end, and by time. What it says is
collected until it is taken. -/
namespace MacroEngine.CommandLine
open Text

inductive Channel where
  | out | err | log
  deriving DecidableEq, Repr

inductive Mode where
  /-- One run, with which the program ends. -/
  | foreground
  | console
  /-- A console whose input has ended, or which was left; `note` is said at the end. -/
  | closing (note : String)
  | exited (code : Nat)
  deriving DecidableEq, Repr

structure Shell where
  mode : Mode
  session : Option Session
  /-- Is there a run whose end was not told yet? -/
  live : Bool
  echoLog : Bool
  /-- Latest first. -/
  said : List (Channel × String)

namespace Shell

def variableNames : List String :=
  ["PCRAFT_CONFIG", "PCRAFT_MACROS_DIR", "PCRAFT_MAX_RETRIES", "PCRAFT_ACK_TIMEOUT_MS",
    "PCRAFT_POLL_MS", worldVariable, "PCRAFT_OUTPUT_LOG", "NO_COLOR"]

def logVariable : String := "PCRAFT_OUTPUT_LOG"

def wantsLog (env : Config.Environment) : Bool :=
  (env logVariable).any fun value =>
    ["1", "true", "yes", "on"].contains (asciiLowered (trimmed value))

def say (sh : Shell) (channel : Channel) (text : String) : Shell :=
  { sh with said := (channel, text) :: sh.said }

def line (sh : Shell) (channel : Channel) (text : String) : Shell := sh.say channel (text ++ "\n")

def complain (sh : Shell) (text : String) : Shell := sh.line .err ("Error: " ++ text)

def exit (sh : Shell) (code : Nat) : Shell := { sh with mode := .exited code }

def note (sh : Shell) (text : String) : Shell := if sh.echoLog then sh.line .log text else sh

def tell (name : String) (sh : Shell) : Event → Shell
  | .echoed text => (sh.line .out ("echo: " ++ text)).note ("echo: " ++ text)
  | .notified text => sh.line .err ("error: " ++ text)
  | .logged text => sh.note ("[" ++ name ++ "] " ++ text)
  | _ => sh

def tellReport (sh : Shell) (r : Report) : Shell :=
  let sh :=
    if r.stoppedByUser then sh.line .out ("Macro " ++ r.macroName ++ " stopped.")
    else sh.line .out ("Macro " ++ r.macroName ++ " finished: " ++ toString r.stepsExecuted ++
      " step(s), " ++ toString r.loopCrossings ++ " loop(s).")
  if r.softErrors.isEmpty then sh
  else sh.line .out (toString r.softErrors.length ++ " error(s) reported.")

def tellResult (sh : Shell) : Except RunError Report → Shell
  | .ok r => sh.tellReport r
  | .error e => sh.complain e.message

/-- The run is over: in the foreground the program is too, and so is a console that only waited
for it. -/
def conclude (sh : Shell) (result : Except RunError Report) : Shell :=
  let sh := { sh.tellResult result with live := false }
  match sh.mode with
  | .foreground => sh.exit (if result.toBool then 0 else 1)
  | .closing note => (sh.say .out note).exit 0
  | _ => sh

def hear (sh : Shell) : Shell :=
  match sh.session with
  | none => sh
  | some session =>
    let name := (session.current?.map Run.name).getD ""
    let (events, session) := session.takeJournal
    let sh := events.foldl (fun sh e => tell name sh e.2) { sh with session := some session }
    match sh.live, session.current?.bind Run.outcome with
    | true, some outcome => sh.conclude outcome.result
    | _, _ => sh

/-- Let time pass up to a moment, but not past the end of the run under way. -/
def passTo (sh : Shell) (moment : Moment) : Shell :=
  hear { sh with session := sh.session.map fun s =>
    if sh.live then s.join (moment - s.now) else { s with now := max s.now moment } }

def ofText (channel : Channel) (text : String) : Shell :=
  ⟨.exited 0, none, false, false, [(channel, text)]⟩

def refused (reason : String) : Shell := (ofText .err ("Error: " ++ reason ++ "\n")).exit 1

def foreground (sh : Shell) (run : Except String Session) : Shell :=
  match run with
  | .ok session => { sh with session := some session, live := true }
  | .error reason => (sh.complain reason).exit 1

def causes (e : RunError) : String := chained (e.message :: runCauses e)

def startFile (sh : Shell) (files : Files) (path : String) (session : Session) : Shell :=
  match readSource files path with
  | .error reason => (sh.complain reason).exit 1
  | .ok text =>
    (sh.line .out ("Running macro: " ++ path)).foreground ((sourceRun path text).map session.add)

def startCheck (files : Files) (path : String) : Shell :=
  match readSource files path with
  | .error reason => refused reason
  | .ok text =>
    match check text (MacroKind.ofPath path) with
    | .ok listing => ofText .out (listing ++ "\n")
    | .error reason => refused reason

def withSession (files : Files) (env : Config.Environment) (draw : WaitSpan.Draw)
    (config : Option String) (mode : Mode) (next : Shell → Session → Shell) : Shell :=
  let plain := (env "NO_COLOR").isSome
  let text := match mode with
    | .console => (Channel.out, banner plain consoleTitle)
    | _ => (Channel.err, banner plain runTitle)
  let sh : Shell := ⟨mode, none, false, wantsLog env, [text]⟩
  match loadSession files env draw config with
  | .error reason => (sh.complain reason).exit 1
  | .ok session => next sh session

def start (files : Files) (env : Config.Environment) (draw : WaitSpan.Draw) (args : List String) :
    Shell :=
  match Arguments.read args with
  | .error reason => refused reason
  | .ok args =>
    let loaded := withSession files env draw args.config
    match args.job with
    | .help => ofText .out helpText
    | .version => ofText .out versionText
    | .about => ofText .out aboutText
    | .check file => startCheck files file
    | .run name loops =>
      loaded .foreground fun sh s => sh.foreground ((s.run name loops).mapError causes)
    | .craft name count =>
      loaded .foreground fun sh s => sh.foreground ((s.craft name count).mapError causes)
    | .file path =>
      if files.isFile path then loaded .foreground fun sh s => sh.startFile files path s
      else refused ("unknown command or file: " ++ path ++ " (try `pcraft help`)")
    | .console => loaded .console fun sh s => { sh.say .out consoleHint with session := some s }

def background (sh : Shell) (session : Session) (name : String) (run : Except RunError Session) :
    Shell :=
  match sh.live, session.current?, run with
  | true, some current, _ => sh.complain (current.name ++ " is still running")
  | _, _, .ok session =>
    { sh.line .out ("Running " ++ name) with session := some session, live := true }
  | _, _, .error e => sh.complain e.message

def control (sh : Shell) (session : Session) (wish : Controls.Wish) : Shell :=
  match sh.live, session.current? with
  | true, some current =>
    let (reply, session) := session.grant wish
    let sh := { sh with session := some session }
    match reply with
    | some (.ok state) => sh.line .out (current.name ++ ": " ++ state.text)
    | some (.error refusal) => sh.complain refusal.message
    | none => sh
  | _, _ => sh.complain "no macro is running"

def status (sh : Shell) (session : Session) : Shell :=
  match sh.live, session.current? with
  | true, some current =>
    current.invocations.foldl (fun sh (name, state) => sh.line .out (name ++ ": " ++ state.text)) sh
  | _, _ => sh.line .out "idle"

def list (sh : Shell) (session : Session) : Shell :=
  match session.library.names with
  | [] => sh.line .out "(no macros)"
  | names => names.foldl (fun sh name => sh.line .out name) sh

def close (sh : Shell) (note : String) : Shell :=
  if sh.live then { sh with mode := .closing note } else (sh.say .out note).exit 0

def leave (sh : Shell) (session : Session) : Shell :=
  let sh := if sh.live then { sh with session := some (session.grant .stop).2 } else sh
  sh.close "Exiting...\n"

def obey (sh : Shell) (session : Session) : Console.Request → Shell
  | .exit => sh.leave session
  | .help => sh.say .out helpText
  | .version => sh.say .out versionText
  | .about => sh.say .out aboutText
  | .list => sh.list session
  | .status => sh.status session
  | .run name loops => sh.background session name (session.run name loops)
  | .craft name count => sh.background session name (session.craft name count)
  | .pause atLoop => sh.control session (if atLoop then .pauseAtLoop else .pause)
  | .stop atLoop => sh.control session (if atLoop then .stopAtLoop else .stop)
  | .resume => sh.control session .resume
  | .step => sh.control session .step

def input (sh : Shell) (text : String) : Shell :=
  match sh.mode, sh.session with
  | .console, some session =>
    match Console.read text.toList with
    | .error fault => sh.complain fault.message
    | .ok none => sh
    | .ok (some request) => sh.obey session request
  | _, _ => sh

def endInput (sh : Shell) : Shell :=
  match sh.mode with
  | .console => sh.close ""
  | _ => sh

def takesInput (sh : Shell) : Bool := decide (sh.mode = .console)

def now (sh : Shell) : Moment := (sh.session.map Session.now).getD 0

def settle (sh : Shell) : Shell := sh.passTo sh.now

def code? (sh : Shell) : Option Nat :=
  match sh.mode with
  | .exited code => some code
  | _ => none

def takeSaid (sh : Shell) : List (Channel × String) × Shell :=
  (sh.said.reverse, { sh with said := [] })

def never : Moment := Number.max64

/-- The whole program on an input that is all there from the start: what is due is done between
the lines, and the rest after their end. -/
def play (sh : Shell) (lines : List String) : Shell :=
  ((lines.foldl (fun sh text => (sh.input text).settle) sh.settle).endInput).passTo never

def saidOn (sh : Shell) (channel : Channel) : String :=
  String.join ((sh.said.reverse.filter fun e => e.1 = channel).map Prod.snd)

def logPath : String := "logs/run_latest.log"

def logAfter (sh : Shell) (files : Files) : Option String :=
  match files.read logPath, sh.saidOn .log with
  | .ok old, new => some (old ++ new)
  | .error cause, new => if new.isEmpty || cause ≠ Files.missing then none else some new

end Shell
end MacroEngine.CommandLine
