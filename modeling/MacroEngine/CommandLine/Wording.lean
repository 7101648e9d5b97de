/-! The fixed texts of the command line. -/
namespace MacroEngine.CommandLine

def versionText : String := "⚒  PCRAFT version 0.1.0\n"

def aboutText : String :=
  "PCRAFT CLI – step-by-step macro automation for crafting and gathering.\n"

def logo : String :=
  " ____   ____ ____            __ _   \n" ++
  "|  _ \\ / ___|  _ \\ __ _ / _| |_ \n" ++
  "| |_) | |   | |_) / _` | |_| __|\n" ++
  "|  __/| |___|  _ < (_| |  _| |_ \n" ++
  "|_|    \\____|_| \\_\\__,_|_|  \\__|\n"

def banner (plain : Bool) (title : String) : String :=
  if plain then "\n" ++ logo ++ "⚒  " ++ title ++ "\n"
  else "\n\x1b[93m" ++ logo ++ "\x1b[0m⚒  " ++ title ++ "\n"

def consoleTitle : String := "PCRAFT console – macro automation engine"

def runTitle : String := "PCRAFT – macro automation engine"

def consoleHint : String := "Type `help` for commands, `exit` to quit.\n"

def helpText : String := "
PCRAFT — help

Command line:
────────────────────────────────
pcraft                           → Interactive console
pcraft run <name>                → Run a macro from the library
pcraft run loop <N> <name>       → Run with its last /loop set to N
pcraft craft [<N>] <name>        → Run a macro as a loop of N crafts
pcraft check <file>              → Validate a .macro or .script file
pcraft <file>                    → Run a macro file directly
pcraft --config <file> ...       → Load settings from a JSON file

Console:
────────────────────────────────
run [loop <N>] <name>            → Start a macro in the background
craft [<N>] <name>               → Start a crafting loop (forever without N)
pause / pause loop               → Pause now / at the next loop
resume                           → Resume a paused macro
stop / stop loop                 → Stop now / at the next loop
step                             → Run one step, then pause again
status                           → Show the running macro(s)
list                             → Show the macro library
exit                             → Stop and quit

Macro commands:
────────────────────────────────
/action <name>     (/ac)         → Use an action, retried until acknowledged
/click <button>                  → Click an addon button
/craft <N>         (/gate)       → Allow N passes, then end the macro
/loop [N]                        → Repeat from the top (N more times, or forever)
/recipe <name>                   → Open a recipe
/require <status>                → Wait for a status effect
/requirequality <N>              → Wait for quality ≥ N
/requirerepair                   → Pause if gear needs repair
/requirespiritbond [N]           → Pause when materia can be extracted
/requirestats <cms> <ctrl> <cp>  → Wait for stats
/item <name>                     → Use an item
/runmacro <name>                 → Run another macro, then continue
/send /hold /release <KEY+KEY>   → Keyboard input
/target <name>                   → Target an entity
/waitaddon <addon>               → Wait for an addon to be visible
/wait <N | lo-hi>                → Wait
/echo <text>                     → Print text (lines without \"/\" echo too)

Modifiers:
────────────────────────────────
<wait.N> <wait.lo-hi>            → Wait after the step
<maxwait.N>                      → Timeout for waiting steps (default 5)
<condition.good,!poor>           → Only act in these crafting conditions
<unsafe>                         → Do not wait for the server
<echo>                           → Report /loop and /craft counters
<index.N> <list.N> <hq>          → Targeting and item options

Scripts (.script):
────────────────────────────────
set n = \"3\"
repeat n:
    yield \"/ac Observe\"
set q from game: \"quality\"
if q >= 1000: log \"done\"

Environment:
────────────────────────────────
PCRAFT_CONFIG / PCRAFT_MACROS_DIR → Configuration file / macro directory
PCRAFT_WORLD                      → Simulated game state (JSON)
PCRAFT_OUTPUT_LOG=1               → Append echoed lines to logs/run_latest.log
RUST_LOG=debug                    → Diagnostics on stderr
\n"

end MacroEngine.CommandLine
