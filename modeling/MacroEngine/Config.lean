import MacroEngine.Json.Record
import MacroEngine.Text.Blank
import MacroEngine.Time.Duration

/-! Settings of the engine: built-in values, then a JSON file, then the environment, and at the
end every value brought into its range. -/
namespace MacroEngine
open Text Number

/-- What a soft error does to a run. -/
inductive Reaction where
  | stop
  | continue
  deriving DecidableEq, Repr

def Reaction.name : Reaction → String
  | .stop => "stop"
  | .continue => "continue"

def Reaction.ofName? : String → Option Reaction
  | "stop" => some .stop
  | "continue" => some .continue
  | _ => none

/-- Where a soft error comes from. -/
inductive Site where
  | actionTimeout | itemNotFound | itemUnusable | targetNotFound | addonNotFound
  | addonNotVisible | requireTimeout | clickFailed | other
  deriving DecidableEq, Repr

namespace Site

def all : List Site :=
  [.actionTimeout, .itemNotFound, .itemUnusable, .targetNotFound, .addonNotFound,
    .addonNotVisible, .requireTimeout, .clickFailed, .other]

def name : Site → String
  | .actionTimeout => "action_timeout"
  | .itemNotFound => "item_not_found"
  | .itemUnusable => "item_unusable"
  | .targetNotFound => "target_not_found"
  | .addonNotFound => "addon_not_found"
  | .addonNotVisible => "addon_not_visible"
  | .requireTimeout => "require_timeout"
  | .clickFailed => "click_failed"
  | .other => "other"

def index : Site → Nat
  | .actionTimeout => 0
  | .itemNotFound => 1
  | .itemUnusable => 2
  | .targetNotFound => 3
  | .addonNotFound => 4
  | .addonNotVisible => 5
  | .requireTimeout => 6
  | .clickFailed => 7
  | .other => 8

end Site

abbrev ErrorPolicy := Site → Reaction

/-- A click that fails is passed over; anything else stops the run. -/
def ErrorPolicy.default : ErrorPolicy
  | .clickFailed => .continue
  | _ => .stop

structure CraftLayout where
  useTemplate : Bool
  template : String
  /-- The loop begins at the crafting log and not in the middle of a synthesis. -/
  fromRecipeNote : Bool
  echo : Bool
  maxWaitSecs : Nat
  deriving DecidableEq

def CraftLayout.default : CraftLayout where
  useTemplate := false
  template := "/craft \x7b\x7bcount\x7d\x7d\n/waitaddon \"RecipeNote\" <maxwait.5>\n" ++
    "/click synthesize\n/waitaddon \"Synthesis\" <maxwait.5>\n\x7b\x7bmacro\x7d\x7d\n/loop"
  fromRecipeNote := true
  echo := false
  maxWaitSecs := 5

structure Config where
  maxRetries : Nat
  ackTimeoutMs : Nat
  pollMs : Nat
  defaultMaxWait : Binary64
  loopEcho : Bool
  loopTotal : Bool
  smartWait : Bool
  craftSkip : Bool
  qualitySkip : Bool
  craftLoop : CraftLayout
  macrosDir : String
  onError : ErrorPolicy

inductive ConfigError where
  | io (path cause : String)
  | json (path cause : String)
  | template
  deriving DecidableEq, Repr

def ConfigError.message : ConfigError → String
  | .io path cause => "cannot read config " ++ path ++ ": " ++ cause
  | .json path cause => "invalid config " ++ path ++ ": " ++ cause
  | .template => "craft loop template must contain \x7b\x7bmacro\x7d\x7d"

namespace ErrorPolicy

def ofReactions (reactions : List Reaction) : ErrorPolicy := fun site =>
  reactions[site.index]?.getD .stop

def ofJson? (j : Json) : Option ErrorPolicy :=
  if j.isRecord Site.all.length then
    (Site.all.mapM fun site =>
      j.field? site.index site.name (Json.choice? Reaction.ofName?) (some (default site))).map
        ofReactions
  else none

end ErrorPolicy

def CraftLayout.ofJson? (j : Json) : Option CraftLayout :=
  if j.isRecord 5 then do
    let d := default
    let useTemplate ← j.field? 0 "use_template" Json.bool? d.useTemplate
    let template ← j.field? 1 "template" Json.string? d.template
    let fromRecipeNote ← j.field? 2 "from_recipe_note" Json.bool? d.fromRecipeNote
    let echo ← j.field? 3 "echo" Json.bool? d.echo
    let maxWaitSecs ← j.field? 4 "max_wait_secs" (Json.upTo? max32) d.maxWaitSecs
    pure ⟨useTemplate, template, fromRecipeNote, echo, maxWaitSecs⟩
  else none

namespace Config

def maxRetriesLimit : Nat := 10

def fallbackMaxWait : Binary64 := .ofNat 5

def default : Config where
  maxRetries := 3
  ackTimeoutMs := 10000
  pollMs := 100
  defaultMaxWait := fallbackMaxWait
  loopEcho := false
  loopTotal := false
  smartWait := false
  craftSkip := true
  qualitySkip := true
  craftLoop := .default
  macrosDir := "macros"
  onError := .default

def ofJson? (j : Json) : Option Config :=
  if j.isRecord 12 then do
    let d := default
    let maxRetries ← j.field? 0 "max_timeout_retries" (Json.upTo? max8) d.maxRetries
    let ackTimeoutMs ← j.field? 1 "action_ack_timeout_ms" (Json.upTo? max64) d.ackTimeoutMs
    let pollMs ← j.field? 2 "poll_interval_ms" (Json.upTo? max64) d.pollMs
    let defaultMaxWait ← j.field? 3 "default_max_wait_secs" Json.binary64? d.defaultMaxWait
    let loopEcho ← j.field? 4 "loop_echo" Json.bool? d.loopEcho
    let loopTotal ← j.field? 5 "loop_total" Json.bool? d.loopTotal
    let smartWait ← j.field? 6 "smart_wait" Json.bool? d.smartWait
    let craftSkip ← j.field? 7 "craft_skip" Json.bool? d.craftSkip
    let qualitySkip ← j.field? 8 "quality_skip" Json.bool? d.qualitySkip
    let craftLoop ← j.field? 9 "craft_loop" CraftLayout.ofJson? d.craftLoop
    let macrosDir ← j.field? 10 "macros_dir" Json.string? d.macrosDir
    let onError ← j.field? 11 "on_error" ErrorPolicy.ofJson? d.onError
    pure ⟨maxRetries, ackTimeoutMs, pollMs, defaultMaxWait, loopEcho, loopTotal, smartWait,
      craftSkip, qualitySkip, craftLoop, macrosDir, onError⟩
  else none

/-- A default wait that cannot be waited is replaced, retries are bounded, polls take time. -/
def normalized (c : Config) : Config :=
  { c with
    maxRetries := min c.maxRetries maxRetriesLimit
    pollMs := max c.pollMs 1
    defaultMaxWait :=
      if c.defaultMaxWait = .nan || c.defaultMaxWait.lt (.zero false) ||
          (Duration.ofSeconds? c.defaultMaxWait).isNone then fallbackMaxWait
      else c.defaultMaxWait }

abbrev Environment := String → Option String

/-- A variable that is set and not blank, without the blanks around it. -/
def Environment.given (env : Environment) (name : String) : Option String :=
  ((env name).map trimmed).filter (· ≠ "")

def Environment.upTo (env : Environment) (limit : Nat) (name : String) : Option Nat :=
  (env name).bind fun v => readUpTo limit (trim v.toList)

def override (env : Environment) (c : Config) : Config :=
  { c with
    maxRetries := (env.upTo max8 "PCRAFT_MAX_RETRIES").getD c.maxRetries
    ackTimeoutMs := (env.upTo max64 "PCRAFT_ACK_TIMEOUT_MS").getD c.ackTimeoutMs
    pollMs := (env.upTo max64 "PCRAFT_POLL_MS").getD c.pollMs
    macrosDir := (env.given "PCRAFT_MACROS_DIR").getD c.macrosDir }

abbrev ReadFile := String → Except String String

def ofFile (readFile : ReadFile) (path : String) : Except ConfigError Config := do
  let text ← (readFile path).mapError (.io path)
  match (Json.ofText? text).bind ofJson? with
  | some c => pure c.normalized
  | none => throw (.json path "it does not describe a configuration")

/-- The settings of a file, else of the file that the environment names, else the built-in ones,
with the environment's own values over them. -/
def load (readFile : ReadFile) (env : Environment) (path : Option String) :
    Except ConfigError Config := do
  let c ← match path.or (env.given "PCRAFT_CONFIG") with
    | some path => ofFile readFile path
    | none => pure default
  pure (c.override env).normalized

def pollInterval (c : Config) : Duration := .ofMillis c.pollMs

def ackTimeout (c : Config) : Duration := .ofMillis c.ackTimeoutMs

def maxWait (c : Config) : Duration :=
  (Duration.ofSeconds? c.defaultMaxWait).getD (.ofSeconds 5)

end Config
end MacroEngine
