import MacroEngine.Run.Retry

/-! What each command does, as an activity that ends in where to go next. -/
namespace MacroEngine
open Text Number

structure Rules where
  config : Config
  library : Library

inductive Flow where
  | next
  | jump (index : Nat)
  /-- The invocation is over before the end of its steps. -/
  | finish
  /-- Another macro runs first, and after it the wait of this step. -/
  | enter (name : String) (routine : Routine) (wait : WaitSpan)
  deriving DecidableEq

namespace Execution
open Activity

def rest (span : WaitSpan) : Activity Unit := .pause span (.done ())

def change (m : Mark) : Activity Unit := .mark m (.done ())

def tell (wanted : Bool) (news : Option String) : Activity Unit :=
  match wanted, news with
  | true, some text => .echo text (.done ())
  | _, _ => .done ()

def demand (line : Nat) (site : Site) (what : String) (limit : Duration) (holds : View → Bool) :
    Activity Unit :=
  .await holds limit fun
    | true => .done ()
    | false => .fail site (.conditionTimeout line what limit)

def orderly (line : Nat) (site : GameError → Site) (wait : WaitSpan) (order : Order) :
    Activity Flow :=
  .perform order fun
    | .ok _ => .pause wait (.done .next)
    | .error e => .fail (site e) (.refused line e)

def itemSite : GameError → Site
  | .notFound _ => .itemNotFound
  | .notAvailable _ => .itemUnusable
  | .timeout _ => .other

def skips (config : Config) (condition : Option (List ConditionTerm)) (name : String)
    (view : View) : Bool :=
  condition.any (fun terms => !matchesAny terms view.condition) ||
  config.craftSkip && (view.category name).isCrafting && view.condition.isNone ||
  config.qualitySkip && decide (view.category name = .quality) && view.hqChance.any (100 ≤ ·)

/-- An action, unless it is passed over; then the wait, or with smart waits the end of what the
game is busy with. -/
def act (config : Config) (line : Nat) (eff : Effective) (name : String) : Activity Flow :=
  .look fun view =>
    if skips config eff.condition name view then .done .next
    else do
      match ← Retry.issue config.maxRetries config.ackTimeout name eff.unconfirmed with
      | .refused e => .fail .other (.refused line e)
      | .exhausted attempts last => .fail .actionTimeout (.retryExhausted line name attempts last)
      | .success _ =>
        if config.smartWait && !eff.unconfirmed then
          .await (fun view => !view.isBusy) eff.maxWait fun _ => .done .next
        else .pause eff.wait (.done .next)

/-- A gate counts the pass, lets a pending request take effect, and then waits. -/
def gate (index count : Nat) (eff : Effective) (frames : List Frame) : Activity Flow := do
  let crossing := Frames.crossGate index count eff.echo frames
  change .crossed
  change (.frames crossing.frames)
  tell eff.echo crossing.news
  change .boundary
  if crossing.again then .pause eff.wait (.done .next) else pure .finish

/-- A loop waits before it counts. On the first step it only opens the body, which its frame
repeats at the end of the steps; with no passes at all the body never runs. -/
def loop (config : Config) (index : Nat) (count : LoopCount) (eff : Effective)
    (frames : List Frame) : Activity Flow := do
  rest eff.wait
  if index = 0 then
    if count = .finite 0 then
      tell eff.echo (some "Loops complete")
      pure .finish
    else
      change (.frames (Frames.enterHeader count eff.echo frames))
      pure .next
  else
    let crossing := Frames.crossLoop index count config.loopTotal eff.echo frames
    change .crossed
    change (.frames crossing.frames)
    tell eff.echo crossing.news
    change .boundary
    pure (if crossing.again then .jump 0 else .next)

def check (reason : String) (wait : WaitSpan) (trips : View → Bool) : Activity Flow :=
  .look fun view =>
    if trips view then .mark (.held reason) (.done .next) else .pause wait (.done .next)

def waitAddon (line : Nat) (eff : Effective) (name : String) : Activity Flow :=
  .await (fun view => decide (view.addon name = .visible)) eff.maxWait fun
    | true => .pause eff.wait (.done .next)
    | false => .look fun view =>
      let site := if view.addon name = .missing then Site.addonNotFound else .addonNotVisible
      .fail site (.conditionTimeout line ("addon " ++ name) eff.maxWait)

/-- Enter another macro, if that is none of those under way. -/
def enter (library : Library) (chain : List String) (eff : Effective) (name : String) :
    Activity Flow :=
  if chain.any fun n => sameName n name then .fail .other (.cycle (chain ++ [name]))
  else match library.native name with
    | .error e => .fail .other (.library e)
    | .ok routine => .done (.enter name routine eff.wait)

def statsText (stats : CraftStats) : String :=
  "stats " ++ toString stats.craftsmanship ++ " / " ++ toString stats.control ++ " / " ++
    toString stats.cp

/-- A command with its modifiers settled; `chain` names the macros under way, outermost first. -/
def command (rules : Rules) (chain : List String) (index : Nat) (frames : List Frame)
    (step : Step) (eff : Effective) : Activity Flow :=
  let line := step.line
  let require (what : String) (holds : View → Bool) : Activity Flow := do
    demand line .requireTimeout what eff.maxWait holds
    .pause eff.wait (.done .next)
  let order := orderly line (fun _ => .other) eff.wait
  match step.command with
  | .action name => act rules.config line eff name
  | .click button => orderly line (fun _ => .clickFailed) eff.wait (.click button)
  | .craft count => gate index count eff frames
  | .loop count => loop rules.config index count eff frames
  | .recipe name => order (.recipe name)
  | .require status => require ("status " ++ quoted status) fun view => view.hasStatus status
  | .requireQuality least =>
    require ("quality " ++ toString least) fun view => view.quality.any (least ≤ ·)
  | .requireStats least => require (statsText least) fun view => view.stats.meets least
  | .requireRepair => check "gear needs repair" eff.wait fun view => view.needsRepair
  | .requireSpiritbond below =>
    check "materia can be extracted" eff.wait fun view => view.spiritbondReady below
  | .item name => orderly line itemSite eff.wait (.item name eff.hq)
  | .runMacro name => enter rules.library chain eff name
  | .send keys => order (.keys .press keys)
  | .hold keys => order (.keys .hold keys)
  | .release keys => order (.keys .release keys)
  | .target name =>
    orderly line (fun _ => .targetNotFound) eff.wait (.target name eff.index eff.list)
  | .waitAddon name => waitAddon line eff name
  | .wait span => .pause span (.done .next)
  | .echo text => .echo text (.pause eff.wait (.done .next))
  | .native name =>
    order (.native (String.ofList (trimEnd ('/' :: name.toList ++ ' ' :: step.rawArgs.toList))))

def step (rules : Rules) (chain : List String) (index : Nat) (frames : List Frame)
    (step : Step) : Activity Flow :=
  .look fun view =>
    let names := if step.modifiers.condition.isSome then view.conditionNames else []
    match resolve rules.config names step with
    | .error e => .fail .other (.modifier step.line e)
    | .ok eff => command rules chain index frames step eff

end Execution
end MacroEngine
