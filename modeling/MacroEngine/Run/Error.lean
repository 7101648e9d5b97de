import MacroEngine.Game.Basic
import MacroEngine.Library.Basic

/-! What a run can end with. Soft errors go through the error policy; all others end the run. -/
namespace MacroEngine
open Text Script

inductive RunError where
  | parse (error : LineError)
  | modifier (line : Nat) (error : ModifierError)
  | conditionTimeout (line : Nat) (what : String) (waited : Duration)
  | retryExhausted (line : Nat) (action : String) (attempts : Nat) (last : GameError)
  | refused (line : Nat) (error : GameError)
  /-- The names on the stack, outermost first, and the one that would enter it again. -/
  | cycle (chain : List String)
  | unsupported (line : Nat) (command reason : String)
  | library (error : LibraryError)
  | script (error : ScriptError)
  /-- A script that ended by a fault of its host. -/
  | task (text : String)
  | stopped
  deriving DecidableEq

namespace RunError

def message : RunError → String
  | .parse error => "parse error: " ++ error.message
  | .modifier line error => "line " ++ toString line ++ ": " ++ error.message
  | .conditionTimeout line what waited =>
    "line " ++ toString line ++ ": timed out after " ++ waited.text ++ " waiting for " ++ what
  | .retryExhausted line action attempts _ =>
    "line " ++ toString line ++ ": /action " ++ quoted action ++ " got no response after " ++
      toString attempts ++ " attempt(s)"
  | .refused line error => "line " ++ toString line ++ ": " ++ error.message
  | .cycle chain => "macro cycle detected: " ++ String.intercalate " -> " chain
  | .unsupported line command reason =>
    "line " ++ toString line ++ ": /" ++ command ++ " cannot run here: " ++ reason
  | .library error => error.message
  | .script error => "script error: " ++ error.message
  | .task text => "macro task failed: " ++ text
  | .stopped => "macro stopped"

def isSoft : RunError → Bool
  | .conditionTimeout .. | .retryExhausted .. | .refused .. => true
  | _ => false

end RunError
end MacroEngine
