import MacroEngine.Run.Activity

/-! Issuing an action until the game acknowledges it. Each attempt has a ticket of its own and
the whole timeout; the number of attempts is bounded. An unconfirmed action is issued once. -/
namespace MacroEngine
open Number

inductive RetryOutcome where
  | success (attempts : Nat)
  | exhausted (attempts : Nat) (last : GameError)
  /-- The game refused the action, and asking again cannot help. -/
  | refused (error : GameError)
  deriving DecidableEq, Repr

namespace Retry

def maxAttempts (maxRetries : Nat) : Nat := min maxRetries Config.maxRetriesLimit + 1

def attempt (action : String) (ackTimeout : Duration) (used : Nat) : Nat → Activity RetryOutcome
  | 0 => .done (.exhausted used (.timeout ("no acknowledgement for " ++ action)))
  | left + 1 => .issue action fun
    | .error e => .done (.refused e)
    | .ok ticket => .await (fun view => view.isAcknowledged ticket) ackTimeout fun
      | true => .done (.success (used + 1))
      | false => attempt action ackTimeout (used + 1) left

def issue (maxRetries : Nat) (ackTimeout : Duration) (action : String) (unconfirmed : Bool) :
    Activity RetryOutcome :=
  if unconfirmed then .issue action fun
    | .error e => .done (.refused e)
    | .ok _ => .done (.success 1)
  else attempt action ackTimeout 0 (maxAttempts maxRetries)

end Retry
end MacroEngine
