import MacroEngine.Run.Lifecycle
import MacroEngine.Time.Duration

/-! One wait for something to hold, up to a deadline. The deadline is fixed when the wait begins
and keeps nanoseconds; sleeps end at whole milliseconds. Between sleeps of at most one poll
interval the wait looks at the lifecycle and, unless paused or stopped, at what it waits for, the
last time at or after the deadline. -/
namespace MacroEngine

structure Wait where
  /-- In nanoseconds since the start. -/
  deadline : Nat
  /-- The end of the sleep under way. -/
  wake : Moment
  deriving DecidableEq, Repr

inductive Readiness where
  | asleep
  /-- Paused; it goes on when that ends. -/
  | held
  | interrupted
  /-- It is time to look. -/
  | due
  deriving DecidableEq, Repr

inductive Verdict where
  | met
  | late
  | again (wait : Wait)
  deriving DecidableEq, Repr

namespace Wait
open Duration (nanosPerMilli nanosPerSecond)

/-- From here on, in nanoseconds, a clock may have no room for the sum of a moment and a span. -/
def horizon : Nat := 0x8000000000000000 * nanosPerSecond

def farFuture : Duration := .ofSeconds (86400 * 365 * 30)

/-- The first whole millisecond at or after a time in nanoseconds. -/
def ceiling (nanos : Nat) : Moment := (nanos + (nanosPerMilli - 1)) / nanosPerMilli

def start (now : Moment) (limit : Duration) : Wait :=
  let span := if limit.nanos < horizon then limit else farFuture
  ⟨now * nanosPerMilli + span.nanos, now⟩

def readiness (w : Wait) (state : RunState) (now : Moment) : Readiness :=
  if now < w.wake then .asleep
  else match state with
    | .pausedNow => .held
    | .stopped => .interrupted
    | _ => .due

def verdict (w : Wait) (poll : Duration) (now : Moment) (holds : Bool) : Verdict :=
  let time := now * nanosPerMilli
  if holds then .met
  else if w.deadline ≤ time then .late
  else .again { w with
    wake := ceiling (time + min (w.deadline - time) (max poll.nanos nanosPerMilli)) }

end Wait
end MacroEngine
