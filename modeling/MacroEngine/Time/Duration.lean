import MacroEngine.Number.Decimal

/-! Spans of time in nanoseconds, and moments in whole milliseconds. -/
namespace MacroEngine
open Number

/-- Milliseconds since the start. -/
abbrev Moment := Nat

structure Duration where
  nanos : Nat
  deriving DecidableEq, Repr

namespace Duration

def nanosPerSecond : Nat := tenTo 9

def nanosPerMilli : Nat := tenTo 6

def ofMillis (n : Nat) : Duration := ⟨n * nanosPerMilli⟩

def ofSeconds (n : Nat) : Duration := ⟨n * nanosPerSecond⟩

/-- The longest span: whole seconds of 64 bits and the last nanosecond. -/
def max : Duration := ⟨(max64 + 1) * nanosPerSecond - 1⟩

/-- Seconds as a span, to the nearest nanosecond; nothing for `2 ^ 64` seconds or more. What is
negative or not a number counts as zero. -/
def ofSeconds? (secs : Binary64) : Option Duration :=
  match secs.atLeastZero with
  | .finite _ rank =>
    if Binary64.units rank < (max64 + 1) * Binary64.unitsPerOne then
      some ⟨roundHalfEven (Binary64.units rank * nanosPerSecond) Binary64.unitsPerOne⟩
    else none
  | _ => none

def text (d : Duration) : String :=
  let inUnit (width : Nat) (unit : String) :=
    String.ofList (digits (d.nanos / tenTo width) ++ fraction width (d.nanos % tenTo width)) ++ unit
  if tenTo 9 ≤ d.nanos then inUnit 9 "s"
  else if tenTo 6 ≤ d.nanos then inUnit 6 "ms"
  else if tenTo 3 ≤ d.nanos then inUnit 3 "µs"
  else inUnit 0 "ns"

end Duration
end MacroEngine
