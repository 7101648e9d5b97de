import MacroEngine.Text.Blank
import MacroEngine.Time.Duration

/-! How long a step waits: a fixed number of seconds, or a range from which each execution
draws. Written amounts are digits with an optional fraction. -/
namespace MacroEngine
open Text Number

inductive WaitSpan where
  | fixed (secs : Binary64)
  | range (lo hi : Binary64)
  deriving DecidableEq

/-- Digits with an optional fraction at the start of a text, and what follows them. A point
belongs to the amount only if a digit follows it. -/
def readAmount (cs : List Char) : Option (Binary64 × List Char) :=
  let whole := cs.takeWhile isAsciiDigit
  let rest := cs.dropWhile isAsciiDigit
  let (places, rest) := match rest with
    | '.' :: more =>
      if (more.takeWhile isAsciiDigit).isEmpty then ([], rest)
      else (more.takeWhile isAsciiDigit, more.dropWhile isAsciiDigit)
    | _ => ([], rest)
  if whole.isEmpty then none
  else some (Decimal.round false ⟨ofDigits (whole ++ places), -places.length⟩, rest)

def readSeconds (cs : List Char) : Option Binary64 :=
  match readAmount (trim cs) with
  | some (secs, []) => (Duration.ofSeconds? secs).map fun _ => secs
  | _ => none

namespace WaitSpan

def zero : WaitSpan := .fixed (.zero false)

def isZero : WaitSpan → Bool
  | .fixed secs => secs.isZero
  | .range .. => false

def text : WaitSpan → List Char
  | .fixed secs => secs.text
  | .range lo hi => lo.text ++ '-' :: hi.text

/-- `D` or `D-D` with blanks around it, where a duration can hold the upper amount and a range
does not descend. -/
def read (cs : List Char) : Option WaitSpan :=
  match readAmount (trim cs) with
  | some (secs, []) => (Duration.ofSeconds? secs).map fun _ => .fixed secs
  | some (lo, '-' :: rest) =>
    match readAmount rest with
    | some (hi, []) =>
      if lo.le hi then (Duration.ofSeconds? hi).map fun _ => .range lo hi else none
    | _ => none
  | _ => none

/-- A source of draws: the `n`-th draw from a range. -/
abbrev Draw := Nat → Binary64 → Binary64 → Binary64

namespace Draw

def lowest : Draw := fun _ lo _ => lo

def shares : Nat := 1 <<< 20

def spread (seed : Nat) : Draw := fun n lo hi =>
  let share := (stdNext (stdNext (mkStdGen (seed + n))).2).1 % shares
  let x := lo.add ((hi.sub lo).mul ((Binary64.ofNat share).div (.ofNat shares)))
  if x.lt lo then lo else if hi.lt x then hi else x

end Draw

def isOpen : WaitSpan → Bool
  | .fixed _ => false
  | .range lo hi => lo.lt hi

/-- The span of one execution, of which the `n`-th draw decides only when the range is open. -/
def sample (draw : Draw) (n : Nat) (span : WaitSpan) : Duration :=
  let secs := match span with
    | .fixed secs => secs
    | .range lo hi => if lo.lt hi then draw n lo hi else lo
  (Duration.ofSeconds? secs).getD Duration.max

end WaitSpan
end MacroEngine
