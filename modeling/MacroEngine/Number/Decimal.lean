import MacroEngine.Number.Binary64
import MacroEngine.Number.Whole

/-! Decimal notation of floating point numbers. Reading rounds the written value once. Writing
takes the fewest digits that read back, and of those the nearest, a tie going up; the notation is
positional without an exponent, whole numbers have no point, and zero keeps its sign. -/
namespace MacroEngine
open Text Number

/-- The value `coefficient * 10 ^ exponent`. -/
structure Decimal where
  coefficient : Nat
  exponent : Int
  deriving DecidableEq, Repr

namespace Decimal

/-- The nearest floating point number. The first two cases only keep the powers small: a value
of `10 ^ 310` or more is past the last rank, one below `10 ^ -330` is nearest to zero. -/
def round (negative : Bool) (d : Decimal) : Binary64 :=
  let top := d.exponent + digitCount d.coefficient
  if d.coefficient = 0 ∨ top < -330 then .zero negative
  else if 310 < top then .infinite negative
  else .ofUnits negative (d.coefficient * tenTo d.exponent.toNat * Binary64.unitsPerOne)
    (tenTo (-d.exponent).toNat)

def text (d : Decimal) : List Char :=
  let width := (-d.exponent).toNat
  let whole := d.coefficient * tenTo d.exponent.toNat
  digits (whole / tenTo width) ++ fraction width (whole % tenTo width)

def exact (rank : Nat) : Decimal := ⟨Binary64.units rank * Nat.pow 5 1074, -1074⟩

/-- The least power of ten above a magnitude that is not zero. -/
def magnitude (rank : Nat) : Int :=
  let u := Binary64.units rank
  if Binary64.unitsPerOne ≤ u then digitCount (u / Binary64.unitsPerOne)
  else 1 - digitCount ((Binary64.unitsPerOne - 1) / u)

/-- The two neighbours of a magnitude on the grid of `10 ^ exponent`, the nearer one first. -/
def neighbours (rank : Nat) (exponent : Int) : List Decimal :=
  let num := Binary64.units rank * tenTo (-exponent).toNat
  let den := Binary64.unitsPerOne * tenTo exponent.toNat
  let below := ⟨num / den, exponent⟩
  let above := ⟨num / den + 1, exponent⟩
  if 2 * (num % den) < den then [below, above] else [above, below]

/-- The fewest digits that read back as the magnitude. -/
def shortest (rank : Fin rankLimit) : Decimal :=
  let readsBack d := round false d = .finite false rank
  let top := magnitude rank
  let grids := (List.range 17).flatMap fun (n : Nat) => neighbours rank (top - 1 - n)
  (grids.find? readsBack).getD (exact rank)

end Decimal

namespace Binary64

def text : Binary64 → List Char
  | .nan => ['N', 'a', 'N']
  | .infinite negative => (if negative then ['-'] else []) ++ ['i', 'n', 'f']
  | .finite negative rank =>
    (if negative then ['-'] else []) ++
      if rank.val = 0 then ['0'] else (Decimal.shortest rank).text

def toText (x : Binary64) : String := String.ofList x.text

def readExponent : List Char → Option Int
  | [] => some 0
  | e :: cs =>
    let (negative, body) := match cs with
      | '-' :: cs => (true, cs)
      | '+' :: cs => (false, cs)
      | cs => (false, cs)
    if (e = 'e' ∨ e = 'E') ∧ body ≠ [] ∧ body.all isAsciiDigit then
      some (signed negative (ofDigits body))
    else none

def readFraction : List Char → List Char × List Char
  | '.' :: cs => (cs.takeWhile isAsciiDigit, cs.dropWhile isAsciiDigit)
  | cs => ([], cs)

def readMagnitude (cs : List Char) : Option Decimal :=
  let whole := cs.takeWhile isAsciiDigit
  let (places, rest) := readFraction (cs.dropWhile isAsciiDigit)
  if whole.isEmpty && places.isEmpty then none
  else (readExponent rest).map fun e => ⟨ofDigits (whole ++ places), e - places.length⟩

/-- A number as a script or an argument writes it, with an optional sign; `inf`, `infinity` and
`nan` in any case are numbers too. -/
def ofText? (cs : List Char) : Option Binary64 :=
  let (negative, body) := match cs with
    | '-' :: cs => (true, cs)
    | '+' :: cs => (false, cs)
    | cs => (false, cs)
  let word := String.ofList (body.map asciiLower)
  if word = "inf" ∨ word = "infinity" then some (.infinite negative)
  else if word = "nan" then some .nan
  else (readMagnitude body).map (Decimal.round negative)

end Binary64
end MacroEngine
