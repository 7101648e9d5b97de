import MacroEngine.Number.Decimal

/-! JSON values as they were written. A number keeps its spelling, because whole numbers and
fractions are read apart; a string is absent when its escapes hold half of a surrogate pair, which
matters only where the string is used. -/
namespace MacroEngine
open Number

/-- A number as written; `places` and `exponent` are absent when it has none. -/
structure Numeral where
  negative : Bool
  whole : List Char
  places : Option (List Char)
  exponent : Option (Bool × List Char)
  deriving DecidableEq

inductive Json where
  | null
  | bool (value : Bool)
  | number (value : Numeral)
  | string (value : Option String)
  | array (items : List Json)
  | object (fields : List (Option String × Json))

namespace Numeral

def isWhole (n : Numeral) : Bool := n.places.isNone && n.exponent.isNone

/-- Digits taken into `sum` as long as 64 bits hold it; the rest of them is left. -/
def collect (sum : Nat) : List Char → Nat × List Char
  | [] => (sum, [])
  | c :: cs =>
    let next := 10 * sum + digitValue c
    if next ≤ max64 then collect next cs else (sum, c :: cs)

def tenTo (n : Nat) : Binary64 := Decimal.round false ⟨1, n⟩

/-- Division by a power of ten, in strides of `10 ^ 308`. -/
def shrink (x : Binary64) (n : Nat) : Binary64 :=
  if x.isZero then x
  else if n ≤ 308 then x.div (tenTo n)
  else shrink (x.div (tenTo 308)) (n - 308)
  termination_by n

def grow (x : Binary64) (n : Nat) : Option Binary64 :=
  if n ≤ 308 then
    let y := x.mul (tenTo n)
    if y.isFinite then some y else none
  else if x.isZero then some x else none

def scale (x : Binary64) (exponent : Int) : Option Binary64 :=
  if 0 ≤ exponent then grow x exponent.toNat else some (shrink x (-exponent).toNat)

/-- The floating point value: the leading digits that fit into 64 bits, rounded, then scaled by
one power of ten, also rounded. Values past the last finite number have none, and an exponent of
more than 31 bits decides alone. -/
def toBinary64? (n : Numeral) : Option Binary64 := do
  let (sum, carry) := collect 0 n.whole
  let places := n.places.getD []
  let (sum, dropped) := collect sum places
  let start : Int := carry.length - (places.length - dropped.length : Nat)
  let magnitude ← match n.exponent with
    | none => scale (.ofNat sum) start
    | some (down, ds) =>
      let e := ofDigits ds
      if 0x80000000 ≤ e then if sum ≠ 0 && !down then none else some (.zero false)
      else scale (.ofNat sum) (if down then start - e else start + e)
  pure (if n.negative then magnitude.neg else magnitude)

end Numeral
end MacroEngine
