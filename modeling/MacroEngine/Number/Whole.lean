import MacroEngine.Text.Case

/-! Whole numbers in decimal digits: reading under a limit, writing with leading zeros. -/
namespace MacroEngine.Number
open Text

def digitValue (c : Char) : Nat := c.toNat - '0'.toNat

def ofDigits (cs : List Char) : Nat := cs.foldl (fun n c => 10 * n + digitValue c) 0

def digits (n : Nat) : List Char := Nat.toDigits 10 n

def digitCount (n : Nat) : Nat := (digits n).length

/-- Digits with an optional plus sign, at most `limit`. -/
def readUpTo (limit : Nat) (cs : List Char) : Option Nat :=
  let body := match cs with
    | '+' :: cs => cs
    | cs => cs
  if body.isEmpty || !body.all isAsciiDigit then none
  else if ofDigits body ≤ limit then some (ofDigits body) else none

def max8 : Nat := 0xff
def max32 : Nat := 0xffffffff
def max64 : Nat := 0xffffffffffffffff

def tenTo (n : Nat) : Nat := Nat.pow 10 n

def padded (width n : Nat) : List Char :=
  List.replicate (width - digitCount n) '0' ++ digits n

/-- The places after a decimal point for `part` of `tenTo width`, without trailing zeros;
nothing when `part` is zero. -/
def fraction (width part : Nat) : List Char :=
  if part = 0 then []
  else '.' :: ((padded width part).reverse.dropWhile (· = '0')).reverse

end MacroEngine.Number
