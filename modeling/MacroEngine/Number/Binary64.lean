/-! Binary floating point numbers of 64 bits. A finite magnitude is a whole number of units
of `2 ^ -1074`, and is named by its rank: the number of finite magnitudes below it. Arithmetic is
exact on units and rounds once, to the nearest magnitude and in a tie to the even rank. -/
namespace MacroEngine

namespace Number

/-- A quotient rounded to the nearest whole number, a half to the even one. -/
def roundHalfEven (num den : Nat) : Nat :=
  let down := num / den
  let rest := 2 * (num % den)
  if rest < den ∨ rest = den ∧ down % 2 = 0 then down else down + 1

theorem roundHalfEven_one (num : Nat) : roundHalfEven num 1 = num := by
  simp [roundHalfEven, Nat.mod_one]

/-- A whole quotient is returned as it is. -/
theorem roundHalfEven_mul {den : Nat} (h : 0 < den) (n : Nat) : roundHalfEven (n * den) den = n := by
  simp [roundHalfEven, Nat.mul_div_cancel n h, h]

end Number

def rankLimit : Nat := 0x7ff0000000000000

inductive Binary64 where
  | nan
  | infinite (negative : Bool)
  | finite (negative : Bool) (rank : Fin rankLimit)
  deriving DecidableEq

namespace Binary64
open Number

def unitsPerOne : Nat := 1 <<< 1074

/-- Ranks come in runs with one spacing, which doubles from each run to the next after the first
two. -/
def runLength : Nat := 1 <<< 52

/-- The magnitude of a rank, in units. -/
def units (rank : Nat) : Nat :=
  let run := rank / runLength - 1
  (rank - run * runLength) <<< run

def nearestRank (num den : Nat) : Nat :=
  let run := (num / den).log2 - 52
  run * runLength + roundHalfEven num (den <<< run)

/-- The number nearest to `num / den` units; infinite past the last rank. -/
def ofUnits (negative : Bool) (num den : Nat) : Binary64 :=
  if h : nearestRank num den < rankLimit then .finite negative ⟨nearestRank num den, h⟩
  else .infinite negative

def zero (negative : Bool) : Binary64 := .finite negative ⟨0, by decide⟩

def ofNat (n : Nat) : Binary64 := ofUnits false (n * unitsPerOne) 1

def isFinite : Binary64 → Bool
  | .finite .. => true
  | _ => false

def isZero : Binary64 → Bool
  | .finite _ rank => rank.val = 0
  | _ => false

def neg : Binary64 → Binary64
  | .nan => .nan
  | .infinite negative => .infinite !negative
  | .finite negative rank => .finite (!negative) rank

def signed (negative : Bool) (n : Nat) : Int := if negative then -n else n

def add : Binary64 → Binary64 → Binary64
  | .nan, _ | _, .nan => .nan
  | .infinite a, .infinite b => if a = b then .infinite a else .nan
  | .infinite a, _ => .infinite a
  | _, .infinite b => .infinite b
  | .finite a r, .finite b s =>
    let sum := signed a (units r) + signed b (units s)
    if sum = 0 then zero (a && b) else ofUnits (sum < 0) sum.natAbs 1

def sub (x y : Binary64) : Binary64 := add x (neg y)

def mul : Binary64 → Binary64 → Binary64
  | .nan, _ | _, .nan => .nan
  | .infinite a, .infinite b => .infinite (a != b)
  | .infinite a, .finite b s => if s.val = 0 then .nan else .infinite (a != b)
  | .finite a r, .infinite b => if r.val = 0 then .nan else .infinite (a != b)
  | .finite a r, .finite b s => ofUnits (a != b) (units r * units s) unitsPerOne

def div : Binary64 → Binary64 → Binary64
  | .nan, _ | _, .nan => .nan
  | .infinite _, .infinite _ => .nan
  | .infinite a, .finite b _ => .infinite (a != b)
  | .finite a _, .infinite b => zero (a != b)
  | .finite a r, .finite b s =>
    if s.val = 0 then if r.val = 0 then .nan else .infinite (a != b)
    else ofUnits (a != b) (units r * unitsPerOne) (units s)

/-- The remainder of a division toward zero, with the sign of the dividend. -/
def rem : Binary64 → Binary64 → Binary64
  | .nan, _ | _, .nan => .nan
  | .infinite _, _ => .nan
  | .finite a r, .infinite _ => .finite a r
  | .finite a r, .finite _ s =>
    if s.val = 0 then .nan else ofUnits a (units r % units s) 1

/-- Position on the line, where both zeros are at the same place. -/
def place? : Binary64 → Option Int
  | .nan => none
  | .infinite negative => some (signed negative rankLimit)
  | .finite negative rank => some (signed negative rank)

/-- No order when one side is not a number. -/
def order? (x y : Binary64) : Option Ordering := do
  let a ← x.place?
  let b ← y.place?
  pure (compare a b)

def lt (x y : Binary64) : Bool := order? x y == some .lt

def le (x y : Binary64) : Bool := order? x y == some .lt || order? x y == some .eq

def toNat? : Binary64 → Option Nat
  | .finite negative rank =>
    if units rank % unitsPerOne = 0 ∧ (negative = false ∨ rank.val = 0) then
      some (units rank / unitsPerOne)
    else none
  | _ => none

/-- The larger of a number and zero, and zero for what is not a number. -/
def atLeastZero : Binary64 → Binary64
  | .nan => zero false
  | .infinite negative => if negative then zero false else .infinite false
  | .finite negative rank => if negative then zero false else .finite false rank

end Binary64
end MacroEngine
