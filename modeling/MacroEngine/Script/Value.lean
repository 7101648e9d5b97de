import MacroEngine.Number.Decimal
import MacroEngine.Script.Error
import MacroEngine.Script.Program

/-! Values of the script language. Every value is text; two sides that both read as numbers are
compared and combined as numbers, and otherwise as text. -/
namespace MacroEngine.Script
open Text Number

/-- The variables in the order in which they were first assigned. -/
structure Variables where
  entries : List (String × String)
  deriving DecidableEq, Repr

namespace Variables

def empty : Variables := ⟨[]⟩

def get? (vars : Variables) (name : String) : Option String := vars.entries.lookup name

def put (name value : String) : List (String × String) → List (String × String)
  | [] => [(name, value)]
  | (n, v) :: rest => if n = name then (n, value) :: rest else (n, v) :: put name value rest

def set (vars : Variables) (name value : String) : Variables := ⟨put name value vars.entries⟩

end Variables

def numberOf (s : String) : Option Binary64 := Binary64.ofText? (trim s.toList)

def numbers? (left right : String) : Option (Binary64 × Binary64) := do
  pure (← numberOf left, ← numberOf right)

def truthy (s : String) : Bool :=
  let v := (trim s.toList).map asciiLower
  if v.isEmpty || v = ['f', 'a', 'l', 's', 'e'] || v = ['n', 'o', 'n', 'e'] then false
  else match Binary64.ofText? v with
    | some x => !x.isZero
    | none => true

/-- The order of two values: of numbers by size, where what is not a number equals all; of text
in lower case, by code points. -/
def order (left right : String) : Ordering :=
  match numbers? left right with
  | some (x, y) => (x.order? y).getD .eq
  | none => compare (String.ofList (lower (trim left.toList))) (String.ofList (lower (trim right.toList)))

def ofBool (b : Bool) : String := if b then "true" else "false"

def arithmetic (operation : String) (left right : String)
    (f : Binary64 → Binary64 → Option Binary64) : Except ScriptError String :=
  match numbers? left right with
  | none => .error (.runtime (.notNumbers operation (trimmed left) (trimmed right)))
  | some (x, y) =>
    match f x y with
    | some z => .ok z.toText
    | none => .error (.runtime (.byZero operation))

def apply (op : Operator) (left right : String) : Except ScriptError String :=
  match op with
  | .add => match numbers? left right with
    | some (x, y) => .ok (x.add y).toText
    | none => .ok (left ++ right)
  | .sub => arithmetic "subtraction" left right fun x y => some (x.sub y)
  | .mul => arithmetic "multiplication" left right fun x y => some (x.mul y)
  | .div => arithmetic "division" left right fun x y => if y.isZero then none else some (x.div y)
  | .mod => arithmetic "modulo" left right fun x y => if y.isZero then none else some (x.rem y)
  | .gt => .ok (ofBool (order left right == .gt))
  | .lt => .ok (ofBool (order left right == .lt))
  | .ge => .ok (ofBool (order left right != .lt))
  | .le => .ok (ofBool (order left right != .gt))
  | .eq => .ok (ofBool (order left right == .eq))
  | .ne => .ok (ofBool (order left right != .eq))
  | .and => .ok (ofBool (truthy left && truthy right))
  | .or => .ok (ofBool (truthy left || truthy right))

/-- A variable, or one of the constants `true`, `false` and `none` in any ASCII case. -/
def lookUp (vars : Variables) (name : String) : Except ScriptError String :=
  match vars.get? name with
  | some value => .ok value
  | none =>
    let constant := asciiLowered name
    if constant = "true" ∨ constant = "false" ∨ constant = "none" then .ok constant
    else .error (.undefinedVariable name)

/-- The value of an expression; `and` and `or` look at their right side only if they have to. -/
def eval (vars : Variables) : Expr → Except ScriptError String
  | .str s => .ok s
  | .number n => .ok n
  | .var name => lookUp vars name
  | .binary left op right => do
    let l ← eval vars left
    match op with
    | .and => if truthy l then return ofBool (truthy (← eval vars right)) else pure (ofBool false)
    | .or => if truthy l then pure (ofBool true) else return ofBool (truthy (← eval vars right))
    | op =>
      let r ← eval vars right
      apply op l r

/-- How often a block is repeated: a whole number that is not negative. -/
def repeatCount? (s : String) : Option Nat :=
  ((numberOf s).bind Binary64.toNat?).map (min max64)

end MacroEngine.Script
