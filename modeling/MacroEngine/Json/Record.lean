import MacroEngine.Json.Reader

/-! Reading typed values out of JSON. A record is an object, in which unknown fields are ignored
and a known one may be given once, or an array of its fields in order. -/
namespace MacroEngine.Json
open Number

def bool? : Json → Option Bool
  | .bool b => some b
  | _ => none

def upTo? (limit : Nat) : Json → Option Nat
  | .number n =>
    if n.isWhole && !n.negative && ofDigits n.whole ≤ limit then some (ofDigits n.whole) else none
  | _ => none

/-- Any number. A whole one is rounded once; it is held as a whole number while it fits. -/
def binary64? : Json → Option Binary64
  | .number n =>
    if n.isWhole && ofDigits n.whole ≤ max64 then
      let x := Binary64.ofNat (ofDigits n.whole)
      some (if n.negative then x.neg else x)
    else n.toBinary64?
  | _ => none

def string? : Json → Option String
  | .string s => s
  | _ => none

def list? (item : Json → Option α) : Json → Option (List α)
  | .array items => items.mapM item
  | _ => none

def optional? (value : Json → Option α) : Json → Option (Option α)
  | .null => some none
  | j => (value j).map some

/-- One of some names, written as a string or as an object whose only field has that name and
the value null. -/
def choice? (choose : String → Option α) : Json → Option α
  | .string s => s.bind choose
  | .object [(key, .null)] => key.bind choose
  | _ => none

def putLast (name : String) (value : α) (entries : List (String × α)) : List (String × α) :=
  if entries.any (·.1 = name) then
    entries.map fun e => if e.1 = name then (name, value) else e
  else entries ++ [(name, value)]

/-- The entries of an object by name; of equal names the last counts. -/
def table? (value : Json → Option α) : Json → Option (List (String × α))
  | .object fields =>
    fields.foldlM (fun entries (key, j) => do pure (putLast (← key) (← value j) entries)) []
  | _ => none

def isRecord (size : Nat) : Json → Bool
  | .array items => items.length ≤ size
  | .object fields => fields.all (·.1.isSome)
  | _ => false

/-- The field `name`, or in an array the one at `index`; `absent` when it is not given. -/
def field? (record : Json) (index : Nat) (name : String) (value : Json → Option α)
    (absent : Option α) : Option α :=
  match record with
  | .array items =>
    match items[index]? with
    | some j => value j
    | none => absent
  | .object fields =>
    match fields.filter (·.1 = some name) with
    | [] => absent
    | [(_, j)] => value j
    | _ => none
  | _ => none

/-- The field `name` of an object; null when it is not given or the value is no object. -/
def get (j : Json) (name : String) : Json :=
  match j with
  | .object fields =>
    match fields.reverse.find? (·.1 = some name) with
    | some (_, v) => v
    | none => .null
  | _ => .null

mutual
/-- The value in which of equal names in one object only the last counts. -/
def lastOfEach : Json → Json
  | .array items => .array (lastOfItems items)
  | .object fields => .object (lastOfFields fields)
  | j => j
def lastOfItems : List Json → List Json
  | [] => []
  | j :: rest => lastOfEach j :: lastOfItems rest
def lastOfFields : List (Option String × Json) → List (Option String × Json)
  | [] => []
  | (key, j) :: rest =>
    if rest.any (·.1 = key) then lastOfFields rest else (key, lastOfEach j) :: lastOfFields rest
end

end MacroEngine.Json
