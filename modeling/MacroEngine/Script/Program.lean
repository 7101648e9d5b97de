import MacroEngine.Text.Blank
import MacroEngine.Text.Case

/-! Programs of the script language: expressions over text, queries to the game, statements. -/
namespace MacroEngine.Script
open Text

inductive Operator where
  | add | sub | mul | div | mod | gt | lt | ge | le | eq | ne | and | or
  deriving DecidableEq, Repr

inductive Expr where
  | str (value : String)
  | number (digits : String)
  | var (name : String)
  | binary (left : Expr) (op : Operator) (right : Expr)
  deriving DecidableEq, Repr

inductive Query where
  | status (name : String)
  | addon (name : String)
  | condition
  | quality
  | hqChance
  | item (name : String)
  | target
  deriving DecidableEq, Repr

/-- A query by its first word, in any ASCII case, and a name where it needs one. -/
def Query.read (cs : List Char) : Option Query :=
  let (head, rest) := cutAtBlank (trim cs)
  let rest := trim (rest.getD [])
  let named (make : String → Query) : Option Query :=
    if rest.isEmpty then none else some (make (String.ofList rest))
  let bare (query : Query) : Option Query := if rest.isEmpty then some query else none
  match String.ofList (head.map asciiLower) with
  | "status" => named .status
  | "addon" => named .addon
  | "item" => named .item
  | "condition" => bare .condition
  | "quality" => bare .quality
  | "hq" => bare .hqChance
  | "target" => bare .target
  | _ => none

inductive Stmt where
  /-- Hand a command line to the engine. -/
  | yield (line : Nat) (command : Expr)
  | log (message : Expr)
  | assign (name : String) (value : Expr)
  | ask (name : String) (query : Query)
  /-- The first block whose condition holds, else the last one. -/
  | branch (condition : Expr) (body : List Stmt) (elifs : List (Expr × List Stmt))
      (otherwise : Option (List Stmt))
  | repeated (line : Nat) (count : Expr) (body : List Stmt)
  deriving Repr

abbrev Program := List Stmt

end MacroEngine.Script
