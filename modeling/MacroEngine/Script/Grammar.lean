import MacroEngine.Script.Inline
import MacroEngine.Script.Lexer
import MacroEngine.Script.Program

/-! From tokens to programs, and so from script text.

Expressions: `or` binds weakest, then `and`, then one comparison, then `+ -`, then `* / %`, then
unary minus, which stands for a subtraction from zero. All but the comparison repeat, to the
left. They are read with a stack of what waits for an operand on its right. -/
namespace MacroEngine.Script

def Operator.ofToken? : Token → Option Operator
  | .plus => some .add
  | .minus => some .sub
  | .star => some .mul
  | .slash => some .div
  | .percent => some .mod
  | .greater => some .gt
  | .less => some .lt
  | .greaterEqual => some .ge
  | .lessEqual => some .le
  | .equals => some .eq
  | .notEquals => some .ne
  | .andWord => some .and
  | .orWord => some .or
  | _ => none

def Operator.level : Operator → Nat
  | .or => 1
  | .and => 2
  | .gt | .lt | .ge | .le | .eq | .ne => 3
  | .add | .sub => 4
  | .mul | .div | .mod => 5

def Operator.isComparison (op : Operator) : Bool := op.level = 3

/-- What waits for an operand: an operator with its left side, a minus, or a parenthesis. -/
inductive Pending where
  | left (side : Expr) (op : Operator)
  | minus
  | paren
  deriving DecidableEq

def negate : List Pending → Expr → List Pending × Expr
  | .minus :: stack, v => negate stack (.binary (.number "0") .sub v)
  | stack, v => (stack, v)

/-- Operators that bind at least as tightly as `op` take `v` as their right side. Nothing when
`op` would be the second comparison of one level. -/
def shift (op : Operator) : List Pending → Expr → Option (List Pending)
  | .left side op' :: stack, v =>
    if op.level < op'.level then shift op stack (.binary side op' v)
    else if op.level = op'.level then
      if op.isComparison then none else shift op stack (.binary side op' v)
    else some (.left v op :: .left side op' :: stack)
  | stack, v => some (.left v op :: stack)

def close : List Pending → Expr → List Pending × Expr
  | .left side op :: stack, v => close stack (.binary side op v)
  | stack, v => (stack, v)

def fail (line : Nat) (fault : ParseFault) : Except ScriptError α := .error (.parse line fault)

mutual
def operand (stack : List Pending) : List Lexeme → Except ScriptError (Expr × List Lexeme)
  | [] => fail 0 .unexpectedEnd
  | t :: rest =>
    match t.token with
    | .minus => operand (.minus :: stack) rest
    | .openParen => operand (.paren :: stack) rest
    | .number n => operator stack (.number n) rest
    | .str s => operator stack (.str s) rest
    | .ident v => operator stack (.var v) rest
    | other => fail t.line (.noValue other)
/-- The operand `v` is complete. The expression goes on with an operator or a closing
parenthesis, or it ends. -/
def operator (stack : List Pending) (v : Expr) : List Lexeme → Except ScriptError (Expr × List Lexeme)
  | [] =>
    match close (negate stack v).1 (negate stack v).2 with
    | ([], v) => .ok (v, [])
    | _ => fail 0 .noCloseParen
  | t :: rest =>
    let (stack, v) := negate stack v
    match (Operator.ofToken? t.token).bind fun op => shift op stack v with
    | some stack => operand stack rest
    | none =>
      match close stack v with
      | (.paren :: stack, v) =>
        if t.token = .closeParen then operator stack v rest else fail t.line .noCloseParen
      | (_, v) => .ok (v, t :: rest)
end

def expression (ts : List Lexeme) : Except ScriptError (Expr × List Lexeme) := operand [] ts

def peek : List Lexeme → Token
  | [] => .eof
  | t :: _ => t.token

def lineOf : List Lexeme → Nat
  | [] => 0
  | t :: _ => t.line

def expect (token : Token) (fault : ParseFault) (ts : List Lexeme) :
    Except ScriptError (List Lexeme) :=
  if peek ts = token then .ok ts.tail else fail (lineOf ts) fault

def lineEnd (stmt : Stmt) (ts : List Lexeme) : Except ScriptError (Stmt × List Lexeme) :=
  match peek ts with
  | .newline => .ok (stmt, ts.tail)
  | .eof | .dedent => .ok (stmt, ts)
  | _ => fail (lineOf ts) .noLineEnd

def assignment (line : Nat) (ts : List Lexeme) : Except ScriptError (Stmt × List Lexeme) := do
  let .ident name := peek ts | fail line .noVariable
  let ts := ts.tail
  match peek ts with
  | .assign =>
    let (value, ts) ← expression ts.tail
    lineEnd (.assign name value) ts
  | .fromWord =>
    let ts ← expect .gameWord .noGame ts.tail
    let ts ← expect .colon .noColonAfterGame ts
    let .str text := peek ts | fail line .noQuery
    match Query.read text.toList with
    | some query => lineEnd (.ask name query) ts.tail
    | none => .error (.unknownQuery line text)
  | _ => fail line .noAssignment

def openBlock (ts : List Lexeme) : Except ScriptError (List Lexeme) := do
  let ts ← expect .colon .noColon ts
  let ts ← expect .newline .noNewLine ts
  expect .indent .noBlock ts

mutual
/-- One statement, from `fuel` levels of blocks and branches at most. -/
def statement (fuel : Nat) (ts : List Lexeme) : Except ScriptError (Stmt × List Lexeme) :=
  match fuel with
  | 0 => fail (lineOf ts) .unexpectedEnd
  | fuel + 1 =>
    match peek ts with
    | .yieldWord => do
      let (command, rest) ← expression ts.tail
      lineEnd (.yield (lineOf ts) command) rest
    | .logWord => do
      let (message, rest) ← expression ts.tail
      lineEnd (.log message) rest
    | .setWord => assignment (lineOf ts) ts.tail
    | .ifWord => do
      let (condition, rest) ← expression ts.tail
      let (body, rest) ← block fuel rest
      let (elifs, rest) ← elifBlocks fuel rest
      if peek rest = .elseWord then
        let (otherwise, rest) ← block fuel rest.tail
        pure (.branch condition body elifs (some otherwise), rest)
      else pure (.branch condition body elifs none, rest)
    | .repeatWord => do
      let (count, rest) ← expression ts.tail
      let (body, rest) ← block fuel rest
      pure (.repeated (lineOf ts) count body, rest)
    | other => fail (lineOf ts) (.unexpectedToken other)
def block (fuel : Nat) (ts : List Lexeme) : Except ScriptError (List Stmt × List Lexeme) :=
  match fuel with
  | 0 => fail (lineOf ts) .unexpectedEnd
  | fuel + 1 => do blockRest fuel (← openBlock ts)
def blockRest (fuel : Nat) (ts : List Lexeme) : Except ScriptError (List Stmt × List Lexeme) :=
  match fuel with
  | 0 => fail (lineOf ts) .unexpectedEnd
  | fuel + 1 =>
    match peek ts with
    | .dedent => .ok ([], ts.tail)
    | .eof => .ok ([], ts)
    | .newline => blockRest fuel ts.tail
    | _ => do
      let (stmt, rest) ← statement fuel ts
      let (stmts, rest) ← blockRest fuel rest
      pure (stmt :: stmts, rest)
def elifBlocks (fuel : Nat) (ts : List Lexeme) : Except ScriptError (List (Expr × List Stmt) × List Lexeme) :=
  match fuel with
  | 0 => fail (lineOf ts) .unexpectedEnd
  | fuel + 1 =>
    if peek ts = .elifWord then do
      let (condition, rest) ← expression ts.tail
      let (body, rest) ← block fuel rest
      let (elifs, rest) ← elifBlocks fuel rest
      pure ((condition, body) :: elifs, rest)
    else .ok ([], ts)
end

def topLevel (fuel : Nat) (ts : List Lexeme) : Except ScriptError Program :=
  match fuel with
  | 0 => fail (lineOf ts) .unexpectedEnd
  | fuel + 1 =>
    match peek ts with
    | .eof => .ok []
    | .newline => topLevel fuel ts.tail
    | .dedent | .indent => fail (lineOf ts) .unexpectedIndentation
    | _ => do
      let (stmt, rest) ← statement fuel ts
      let stmts ← topLevel fuel rest
      pure (stmt :: stmts)

/-- The program of a token stream. Every level of the descent but four takes a token. -/
def Program.ofLexemes (ts : List Lexeme) : Except ScriptError Program :=
  topLevel (4 * ts.length + 4) ts

namespace Program

def read (cs : List Char) : Except ScriptError Program := do ofLexemes (← lexemes cs)

def ofSource (source : String) : Except ScriptError Program :=
  read (expandBlocks (Text.normalize source.toList))

end Program
end MacroEngine.Script
