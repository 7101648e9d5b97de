import MacroEngine.Text.Quoted

/-! Tokens of the script language. Blocks are marked by `indent` and `dedent`, statements end
with `newline`, and the stream ends with `eof`. -/
namespace MacroEngine.Script
open Text

inductive Token where
  | yieldWord | logWord | setWord | fromWord | gameWord | ifWord | elifWord | elseWord
  | repeatWord | andWord | orWord
  | colon | equals | notEquals | assign
  | str (value : String)
  | ident (name : String)
  | number (digits : String)
  | plus | minus | star | slash | percent
  | greater | less | greaterEqual | lessEqual
  | openParen | closeParen
  | newline | indent | dedent | eof
  deriving DecidableEq, Repr

namespace Token

def kind : Token → String
  | .yieldWord => "Yield"
  | .logWord => "Log"
  | .setWord => "Set"
  | .fromWord => "From"
  | .gameWord => "Game"
  | .ifWord => "If"
  | .elifWord => "Elif"
  | .elseWord => "Else"
  | .repeatWord => "Repeat"
  | .andWord => "And"
  | .orWord => "Or"
  | .colon => "Colon"
  | .equals => "Equals"
  | .notEquals => "NotEquals"
  | .assign => "EqualsAssign"
  | .str _ => "Str"
  | .ident _ => "Ident"
  | .number _ => "Number"
  | .plus => "Plus"
  | .minus => "Minus"
  | .star => "Star"
  | .slash => "Slash"
  | .percent => "Percent"
  | .greater => "GreaterThan"
  | .less => "LessThan"
  | .greaterEqual => "GreaterEqual"
  | .lessEqual => "LessEqual"
  | .openParen => "LParen"
  | .closeParen => "RParen"
  | .newline => "Newline"
  | .indent => "Indent"
  | .dedent => "Dedent"
  | .eof => "Eof"

def content? : Token → Option String
  | .str s | .ident s | .number s => some s
  | _ => none

def text (token : Token) : String :=
  match token.content? with
  | some s => token.kind ++ "(" ++ quoted s ++ ")"
  | none => token.kind

/-- The token of a word, in any case: a keyword or an identifier. -/
def ofWord (word : List Char) : Token :=
  match String.ofList (lower word) with
  | "yield" => .yieldWord
  | "log" => .logWord
  | "set" => .setWord
  | "from" => .fromWord
  | "game" => .gameWord
  | "if" => .ifWord
  | "elif" => .elifWord
  | "else" => .elseWord
  | "repeat" => .repeatWord
  | "and" => .andWord
  | "or" => .orWord
  | _ => .ident (String.ofList word)

end Token

structure Lexeme where
  token : Token
  line : Nat
  deriving DecidableEq, Repr

end MacroEngine.Script
