import MacroEngine.Script.Token

/-! What can be wrong with a script, in its text or when it runs. -/
namespace MacroEngine.Script
open Text

inductive LexFault where
  | inconsistentIndentation
  | missingQuote (line : String)
  | unexpectedChar (c : Char)
  deriving DecidableEq, Repr

def LexFault.message : LexFault → String
  | .inconsistentIndentation => "inconsistent indentation"
  | .missingQuote line => "missing closing quote: " ++ line
  | .unexpectedChar c => "unexpected character '" ++ c.toString ++ "'"

inductive ParseFault where
  | unexpectedIndentation
  | noVariable
  | noGame
  | noColonAfterGame
  | noQuery
  | noAssignment
  | unexpectedToken (token : Token)
  | noLineEnd
  | noColon
  | noNewLine
  | noBlock
  | noValue (found : Token)
  | noCloseParen
  | unexpectedEnd
  deriving DecidableEq, Repr

def ParseFault.message : ParseFault → String
  | .unexpectedIndentation => "unexpected indentation"
  | .noVariable => "expected a variable name after 'set'"
  | .noGame => "expected 'game' after 'from'"
  | .noColonAfterGame => "expected ':' after 'from game'"
  | .noQuery => "expected a quoted game query"
  | .noAssignment => "expected '=' or 'from game:'"
  | .unexpectedToken token => "unexpected token " ++ token.text
  | .noLineEnd => "expected end of line"
  | .noColon => "expected ':'"
  | .noNewLine => "expected a new line after ':'"
  | .noBlock => "expected an indented block"
  | .noValue found => "expected a value, found " ++ found.text
  | .noCloseParen => "expected ')'"
  | .unexpectedEnd => "unexpected end of script"

inductive RuntimeFault where
  | notNumbers (operation left right : String)
  | byZero (operation : String)
  | failed (command : String)
  deriving DecidableEq, Repr

def RuntimeFault.message : RuntimeFault → String
  | .notNumbers operation left right =>
    operation ++ " needs numbers, got " ++ quoted left ++ " and " ++ quoted right
  | .byZero operation => operation ++ " by zero"
  | .failed command => command ++ " failed"

inductive ScriptError where
  | lex (line : Nat) (fault : LexFault)
  | parse (line : Nat) (fault : ParseFault)
  | undefinedVariable (name : String)
  | unknownQuery (line : Nat) (query : String)
  | badRepeatCount (line : Nat) (value : String)
  | runtime (fault : RuntimeFault)
  deriving DecidableEq, Repr

def ScriptError.message : ScriptError → String
  | .lex line fault => "line " ++ toString line ++ ": " ++ fault.message
  | .parse line fault => "line " ++ toString line ++ ": " ++ fault.message
  | .undefinedVariable name => "variable '" ++ name ++ "' is not defined"
  | .unknownQuery line query => "line " ++ toString line ++ ": unknown game query " ++ quoted query
  | .badRepeatCount line value =>
    "line " ++ toString line ++ ": repeat count " ++ quoted value ++ " is not a whole number"
  | .runtime fault => fault.message

end MacroEngine.Script
