import MacroEngine.Text.Case
import MacroEngine.Text.QuotingTable

/-! Text in double quotes, as messages show it: quotes and backslashes are escaped, and so is
every character that could not be seen on its own. -/
namespace MacroEngine.Text

def isHidden (c : Char) : Bool :=
  if c.toNat < 128 then c < ' ' || c = '\x7f' else inRanges hiddenRanges c || inRanges extenderRanges c

def hexDigit (n : Nat) : Char := Char.ofNat (if n < 10 then 48 + n else 87 + n)

def hexDigits (n : Nat) : List Char :=
  (List.range 6).reverse.filterMap fun k =>
    if k = 0 || n >>> (4 * k) ≠ 0 then some (hexDigit (n >>> (4 * k) % 16)) else none

def quotedChar (c : Char) : List Char :=
  match c with
  | '\x00' => ['\\', '0']
  | '\t' => ['\\', 't']
  | '\r' => ['\\', 'r']
  | '\n' => ['\\', 'n']
  | '"' => ['\\', '"']
  | '\\' => ['\\', '\\']
  | c => if isHidden c then ['\\', 'u', '{'] ++ hexDigits c.toNat ++ ['}'] else [c]

def quoted (s : String) : String :=
  String.ofList ('"' :: s.toList.flatMap quotedChar ++ ['"'])

end MacroEngine.Text
