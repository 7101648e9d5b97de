import MacroEngine.Text.Blank
import MacroEngine.Text.Case
import MacroEngine.Text.Lines

/-! Blocks on one line. A header with its only statement behind the colon is split into a header
line and a line that is four blanks deeper. -/
namespace MacroEngine.Script
open Text

/-- The text up to and with the first colon outside quotes, and what follows; `quote` is the
quote that is open. -/
def splitAtColon (quote : Option Char) : List Char → Option (List Char × List Char)
  | [] => none
  | c :: cs =>
    if c = ':' && quote.isNone then some ([c], cs)
    else
      let quote := match quote with
        | some q => if c = q then none else quote
        | none => if c = '"' || c = '\'' then some c else none
      (splitAtColon quote cs).map fun (head, tail) => (c :: head, tail)

def isHeader (cs : List Char) : Bool :=
  let lower := cs.map asciiLower
  [['i', 'f', ' '], ['e', 'l', 'i', 'f', ' '], ['e', 'l', 's', 'e'],
    ['r', 'e', 'p', 'e', 'a', 't', ' ']].any fun word => word.isPrefixOf lower

def isCommentOnly : List Char → Bool
  | '#' :: _ => true
  | '/' :: '/' :: _ => true
  | _ => false

def expandLine (cs : List Char) : List (List Char) :=
  let body := trimStart cs
  let indent := cs.takeWhile isBlank
  match if isHeader body then splitAtColon none body else none with
  | none => [cs]
  | some (head, tail) =>
    let tail := trim tail
    if tail.isEmpty || isCommentOnly tail then [cs]
    else [indent ++ head, indent ++ [' ', ' ', ' ', ' '] ++ tail]

def expandBlocks (cs : List Char) : List Char :=
  ((lines cs).flatMap expandLine).flatMap fun line => line ++ ['\n']

end MacroEngine.Script
