import MacroEngine.Script.Error
import MacroEngine.Text.Blank
import MacroEngine.Text.Case
import MacroEngine.Text.Lines

/-! From script text to tokens. A line is lexed on its own after its comment is cut off; blanks
at its start open and close blocks. -/
namespace MacroEngine.Script
open Text

/-- The text before the first `#` or `//` outside quotes; `quote` is the quote that is open. -/
def cutComment (quote : Option Char) : List Char → List Char
  | [] => []
  | c :: cs =>
    match quote with
    | some q => c :: cutComment (if c = q then none else quote) cs
    | none =>
      if c = '#' || (c = '/' && cs.head? = some '/') then []
      else c :: cutComment (if c = '"' || c = '\'' then some c else none) cs

def numberAt (cs : List Char) : List Char :=
  let whole := cs.takeWhile isAsciiDigit
  match cs.dropWhile isAsciiDigit with
  | '.' :: rest =>
    let places := rest.takeWhile isAsciiDigit
    if places.isEmpty then whole else whole ++ '.' :: places
  | _ => whole

def isWordChar (c : Char) : Bool := isLetterOrNumeral c || c = '_'

/-- The token at the start of a text that belongs to the line `raw`, and how many characters after
the first belong to it; no token where the text begins with a blank. -/
def tokenAt (raw : List Char) (c : Char) (cs : List Char) : Except LexFault (Option Token × Nat) :=
  let one (t : Token) : Except LexFault (Option Token × Nat) := .ok (some t, 0)
  let orTwo (short long : Token) : Except LexFault (Option Token × Nat) :=
    .ok (if cs.head? = some '=' then (some long, 1) else (some short, 0))
  match c with
  | ':' => one .colon
  | '=' => orTwo .assign .equals
  | '>' => orTwo .greater .greaterEqual
  | '<' => orTwo .less .lessEqual
  | '+' => one .plus
  | '-' => one .minus
  | '*' => one .star
  | '/' => one .slash
  | '%' => one .percent
  | '(' => one .openParen
  | ')' => one .closeParen
  | c =>
    if c = '!' ∧ cs.head? = some '=' then .ok (some .notEquals, 1)
    else if c = '"' ∨ c = '\'' then
      let body := cs.takeWhile (· ≠ c)
      if cs.contains c then .ok (some (.str (String.ofList body)), body.length + 1)
      else .error (.missingQuote (String.ofList raw))
    else if isAsciiDigit c then
      let n := numberAt (c :: cs)
      .ok (some (.number (String.ofList n)), n.length - 1)
    else if isLetter c ∨ c = '_' then
      let word := c :: cs.takeWhile isWordChar
      .ok (some (.ofWord word), word.length - 1)
    else if isBlank c then .ok (none, 0)
    else .error (.unexpectedChar c)

/-- The tokens of a text that belongs to the line `raw`; `skip` characters of the current token
are still to pass over. -/
def lineTokens (raw : List Char) (skip : Nat) : List Char → Except LexFault (List Token)
  | [] => .ok []
  | c :: cs =>
    match skip with
    | skip + 1 => lineTokens raw skip cs
    | 0 => do
      let (token, skip) ← tokenAt raw c cs
      let rest ← lineTokens raw skip cs
      pure (token.toList ++ rest)

/-- The depths of the open blocks, the innermost first, where the outermost is not a block. -/
abbrev Depths := List Nat

def relayout (depth : Nat) : Depths → Option (List Token × Depths)
  | [] => if depth = 0 then some ([], []) else some ([.indent], [depth])
  | top :: outer =>
    if top < depth then some ([.indent], depth :: top :: outer)
    else if depth = top then some ([], top :: outer)
    else closeTo depth (top :: outer)
where
  /-- Closing blocks down to one of depth `depth`. -/
  closeTo (depth : Nat) : Depths → Option (List Token × Depths)
    | [] => if depth = 0 then some ([], []) else none
    | top :: outer =>
      if depth < top then (closeTo depth outer).map fun (ts, open_) => (.dedent :: ts, open_)
      else if depth = top then some ([], top :: outer)
      else none

/-- The lexemes of numbered lines, with the blocks in `depths` open and `last` the line before. -/
def lexemesFrom (depths : Depths) (last : Nat) :
    List (Nat × List Char) → Except ScriptError (List Lexeme)
  | [] => .ok ((depths.map fun _ => ⟨.dedent, last⟩) ++ [⟨.eof, last⟩])
  | (n, raw) :: rest =>
    match trim (cutComment none raw) with
    | [] => lexemesFrom depths n rest
    | body => do
      let some (layout, depths) := relayout (raw.takeWhile (· = ' ')).length depths
        | throw (.lex n .inconsistentIndentation)
      let tokens ← (lineTokens raw 0 body).mapError (.lex n)
      let rest ← lexemesFrom depths n rest
      pure ((layout ++ tokens ++ [Token.newline]).map (⟨·, n⟩) ++ rest)

def lexemes (cs : List Char) : Except ScriptError (List Lexeme) :=
  lexemesFrom [] 0 (numbered 1 (lines cs))

end MacroEngine.Script
