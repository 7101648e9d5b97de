/-! Lines of a text and pieces between separators. A line ends at a line feed, which may have
one carriage return before it; what follows the last line feed is a line unless it is empty. -/
namespace MacroEngine.Text

/-- The pieces between occurrences of `sep`; `piece` holds the piece under way, reversed. -/
def splitOnFrom (sep : Char) (piece : List Char) : List Char → List (List Char)
  | [] => [piece.reverse]
  | c :: cs =>
    if c = sep then piece.reverse :: splitOnFrom sep [] cs else splitOnFrom sep (c :: piece) cs

def splitOn (sep : Char) (cs : List Char) : List (List Char) := splitOnFrom sep [] cs

/-- A reversed line without the carriage return of its line ending. -/
def dropReturn : List Char → List Char
  | '\r' :: line => line
  | line => line

def linesFrom (line : List Char) : List Char → List (List Char)
  | [] => if line.isEmpty then [] else [line.reverse]
  | c :: cs =>
    if c = '\n' then (dropReturn line).reverse :: linesFrom [] cs else linesFrom (c :: line) cs

def lines (cs : List Char) : List (List Char) := linesFrom [] cs

def numbered (n : Nat) : List α → List (Nat × α)
  | [] => []
  | x :: xs => (n, x) :: numbered (n + 1) xs

def unlines (ls : List (List Char)) : List Char := List.intercalate ['\n'] ls

/-- Line endings CR LF and CR become LF, and a tab four blanks. -/
def evenOut : List Char → List Char
  | '\r' :: '\n' :: cs => '\n' :: evenOut cs
  | '\r' :: cs => '\n' :: evenOut cs
  | '\t' :: cs => ' ' :: ' ' :: ' ' :: ' ' :: evenOut cs
  | c :: cs => c :: evenOut cs
  | [] => []

/-- Source text as the readers of macros and scripts expect it: without one leading byte order
mark, every line ended by a line feed, and without tabs. -/
def normalize : List Char → List Char
  | '\ufeff' :: cs => evenOut cs
  | cs => evenOut cs

theorem splitOn_ne_nil (sep : Char) (cs : List Char) : splitOn sep cs ≠ [] := by
  have from_ne : ∀ piece, splitOnFrom sep piece cs ≠ [] := by
    induction cs with
    | nil => intro piece; simp [splitOnFrom]
    | cons c cs ih => intro piece; rw [splitOnFrom]; split <;> simp [ih]
  exact from_ne []

end MacroEngine.Text
