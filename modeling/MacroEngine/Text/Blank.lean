/-! Blank characters, the property White_Space, and cutting text at them.
Blanks can be trimmed from the ends, separate words, or end a first word. -/
namespace MacroEngine.Text

def isBlank (c : Char) : Bool :=
  c = ' ' || ('\t' ≤ c && c ≤ '\r') || c = '\u0085' || c = '\u00a0' || c = '\u1680' ||
  ('\u2000' ≤ c && c ≤ '\u200a') || c = '\u2028' || c = '\u2029' || c = '\u202f' ||
  c = '\u205f' || c = '\u3000'

def trimStart (cs : List Char) : List Char := cs.dropWhile isBlank

def trimEnd (cs : List Char) : List Char := (cs.reverse.dropWhile isBlank).reverse

def trim (cs : List Char) : List Char := trimEnd (trimStart cs)

def trimmed (s : String) : String := String.ofList (trim s.toList)

/-- The word that a text begins with, and the text from the blank that ends it. -/
def firstWord (cs : List Char) : List Char × List Char :=
  (cs.takeWhile fun c => !isBlank c, cs.dropWhile fun c => !isBlank c)

/-- The text before the first blank, and the text after that blank if there is one. -/
def cutAtBlank (cs : List Char) : List Char × Option (List Char) :=
  match firstWord cs with
  | (word, []) => (word, none)
  | (word, _ :: rest) => (word, some rest)

/-- The maximal runs of characters that are not blank; `word` holds the run under way, reversed. -/
def wordsFrom (word : List Char) : List Char → List (List Char)
  | [] => if word.isEmpty then [] else [word.reverse]
  | c :: cs =>
    if isBlank c then
      if word.isEmpty then wordsFrom [] cs else word.reverse :: wordsFrom [] cs
    else wordsFrom (c :: word) cs

def words (cs : List Char) : List (List Char) := wordsFrom [] cs

theorem firstWord_append (cs : List Char) : (firstWord cs).1 ++ (firstWord cs).2 = cs := by
  simp [firstWord, List.takeWhile_append_dropWhile]

end MacroEngine.Text
