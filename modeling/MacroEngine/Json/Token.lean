import MacroEngine.Json.Value

/-! The tokens of a JSON text. Every character is looked at once, in a state that says which
token is under way. -/
namespace MacroEngine.Json
open Text Number

inductive Token where
  | openArray | closeArray | openObject | closeObject | comma | colon
  | null
  | bool (value : Bool)
  | number (value : Numeral)
  | string (value : Option String)

/-- The token under way, with its characters reversed. A string holds code points, of which only
escapes give surrogates. -/
inductive Partial where
  | none
  | word (chars : List Char)
  | numeral (chars : List Char)
  | string (points : List Nat)
  | escape (points : List Nat)
  | hex (points : List Nat) (left : Nat) (value : Nat)

/-- Code points as text, surrogate pairs joined. -/
def join : List Nat → Option (List Char)
  | [] => some []
  | n :: rest =>
    if n < 0xd800 ∨ 0xdfff < n then (join rest).map (Char.ofNat n :: ·)
    else if n < 0xdc00 then match rest with
      | low :: rest =>
        if 0xdc00 ≤ low ∧ low ≤ 0xdfff then
          (join rest).map (Char.ofNat (0x10000 + (n - 0xd800) * 0x400 + (low - 0xdc00)) :: ·)
        else Option.none
      | [] => Option.none
    else Option.none

def hexValue (c : Char) : Option Nat :=
  if isAsciiDigit c then some (digitValue c)
  else if 'a' ≤ asciiLower c ∧ asciiLower c ≤ 'f' then some ((asciiLower c).toNat - 87)
  else Option.none

def escaped (c : Char) : Option Nat :=
  match c with
  | '"' => some 34
  | '\\' => some 92
  | '/' => some 47
  | 'b' => some 8
  | 'f' => some 12
  | 'n' => some 10
  | 'r' => some 13
  | 't' => some 9
  | _ => Option.none

def wordToken (chars : List Char) : Option Token :=
  match String.ofList chars with
  | "null" => some .null
  | "true" => some (.bool true)
  | "false" => some (.bool false)
  | _ => Option.none

def isDigits (cs : List Char) : Bool := !cs.isEmpty && cs.all isAsciiDigit

def numeralEnd (cs : List Char) : Option (Option (Bool × List Char)) :=
  match cs with
  | [] => some Option.none
  | e :: cs =>
    let (down, ds) := match cs with
      | '-' :: cs => (true, cs)
      | '+' :: cs => (false, cs)
      | cs => (false, cs)
    if (e = 'e' ∨ e = 'E') ∧ isDigits ds then some (some (down, ds)) else Option.none

def numeralToken (chars : List Char) : Option Token := do
  let (negative, body) := match chars with
    | '-' :: cs => (true, cs)
    | cs => (false, cs)
  let whole := body.takeWhile isAsciiDigit
  if whole.isEmpty || (whole.head? = some '0' && whole.length ≠ 1) then Option.none
  match body.dropWhile isAsciiDigit with
  | '.' :: cs =>
    let places := cs.takeWhile isAsciiDigit
    if places.isEmpty then Option.none
    let e ← numeralEnd (cs.dropWhile isAsciiDigit)
    pure (.number ⟨negative, whole, some places, e⟩)
  | cs => do
    let e ← numeralEnd cs
    pure (.number ⟨negative, whole, Option.none, e⟩)

def isWordChar (c : Char) : Bool := 'a' ≤ c && c ≤ 'z'

def isNumeralChar (c : Char) : Bool :=
  isAsciiDigit c || c = '-' || c = '+' || c = '.' || c = 'e' || c = 'E'

def isSpace (c : Char) : Bool := c = ' ' || c = '\t' || c = '\n' || c = '\r'

def begin (c : Char) : Option (List Token × Partial) :=
  match c with
  | '[' => some ([.openArray], .none)
  | ']' => some ([.closeArray], .none)
  | '{' => some ([.openObject], .none)
  | '}' => some ([.closeObject], .none)
  | ',' => some ([.comma], .none)
  | ':' => some ([.colon], .none)
  | '"' => some ([], .string [])
  | c =>
    if isSpace c then some ([], .none)
    else if c = '-' || isAsciiDigit c then some ([], .numeral [c])
    else if isWordChar c then some ([], .word [c])
    else Option.none

def advance (state : Partial) (c : Char) : Option (List Token × Partial) :=
  match state with
  | .none => begin c
  | .word chars =>
    if isWordChar c then some ([], .word (c :: chars))
    else do
      let token ← wordToken chars.reverse
      let (more, next) ← begin c
      pure (token :: more, next)
  | .numeral chars =>
    if isNumeralChar c then some ([], .numeral (c :: chars))
    else do
      let token ← numeralToken chars.reverse
      let (more, next) ← begin c
      pure (token :: more, next)
  | .string points =>
    if c = '"' then some ([.string ((join points.reverse).map String.ofList)], .none)
    else if c = '\\' then some ([], .escape points)
    else if c < ' ' then Option.none
    else some ([], .string (c.toNat :: points))
  | .escape points =>
    if c = 'u' then some ([], .hex points 4 0)
    else (escaped c).map fun n => ([], .string (n :: points))
  | .hex points left value =>
    (hexValue c).map fun d =>
      if left = 1 then ([], .string ((16 * value + d) :: points))
      else ([], .hex points (left - 1) (16 * value + d))

def finish : Partial → Option (List Token)
  | .none => some []
  | .word chars => (wordToken chars.reverse).map ([·])
  | .numeral chars => (numeralToken chars.reverse).map ([·])
  | _ => Option.none

def tokensFrom (state : Partial) : List Char → Option (List Token)
  | [] => finish state
  | c :: cs => do
    let (found, next) ← advance state c
    let rest ← tokensFrom next cs
    pure (found ++ rest)

def tokens (cs : List Char) : Option (List Token) := tokensFrom .none cs

end MacroEngine.Json
