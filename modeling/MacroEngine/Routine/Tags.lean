import MacroEngine.Routine.Modifiers

/-! Taking the modifier tags out of the arguments of a command. A `<` inside quotes, or one
whose text up to the next `>` does not look like `name` or `name.value`, is argument text. -/
namespace MacroEngine
open Text

def tagParts (body : List Char) : Option (List Char × Option (List Char)) :=
  let name := body.takeWhile isAsciiLetter
  if name.isEmpty then none
  else match body.dropWhile isAsciiLetter with
    | [] => some (name, none)
    | '.' :: value => if value.contains '\n' then none else some (name, some value)
    | _ => none

def tagAt (cs : List Char) : Option (List Char × List Char × Option (List Char)) :=
  let body := cs.takeWhile (· ≠ '>')
  if cs.contains '>' then (tagParts body).map fun (name, value) => (body, name, value) else none

/-- Arguments without their tags, and the tags collected; `skip` characters of the current tag
are still to pass over. -/
def takeTags (skip : Nat) (inQuote : Bool) (mods : Modifiers) :
    List Char → Except Fault (List Char × Modifiers)
  | [] => if inQuote then .error .unterminatedQuote else .ok ([], mods)
  | c :: cs =>
    match skip with
    | skip + 1 => takeTags skip inQuote mods cs
    | 0 =>
      match if c = '<' && !inQuote then tagAt cs else none with
      | some (body, name, value) => do
        let mods ← mods.insert (String.ofList name) value
        takeTags (body.length + 1) inQuote mods cs
      | none => do
        let (args, mods) ← takeTags 0 (if c = '"' then !inQuote else inQuote) mods cs
        pure (c :: args, mods)

/-- Each run of blanks outside quotes made one blank. -/
def squeezeFrom (inQuote afterBlank : Bool) : List Char → List Char
  | [] => []
  | c :: cs =>
    let inQuote := if c = '"' then !inQuote else inQuote
    if isBlank c && !inQuote then
      if afterBlank then squeezeFrom inQuote true cs else ' ' :: squeezeFrom inQuote true cs
    else c :: squeezeFrom inQuote false cs

def squeeze (cs : List Char) : List Char := squeezeFrom false false (trim cs)

def splitTags (cs : List Char) : Except Fault (String × Modifiers) := do
  let (args, mods) ← takeTags 0 false {} cs
  pure (String.ofList (squeeze args), mods)

end MacroEngine
