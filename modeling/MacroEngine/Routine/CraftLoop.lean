import MacroEngine.Config
import MacroEngine.Text.Lines

/-! Wrapping macro text into a loop of crafts, by a template or in one of two layouts. Without a
count the loop runs until it is stopped. -/
namespace MacroEngine

namespace Text

/-- Replacement with `skip` characters of the current occurrence still to pass over. -/
def substituteFrom (marker image : List Char) : Nat → List Char → List Char
  | _, [] => []
  | skip + 1, _ :: cs => substituteFrom marker image skip cs
  | 0, c :: cs =>
    if marker.isPrefixOf (c :: cs) then image ++ substituteFrom marker image (marker.length - 1) cs
    else c :: substituteFrom marker image 0 cs

/-- Every occurrence of the non-empty `marker` replaced by `image`, from left to right and without
looking again at what was put in. -/
def substitute (marker image cs : List Char) : List Char := substituteFrom marker image 0 cs

def occurs (marker : List Char) : List Char → Bool
  | [] => marker.isEmpty
  | c :: cs => marker.isPrefixOf (c :: cs) || occurs marker cs

theorem substitute_nil (marker image : List Char) : substitute marker image [] = [] := rfl

end Text

open Text Number

def macroMarker : List Char := ['{', '{', 'm', 'a', 'c', 'r', 'o', '}', '}']

def countMarker : List Char := ['{', '{', 'c', 'o', 'u', 'n', 't', '}', '}']

def craftBody (source : List Char) : List Char :=
  ((normalize source).reverse.dropWhile (· = '\n')).reverse

/-- A template line with the count and then the body put in; without a count, a line that asks
for it is left out. -/
def fillLine (body : List Char) (count : Option Nat) (line : List Char) : Option (List Char) :=
  match count with
  | some n => some (substitute macroMarker body (substitute countMarker (digits n) line))
  | none => if occurs countMarker line then none else some (substitute macroMarker body line)

def startSynthesis (maxWaitSecs : Nat) : List (List Char) :=
  let maxWait := " <maxwait.".toList ++ digits maxWaitSecs ++ ['>']
  ["/waitaddon \"RecipeNote\"".toList ++ maxWait, "/click synthesize".toList,
    "/waitaddon \"Synthesis\"".toList ++ maxWait]

def gateLine (layout : CraftLayout) (n : Nat) : List Char :=
  "/craft ".toList ++ digits n ++ if layout.echo then " <echo>".toList else []

/-- The lines of the loop. In the middle of a synthesis the first craft is already under way, so
the gate comes after the body and lets one pass less through. -/
def craftLines (layout : CraftLayout) (body : List Char) (count : Option Nat) : List (List Char) :=
  let start := startSynthesis layout.maxWaitSecs
  let gated :=
    if layout.fromRecipeNote then
      (count.map (gateLine layout)).toList ++ start ++ [body]
    else [body] ++ (count.map fun n => gateLine layout (n - 1)).toList ++ start
  gated ++ ["/loop".toList]

def craftLoop (source : List Char) (count : Option Nat) (layout : CraftLayout) :
    Except ConfigError (List Char) :=
  let body := craftBody source
  if layout.useTemplate then
    if occurs macroMarker layout.template.toList then
      .ok (unlines ((lines (normalize layout.template.toList)).filterMap (fillLine body count)))
    else .error .template
  else .ok (unlines (craftLines layout body count))

end MacroEngine
