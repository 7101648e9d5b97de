import MacroEngine.Routine.Command

/-! Macro text in canonical form, one step a line: the name in full, the arguments as they were
kept, the modifiers in canonical order. Also the rewriting of a loop count. -/
namespace MacroEngine
open Number

def Step.text (step : Step) : List Char :=
  '/' :: step.command.name.toList ++
    (if step.rawArgs.isEmpty then [] else ' ' :: step.rawArgs.toList) ++
    (if step.modifiers.kinds.isEmpty then [] else ' ' :: step.modifiers.text)

namespace Routine

def text (routine : Routine) : List Char := List.intercalate ['\n'] (routine.steps.map Step.text)

def toText (routine : Routine) : String := String.ofList routine.text

def setFirstLoop (n : Nat) : List Step → Option (List Step)
  | [] => none
  | step :: rest =>
    if step.command.isLoop then
      some ({ step with command := .loop (.finite n), rawArgs := String.ofList (digits n) } :: rest)
    else (setFirstLoop n rest).map (step :: ·)

def withLastLoop (routine : Routine) (n : Nat) : Option Routine :=
  (setFirstLoop n routine.steps.reverse).map fun steps => ⟨steps.reverse⟩

end Routine
end MacroEngine
