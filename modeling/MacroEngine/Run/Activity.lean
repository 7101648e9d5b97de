import MacroEngine.Run.Error
import MacroEngine.Run.Frames

/-! What is done in a game over time, as a tree: each node does one thing and says how to go on
with what came of it. Waits can be interrupted, and then nothing follows. -/
namespace MacroEngine

inductive Mark where
  | crossed
  | frames (frames : List Frame)
  /-- A request that waits for the next loop takes effect. -/
  | boundary
  /-- The invocation is paused, and the user is told why. -/
  | held (reason : String)
  deriving DecidableEq, Repr

inductive Activity (α : Type) where
  | done (value : α)
  | fail (site : Site) (error : RunError)
  | look (next : View → Activity α)
  | issue (action : String) (next : Except GameError Ticket → Activity α)
  | perform (order : Order) (next : Except GameError Unit → Activity α)
  | echo (text : String) (next : Activity α)
  | mark (mark : Mark) (next : Activity α)
  | pause (span : WaitSpan) (next : Activity α)
  /-- Wait until something holds, or until it is too late. -/
  | await (holds : View → Bool) (limit : Duration) (next : Bool → Activity α)

namespace Activity

def bind : Activity α → (α → Activity β) → Activity β
  | .done value, f => f value
  | .fail site error, _ => .fail site error
  | .look next, f => .look fun view => (next view).bind f
  | .issue name next, f => .issue name fun reply => (next reply).bind f
  | .perform order next, f => .perform order fun reply => (next reply).bind f
  | .echo text next, f => .echo text (next.bind f)
  | .mark m next, f => .mark m (next.bind f)
  | .pause span next, f => .pause span (next.bind f)
  | .await holds limit next, f => .await holds limit fun met => (next met).bind f

instance : Monad Activity where
  pure := .done
  bind := bind

theorem bind_done (a : Activity α) : a.bind .done = a := by
  induction a with
  | done | fail => rfl
  | look _ ih | issue _ _ ih | perform _ _ ih | await _ _ _ ih => simp [bind, ih]
  | echo _ _ ih | mark _ _ ih | pause _ _ ih => simp [bind, ih]

theorem bind_assoc (a : Activity α) (f : α → Activity β) (g : β → Activity δ) :
    (a.bind f).bind g = a.bind fun x => (f x).bind g := by
  induction a with
  | done | fail => rfl
  | look _ ih | issue _ _ ih | perform _ _ ih | await _ _ _ ih => simp [bind, ih]
  | echo _ _ ih | mark _ _ ih | pause _ _ ih => simp [bind, ih]

instance : LawfulMonad Activity := LawfulMonad.mk' Activity bind_done (fun _ _ => rfl) bind_assoc

end Activity
end MacroEngine
