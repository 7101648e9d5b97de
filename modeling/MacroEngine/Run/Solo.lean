import MacroEngine.Game.Trace
import MacroEngine.Run.Course
import MacroEngine.Time.Clock

/-! A wait, or an activity, on its own: with one lifecycle that can be sent requests, and outside
of any macro. -/
namespace MacroEngine

inductive WatchEnd where
  | met
  | late
  | interrupted
  deriving DecidableEq, Repr

structure Watch where
  wait : Wait
  control : Lifecycle
  looks : Trace Moment
  ending : Option WatchEnd

namespace Watch

def start (now : Moment) (limit : Duration) (control : Lifecycle) : Watch :=
  ⟨.start now limit, control, .empty none, none⟩

/-- One look, or an interruption, if it is time. What is awaited may depend on the number of the
look, counted from one, and on the moment. -/
def step? (poll : Duration) (holds : Nat → Moment → Bool) (now : Moment) (w : Watch) :
    Option Watch :=
  if w.ending.isSome then none
  else match w.wait.readiness w.control.state now with
    | .asleep | .held => none
    | .interrupted => some { w with ending := some .interrupted }
    | .due =>
      let w := { w with looks := w.looks.push now }
      match w.wait.verdict poll now (holds w.looks.size now) with
      | .met => some { w with ending := some .met }
      | .late => some { w with ending := some .late }
      | .again wait => some { w with wait := wait }

def clockwork (poll : Duration) (holds : Nat → Moment → Bool) : Clockwork Watch where
  step? := step? poll holds
  wake? := fun now w => if w.ending.isNone && now < w.wait.wake then some w.wait.wake else none

def request (r : Request) (w : Watch) : Watch := { w with control := w.control.apply r }

end Watch

structure Solo (γ α : Type) where
  scene : Scene γ
  course : Course α

namespace Solo

def start (game : γ) (control : Lifecycle) (activity : Activity α) : Solo γ α :=
  ⟨⟨game, control, [], 0, 0, [], []⟩, .doing activity⟩

def clockwork (means : Means γ) : Clockwork (Solo γ α) where
  step? := fun now s => (s.course.step? means now s.scene).map fun (scene, course) => ⟨scene, course⟩
  wake? := fun now s => s.course.wake? now

def request (r : Request) (s : Solo γ α) : Solo γ α :=
  { s with scene := { s.scene with control := s.scene.control.apply r } }

end Solo
end MacroEngine
