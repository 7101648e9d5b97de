import MacroEngine.Time.Duration

/-! Time in a system that moves in small steps. Steps take no time; when none is left, time goes
straight to the next moment at which there is one. -/
namespace MacroEngine

structure Clockwork (σ : Type) where
  step? : Moment → σ → Option σ
  /-- The next moment at which a step can become possible without help from outside. -/
  wake? : Moment → σ → Option Moment

namespace Clockwork

/-- Let time pass up to `limit`, or until `done`, with at most `fuel` steps and jumps. -/
def pass (c : Clockwork σ) (done : σ → Bool) (limit : Moment) : Nat → Moment → σ → Moment × σ
  | 0, now, s => (now, s)
  | fuel + 1, now, s =>
    if done s then (now, s)
    else match c.step? now s with
      | some s => pass c done limit fuel now s
      | none =>
        match c.wake? now s with
        | some wake => if wake ≤ limit then pass c done limit fuel (max now wake) s else (limit, s)
        | none => (limit, s)

/-- Let time pass as `pass` does, with changes from outside at given moments, in their order. A
change that comes after `limit`, or when all is done, is not made. -/
def passWith (c : Clockwork σ) (done : σ → Bool) (limit : Moment) (fuel : Nat) :
    List (Moment × (σ → σ)) → Moment → σ → Moment × σ
  | [], now, s => c.pass done limit fuel now s
  | (moment, change) :: rest, now, s =>
    if limit < moment then c.pass done limit fuel now s
    else
      let (now, s) := c.pass done (max now moment) fuel now s
      if done s then (now, s) else passWith c done limit fuel rest now (change s)

/-- More steps than any run takes that can be waited for. -/
def ample : Nat := 1000000000

end Clockwork
end MacroEngine
