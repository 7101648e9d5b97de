import MacroEngine.Proofs.Steps
import MacroEngine.Run.Basic
import MacroEngine.Time.Clock
import Mathlib.Logic.Function.Iterate
import Mathlib.Logic.Relation

/-! A native run with its game and the clock. Left alone it is a clockwork, and goes on by ticks;
with requests from outside it goes on by moves, whose order and times are anybody's. -/
namespace MacroEngine

namespace Run

variable {engine : Engine γ} {now : Moment} {game game' : γ} {r r' : Run}

def clockwork (engine : Engine γ) : Clockwork (γ × Run) where
  step? now s := s.2.step? engine now s.1
  wake? now s := s.2.wake? now

/-- A native run does a step of its fiber, until that is done. -/
theorem step?_native (hb : r.bridge = none) (h : r.step? engine now game = some (game', r')) :
    r.outcome = none ∧
      ((∃ result, r.fiber.result? = some result ∧ game' = game ∧
          r' = r.finish now (result.map r.report)) ∨
        ∃ f, r.fiber.result? = none ∧ r.fiber.step? engine now game = some (game', f) ∧
          r' = { r with fiber := f }) := by
  unfold step? at h
  split at h
  · cases h
  · rename_i ho
    refine ⟨Option.not_isSome_iff_eq_none.mp ho, ?_⟩
    rw [hb] at h
    dsimp only at h
    split at h
    · rename_i result hr
      cases h
      exact .inl ⟨result, hr, rfl, rfl⟩
    · rename_i hr
      obtain ⟨⟨g, f⟩, hf, he⟩ := Option.map_eq_some_iff.mp h
      cases he
      exact .inr ⟨f, hr, hf, by rw [hb]⟩

end Run

structure Snapshot (γ : Type) where
  now : Moment
  game : γ
  run : Run

namespace Snapshot

variable {engine : Engine γ} {asks : Controls.Wish → Prop} {s s' : Snapshot γ}
  {Q : Lifecycle → Prop}

def start (now : Moment) (game : γ) (name : String) (routine : Routine) : Snapshot γ :=
  ⟨now, game, .ofRoutine name routine⟩

/-- One small step, or else the time of the next one. -/
def tick (engine : Engine γ) (s : Snapshot γ) : Snapshot γ :=
  match s.run.step? engine s.now s.game with
  | some (game, run) => { s with game := game, run := run }
  | none =>
    match s.run.wake? s.now with
    | some wake => { s with now := max s.now wake }
    | none => s

def after (engine : Engine γ) (s : Snapshot γ) (n : Nat) : Snapshot γ := (tick engine)^[n] s

theorem after_zero : s.after engine 0 = s := rfl

theorem after_succ (n : Nat) : s.after engine (n + 1) = (s.after engine n).tick engine :=
  Function.iterate_succ_apply' _ _ _

theorem after_add (m n : Nat) : s.after engine (m + n) = (s.after engine m).after engine n := by
  unfold after
  rw [Nat.add_comm, Function.iterate_add_apply]

theorem after_tick (n : Nat) : (s.tick engine).after engine n = s.after engine (n + 1) :=
  (Function.iterate_succ_apply _ _ _).symm

/-- One move: the run does what is due, time passes, or a wish of the user is granted or refused. -/
inductive Move (engine : Engine γ) (asks : Controls.Wish → Prop) :
    Snapshot γ → Snapshot γ → Prop where
  | work (s : Snapshot γ) {game : γ} {run : Run} :
      s.run.step? engine s.now s.game = some (game, run) →
      Move engine asks s { s with game := game, run := run }
  | lapse (s : Snapshot γ) (now : Moment) : s.now ≤ now → Move engine asks s { s with now := now }
  | wish (s : Snapshot γ) {w : Controls.Wish} : asks w →
      Move engine asks s { s with run := (s.run.grant w).2 }

abbrev Moves (engine : Engine γ) (asks : Controls.Wish → Prop) : Snapshot γ → Snapshot γ → Prop :=
  Relation.ReflTransGen (Move engine asks)

theorem tick_eq_or_move (engine : Engine γ) (asks : Controls.Wish → Prop) (s : Snapshot γ) :
    s.tick engine = s ∨ Move engine asks s (s.tick engine) := by
  unfold tick
  split
  · rename_i hstep
    exact .inr (.work s hstep)
  · split
    · exact .inr (.lapse s _ (Nat.le_max_left _ _))
    · exact .inl rfl

theorem moves_tick (s : Snapshot γ) : Moves engine asks s (s.tick engine) := by
  rcases tick_eq_or_move engine asks s with h | h
  · rw [h]
  · exact .single h

theorem moves_after (s : Snapshot γ) (n : Nat) : Moves engine asks s (s.after engine n) := by
  induction n with
  | zero => exact .refl
  | succ n ih =>
    rw [after_succ]
    exact ih.trans (moves_tick _)

def Native (s : Snapshot γ) : Prop := s.run.bridge = none

theorem native_move (h : Move engine asks s s') (hs : s.Native) : s'.Native := by
  cases h with
  | work hstep =>
    obtain ⟨_, ⟨result, _, _, rfl⟩ | ⟨f, _, _, rfl⟩⟩ := Run.step?_native hs hstep
    · exact hs
    · exact hs
  | lapse | wish => exact hs

theorem native_tick (hs : s.Native) : (s.tick engine).Native := by
  rcases tick_eq_or_move engine (fun _ => False) s with h | h
  · rwa [h]
  · exact native_move h hs

/-- Until a run is over, the lifecycles of its stack have the property. -/
def Governed (Q : Lifecycle → Prop) (s : Snapshot γ) : Prop :=
  s.run.outcome = none → s.run.fiber.Governed Q

theorem governed_start (hQ : Lifecycle.Kept Q) (now : Moment) (game : γ) (name : String)
    (routine : Routine) : (start now game name routine).Governed Q :=
  fun _ => Controls.Governs.start hQ.started name

theorem governed_move (hQ : Lifecycle.Kept Q)
    (hp : (∀ l, Q l → Q (l.apply .pause)) ∨ ¬ s.run.fiber.Trips)
    (ha : ∀ w, asks w → ∀ l, Q l → Q (l.apply w.request))
    (hn : s.Native) (hs : s.Governed Q) (h : Move engine asks s s') : s'.Governed Q := by
  intro hout
  cases h with
  | work hstep =>
    obtain ⟨ho, ⟨result, _, _, rfl⟩ | ⟨f, _, hf, rfl⟩⟩ := Run.step?_native hn hstep
    · cases hout
    · exact Fiber.governed_step? hQ hp (hs ho) hf
  | lapse => exact hs hout
  | wish hw => exact (hs hout).grant (ha _ hw)

end Snapshot
end MacroEngine
