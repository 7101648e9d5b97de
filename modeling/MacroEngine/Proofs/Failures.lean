import MacroEngine.Proofs.Exchanges

/-! How the run of a macro fails: where all of its stack has ended with an error, so does the run
itself. A script hears of the error first, and ends with it. -/
namespace MacroEngine
open Script

namespace Dialogue

/-- A line that fails ends the script, with the error of the line. -/
def Strict : Dialogue → Prop
  | .ended _ => True
  | .yielded _ next => (∀ error, next (some error) = .ended (some error)) ∧ (next none).Strict
  | .noted _ next => (next ()).Strict
  | .asked _ next => ∀ answer, (next answer).Strict
  | .idle next => (next ()).Strict

theorem strict_ofProcess (process : Process) : (ofProcess process).Strict := by
  induction process with
  | done | failed => trivial
  | yielded command vars resume ih => exact ⟨fun _ => rfl, ih ()⟩
  | logged message resume ih => exact ih ()
  | asked query resume ih =>
    rw [ofProcess]
    intro answer
    cases answer with
    | none => trivial
    | some answer => exact ih answer
  | looped resume ih => exact ih ()

end Dialogue

def Speaker.Strict : Speaker → Prop
  | .speaking dialogue => dialogue.Strict
  | .awaiting next => (∀ error, next (some error) = .ended (some error)) ∧ (next none).Strict

namespace Bridge

variable {b b' : Bridge} {f f' : Fiber} {client : Client γ} {engine : Engine γ} {now : Moment}
  {name : String} {game game' : γ}

theorem strict_speak (hb : b.speaker.Strict) (h : b.speak? client now game f = some (f', b')) :
    b'.speaker.Strict := by
  unfold speak? at h
  split at h
  · cases h
  · cases h
  · rename_i line next hspeaker
    rw [hspeaker] at hb
    split at h
    · cases h
      exact hb
    · cases h
  · rename_i event next hspeaker
    rw [hspeaker] at hb
    cases h
    exact hb
  · rename_i query next hspeaker
    rw [hspeaker] at hb
    cases h
    exact hb _
  · rename_i next hspeaker
    rw [hspeaker] at hb
    cases h
    exact hb

theorem strict_reply (hb : b.speaker.Strict) (error : Option RunError) :
    (b.reply error).speaker.Strict := by
  unfold reply
  split
  · rename_i next hspeaker
    rw [hspeaker] at hb
    cases error with
    | none => exact hb.2
    | some error =>
      change (next (some error)).Strict
      rw [hb.1]
      trivial
  · exact hb

theorem strict_serve (hb : b.speaker.Strict)
    (h : b.serve? engine now name game f = some (game', f', b')) : b'.speaker.Strict := by
  unfold serve? at h
  split at h
  · cases h
  · dsimp only at h
    split at h
    · cases h
      exact strict_reply (b := { b with request := none, serving := _ }) hb _
    · cases h
      exact hb
  · split at h
    · cases h
      exact strict_reply hb _
    · obtain ⟨_, _, he⟩ := Option.map_eq_some_iff.mp h
      cases he
      exact hb

end Bridge

namespace Run

variable {engine : Engine γ} {now : Moment} {game game' : γ} {r r' : Run}

inductive OfMacro : Run → Prop where
  | native (name : String) (routine : Routine) : OfMacro (.ofRoutine name routine)
  | script (name : String) (program : Program) :
      OfMacro (.ofDialogue name (.ofProgram program))

theorem OfMacro.fresh (h : r.OfMacro) : r.Fresh := by
  cases h with
  | native => exact .routine _ _
  | script => exact .dialogue _ _

def Strict (r : Run) : Prop := ∀ b, r.bridge = some b → b.speaker.Strict

theorem OfMacro.strict (h : r.OfMacro) : r.Strict := by
  cases h with
  | native => exact fun _ hb => nomatch hb
  | script =>
    rintro _ ⟨⟩
    exact Dialogue.strict_ofProcess _

theorem strict_step? (hr : r.Strict) (h : r.step? engine now game = some (game', r')) :
    r'.Strict := by
  unfold step? at h
  split at h
  · cases h
  · split at h
    · rename_i hb
      have hnative : ∀ r' : Run, r'.bridge = none → r'.Strict := by
        intro r' hb' b hb
        rw [hb'] at hb
        cases hb
      split at h
      · cases h
        exact hnative _ hb
      · obtain ⟨_, _, he⟩ := Option.map_eq_some_iff.mp h
        cases he
        exact hnative _ hb
    · rename_i b hb
      have hb := hr b hb
      split at h
      · cases h
        exact hr
      · split at h
        · rename_i hspeak
          cases h
          rintro _ ⟨⟩
          exact Bridge.strict_speak hb hspeak
        · obtain ⟨⟨game₁, f, b'⟩, hserve, he⟩ := Option.map_eq_some_iff.mp h
          cases he
          rintro _ ⟨⟩
          exact Bridge.strict_serve hb hserve

end Run

namespace Snapshot

variable {engine : Engine γ} {asks : Controls.Wish → Prop} {s t : Snapshot γ} {error : RunError}

theorem strict_moves (hs : s.run.Strict) (h : Moves engine asks s t) : t.run.Strict := by
  induction h with
  | refl => exact hs
  | tail _ hmove ih =>
    cases hmove with
    | lapse | wish => exact ih
    | work hstep => exact Run.strict_step? ih hstep

theorem strict_after (hs : s.run.Strict) (n : Nat) : (s.after engine n).run.Strict := by
  have hmoves : Moves engine (fun _ => True) s (s.after engine n) := moves_after s n
  exact strict_moves hs hmoves

def Fails (engine : Engine γ) (error : RunError) (s : Snapshot γ) : Prop :=
  ∃ n outcome, (s.after engine n).run.outcome = some outcome ∧ outcome.result = .error error

/-- A script hears that its line has failed, and ends. -/
theorem fails_serving {b : Bridge} {line : String} {next : Option RunError → Dialogue}
    (ho : s.run.outcome = none) (hp : s.run.fiber.phase = .ended (.error error))
    (hb : s.run.bridge = some b) (hserving : b.serving = some line)
    (hspeaker : b.speaker = .awaiting next) (hnext : next (some error) = .ended (some error))
    (herror : error ≠ .stopped) : s.Fails engine error := by
  have hresult : s.run.fiber.result? = some (.error error) := by simp [Fiber.result?, hp]
  have htold : s.tick engine = { s with run := { s.run with
      bridge := some { b with speaker := .speaking (.ended (some error)), serving := none } } } := by
    simp [tick, Run.step?, ho, hb, Bridge.ended?, Bridge.speak?, Bridge.serve?, hserving, hspeaker,
      hresult, Bridge.replyTo, Bridge.reply, hnext]
  have hscript : s.run.scriptResult (some error) = .error error := by
    unfold Run.scriptResult
    split
    · cases ‹some error = none›
    · exact absurd (Option.some.inj ‹_›) herror
    · rename_i he
      cases he
      rfl
  refine ⟨2, ⟨.error error, s.now⟩, ?_, rfl⟩
  change ((s.tick engine).tick engine).run.outcome = _
  rw [htold]
  simp only [tick, Run.step?, ho, Bridge.ended?, Run.finish]
  rw [← hscript]
  rfl

theorem fails_of_ended (hs : s.run.Orderly) (hstrict : s.run.Strict) (ho : s.run.outcome = none)
    (hserving : ∀ b, s.run.bridge = some b → b.serving ≠ none)
    (hp : s.run.fiber.phase = .ended (.error error)) (herror : error ≠ .stopped) :
    s.Fails engine error := by
  cases hb : s.run.bridge with
  | none =>
    refine ⟨1, ⟨.error error, s.now⟩, ?_, rfl⟩
    change (s.tick engine).run.outcome = _
    rw [tick_finishes engine hb ho hp]
    rfl
  | some b =>
    obtain ⟨line, hline⟩ := Option.ne_none_iff_exists'.mp (hserving b hb)
    cases hspeaker : b.speaker with
    | awaiting next =>
      have hb' := hstrict b hb
      rw [hspeaker] at hb'
      exact fails_serving ho hp hb hline hspeaker (hb'.1 error) herror
    | speaking dialogue =>
      have hidle := ((hs.fair b hb).speaking dialogue hspeaker).2
      rw [hline] at hidle
      cases hidle

end Snapshot
end MacroEngine
