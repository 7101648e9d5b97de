import MacroEngine.Proofs.Underway

/-! What the game refuses is an error of the step that asked for it: no step goes on as if its
order had been taken. And no error of a step looks as if the macro had been stopped. -/
namespace MacroEngine

namespace Activity

variable {P : GameError → Activity α → Prop}

/-- If the game refuses an action or an order now, `P` holds of the refusal and what follows it. -/
def Answers (P : GameError → Activity α → Prop) : Activity α → Prop
  | .issue _ next => ∀ e, P e (next (.error e))
  | .perform _ next => ∀ e, P e (next (.error e))
  | .fail _ error => error ≠ .stopped
  | _ => True

def Heeds (P : GameError → Activity α → Prop) (a : Activity α) : Prop :=
  a.Always (fun _ => True) (Answers P)

theorem Heeds.bind {P' : GameError → Activity β → Prop} {f : α → Activity β}
    (hP : ∀ e a, P e a → P' e (a.bind f)) (a : Activity α) (ha : a.Heeds P)
    (hf : ∀ x, (f x).Heeds P') : (a.bind f).Heeds P' := by
  refine Always.bind (fun a hne h => ?_) a ha hf
  cases a with
  | done x => exact absurd rfl (hne x)
  | fail => exact h
  | issue | perform => exact fun e => hP e _ (h e)
  | _ => trivial

theorem Heeds.mono {P' : GameError → Activity α → Prop} (hP : ∀ e a, P e a → P' e a)
    (a : Activity α) (ha : a.Heeds P) : a.Heeds P' := by
  refine Always.mono (fun a h => ?_) a ha
  cases a with
  | issue | perform => exact fun e => hP e _ (h e)
  | fail => exact h
  | _ => trivial

end Activity

def Step.Refused (step : Step) (e : GameError) (a : Activity Flow) : Prop :=
  ∃ site, a = .fail site (.refused step.line e)

namespace Execution
open Activity

theorem heeds_attempt (action : String) (ackTimeout : Duration) (left : Nat) : ∀ used,
    (Retry.attempt action ackTimeout used left).Heeds fun e a => a = .done (.refused e) := by
  induction left with
  | zero => exact fun _ => ⟨trivial, trivial⟩
  | succ left ih =>
    intro used
    refine ⟨fun e => rfl, fun reply => ?_⟩
    cases reply with
    | error => exact ⟨trivial, trivial⟩
    | ok ticket =>
      refine ⟨trivial, fun met => ?_⟩
      cases met with
      | true => exact ⟨trivial, trivial⟩
      | false => exact ih (used + 1)

theorem heeds_issue (maxRetries : Nat) (ackTimeout : Duration) (action : String)
    (unconfirmed : Bool) : (Retry.issue maxRetries ackTimeout action unconfirmed).Heeds
      fun e a => a = .done (.refused e) := by
  unfold Retry.issue
  split
  · refine ⟨fun e => rfl, fun reply => ?_⟩
    cases reply <;> exact ⟨trivial, trivial⟩
  · exact heeds_attempt action ackTimeout _ 0

variable {P : GameError → Activity Flow → Prop}

theorem heeds_done (flow : Flow) : (done flow).Heeds P := ⟨trivial, trivial⟩

theorem heeds_fail (site : Site) {error : RunError} (h : error ≠ .stopped) :
    (fail site error).Heeds P := ⟨h, trivial⟩

theorem heeds_pause (wait : WaitSpan) (flow : Flow) : (pause wait (.done flow)).Heeds P :=
  ⟨trivial, heeds_done flow⟩

theorem heeds_act (config : Config) (step : Step) (eff : Effective) (name : String) :
    (act config step.line eff name).Heeds step.Refused := by
  refine ⟨trivial, fun view _ => ?_⟩
  dsimp only
  split
  · exact heeds_done _
  · refine Heeds.bind (fun e a ha => ?_) _ (heeds_issue _ _ _ _) fun outcome => ?_
    · subst ha
      exact ⟨.other, rfl⟩
    · cases outcome with
      | refused | exhausted => exact heeds_fail _ (by simp)
      | success =>
        dsimp only
        split
        · exact ⟨trivial, fun _ => heeds_done _⟩
        · exact heeds_pause _ _

theorem heeds_orderly (step : Step) (site : GameError → Site) (wait : WaitSpan) (order : Order) :
    (orderly step.line site wait order).Heeds step.Refused := by
  refine ⟨fun e => ⟨site e, rfl⟩, fun reply => ?_⟩
  cases reply with
  | error => exact heeds_fail _ (by simp)
  | ok => exact heeds_pause _ _

theorem heeds_tell (wanted : Bool) (news : Option String) {f : Unit → Activity Flow}
    (hf : ∀ x, (f x).Heeds P) : ((tell wanted news).bind f).Heeds P := by
  unfold tell
  split
  · exact ⟨trivial, hf ()⟩
  · exact hf ()

theorem heeds_gate (index count : Nat) (eff : Effective) (frames : List Frame) :
    (gate index count eff frames).Heeds P := by
  refine ⟨trivial, trivial, heeds_tell _ _ fun _ => ⟨trivial, ?_⟩⟩
  change Activity.Heeds P (if _ then _ else _)
  split
  · exact heeds_pause _ _
  · exact heeds_done _

theorem heeds_loop (config : Config) (index : Nat) (count : LoopCount) (eff : Effective)
    (frames : List Frame) : (loop config index count eff frames).Heeds P := by
  unfold loop
  refine ⟨trivial, ?_⟩
  change Activity.Heeds P (if _ then _ else _)
  split
  · split
    · exact heeds_tell _ _ fun _ => heeds_done _
    · exact ⟨trivial, heeds_done _⟩
  · exact ⟨trivial, trivial, heeds_tell _ _ fun _ => ⟨trivial, heeds_done _⟩⟩

theorem heeds_check (reason : String) (wait : WaitSpan) (trips : View → Bool) :
    (check reason wait trips).Heeds P := by
  refine ⟨trivial, fun view _ => ?_⟩
  dsimp only
  split
  · exact ⟨trivial, heeds_done _⟩
  · exact heeds_pause _ _

theorem heeds_waitAddon (line : Nat) (eff : Effective) (name : String) :
    (waitAddon line eff name).Heeds P := by
  refine ⟨trivial, fun met => ?_⟩
  cases met with
  | true => exact heeds_pause _ _
  | false => exact ⟨trivial, fun _ _ => heeds_fail _ (by simp)⟩

theorem heeds_enter (library : Library) (chain : List String) (eff : Effective) (name : String) :
    (enter library chain eff name).Heeds P := by
  unfold enter
  split
  · exact heeds_fail _ (by simp)
  · split
    · exact heeds_fail _ (by simp)
    · exact heeds_done _

theorem heeds_demand (line : Nat) (site : Site) (what : String) (limit : Duration)
    (holds : View → Bool) {f : Unit → Activity Flow} (hf : ∀ x, (f x).Heeds P) :
    ((demand line site what limit holds).bind f).Heeds P := by
  refine ⟨trivial, fun met => ?_⟩
  cases met with
  | true => exact hf ()
  | false => exact heeds_fail _ (by simp)

theorem heeds_command (rules : Rules) (chain : List String) (index : Nat) (frames : List Frame)
    (step : Step) (eff : Effective) :
    (command rules chain index frames step eff).Heeds step.Refused := by
  unfold command
  cases step.command with
  | craft => exact heeds_gate _ _ _ _
  | loop => exact heeds_loop _ _ _ _ _
  | runMacro => exact heeds_enter _ _ _ _
  | action => exact heeds_act _ _ _ _
  | click | recipe | send | hold | release | item | target | native => exact heeds_orderly _ _ _ _
  | require | requireQuality | requireStats =>
    exact heeds_demand _ _ _ _ _ fun _ => heeds_pause _ _
  | requireRepair | requireSpiritbond => exact heeds_check _ _ _
  | waitAddon => exact heeds_waitAddon _ _ _
  | wait => exact heeds_pause _ _
  | echo => exact ⟨trivial, heeds_pause _ _⟩

theorem heeds_step (rules : Rules) (chain : List String) (index : Nat) (frames : List Frame)
    (step : Step) : (Execution.step rules chain index frames step).Heeds step.Refused := by
  refine ⟨trivial, fun view _ => ?_⟩
  dsimp only
  split
  · exact heeds_fail _ (by simp)
  · exact heeds_command rules chain index frames step _

end Execution

/-- If the step under way is refused something, it is that of the cursor, and fails. -/
def Invocation.Heeds (inv : Invocation) (c : Course Flow) : Prop :=
  c.Always (fun _ => True) (Activity.Answers fun e a =>
    ∃ step, inv.routine.get? inv.cursor = some step ∧ step.Refused e a)

theorem lasting_heeds (engine : Engine γ) : Lasting engine Invocation.Heeds where
  begun chain inv step hget := Activity.Heeds.mono (fun _ _ ha => ⟨step, hget, ha⟩) _
    (Execution.heeds_step engine.rules chain inv.cursor inv.frames step)
  moved _ hc h := Course.always_step? (fun _ _ => trivial) hc h
  resumed _ _ _ := ⟨trivial, trivial, trivial⟩

end MacroEngine
