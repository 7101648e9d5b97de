import MacroEngine.Proofs.Effects
import MacroEngine.Run.Fiber

/-! What an activity does beside looking, issuing actions and waiting: the orders that it gives
and the marks that it makes, and how often it gives an order until it ends in a value. -/
namespace MacroEngine

namespace Activity

variable {p p' : Order → Prop} {q q' : Mark → Prop} {order : Order} {n : Nat}

/-- It gives orders of `p` and makes marks of `q`, and no others. -/
def Within (p : Order → Prop) (q : Mark → Prop) : Activity α → Prop
  | .done _ | .fail _ _ => True
  | .look next => ∀ view, (next view).Within p q
  | .issue _ next => ∀ reply, (next reply).Within p q
  | .perform order next => p order ∧ ∀ reply, (next reply).Within p q
  | .echo _ next => next.Within p q
  | .mark m next => q m ∧ next.Within p q
  | .pause _ next => next.Within p q
  | .await _ _ next => ∀ met, (next met).Within p q

theorem Within.bind (a : Activity α) (ha : a.Within p q) {f : α → Activity β}
    (hf : ∀ x, (f x).Within p q) : (a.bind f).Within p q := by
  induction a with
  | done value => exact hf value
  | fail => trivial
  | look next ih | issue action next ih | await holds limit next ih => exact fun x => ih x (ha x)
  | perform order next ih => exact ⟨ha.1, fun reply => ih reply (ha.2 reply)⟩
  | echo text next ih | pause span next ih => exact ih ha
  | mark m next ih => exact ⟨ha.1, ih ha.2⟩

/-- Until it ends in a value it gives the order so many times. -/
def Sends (order : Order) : Activity α → Nat → Prop
  | .done _, n => n = 0
  | .fail _ _, _ => True
  | .look next, n => ∀ view, (next view).Sends order n
  | .issue _ next, n => ∀ reply, (next reply).Sends order n
  | .perform o next, n =>
    ∀ reply, ∃ m, n = m + (if o = order then 1 else 0) ∧ (next reply).Sends order m
  | .echo _ next, n => next.Sends order n
  | .mark _ next, n => next.Sends order n
  | .pause _ next, n => next.Sends order n
  | .await _ _ next, n => ∀ met, (next met).Sends order n

theorem Within.sends_none (ho : ¬ p order) (a : Activity α) (ha : a.Within p q) :
    a.Sends order 0 := by
  induction a with
  | done value => rfl
  | fail => trivial
  | look next ih | issue action next ih | await holds limit next ih => exact fun x => ih x (ha x)
  | perform o next ih =>
    have hne : o ≠ order := fun he => ho (he ▸ ha.1)
    exact fun reply => ⟨0, by simp [hne], ih reply (ha.2 reply)⟩
  | echo text next ih | pause span next ih => exact ih ha
  | mark m next ih => exact ih ha.2

end Activity

def Command.Gives : Command → Order → Prop
  | .click button => (· = .click button)
  | .recipe name => (· = .recipe name)
  | .item name => fun order => ∃ hq, order = .item name hq
  | .target name => fun order => ∃ index list, order = .target name index list
  | .send keys => (· = .keys .press keys)
  | .hold keys => (· = .keys .hold keys)
  | .release keys => (· = .keys .release keys)
  | .native _ => fun order => ∃ line, order = .native line
  | _ => fun _ => False

def Command.Makes : Command → Mark → Prop
  | .craft _ | .loop _ => fun m => ∀ reason, m ≠ .held reason
  | .requireRepair | .requireSpiritbond _ => fun m => ∃ reason, m = .held reason
  | _ => fun _ => False

namespace Execution
open Activity

variable {p : Order → Prop} {q : Mark → Prop}

theorem within_attempt (action : String) (ackTimeout : Duration) (left : Nat) :
    ∀ used, (Retry.attempt action ackTimeout used left).Within p q := by
  induction left with
  | zero => exact fun _ => trivial
  | succ left ih =>
    intro used reply
    cases reply with
    | error => trivial
    | ok ticket =>
      intro met
      cases met with
      | true => trivial
      | false => exact ih (used + 1)

theorem within_issue (maxRetries : Nat) (ackTimeout : Duration) (action : String)
    (unconfirmed : Bool) : (Retry.issue maxRetries ackTimeout action unconfirmed).Within p q := by
  unfold Retry.issue
  split
  · intro reply
    cases reply <;> trivial
  · exact within_attempt action ackTimeout _ 0

theorem within_act (config : Config) (line : Nat) (eff : Effective) (name : String) :
    (act config line eff name).Within p q := by
  intro view
  dsimp only
  split
  · trivial
  · refine Within.bind _ (within_issue _ _ _ _) fun outcome => ?_
    cases outcome with
    | refused | exhausted => trivial
    | success =>
      dsimp only
      split
      · exact fun _ => trivial
      · trivial

theorem within_orderly (line : Nat) (site : GameError → Site) (wait : WaitSpan) {order : Order}
    (ho : p order) : (orderly line site wait order).Within p q := by
  refine ⟨ho, fun reply => ?_⟩
  cases reply <;> trivial

theorem within_check {reason : String} (hq : q (.held reason)) (wait : WaitSpan)
    (trips : View → Bool) : (check reason wait trips).Within p q := by
  intro view
  dsimp only
  split
  · exact ⟨hq, trivial⟩
  · trivial

theorem within_waitAddon (line : Nat) (eff : Effective) (name : String) :
    (waitAddon line eff name).Within p q := by
  intro met
  cases met with
  | true => trivial
  | false => exact fun _ => trivial

theorem within_demand (line : Nat) (site : Site) (what : String) (limit : Duration)
    (holds : View → Bool) : (demand line site what limit holds).Within p q := by
  intro met
  cases met <;> trivial

theorem within_tell (wanted : Bool) (news : Option String) : (tell wanted news).Within p q := by
  unfold tell
  split <;> trivial

theorem within_enter (library : Library) (chain : List String) (eff : Effective) (name : String) :
    (enter library chain eff name).Within p q := by
  unfold enter
  split
  · trivial
  · split <;> trivial

theorem within_gate (hq : ∀ m, (∀ reason, m ≠ .held reason) → q m) (index count : Nat)
    (eff : Effective) (frames : List Frame) : (gate index count eff frames).Within p q := by
  refine ⟨hq _ (by simp), hq _ (by simp), ?_⟩
  refine Within.bind (tell _ _) (within_tell _ _) fun _ => ⟨hq _ (by simp), ?_⟩
  change Within p q (if _ then _ else _)
  split <;> trivial

theorem within_loop (hq : ∀ m, (∀ reason, m ≠ .held reason) → q m) (config : Config) (index : Nat)
    (count : LoopCount) (eff : Effective) (frames : List Frame) :
    (loop config index count eff frames).Within p q := by
  unfold loop
  by_cases hi : index = 0
  · simp only [hi, if_true]
    by_cases hz : count = .finite 0
    · simp only [hz, if_true]
      exact Within.bind (tell _ _) (within_tell _ _) fun _ => trivial
    · simp only [hz, if_false]
      exact ⟨hq _ (by simp), trivial⟩
  · simp only [hi, if_false]
    refine ⟨hq _ (by simp), hq _ (by simp), ?_⟩
    exact Within.bind (tell _ _) (within_tell _ _) fun _ => ⟨hq _ (by simp), trivial⟩

theorem within_command (rules : Rules) (chain : List String) (index : Nat) (frames : List Frame)
    (step : Step) (eff : Effective) :
    (command rules chain index frames step eff).Within step.command.Gives step.command.Makes := by
  have hdemand : ∀ {p : Order → Prop} {q : Mark → Prop} (what : String) (holds : View → Bool),
      ((demand step.line .requireTimeout what eff.maxWait holds).bind fun _ =>
        (.pause eff.wait (.done .next) : Activity Flow)).Within p q :=
    fun what holds => Within.bind _ (within_demand _ _ _ _ _) fun _ => trivial
  unfold command
  cases hc : step.command with
  | craft count => exact within_gate (fun _ h => h) _ _ _ _
  | loop count => exact within_loop (fun _ h => h) _ _ _ _ _
  | runMacro name => exact within_enter _ _ _ _
  | action name => exact within_act _ _ _ _
  | click | recipe | send | hold | release => exact within_orderly _ _ _ rfl
  | item name => exact within_orderly _ _ _ ⟨_, rfl⟩
  | target name => exact within_orderly _ _ _ ⟨_, _, rfl⟩
  | native name => exact within_orderly _ _ _ ⟨_, rfl⟩
  | require | requireQuality | requireStats => exact hdemand _ _
  | requireRepair | requireSpiritbond => exact within_check ⟨_, rfl⟩ _ _
  | waitAddon => exact within_waitAddon _ _ _
  | wait | echo => trivial

theorem within_step (rules : Rules) (chain : List String) (index : Nat) (frames : List Frame)
    (step : Step) : (Execution.step rules chain index frames step).Within step.command.Gives
      step.command.Makes := by
  intro view
  dsimp only
  split
  · trivial
  · exact within_command rules chain index frames step _

/-- A click is sent once by the steps that click the button, and by no others. -/
theorem sends_step (rules : Rules) (chain : List String) (index : Nat) (frames : List Frame)
    (step : Step) (button : String) : (Execution.step rules chain index frames step).Sends
      (.click button) (if step.command = .click button then 1 else 0) := by
  by_cases hc : step.command = .click button
  · intro view
    dsimp only
    split
    · trivial
    · rw [if_pos hc, command]
      simp only [hc]
      intro reply
      refine ⟨0, by simp, ?_⟩
      cases reply <;> trivial
  · rw [if_neg hc]
    refine Within.sends_none (fun hg => ?_) _ (within_step rules chain index frames step)
    cases hcommand : step.command <;> simp_all [Command.Gives]

end Execution
end MacroEngine
