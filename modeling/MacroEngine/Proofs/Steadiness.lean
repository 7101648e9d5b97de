import MacroEngine.Proofs.Effects
import MacroEngine.Proofs.Settling
import MacroEngine.Proofs.Yields

/-! A game whose answers never change. What a step does in it depends on the step alone: it sends
the same commands and ends alike whatever was done before. -/
namespace MacroEngine

/-- The answers of a game that never change. Tickets may be new ones each time, but an action that
was just issued is acknowledged always or never. -/
structure Client.Steady (client : Client γ) where
  seen : View
  acknowledged : String → Bool
  refusal : String → Option GameError
  reply : Order → Except GameError Unit
  timeless : client.Timeless
  view : ∀ game, ∃ tickets, client.view game 0 = { seen with isAcknowledged := tickets }
  refuses : ∀ game action error, refusal action = some error →
    (client.issue game 0 action).1 = .error error
  issues : ∀ game action, refusal action = none → ∃ ticket,
    (client.issue game 0 action).1 = .ok ticket ∧
    (client.view (client.issue game 0 action).2 0).isAcknowledged ticket = acknowledged action
  performs : ∀ game order, (client.perform game 0 order).1 = reply order

namespace Activity

theorem play_bind (client : Client γ) (activity : Activity α) (f : α → Activity β) :
    ∀ (a : Account γ) (frames : List Frame), (activity.bind f).play client a frames =
      match activity.play client a frames with
      | ⟨a, frames, .value value⟩ => (f value).play client a frames
      | ⟨a, frames, .failure site error⟩ => ⟨a, frames, .failure site error⟩
      | ⟨a, frames, .interrupted⟩ => ⟨a, frames, .interrupted⟩ := by
  induction activity with
  | done | fail => exact fun _ _ => rfl
  | look next ih | issue action next ih | perform order next ih | await holds limit next ih =>
    exact fun a frames => ih _ _ _
  | echo text next ih | pause span next ih => exact fun a frames => ih _ _
  | mark m next ih => cases m <;> exact fun a frames => ih _ _

/-- What an activity ensures is so when it has been played to its end. -/
theorem ensures_play {post : List Frame → Nat → α → Prop} (client : Client γ)
    (activity : Activity α) : ∀ {a : Account γ} {frames : List Frame} {value : α},
      activity.Ensures post frames a.crossings →
      (activity.play client a frames).ending = .value value →
      post (activity.play client a frames).frames
        (activity.play client a frames).account.crossings value := by
  induction activity with
  | done value =>
    intro a frames value h hend
    cases hend
    exact h
  | fail => exact fun _ hend => nomatch hend
  | look next ih | issue action next ih | perform order next ih | await holds limit next ih =>
    exact fun h hend => ih _ (h _) hend
  | echo text next ih | pause span next ih => exact fun h hend => ih h hend
  | mark m next ih => cases m <;> exact fun h hend => ih h hend

/-- From some frames on, an activity adds the same to every account and ends alike. -/
def Fixed (client : Client γ) (activity : Activity α) (frames : List Frame) : Prop :=
  ∃ (d : Yield) (frames' : List Frame) (ending : Course.End α),
    (∀ e ∈ d.events, e.isCommand) ∧ ending ≠ .interrupted ∧
    ∀ a : Account γ, ∃ game, activity.play client a frames = ⟨a.plus d game, frames', ending⟩

variable {client : Client γ} {frames : List Frame}

theorem fixed_done (value : α) : (Activity.done value).Fixed client frames :=
  ⟨.zero, frames, .value value, by simp [Yield.zero], by simp, fun a => ⟨a.game, rfl⟩⟩

theorem fixed_fail (site : Site) (error : RunError) :
    (Activity.fail site error : Activity α).Fixed client frames :=
  ⟨.zero, frames, .failure site error, by simp [Yield.zero], by simp, fun a => ⟨a.game, rfl⟩⟩

theorem fixed_pause {span : WaitSpan} {next : Activity α} (h : next.Fixed client frames) :
    (Activity.pause span next).Fixed client frames :=
  h

/-- One more command before an activity. -/
theorem fixed_after {activity next : Activity α} (event : Event) (hc : event.isCommand)
    (softErrors : List String) (h : next.Fixed client frames)
    (hplay : ∀ a : Account γ, ∃ game, activity.play client a frames =
      next.play client (a.plus (.ofCommand softErrors event) game) frames) :
    activity.Fixed client frames := by
  obtain ⟨d, frames', ending, hd, hne, hall⟩ := h
  refine ⟨.ofCommand softErrors event ++ d, frames', ending, ?_, hne, fun a => ?_⟩
  · intro e he
    rcases List.mem_append.mp he with he | he
    · rwa [List.mem_singleton.mp he]
    · exact hd e he
  · obtain ⟨game, hgame⟩ := hplay a
    obtain ⟨game', hgame'⟩ := hall (a.plus (.ofCommand softErrors event) game)
    exact ⟨game', by rw [hgame, hgame', Account.plus_plus]⟩

theorem fixed_echo {text : String} {next : Activity α} (h : next.Fixed client frames) :
    (Activity.echo text next).Fixed client frames :=
  fixed_after (.echoed text) rfl [] h fun _ => ⟨_, rfl⟩

theorem fixed_mark {m : Mark} {next : Activity α}
    (h : ∀ frames, next.Fixed client frames) : (Activity.mark m next).Fixed client frames := by
  cases m with
  | boundary => exact h frames
  | frames frames => exact h frames
  | held reason =>
    exact fixed_after (.notified (reason ++ "; macro paused")) rfl [reason ++ "; macro paused"]
      (h frames) fun _ => ⟨_, rfl⟩
  | crossed =>
    obtain ⟨d, frames', ending, hd, hne, hall⟩ := h frames
    refine ⟨(⟨0, 1, [], []⟩ : Yield) ++ d, frames', ending, by simpa using hd, hne, fun a => ?_⟩
    obtain ⟨game, hgame⟩ := hall (a.plus ⟨0, 1, [], []⟩ a.game)
    rw [Account.plus_plus] at hgame
    exact ⟨game, hgame⟩

theorem fixed_bind {activity : Activity α} {f : α → Activity β} (h : activity.Fixed client frames)
    (hf : ∀ value frames, (f value).Fixed client frames) :
    (activity.bind f).Fixed client frames := by
  obtain ⟨d, frames', ending, hd, hne, hall⟩ := h
  cases ending with
  | interrupted => exact absurd rfl hne
  | failure site error =>
    refine ⟨d, frames', .failure site error, hd, by simp, fun a => ?_⟩
    obtain ⟨game, hgame⟩ := hall a
    exact ⟨game, by rw [play_bind, hgame]⟩
  | value value =>
    obtain ⟨d', frames'', ending, hd', hne', hall'⟩ := hf value frames'
    refine ⟨d ++ d', frames'', ending, ?_, hne', fun a => ?_⟩
    · intro e he
      rcases List.mem_append.mp he with he | he
      · exact hd e he
      · exact hd' e he
    · obtain ⟨game, hgame⟩ := hall a
      obtain ⟨game', hgame'⟩ := hall' (a.plus d game)
      refine ⟨game', ?_⟩
      rw [play_bind, hgame]
      dsimp only
      rw [hgame', Account.plus_plus]

section Steady
variable (steady : client.Steady)
include steady

/-- Where it makes no difference which tickets are acknowledged. -/
theorem fixed_look {next : View → Activity α}
    (hnext : ∀ tickets, next { steady.seen with isAcknowledged := tickets } = next steady.seen)
    (h : (next steady.seen).Fixed client frames) : (Activity.look next).Fixed client frames := by
  obtain ⟨d, frames', ending, hd, hne, hall⟩ := h
  refine ⟨d, frames', ending, hd, hne, fun a => ?_⟩
  obtain ⟨tickets, hview⟩ := steady.view a.game
  rw [play, hview, hnext]
  exact hall a

theorem fixed_await {holds : View → Bool} {limit : Duration} {next : Bool → Activity α}
    (hholds : ∀ tickets, holds { steady.seen with isAcknowledged := tickets } = holds steady.seen)
    (h : (next (holds steady.seen)).Fixed client frames) :
    (Activity.await holds limit next).Fixed client frames := by
  obtain ⟨d, frames', ending, hd, hne, hall⟩ := h
  refine ⟨d, frames', ending, hd, hne, fun a => ?_⟩
  obtain ⟨tickets, hview⟩ := steady.view a.game
  rw [play, hview, hholds]
  exact hall a

theorem fixed_perform {order : Order} {next : Except GameError Unit → Activity α}
    (h : (next (steady.reply order)).Fixed client frames) :
    (Activity.perform order next).Fixed client frames := by
  refine fixed_after (.performed order) rfl [] h fun a => ⟨(client.perform a.game 0 order).2, ?_⟩
  rw [← steady.performs a.game order]
  rfl

theorem fixed_refused {action : String} {error : GameError}
    (hr : steady.refusal action = some error) {next : Except GameError Ticket → Activity α}
    (h : (next (.error error)).Fixed client frames) :
    (Activity.issue action next).Fixed client frames := by
  refine fixed_after (.issued action) rfl [] h fun a => ⟨(client.issue a.game 0 action).2, ?_⟩
  rw [← steady.refuses a.game action error hr]
  rfl

/-- Where only that counts of a ticket whether it is acknowledged. -/
theorem fixed_taken {action : String} (hr : steady.refusal action = none)
    {next : Except GameError Ticket → Activity α} {next' : Activity α}
    (hnext : ∀ ticket (a : Account γ),
      (client.view a.game 0).isAcknowledged ticket = steady.acknowledged action →
      (next (.ok ticket)).play client a frames = next'.play client a frames)
    (h : next'.Fixed client frames) : (Activity.issue action next).Fixed client frames := by
  refine fixed_after (.issued action) rfl [] h fun a => ⟨(client.issue a.game 0 action).2, ?_⟩
  obtain ⟨ticket, hissue, hticket⟩ := steady.issues a.game action hr
  rw [← hnext ticket _ hticket, ← hissue]
  rfl

theorem fixed_attempt (action : String) (ackTimeout : Duration) (left : Nat) :
    ∀ used, (Retry.attempt action ackTimeout used left).Fixed client frames := by
  induction left with
  | zero => exact fun used => fixed_done _
  | succ left ih =>
    intro used
    cases hr : steady.refusal action with
    | some error => exact fixed_refused steady hr (fixed_done _)
    | none =>
      cases hack : steady.acknowledged action with
      | true =>
        refine fixed_taken steady hr (fun ticket a hticket => ?_) (fixed_done (.success (used + 1)))
        simp only [play, hticket, hack]
      | false =>
        refine fixed_taken steady hr (fun ticket a hticket => ?_) (ih (used + 1))
        simp only [play, hticket, hack]

theorem fixed_issue (maxRetries : Nat) (ackTimeout : Duration) (action : String)
    (unconfirmed : Bool) :
    (Retry.issue maxRetries ackTimeout action unconfirmed).Fixed client frames := by
  unfold Retry.issue
  split
  · cases hr : steady.refusal action with
    | some error => exact fixed_refused steady hr (fixed_done _)
    | none => exact fixed_taken steady hr (fun _ _ _ => rfl) (fixed_done (RetryOutcome.success 1))
  · exact fixed_attempt steady action ackTimeout _ 0

end Steady
end Activity

namespace Execution
open Activity

variable {client : Client γ} {frames : List Frame}

theorem fixed_tell (wanted : Bool) (news : Option String) :
    (tell wanted news).Fixed client frames := by
  unfold tell
  split
  · exact fixed_echo (fixed_done _)
  · exact fixed_done _

theorem fixed_change (m : Mark) : (change m).Fixed client frames :=
  fixed_mark fun _ => fixed_done _

theorem fixed_gate (index count : Nat) (eff : Effective) (frames' : List Frame) :
    (gate index count eff frames').Fixed client frames := by
  refine fixed_bind (fixed_change _) fun _ _ => fixed_bind (fixed_change _) fun _ _ =>
    fixed_bind (fixed_tell _ _) fun _ _ => fixed_bind (fixed_change _) fun _ _ => ?_
  split
  · exact fixed_pause (fixed_done _)
  · exact fixed_done _

theorem fixed_loop (config : Config) (index : Nat) (count : LoopCount) (eff : Effective)
    (frames' : List Frame) : (loop config index count eff frames').Fixed client frames := by
  refine fixed_bind (fixed_pause (fixed_done _)) fun _ _ => ?_
  split
  · split
    · exact fixed_bind (fixed_tell _ _) fun _ _ => fixed_done _
    · exact fixed_bind (fixed_change _) fun _ _ => fixed_done _
  · exact fixed_bind (fixed_change _) fun _ _ => fixed_bind (fixed_change _) fun _ _ =>
      fixed_bind (fixed_tell _ _) fun _ _ => fixed_bind (fixed_change _) fun _ _ => fixed_done _

theorem fixed_enter (library : Library) (chain : List String) (eff : Effective) (name : String) :
    (enter library chain eff name).Fixed client frames := by
  unfold enter
  split
  · exact fixed_fail _ _
  · split
    · exact fixed_fail _ _
    · exact fixed_done _

section Steady
variable (steady : client.Steady)
include steady

theorem fixed_act (config : Config) (line : Nat) (eff : Effective) (name : String) :
    (act config line eff name).Fixed client frames := by
  refine fixed_look steady (fun _ => rfl) ?_
  split
  · exact fixed_done _
  · refine fixed_bind (fixed_issue steady _ _ _ _) fun outcome frames => ?_
    cases outcome with
    | refused | exhausted => exact fixed_fail _ _
    | success =>
      dsimp only
      split
      · exact fixed_await steady (fun _ => rfl) (fixed_done _)
      · exact fixed_pause (fixed_done _)

theorem fixed_orderly (line : Nat) (site : GameError → Site) (wait : WaitSpan) (order : Order) :
    (orderly line site wait order).Fixed client frames := by
  refine fixed_perform steady ?_
  cases steady.reply order with
  | ok => exact fixed_pause (fixed_done _)
  | error => exact fixed_fail _ _

theorem fixed_demand (line : Nat) (site : Site) (what : String) (limit : Duration)
    {holds : View → Bool}
    (hholds : ∀ tickets, holds { steady.seen with isAcknowledged := tickets } = holds steady.seen) :
    (demand line site what limit holds).Fixed client frames := by
  refine fixed_await steady hholds ?_
  cases holds steady.seen with
  | true => exact fixed_done _
  | false => exact fixed_fail _ _

theorem fixed_check (reason : String) (wait : WaitSpan) {trips : View → Bool}
    (htrips : ∀ tickets, trips { steady.seen with isAcknowledged := tickets } = trips steady.seen) :
    (check reason wait trips).Fixed client frames := by
  refine fixed_look steady (fun tickets => by simp only [htrips]) ?_
  split
  · exact fixed_mark fun _ => fixed_done _
  · exact fixed_pause (fixed_done _)

theorem fixed_waitAddon (line : Nat) (eff : Effective) (name : String) :
    (waitAddon line eff name).Fixed client frames := by
  refine fixed_await steady (fun _ => rfl) ?_
  split
  · exact fixed_pause (fixed_done _)
  · exact fixed_look steady (fun _ => rfl) (fixed_fail _ _)

theorem fixed_command (rules : Rules) (chain : List String) (index : Nat) (frames' : List Frame)
    (step : Step) (eff : Effective) :
    (command rules chain index frames' step eff).Fixed client frames := by
  have hdemand : ∀ (site : Site) (what : String) (holds : View → Bool),
      (∀ tickets, holds { steady.seen with isAcknowledged := tickets } = holds steady.seen) →
      ((demand step.line site what eff.maxWait holds).bind fun _ =>
        .pause eff.wait (.done Flow.next)).Fixed client frames := fun site what holds hholds =>
    fixed_bind (fixed_demand steady _ _ _ _ hholds) fun _ _ => fixed_pause (fixed_done _)
  unfold command
  cases step.command with
  | action name => exact fixed_act steady _ _ _ _
  | click | recipe | item | send | hold | release | target | native =>
    exact fixed_orderly steady _ _ _ _
  | require | requireQuality | requireStats => exact hdemand _ _ _ fun _ => rfl
  | requireRepair | requireSpiritbond => exact fixed_check steady _ _ fun _ => rfl
  | waitAddon => exact fixed_waitAddon steady _ _ _
  | wait => exact fixed_pause (fixed_done _)
  | echo => exact fixed_echo (fixed_pause (fixed_done _))
  | craft => exact fixed_gate _ _ _ _
  | loop => exact fixed_loop _ _ _ _ _
  | runMacro => exact fixed_enter _ _ _ _

/-- In a steady game a step does the same each time. -/
theorem fixed_step (rules : Rules) (chain : List String) (index : Nat) (frames' : List Frame)
    (step : Step) : (Execution.step rules chain index frames' step).Fixed client frames := by
  refine fixed_look steady (fun _ => rfl) ?_
  dsimp only
  split
  · exact fixed_fail _ _
  · exact fixed_command steady _ _ _ _ _ _

omit steady in
/-- Only a step that runs another macro asks for the library or the macros under way. -/
theorem step_plain {rules rules' : Rules} (hconfig : rules'.config = rules.config)
    (chain chain' : List String) (index : Nat) (frames : List Frame) {step : Step}
    (h : ∀ name, step.command ≠ .runMacro name) :
    Execution.step rules' chain' index frames step =
      Execution.step rules chain index frames step := by
  have hcommand : ∀ eff, command rules' chain' index frames step eff =
      command rules chain index frames step eff := by
    intro eff
    unfold command
    cases hc : step.command with
    | runMacro name => exact absurd hc (h name)
    | _ => simp only [hconfig]
  unfold Execution.step
  simp only [hconfig, hcommand]

/-- A step that entered a macro enters it as well with fewer macros under way, and with another
library what that has in its place. -/
theorem play_enter {rules : Rules} {chain : List String} {index : Nat} {frames' : List Frame}
    {step : Step} {name : String} (hc : step.command = .runMacro name) {a : Account γ} {flow : Flow}
    (h : ((Execution.step rules chain index frames' step).play client a frames).ending =
      .value flow) :
    ∃ routine wait, rules.library.native name = .ok routine ∧
      ∀ (rules' : Rules) (chain' : List String) (routine' : Routine),
        rules'.config = rules.config → chain' ⊆ chain → rules'.library.native name = .ok routine' →
        ∀ a, (Execution.step rules' chain' index frames' step).play client a frames =
          ⟨a, frames, .value (.enter name routine' wait)⟩ := by
  let names := if step.modifiers.condition.isSome then steady.seen.conditionNames else []
  cases hr : resolve rules.config names step with
  | error e =>
    obtain ⟨tickets, hview⟩ := steady.view a.game
    rw [Execution.step, play, hview] at h
    simp only [names] at hr
    simp only [hr] at h
    cases h
  | ok eff =>
    have hplay : ∀ (rules' : Rules) (chain : List String) (a : Account γ),
        rules'.config = rules.config →
          (Execution.step rules' chain index frames' step).play client a frames =
            Activity.play client (enter rules'.library chain eff name) a frames := by
      intro rules' chain a hconfig
      obtain ⟨tickets, hview⟩ := steady.view a.game
      simp only [names, ← hconfig] at hr
      rw [Execution.step, play, hview]
      simp only [hr, command, hc]
    rw [hplay rules chain a rfl] at h
    unfold enter at h
    split at h
    · cases h
    · rename_i hchain
      split at h
      · cases h
      · rename_i routine hlib
        refine ⟨routine, eff.wait, hlib, fun rules' chain' routine' hconfig hsub hlib' a => ?_⟩
        have hchain' : ¬ (chain'.any fun n => sameName n name) = true := by
          intro hany
          obtain ⟨n, hn, hsame⟩ := List.any_eq_true.mp hany
          exact hchain (List.any_eq_true.mpr ⟨n, hsub hn, hsame⟩)
        rw [hplay rules' chain' a hconfig]
        simp only [enter, if_neg hchain', hlib', play]

/-- What a step does that does not fail, it does with fewer macros under way as well. -/
theorem play_fewer {rules : Rules} {chain : List String} {index : Nat} {frames' : List Frame}
    {step : Step} {a : Account γ} {flow : Flow}
    (h : ((Execution.step rules chain index frames' step).play client a frames).ending =
      .value flow) :
    ∃ (d : Yield) (frames'' : List Frame), ∀ chain' ⊆ chain, ∀ a : Account γ, ∃ game,
      (Execution.step rules chain' index frames' step).play client a frames =
        ⟨a.plus d game, frames'', .value flow⟩ := by
  by_cases hrun : ∃ name, step.command = .runMacro name
  · obtain ⟨name, hc⟩ := hrun
    obtain ⟨routine, wait, hlib, hall⟩ := play_enter steady hc h
    rw [hall rules chain routine rfl (List.Subset.refl _) hlib] at h
    cases h
    exact ⟨.zero, frames, fun chain' hsub a =>
      ⟨a.game, hall rules chain' routine rfl hsub hlib a⟩⟩
  · have hplain : ∀ name, step.command ≠ .runMacro name := fun name hc => hrun ⟨name, hc⟩
    obtain ⟨d, frames'', ending, _, _, hall⟩ := fixed_step steady rules chain index frames' step
    obtain ⟨game, hgame⟩ := hall a
    rw [hgame] at h
    cases h
    refine ⟨d, frames'', fun chain' _ a => ?_⟩
    rw [step_plain rfl chain chain' index frames' hplain]
    exact hall a

end Steady
end Execution
end MacroEngine
