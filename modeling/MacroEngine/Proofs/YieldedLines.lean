import MacroEngine.Proofs.Companions
import MacroEngine.Proofs.Completion

/-! Yielded lines behave like steps. Neither does a macro wait forever for a script that yields its
lines, nor the script for the macro, so each of them does what the other one does. -/
namespace MacroEngine
namespace Snapshot

variable {engine : Engine γ} {blind : engine.client.Blind} {s t : Snapshot γ} {now : Moment}
  {game game' : γ} {name : String} {routine : Routine} {f f' : Fiber}

/-- Whatever the script does next, the macro is soon there as well. -/
theorem Paired.follow (h : Paired blind name routine s t) :
    ∃ n, Paired blind name routine (s.after engine n) (t.tick engine) := by
  cases h with
  | closed hseen ho ho' =>
    exact ⟨0, by rw [tick_of_outcome ho']; exact .closed hseen ho ho'⟩
  | going ha hc =>
    cases hc with
    | speaking hb hg hrecites =>
      cases hrecites with
      | ended =>
        obtain ⟨f₁, ha₁, hp, hg₁, htick⟩ := before_end_tick ha hb hg
        refine ⟨2, ?_⟩
        rw [after_succ, after_succ, after_zero, htick]
        exact done_tick ha₁ hp hg₁
      | yielded hnext hgives => exact ⟨0, .going ha (.requested hb hg hnext hgives)⟩
      | noted he hnext => exact ⟨0, .going (alike_noted ha he) (.speaking hb hg hnext)⟩
      | asked hnext => exact ⟨0, .going ha (.speaking hb hg (hnext _))⟩
      | idle hnext => exact ⟨0, .going ha (.speaking hb hg hnext)⟩
    | requested hb hg hrecites hgives =>
      rcases requested_tick ha hb with ⟨hb', htick⟩ | ⟨f'', ha', ho, htick⟩
      · exact ⟨0, by rw [htick]; exact .going ha (.speaking hb' hg hrecites)⟩
      · exact ⟨0, by rw [htick]; exact .going ha' (.onLine ho hrecites hgives)⟩
    | onLine ho hrecites hgives => exact ⟨1, onLine_tick ha ho hrecites hgives⟩
    | completed hb hs hp hrecites hgives =>
      rcases completed_tick ha hb hs hp hrecites hgives with hjoint | ⟨hg, f'', ha', hp', htick⟩
      · exact ⟨1, hjoint⟩
      · exact ⟨0, by rw [htick]; exact .going ha' (.served hb hg hp' hrecites)⟩
    | served hb hg hp hrecites =>
      exact ⟨0, by rw [tick_replied hp]; exact .going ha (.speaking hb hg hrecites)⟩
    | failed hp hp' hends hgives =>
      obtain ⟨error, hreply⟩ := hends.reply
      refine ⟨0, ?_⟩
      rw [tick_replied hp', hreply]
      exact .going ha (.givingUp hp hends hreply (hgives error))
    | givingUp hp hends hreply hgives =>
      cases hgives with
      | ended => exact ⟨1, gaveUp_tick ha hp hends hreply⟩
      | noted he hnext => exact ⟨0, .going (alike_noted ha he) (.givingUp hp hends hreply hnext)⟩
      | asked hnext => exact ⟨0, .going ha (.givingUp hp hends hreply (hnext _))⟩
      | idle hnext => exact ⟨0, .going ha (.givingUp hp hends hreply hnext)⟩
    | done hp hg => exact ⟨1, done_tick ha hp hg⟩

def Catches {client : Client γ} (blind : client.Blind) (name : String) (routine : Routine)
    (engine : Engine γ) (s t : Snapshot γ) : Prop :=
  ∃ m, Paired blind name routine (s.tick engine) (t.after engine m)

theorem Catches.of_tick (h : Catches blind name routine engine s (t.tick engine)) :
    Catches blind name routine engine s t := by
  obtain ⟨m, hm⟩ := h
  exact ⟨m + 1, by rwa [after_tick] at hm⟩

section Catches
variable {cursor : Nat} {lines : List String} {dialogue : Dialogue}
  {result result' : Except RunError Bool} {error : RunError}

theorem catches_givingUp (hgives : dialogue.GivesUp error) (hp : f.phase = .ended result)
    (hends : EndsAlike result result') (hreply : Bridge.replyTo result' = some error) :
    ∀ {f'}, f.Alike blind game game' f' → Catches blind name routine engine
      (ofMacro now game name f) (ofScript now game' name f' ⟨.speaking dialogue, none, none⟩) := by
  induction hgives with
  | ended => exact fun ha => ⟨1, gaveUp_tick ha hp hends hreply⟩
  | noted he _ ih => exact fun ha => .of_tick (ih (alike_noted ha he))
  | asked _ ih => exact fun ha => .of_tick (ih _ ha)
  | idle _ ih => exact fun ha => .of_tick (ih ha)

/-- The induction is on what the script still has to say. -/
theorem catches_speaking (hrecites : dialogue.Recites lines) (hg : f.Goes) :
    ∀ {cursor f'}, f.AtStep name routine cursor lines → f.Alike blind game game' f' →
      Catches blind name routine engine (ofMacro now game name f)
        (ofScript now game' name f' ⟨.speaking dialogue, none, none⟩) := by
  induction hrecites with
  | ended =>
    intro cursor f' hb ha
    obtain ⟨f₁, ha₁, hp, hg₁, htick⟩ := before_end_tick ha hb hg
    exact ⟨0, by rw [htick]; exact .going ha₁ (.done hp hg₁)⟩
  | yielded hnext hgives ih =>
    intro cursor f' hb ha
    refine .of_tick (.of_tick ?_)
    rcases requested_tick ha hb with ⟨hb', htick⟩ | ⟨f'', ha', ho, htick⟩
    · rw [tick_yielded, htick]
      exact ih hb' ha
    · rw [tick_yielded, htick]
      exact ⟨1, onLine_tick ha' ho hnext hgives⟩
  | noted he _ ih => exact fun hb ha => .of_tick (ih hb (alike_noted ha he))
  | asked _ ih => exact fun hb ha => .of_tick (ih _ hb ha)
  | idle _ ih => exact fun hb ha => .of_tick (ih hb ha)

end Catches

/-- Whatever the macro does next, the script is soon there as well. -/
theorem Paired.catches (h : Paired blind name routine s t) :
    Catches blind name routine engine s t := by
  cases h with
  | closed hseen ho ho' => exact ⟨0, by rw [tick_of_outcome ho]; exact .closed hseen ho ho'⟩
  | going ha hc =>
    cases hc with
    | speaking hb hg hrecites => exact catches_speaking hrecites hg hb ha
    | requested hb hg hrecites hgives =>
      apply Catches.of_tick
      rcases requested_tick ha hb with ⟨hb', htick⟩ | ⟨f'', ha', ho, htick⟩
      · rw [htick]
        exact catches_speaking hrecites hg hb' ha
      · rw [htick]
        exact ⟨1, onLine_tick ha' ho hrecites hgives⟩
    | onLine ho hrecites hgives => exact ⟨1, onLine_tick ha ho hrecites hgives⟩
    | completed hb hs hp hrecites hgives =>
      rcases completed_tick ha hb hs hp hrecites hgives with hjoint | ⟨hg, f'', ha', hp', htick⟩
      · exact ⟨1, hjoint⟩
      · refine .of_tick (.of_tick ?_)
        rw [htick, tick_replied hp']
        exact catches_speaking hrecites hg hb ha'
    | served hb hg hp hrecites =>
      apply Catches.of_tick
      rw [tick_replied hp]
      exact catches_speaking hrecites hg hb ha
    | failed hp hp' hends hgives =>
      obtain ⟨error, hreply⟩ := hends.reply
      apply Catches.of_tick
      rw [tick_replied hp', hreply]
      exact catches_givingUp (hgives error) hp hends hreply ha
    | givingUp hp hends hreply hgives => exact catches_givingUp hgives hp hends hreply ha
    | done hp hg => exact ⟨1, done_tick ha hp hg⟩

theorem Paired.after (h : Paired blind name routine s t) :
    (∀ n, ∃ m, Paired blind name routine (s.after engine n) (t.after engine m)) ∧
      ∀ m, ∃ n, Paired blind name routine (s.after engine n) (t.after engine m) := by
  constructor
  · intro n
    induction n with
    | zero => exact ⟨0, h⟩
    | succ n ih =>
      obtain ⟨m, hm⟩ := ih
      obtain ⟨k, hk⟩ := hm.catches
      exact ⟨m + k, by rwa [after_succ, after_add]⟩
  · intro m
    induction m with
    | zero => exact ⟨0, h⟩
    | succ m ih =>
      obtain ⟨n, hn⟩ := ih
      obtain ⟨k, hk⟩ := hn.follow
      exact ⟨n + k, by rwa [after_succ, after_add]⟩

theorem paired_start (blind : engine.client.Blind) (now : Moment) (game : γ) (name : String)
    {lines : List String} (hspells : Spells routine.steps lines) {dialogue : Dialogue}
    (hrecites : dialogue.Recites lines) : Paired blind name routine (start now game name routine)
      (startScript now game name dialogue) := by
  have hstate : (Controls.start name).state Controls.root = .running := rfl
  have hgoes : ((Fiber.idle name).load (.begin name routine Controls.root)).Goes := by
    change (Controls.start name).state Controls.root ≠ _ ∧
      (Controls.start name).state Controls.root ≠ _
    rw [hstate]
    decide
  have hbefore : ((Fiber.idle name).load (.begin name routine Controls.root)).AtStep name routine 0
      lines := ⟨rfl, rfl, hspells⟩
  exact .going ⟨blind.refl game, rfl, rfl, rfl, rfl, .nil, .nil⟩
    (.speaking hbefore hgoes hrecites)

/-- What a script sends that yields some lines, and how it ends, is what a macro sends that
consists of the same lines, and how that ends. At any time of the one, what is seen of it is seen
of the other at some time; only the lines that errors name can differ. -/
theorem yielded_lines_like_steps (blind : engine.client.Blind) {lines : List String}
    (h : Yieldable lines) : ∃ routine,
      Routine.read (Text.unlines (lines.map String.toList)) = .ok routine ∧
      ((∀ line ∈ lines, '\t' ∉ line.toList) →
        (∀ line ∈ lines.head?, line.toList.head? ≠ some '\ufeff') →
        Routine.ofSource (String.ofList (Text.unlines (lines.map String.toList))) = .ok routine) ∧
      ∀ (now : Moment) (game : γ) (name : String) (dialogue : Dialogue), dialogue.Recites lines →
        (∀ n, ∃ m, ((start now game name routine).after engine n).AsYielded blind
          ((startScript now game name dialogue).after engine m)) ∧
        ∀ m, ∃ n, ((start now game name routine).after engine n).AsYielded blind
          ((startScript now game name dialogue).after engine m) := by
  obtain ⟨routine, hread, hspells⟩ := h.read
  refine ⟨routine, hread, fun htab hmark => (h.ofSource htab hmark).trans hread,
    fun now game name dialogue hrecites => ?_⟩
  obtain ⟨hplayed, hrecited⟩ := (paired_start blind now game name hspells hrecites).after
  exact ⟨fun n => (hplayed n).imp fun _ hp => hp.asYielded,
    fun m => (hrecited m).imp fun _ hp => hp.asYielded⟩

def kitchen : Engine Simulation := ⟨⟨.default, .empty⟩, Simulation.client, .lowest⟩

def onlyStew : Simulation := .ofWorld { recipes := ["stew"] } none

/-- Whether lines can be yielded, line by line. -/
theorem yieldable_of_all {lines : List String}
    (hreads : (lines.all fun line => (Step.read line).isOk) = true)
    (hplain : (lines.all fun line => (Step.read line).toOption.join.all fun step =>
      !step.command.isBoundary) = true)
    (hone : ∀ line ∈ lines, Text.OneLine line.toList) : Yieldable lines where
  reads line hm := by
    have hline := List.all_eq_true.mp hreads line hm
    cases hread : Step.read line with
    | error => simp [hread, Except.isOk, Except.toBool] at hline
    | ok step? => exact ⟨step?, rfl⟩
  plain line hm step hread := by
    have hline := List.all_eq_true.mp hplain line hm
    simpa [hread, Except.toOption] using hline
  oneLine := hone

def cooking : List String := ["/click stove", "", "/recipe soup"]

/-- The recipe is missing: the macro fails on line three, the script on line one. -/
theorem yielded_lines_like_steps_cooking : ∃ routine,
    Routine.ofSource "/click stove\n\n/recipe soup" = .ok routine ∧ ∃ n m,
      ((start 0 onlyStew "M" routine).after kitchen n).AsYielded Simulation.blind
        ((startScript 0 onlyStew "M" (.ofLines false cooking)).after kitchen m) ∧
      ((start 0 onlyStew "M" routine).after kitchen n).run.outcome.map Outcome.result =
        some (.error (.refused 3 (.notFound "recipe soup"))) := by
  have hcooking : Yieldable cooking :=
    yieldable_of_all (by decide +kernel) (by decide +kernel) (by decide +kernel)
  let blind : kitchen.client.Blind := Simulation.blind
  obtain ⟨routine, _, hsource, hruns⟩ :=
    yielded_lines_like_steps blind hcooking
  have htext : Routine.ofSource "/click stove\n\n/recipe soup" = .ok routine := by
    refine .trans ?_ (hsource (by decide +kernel) (by decide +kernel))
    congr 1
  have hroutine : Routine.ofSource "/click stove\n\n/recipe soup" =
      .ok ⟨[⟨1, .click "stove", "stove", {}⟩, ⟨3, .recipe "soup", "soup", {}⟩]⟩ := by decide +kernel
  obtain rfl := Except.ok.inj (hroutine.symm.trans htext)
  obtain ⟨m, hm⟩ := (hruns 0 onlyStew "M" _ (Dialogue.recites_ofLines cooking)).1 20
  exact ⟨_, htext, 20, m, hm, by decide +kernel⟩

def tabbed : String := "/echo \"a\tb\""

def tabbedKitchen : Engine Simulation :=
  { kitchen with rules := ⟨.default, ⟨[⟨"M", .native, tabbed⟩]⟩⟩ }

/-- A game that takes orders only once it was told of an error on line one. -/
def heedful : Engine (List String) where
  rules := ⟨.default, .empty⟩
  client := {
    view := fun _ now => Client.still.view () now
    issue := fun notices _ _ => (.ok 0, notices)
    perform := fun notices _ _ =>
      (if notices.contains "line 1: not found: button" then .ok ()
        else .error (.notFound "button"), notices)
    echo := fun notices _ _ => notices
    notify := fun notices _ text => text :: notices }
  draw := .lowest

def clicking : List String := ["", "/click a", "/click b"]

/-- A macro in a library is not like its lines yielded where a line holds a tab, nor in a game that
goes by the lines that its notices name. -/
theorem yielded_lines_unlike_steps :
    (Yieldable [tabbed] ∧ ∃ routine, tabbedKitchen.rules.library.native "M" = .ok routine ∧
      let played := (start 0 onlyStew "M" routine).after tabbedKitchen 20
      let recited := (startScript 0 onlyStew "M" (.ofLines false [tabbed])).after tabbedKitchen 20
      played.run.outcome.map Outcome.ended = some 0 ∧
      commands played.run.fiber.journal = [.echoed "\"a    b\""] ∧
      recited.run.outcome.map Outcome.ended = some 0 ∧
      commands recited.run.fiber.journal = [.echoed "\"a\tb\""]) ∧
    (Yieldable clicking ∧ ∃ routine, Routine.ofSource "\n/click a\n/click b" = .ok routine ∧
      let played := (start 0 [] "M" routine).after heedful 40
      let recited := (startScript 0 [] "M" (.ofLines false clicking)).after heedful 40
      played.run.outcome.map Outcome.result = some (.ok ⟨"M", 2, 0,
        ["line 2: not found: button", "line 3: not found: button"], false⟩) ∧
      recited.run.outcome.map Outcome.result =
        some (.ok ⟨"M", 2, 0, ["line 1: not found: button"], false⟩)) := by
  refine ⟨⟨yieldable_of_all (by decide +kernel) (by decide +kernel) (by decide +kernel),
    ⟨[⟨1, .echo "\"a    b\"", "\"a    b\"", {}⟩]⟩, by decide +kernel, by decide +kernel⟩,
    yieldable_of_all (by decide +kernel) (by decide +kernel) (by decide +kernel),
    ⟨[⟨2, .click "a", "a", {}⟩, ⟨3, .click "b", "b", {}⟩]⟩, by decide +kernel, by decide +kernel⟩

end Snapshot
end MacroEngine
