import MacroEngine.Proofs.Completion
import MacroEngine.Proofs.Refusals
import MacroEngine.Proofs.Resting

/-! What a run tells the user through the game, and what it keeps for its report: soft errors and
the pauses of checks, each once, in order, and nothing else. -/
namespace MacroEngine

def Event.notice? : Event → Option String
  | .notified text => some text
  | _ => none

def notices (journal : List (Moment × Event)) : List String :=
  journal.reverse.filterMap fun entry => entry.2.notice?

/-- `heard` reads off the game the notices that it was given, oldest first. -/
structure Client.Listens (client : Client γ) (heard : γ → List String) : Prop where
  issue : ∀ game now action, heard (client.issue game now action).2 = heard game
  perform : ∀ game now order, heard (client.perform game now order).2 = heard game
  echo : ∀ game now text, heard (client.echo game now text) = heard game
  notify : ∀ game now text, heard (client.notify game now text) = heard game ++ [text]

def Client.recorded (client : Client γ) : Client (γ × List String) where
  view s now := client.view s.1 now
  issue s now action :=
    let (reply, game) := client.issue s.1 now action
    (reply, game, s.2)
  perform s now order :=
    let (reply, game) := client.perform s.1 now order
    (reply, game, s.2)
  echo s now text := (client.echo s.1 now text, s.2)
  notify s now text := (client.notify s.1 now text, s.2 ++ [text])

theorem Client.recorded_listens (client : Client γ) : client.recorded.Listens Prod.snd :=
  ⟨fun _ _ _ => rfl, fun _ _ _ => rfl, fun _ _ _ => rfl, fun _ _ _ => rfl⟩

structure Telling (γ : Type) where
  game : γ
  softErrors : List String
  journal : List (Moment × Event)

/-- From the one to the other the user was told these texts, and no others. -/
structure Telling.Adds (client : Client γ) (texts : List String) (a b : Telling γ) : Prop where
  softErrors : b.softErrors = texts.reverse ++ a.softErrors
  journal : notices b.journal = notices a.journal ++ texts
  heard : ∀ heard, client.Listens heard → heard b.game = heard a.game ++ texts

namespace Telling

variable {client : Client γ} {a b c : Telling γ} {texts texts' : List String}

theorem adds_nothing (hsoft : b.softErrors = a.softErrors)
    (hjournal : notices b.journal = notices a.journal)
    (hheard : ∀ heard, client.Listens heard → heard b.game = heard a.game) :
    Adds client [] a b :=
  ⟨by simp [hsoft], by simp [hjournal], fun heard hl => by simp [hheard heard hl]⟩

theorem Adds.refl (a : Telling γ) : Adds client [] a a := adds_nothing rfl rfl fun _ _ => rfl

theorem Adds.trans (h : Adds client texts a b) (h' : Adds client texts' b c) :
    Adds client (texts ++ texts') a c where
  softErrors := by rw [h'.softErrors, h.softErrors, List.reverse_append, List.append_assoc]
  journal := by rw [h'.journal, h.journal, List.append_assoc]
  heard heard hl := by rw [h'.heard heard hl, h.heard heard hl, List.append_assoc]

theorem notices_cons {event : Event} (he : event.notice? = none) (now : Moment)
    (journal : List (Moment × Event)) : notices ((now, event) :: journal) = notices journal := by
  simp [notices, List.filterMap_append, he]

theorem adds_notice (client : Client γ) (now : Moment) (text : String) (a : Telling γ) :
    Adds client [text] a ⟨client.notify a.game now text, text :: a.softErrors,
      (now, .notified text) :: a.journal⟩ where
  softErrors := rfl
  journal := by simp [notices, List.filterMap_append, Event.notice?]
  heard _ hl := hl.notify _ _ _

end Telling

def Scene.telling (s : Scene γ) : Telling γ := ⟨s.game, s.softErrors, s.journal⟩

/-- What the user is told next, before anything else is done. -/
def Course.news : Course α → List String
  | .doing (.fail _ error) => if error.isSoft then [error.message] else []
  | .doing (.mark (.held reason) _) => [reason ++ "; macro paused"]
  | _ => []

theorem Course.adds_step? {means : Means γ} {now : Moment} {s s' : Scene γ} {c c' : Course α}
    (h : c.step? means now s = some (s', c')) :
    Telling.Adds means.client c.news s.telling s'.telling := by
  cases smallStep_of_step? h with
  | issue => exact Telling.adds_nothing rfl (Telling.notices_cons rfl _ _) fun _ hl => hl.issue _ _ _
  | perform =>
    exact Telling.adds_nothing rfl (Telling.notices_cons rfl _ _) fun _ hl => hl.perform _ _ _
  | echo => exact Telling.adds_nothing rfl (Telling.notices_cons rfl _ _) fun _ hl => hl.echo _ _ _
  | @mark m next =>
    cases m with
    | crossed | frames | boundary => exact .refl _
    | held reason => exact Telling.adds_notice means.client now _ s.telling
  | _ => exact .refl _

namespace Fiber

inductive Denied (client : Client γ) (now : Moment) (game : γ) (f : Fiber) (e : GameError) :
    Prop where
  | issue {action next} : f.phase = .busy (.doing (.issue action next)) →
      (client.issue game now action).1 = .error e → Denied client now game f e
  | perform {order next} : f.phase = .busy (.doing (.perform order next)) →
      (client.perform game now order).1 = .error e → Denied client now game f e

variable {engine : Engine γ} {now : Moment} {game game' : γ} {f f' : Fiber} {inv : Invocation}
  {below : List Invocation}

def telling (game : γ) (f : Fiber) : Telling γ := ⟨game, f.softErrors, f.journal⟩

def news (f : Fiber) : List String :=
  match f.phase with
  | .busy course => course.news
  | _ => []

/-- A step that is complete is no news. -/
theorem adds_complete (client : Client γ) (game : γ) (f : Fiber) (now : Moment)
    (inv : Invocation) : Telling.Adds client [] (f.telling game) ((f.complete now inv).telling game) := by
  unfold complete
  split
  · exact Telling.adds_nothing rfl (Telling.notices_cons rfl _ _) fun _ _ => rfl
  · exact .refl _

theorem complete_draws (f : Fiber) (now : Moment) (inv : Invocation) :
    (f.complete now inv).draws = f.draws := by
  unfold complete
  split <;> rfl

theorem telling_leave (game : γ) (f : Fiber) (inv : Invocation) (below : List Invocation)
    (stopped : Bool) : (f.leave inv below stopped).telling game = f.telling game := by
  cases below <;> rfl

theorem adds_handleFailure (client : Client γ) (config : Config) (now : Moment) (game : γ)
    (f : Fiber) (inv : Invocation) (below : List Invocation) (site : Site) (error : RunError) :
    let r := handleFailure client config now game f inv below site error
    Telling.Adds client (if error.isSoft then [error.message] else []) (f.telling game)
      (r.2.telling r.1) := by
  intro r
  by_cases hsoft : error.isSoft
  · have hnotice := Telling.adds_notice client now error.message (f.telling game)
    rw [if_pos hsoft]
    change Telling.Adds _ _ _ ((handleFailure client config now game f inv below site error).2.telling
      (handleFailure client config now game f inv below site error).1)
    unfold handleFailure
    rw [if_pos hsoft]
    cases config.onError site with
    | stop => exact hnotice
    | «continue» =>
      exact hnotice.trans (adds_complete client (client.notify game now error.message)
        (f.withScene inv below ((f.scene inv game).notify client now error.message)) now inv)
  · have hr : r = (game, f.abort error) := by
      change handleFailure client config now game f inv below site error = _
      unfold handleFailure
      rw [if_neg hsoft]
    rw [if_neg hsoft, hr]
    exact .refl _

theorem adds_conclude {c : Course Flow} {ending : Course.End Flow} (hend : c.end? = some ending)
    (engine : Engine γ) (now : Moment) (game : γ) (f : Fiber) (inv : Invocation)
    (below : List Invocation) :
    let r := conclude engine now game f inv below ending
    Telling.Adds engine.client c.news (f.telling game) (r.2.telling r.1) := by
  unfold Course.end? at hend
  split at hend
  · rename_i flow
    cases hend
    cases flow with
    | next | jump => exact adds_complete engine.client game f now inv
    | enter => exact .refl _
    | finish =>
      dsimp only [conclude]
      rw [telling_leave]
      exact adds_complete engine.client game f now inv
  · cases hend
    exact adds_handleFailure engine.client engine.rules.config now game f inv below _ _
  · cases hend
    dsimp only [conclude]
    rw [telling_leave]
    exact .refl _
  · cases hend

theorem adds_finishSteps (client : Client γ) (now : Moment) (game : γ) (f : Fiber)
    (inv : Invocation) (below : List Invocation) :
    let r := finishSteps client now game f inv below
    Telling.Adds client [] (f.telling game) (r.2.telling r.1) := by
  cases hcross : Frames.crossEnd inv.frames with
  | none =>
    rw [finishSteps_none client hcross]
    dsimp only
    rw [telling_leave]
    exact .refl _
  | some crossing =>
    have hadds : Telling.Adds client [] (f.telling game)
        ((f.scene inv game).cross client now crossing).telling := by
      unfold Scene.cross
      cases crossing.news with
      | none => exact .refl _
      | some text =>
        exact Telling.adds_nothing rfl (Telling.notices_cons rfl _ _) fun _ hl => hl.echo _ _ _
    rw [finishSteps_some client hcross]
    dsimp only
    split
    · exact hadds
    · rw [telling_leave]
      exact hadds

theorem adds_step (h : SmallStep engine now game f (game', f')) :
    Telling.Adds engine.client f.news (f.telling game) (f'.telling game') := by
  generalize hr : (game', f') = r at h
  suffices hadds : Telling.Adds engine.client f.news (f.telling game) (r.2.telling r.1) by
    rwa [← hr] at hadds
  have hnews : ∀ {c}, f.phase = .busy c → f.news = c.news := fun hp => by rw [news, hp]
  have hready : f.phase = .ready → f.news = [] := fun hp => by rw [news, hp]
  cases h with
  | halted hs hp =>
    rw [hready hp, telling_leave]
    exact .refl _
  | finished hs hp =>
    rw [hready hp]
    exact adds_finishSteps _ _ _ _ _ _
  | begun hs hp =>
    rw [hready hp]
    exact .refl _
  | moved hs hp hc =>
    rw [hnews hp]
    exact Course.adds_step? hc
  | concluded hs hp hend =>
    rw [hnews hp]
    exact adds_conclude hend engine now game f _ _

end Fiber

namespace Snapshot

variable {engine : Engine γ} {asks : Controls.Wish → Prop} {s t : Snapshot γ}
  {now : Moment} {game : γ} {name : String} {routine : Routine} {inv : Invocation}
  {below : List Invocation} {site : Site} {error : RunError}

def telling (s : Snapshot γ) : Telling γ := s.run.fiber.telling s.game

def softErrors (s : Snapshot γ) : List String := (s.run.report false).softErrors

theorem softErrors_of_adds {texts : List String}
    (h : Telling.Adds engine.client texts s.telling t.telling) :
    t.softErrors = s.softErrors ++ texts := by
  refine (congrArg List.reverse h.softErrors).trans ?_
  rw [List.reverse_append, List.reverse_reverse]
  rfl

theorem adds_move (hs : s.Sound name) (h : Move engine asks s t) :
    Telling.Adds engine.client [] s.telling t.telling ∨
      t.now = s.now ∧ Telling.Adds engine.client s.run.fiber.news s.telling t.telling := by
  cases h with
  | lapse | wish => exact .inl (.refl _)
  | work hstep =>
    obtain ⟨_, ⟨result, _, rfl, rfl⟩ | ⟨f, _, hf, rfl⟩⟩ := Run.step?_native hs.native hstep
    · exact .inl (.refl _)
    · exact .inr ⟨rfl, Fiber.adds_step (Fiber.smallStep_of_step? hf)⟩

/-- From one moment of a run to a later one the report gains what the user is told. -/
theorem adds_moves (hs : s.Sound name) (h : Moves engine asks s t) :
    ∃ texts, Telling.Adds engine.client texts s.telling t.telling ∧ t.Sound name := by
  induction h with
  | refl => exact ⟨[], .refl _, hs⟩
  | tail _ hmove ih =>
    obtain ⟨texts, hadds, hsound⟩ := ih
    rcases adds_move hsound hmove with h | ⟨_, h⟩
    · exact ⟨_, hadds.trans h, sound_move hsound hmove⟩
    · exact ⟨_, hadds.trans h, sound_move hsound hmove⟩

/-- The stack is done for and will stay as it is, whatever is asked of the run. -/
theorem ended_moves {result : Except RunError Bool} (hs : s.Sound name)
    (hp : s.run.fiber.phase = .ended result) (h : Moves engine asks s t) :
    t.Sound name ∧ t.run.fiber.phase = .ended result ∧ t.telling = s.telling := by
  induction h with
  | refl => exact ⟨hs, hp, rfl⟩
  | tail _ hmove ih =>
    obtain ⟨hsound, hphase, htelling⟩ := ih
    refine ⟨sound_move hsound hmove, ?_⟩
    cases hmove with
    | lapse | wish => exact ⟨hphase, htelling⟩
    | work hstep =>
      obtain ⟨_, ⟨_, _, rfl, rfl⟩ | ⟨_, hr, _, _⟩⟩ := Run.step?_native hsound.native hstep
      · exact ⟨hphase, htelling⟩
      · simp [Fiber.result?, hphase] at hr

/-- The run goes on with the step after, at once: the error is told once, and the step counts. -/
structure PassesOver (engine : Engine γ) (inv : Invocation) (below : List Invocation)
    (error : RunError) (s t : Snapshot γ) : Prop where
  now : t.now = s.now
  game : t.game = engine.client.notify s.game s.now error.message
  softErrors : t.softErrors = s.softErrors ++ [error.message]
  steps : t.run.fiber.steps = s.run.fiber.steps + 1
  stack : t.run.fiber.stack = { inv with cursor := inv.cursor + 1 } :: below
  phase : t.run.fiber.phase = .ready
  draws : t.run.fiber.draws = s.run.fiber.draws
  outcome : t.run.outcome = none

/-- The run ends with the error at once, and neither now nor later is the user told more than
`texts`, whatever is asked of it. -/
structure GivesUp (engine : Engine γ) (error : RunError) (texts : List String) (s : Snapshot γ) :
    Prop where
  game : (s.tick engine).game =
    texts.foldl (fun game text => engine.client.notify game s.now text) s.game
  outcome : (s.after engine 2).run.outcome = some ⟨.error error, s.now⟩
  final : ∀ t, Moves engine (fun _ => True) (s.tick engine) t → t.game = (s.tick engine).game ∧
    t.softErrors = s.softErrors ++ texts ∧ ∀ o, t.run.outcome = some o → o.result = .error error

theorem gives_up {texts : List String} (hs : s.Sound name)
    (hphase : (s.tick engine).run.fiber.phase = .ended (.error error))
    (hnow : (s.tick engine).now = s.now) (hnone : (s.tick engine).run.outcome = none)
    (hgame : (s.tick engine).game =
      texts.foldl (fun game text => engine.client.notify game s.now text) s.game)
    (hsoft : (s.tick engine).softErrors = s.softErrors ++ texts) : s.GivesUp engine error texts where
  game := hgame
  outcome := by
    change ((s.tick engine).tick engine).run.outcome = _
    rw [tick_finishes engine hs.tick.native hnone hphase, hnow]
    rfl
  final t ht := by
    obtain ⟨hsound, hp, htelling⟩ := ended_moves hs.tick hphase ht
    refine ⟨congrArg Telling.game htelling, ?_, fun o ho => ?_⟩
    · exact (congrArg (List.reverse ∘ Telling.softErrors) htelling).trans hsoft
    · obtain ⟨result, hp', hresult⟩ := hsound.outcome o ho
      rw [hp] at hp'
      cases hp'
      exact hresult

/-- Where a step fails, the next tick deals with that. -/
theorem tick_failing (engine : Engine γ) (hs : s.Sound name) (hstack : s.run.fiber.stack = inv :: below)
    (hp : s.run.fiber.phase = .busy (.doing (.fail site error))) :
    s.run.outcome = none ∧
      s.tick engine =
        (let r := Fiber.handleFailure engine.client engine.rules.config s.now s.game s.run.fiber inv
          below site error
        ⟨s.now, r.1, { s.run with fiber := r.2 }⟩) ∧
      (s.tick engine).softErrors =
        s.softErrors ++ if error.isSoft then [error.message] else [] := by
  have hnone := hs.running fun result hended => by rw [hp] at hended; cases hended
  have htick : s.tick engine = _ := tick_of_step? hs.native hnone (by simp [Fiber.result?, hp])
    (Fiber.step?_concluded hstack hp rfl)
  refine ⟨hnone, htick, ?_⟩
  have hadds := Fiber.adds_handleFailure engine.client engine.rules.config s.now s.game s.run.fiber
    inv below site error
  rw [htick]
  exact softErrors_of_adds hadds

theorem passes_over (hs : s.Sound name) (hstack : s.run.fiber.stack = inv :: below)
    (hp : s.run.fiber.phase = .busy (.doing (.fail site error))) (hsoft : error.isSoft = true)
    (hpolicy : engine.rules.config.onError site = .continue) :
    PassesOver engine inv below error s (s.tick engine) := by
  obtain ⟨hnone, htick, hsofts⟩ := tick_failing engine hs hstack hp
  rw [if_pos hsoft] at hsofts
  simp only [Fiber.handleFailure, hsoft, hpolicy, if_true] at htick
  rw [htick] at hsofts ⊢
  exact ⟨rfl, rfl, hsofts, Fiber.steps_complete .., rfl, rfl, Fiber.complete_draws .., hnone⟩

theorem gives_up_soft (hs : s.Sound name) (hstack : s.run.fiber.stack = inv :: below)
    (hp : s.run.fiber.phase = .busy (.doing (.fail site error))) (hsoft : error.isSoft = true)
    (hpolicy : engine.rules.config.onError site = .stop) :
    GivesUp engine error [error.message] s := by
  obtain ⟨hnone, htick, hsofts⟩ := tick_failing engine hs hstack hp
  rw [if_pos hsoft] at hsofts
  simp only [Fiber.handleFailure, hsoft, hpolicy, if_true] at htick
  exact gives_up hs (by rw [htick]; rfl) (by rw [htick]) (by rw [htick]; exact hnone)
    (by rw [htick]; rfl) hsofts

theorem gives_up_hard (hs : s.Sound name) (hstack : s.run.fiber.stack = inv :: below)
    (hp : s.run.fiber.phase = .busy (.doing (.fail site error))) (hsoft : error.isSoft = false) :
    GivesUp engine error [] s := by
  obtain ⟨hnone, htick, hsofts⟩ := tick_failing engine hs hstack hp
  simp only [hsoft] at hsofts
  simp only [Fiber.handleFailure, hsoft] at htick
  exact gives_up hs (by rw [htick]; rfl) (by rw [htick]) (by rw [htick]; exact hnone)
    (by rw [htick]; rfl) hsofts

/-- A step that is refused something fails with that next. -/
theorem denied_fails {e : GameError} (hs : s.Sound name)
    (hheeds : s.run.fiber.Underway Invocation.Heeds) (hstack : s.run.fiber.stack = inv :: below)
    (hd : s.run.fiber.Denied engine.client s.now s.game e) :
    ∃ step site, inv.routine.get? inv.cursor = some step ∧
      (s.tick engine).run.fiber.phase = .busy (.doing (.fail site (.refused step.line e))) := by
  cases hd with
  | @issue action next hp he =>
    have hnone := hs.running fun result hended => by rw [hp] at hended; cases hended
    obtain ⟨step, hget, site, hnext⟩ := (hheeds.top inv below _ hstack hp).1 e
    have hmoved : s.run.fiber.step? engine s.now s.game = _ := Fiber.step?_moved hstack hp rfl rfl
    refine ⟨step, site, hget, ?_⟩
    rw [tick_of_step? hs.native hnone (by simp [Fiber.result?, hp]) hmoved]
    simp only [Engine.means, Fiber.scene, he, hnext]
  | @perform order next hp he =>
    have hnone := hs.running fun result hended => by rw [hp] at hended; cases hended
    obtain ⟨step, hget, site, hnext⟩ := (hheeds.top inv below _ hstack hp).1 e
    have hmoved : s.run.fiber.step? engine s.now s.game = _ := Fiber.step?_moved hstack hp rfl rfl
    refine ⟨step, site, hget, ?_⟩
    rw [tick_of_step? hs.native hnone (by simp [Fiber.result?, hp]) hmoved]
    simp only [Engine.means, Fiber.scene, he, hnext]

/-- Nothing soft is dropped and nothing fatal is softened. At every moment the notices that the
game was given are the soft errors of the report; a refusal by the game is an error of the step
that asked; and wherever a step fails, at any depth of the stack, that goes through one switch. -/
theorem errors_told (h : Moves engine (fun _ => True) (start now game name routine) s) :
    (∀ heard, engine.client.Listens heard → heard s.game = heard game ++ s.softErrors) ∧
    notices s.run.fiber.journal = s.softErrors ∧
    (∀ o report, s.run.outcome = some o → o.result = .ok report →
      report.softErrors = s.softErrors) ∧
    ∀ inv below, s.run.fiber.stack = inv :: below →
      (∀ e, s.run.fiber.Denied engine.client s.now s.game e →
        ∃ step site, inv.routine.get? inv.cursor = some step ∧
          (s.tick engine).run.fiber.phase = .busy (.doing (.fail site (.refused step.line e)))) ∧
      ∀ site error, s.run.fiber.phase = .busy (.doing (.fail site error)) →
        match error.isSoft, engine.rules.config.onError site with
        | true, .continue => s.PassesOver engine inv below error (s.tick engine)
        | true, .stop => s.GivesUp engine error [error.message]
        | false, _ => s.GivesUp engine error [] := by
  obtain ⟨hsound, _⟩ := sound_moves h
  obtain ⟨texts, hadds, _⟩ := adds_moves (sound_start now game name routine) h
  have htexts : s.softErrors = texts := softErrors_of_adds hadds
  rw [htexts]
  refine ⟨hadds.heard, hadds.journal, fun o report ho hok => ?_, fun inv below hstack => ⟨?_, ?_⟩⟩
  · obtain ⟨result, _, hresult⟩ := hsound.outcome o ho
    rw [hok] at hresult
    cases result with
    | error => cases hresult
    | ok stopped =>
      cases hresult
      exact htexts
  · have hheeds := underway_moves (lasting_heeds engine) (.routine name routine) h
    exact fun e hd => denied_fails hsound hheeds hstack hd
  · intro site error hp
    split
    · exact passes_over hsound hstack hp ‹_› ‹_›
    · exact gives_up_soft hsound hstack hp ‹_› ‹_›
    · exact gives_up_hard hsound hstack hp ‹_›

end Snapshot

def Phase.failure? : Phase → Option (Site × RunError)
  | .busy (.doing (.fail site error)) => some (site, error)
  | _ => none

theorem Phase.eq_of_failure? {p : Phase} {site : Site} {error : RunError}
    (h : p.failure? = some (site, error)) : p = .busy (.doing (.fail site error)) := by
  unfold failure? at h
  split at h
  · cases h
    rfl
  · cases h

namespace Snapshot

def barren : Engine (Unit × List String) :=
  ⟨⟨.default, .empty⟩, Client.recorded
    { Client.still with perform := fun _ _ _ => (.error (.notFound "it"), ()) }, .lowest⟩

def asking : Routine :=
  ⟨[⟨1, .click "go", "go", {}⟩, ⟨2, .target "npc", "npc", { wait := some (.fixed (.ofNat 1)) }⟩]⟩

/-- The first step fails and is passed over, and the second one ends the run. -/
theorem errors_told_barren :
    let first := (start 0 ((), []) "m" asking).after barren 3
    let second := (start 0 ((), []) "m" asking).after barren 7
    (∃ inv, PassesOver barren inv [] (.refused 1 (.notFound "it")) first (first.tick barren)) ∧
      GivesUp barren (.refused 2 (.notFound "it")) ["line 2: not found: it"] second ∧
      second.game.2 = ["line 1: not found: it"] := by
  intro first second
  have hfirst : first.run.fiber.phase =
      .busy (.doing (.fail .clickFailed (.refused 1 (.notFound "it")))) :=
    Phase.eq_of_failure? (by decide +kernel)
  have hsecond : second.run.fiber.phase =
      .busy (.doing (.fail .targetNotFound (.refused 2 (.notFound "it")))) :=
    Phase.eq_of_failure? (by decide +kernel)
  have hstack : first.run.fiber.stack = [.begin "m" asking Controls.root] := by decide +kernel
  have hstack' : second.run.fiber.stack =
      [{ Invocation.begin "m" asking Controls.root with cursor := 1 }] := by decide +kernel
  have hnotices : second.softErrors = ["line 1: not found: it"] := by decide +kernel
  have hm : Moves barren (fun _ => True) (start 0 ((), []) "m" asking) first := moves_after _ 3
  have hm' : Moves barren (fun _ => True) (start 0 ((), []) "m" asking) second := moves_after _ 7
  clear_value first second
  obtain ⟨_, _, _, hpassed⟩ := errors_told hm
  obtain ⟨hheard, _, _, hgiven⟩ := errors_told hm'
  refine ⟨⟨_, (hpassed _ _ hstack).2 _ _ hfirst⟩, (hgiven _ _ hstack').2 _ _ hsecond, ?_⟩
  exact (hheard Prod.snd (Client.recorded_listens _)).trans hnotices

end Snapshot
end MacroEngine
