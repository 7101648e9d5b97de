import MacroEngine.Proofs.Notices
import MacroEngine.Proofs.Stages
import MacroEngine.Proofs.Steps

/-! Two runs in games of their own that do the same but for the lines that errors name: what each
operation of the one does to its game and its records, the same operation of the other does. -/
namespace MacroEngine

def timedCommands (journal : List (Moment × Event)) : List (Moment × Event) :=
  journal.filter fun entry => entry.2.isCommand

def EntryAsYielded (entry entry' : Moment × Event) : Prop :=
  entry'.1 = entry.1 ∧ (entry'.2 = entry.2 ∨ ∃ text text', entry.2 = .notified text ∧
    entry'.2 = .notified text' ∧ NoticeAsYielded text text')

def JournalAsYielded (journal journal' : List (Moment × Event)) : Prop :=
  List.Forall₂ EntryAsYielded (timedCommands journal) (timedCommands journal')

namespace JournalAsYielded

variable {journal journal' : List (Moment × Event)}

theorem same (h : JournalAsYielded journal journal') (now : Moment) (event : Event) :
    JournalAsYielded ((now, event) :: journal) ((now, event) :: journal') := by
  unfold JournalAsYielded timedCommands
  rw [List.filter_cons, List.filter_cons]
  split
  · exact .cons ⟨rfl, .inl rfl⟩ h
  · exact h

theorem notified (h : JournalAsYielded journal journal') (now : Moment) {text text' : String}
    (ht : NoticeAsYielded text text') :
    JournalAsYielded ((now, .notified text) :: journal) ((now, .notified text') :: journal') :=
  .cons ⟨rfl, .inr ⟨text, text', rfl, rfl, ht⟩⟩ h

theorem skip_right (h : JournalAsYielded journal journal') (now : Moment) {event : Event}
    (he : event.isCommand = false) : JournalAsYielded journal ((now, event) :: journal') := by
  simpa [JournalAsYielded, timedCommands, he] using h

end JournalAsYielded

namespace Scene

variable {client : Client γ} {blind : client.Blind} {s s' : Scene γ}

structure Alike (blind : client.Blind) (s s' : Scene γ) : Prop where
  game : blind.Same s.game s'.game
  control : s'.control = s.control
  frames : s'.frames = s.frames
  draws : s'.draws = s.draws
  crossings : s'.crossings = s.crossings
  softErrors : List.Forall₂ NoticeAsYielded s.softErrors s'.softErrors
  journal : JournalAsYielded s.journal s'.journal

namespace Alike

theorem dealt (h : s.Alike blind s') {game game' : γ} (hg : blind.Same game game') (now : Moment)
    (event : Event) :
    (({ s with game := game }).log now event).Alike blind
      (({ s' with game := game' }).log now event) :=
  ⟨hg, h.control, h.frames, h.draws, h.crossings, h.softErrors, h.journal.same now event⟩

theorem notify (h : s.Alike blind s') (now : Moment) {text text' : String}
    (ht : NoticeAsYielded text text') :
    (s.notify client now text).Alike blind (s'.notify client now text') :=
  ⟨blind.notify now h.game ht, h.control, h.frames, h.draws, h.crossings, .cons ht h.softErrors,
    h.journal.notified now ht⟩

theorem mark (h : s.Alike blind s') (now : Moment) (m : Mark) :
    (s.mark client now m).Alike blind (s'.mark client now m) := by
  cases m with
  | crossed => exact ⟨h.game, h.control, h.frames, h.draws, congrArg (· + 1) h.crossings,
      h.softErrors, h.journal⟩
  | frames frames => exact ⟨h.game, h.control, rfl, h.draws, h.crossings, h.softErrors, h.journal⟩
  | boundary => exact ⟨h.game, congrArg (·.apply .loopBoundary) h.control, h.frames, h.draws,
      h.crossings, h.softErrors, h.journal⟩
  | held reason =>
    have hnotice : NoticeAsYielded (reason ++ "; macro paused") (reason ++ "; macro paused") :=
      .inl rfl
    have hn := h.notify now hnotice
    exact ⟨hn.game, congrArg (·.apply .pause) hn.control, hn.frames, hn.draws, hn.crossings,
      hn.softErrors, hn.journal⟩

theorem cross (h : s.Alike blind s') (now : Moment) (crossing : Crossing) :
    (s.cross client now crossing).Alike blind (s'.cross client now crossing) := by
  have hmarked := (h.mark now .crossed).mark now (.frames crossing.frames)
  unfold Scene.cross
  cases crossing.news with
  | none => exact hmarked.mark now .boundary
  | some text => exact (hmarked.dealt (blind.echo now text hmarked.game) now _).mark now .boundary

end Alike
end Scene

namespace Course

variable {client : Client γ} {blind : client.Blind} {poll : Duration} {draw : WaitSpan.Draw}
  {now : Moment} {s s' : Scene γ} {q : Mark → Prop} {r : α → Prop} {c c' : Course α}

inductive Like (q : Mark → Prop) (r : α → Prop) : Course α → Course α → Prop where
  | doing {a a'} : a.Like q r a' → Like q r (.doing a) (.doing a')
  | waiting {wait holds next next'} : (∀ met, (next met).Like q r (next' met)) →
      Like q r (.waiting wait holds next) (.waiting wait holds next')
  | interrupted : Like q r .interrupted .interrupted

/-- Like courses take like steps, and frames change by marks only. -/
theorem like_step? (hs : s.Alike blind s') (hc : c.Like q r c') :
    Option.Rel (fun p p' => p.1.Alike blind p'.1 ∧ p.2.Like q r p'.2 ∧
        ((∀ frames, ¬ q (.frames frames)) → p.1.frames = s.frames))
      (c.step? ⟨client, poll, draw⟩ now s) (c'.step? ⟨client, poll, draw⟩ now s') := by
  cases hc with
  | interrupted => exact .none
  | @waiting wait holds next next' hnext =>
    simp only [step?, hs.control, blind.view now hs.game]
    cases wait.readiness s.control.state now with
    | asleep | held => exact .none
    | interrupted => exact .some ⟨hs, .interrupted, fun _ => rfl⟩
    | due =>
      dsimp only
      cases wait.verdict poll now (holds (client.view s.game now)) with
      | met => exact .some ⟨hs, .doing (hnext true), fun _ => rfl⟩
      | late => exact .some ⟨hs, .doing (hnext false), fun _ => rfl⟩
      | again wait => exact .some ⟨hs, .waiting hnext, fun _ => rfl⟩
  | doing ha =>
    cases ha with
    | done | fail => exact .none
    | look hnext =>
      simp only [step?, proceed?, blind.view now hs.game]
      exact .some ⟨hs, .doing (hnext _), fun _ => rfl⟩
    | @issue action next next' hnext =>
      obtain ⟨hreply, hgame⟩ := blind.issue now action hs.game
      simp only [step?, proceed?, hreply]
      exact .some ⟨hs.dealt hgame now _, .doing (hnext _), fun _ => rfl⟩
    | @perform order next next' hnext =>
      obtain ⟨hreply, hgame⟩ := blind.perform now order hs.game
      simp only [step?, proceed?, hreply]
      exact .some ⟨hs.dealt hgame now _, .doing (hnext _), fun _ => rfl⟩
    | @echo text next next' hnext =>
      exact .some ⟨hs.dealt (blind.echo now text hs.game) now _, .doing hnext, fun _ => rfl⟩
    | @mark m next next' hq hnext =>
      refine .some ⟨hs.mark now m, .doing hnext, fun hframes => ?_⟩
      cases m with
      | frames frames => exact absurd hq (hframes frames)
      | crossed | boundary | held => rfl
    | @pause span next next' hnext =>
      simp only [step?, proceed?, hs.draws]
      split
      · exact .some ⟨hs, .doing hnext, fun _ => rfl⟩
      · exact .some ⟨⟨hs.game, hs.control, hs.frames, rfl, hs.crossings, hs.softErrors,
          hs.journal⟩, .waiting fun _ => hnext, fun _ => rfl⟩
    | await hnext => exact .some ⟨hs, .waiting hnext, fun _ => rfl⟩

inductive End.Like (r : α → Prop) : End α → End α → Prop where
  | value {value} : r value → Like r (.value value) (.value value)
  | failure {site error error'} : error ≠ .stopped → error.AsYielded error' →
      Like r (.failure site error) (.failure site error')
  | interrupted : Like r .interrupted .interrupted

theorem like_end? (hc : c.Like q r c') : Option.Rel (End.Like r) c.end? c'.end? := by
  cases hc with
  | interrupted => exact .some .interrupted
  | waiting => exact .none
  | doing ha =>
    cases ha with
    | done hr => exact .some (.value hr)
    | fail hne he => exact .some (.failure hne he)
    | _ => exact .none

theorem like_wake? (hc : c.Like q r c') (now : Moment) : c'.wake? now = c.wake? now := by
  cases hc <;> rfl

end Course

namespace Fiber

variable {client : Client γ} {blind : client.Blind} {now : Moment} {game game' : γ}
  {f f' : Fiber} {inv inv' : Invocation} {below below' : List Invocation}

theorem complete_eq (f : Fiber) (now : Moment) (inv : Invocation) : ∃ journal,
    f.complete now inv = { f with steps := f.steps + 1, journal := journal } ∧
      timedCommands journal = timedCommands f.journal := by
  unfold complete
  split
  · exact ⟨_, rfl, List.filter_cons_of_neg (by simp [Event.isCommand])⟩
  · exact ⟨_, rfl, rfl⟩

structure Alike (blind : client.Blind) (game : γ) (f : Fiber) (game' : γ) (f' : Fiber) :
    Prop where
  game : blind.Same game game'
  controls : f'.controls = f.controls
  draws : f'.draws = f.draws
  steps : f'.steps = f.steps
  crossings : f'.crossings = f.crossings
  softErrors : List.Forall₂ NoticeAsYielded f.softErrors f'.softErrors
  journal : JournalAsYielded f.journal f'.journal

namespace Alike

theorem place (h : Alike blind game f game' f') (stack stack' : List Invocation)
    (phase phase' : Phase) :
    Alike blind game { f with stack := stack, phase := phase }
      game' { f' with stack := stack', phase := phase' } :=
  ⟨h.game, h.controls, h.draws, h.steps, h.crossings, h.softErrors, h.journal⟩

theorem scene (h : Alike blind game f game' f') (hc : inv'.control = inv.control)
    (hf : inv'.frames = inv.frames) : (f.scene inv game).Alike blind (f'.scene inv' game') := by
  refine ⟨h.game, ?_, hf, h.draws, h.crossings, h.softErrors, h.journal⟩
  simp only [Fiber.scene, h.controls, hc]

theorem withScene (h : Alike blind game f game' f') (hc : inv'.control = inv.control)
    (below below' : List Invocation) {s s' : Scene γ} (hs : s.Alike blind s') :
    Alike blind s.game (f.withScene inv below s) s'.game (f'.withScene inv' below' s') := by
  refine ⟨hs.game, ?_, hs.draws, h.steps, hs.crossings, hs.softErrors, hs.journal⟩
  simp only [Fiber.withScene, h.controls, hc, hs.control]

theorem complete (h : Alike blind game f game' f') (now : Moment) (inv inv' : Invocation) :
    Alike blind game (f.complete now inv) game' (f'.complete now inv') := by
  obtain ⟨journal, heq, hj⟩ := complete_eq f now inv
  obtain ⟨journal', heq', hj'⟩ := complete_eq f' now inv'
  rw [heq, heq']
  refine ⟨h.game, h.controls, h.draws, congrArg (· + 1) h.steps, h.crossings, h.softErrors, ?_⟩
  unfold JournalAsYielded
  rw [hj, hj']
  exact h.journal

theorem advance (h : Alike blind game f game' f') (hc : inv'.control = inv.control)
    (target target' : Nat) :
    Alike blind game (f.advance now inv below target)
      game' (f'.advance now inv' below' target') := by
  have hdone := h.complete now inv inv'
  refine ⟨hdone.game, ?_, hdone.draws, hdone.steps, hdone.crossings, hdone.softErrors,
    hdone.journal⟩
  simp only [Fiber.advance, h.controls, hc]

theorem leave (h : Alike blind game f game' f') (hc : inv'.control = inv.control)
    (hb : below'.isEmpty = below.isEmpty) (stopped : Bool) :
    Alike blind game (f.leave inv below stopped) game' (f'.leave inv' below' stopped) := by
  unfold Fiber.leave
  cases below <;> cases below' <;> try cases hb
  · exact h.place _ _ _ _
  · refine ⟨h.game, ?_, h.draws, h.steps, h.crossings, h.softErrors, h.journal⟩
    simp only [h.controls, hc]

theorem abort (h : Alike blind game f game' f') (hs : f'.handles = f.handles)
    (error error' : RunError) :
    Alike blind game (f.abort error) game' (f'.abort error') := by
  have hretire : ∀ f : Fiber, (f.abort error).controls =
      f.handles.dropLast.foldl Controls.retire f.controls := by
    intro f
    rw [handles, ← List.map_dropLast, List.foldl_map]
    rfl
  refine ⟨h.game, ?_, h.draws, h.steps, h.crossings, h.softErrors, h.journal⟩
  exact (hretire f').trans (by rw [h.controls, hs, hretire f])

theorem enter (h : Alike blind game f game' f') (name : String) (routine : Routine)
    (wait : WaitSpan) :
    Alike blind game (f.enter inv below name routine wait)
      game' (f'.enter inv' below' name routine wait) := by
  refine ⟨h.game, ?_, h.draws, h.steps, h.crossings, h.softErrors, h.journal⟩
  simp only [Fiber.enter, h.controls]

end Alike
end Fiber
end MacroEngine
