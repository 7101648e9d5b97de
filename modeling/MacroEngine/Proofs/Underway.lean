import MacroEngine.Proofs.Dealings
import MacroEngine.Proofs.Exchanges

/-! The step that is under way, from its beginning to its end and over the macro that it may run
in between. A property of its course holds throughout if it holds where a step begins, is kept by
small steps, and allows for the wait that is left when the step is back from another macro. -/
namespace MacroEngine

namespace Activity

variable {V : View → Prop} {P P' : Activity α → Prop}

/-- `P` holds of the activity and of all that can follow, if no views but those of `V` are seen. -/
def Always (V : View → Prop) (P : Activity α → Prop) (a : Activity α) : Prop :=
  P a ∧ match a with
    | .done _ | .fail _ _ => True
    | .look next => ∀ view, V view → (next view).Always V P
    | .issue _ next => ∀ reply, (next reply).Always V P
    | .perform _ next => ∀ reply, (next reply).Always V P
    | .echo _ next => next.Always V P
    | .mark _ next => next.Always V P
    | .pause _ next => next.Always V P
    | .await _ _ next => ∀ met, (next met).Always V P

theorem Always.mono (h : ∀ a, P a → P' a) (a : Activity α) (ha : a.Always V P) :
    a.Always V P' := by
  induction a with
  | done | fail => exact ⟨h _ ha.1, trivial⟩
  | look next ih => exact ⟨h _ ha.1, fun view hview => ih view (ha.2 view hview)⟩
  | issue action next ih | perform order next ih | await holds limit next ih =>
    exact ⟨h _ ha.1, fun x => ih x (ha.2 x)⟩
  | echo text next ih | mark m next ih | pause span next ih => exact ⟨h _ ha.1, ih ha.2⟩

/-- What follows an activity takes over where it is done. -/
theorem Always.bind {P : Activity α → Prop} {P' : Activity β → Prop} {f : α → Activity β}
    (hP : ∀ a : Activity α, (∀ x, a ≠ .done x) → P a → P' (a.bind f)) (a : Activity α)
    (ha : a.Always V P) (hf : ∀ x, (f x).Always V P') : (a.bind f).Always V P' := by
  induction a with
  | done value => exact hf value
  | fail => exact ⟨hP _ (by simp) ha.1, trivial⟩
  | look next ih => exact ⟨hP _ (by simp) ha.1, fun view hview => ih view (ha.2 view hview)⟩
  | issue action next ih | perform order next ih | await holds limit next ih =>
    exact ⟨hP _ (by simp) ha.1, fun x => ih x (ha.2 x)⟩
  | echo text next ih | mark m next ih | pause span next ih =>
    exact ⟨hP _ (by simp) ha.1, ih ha.2⟩

/-- What holds of every activity that gives such orders, makes such marks or ends. -/
theorem Within.always {p : Order → Prop} {q : Mark → Prop} (a : Activity α) (ha : a.Within p q)
    (hP : ∀ a : Activity α, (∀ m next, a = .mark m next → q m) → P a) : a.Always V P := by
  induction a with
  | done | fail => exact ⟨hP _ (by simp), trivial⟩
  | look next ih => exact ⟨hP _ (by simp), fun view _ => ih view (ha view)⟩
  | issue action next ih | await holds limit next ih =>
    exact ⟨hP _ (by simp), fun x => ih x (ha x)⟩
  | perform order next ih => exact ⟨hP _ (by simp), fun reply => ih reply (ha.2 reply)⟩
  | echo text next ih | pause span next ih => exact ⟨hP _ (by simp), ih ha⟩
  | mark m next ih =>
    refine ⟨hP _ fun m' next' he => ?_, ih ha.2⟩
    cases he
    exact ha.1

end Activity

theorem Activity.inherited_always (V : View → Prop) (P : Activity α → Prop) :
    Inherited V fun _ _ a => a.Always V P := by
  intro frames n a frames' n' b hnext ha
  cases hnext with
  | look view hview => exact ha.2 view hview
  | issue | perform | await => exact ha.2 _
  | echo | crossed | frames | boundary | held | pause => exact ha.2

def Course.Always (V : View → Prop) (P : Activity α → Prop) (c : Course α) : Prop :=
  c.Lifts True (fun _ _ a => a.Always V P) [] 0

theorem Course.always_step? {V : View → Prop} {P : Activity α → Prop} {means : Means γ}
    {now : Moment} {s s' : Scene γ} {c c' : Course α} (hV : ∀ game now, V (means.client.view game now))
    (hc : c.Always V P) (h : c.step? means now s = some (s', c')) : c'.Always V P :=
  Lifts.step? (Activity.inherited_always V P) (hV _ _) (fun _ => trivial) hc h

/-- A property of an invocation and the course of its step that holds as long as that lasts. -/
structure Lasting (engine : Engine γ) (P : Invocation → Course Flow → Prop) : Prop where
  begun : ∀ chain inv step, inv.routine.get? inv.cursor = some step →
    P inv (.doing (Execution.step engine.rules chain inv.cursor inv.frames step))
  moved : ∀ {now s s' inv c c'}, s.frames = inv.frames → P inv c →
    c.step? engine.means now s = some (s', c') → P { inv with frames := s'.frames } c'
  resumed : ∀ {inv c name routine wait}, P inv c →
    c.end? = some (.value (.enter name routine wait)) →
    ∀ span, P { inv with resumeWait := none } (.doing (.pause span (.done .next)))

namespace Fiber

variable {engine : Engine γ} {now : Moment} {game : γ} {f : Fiber} {r : γ × Fiber}
  {inv : Invocation} {below : List Invocation} {P : Invocation → Course Flow → Prop}

/-- The property holds of the step under way, and will hold of those that other macros run in. -/
structure Underway (P : Invocation → Course Flow → Prop) (f : Fiber) : Prop where
  top : ∀ inv below c, f.stack = inv :: below → f.phase = .busy c → P inv c
  callers : ∀ inv ∈ f.stack.tail, ∀ span,
    P { inv with resumeWait := none } (.doing (.pause span (.done .next)))

theorem underway_ready (hp : f.phase = .ready) (hcallers : ∀ inv ∈ f.stack.tail, ∀ span,
    P { inv with resumeWait := none } (.doing (.pause span (.done .next)))) : f.Underway P :=
  ⟨fun _ _ c _ hbusy => (by rw [hp] at hbusy; cases hbusy), hcallers⟩

theorem underway_abort (f : Fiber) (error : RunError) : (f.abort error).Underway P :=
  ⟨fun _ _ _ hs => (nomatch hs), fun _ hm => (nomatch hm)⟩

theorem underway_leave (hcallers : ∀ inv ∈ below, ∀ span,
    P { inv with resumeWait := none } (.doing (.pause span (.done .next))))
    (f : Fiber) (inv : Invocation) (stopped : Bool) : (f.leave inv below stopped).Underway P := by
  cases below with
  | nil => exact ⟨fun _ _ _ hs => (nomatch hs), fun _ hm => (nomatch hm)⟩
  | cons parent rest =>
    refine ⟨fun inv' below' c hs hp => ?_, fun inv' hm => hcallers inv' (.tail _ hm)⟩
    cases hs
    cases hp
    exact hcallers parent (.head _) _

theorem underway_step (hP : Lasting engine P) (hf : f.Underway P)
    (h : SmallStep engine now game f r) : r.2.Underway P := by
  have hcallers : ∀ {inv below}, f.stack = inv :: below → ∀ inv ∈ below, ∀ span,
      P { inv with resumeWait := none } (.doing (.pause span (.done .next))) := by
    intro inv below hs inv' hm
    exact hf.callers inv' (by rw [hs]; exact hm)
  cases h with
  | halted hs => exact underway_leave (hcallers hs) _ _ _
  | finished hs =>
    exact finishSteps_cases engine.client (fun _ => underway_leave (hcallers hs) _ _ _)
      fun crossing _ =>
        ⟨fun _ => underway_ready rfl (hcallers hs), fun _ => underway_leave (hcallers hs) _ _ _⟩
  | @begun inv below step hs hp _ hget =>
    refine ⟨fun inv' below' c hs' hp' => ?_, hf.callers⟩
    have hs' : f.stack = inv' :: below' := hs'
    rw [hs] at hs'
    cases hs'
    cases hp'
    exact hP.begun f.chain inv step hget
  | @moved inv below c _ _ hs hp hc =>
    refine ⟨fun inv' below' c' hs' hp' => ?_, hcallers hs⟩
    cases hs'
    cases hp'
    exact hP.moved rfl (hf.top inv below c hs hp) hc
  | @concluded inv below c ending hs hp hend =>
    match ending with
    | .value .next | .value (.jump _) => exact underway_ready rfl (hcallers hs)
    | .value (.enter name routine wait) =>
      refine underway_ready rfl fun inv' hm => ?_
      have hresumed := hP.resumed (hf.top inv below c hs hp) hend
      rcases List.mem_cons.mp hm with rfl | hm
      · exact hresumed
      · exact hcallers hs inv' hm
    | .value .finish | .interrupted => exact underway_leave (hcallers hs) _ _ _
    | .failure site error =>
      exact handleFailure_cases engine.client engine.rules.config
        (fun _ => ⟨underway_ready rfl (hcallers hs), underway_abort _ error⟩)
        (underway_abort f error)

end Fiber

namespace Snapshot

variable {engine : Engine γ} {asks : Controls.Wish → Prop} {s t : Snapshot γ}
  {P : Invocation → Course Flow → Prop}

theorem underway_fresh {r : Run} (h : r.Fresh) : r.fiber.Underway P := by
  cases h with
  | routine => exact Fiber.underway_ready rfl fun _ hm => nomatch hm
  | dialogue => exact ⟨fun _ _ _ hs => (nomatch hs), fun _ hm => (nomatch hm)⟩

theorem underway_move (hP : Lasting engine P) (hs : s.run.Orderly) (hu : s.run.fiber.Underway P)
    (h : Move engine asks s t) : t.run.fiber.Underway P := by
  cases h with
  | lapse | wish => exact ⟨hu.top, hu.callers⟩
  | work hstep =>
    obtain ⟨_, hwork⟩ := hs.work hstep
    cases hwork with
    | finishes | talks => exact ⟨hu.top, hu.callers⟩
    | plays hf => exact Fiber.underway_step hP hu (Fiber.smallStep_of_step? hf)
    | loads => exact Fiber.underway_ready rfl fun _ hm => nomatch hm

theorem underway_moves (hP : Lasting engine P) (hfresh : s.run.Fresh)
    (h : Moves engine asks s t) : t.run.fiber.Underway P := by
  induction h with
  | refl => exact underway_fresh hfresh
  | tail hmoves hmove ih =>
    exact underway_move hP (orderly_moves (Run.orderly_fresh hfresh) hmoves) ih hmove

end Snapshot
end MacroEngine
