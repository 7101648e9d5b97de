import MacroEngine.Proofs.Boundaries
import MacroEngine.Proofs.Exchanges
import Mathlib.Data.List.Chain
import Mathlib.Data.List.Nodup

/-! Each invocation on the stack was entered from the step that the one below it is on, as the
macro that the library has under its name, and no other one on the stack has that name. -/
namespace MacroEngine

theorem Activity.inherited_ends (P : α → Prop) :
    Inherited (fun _ => True) fun _ _ a => a.Ensures (fun _ _ value => P value) [] 0 :=
  fun hnext ha =>
    ensures_value _ (inherited_ensures _ hnext (ensures_value _ ha _ _)) _ _

def Course.Ends (P : α → Prop) (c : Course α) : Prop :=
  c.Lifts True (fun _ _ a => a.Ensures (fun _ _ value => P value) [] 0) [] 0

namespace Course

variable {P : α → Prop} {c c' : Course α}

theorem ends_step? {means : Means γ} {now : Moment} {s s' : Scene γ} (hc : c.Ends P)
    (h : c.step? means now s = some (s', c')) : c'.Ends P :=
  Lifts.step? (Activity.inherited_ends P) trivial (fun _ => trivial) hc h

theorem Ends.value {v : α} (hc : c.Ends P) (h : c.end? = some (.value v)) : P v := by
  unfold end? at h
  split at h
  · cases h
    exact hc
  · cases h
  · cases h
  · cases h

end Course

/-- What a step of the command may enter, and with which wait: the macro that it names, if that is
none of the chain. -/
def Step.Admits (library : Library) (chain : List String) (step : Step) : Flow → Prop
  | .enter name routine wait => step.command = .runMacro name ∧
      wait = step.modifiers.wait.getD .zero ∧ library.native name = .ok routine ∧
      ∀ other ∈ chain, nameKey other ≠ nameKey name
  | _ => True

namespace Execution
open Activity

theorem admits_enter (library : Library) (chain : List String) {step : Step} {eff : Effective}
    {name : String} (hc : step.command = .runMacro name)
    (hw : eff.wait = step.modifiers.wait.getD .zero) :
    (enter library chain eff name).Ensures
      (fun _ _ flow => step.Admits library chain flow) [] 0 := by
  unfold enter
  split
  · trivial
  · rename_i hchain
    split
    · trivial
    · rename_i routine hlib
      refine ⟨hc, hw, hlib, fun other hm hsame => hchain ?_⟩
      exact List.any_eq_true.mpr ⟨other, hm, by simp [sameName, hsame]⟩

theorem admits_step (rules : Rules) (chain : List String) (index : Nat) (frames : List Frame)
    (step : Step) : (Execution.step rules chain index frames step).Ensures
      (fun _ _ flow => step.Admits rules.library chain flow) [] 0 := by
  intro view
  dsimp only
  split
  · trivial
  · rename_i eff hr
    by_cases hc : ∃ name, step.command = .runMacro name
    · obtain ⟨name, hc⟩ := hc
      have henter := admits_enter rules.library chain hc (resolve_wait hr)
      unfold command
      rwa [hc]
    · have hcommand : (command rules chain index frames step eff).Ensures
          (Leads rules chain index frames 0 step) frames 0 :=
        ensures_command rules chain index step eff (resolve_echo hr)
      refine ensures_value _ (ensures_mono ?_ _ hcommand) _ _
      intro _ _ flow hleads
      cases flow with
      | enter name routine wait => exact absurd ⟨name, hleads.enter⟩ hc
      | next | jump | finish => trivial

end Execution

namespace Invocation

def key (inv : Invocation) : String := nameKey inv.name

/-- It is on the step that runs the other one, and keeps the wait of that step. -/
def Calls (library : Library) (parent child : Invocation) : Prop :=
  ∃ step, parent.routine.get? parent.cursor = some step ∧ step.command = .runMacro child.name ∧
    parent.resumeWait = some (step.modifiers.wait.getD .zero) ∧
    library.native child.name = .ok child.routine

end Invocation

/-- A stack, innermost first: each invocation calls the one above it, and no two have the same
name. -/
structure Called (library : Library) (stack : List Invocation) : Prop where
  calls : stack.IsChain fun child parent => parent.Calls library child
  distinct : (stack.map Invocation.key).Nodup

namespace Called

variable {library : Library} {inv inv' : Invocation} {below : List Invocation}

theorem single (library : Library) (inv : Invocation) : Called library [inv] :=
  ⟨.singleton inv, List.nodup_singleton _⟩

theorem tail (h : Called library (inv :: below)) : Called library below :=
  ⟨h.calls.tail, (List.nodup_cons.mp h.distinct).2⟩

/-- Of the innermost invocation only what was called counts. -/
theorem head (h : Called library (inv :: below)) (hname : inv'.name = inv.name)
    (hroutine : inv'.routine = inv.routine) : Called library (inv' :: below) := by
  have hkey : inv'.key = inv.key := by rw [Invocation.key, Invocation.key, hname]
  constructor
  · cases below with
    | nil => exact .singleton inv'
    | cons parent rest =>
      obtain ⟨hcalls, hrest⟩ := List.isChain_cons_cons.mp h.calls
      refine List.isChain_cons_cons.mpr ⟨?_, hrest⟩
      unfold Invocation.Calls
      rw [hname, hroutine]
      exact hcalls
  · rw [List.map_cons, hkey]
    exact h.distinct

end Called

namespace Fiber

variable {engine : Engine γ} {now : Moment} {game : γ} {f f' : Fiber} {inv : Invocation}
  {below : List Invocation} {library : Library} {r : γ × Fiber}

def Admits (library : Library) (f : Fiber) : Prop :=
  ∀ inv below c, f.stack = inv :: below → f.phase = .busy c → c.Ends fun flow =>
    ∀ name routine wait, flow = .enter name routine wait →
      ∃ step, inv.routine.get? inv.cursor = some step ∧ step.Admits library f.chain flow

theorem admits_of_not_busy (h : ∀ c, f.phase ≠ .busy c) : f.Admits library :=
  fun _ _ c _ hp => absurd hp (h c)

theorem admits_of_ready (hp : f.phase = .ready) : f.Admits library :=
  admits_of_not_busy fun c => by simp [hp]

/-- Back in the invocation below, its step only waits. -/
theorem admits_leave (f : Fiber) (inv : Invocation) (below : List Invocation) (stopped : Bool) :
    (f.leave inv below stopped).Admits library := by
  cases below with
  | nil => exact admits_of_not_busy fun c => by simp [leave]
  | cons parent rest =>
    intro inv' below' c _ hp
    cases hp
    intro _ _ _ he
    cases he

theorem admits_conclude (engine : Engine γ) (now : Moment) (game : γ) (f : Fiber)
    (inv : Invocation) (below : List Invocation) (ending : Course.End Flow) :
    (conclude engine now game f inv below ending).2.Admits library := by
  cases ending with
  | value flow =>
    cases flow with
    | next | jump | enter => exact admits_of_ready rfl
    | finish => exact admits_leave _ _ _ _
  | failure site error =>
    exact admits_of_not_busy (handleFailure_phase _ _ _ _ _ _ _ site error)
  | interrupted => exact admits_leave _ _ _ _

theorem admits_smallStep (hf : f.Admits engine.rules.library)
    (h : SmallStep engine now game f r) : r.2.Admits engine.rules.library := by
  cases h with
  | halted => exact admits_leave _ _ _ _
  | @finished inv below =>
    cases hcross : Frames.crossEnd inv.frames with
    | none =>
      rw [finishSteps_none engine.client hcross]
      exact admits_leave _ _ _ _
    | some crossing =>
      rw [finishSteps_some engine.client hcross]
      dsimp only
      split
      · exact admits_of_ready rfl
      · exact admits_leave _ _ _ _
  | @begun inv below step hs _ _ hget =>
    intro inv' below' c hs' hp'
    cases hs.symm.trans hs'
    cases hp'
    refine Activity.ensures_mono ?_ _ (Execution.admits_step _ _ _ _ step)
    intro _ _ flow hadmits _ _ _ _
    exact ⟨step, hget, hadmits⟩
  | @moved inv below c s c' hs hp hc =>
    intro inv' below' c'' hs' hp'
    cases hs'
    cases hp'
    have hchain : (f.withScene inv below s).chain = f.chain := by simp [chain, hs, withScene]
    have hends := Course.ends_step? (hf inv below c hs hp) hc
    rwa [← hchain] at hends
  | concluded => exact admits_conclude _ _ _ _ _ _ _

theorem called_enter {c : Course Flow} {name : String} {routine : Routine} {wait : WaitSpan}
    (hf : f.Admits library) (hcalled : Called library f.stack) (hs : f.stack = inv :: below)
    (hp : f.phase = .busy c) (hend : c.end? = some (.value (.enter name routine wait))) :
    Called library (f.enter inv below name routine wait).stack := by
  obtain ⟨step, hget, hcommand, rfl, hlib, hfresh⟩ :=
    (hf inv below c hs hp).value hend name routine wait rfl
  rw [hs] at hcalled
  have hparent : Called library
      ({ inv with resumeWait := some (step.modifiers.wait.getD .zero) } :: below) :=
    hcalled.head rfl rfl
  constructor
  · exact List.isChain_cons_cons.mpr ⟨⟨step, hget, hcommand, rfl, hlib⟩, hparent.calls⟩
  · -- The chain that the step was checked against is the stack of now: nothing was entered since.
    refine List.nodup_cons.mpr ⟨fun hm => ?_, hparent.distinct⟩
    obtain ⟨lower, hl, hkey⟩ := List.mem_map.mp hm
    refine hfresh lower.name ?_ hkey
    simp only [chain, hs, List.mem_map, List.mem_reverse]
    rcases List.mem_cons.mp hl with rfl | hl
    · exact ⟨inv, List.mem_cons_self, rfl⟩
    · exact ⟨lower, List.mem_cons_of_mem _ hl, rfl⟩

theorem called_shift (hf : f.Admits library) (hcalled : Called library f.stack)
    (h : f.Shift f') : Called library f'.stack := by
  cases h with
  | stays cursor frames hs hs' =>
    rw [hs] at hcalled
    rw [hs']
    exact hcalled.head rfl rfl
  | enters hs hp hend he =>
    rw [he]
    exact called_enter hf hcalled hs hp hend
  | @leaves inv below g stopped hs _ he =>
    rw [hs] at hcalled
    rw [he]
    cases below with
    | nil => exact ⟨.nil, List.nodup_nil⟩
    | cons parent rest => exact hcalled.tail.head rfl rfl
  | aborts _ _ he =>
    rw [he]
    exact ⟨.nil, List.nodup_nil⟩

structure Nested (library : Library) (f : Fiber) : Prop where
  called : Called library f.stack
  admits : f.Admits library

theorem nested_step (hf : f.Nested engine.rules.library) (h : SmallStep engine now game f r) :
    r.2.Nested engine.rules.library :=
  ⟨called_shift hf.admits hf.called (shift_of_step h), admits_smallStep hf.admits h⟩

end Fiber

namespace Snapshot

variable {engine : Engine γ} {asks : Controls.Wish → Prop} {s : Snapshot γ} {now : Moment}
  {game : γ} {run : Run}

theorem nested_fresh (library : Library) (h : run.Fresh) : run.fiber.Nested library := by
  cases h with
  | routine =>
    exact ⟨.single library _, Fiber.admits_of_ready rfl⟩
  | dialogue name dialogue =>
    exact ⟨⟨.nil, List.nodup_nil⟩,
      Fiber.admits_of_not_busy fun c => by simp [Run.ofDialogue, Fiber.idle]⟩

theorem nested_moves (hrun : run.Fresh) (h : Moves engine asks ⟨now, game, run⟩ s) :
    s.run.fiber.Nested engine.rules.library := by
  induction h with
  | refl => exact nested_fresh _ hrun
  | tail hmoves hmove ih =>
    cases hmove with
    | lapse => exact ih
    | wish => exact ⟨ih.called, ih.admits⟩
    | work hstep =>
      have horderly := orderly_moves (Run.orderly_fresh hrun) hmoves
      cases (horderly.work hstep).2 with
      | finishes | talks => exact ⟨ih.called, ih.admits⟩
      | plays hf => exact Fiber.nested_step ih (Fiber.smallStep_of_step? hf)
      | loads =>
        exact ⟨.single _ _, Fiber.admits_of_ready rfl⟩

end Snapshot
end MacroEngine
