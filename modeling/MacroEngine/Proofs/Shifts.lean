import MacroEngine.Proofs.Publishing

/-! What a small step does to the stack and to the lifecycles: it stays in the innermost
invocation, enters another one above it, leaves it, or ends them all. No lifecycle but that of the
innermost invocation is changed while the stack stands, and the one at the bottom of the stack has
the first handle, which is there also when the stack is not. -/
namespace MacroEngine

def Lifecycle.Awake (l : Lifecycle) : Prop := l.state ≠ .idle

instance (l : Lifecycle) : Decidable l.Awake := inferInstanceAs (Decidable (_ ≠ _))

theorem Lifecycle.Awake.apply {l : Lifecycle} (h : l.Awake) (r : Request) : (l.apply r).Awake := by
  obtain ⟨state, single⟩ := l
  cases state with
  | idle => exact absurd rfl h
  | _ => cases r <;> simp [Awake, Lifecycle.apply, next?, RunState.next?]

theorem Lifecycle.kept_awake : Kept Awake where
  started := by decide
  boundary l h := h.apply _
  afterStep l h := by
    unfold Lifecycle.afterStep
    split
    · simp [Awake]
    · exact h

namespace Controls

variable {Q : Lifecycle → Prop} {c : Controls} {hs hs' : List Handle}

theorem Governs.sublist (hc : Governs Q hs c) (hsub : hs'.Sublist hs) : Governs Q hs' c := by
  constructor
  · exact hc.descending.sublist hsub
  · intro h hm
    exact hc.given h (hsub.subset hm)
  · intro h hm
    exact hc.live h (hsub.subset hm)
  · intro h hm
    exact hc.holds h (hsub.subset hm)

/-- Those that are innermost are retired one after the other. -/
theorem Governs.retireEach (ps : List Published) :
    ∀ {c : Controls}, Governs Q (ps.map Published.handle ++ hs) c →
      Governs Q hs (ps.foldl (fun c p => c.retire p.handle) c) := by
  induction ps with
  | nil => exact fun hc => hc
  | cons p ps ih =>
    intro c hc
    exact ih hc.retire

end Controls

namespace Fiber

/-- Of the lifecycles only that of the invocation has changed. -/
structure Retuned (inv : Invocation) (f g : Fiber) : Prop where
  publications : g.stack.map Invocation.publication = f.stack.map Invocation.publication
  tuned : Controls.Tuned (· = inv.control) f.controls g.controls
  governed : f.Governed Lifecycle.Awake → g.Governed Lifecycle.Awake

inductive Shift (f f' : Fiber) : Prop where
  | stays {inv below} (cursor : Nat) (frames : List Frame) : f.stack = inv :: below →
      f'.stack = { inv with cursor := cursor, frames := frames } :: below →
      (∀ result, f'.phase ≠ .ended result) → f.Retuned inv f' → Shift f f'
  | enters {inv below course name routine wait} : f.stack = inv :: below →
      f.phase = .busy course → course.end? = some (.value (.enter name routine wait)) →
      f' = f.enter inv below name routine wait → Shift f f'
  | leaves {inv below g stopped} : f.stack = inv :: below → f.Retuned inv g →
      f' = g.leave inv below stopped → Shift f f'
  | aborts {inv below g error} : f.stack = inv :: below → f.Retuned inv g →
      f' = g.abort error → Shift f f'

variable {engine : Engine γ} {now : Moment} {game : γ} {f f' : Fiber} {inv : Invocation}
  {below : List Invocation} {name : String}

theorem SmallStep.stacked {r : γ × Fiber} (h : SmallStep engine now game f r) : f.stack ≠ [] := by
  cases h with
  | halted hs | finished hs | begun hs | moved hs | concluded hs => simp [hs]

theorem Retuned.refl (inv : Invocation) (f : Fiber) : f.Retuned inv f :=
  ⟨rfl, .refl _, fun hg => hg⟩

theorem retuned_complete (f : Fiber) (now : Moment) (inv : Invocation) :
    f.Retuned inv (f.complete now inv) := by
  constructor
  · rw [complete_stack]
  · rw [complete_controls]
    exact .refl _
  · intro hg
    simpa only [Governed, handles, complete_stack, complete_controls] using hg

theorem retuned_withScene {s : Scene γ} (hs : f.stack = inv :: below)
    (hq : (f.controls.lifecycle inv.control).Awake → s.control.Awake) :
    f.Retuned inv (f.withScene inv below s) := by
  constructor
  · simp [withScene, hs, Invocation.publication]
  · exact Controls.tuned_set (P := (· = inv.control)) rfl _
  · intro hg
    exact governed_withScene hg hs (hq (governed_head hg hs))

theorem retuned_advance (hs : f.stack = inv :: below) (now : Moment) (target : Nat) :
    f.Retuned inv (f.advance now inv below target) := by
  constructor
  · simp [advance, hs, Invocation.publication]
  · exact Controls.tuned_set (P := (· = inv.control)) rfl _
  · intro hg
    exact governed_advance Lifecycle.kept_awake.afterStep hg (by simp [handles, hs]) now target

theorem Retuned.trans {g : Fiber} (h : f.Retuned inv g) (h' : g.Retuned inv f') :
    f.Retuned inv f' :=
  ⟨h'.publications.trans h.publications, h.tuned.trans h'.tuned,
    fun hg => h'.governed (h.governed hg)⟩

theorem shift_finishSteps (hs : f.stack = inv :: below) (client : Client γ) (now : Moment)
    (game : γ) : f.Shift (finishSteps client now game f inv below).2 := by
  cases hcross : Frames.crossEnd inv.frames with
  | none =>
    rw [finishSteps_none client hcross]
    exact .leaves hs (.refl inv f) rfl
  | some crossing =>
    rw [finishSteps_some client hcross]
    have hg : f.Retuned inv
        (f.withScene inv below ((f.scene inv game).cross client now crossing)) := by
      apply retuned_withScene hs
      intro hq
      rw [cross_control]
      exact hq.apply _
    dsimp only
    split
    · exact .stays 0 crossing.frames hs rfl (fun _ hp => nomatch hp)
        ⟨hg.publications, hg.tuned, hg.governed⟩
    · exact .leaves hs hg rfl

theorem shift_handleFailure (hs : f.stack = inv :: below) (client : Client γ) (config : Config)
    (now : Moment) (game : γ) (site : Site) (error : RunError) :
    f.Shift (handleFailure client config now game f inv below site error).2 := by
  unfold handleFailure
  split
  · have hg : f.Retuned inv
        (f.withScene inv below ((f.scene inv game).notify client now error.message)) :=
      retuned_withScene hs fun hq => hq
    dsimp only
    split
    · exact .aborts hs hg rfl
    · exact .stays (inv.cursor + 1) inv.frames hs rfl (fun _ hp => nomatch hp)
        (hg.trans (retuned_advance rfl now (inv.cursor + 1)))
  · exact .aborts hs (.refl inv f) rfl

theorem shift_conclude {course : Course Flow} {ending : Course.End Flow}
    (hs : f.stack = inv :: below) (hp : f.phase = .busy course) (hend : course.end? = some ending)
    (engine : Engine γ) (now : Moment) (game : γ) :
    f.Shift (conclude engine now game f inv below ending).2 := by
  match ending with
  | .value .next =>
    exact .stays (inv.cursor + 1) inv.frames hs rfl (fun _ hp => nomatch hp)
      (retuned_advance hs now _)
  | .value (.jump target) =>
    exact .stays target inv.frames hs rfl (fun _ hp => nomatch hp) (retuned_advance hs now _)
  | .value .finish => exact .leaves hs (retuned_complete f now inv) rfl
  | .value (.enter name routine wait) => exact .enters hs hp hend rfl
  | .failure site error => exact shift_handleFailure hs _ _ _ _ site error
  | .interrupted => exact .leaves hs (.refl inv f) rfl

theorem shift_of_step {r : γ × Fiber} (h : SmallStep engine now game f r) : f.Shift r.2 := by
  cases h with
  | @halted inv below hs => exact .leaves hs (.refl inv f) rfl
  | finished hs => exact shift_finishSteps hs _ _ _
  | @begun inv below step hs =>
    exact .stays inv.cursor inv.frames hs hs (fun _ hp => nomatch hp)
      ⟨rfl, .refl _, fun hg => hg⟩
  | @moved inv below course s course' hs hp hc =>
    have hg : f.Retuned inv (f.withScene inv below s) :=
      retuned_withScene hs fun hq =>
        Course.control_step? Lifecycle.kept_awake (.inl fun _ hl => hl.apply _) hq hc
    exact .stays inv.cursor s.frames hs rfl (fun _ hp => nomatch hp)
      ⟨hg.publications, hg.tuned, hg.governed⟩
  | concluded hs hp hend => exact shift_conclude hs hp hend _ _ _

/-- What is to be published for a run of some name, innermost first: the stack, of which the
outermost invocation stays when it is over. -/
def listing (name : String) (f : Fiber) : List Published :=
  (f.stack.map Invocation.publication).dropLast ++ [⟨name, Controls.root⟩]

/-- The handles that are listed are live, and the outermost invocation is that of the run. -/
structure Grounded (name : String) (f : Fiber) : Prop where
  governs : Controls.Governs Lifecycle.Awake ((f.listing name).map Published.handle) f.controls
  bottom : f.stack ≠ [] → f.stack.map Invocation.publication = f.listing name
  emptied : (∃ result, f.phase = .ended result) ↔ f.stack = []

inductive Relisted (name : String) (f f' : Fiber) : Prop where
  | pushes {child : String} :
      f'.listing name = ⟨child, f.controls.nextHandle⟩ :: f.listing name →
      f'.controls = f.controls.enter child → Relisted name f f'
  | pops {inv g} (popped : List Published) : f.Retuned inv g → inv.control ∈ f.handles →
      f.listing name = popped ++ f'.listing name →
      f'.controls = popped.foldl (fun c p => c.retire p.handle) g.controls → Relisted name f f'

theorem Shift.emptied (h : f.Shift f') :
    (∃ result, f'.phase = .ended result) ↔ f'.stack = [] := by
  cases h with
  | stays _ _ _ hs' hp =>
    rw [hs']
    exact iff_of_false (fun ⟨result, he⟩ => hp result he) (List.cons_ne_nil _ _)
  | enters _ _ _ he =>
    subst he
    exact iff_of_false (fun ⟨_, he⟩ => nomatch he) (List.cons_ne_nil _ _)
  | @leaves _ below _ _ _ _ he =>
    subst he
    cases below with
    | nil => exact iff_of_true ⟨_, rfl⟩ rfl
    | cons => exact iff_of_false (fun ⟨_, he⟩ => nomatch he) (List.cons_ne_nil _ _)
  | aborts _ _ he =>
    subst he
    exact iff_of_true ⟨_, rfl⟩ rfl

/-- Invocations are listed and taken off the list on the inner side only. -/
theorem Shift.relisted (hf : f.Grounded name) (h : f.Shift f') :
    f.Relisted name f' ∧
      (f'.stack ≠ [] → f'.stack.map Invocation.publication = f'.listing name) := by
  cases h with
  | @stays inv below cursor frames hs hs' _ hg =>
    have hsame : f'.listing name = f.listing name := by rw [listing, listing, hg.publications]
    have hbottom := hf.bottom (by simp [hs])
    refine ⟨.pops [] hg (by simp [handles, hs]) hsame.symm rfl, fun _ => ?_⟩
    rw [hg.publications, hsame, hbottom]
  | @enters inv below _ child _ _ hs _ _ he =>
    have hbottom := hf.bottom (by simp [hs])
    have hpubs : f'.stack.map Invocation.publication =
        ⟨child, f.controls.nextHandle⟩ :: f.stack.map Invocation.publication := by
      subst he
      simp [enter, hs, Invocation.begin, Invocation.publication]
    have hlisting : f'.listing name =
        ⟨child, f.controls.nextHandle⟩ :: f.listing name := by
      rw [listing, hpubs, listing, hs]
      rfl
    refine ⟨.pushes hlisting (by rw [he]; rfl), fun _ => ?_⟩
    rw [hpubs, hlisting, hbottom]
  | @leaves inv below g stopped hs hg he =>
    have hbottom := hf.bottom (by simp [hs])
    have hmem : inv.control ∈ f.handles := by simp [handles, hs]
    subst he
    cases below with
    | nil =>
      refine ⟨.pops [] hg hmem ?_ rfl, fun hne => absurd rfl hne⟩
      simp [listing, hs, leave]
    | cons parent rest =>
      have hlisting : f.listing name =
          inv.publication :: (g.leave inv (parent :: rest) stopped).listing name := by
        simp [listing, hs, leave, Invocation.publication]
      refine ⟨.pops [inv.publication] hg hmem hlisting rfl, fun _ => ?_⟩
      rw [hlisting, hs] at hbottom
      exact (List.cons.inj hbottom).2
  | @aborts inv below g error hs hg he =>
    -- All are retired but the outermost, as that is listed to the end of the run.
    subst he
    refine ⟨.pops (f.stack.map Invocation.publication).dropLast hg (by simp [handles, hs]) ?_ ?_,
      fun hne => absurd rfl hne⟩
    · simp [listing, abort]
    · rw [← hg.publications, ← List.map_dropLast, List.foldl_map]
      rfl

theorem handles_eq (f : Fiber) :
    f.handles = (f.stack.map Invocation.publication).map Published.handle := by
  rw [List.map_map]
  rfl

namespace Grounded

theorem handles (hf : f.Grounded name) (hne : f.stack ≠ []) :
    f.handles = (f.listing name).map Published.handle := by
  rw [handles_eq, hf.bottom hne]

theorem governed (hf : f.Grounded name) : f.Governed Lifecycle.Awake := by
  by_cases hs : f.stack = []
  · unfold Governed Fiber.handles
    rw [hs]
    exact .empty _
  · unfold Governed
    rw [hf.handles hs]
    exact hf.governs

theorem popped {g : Fiber} {popped rest : List Published} (hf : f.Grounded name)
    (hne : f.stack ≠ []) (hg : f.Retuned inv g) (hl : f.listing name = popped ++ rest) :
    Controls.Governs Lifecycle.Awake ((popped ++ rest).map Published.handle) g.controls := by
  have hgoverned := hg.governed hf.governed
  unfold Governed at hgoverned
  rwa [handles_eq, hg.publications, hf.bottom hne, hl] at hgoverned

theorem shift (hf : f.Grounded name) (hne : f.stack ≠ []) (h : f.Shift f') :
    f'.Grounded name := by
  obtain ⟨hrelisted, hbottom⟩ := h.relisted hf
  refine ⟨?_, hbottom, h.emptied⟩
  cases hrelisted with
  | pushes hl hc =>
    rw [hl, hc]
    exact hf.governs.enter Lifecycle.kept_awake.started _
  | pops popped hg _ hl hc =>
    have hpopped := hf.popped hne hg hl
    rw [List.map_append] at hpopped
    rw [hc]
    exact hpopped.retireEach popped

theorem step {r : γ × Fiber} (hf : f.Grounded name) (h : SmallStep engine now game f r) :
    r.2.Grounded name :=
  hf.shift h.stacked (shift_of_step h)

theorem grant (hf : f.Grounded name) (w : Controls.Wish) :
    ({ f with controls := (f.controls.grant w).2 }).Grounded name :=
  ⟨hf.governs.grant fun _ hl => hl.apply _, hf.bottom, hf.emptied⟩

/-- The next invocation at the bottom takes the place of the last one. -/
theorem load (hf : f.Grounded name) (routine : Routine) :
    (f.load (.begin name routine Controls.root)).Grounded name := by
  constructor
  · exact hf.governs.sublist (List.Sublist.map _ (List.sublist_append_right _ _))
  · intro _
    rfl
  · exact iff_of_false (fun ⟨_, he⟩ => nomatch he) (List.cons_ne_nil _ _)

end Grounded

end Fiber
end MacroEngine
