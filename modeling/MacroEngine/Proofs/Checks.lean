import MacroEngine.Proofs.Listings

/-! A check that has the user see to something pauses the invocation that it is in, and nothing
more of that is executed until a resume or a step is granted. A pending stop at the next loop
refuses the pause. -/
namespace MacroEngine

/-- What a check has the user see to, if the view calls for it. -/
def Command.warning? (view : View) : Command → Option String
  | .requireRepair => if view.needsRepair then some "gear needs repair" else none
  | .requireSpiritbond below =>
    if view.spiritbondReady below then some "materia can be extracted" else none
  | _ => none

namespace Execution

/-- Only checks warn, and they look at the view in which they are executed. -/
theorem command_warns {view : View} {step : Step} {reason : String}
    (h : step.command.warning? view = some reason) (rules : Rules) (chain : List String)
    (index : Nat) (frames : List Frame) (eff : Effective) :
    ∃ trips : View → Bool, trips view = true ∧
      command rules chain index frames step eff = check reason eff.wait trips := by
  unfold Command.warning? at h
  split at h
  · rename_i hcommand
    split at h
    · rename_i htrips
      cases h
      exact ⟨_, htrips, by simp only [command, hcommand]⟩
    · cases h
  · rename_i below hcommand
    split at h
    · rename_i htrips
      cases h
      exact ⟨fun view => view.spiritbondReady below, htrips, by simp only [command, hcommand]⟩
    · cases h
  · cases h

end Execution

/-- A pause takes effect when the step is complete, whatever else is pending, unless that is a stop
at the next loop. -/
theorem Lifecycle.paused_after {l : Lifecycle} (hawake : l.Awake) (hpaused : l.state ≠ .pausedNow)
    (hstopped : l.state ≠ .stopped) (hpending : l.state ≠ .stoppedAtNextLoop) :
    ((l.apply .pause).afterStep).state = .pausedNow := by
  obtain ⟨state, single⟩ := l
  cases state with
  | idle => exact absurd rfl hawake
  | pausedNow => exact absurd rfl hpaused
  | stopped => exact absurd rfl hstopped
  | stoppedAtNextLoop => exact absurd rfl hpending
  | running | pausedAtNextLoop => cases single <;> rfl

namespace Controls

variable {c c' : Controls} {h k : Handle} {refusal : Refusal}

theorem lifecycle_refused {r : Request} (hr : (c.request h r).1 = .error refusal) :
    (c.request h r).2.lifecycle k = c.lifecycle k := by
  have happly : (c.lifecycle h).apply r = c.lifecycle h := by
    change transition (c.lifecycle h).state r = _ at hr
    unfold transition at hr
    split at hr
    · cases hr
    · rename_i hnext
      simp [Lifecycle.apply, Lifecycle.next?, hnext]
  change (c.set h ((c.lifecycle h).apply r)).lifecycle k = _
  rw [happly]
  exact holds_set (Q := (· = c.lifecycle k)) rfl fun hk => hk ▸ rfl

theorem request_resume (hp : isPaused (c.state h) = true) :
    (c.request h .resume).1 = .ok .running := by
  change transition (c.state h) .resume = _
  rcases of_decide_eq_true hp with hs | hs <;> (rw [hs]; rfl)

theorem resumeEach_ok (ks : List Handle) : ∀ {c : Controls} {reply},
    (c.resumeEach ks).1 = some reply → ∃ state, reply = .ok state := by
  induction ks with
  | nil => exact fun h => nomatch h
  | cons k ks ih =>
    intro c reply h
    unfold resumeEach at h
    split at h
    · rename_i hp
      dsimp only at h
      cases hlast : ((c.request k .resume).2.resumeEach ks).1 with
      | none =>
        rw [hlast] at h
        cases h
        exact ⟨_, request_resume hp⟩
      | some last =>
        obtain ⟨state, rfl⟩ := ih hlast
        rw [hlast] at h
        cases h
        exact ⟨state, rfl⟩
    · exact ih h

theorem resumeEach_none (ks : List Handle) :
    (c.resumeEach ks).1 = none → (c.resumeEach ks).2 = c := by
  induction ks with
  | nil => exact fun _ => rfl
  | cons k ks ih =>
    unfold resumeEach
    split
    · intro h
      cases h
    · exact ih

theorem lifecycle_grant_refused {w : Wish} (hw : w = .resume ∨ w = .step)
    (hr : (c.grant w).1 = .error refusal) : (c.grant w).2.lifecycle k = c.lifecycle k := by
  rcases hw with rfl | rfl
  · change c.resume.2.lifecycle k = _
    change c.resume.1 = _ at hr
    unfold resume at hr ⊢
    generalize heach : c.resumeEach (c.published.map Published.handle) = each at hr ⊢
    obtain ⟨last, c'⟩ := each
    cases last with
    | some reply =>
      obtain ⟨state, rfl⟩ := resumeEach_ok _ (congrArg Prod.fst heach)
      cases hr
    | none =>
      have hsame := resumeEach_none (c := c) (c.published.map Published.handle)
        (congrArg Prod.fst heach)
      rw [heach] at hsame
      obtain rfl : c' = c := hsame
      exact lifecycle_refused hr
  · exact lifecycle_refused hr

theorem lifecycle_retireEach (ps : List Published) : ∀ {c : Controls},
    k ∉ ps.map Published.handle →
      (ps.foldl (fun c p => c.retire p.handle) c).lifecycle k = c.lifecycle k := by
  induction ps with
  | nil => exact fun _ => rfl
  | cons p ps ih =>
    intro c hk
    simp only [List.map_cons, List.mem_cons, not_or] at hk
    exact (ih hk.2).trans (lifecycle_retire_of_ne hk.1)

end Controls

namespace Fiber

variable {engine : Engine γ} {now : Moment} {game game' : γ} {f f' : Fiber} {inv : Invocation}
  {below : List Invocation} {name : String} {h : Handle} {c : Controls}

/-- The invocation of the handle is paused between two steps, or stopped and no step of it is under
way. -/
structure Quiet (h : Handle) (f : Fiber) : Prop where
  given : h < f.controls.nextHandle
  held : f.controls.state h = .pausedNow ∧ h ∈ f.handles ∨ (f.controls.lifecycle h).Halted
  ready : h ∈ f.handles → f.phase = .ready ∧ f.stack.head?.map Invocation.control = some h

theorem Quiet.absent (hf : f.Quiet h) (hm : h ∉ f.handles) : (f.controls.lifecycle h).Halted :=
  hf.held.resolve_left fun hp => hm hp.2

theorem quiet_relisted (hg : f.Grounded name) (hf : f.Quiet h) (hne : f.stack ≠ [])
    (hm : h ∉ f.handles) (hg' : f'.Grounded name) (hr : f.Relisted name f') : f'.Quiet h := by
  have hhalted := hf.absent hm
  have hlisting : h ∉ (f.listing name).map Published.handle := by rwa [← hg.handles hne]
  have hhandles : ∀ {k}, k ∈ f'.handles → k ∈ (f'.listing name).map Published.handle := by
    intro k hk
    by_cases hs : f'.stack = []
    · simp [handles, hs] at hk
    · rwa [← hg'.handles hs]
  cases hr with
  | pushes hl hc =>
    -- Handles are given out once: the one that is pushed is new.
    have hfresh : h ≠ f.controls.nextHandle := Nat.ne_of_lt hf.given
    have hm' : h ∉ f'.handles := by
      intro hk
      have hk := hhandles hk
      rw [hl] at hk
      rcases List.mem_cons.mp hk with he | hk
      · exact hfresh he
      · exact hlisting hk
    refine ⟨?_, .inr ?_, fun hk => absurd hk hm'⟩
    · rw [hc]
      exact Nat.lt_succ_of_lt hf.given
    · rw [hc, Controls.lifecycle_enter_of_ne hfresh]
      exact hhalted
  | @pops inv g popped htuned hinv hl hc =>
    rw [hl, List.map_append, List.mem_append, not_or] at hlisting
    have hother : h ≠ inv.control := fun he => hm (he ▸ hinv)
    refine ⟨?_, .inr ?_, fun hk => absurd (hhandles hk) hlisting.2⟩
    · rw [hc, Controls.nextHandle_retireEach, htuned.tuned.nextHandle]
      exact hf.given
    · rw [hc, Controls.lifecycle_retireEach popped hlisting.1,
        htuned.tuned.kept h fun hk => hother hk.1]
      exact hhalted

theorem quiet_leave (hg : f.Governed Lifecycle.Awake) (hs : f.stack = inv :: below)
    (hk : inv.control < f.controls.nextHandle)
    (hhalted : (f.controls.lifecycle inv.control).Halted) :
    (f.leave inv below true).Quiet inv.control := by
  have hm : inv.control ∉ (f.leave inv below true).handles :=
    not_mem_leave hg (by simp [handles, hs]) true
  cases below with
  | nil => exact ⟨hk, .inr hhalted, fun hmem => absurd hmem hm⟩
  | cons parent rest =>
    exact ⟨hk, .inr (Controls.over_retire _ _).2, fun hmem => absurd hmem hm⟩

theorem quiet_step (hg : f.Grounded name) (hf : f.Quiet h)
    (hstep : f.step? engine now game = some (game', f')) : f'.Quiet h := by
  have hsmall := smallStep_of_step? hstep
  by_cases hm : h ∈ f.handles
  · -- It is innermost, and a paused fiber takes no step, so it has stopped and is left now.
    obtain ⟨hp, hhead⟩ := hf.ready hm
    obtain ⟨inv, hinv, rfl⟩ := Option.map_eq_some_iff.mp hhead
    obtain ⟨below, hs⟩ := List.head?_eq_some_iff.mp hinv
    rw [step?_ready hs hp] at hstep
    unfold begin? at hstep
    rcases hf.held with ⟨hpaused, _⟩ | hhalted
    · rw [hpaused] at hstep
      cases hstep
    · have hstopped : f.controls.state inv.control = .stopped := hhalted
      rw [hstopped] at hstep
      cases hstep
      exact quiet_leave hg.governed hs hf.given hhalted
  · have hrelisted := ((shift_of_step hsmall).relisted hg).1
    exact quiet_relisted hg hf hsmall.stacked hm (hg.step hsmall) hrelisted

theorem Quiet.grant {w : Controls.Wish} (hf : f.Quiet h)
    (hw : w = .resume ∨ w = .step → ∃ refusal, (f.controls.grant w).1 = .error refusal) :
    ({ f with controls := (f.controls.grant w).2 }).Quiet h := by
  have hnext := (Controls.tuned_grant f.controls w).nextHandle
  refine ⟨by rw [hnext]; exact hf.given, ?_, hf.ready⟩
  rcases hf.held with ⟨hpaused, hm⟩ | hhalted
  · by_cases hr : w = .resume ∨ w = .step
    · refine .inl ⟨?_, hm⟩
      unfold Controls.state
      obtain ⟨refusal, hrefused⟩ := hw hr
      rw [Controls.lifecycle_grant_refused hr hrefused]
      exact hpaused
    · have hkeep : ∀ l : Lifecycle, l.state = .pausedNow ∨ l.Halted →
          (l.apply w.request).state = .pausedNow ∨ (l.apply w.request).Halted := by
        rintro ⟨state, single⟩ (hl | hl)
        · cases hl
          cases w with
          | resume | step => simp at hr
          | pause | pauseAtLoop | stopAtLoop => exact .inl rfl
          | stop => exact .inr rfl
        · exact .inr (hl.apply _)
      rcases Controls.holds_grant hkeep hf.given (.inl hpaused) with hp | hp
      · exact .inl ⟨hp, hm⟩
      · exact .inr hp
  · exact .inr (Controls.holds_grant (fun _ hl => hl.apply _) hf.given hhalted)

end Fiber

namespace Run

variable {engine : Engine γ} {now : Moment} {game game' : γ} {r r' : Run} {h : Handle}

theorem quiet_work (hr : r.Orderly) (hq : r.fiber.Quiet h)
    (hwork : r.Work engine now game (game', r')) : r'.fiber.Quiet h := by
  have hempty : r.fiber.stack = [] → h ∉ r.fiber.handles := by
    intro hs
    simp [Fiber.handles, hs]
  cases hwork with
  | finishes result hs =>
    have hhalted := hq.absent (hempty hs)
    refine ⟨hq.given, .inr ?_, fun hm => absurd hm (hempty hs)⟩
    exact Controls.holds_set hhalted fun hroot => hroot ▸ hhalted.apply _
  | plays hf => exact Fiber.quiet_step hr.grounded hq hf
  | talks => exact ⟨hq.given, hq.held, hq.ready⟩
  | loads step _ _ hs =>
    -- The next line of a script gets the root again, which has stopped and is left in its turn.
    refine ⟨hq.given, .inr (hq.absent (hempty hs)), fun hm => ⟨rfl, ?_⟩⟩
    rw [List.mem_singleton.mp hm]
    rfl

end Run

namespace Snapshot

variable {engine : Engine γ} {s t u : Snapshot γ} {now : Moment} {game : γ} {run : Run}
  {inv : Invocation} {below : List Invocation} {step : Step} {h : Handle}

def Unresumed (engine : Engine γ) (s t : Snapshot γ) : Prop :=
  Move engine (fun w => w = .resume ∨ w = .step →
    ∃ refusal, (s.run.grant w).1 = .error refusal) s t

theorem quiet_unresumed (hrun : t.run.Orderly) (hq : t.run.fiber.Quiet h)
    (hu : Relation.ReflTransGen (Unresumed engine) t u) :
    u.run.Orderly ∧ u.run.fiber.Quiet h := by
  induction hu with
  | refl => exact ⟨hrun, hq⟩
  | tail _ hmove ih =>
    obtain ⟨hrun, hq⟩ := ih
    refine ⟨orderly_move hrun hmove, ?_⟩
    cases hmove with
    | lapse => exact hq
    | wish hw => exact hq.grant hw
    | work hstep => exact Run.quiet_work hrun hq (hrun.work hstep).2

theorem live_innermost (hrun : s.run.Orderly) (hs : s.run.fiber.stack = inv :: below) :
    s.run.fiber.controls.Live inv.control :=
  hrun.grounded.governed.live _ (by simp [Fiber.handles, hs])

structure Warned (reason : String) (engine : Engine γ) (s : Snapshot γ) (inv : Invocation)
    (below : List Invocation) (t : Snapshot γ) : Prop where
  now : t.now = s.now
  game : t.game = engine.client.notify s.game s.now (reason ++ "; macro paused")
  softErrors : t.run.fiber.softErrors = (reason ++ "; macro paused") :: s.run.fiber.softErrors
  steps : t.run.fiber.steps = s.run.fiber.steps + 1
  stack : t.run.fiber.stack = { inv with cursor := inv.cursor + 1 } :: below
  phase : t.run.fiber.phase = .ready
  lifecycle : t.run.fiber.controls.lifecycle inv.control =
    ((s.run.fiber.controls.lifecycle inv.control).apply .pause).afterStep

theorem after_held {reason : String} (hrun : s.run.Orderly)
    (hs : s.run.fiber.stack = inv :: below)
    (hp : s.run.fiber.phase = .busy (.doing (.mark (.held reason) (.done .next)))) :
    Warned reason engine s inv below (s.after engine 2) := by
  have hrun' : (s.tick engine).run.Orderly := orderly_tick hrun
  have htold : s.tick engine = _ := tick_moves hrun hs hp rfl
  have hlifecycle : (s.tick engine).run.fiber.controls.lifecycle inv.control =
      (s.run.fiber.controls.lifecycle inv.control).apply .pause := by
    rw [htold]
    exact Controls.lifecycle_set_self (live_innermost hrun hs)
  change Warned reason engine s inv below ((s.tick engine).tick engine)
  generalize s.tick engine = t at htold hrun' hlifecycle ⊢
  have hs' : t.run.fiber.stack = inv :: below := by rw [htold]; rfl
  have hdone : t.tick engine = _ := tick_concludes hrun' hs' (by rw [htold]) rfl
  rw [hdone]
  constructor
  · rw [htold]
  · rw [htold]
    rfl
  · change (t.run.fiber.complete t.now inv).softErrors = _
    rw [htold]
    unfold Fiber.complete
    split <;> rfl
  · change (t.run.fiber.complete t.now inv).steps = _
    rw [Fiber.steps_complete, htold]
    rfl
  · rfl
  · rfl
  · rw [← hlifecycle]
    exact Controls.lifecycle_set_self (live_innermost hrun' hs')

/-- Nothing has changed but how far the innermost invocation is in its step. -/
structure Abides (inv : Invocation) (s t : Snapshot γ) : Prop where
  now : t.now = s.now
  game : t.game = s.game
  softErrors : t.run.fiber.softErrors = s.run.fiber.softErrors
  steps : t.run.fiber.steps = s.run.fiber.steps
  lifecycle : t.run.fiber.controls.lifecycle inv.control =
    s.run.fiber.controls.lifecycle inv.control

theorem Warned.of_abides {reason : String} (h : Abides inv s t)
    (ht : Warned reason engine t inv below u) : Warned reason engine s inv below u := by
  obtain ⟨hnow, hgame, hsoft, hsteps, hstack, hphase, hlifecycle⟩ := ht
  rw [h.now] at hnow
  rw [h.now, h.game] at hgame
  rw [h.softErrors] at hsoft
  rw [h.steps] at hsteps
  rw [h.lifecycle] at hlifecycle
  exact ⟨hnow, hgame, hsoft, hsteps, hstack, hphase, hlifecycle⟩

theorem after_check {reason : String} {wait : WaitSpan} {trips : View → Bool}
    (hrun : s.run.Orderly) (hs : s.run.fiber.stack = inv :: below)
    (hp : s.run.fiber.phase = .busy (.doing (Execution.check reason wait trips)))
    (htrips : trips (engine.client.view s.game s.now) = true) :
    Warned reason engine s inv below (s.after engine 3) := by
  have hmark : (if trips (engine.client.view s.game s.now) then
      Activity.mark (.held reason) (.done Flow.next) else .pause wait (.done .next)) = _ :=
    if_pos htrips
  have hlook : (Course.doing (Execution.check reason wait trips)).step? engine.means s.now
      (s.run.fiber.scene inv s.game) =
        some (s.run.fiber.scene inv s.game, .doing (.mark (.held reason) (.done .next))) :=
    congrArg (fun a => some (s.run.fiber.scene inv s.game, Course.doing a)) hmark
  have htick : s.tick engine = _ := tick_moves hrun hs hp hlook
  have hstack : (s.tick engine).run.fiber.stack = inv :: below := by rw [htick]; rfl
  have hphase : (s.tick engine).run.fiber.phase =
      .busy (.doing (.mark (.held reason) (.done .next))) := by rw [htick]
  have habides : Abides inv s (s.tick engine) := by
    rw [htick]
    exact ⟨rfl, rfl, rfl, rfl, Controls.lifecycle_set_self (live_innermost hrun hs)⟩
  exact (after_held (orderly_tick hrun) hstack hphase).of_abides habides

/-- A check whose reason is there in the view pauses its invocation, which was told so, as soon as
it is complete, unless a stop at the next loop is pending; and nothing more of the invocation is
executed before a resume or a step is granted. -/
theorem checks_pause {reason : String} {eff : Effective} (hrun : run.Fresh)
    (h : Moves engine (fun _ => True) ⟨now, game, run⟩ s)
    (hs : s.run.fiber.stack = inv :: below) (hp : s.run.fiber.phase = .ready)
    (hpaused : s.run.fiber.controls.state inv.control ≠ .pausedNow)
    (hstopped : s.run.fiber.controls.state inv.control ≠ .stopped)
    (hpending : s.run.fiber.controls.state inv.control ≠ .stoppedAtNextLoop)
    (hget : inv.routine.get? inv.cursor = some step)
    (hsettled : step.settled engine.rules.config (engine.client.view s.game s.now) = .ok eff)
    (hwarns : step.command.warning? (engine.client.view s.game s.now) = some reason) :
    let t := s.after engine 5
    t.now = s.now ∧ t.game = engine.client.notify s.game s.now (reason ++ "; macro paused") ∧
    t.run.fiber.steps = s.run.fiber.steps + 1 ∧
    t.run.fiber.stack = { inv with cursor := inv.cursor + 1 } :: below ∧
    t.run.fiber.phase = .ready ∧ t.run.fiber.controls.state inv.control = .pausedNow ∧
    ∀ u, Relation.ReflTransGen (Unresumed engine) t u → inv.control ∈ u.run.fiber.handles →
      u.run.fiber.phase = .ready ∧
        u.run.fiber.stack.head?.map Invocation.control = some inv.control := by
  have horderly := orderly_moves (Run.orderly_fresh hrun) h
  obtain ⟨trips, htrips, hcheck⟩ := Execution.command_warns hwarns engine.rules s.run.fiber.chain
    inv.cursor inv.frames eff
  have htwo : s.after engine 2 = _ := after_begun horderly hs hp hpaused hstopped hget
  have hrun₂ : (s.after engine 2).run.Orderly := orderly_tick (orderly_tick horderly)
  have hstack : (s.after engine 2).run.fiber.stack = inv :: below := by rw [htwo]; rfl
  have hphase : (s.after engine 2).run.fiber.phase =
      .busy (.doing (Execution.check reason eff.wait trips)) := by
    rw [htwo, ← hcheck]
    simp only [Step.settle, hsettled]
  have habides : Abides inv s (s.after engine 2) := by
    rw [htwo]
    exact ⟨rfl, rfl, rfl, rfl, Controls.lifecycle_set_self (live_innermost horderly hs)⟩
  have hchecked : Warned reason engine (s.after engine 2) inv below
      ((s.after engine 2).after engine 3) := by
    refine after_check hrun₂ hstack hphase ?_
    rw [habides.now, habides.game]
    exact htrips
  rw [← after_add] at hchecked
  obtain ⟨hnow, hgame, _, hsteps, hstack', hphase', hlifecycle⟩ := hchecked.of_abides habides
  have hawake := Fiber.governed_head horderly.grounded.governed hs
  have hstate : (s.after engine 5).run.fiber.controls.state inv.control = .pausedNow := by
    unfold Controls.state
    rw [hlifecycle]
    exact Lifecycle.paused_after hawake hpaused hstopped hpending
  have hrun₅ : (s.after engine 5).run.Orderly := by
    have hmoves : Moves engine (fun _ => True) s (s.after engine 5) := moves_after s 5
    exact orderly_moves horderly hmoves
  have hmem : inv.control ∈ (s.after engine 5).run.fiber.handles := by
    simp [Fiber.handles, hstack']
  have hquiet : (s.after engine 5).run.fiber.Quiet inv.control := by
    refine ⟨hrun₅.grounded.governed.given _ hmem, .inl ⟨hstate, hmem⟩, fun _ => ⟨hphase', ?_⟩⟩
    rw [hstack']
    rfl
  exact ⟨hnow, hgame, hsteps, hstack', hphase', hstate, fun u hu =>
    (quiet_unresumed hrun₅ hquiet hu).2.ready⟩

def worn : Engine Unit :=
  { Engine.still .empty with
    client := { Client.still with
      view := fun game now => { Client.still.view game now with needsRepair := true } } }

def mending : Routine :=
  ⟨[⟨1, .wait (.fixed (.ofNat 1)), "1", {}⟩, ⟨2, .requireRepair, "", {}⟩,
    ⟨3, .echo "after", "after", {}⟩, ⟨4, .loop .infinite, "", {}⟩]⟩

def mended (wish : Controls.Wish) : Snapshot Unit :=
  let s := (start 0 () "m" mending).after worn 5
  { s with run := (s.run.grant wish).2 }.after worn 20

def mender : Invocation := ⟨"m", mending, 1, [], Controls.root, none⟩

theorem checks_pause_mending :
    (mended .pauseAtLoop).run.invocations = [("m", .pausedAtNextLoop)] ∧
    ((mended .pauseAtLoop).after worn 5).run.fiber.controls.state 0 = .pausedNow ∧
    ∀ u, Relation.ReflTransGen (Unresumed worn) ((mended .pauseAtLoop).after worn 5) u →
      0 ∈ u.run.fiber.handles → u.run.fiber.phase = .ready ∧
        u.run.fiber.stack.head?.map Invocation.control = some 0 := by
  have hwait : Moves worn (fun _ => True) (start 0 () "m" mending) _ :=
    moves_after (start 0 () "m" mending) 5
  have hwish := hwait.tail (.wish _ (w := .pauseAtLoop) trivial)
  have hmoves : Moves worn (fun _ => True) (start 0 () "m" mending) (mended .pauseAtLoop) :=
    hwish.trans (moves_after _ 20)
  have hstack : (mended .pauseAtLoop).run.fiber.stack = [mender] := by decide +kernel
  have hget : mender.routine.get? mender.cursor = some ⟨2, .requireRepair, "", {}⟩ := by
    decide +kernel
  obtain ⟨_, _, _, _, _, hstate, hquiet⟩ := checks_pause (.routine "m" mending) hmoves hstack
    (by decide +kernel) (by decide +kernel) (by decide +kernel) (by decide +kernel) hget rfl rfl
  exact ⟨by decide +kernel, hstate, hquiet⟩

/-- With a stop at the next loop pending the check says that the macro is paused, and it goes on. -/
theorem checks_pass_stop :
    let s := mended .stopAtLoop
    s.run.fiber.stack = [mender] ∧ s.run.invocations = [("m", .stoppedAtNextLoop)] ∧
    (s.after worn 5).run.fiber.softErrors = ["gear needs repair; macro paused"] ∧
    (s.after worn 5).run.invocations = [("m", .stoppedAtNextLoop)] ∧
    commands (s.after worn 10).run.fiber.journal =
      [.notified "gear needs repair; macro paused", .echoed "after"] := by
  decide +kernel

end Snapshot
end MacroEngine
