import MacroEngine.Proofs.Progress
import MacroEngine.Proofs.Settling

/-! A run that is left alone comes to rest at every stage: each step that was begun ends, and so
does each wait after a macro that is over. So it takes every stride there is. -/
namespace MacroEngine

namespace Fiber

variable {engine : Engine γ} {now : Moment} {game : γ} {f : Fiber} {inv : Invocation}
  {below : List Invocation}

def Resting (f : Fiber) : Prop := ∀ c, f.phase ≠ .busy c

instance (f : Fiber) : Decidable f.Resting :=
  match hp : f.phase with
  | .busy c => isFalse fun hrest => hrest c hp
  | .ready | .ended _ => isTrue (by simp [Resting, hp])

theorem leave_rests (hs : f.stack.length = below.length + 1) (inv : Invocation) (stopped : Bool) :
    (f.leave inv below stopped).Resting ∨ ∃ c, (f.leave inv below stopped).phase = .busy c ∧
      (f.leave inv below stopped).stack ≠ [] ∧
      (f.leave inv below stopped).stack.length < f.stack.length := by
  cases below with
  | nil =>
    refine .inl fun c hp => ?_
    cases hp
  | cons parent rest =>
    refine .inr ⟨_, rfl, List.cons_ne_nil _ _, ?_⟩
    rw [hs]
    simp [leave]

/-- After a step nothing is under way, unless a nested macro is over. -/
theorem conclude_rests (hs : f.stack = inv :: below) (engine : Engine γ) (now : Moment) (game : γ)
    (ending : Course.End Flow) :
    (conclude engine now game f inv below ending).2.Resting ∨
      ∃ c, (conclude engine now game f inv below ending).2.phase = .busy c ∧
        (conclude engine now game f inv below ending).2.stack ≠ [] ∧
        (conclude engine now game f inv below ending).2.stack.length < f.stack.length := by
  have hlen : f.stack.length = below.length + 1 := by rw [hs]; rfl
  match ending with
  | .value .next | .value (.jump _) | .value (.enter ..) =>
    refine .inl fun c hp => ?_
    cases hp
  | .value .finish =>
    have hlen : (f.complete now inv).stack.length = below.length + 1 := by
      rw [complete_stack, hlen]
    have hleave := leave_rests hlen inv false
    rw [complete_stack] at hleave
    exact hleave
  | .interrupted => exact leave_rests hlen inv true
  | .failure site error => exact .inl (handleFailure_phase _ _ _ _ _ _ _ site error)

end Fiber

namespace Snapshot

variable {engine : Engine γ} {s : Snapshot γ} {c : Course Flow} {name : String}

/-- While a step is under way, a tick stays at the stage. -/
theorem Free.tick_busy (ht : engine.client.Timeless) (hs : s.Free engine) (hb : s.Busy c) :
    (s.tick engine).settle engine = s.settle engine ∧
      ((s.tick engine).run.fiber.Resting ∨ ∃ c', (s.tick engine).Busy c' ∧
        (s.tick engine).run.fiber.stack.length ≤ s.run.fiber.stack.length ∧
        (c.end?.isSome → (s.tick engine).run.fiber.stack.length < s.run.fiber.stack.length)) := by
  rcases tick_native engine hs.native hb.running hb.result? with
    ⟨game, f, hstep, htick⟩ | ⟨hstep, now, htick⟩
  · have hsmall := Fiber.smallStep_of_step? hstep
    have hstate : ∀ inv below, s.run.fiber.stack = inv :: below →
        s.run.fiber.controls.state inv.control ≠ .stopped :=
      fun _ _ => Fiber.state_ne_stopped (hs.governed hb.running)
    rw [htick]
    constructor
    · rcases Fiber.settle_step ht hstate hsmall with ⟨hp, _⟩ | ⟨_, he⟩
      · rw [hb.phase] at hp
        cases hp
      · exact he
    · generalize hr : (game, f) = r at hsmall
      cases hsmall with
      | halted _ hp | finished _ hp | begun _ hp => rw [hb.phase] at hp; cases hp
      | @moved inv below course s' course' hstack hp hc =>
        cases hr
        rw [hb.phase] at hp
        cases hp
        refine .inr ⟨course', ⟨hb.running, List.cons_ne_nil _ _, rfl⟩, ?_, ?_⟩
        · rw [hstack]
          exact Nat.le_refl _
        · rw [Course.end?_of_step? hc]
          exact fun hend => nomatch hend
      | @concluded inv below course ending hstack hp hend =>
        have hrest := Fiber.conclude_rests hstack engine s.now s.game ending
        rw [← hr] at hrest
        rcases hrest with hrest | ⟨c', hp', hne, hlt⟩
        · exact .inl hrest
        · exact .inr ⟨c', ⟨hb.running, hne, hp'⟩, Nat.le_of_lt hlt, fun _ => hlt⟩
  · rw [htick]
    refine ⟨rfl, .inr ⟨c, ⟨hb.running, hb.stacked, hb.phase⟩, Nat.le_refl _, fun hend => ?_⟩⟩
    obtain ⟨inv, below, hstack⟩ := List.exists_cons_of_ne_nil hb.stacked
    obtain ⟨ending, hend⟩ := Option.isSome_iff_exists.mp hend
    rw [Fiber.step?_concluded hstack hb.phase hend] at hstep
    cases hstep

/-- Induction on the depth of the stack, as each wait after a nested macro is one level lower. -/
theorem Free.busy_rests (ht : engine.client.Timeless) :
    ∀ (depth : Nat) {s : Snapshot γ} {c : Course Flow}, s.Free engine → s.Busy c →
      s.run.fiber.stack.length ≤ depth →
      ∃ n, (s.after engine n).run.fiber.Resting ∧
        (s.after engine n).settle engine = s.settle engine := by
  intro depth
  induction depth with
  | zero =>
    intro s c _ hb hlen
    exact absurd (List.length_eq_zero_iff.mp (Nat.le_zero.mp hlen)) hb.stacked
  | succ depth ih =>
    intro s c hs hb hlen
    obtain ⟨n, c', hb', hend, hall⟩ := course_ends hs hb
    have hstill : ∀ m ≤ n, (s.after engine m).settle engine = s.settle engine ∧
        (s.after engine m).run.fiber.stack.length ≤ depth + 1 := by
      intro m
      induction m with
      | zero => exact fun _ => ⟨rfl, hlen⟩
      | succ m ihm =>
        intro hm
        obtain ⟨hsettle, hle⟩ := ihm (by omega)
        obtain ⟨c₀, hb₀⟩ := hall m (by omega)
        obtain ⟨c₁, hb₁⟩ := hall (m + 1) hm
        obtain ⟨htick, hrest | ⟨_, _, hle', _⟩⟩ := (hs.after m).tick_busy ht hb₀
        · rw [after_succ] at hb₁
          exact absurd hb₁.phase (hrest c₁)
        · rw [after_succ]
          exact ⟨htick.trans hsettle, by omega⟩
    obtain ⟨hsettle, hle⟩ := hstill n (Nat.le_refl n)
    obtain ⟨htick, hrest | ⟨c₁, hb₁, _, hlt⟩⟩ := (hs.after n).tick_busy ht hb'
    · exact ⟨n + 1, by rwa [after_succ], by rw [after_succ, htick, hsettle]⟩
    · have hlow := hlt hend
      obtain ⟨k, hrest, hk⟩ := ih (hs.after n).tick hb₁ (by omega)
      rw [after_tick, ← after_add] at hrest hk
      exact ⟨n + (k + 1), hrest, by rw [hk, htick, hsettle]⟩

theorem Sound.running (hs : s.Sound name) (hp : ∀ result, s.run.fiber.phase ≠ .ended result) :
    s.run.outcome = none := by
  cases ho : s.run.outcome with
  | none => rfl
  | some o =>
    obtain ⟨result, he, _⟩ := hs.outcome o ho
    exact absurd he (hp result)

theorem Free.rests (ht : engine.client.Timeless) (hs : s.Free engine) (hsound : s.Sound name) :
    ∃ n, (s.after engine n).run.fiber.Resting ∧
      (s.after engine n).settle engine = s.settle engine := by
  by_cases hrest : s.run.fiber.Resting
  · exact ⟨0, hrest, rfl⟩
  · simp only [Fiber.Resting, not_forall, not_not] at hrest
    obtain ⟨c, hp⟩ := hrest
    have ho := hsound.running fun result he => by rw [hp] at he; cases he
    exact Free.busy_rests ht _ hs ⟨ho, hsound.stacked c hp, hp⟩ (Nat.le_refl _)

theorem Free.strides (ht : engine.client.Timeless) (hs : s.Free engine) (hsound : s.Sound name)
    (hrest : s.run.fiber.Resting) :
    ∃ n, (s.after engine n).run.fiber.Resting ∧
      (s.after engine n).settle engine = (s.settle engine).stride engine := by
  cases hp : s.run.fiber.phase with
  | busy c => exact absurd hp (hrest c)
  | ended result =>
    refine ⟨0, hrest, ?_⟩
    simp only [Snapshot.after_zero, settle, Fiber.settle, hp, Stage.stride]
  | ready =>
    cases hstack : s.run.fiber.stack with
    | nil =>
      refine ⟨0, hrest, ?_⟩
      simp only [Snapshot.after_zero, settle, Fiber.settle_ready hp, hstack, Fiber.levels,
        List.map_nil, Stage.stride]
    | cons inv below =>
      have ho := hsound.running fun result he => by rw [hp] at he; cases he
      have hstate : s.run.fiber.controls.state inv.control = .running := by
        unfold Controls.state
        rw [hs.head_started ho hstack, Lifecycle.started_state]
      have hr : s.run.fiber.result? = none := by simp [Fiber.result?, hp]
      obtain ⟨⟨game, f⟩, hstep⟩ := Option.isSome_iff_exists.mp
        (Fiber.step?_running engine s.now s.game hstack hp hstate)
      have htick := tick_of_step? hs.native ho hr hstep
      have hsettle : (s.tick engine).settle engine = (s.settle engine).stride engine := by
        have hne : ∀ inv' below', s.run.fiber.stack = inv' :: below' →
            s.run.fiber.controls.state inv'.control ≠ .stopped := by
          intro inv' below' hstack'
          rw [hstack] at hstack'
          cases hstack'
          rw [hstate]
          simp
        rcases Fiber.settle_step ht hne (Fiber.smallStep_of_step? hstep) with ⟨_, he⟩ | ⟨hno, _⟩
        · rw [htick]
          exact he
        · exact absurd hp hno
      obtain ⟨n, hn, he⟩ := hs.tick.rests ht hsound.tick
      rw [after_tick] at hn he
      exact ⟨n + 1, hn, by rw [he, hsettle]⟩

theorem Free.reaches (ht : engine.client.Timeless) (hs : s.Free engine) (hsound : s.Sound name)
    (k : Nat) : ∃ n, (s.after engine n).run.fiber.Resting ∧
      (s.after engine n).settle engine = (s.settle engine).after engine k := by
  induction k with
  | zero => exact hs.rests ht hsound
  | succ k ih =>
    obtain ⟨n, hrest, hn⟩ := ih
    obtain ⟨m, hrest', hm⟩ := (hs.after n).strides ht (hsound.after n) hrest
    rw [← after_add] at hrest' hm
    exact ⟨n + m, hrest', by rw [hm, hn, Stage.after_succ]⟩

theorem account_eq (hrest : s.run.fiber.Resting) :
    (s.settle engine).account = s.run.fiber.account s.game := by
  unfold settle Fiber.settle
  split
  · rfl
  · rename_i c _ _ hp _
    exact absurd hp (hrest c)
  · rfl

theorem phase_of_ended {result : Except RunError Bool} (hrest : s.run.fiber.Resting)
    (h : (s.settle engine).ended = some result) : s.run.fiber.phase = .ended result := by
  unfold settle Fiber.settle at h
  split at h
  · rename_i hp
    cases h
    exact hp
  · rename_i c _ _ hp _
    exact absurd hp (hrest c)
  · cases h

theorem Free.finishes (ht : engine.client.Timeless) (hs : s.Free engine) (hsound : s.Sound name)
    {k : Nat} {result : Except RunError Bool}
    (hk : ((s.settle engine).after engine k).ended = some result) :
    ∃ n ended, (s.after engine n).run.outcome =
        some ⟨result.map (s.after engine n).run.report, ended⟩ ∧
      (s.after engine n).run.fiber.account (s.after engine n).game =
        ((s.settle engine).after engine k).account := by
  obtain ⟨n, hrest, hn⟩ := hs.reaches ht hsound k
  have hsound : (s.after engine n).Sound name := hsound.after n
  have hfree := hs.after n
  rw [← hn] at hk
  have hp := phase_of_ended hrest hk
  have haccount := (account_eq hrest).symm.trans (congrArg Stage.account hn)
  cases ho : (s.after engine n).run.outcome with
  | some o =>
    obtain ⟨result', he, hres⟩ := hsound.outcome o ho
    rw [hp] at he
    cases he
    exact ⟨n, o.ended, by rw [ho, ← hres], haccount⟩
  | none =>
    have hb : (s.after engine n).run.bridge = none := hfree.native
    have hr : (s.after engine n).run.fiber.result? = some result := by simp [Fiber.result?, hp]
    have hstep :
        (s.after engine n).run.step? engine (s.after engine n).now (s.after engine n).game =
        some ((s.after engine n).game, (s.after engine n).run.finish (s.after engine n).now
          (result.map (s.after engine n).run.report)) := by
      simp [Run.step?, ho, hb, hr]
    refine ⟨n + 1, (s.after engine n).now, ?_, ?_⟩
    · rw [after_succ, Snapshot.tick, hstep]
      rfl
    · rw [after_succ, Snapshot.tick, hstep]
      exact haccount

end Snapshot
end MacroEngine
