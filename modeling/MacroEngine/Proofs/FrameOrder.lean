import MacroEngine.Proofs.NestedLoops

/-! The order of the frames of an invocation, outermost first. They are found by their steps and
not by their places, and are a stack all the same: of two loops the outer one is further on, and
none is behind the cursor. A crossing counts in the frame of one step, and leaves those outside
and inside of it as they are. -/
namespace MacroEngine

def Frame.OwnedBy (f : Frame) (step : Step) : Prop :=
  match step.command with
  | .craft _ => f.kind = .gate
  | .loop _ => f.kind = if f.step = 0 then .header else .loop
  | _ => False

/-- What a crossing leaves of a frame: one pass less, and nothing of a loop that is done. -/
def Frame.passed (f : Frame) : List Frame :=
  match f.remaining with
  | .infinite => [f]
  | .finite (n + 1) => [{ f with remaining := .finite n }]
  | .finite 0 => if f.kind = .gate then [f] else []

/-- The frame that a gate or a loop makes when it is crossed first. A loop on the first step is
crossed at the end of the steps only. -/
def Step.opens? (config : Config) (index : Nat) (step : Step) : Option Frame :=
  match step.command with
  | .craft count => some ⟨index, .gate, .finite count, .finite count, step.echoes config⟩
  | .loop count =>
    if index = 0 then none
    else some ⟨index, .loop, count, if config.loopTotal then count.pred else count,
      step.echoes config⟩
  | _ => none

structure Routine.Stacked (routine : Routine) (cursor : Nat) (frames : List Frame) : Prop where
  distinct : frames.Pairwise fun f g => f.step ≠ g.step
  nested : frames.Pairwise fun f g => f.kind = .loop → g.kind = .loop → g.step < f.step
  owned : ∀ f ∈ frames, ∃ step, routine.get? f.step = some step ∧ f.OwnedBy step
  ahead : ∀ f ∈ frames, f.kind = .loop → cursor ≤ f.step
  bounded : ∀ f ∈ frames, ∀ n, f.remaining = .finite n → ∃ m, f.total = .finite m ∧ n ≤ m

/-- The frame that an invocation crosses on some step, with those outside and those inside of it:
it is there already, or made on the innermost side. -/
inductive Routine.Meets (config : Config) (routine : Routine) (cursor : Nat)
    (frames : List Frame) : List Frame → Frame → List Frame → Prop where
  | standing {outer frame inner} : frames = outer ++ frame :: inner → frame.step = cursor →
      frame.kind ≠ .header → Meets config routine cursor frames outer frame inner
  | fresh {step frame} : (∀ f ∈ frames, f.step ≠ cursor) → routine.get? cursor = some step →
      step.opens? config cursor = some frame → Meets config routine cursor frames frames frame []
  | header {outer frame inner} : frames = outer ++ frame :: inner → frame.kind = .header →
      routine.get? cursor = none → Meets config routine cursor frames outer frame inner

structure Crossing.Of (crossing : Crossing) (outer : List Frame) (frame : Frame)
    (inner : List Frame) : Prop where
  frames : crossing.frames = outer ++ frame.passed ++ inner
  again : crossing.again = frame.remaining.pass?.isSome

/-- Every gate has its frame still, with the same total. -/
def Frames.KeepsGates (frames frames' : List Frame) : Prop :=
  ∀ f ∈ frames, f.kind = .gate →
    ∃ f' ∈ frames', f'.step = f.step ∧ f'.kind = .gate ∧ f'.total = f.total

theorem Frames.keepsGates_of_subset {frames frames' : List Frame} (h : ∀ f ∈ frames, f ∈ frames') :
    KeepsGates frames frames' :=
  fun f hf hk => ⟨f, h f hf, rfl, hk, rfl⟩

theorem Frames.KeepsGates.refl (frames : List Frame) : KeepsGates frames frames :=
  keepsGates_of_subset fun _ hf => hf

namespace Frame

variable {f fresh : Frame} {config : Config} {index : Nat} {step : Step} {rest : LoopCount}
  {outer inner : List Frame}

theorem passed_again (h : f.remaining.pass? = some rest) :
    f.passed = [{ f with remaining := rest }] := by
  obtain ⟨index, kind, total, remaining, echo⟩ := f
  match remaining with
  | .infinite => cases h; rfl
  | .finite (n + 1) => cases h; rfl

theorem passed_done (h : f.remaining.pass? = none) :
    f.passed = if f.kind = .gate then [f] else [] := by
  obtain ⟨index, kind, total, remaining, echo⟩ := f
  match remaining with
  | .finite 0 => rfl

theorem keepsGates_passed (outer inner : List Frame) (f : Frame) :
    Frames.KeepsGates (outer ++ f :: inner) (outer ++ f.passed ++ inner) := by
  intro g hg hk
  rcases List.mem_append.mp hg with hg | hg
  · exact ⟨g, by simp [hg], rfl, hk, rfl⟩
  · rcases List.mem_cons.mp hg with rfl | hg
    · cases hpass : g.remaining.pass? with
      | some rest =>
        exact ⟨{ g with remaining := rest }, by simp [passed_again hpass], rfl, hk, rfl⟩
      | none => exact ⟨g, by simp [passed_done hpass, hk], rfl, hk, rfl⟩
    · exact ⟨g, by simp [hg], rfl, hk, rfl⟩

theorem step_of_opens (h : step.opens? config index = some fresh) : fresh.step = index := by
  unfold Step.opens? at h
  split at h
  · cases h; rfl
  · split at h
    · cases h
    · cases h; rfl
  · cases h

theorem ownedBy_of_opens (h : step.opens? config index = some fresh) : fresh.OwnedBy step := by
  unfold Step.opens? at h
  unfold OwnedBy
  cases hc : step.command with
  | craft count =>
    simp only [hc] at h
    cases h
    rfl
  | loop count =>
    simp only [hc] at h
    split at h
    · cases h
    · rename_i hne
      cases h
      exact (if_neg hne).symm
  | _ => simp [hc] at h

theorem OwnedBy.kind_eq {g : Frame} (hf : f.OwnedBy step) (hg : g.OwnedBy step)
    (hs : f.step = g.step) : f.kind = g.kind := by
  unfold OwnedBy at hf hg
  cases hc : step.command with
  | craft count =>
    simp only [hc] at hf hg
    rw [hf, hg]
  | loop count =>
    simp only [hc] at hf hg
    rw [hf, hg, hs]
  | _ => simp [hc] at hf

theorem OwnedBy.of_opens {frame : Frame} (h : step.opens? config index = some fresh)
    (hf : frame.OwnedBy step) (hs : frame.step = index) : frame.kind = fresh.kind :=
  hf.kind_eq (ownedBy_of_opens h) (hs.trans (step_of_opens h).symm)

theorem kind_of_opens (h : step.opens? config index = some fresh) : fresh.kind ≠ .header := by
  unfold Step.opens? at h
  split at h
  · cases h; simp
  · split at h
    · cases h
    · cases h; simp
  · cases h

theorem bounded_of_opens (h : step.opens? config index = some fresh) {n : Nat}
    (hn : fresh.remaining = .finite n) : ∃ m, fresh.total = .finite m ∧ n ≤ m := by
  unfold Step.opens? at h
  split at h
  · cases h
    cases hn
    exact ⟨_, rfl, Nat.le_refl _⟩
  · split at h
    · cases h
    · rename_i count _ _
      cases h
      dsimp only at hn ⊢
      split at hn
      · cases count with
        | infinite => cases hn
        | finite m =>
          rw [LoopCount.pred_finite] at hn
          cases hn
          exact ⟨m, rfl, Nat.sub_le m 1⟩
      · exact ⟨n, hn, Nat.le_refl n⟩
  · cases h

theorem header_of_ownedBy (h : f.OwnedBy step) (hk : f.kind = .header) : f.step = 0 := by
  unfold OwnedBy at h
  rw [hk] at h
  split at h
  · cases h
  · by_contra hne
    rw [if_neg hne] at h
    cases h
  · exact h.elim

end Frame

namespace Routine.Stacked

variable {config : Config} {routine : Routine} {cursor target : Nat}
  {frames frames' outer inner : List Frame} {frame fresh : Frame} {step : Step} {count : LoopCount}

theorem nil : routine.Stacked cursor [] :=
  ⟨.nil, .nil, fun _ hf => (nomatch hf), fun _ hf => (nomatch hf), fun _ hf => (nomatch hf)⟩

theorem goto (h : routine.Stacked cursor frames)
    (hahead : ∀ f ∈ frames, f.kind = .loop → target ≤ f.step) : routine.Stacked target frames :=
  { h with ahead := hahead }

theorem begin (h : routine.Stacked cursor frames) : routine.Stacked 0 frames :=
  h.goto fun _ _ _ => Nat.zero_le _

/-- A caller is on its step still when the frames are in order for the one after it. -/
theorem before (h : routine.Stacked (cursor + 1) frames) : routine.Stacked cursor frames :=
  h.goto fun f hf hk => Nat.le_of_succ_le (h.ahead f hf hk)

theorem sublist (h : routine.Stacked cursor frames) (hsub : frames'.Sublist frames) :
    routine.Stacked cursor frames' where
  distinct := h.distinct.sublist hsub
  nested := h.nested.sublist hsub
  owned f hf := h.owned f (hsub.mem hf)
  ahead f hf := h.ahead f (hsub.mem hf)
  bounded f hf := h.bounded f (hsub.mem hf)

theorem ownedBy (h : routine.Stacked cursor frames) (hget : routine.get? target = some step)
    (hf : frame ∈ frames) (hs : frame.step = target) : frame.OwnedBy step := by
  obtain ⟨step', hget', howned⟩ := h.owned frame hf
  rw [hs] at hget'
  obtain rfl := Option.some.inj (hget'.symm.trans hget)
  exact howned

theorem push (h : routine.Stacked cursor frames) (hne : ∀ f ∈ frames, f.step ≠ fresh.step)
    (hloop : fresh.kind = .loop → fresh.step = cursor)
    (howned : ∃ step, routine.get? fresh.step = some step ∧ fresh.OwnedBy step)
    (hbounded : ∀ n, fresh.remaining = .finite n → ∃ m, fresh.total = .finite m ∧ n ≤ m) :
    routine.Stacked cursor (frames ++ [fresh]) where
  distinct := List.pairwise_append.mpr
    ⟨h.distinct, List.pairwise_singleton _ _, by simpa using hne⟩
  nested := by
    refine List.pairwise_append.mpr
      ⟨h.nested, List.pairwise_singleton _ _, fun f hf g hg hk hk' => ?_⟩
    obtain rfl := List.mem_singleton.mp hg
    -- The loops that have frames are not behind the cursor, where the fresh one is.
    have hle := h.ahead f hf hk
    have hne := hne f hf
    have hstep := hloop hk'
    omega
  owned f hf := by
    rcases List.mem_append.mp hf with hf | hf
    · exact h.owned f hf
    · rwa [List.mem_singleton.mp hf]
  ahead f hf hk := by
    rcases List.mem_append.mp hf with hf | hf
    · exact h.ahead f hf hk
    · obtain rfl := List.mem_singleton.mp hf
      exact Nat.le_of_eq (hloop hk).symm
  bounded f hf := by
    rcases List.mem_append.mp hf with hf | hf
    · exact h.bounded f hf
    · rwa [List.mem_singleton.mp hf]

/-- A count that went down is all that is other in the frames. -/
theorem recount (h : routine.Stacked cursor (outer ++ frame :: inner))
    (hcount : ∀ n, count = .finite n → ∃ m, frame.remaining = .finite m ∧ n ≤ m) :
    routine.Stacked cursor (outer ++ { frame with remaining := count } :: inner) := by
  have hmem : ∀ f ∈ outer ++ { frame with remaining := count } :: inner,
      f ∈ outer ++ frame :: inner ∨ f = { frame with remaining := count } := by
    intro f hf
    rcases List.mem_append.mp hf with hf | hf
    · exact .inl (List.mem_append_left _ hf)
    · rcases List.mem_cons.mp hf with rfl | hf
      · exact .inr rfl
      · exact .inl (List.mem_append_right _ (.tail _ hf))
  have hframe : frame ∈ outer ++ frame :: inner := List.mem_append_right _ (.head _)
  constructor
  · have hdistinct := h.distinct
    rw [List.pairwise_append, List.pairwise_cons] at hdistinct ⊢
    simpa using hdistinct
  · have hnested := h.nested
    rw [List.pairwise_append, List.pairwise_cons] at hnested ⊢
    simpa using hnested
  · intro f hf
    rcases hmem f hf with hf | rfl
    · exact h.owned f hf
    · exact h.owned frame hframe
  · intro f hf
    rcases hmem f hf with hf | rfl
    · exact h.ahead f hf
    · exact h.ahead frame hframe
  · intro f hf
    rcases hmem f hf with hf | rfl
    · exact h.bounded f hf
    · intro n hn
      obtain ⟨m, hm, hle⟩ := hcount n hn
      obtain ⟨total, htotal, hle'⟩ := h.bounded frame hframe m hm
      exact ⟨total, htotal, Nat.le_trans hle hle'⟩

theorem passed (h : routine.Stacked cursor (outer ++ frame :: inner)) :
    routine.Stacked cursor (outer ++ frame.passed ++ inner) := by
  cases hpass : frame.remaining.pass? with
  | some rest =>
    rw [Frame.passed_again hpass, List.append_assoc]
    refine h.recount fun n hn => ?_
    subst hn
    unfold LoopCount.pass? at hpass
    split at hpass <;> cases hpass
    exact ⟨_, ‹_›, Nat.le_succ _⟩
  | none =>
    refine h.sublist ?_
    rw [Frame.passed_done hpass, List.append_assoc]
    refine List.Sublist.append_left ?_ outer
    split
    · exact .refl _
    · exact .cons _ (.refl _)

theorem outer_ne (h : routine.Stacked cursor (outer ++ frame :: inner)) :
    ∀ f ∈ outer, f.step ≠ frame.step :=
  fun f hf => (List.pairwise_append.mp h.distinct).2.2 f hf frame (.head _)

theorem inner_ne (h : routine.Stacked cursor (outer ++ frame :: inner)) :
    ∀ f ∈ inner, f.step ≠ frame.step :=
  fun f hf => ((List.pairwise_cons.mp (List.pairwise_append.mp h.distinct).2.1).1 f hf).symm

theorem find?_eq (h : routine.Stacked cursor (outer ++ frame :: inner)) :
    ((outer ++ frame :: inner).find? fun f => f.step = frame.step) = some frame := by
  have hnone : (outer.find? fun f => f.step = frame.step) = none := by simpa using h.outer_ne
  rw [List.find?_append, hnone]
  simp

theorem setRemaining_eq (h : routine.Stacked cursor (outer ++ frame :: inner)) :
    Frames.setRemaining frame.step count (outer ++ frame :: inner) =
      outer ++ { frame with remaining := count } :: inner := by
  have happend : Frames.setRemaining frame.step count (outer ++ frame :: inner) =
      Frames.setRemaining frame.step count outer ++
        Frames.setRemaining frame.step count (frame :: inner) := List.map_append
  have hcons : Frames.setRemaining frame.step count (frame :: inner) =
      { frame with remaining := count } :: Frames.setRemaining frame.step count inner := by
    simp [Frames.setRemaining]
  rw [happend, hcons, Frames.setRemaining_of_ne h.outer_ne, Frames.setRemaining_of_ne h.inner_ne]

theorem remove_eq (h : routine.Stacked cursor (outer ++ frame :: inner)) :
    Frames.remove frame.step (outer ++ frame :: inner) = outer ++ inner := by
  unfold Frames.remove
  rw [List.eraseP_append_right _ (by simpa using h.outer_ne)]
  simp

theorem next (h : routine.Stacked cursor frames)
    (hfree : ∀ f ∈ frames, f.step = cursor → f.kind ≠ .loop) :
    routine.Stacked (cursor + 1) frames :=
  h.goto fun f hf hk => Nat.lt_of_le_of_ne (h.ahead f hf hk) fun he => hfree f hf he.symm hk

theorem meets (h : routine.Stacked cursor frames)
    (hm : routine.Meets config cursor frames outer frame inner) :
    routine.Stacked cursor (outer ++ frame :: inner) := by
  cases hm with
  | standing he => exact he ▸ h
  | header he => exact he ▸ h
  | @fresh step _ hne hget hopens =>
    have hstep := Frame.step_of_opens hopens
    exact h.push (by rwa [hstep]) (fun _ => hstep)
      ⟨step, by rwa [hstep], Frame.ownedBy_of_opens hopens⟩
      fun n hn => Frame.bounded_of_opens hopens hn

theorem enter_eq (h : routine.Stacked cursor frames) (hget : routine.get? cursor = some step)
    (hopens : step.opens? config cursor = some fresh) :
    ∃ outer frame inner, routine.Meets config cursor frames outer frame inner ∧
      Frames.enter fresh frames = outer ++ frame :: inner ∧ frame.step = cursor ∧
      frame.kind = fresh.kind := by
  have hstep := Frame.step_of_opens hopens
  by_cases hany : ∃ f ∈ frames, f.step = cursor
  · obtain ⟨frame, hf, hs⟩ := hany
    have hkind := (h.ownedBy hget hf hs).of_opens hopens hs
    have hsame : Frames.enter fresh frames = frames :=
      if_pos (List.any_eq_true.mpr ⟨frame, hf, by simp [hs, hstep]⟩)
    obtain ⟨outer, inner, rfl⟩ := List.append_of_mem hf
    exact ⟨outer, frame, inner, .standing rfl hs (hkind ▸ Frame.kind_of_opens hopens), hsame, hs,
      hkind⟩
  · have hne : ∀ f ∈ frames, f.step ≠ cursor := fun f hf hs => hany ⟨f, hf, hs⟩
    exact ⟨frames, fresh, [], .fresh hne hget hopens, Frames.enter_of_ne (hstep.symm ▸ hne), hstep,
      rfl⟩

/-- A frame with a pass left, and one less after it. -/
theorem again_of (h : routine.Stacked cursor (outer ++ frame :: inner)) {rest : LoopCount}
    (hpass : frame.remaining.pass? = some rest) (news : Option String) :
    (Crossing.mk (Frames.setRemaining frame.step rest (outer ++ frame :: inner)) true news).Of
      outer frame inner where
  frames := by simp [h.setRemaining_eq, Frame.passed_again hpass]
  again := by simp [hpass]

theorem crossGate {n : Nat} (config : Config) (h : routine.Stacked cursor frames)
    (hget : routine.get? cursor = some step) (hc : step.command = .craft n) :
    ∃ outer frame inner, routine.Meets config cursor frames outer frame inner ∧
      frame.kind = .gate ∧
      (Frames.crossGate cursor n (step.echoes config) frames).Of outer frame inner := by
  have hopens : step.opens? config cursor =
      some ⟨cursor, .gate, .finite n, .finite n, step.echoes config⟩ := by simp [Step.opens?, hc]
  obtain ⟨outer, frame, inner, hmeets, henter, rfl, hkind⟩ := h.enter_eq hget hopens
  have hstacked := h.meets hmeets
  refine ⟨outer, frame, inner, hmeets, hkind, ?_⟩
  unfold Frames.crossGate
  dsimp only
  rw [henter, hstacked.find?_eq]
  dsimp only
  cases hpass : frame.remaining.pass? with
  | some rest => exact hstacked.again_of hpass _
  | none => exact ⟨by simp [Frame.passed_done hpass, hkind], by simp [hpass]⟩

theorem crossLoop (config : Config) (h : routine.Stacked cursor frames)
    (hget : routine.get? cursor = some step) (hc : step.command = .loop count) (hpos : cursor ≠ 0) :
    ∃ outer frame inner, routine.Meets config cursor frames outer frame inner ∧
      frame.step = cursor ∧ frame.kind = .loop ∧
      (Frames.crossLoop cursor count config.loopTotal (step.echoes config) frames).Of
        outer frame inner := by
  have hopens : step.opens? config cursor =
      some ⟨cursor, .loop, count, if config.loopTotal then count.pred else count,
        step.echoes config⟩ := by simp [Step.opens?, hc, hpos]
  obtain ⟨outer, frame, inner, hmeets, henter, rfl, hkind⟩ := h.enter_eq hget hopens
  have hstacked := h.meets hmeets
  refine ⟨outer, frame, inner, hmeets, rfl, hkind, ?_⟩
  unfold Frames.crossLoop
  dsimp only
  rw [henter, hstacked.find?_eq]
  dsimp only
  cases hpass : frame.remaining.pass? with
  | some rest => exact hstacked.again_of hpass _
  | none => exact ⟨by simp [hstacked.remove_eq, Frame.passed_done hpass, hkind], by simp [hpass]⟩

theorem header_step (h : routine.Stacked cursor frames) :
    ∀ f ∈ frames, f.kind = .header → f.step = 0 := by
  intro f hf hk
  obtain ⟨step, _, howned⟩ := h.owned f hf
  exact Frame.header_of_ownedBy howned hk

theorem headers (h : routine.Stacked cursor frames) :
    (frames.filter fun f => f.kind = .header).length ≤ 1 := by
  have hpairs : (frames.filter fun f => f.kind = .header).Pairwise fun f g => f.step ≠ g.step :=
    h.distinct.sublist List.filter_sublist
  have hheader : ∀ f ∈ frames.filter fun f => f.kind = .header, f.step = 0 := by
    intro f hf
    obtain ⟨hf, hk⟩ := List.mem_filter.mp hf
    exact h.header_step f hf (by simpa using hk)
  generalize frames.filter (fun f => f.kind = .header) = headers at hpairs hheader ⊢
  match headers with
  | [] => exact Nat.zero_le 1
  | [_] => exact Nat.le_refl 1
  | f :: g :: rest =>
    have hne := (List.pairwise_cons.mp hpairs).1 g (.head _)
    exact absurd ((hheader f (.head _)).trans (hheader g (.tail _ (.head _))).symm) hne

theorem crossEnd {crossing : Crossing} (h : routine.Stacked cursor frames)
    (hc : Frames.crossEnd frames = some crossing) :
    ∃ outer frame inner, frames = outer ++ frame :: inner ∧ frame.kind = .header ∧
      crossing.Of outer frame inner := by
  obtain ⟨frame, hheader, rfl⟩ := Option.map_eq_some_iff.mp hc
  obtain ⟨hkind, outer, inner, rfl, hnone⟩ := List.find?_eq_some_iff_append.mp hheader
  have hkind : frame.kind = .header := by simpa using hkind
  have hnone : ∀ f ∈ outer, f.kind ≠ .header := by simpa using hnone
  refine ⟨outer, frame, inner, rfl, hkind, ?_⟩
  dsimp only
  cases hpass : frame.remaining.pass? with
  | some rest => exact h.again_of hpass _
  | none =>
    refine ⟨?_, by simp [hpass]⟩
    dsimp only
    rw [List.eraseP_append_right _ (by simpa using hnone)]
    simp [Frame.passed_done hpass, hkind]

theorem enterHeader (h : routine.Stacked 0 frames) (hget : routine.get? 0 = some step)
    (hc : step.command = .loop count) (echo : Bool) :
    routine.Stacked 0 (Frames.enterHeader count echo frames) ∧
      Frames.KeepsGates frames (Frames.enterHeader count echo frames) := by
  unfold Frames.enterHeader
  split
  · exact ⟨h, .refl _⟩
  · rename_i hnone
    refine ⟨h.push (fun f hf hs => ?_) (fun hk => by cases hk)
      ⟨step, hget, by simp [Frame.OwnedBy, hc]⟩ fun n hn => ?_,
      Frames.keepsGates_of_subset fun f hf => List.mem_append_left _ hf⟩
    · have hkind : f.kind = .header := by
        simpa [Frame.OwnedBy, hc, hs] using h.ownedBy hget hf hs
      exact hnone (List.find?_isSome.mpr ⟨f, hf, by simpa using hkind⟩)
    · cases count with
      | infinite => cases hn
      | finite m =>
        have hn : (LoopCount.finite m).pred = .finite n := hn
        rw [LoopCount.pred_finite] at hn
        cases hn
        exact ⟨m, rfl, Nat.sub_le m 1⟩

/-- No loop has a frame on a step that is none, or on the first step. -/
theorem free (h : routine.Stacked cursor frames) (hget : routine.get? cursor = some step)
    (hc : ∀ count, step.command = .loop count → cursor = 0) :
    ∀ f ∈ frames, f.step = cursor → f.kind ≠ .loop := by
  intro f hf hs hk
  have howned := h.ownedBy hget hf hs
  unfold Frame.OwnedBy at howned
  cases hcommand : step.command with
  | craft count => simp [hcommand, hk] at howned
  | loop count => simp [hcommand, hk, hs, hc count hcommand] at howned
  | _ => simp [hcommand] at howned

end Routine.Stacked

theorem Routine.Meets.keepsGates {config : Config} {routine : Routine} {cursor : Nat}
    {frames outer inner : List Frame} {frame : Frame}
    (h : routine.Meets config cursor frames outer frame inner) :
    Frames.KeepsGates frames (outer ++ frame.passed ++ inner) := by
  cases h with
  | standing he => exact he ▸ Frame.keepsGates_passed outer inner frame
  | header he => exact he ▸ Frame.keepsGates_passed outer inner frame
  | fresh => exact Frames.keepsGates_of_subset fun f hf => by simp [hf]

end MacroEngine
