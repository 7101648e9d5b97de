import MacroEngine.Proofs.Completion

/-! A gate only ends the macro. The frames of gates lie among those of loops, but no loop touches
them and they steer no loop: without them the loops cross alike. What a gate has left is its count
less the times that the trail has come by. -/
namespace MacroEngine
namespace Frames

def ungated (frames : List Frame) : List Frame := frames.filter fun f => f.kind ≠ .gate

variable {frames : List Frame} {step : Nat}

theorem filter_eraseP (p q : Frame → Bool) (frames : List Frame) (h : ∀ f ∈ frames, p f → q f) :
    (frames.eraseP p).filter q = (frames.filter q).eraseP p := by
  induction frames with
  | nil => rfl
  | cons f frames ih =>
    have ih := ih fun g hg => h g (List.mem_cons_of_mem f hg)
    by_cases hp : p f
    · simp [hp, h f List.mem_cons_self hp]
    · by_cases hq : q f
      · simp [hp, hq, ih]
      · simp [hp, hq, ih]

theorem find?_filter_of (p q : Frame → Bool) (frames : List Frame) (h : ∀ f ∈ frames, p f → q f) :
    (frames.filter q).find? p = frames.find? p := by
  induction frames with
  | nil => rfl
  | cons f frames ih =>
    have ih := ih fun g hg => h g (List.mem_cons_of_mem f hg)
    by_cases hq : q f
    · simp [hq, List.find?_cons, ih]
    · have hp : p f = false := by
        by_contra hp
        exact hq (h f List.mem_cons_self (by simpa using hp))
      simp [hq, hp, ih]

theorem ungated_setRemaining (count : LoopCount) (frames : List Frame) :
    ungated (setRemaining step count frames) = setRemaining step count (ungated frames) := by
  unfold ungated setRemaining
  rw [List.filter_map]
  congr 1
  refine List.filter_congr fun f _ => ?_
  simp only [Function.comp]
  split <;> rfl

def Loops (step : Nat) (frames : List Frame) : Prop := ∀ f ∈ frames, f.step = step → f.kind ≠ .gate

theorem ungated_enter (h : Loops step frames) {fresh : Frame} (hs : fresh.step = step)
    (hk : fresh.kind ≠ .gate) : ungated (enter fresh frames) = enter fresh (ungated frames) := by
  have hany : ((ungated frames).any fun f => f.step = fresh.step) =
      frames.any fun f => f.step = fresh.step := by
    rw [Bool.eq_iff_iff]
    simp only [List.any_eq_true, ungated, List.mem_filter, decide_eq_true_eq]
    constructor
    · rintro ⟨f, ⟨hm, _⟩, hf⟩
      exact ⟨f, hm, hf⟩
    · rintro ⟨f, hm, hf⟩
      exact ⟨f, ⟨hm, h f hm (hf.trans hs)⟩, hf⟩
  unfold enter
  rw [hany]
  split
  · rfl
  · simp [ungated, hk]

theorem mem_enter {fresh f : Frame} (h : f ∈ enter fresh frames) : f ∈ frames ∨ f = fresh := by
  unfold enter at h
  split at h
  · exact .inl h
  · simpa using h

theorem Loops.enter (h : Loops step frames) {fresh : Frame} (hk : fresh.kind ≠ .gate) :
    Loops step (enter fresh frames) := by
  intro f hf hs
  rcases mem_enter hf with hf | rfl
  · exact h f hf hs
  · exact hk

theorem find?_ungated (h : Loops step frames) :
    ((ungated frames).find? fun f => f.step = step) = frames.find? fun f => f.step = step :=
  find?_filter_of _ _ frames fun f hf hs => by simpa using h f hf (by simpa using hs)

theorem ungated_remove (h : Loops step frames) :
    ungated (remove step frames) = remove step (ungated frames) :=
  filter_eraseP _ _ frames fun f hf hs => by simpa using h f hf (by simpa using hs)

theorem crossLoop_ungated (h : Loops step frames) (count : LoopCount) (total echo : Bool) :
    crossLoop step count total echo (ungated frames) =
      let crossing := crossLoop step count total echo frames
      { crossing with frames := ungated crossing.frames } := by
  have hloops : Loops step
      (Frames.enter ⟨step, .loop, count, if total then count.pred else count, echo⟩ frames) :=
    h.enter (by simp)
  unfold crossLoop
  dsimp only
  rw [← ungated_enter h rfl (by simp), find?_ungated hloops]
  split
  · rfl
  · split
    · rw [ungated_setRemaining]
    · rw [ungated_remove hloops]

theorem header?_ungated (frames : List Frame) : header? (ungated frames) = header? frames :=
  find?_filter_of _ _ frames fun f _ hk => by simp_all

theorem enterHeader_ungated (count : LoopCount) (echo : Bool) (frames : List Frame) :
    enterHeader count echo (ungated frames) = ungated (enterHeader count echo frames) := by
  unfold enterHeader
  rw [header?_ungated]
  split
  · rfl
  · simp [ungated]

theorem crossEnd_ungated (frames : List Frame) :
    crossEnd (ungated frames) =
      (crossEnd frames).map fun crossing =>
        { crossing with frames := ungated crossing.frames } := by
  unfold crossEnd
  rw [header?_ungated, Option.map_map]
  congr 1
  funext frame
  simp only [Function.comp]
  split
  · rw [ungated_setRemaining]
  · have herase : ungated (frames.eraseP fun f => f.kind = .header) =
        (ungated frames).eraseP fun f => f.kind = .header :=
      filter_eraseP _ _ frames fun f _ hk => by simp_all
    rw [herase]

theorem ungated_crossGate (h : ∀ f ∈ frames, f.step = step → f.kind = .gate) (count : Nat)
    (echo : Bool) : ungated (crossGate step count echo frames).frames = ungated frames := by
  have henter : ungated (enter ⟨step, .gate, .finite count, .finite count, echo⟩ frames) =
      ungated frames := by
    unfold enter
    split
    · rfl
    · simp [ungated]
  have hset : ∀ left, setRemaining step left (ungated frames) = ungated frames := by
    intro left
    refine (List.map_congr_left (g := id) fun f hf => if_neg fun hs => ?_).trans (List.map_id _)
    have hm := List.mem_filter.mp hf
    simp [h f hm.1 hs] at hm
  unfold crossGate
  dsimp only
  split
  · exact henter
  · split
    · rw [ungated_setRemaining, henter, hset]
    · exact henter

/-- Only frames of one step are other ones, and these are no gates. -/
structure Steered (step : Nat) (frames frames' : List Frame) : Prop where
  old : ∀ f ∈ frames', f.step ≠ step → f ∈ frames
  kept : ∀ f ∈ frames, f.step ≠ step → f ∈ frames'
  loops : Loops step frames'

theorem Steered.refl (h : Loops step frames) : Steered step frames frames :=
  ⟨fun _ hf _ => hf, fun _ hf _ => hf, h⟩

theorem Steered.setRemaining {frames' : List Frame} (h : Steered step frames frames')
    (count : LoopCount) : Steered step frames (setRemaining step count frames') where
  old f hf hs := by
    obtain ⟨f', hf', rfl⟩ := List.mem_map.mp hf
    by_cases hs' : f'.step = step
    · rw [if_pos hs'] at hs
      exact absurd hs' hs
    · rw [if_neg hs'] at hs ⊢
      exact h.old f' hf' hs
  kept f hf hs := List.mem_map.mpr ⟨f, h.kept f hf hs, if_neg hs⟩
  loops f hf hs := by
    obtain ⟨f', hf', rfl⟩ := List.mem_map.mp hf
    by_cases hs' : f'.step = step
    · rw [if_pos hs']
      exact h.loops f' hf' hs'
    · rw [if_neg hs'] at hs
      exact absurd hs hs'

theorem Steered.eraseP {frames' : List Frame} {p : Frame → Bool} (h : Steered step frames frames')
    (hp : ∀ f ∈ frames, p f → f.step = step) : Steered step frames (frames'.eraseP p) where
  old f hf hs := h.old f (List.mem_of_mem_eraseP hf) hs
  kept f hf hs := (List.mem_eraseP_of_neg fun hpf => hs (hp f hf hpf)).mpr (h.kept f hf hs)
  loops f hf hs := h.loops f (List.mem_of_mem_eraseP hf) hs

theorem Steered.append {fresh : Frame} (h : Loops step frames) (hs : fresh.step = step)
    (hk : fresh.kind ≠ .gate) : Steered step frames (frames ++ [fresh]) where
  old f hf hne := by
    rcases List.mem_append.mp hf with hf | hf
    · exact hf
    · rw [List.mem_singleton.mp hf] at hne
      exact absurd hs hne
  kept f hf _ := List.mem_append_left _ hf
  loops f hf hs := by
    rcases List.mem_append.mp hf with hf | hf
    · exact h f hf hs
    · rwa [List.mem_singleton.mp hf]

theorem Steered.enter {fresh : Frame} (h : Loops step frames) (hs : fresh.step = step)
    (hk : fresh.kind ≠ .gate) : Steered step frames (enter fresh frames) := by
  unfold Frames.enter
  split
  · exact .refl h
  · exact .append h hs hk

theorem Steered.crossLoop (h : Loops step frames) (count : LoopCount) (total echo : Bool) :
    Steered step frames (crossLoop step count total echo frames).frames := by
  have henter : Steered step frames
      (Frames.enter ⟨step, .loop, count, if total then count.pred else count, echo⟩ frames) :=
    .enter h rfl (by simp)
  unfold Frames.crossLoop
  dsimp only
  split
  · exact henter
  · split
    · exact henter.setRemaining _
    · exact henter.eraseP fun f _ hs => by simpa using hs

theorem Steered.enterHeader (h : Loops 0 frames) (count : LoopCount) (echo : Bool) :
    Steered 0 frames (enterHeader count echo frames) := by
  unfold Frames.enterHeader
  split
  · exact .refl h
  · exact .append h rfl (by simp)

end Frames

def Routine.gate? (routine : Routine) (index : Nat) : Option Nat :=
  match (routine.get? index).map Step.command with
  | some (.craft count) => some count
  | _ => none

/-- Another time at this index finds the gate closed. -/
def Routine.closes (routine : Routine) (trail : List Nat) (index : Nat) : Bool :=
  (routine.gate? index).any fun count => count ≤ trail.count index

/-- The rest of a trail up to the first gate that is closed, after what was `seen`. -/
def Routine.cutFrom (routine : Routine) (seen : List Nat) : List Nat → List Nat
  | [] => []
  | index :: rest =>
    if routine.closes seen index then [index]
    else index :: routine.cutFrom (seen ++ [index]) rest

/-- A trail up to the first time that a gate is executed once more than its count. -/
def Routine.cut (routine : Routine) (trail : List Nat) : List Nat := routine.cutFrom [] trail

/-- A gate that only passes to the next step; its wait is all that it does. -/
def Step.opened (step : Step) : Step :=
  match step.command with
  | .craft _ => { step with command := .wait (step.modifiers.wait.getD .zero), modifiers := {} }
  | _ => step

def Routine.opened (routine : Routine) : Routine := ⟨routine.steps.map Step.opened⟩

/-- No gate of a trail was executed more often than its count. -/
def Routine.Open (routine : Routine) (trail : List Nat) : Prop :=
  ∀ index count, routine.gate? index = some count → trail.count index ≤ count

namespace Routine

variable {routine : Routine} {trail seen : List Nat} {index : Nat}

theorem Open.of_append (more : List Nat) (h : routine.Open (trail ++ more)) : routine.Open trail :=
  fun index count hg => Nat.le_trans (by simp) (h index count hg)

theorem Open.not_closes (h : routine.Open (trail ++ [index])) :
    routine.closes trail index = false := by
  unfold closes
  cases hg : routine.gate? index with
  | none => rfl
  | some count =>
    have hcount := h index count hg
    rw [List.count_append, List.count_singleton_self] at hcount
    simp only [Option.any_some, decide_eq_false_iff_not]
    omega

theorem Open.append (h : routine.Open trail) (hc : routine.closes trail index = false) :
    routine.Open (trail ++ [index]) := by
  intro other count hg
  by_cases hi : index = other
  · subst hi
    have hlt : trail.count index < count := by simpa [closes, hg] using hc
    rw [List.count_append, List.count_singleton_self]
    exact hlt
  · have hcount := h other count hg
    simpa [List.count_cons, hi] using hcount

theorem cutFrom_append (xs : List Nat) : ∀ seen : List Nat, routine.Open (seen ++ xs) →
    ∀ ys, routine.cutFrom seen (xs ++ ys) = xs ++ routine.cutFrom (seen ++ xs) ys := by
  induction xs with
  | nil => simp
  | cons x xs ih =>
    intro seen h ys
    have hx : routine.closes seen x = false := by
      refine Open.not_closes (Open.of_append xs ?_)
      simpa using h
    have hrest := ih (seen ++ [x]) (by simpa using h) ys
    simp [cutFrom, hx, hrest]

theorem cut_of_open (h : routine.Open trail) : routine.cut trail = trail := by
  have hall := cutFrom_append trail [] h []
  simpa [cut, cutFrom] using hall

/-- Whatever comes after the first gate that is closed is cut off. -/
theorem cut_of_closes (h : routine.Open trail) (hc : routine.closes trail index = true)
    (more : List Nat) : routine.cut (trail ++ index :: more) = trail ++ [index] := by
  have hall := cutFrom_append trail [] h (index :: more)
  simpa [cut, cutFrom, hc] using hall

theorem get?_opened (routine : Routine) (index : Nat) :
    routine.opened.get? index = (routine.get? index).map Step.opened :=
  List.getElem?_map ..

/-- The frames of gates are those of the steps that are gates, and what one has left is its count
less the times that the trail has come by. -/
structure Counted (routine : Routine) (trail : List Nat) (frames : List Frame) : Prop where
  fits : ∀ f ∈ frames, f.kind = .gate ↔ (routine.gate? f.step).isSome
  remaining : ∀ index count, routine.gate? index = some count →
    ∀ f ∈ frames, f.step = index → f.remaining = .finite (count - trail.count index)
  present : ∀ index count, routine.gate? index = some count → 0 < trail.count index →
    ∃ f ∈ frames, f.step = index

variable {frames frames' : List Frame} {count : Nat}

theorem Counted.loops (h : routine.Counted trail frames) (hg : routine.gate? index = none) :
    Frames.Loops index frames := by
  intro f hf hs hk
  have hfits := (h.fits f hf).mp hk
  rw [hs, hg] at hfits
  cases hfits

theorem Counted.steered (h : routine.Counted trail frames) (hg : routine.gate? index = none)
    (hs : Frames.Steered index frames frames') : routine.Counted trail frames' where
  fits f hf := by
    by_cases hi : f.step = index
    · simp [hi, hg, hs.loops f hf hi]
    · exact h.fits f (hs.old f hf hi)
  remaining other count ho f hf hstep := by
    have hne : other ≠ index := by
      rintro rfl
      rw [hg] at ho
      cases ho
    exact h.remaining other count ho f (hs.old f hf (hstep ▸ hne)) hstep
  present other count ho hpos := by
    obtain ⟨f, hf, hstep⟩ := h.present other count ho hpos
    have hne : other ≠ index := by
      rintro rfl
      rw [hg] at ho
      cases ho
    exact ⟨f, hs.kept f hf (hstep ▸ hne), hstep⟩

theorem Counted.passed (h : routine.Counted trail frames) (hg : routine.gate? index = none) :
    routine.Counted (trail ++ [index]) frames := by
  have hsame : ∀ other count, routine.gate? other = some count →
      (trail ++ [index]).count other = trail.count other := by
    intro other count ho
    have hne : index ≠ other := by
      rintro rfl
      rw [hg] at ho
      cases ho
    simp [hne]
  refine ⟨h.fits, fun other count ho => ?_, fun other count ho => ?_⟩
  · rw [hsame other count ho]
    exact h.remaining other count ho
  · rw [hsame other count ho]
    exact h.present other count ho

theorem Counted.enter (h : routine.Counted trail frames) (hg : routine.gate? index = some count)
    (echo : Bool) : routine.Counted trail
      (Frames.enter ⟨index, .gate, .finite count, .finite count, echo⟩ frames) := by
  by_cases hany : (frames.any fun f => f.step = index) = true
  · rwa [Frames.enter, if_pos hany]
  · have hnone : ∀ f ∈ frames, f.step ≠ index := by simpa using hany
    have hzero : trail.count index = 0 := by
      by_contra hpos
      obtain ⟨f, hf, hs⟩ := h.present index count hg (Nat.pos_of_ne_zero hpos)
      exact hnone f hf hs
    rw [Frames.enter, if_neg hany]
    refine ⟨fun f hf => ?_, fun other c ho f hf hs => ?_, fun other c ho hpos => ?_⟩
    · rcases List.mem_append.mp hf with hf | hf
      · exact h.fits f hf
      · simp [List.mem_singleton.mp hf, hg]
    · rcases List.mem_append.mp hf with hf | hf
      · exact h.remaining other c ho f hf hs
      · rw [List.mem_singleton.mp hf] at hs ⊢
        dsimp only at hs
        subst hs
        rw [hg] at ho
        cases ho
        rw [hzero, Nat.sub_zero]
    · obtain ⟨f, hf, hs⟩ := h.present other c ho hpos
      exact ⟨f, List.mem_append_left _ hf, hs⟩

theorem Counted.setRemaining (h : routine.Counted trail frames)
    (hg : routine.gate? index = some count) (hm : ∃ f ∈ frames, f.step = index) :
    routine.Counted (trail ++ [index])
      (Frames.setRemaining index (.finite (count - (trail.count index + 1))) frames) := by
  have hsteps : ∀ f ∈ Frames.setRemaining index (.finite (count - (trail.count index + 1))) frames,
      ∃ g ∈ frames, g.step = f.step ∧ g.kind = f.kind ∧
        f.remaining = if g.step = index then .finite (count - (trail.count index + 1))
          else g.remaining := by
    intro f hf
    obtain ⟨g, hg, rfl⟩ := List.mem_map.mp hf
    refine ⟨g, hg, ?_⟩
    split <;> simp
  refine ⟨fun f hf => ?_, fun other c ho f hf hs => ?_, fun other c ho hpos => ?_⟩
  · obtain ⟨g, hm, hstep, hkind, _⟩ := hsteps f hf
    rw [← hkind, ← hstep]
    exact h.fits g hm
  · obtain ⟨g, hm, hstep, _, hrem⟩ := hsteps f hf
    rw [hrem]
    by_cases hi : g.step = index
    · rw [if_pos hi]
      have ho' : other = index := hs.symm.trans (hstep.symm.trans hi)
      subst ho'
      rw [hg] at ho
      cases ho
      rw [List.count_append, List.count_singleton_self]
    · rw [if_neg hi, h.remaining other c ho g hm (hstep.trans hs)]
      have hne : index ≠ other := fun he => hi (hstep.trans (hs.trans he.symm))
      simp [hne]
  · have hmem : ∃ f ∈ frames, f.step = other := by
      by_cases hi : index = other
      · exact hi ▸ hm
      · exact h.present other c ho (by simpa [hi] using hpos)
    obtain ⟨f, hf, hs⟩ := hmem
    refine ⟨_, List.mem_map.mpr ⟨f, hf, rfl⟩, ?_⟩
    split
    · exact hs
    · exact hs

/-- A gate lets its count of passes through, and then is closed. -/
theorem Counted.crossGate (h : routine.Counted trail frames) (hg : routine.gate? index = some count)
    (echo : Bool) :
    (Frames.crossGate index count echo frames).again = !routine.closes trail index ∧
      (routine.closes trail index = false →
        routine.Counted (trail ++ [index]) (Frames.crossGate index count echo frames).frames) := by
  have henter := h.enter hg echo
  have hmem : ∃ f ∈ Frames.enter ⟨index, .gate, .finite count, .finite count, echo⟩ frames,
      f.step = index := by
    unfold Frames.enter
    split
    · rename_i hany
      simpa using hany
    · exact ⟨_, List.mem_append_right _ (List.mem_singleton_self _), rfl⟩
  have hcloses : routine.closes trail index = decide (count ≤ trail.count index) := by
    simp [closes, hg]
  unfold Frames.crossGate
  dsimp only
  split
  · rename_i hnone
    obtain ⟨f, hf, hs⟩ := hmem
    have hno := List.find?_eq_none.mp hnone f hf
    simp [hs] at hno
  · rename_i frame hfind
    have hrem := henter.remaining index count hg frame (List.mem_of_find?_eq_some hfind)
      (by simpa using List.find?_some hfind)
    rw [hrem, hcloses]
    cases hleft : count - trail.count index with
    | zero =>
      have hle : count ≤ trail.count index := Nat.sub_eq_zero_iff_le.mp hleft
      simp [LoopCount.pass?, hle]
    | succ left =>
      have hlt : ¬ count ≤ trail.count index := by omega
      have hpred : left = count - (trail.count index + 1) := by omega
      refine ⟨by simp [LoopCount.pass?, hlt], fun _ => ?_⟩
      rw [hpred]
      exact henter.setRemaining hg hmem

theorem Counted.eraseP (h : routine.Counted trail frames) {p : Frame → Bool}
    (hp : ∀ f, p f → f.kind ≠ .gate) : routine.Counted trail (frames.eraseP p) where
  fits f hf := h.fits f (List.mem_of_mem_eraseP hf)
  remaining other c ho f hf := h.remaining other c ho f (List.mem_of_mem_eraseP hf)
  present other c ho hpos := by
    obtain ⟨f, hf, hs⟩ := h.present other c ho hpos
    refine ⟨f, (List.mem_eraseP_of_neg fun hpf => hp f hpf ?_).mpr hf, hs⟩
    exact (h.fits f hf).mpr (by simp [hs, ho])

theorem Counted.crossEnd (h : routine.Counted trail frames) {crossing : Crossing}
    (hc : Frames.crossEnd frames = some crossing) : routine.Counted trail crossing.frames := by
  obtain ⟨frame, hheader, rfl⟩ := Option.map_eq_some_iff.mp hc
  have hkind : frame.kind = .header := by simpa using List.find?_some hheader
  have hgate : routine.gate? frame.step = none := by
    have hfits := h.fits frame (List.mem_of_find?_eq_some hheader)
    rw [hkind] at hfits
    simpa using hfits
  dsimp only
  split
  · exact h.steered hgate ((Frames.Steered.refl (h.loops hgate)).setRemaining _)
  · exact h.eraseP fun f hf => by simp_all

theorem gate?_eq_some {step : Step} (hget : routine.get? index = some step)
    (hg : routine.gate? index = some count) : step.command = .craft count := by
  unfold gate? at hg
  rw [hget] at hg
  dsimp only [Option.map] at hg
  split at hg
  · rename_i hc
    cases hg
    exact Option.some.inj hc
  · cases hg

theorem gate?_eq_none {step : Step} (hget : routine.get? index = some step)
    (hg : routine.gate? index = none) (count : Nat) : step.command ≠ .craft count := by
  intro hc
  simp [gate?, hget, hc] at hg

end Routine

namespace Step

variable {step : Step} {index : Nat} {frames : List Frame}

theorem opened_of_ne (h : ∀ count, step.command ≠ .craft count) : step.opened = step := by
  unfold opened
  split
  · rename_i count hc
    exact absurd hc (h count)
  · rfl

theorem opened_gate {count : Nat} (h : step.command = .craft count) (config : Config) :
    step.opened.transit config index frames = ⟨frames, 0, .next⟩ :=
  transit_of_not_boundary (by simp [opened, h, Command.isBoundary]) config index frames

theorem transit_ungated (h : ∀ count, step.command ≠ .craft count)
    (hl : Frames.Loops index frames) (config : Config) :
    step.transit config index (Frames.ungated frames) =
      { step.transit config index frames with
        frames := Frames.ungated (step.transit config index frames).frames } := by
  unfold transit
  split
  · rename_i count hc
    exact absurd hc (h count)
  · split
    · split
      · rfl
      · rw [Frames.enterHeader_ungated]
    · rw [Frames.crossLoop_ungated hl]
  · rfl

theorem transit_steered (h : ∀ count, step.command ≠ .craft count)
    (hl : Frames.Loops index frames) (config : Config) :
    Frames.Steered index frames (step.transit config index frames).frames := by
  unfold transit
  split
  · rename_i count hc
    exact absurd hc (h count)
  · split
    · rename_i hi
      subst hi
      split
      · exact .refl hl
      · exact .enterHeader hl _ _
    · exact .crossLoop hl _ _ _
  · exact .refl hl

end Step
namespace Passage

variable {config : Config} {routine : Routine} {p q : Passage}

structure Alike (routine : Routine) (p q : Passage) : Prop where
  trail : p.trail = q.trail
  unclosed : routine.Open p.trail
  spot : p.spot.map (fun s => (s.1, Frames.ungated s.2)) = q.spot
  counted : ∀ index frames, p.spot = some (index, frames) → routine.Counted p.trail frames

/-- A gate was closed and ended the passage, while that with all gates open goes on. -/
structure Closed (routine : Routine) (p q : Passage) : Prop where
  ended : p.spot = none
  trails : ∃ trail index more, routine.Open trail ∧ routine.closes trail index = true ∧
    p.trail = trail ++ [index] ∧ q.trail = trail ++ index :: more

theorem alike_start (routine : Routine) : Alike routine start start where
  trail := rfl
  unclosed := fun _ _ _ => Nat.zero_le _
  spot := rfl
  counted := by
    rintro _ _ ⟨⟩
    exact ⟨by simp, by simp, by simp [start]⟩

theorem next_trail (config : Config) (routine : Routine) (p : Passage) :
    ∃ more, (p.next config routine).trail = p.trail ++ more := by
  unfold next
  split
  · exact ⟨[], by simp⟩
  · split
    · exact ⟨_, rfl⟩
    · split
      · exact ⟨[], by simp⟩
      · exact ⟨[], by simp⟩

theorem Alike.spot_opened (h : Alike routine p q) (hp : p.spot = some (index, frames)) :
    q.spot = some (index, Frames.ungated frames) := by
  rw [← h.spot, hp]
  rfl

theorem Alike.next_end (h : Alike routine p q) (hp : p.spot = some (index, frames))
    (hget : routine.get? index = none) :
    Alike routine (p.next config routine) (q.next config routine.opened) := by
  have hq := h.spot_opened hp
  have hcounted := h.counted index frames hp
  have hgetq : routine.opened.get? index = none := by
    rw [Routine.get?_opened, hget]
    rfl
  cases hcross : Frames.crossEnd frames with
  | none =>
    have hcrossq : Frames.crossEnd (Frames.ungated frames) = none := by
      rw [Frames.crossEnd_ungated, hcross]
      rfl
    rw [Passage.next_end hp hget hcross, Passage.next_end hq hgetq hcrossq]
    exact ⟨h.trail, h.unclosed, rfl, by simp⟩
  | some crossing =>
    have hcrossq : Frames.crossEnd (Frames.ungated frames) =
        some { crossing with frames := Frames.ungated crossing.frames } := by
      rw [Frames.crossEnd_ungated, hcross]
      rfl
    rw [next_crossEnd hp hget hcross, next_crossEnd hq hgetq hcrossq]
    have hafter := hcounted.crossEnd hcross
    by_cases hagain : crossing.again
    · refine ⟨h.trail, h.unclosed, by simp [hagain], fun i fr hs => ?_⟩
      simp only [hagain, if_true, Option.some.injEq, Prod.mk.injEq] at hs
      exact hs.2 ▸ hafter
    · exact ⟨h.trail, h.unclosed, by simp [hagain], by simp [hagain]⟩

theorem Alike.next_plain (h : Alike routine p q) (hp : p.spot = some (index, frames)) {step : Step}
    (hget : routine.get? index = some step) (hg : routine.gate? index = none) :
    Alike routine (p.next config routine) (q.next config routine.opened) := by
  have hcounted := h.counted index frames hp
  have hgetq : routine.opened.get? index = some step.opened := by
    rw [Routine.get?_opened, hget]
    rfl
  rw [next_step hp hget, next_step (h.spot_opened hp) hgetq]
  have hne := Routine.gate?_eq_none hget hg
  have hloops := hcounted.loops hg
  have hopen : routine.closes p.trail index = false := by simp [Routine.closes, hg]
  rw [Step.opened_of_ne hne, Step.transit_ungated hne hloops]
  refine ⟨by rw [h.trail], h.unclosed.append hopen, ?_, fun i fr hs => ?_⟩
  · simp [Function.comp_def]
  · obtain ⟨_, _, he⟩ := Option.map_eq_some_iff.mp hs
    cases he
    exact (hcounted.steered hg (Step.transit_steered hne hloops config)).passed hg

theorem Alike.next_gate (h : Alike routine p q) (hp : p.spot = some (index, frames)) {step : Step}
    (hget : routine.get? index = some step) {count : Nat} (hg : routine.gate? index = some count) :
    Alike routine (p.next config routine) (q.next config routine.opened) ∨
      Closed routine (p.next config routine) (q.next config routine.opened) := by
  have hcounted := h.counted index frames hp
  have hgetq : routine.opened.get? index = some step.opened := by
    rw [Routine.get?_opened, hget]
    rfl
  rw [next_step hp hget, next_step (h.spot_opened hp) hgetq]
  have hc := Routine.gate?_eq_some hget hg
  have hkind : ∀ f ∈ frames, f.step = index → f.kind = .gate :=
    fun f hf hs => (hcounted.fits f hf).mpr (by simp [hs, hg])
  obtain ⟨hagain, hnext⟩ := hcounted.crossGate hg (step.echoes config)
  have htransit : step.transit config index frames =
      let crossing := Frames.crossGate index count (step.echoes config) frames
      ⟨crossing.frames, 1, if crossing.again then .next else .finish⟩ := by
    simp [Step.transit, hc]
  rw [htransit, Step.opened_gate hc]
  cases hcl : routine.closes p.trail index with
  | false =>
    rw [hcl] at hagain
    refine .inl ⟨by rw [h.trail], h.unclosed.append hcl, ?_, fun i fr hs => ?_⟩
    · simp [hagain, target, Frames.ungated_crossGate hkind]
    · simp only [hagain, Bool.not_false, if_true, target, Option.map_some, Option.some.injEq,
        Prod.mk.injEq] at hs
      exact hs.2 ▸ hnext hcl
  | true =>
    rw [hcl] at hagain
    exact .inr ⟨by simp [hagain, target], p.trail, index, [], h.unclosed, hcl, rfl, by rw [h.trail]⟩

/-- Until a gate is closed, the two go on step by step. -/
theorem Alike.next (h : Alike routine p q) :
    Alike routine (p.next config routine) (q.next config routine.opened) ∨
      Closed routine (p.next config routine) (q.next config routine.opened) := by
  cases hp : p.spot with
  | none =>
    have hq : q.spot = none := by
      rw [← h.spot, hp]
      rfl
    rw [next_of_over hp, next_of_over hq]
    exact .inl h
  | some spot =>
    obtain ⟨index, frames⟩ := spot
    cases hget : routine.get? index with
    | none => exact .inl (h.next_end hp hget)
    | some step =>
      cases hg : routine.gate? index with
      | none => exact .inl (h.next_plain hp hget hg)
      | some count => exact h.next_gate hp hget hg

theorem Closed.next (h : Closed routine p q) :
    Closed routine (p.next config routine) (q.next config routine.opened) := by
  rw [next_of_over h.ended]
  obtain ⟨trail, index, more, hopen, hcloses, hp, hq⟩ := h.trails
  obtain ⟨more', hmore⟩ := next_trail config routine.opened q
  exact ⟨h.ended, trail, index, more ++ more', hopen, hcloses, hp, by simp [hmore, hq]⟩

theorem alike_or_closed (config : Config) (routine : Routine) (m : Nat) :
    Alike routine (after config routine m) (after config routine.opened m) ∨
      Closed routine (after config routine m) (after config routine.opened m) := by
  induction m with
  | zero => exact .inl (alike_start routine)
  | succ m ih =>
    rw [after_succ, after_succ]
    rcases ih with h | h
    · exact h.next
    · exact .inr h.next

/-- The trail of a macro is that with all gates open, cut where a gate is closed. -/
theorem trail_eq_cut (config : Config) (routine : Routine) (m : Nat) :
    (after config routine m).trail = routine.cut (after config routine.opened m).trail := by
  rcases alike_or_closed config routine m with h | h
  · rw [← h.trail, Routine.cut_of_open h.unclosed]
  · obtain ⟨trail, index, more, hopen, hcloses, hp, hq⟩ := h.trails
    rw [hp, hq, Routine.cut_of_closes hopen hcloses]

/-- A macro is over when it is with all gates open, or when a gate is closed. -/
theorem spot_eq_none (config : Config) (routine : Routine) (m : Nat) :
    (after config routine m).spot = none ↔ (after config routine.opened m).spot = none ∨
      ¬ routine.Open (after config routine.opened m).trail := by
  rcases alike_or_closed config routine m with h | h
  · rw [← h.spot, ← h.trail]
    simp [h.unclosed]
  · obtain ⟨trail, index, more, hopen, hcloses, hp, hq⟩ := h.trails
    have hclosed : ¬ routine.Open (after config routine.opened m).trail := by
      intro hall
      rw [hq, ← List.singleton_append, ← List.append_assoc] at hall
      rw [(hall.of_append more).not_closes] at hcloses
      cases hcloses
    simp [h.ended, hclosed]

end Passage

namespace Snapshot

variable {engine : Engine γ} {now : Moment} {game : γ} {name : String} {routine : Routine}

/-- Gates cut the run short and do nothing else. With all gates open, any run of the macro that
completes executes the steps of one and the same trail; with its gates the macro executes that
trail up to the first time that a gate is executed once more than its count, and then is over. -/
theorem gates_cut (h : (start now game name routine).Completes engine) :
    (∀ {γ' : Type} {engine' : Engine γ'} {now' : Moment} {game' : γ'} {name' : String},
      engine'.rules.config = engine.rules.config →
      (start now' game' name' routine.opened).Completes engine' → ∀ steps,
        (∃ n, completedSteps name'
          ((start now' game' name' routine.opened).after engine' n).run.fiber.journal = steps) ↔
        ∃ m, steps = Passage.stepsAt routine.opened
          (Passage.after engine.rules.config routine.opened m).trail) ∧
    (∀ steps,
      (∃ n, completedSteps name
        ((start now game name routine).after engine n).run.fiber.journal = steps) ↔
      ∃ m, steps = Passage.stepsAt routine
        (routine.cut (Passage.after engine.rules.config routine.opened m).trail)) ∧
    ∀ m, (Passage.after engine.rules.config routine.opened m).spot = none ∨
        ¬ routine.Open (Passage.after engine.rules.config routine.opened m).trail →
      ∃ n ended report,
        ((start now game name routine).after engine n).run.outcome = some ⟨.ok report, ended⟩ ∧
        completedSteps name ((start now game name routine).after engine n).run.fiber.journal =
          Passage.stepsAt routine
            (routine.cut (Passage.after engine.rules.config routine.opened m).trail) := by
  refine ⟨fun hconfig h' steps => ?_, fun steps => ?_, fun m hm => ?_⟩
  · rw [← hconfig]
    exact h'.executed steps
  · rw [h.executed steps]
    exact exists_congr fun m => by rw [Passage.trail_eq_cut]
  · obtain ⟨n, hn⟩ := h.finishes ((Passage.spot_eq_none engine.rules.config routine m).mpr hm)
    obtain ⟨ended, hout⟩ := hn.outcome
    exact ⟨n, ended, _, hout, by rw [hn.tallies.completed, Passage.trail_eq_cut]⟩

def gated : Routine :=
  ⟨[⟨1, .echo "a", "a", {}⟩, ⟨2, .craft 2, "2", {}⟩, ⟨3, .loop .infinite, "", {}⟩]⟩

theorem gates_cut_gated :
    (start 0 () "m" gated).Completes (.still .empty) ∧
    ∃ n ended report,
      ((start 0 () "m" gated).after (.still .empty) n).run.outcome = some ⟨.ok report, ended⟩ ∧
      completedSteps "m" ((start 0 () "m" gated).after (.still .empty) n).run.fiber.journal =
        gated.steps ++ gated.steps ++ gated.steps.take 2 := by
  have hc : (start 0 () "m" gated).Completes (.still .empty) :=
    Completes.of_over (N := 100) (by decide +kernel) (by decide +kernel) (by decide +kernel)
  have hclosed : ¬ gated.Open (Passage.after .default gated.opened 8).trail :=
    fun hopen => absurd (hopen 1 2 rfl) (by decide)
  obtain ⟨n, ended, report, hout, hsteps⟩ := (gates_cut hc).2.2 8 (.inr hclosed)
  exact ⟨hc, n, ended, report, hout, hsteps⟩

end Snapshot
end MacroEngine
