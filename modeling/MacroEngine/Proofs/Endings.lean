import MacroEngine.Proofs.Gates
import Mathlib.Algebra.GroupWithZero.Nat
import Mathlib.Algebra.Order.BigOperators.Group.List
import Mathlib.Algebra.Order.Group.Nat
import Mathlib.Order.WellFounded

/-! The passage of a macro comes to its end if every loop without end has a gate before it. Each
move lowers a rank: what is left of the gates, then whether a gate lies behind, then what is left
of the loop on the first step, then of the other loops, the last one first, and then the way to
the end of the steps. -/
namespace MacroEngine

/-- One of the first `n` numbers gets smaller, and none after it gets larger. -/
def Lower (n : Nat) (r' r : Nat → Nat) : Prop :=
  ∃ j < n, r' j < r j ∧ ∀ i, j < i → i < n → r' i ≤ r i

/-- Induction on `n`, with the last number first. -/
theorem lower_wf (n : Nat) : WellFounded (Lower n) := by
  induction n with
  | zero => exact ⟨fun r => ⟨r, fun _ ⟨_, hj, _⟩ => absurd hj (Nat.not_lt_zero _)⟩⟩
  | succ n ih =>
    refine Subrelation.wf ?_ (InvImage.wf (fun r : Nat → Nat => (r n, r))
      (WellFounded.prod_lex Nat.lt_wfRel.wf ih))
    rintro r' r ⟨j, hj, hlt, hle⟩
    rcases Nat.lt_succ_iff_lt_or_eq.mp hj with hj | rfl
    · have hlast := hle n hj (Nat.lt_succ_self n)
      rcases Nat.lt_or_eq_of_le hlast with hlast | hlast
      · exact .left _ _ hlast
      · refine Prod.lex_def.mpr (.inr ⟨hlast, j, hj, hlt, fun i hji hi => ?_⟩)
        exact hle i hji (Nat.lt_succ_of_lt hi)
    · exact .left _ _ hlt

namespace Frames

variable {frames : List Frame} {step other : Nat} {fresh : Frame}

def left? (step : Nat) (frames : List Frame) : Option LoopCount :=
  (frames.find? fun f => f.step = step).map Frame.remaining

theorem find?_congr {p q : α → Bool} {l : List α} (h : ∀ a ∈ l, p a = q a) :
    l.find? p = l.find? q := by
  induction l with
  | nil => rfl
  | cons a l ih => simp [List.find?_cons, h a (.head _), ih fun b hb => h b (.tail _ hb)]

theorem left?_cons (f : Frame) (frames : List Frame) :
    left? step (f :: frames) = if f.step = step then some f.remaining else left? step frames := by
  unfold left?
  by_cases hf : f.step = step <;> simp [hf]

theorem left?_append (f : Frame) (frames : List Frame) :
    left? step (frames ++ [f]) =
      (left? step frames).or (if f.step = step then some f.remaining else none) := by
  induction frames with
  | nil => simp [left?]
  | cons g frames ih =>
    rw [List.cons_append, left?_cons, left?_cons, ih]
    split <;> rfl

theorem left?_eq_none (h : ∀ f ∈ frames, f.step ≠ step) : left? step frames = none := by
  simpa [left?] using h

theorem left?_isSome (h : ∃ f ∈ frames, f.step = step) : (left? step frames).isSome := by
  simpa [left?] using h

theorem left?_enter (fresh : Frame) (frames : List Frame) :
    left? fresh.step (enter fresh frames) =
      some ((left? fresh.step frames).getD fresh.remaining) := by
  unfold enter
  split
  · rename_i hany
    have hsome : (left? fresh.step frames).isSome := left?_isSome (by simpa using hany)
    obtain ⟨count, hcount⟩ := Option.isSome_iff_exists.mp hsome
    simp [hcount]
  · rename_i hany
    have hnone : left? fresh.step frames = none := left?_eq_none (by simpa using hany)
    simp [left?_append, hnone]

theorem left?_enter_of_ne (h : fresh.step ≠ step) :
    left? step (enter fresh frames) = left? step frames := by
  unfold enter
  split
  · rfl
  · simp [left?_append, h]

theorem left?_setRemaining_of_ne (h : other ≠ step) (count : LoopCount) :
    left? other (setRemaining step count frames) = left? other frames := by
  induction frames with
  | nil => rfl
  | cons f frames ih =>
    change left? other ((if f.step = step then _ else f) :: setRemaining step count frames) = _
    rw [left?_cons, left?_cons, ih]
    by_cases hf : f.step = step <;> simp [hf, Ne.symm h]

theorem left?_setRemaining (h : (left? step frames).isSome) (count : LoopCount) :
    left? step (setRemaining step count frames) = some count := by
  induction frames with
  | nil => cases h
  | cons f frames ih =>
    change left? step ((if f.step = step then _ else f) :: setRemaining step count frames) = _
    rw [left?_cons] at h ⊢
    by_cases hf : f.step = step
    · simp [hf]
    · simp only [hf, if_false] at h ⊢
      exact ih h

theorem left?_eraseP {p : Frame → Bool} (h : ∀ f ∈ frames, p f → f.step ≠ other) :
    left? other (frames.eraseP p) = left? other frames := by
  induction frames with
  | nil => rfl
  | cons f frames ih =>
    have ih := ih fun g hg => h g (.tail _ hg)
    by_cases hp : p f
    · simp [hp, left?_cons, h f (.head _) hp]
    · simp [hp, left?_cons, ih]

/-- A loop goes by what its own frame has left, and leaves the frames of other steps as they are. -/
theorem crossLoop_left (step : Nat) (count : LoopCount) (total echo : Bool) (frames : List Frame) :
    let left := (left? step frames).getD (if total then count.pred else count)
    let crossing := crossLoop step count total echo frames
    crossing.again = left.pass?.isSome ∧
      (∀ rest, left.pass? = some rest → left? step crossing.frames = some rest) ∧
      ∀ other, other ≠ step → left? other crossing.frames = left? other frames := by
  intro left crossing
  have hself := left?_enter ⟨step, .loop, count, if total then count.pred else count, echo⟩ frames
  have hother : ∀ other, other ≠ step → left? other (enter ⟨step, .loop, count,
      if total then count.pred else count, echo⟩ frames) = left? other frames :=
    fun other ho => left?_enter_of_ne (Ne.symm ho)
  obtain ⟨frame, hframe, hleft⟩ := Option.map_eq_some_iff.mp hself
  have hcrossing : crossing = crossLoop step count total echo frames := rfl
  unfold crossLoop at hcrossing
  simp only [hframe, hleft] at hcrossing
  change left? step _ = some left at hself
  cases hpass : left.pass? with
  | none =>
    have hp : (Option.getD (left? step frames) (if total then count.pred else count)).pass? =
      none := hpass
    simp only [hp] at hcrossing
    rw [hcrossing]
    refine ⟨rfl, by simp, fun other ho => ?_⟩
    refine (left?_eraseP fun f _ hf => ?_).trans (hother other ho)
    simp only [decide_eq_true_eq] at hf
    rw [hf]
    exact Ne.symm ho
  | some rest =>
    have hp : (Option.getD (left? step frames) (if total then count.pred else count)).pass? =
      some rest := hpass
    simp only [hp] at hcrossing
    rw [hcrossing]
    refine ⟨rfl, ?_, fun other ho => ?_⟩
    · rintro _ ⟨⟩
      exact left?_setRemaining (by rw [hself]; rfl) _
    · exact (left?_setRemaining_of_ne ho _).trans (hother other ho)

end Frames

def Routine.loop? (routine : Routine) (index : Nat) : Option LoopCount :=
  match (routine.get? index).map Step.command with
  | some (.loop count) => some count
  | _ => none

/-- Every loop without end has a gate before it; on the first step, any gate of the macro will do. -/
def Routine.Gated (routine : Routine) : Prop :=
  ∀ index, routine.loop? index = some .infinite →
    ∃ gate count, routine.gate? gate = some count ∧ (index ≠ 0 → gate < index)

theorem Routine.lt_of_get? {routine : Routine} {index : Nat} {step : Step}
    (hget : routine.get? index = some step) : index < routine.steps.length :=
  (List.getElem?_eq_some_iff.mp hget).1

theorem Routine.lt_of_gate? {routine : Routine} {index n : Nat}
    (hg : routine.gate? index = some n) : index < routine.steps.length := by
  cases hget : routine.get? index with
  | some step => exact lt_of_get? hget
  | none => simp [gate?, hget] at hg

theorem Routine.lt_of_loop? {routine : Routine} {index : Nat} {count : LoopCount}
    (hl : routine.loop? index = some count) : index < routine.steps.length := by
  cases hget : routine.get? index with
  | some step => exact lt_of_get? hget
  | none => simp [loop?, hget] at hl

theorem Routine.gated_iff {routine : Routine} : routine.Gated ↔
    ∀ index < routine.steps.length, routine.loop? index = some .infinite →
      ∃ gate < routine.steps.length, (routine.gate? gate).isSome ∧ (index ≠ 0 → gate < index) := by
  constructor
  · intro h index _ hl
    obtain ⟨gate, count, hg, hlt⟩ := h index hl
    exact ⟨gate, lt_of_gate? hg, by simp [hg], hlt⟩
  · intro h index hl
    obtain ⟨gate, _, hg, hlt⟩ := h index (lt_of_loop? hl) hl
    obtain ⟨count, hg⟩ := Option.isSome_iff_exists.mp hg
    exact ⟨gate, count, hg, hlt⟩

instance (routine : Routine) : Decidable routine.Gated := decidable_of_iff' _ Routine.gated_iff

theorem LoopCount.pass?_ne_infinite {count rest : LoopCount} (h : count.pass? = some rest)
    (hc : count ≠ .infinite) : rest ≠ .infinite := by
  unfold pass? at h
  split at h
  · exact absurd rfl hc
  · cases h
  · cases h
    simp

/-- What a loop with an end has to go, by what its frame has left; nothing counts down in one
without. -/
def LoopCount.weight : LoopCount → Option LoopCount → Nat
  | .infinite, _ => 0
  | .finite n, none => n + 2
  | .finite _, some (.finite left) => left + 1
  | .finite _, some .infinite => 0

/-- Another pass leaves a loop less to go. -/
theorem LoopCount.weight_lt {n : Nat} {left : Option LoopCount}
    {first rest : LoopCount} (hne : left ≠ some .infinite)
    (hfirst : first = .finite n ∨ first = .finite (n - 1))
    (h : (left.getD first).pass? = some rest) :
    (LoopCount.finite n).weight (some rest) < (LoopCount.finite n).weight left := by
  cases left with
  | none =>
    rcases hfirst with rfl | rfl
    · cases n with
      | zero => simp [LoopCount.pass?] at h
      | succ n =>
        simp only [Option.getD_none, LoopCount.pass?, Option.some.injEq] at h
        subst h
        simp [LoopCount.weight]
    · cases hn : n - 1 with
      | zero => simp [LoopCount.pass?, hn] at h
      | succ k =>
        simp only [Option.getD_none, hn, LoopCount.pass?, Option.some.injEq] at h
        subst h
        simp [LoopCount.weight]
        omega
  | some count =>
    cases count with
    | infinite => exact absurd rfl hne
    | finite left =>
      cases left with
      | zero => simp [LoopCount.pass?] at h
      | succ left =>
        simp only [Option.getD_some, LoopCount.pass?, Option.some.injEq] at h
        subst h
        simp [LoopCount.weight]

namespace Routine

/-- The header has its frame on the first step, and what is left of a loop with an end has one. -/
structure Framed (routine : Routine) (frames : List Frame) : Prop where
  header : ∀ f ∈ frames, f.kind = .header ↔ f.step = 0 ∧ (routine.loop? 0).isSome
  bounded : ∀ f ∈ frames, ∀ count, routine.loop? f.step = some (.finite count) →
    f.remaining ≠ .infinite

variable {routine : Routine} {frames : List Frame} {index : Nat} {count : LoopCount}

theorem loop?_of_command {step : Step} (hget : routine.get? index = some step)
    (hc : step.command = .loop count) : routine.loop? index = some count := by
  simp [loop?, hget, hc]

theorem Framed.append (h : routine.Framed frames) {fresh : Frame}
    (hheader : fresh.kind = .header ↔ fresh.step = 0 ∧ (routine.loop? 0).isSome)
    (hbounded : ∀ count, routine.loop? fresh.step = some (.finite count) →
      fresh.remaining ≠ .infinite) : routine.Framed (frames ++ [fresh]) where
  header f hf := by
    rcases List.mem_append.mp hf with hf | hf
    · exact h.header f hf
    · rwa [List.mem_singleton.mp hf]
  bounded f hf := by
    rcases List.mem_append.mp hf with hf | hf
    · exact h.bounded f hf
    · rwa [List.mem_singleton.mp hf]

theorem Framed.enter (h : routine.Framed frames) {fresh : Frame}
    (hheader : fresh.kind = .header ↔ fresh.step = 0 ∧ (routine.loop? 0).isSome)
    (hbounded : ∀ count, routine.loop? fresh.step = some (.finite count) →
      fresh.remaining ≠ .infinite) : routine.Framed (Frames.enter fresh frames) := by
  unfold Frames.enter
  split
  · exact h
  · exact h.append hheader hbounded

theorem Framed.setRemaining (h : routine.Framed frames) {rest : LoopCount}
    (hrest : ∀ count, routine.loop? index = some (.finite count) → rest ≠ .infinite) :
    routine.Framed (Frames.setRemaining index rest frames) where
  header f hf := by
    obtain ⟨f', hf', rfl⟩ := List.mem_map.mp hf
    split <;> exact h.header f' hf'
  bounded f hf := by
    obtain ⟨f', hf', rfl⟩ := List.mem_map.mp hf
    split
    · rename_i hs
      intro count hl
      rw [hs] at hl
      exact hrest count hl
    · exact h.bounded f' hf'

theorem Framed.eraseP (h : routine.Framed frames) (p : Frame → Bool) :
    routine.Framed (frames.eraseP p) where
  header f hf := h.header f (List.mem_of_mem_eraseP hf)
  bounded f hf := h.bounded f (List.mem_of_mem_eraseP hf)

theorem Framed.crossLoop (h : routine.Framed frames) (hi : index ≠ 0)
    (hl : routine.loop? index = some count) (total echo : Bool) :
    routine.Framed (Frames.crossLoop index count total echo frames).frames := by
  have hfirst : ∀ n, count = .finite n → (if total then count.pred else count) ≠ .infinite := by
    rintro n rfl
    cases n <;> cases total <;> simp [LoopCount.pred, LoopCount.pass?]
  have henter : routine.Framed
      (Frames.enter ⟨index, .loop, count, if total then count.pred else count, echo⟩ frames) := by
    refine h.enter (by simp [hi]) fun n hn => hfirst n ?_
    exact Option.some.inj (hl.symm.trans hn)
  unfold Frames.crossLoop
  dsimp only
  split
  · exact henter
  · rename_i frame hfind
    split
    · rename_i rest hpass
      refine henter.setRemaining fun n hn => LoopCount.pass?_ne_infinite hpass ?_
      have hstep : frame.step = index := by simpa using List.find?_some hfind
      exact henter.bounded frame (List.mem_of_find?_eq_some hfind) n (hstep ▸ hn)
    · exact henter.eraseP _

theorem Framed.crossGate (h : routine.Framed frames) (hl : routine.loop? index = none)
    (count : Nat) (echo : Bool) :
    routine.Framed (Frames.crossGate index count echo frames).frames := by
  have henter : routine.Framed
      (Frames.enter ⟨index, .gate, .finite count, .finite count, echo⟩ frames) := by
    refine h.enter (iff_of_false (by simp) ?_) fun _ _ => by simp
    rintro ⟨rfl, hsome⟩
    simp [hl] at hsome
  unfold Frames.crossGate
  dsimp only
  split
  · exact henter
  · split
    · refine henter.setRemaining fun n hn => ?_
      rw [hl] at hn
      cases hn
    · exact henter

theorem Framed.enterHeader (h : routine.Framed frames) (hl : routine.loop? 0 = some count)
    (echo : Bool) : routine.Framed (Frames.enterHeader count echo frames) := by
  unfold Frames.enterHeader
  split
  · exact h
  · refine h.append (by simp [hl]) fun n hn => ?_
    cases (hl.symm.trans hn : some count = _)
    cases n <;> simp [LoopCount.pred, LoopCount.pass?]

theorem Framed.crossEnd (h : routine.Framed frames) {crossing : Crossing}
    (hc : Frames.crossEnd frames = some crossing) : routine.Framed crossing.frames := by
  obtain ⟨frame, hheader, rfl⟩ := Option.map_eq_some_iff.mp hc
  have hmem := List.mem_of_find?_eq_some hheader
  dsimp only
  split
  · rename_i rest hpass
    exact h.setRemaining fun n hn => LoopCount.pass?_ne_infinite hpass (h.bounded frame hmem n hn)
  · exact h.eraseP _

theorem Framed.transit (h : routine.Framed frames) {step : Step}
    (hget : routine.get? index = some step) (config : Config) :
    routine.Framed (step.transit config index frames).frames := by
  unfold Step.transit
  split
  · rename_i count hc
    refine h.crossGate ?_ _ _
    simp [loop?, hget, hc]
  · rename_i count hc
    have hl := loop?_of_command hget hc
    split
    · rename_i hi
      subst hi
      split
      · exact h
      · exact h.enterHeader hl _
    · rename_i hi
      exact h.crossLoop hi hl _ _
  · exact h

def weight (routine : Routine) (frames : List Frame) (index : Nat) : Nat :=
  match routine.loop? index with
  | some count => count.weight (Frames.left? index frames)
  | none => 0

/-- How often the gates can still be executed. -/
def budget (routine : Routine) (trail : List Nat) : Nat :=
  ((List.range routine.steps.length).map fun index =>
    match routine.gate? index with
    | some count => count + 1 - trail.count index
    | none => 0).sum

def gateBehind (routine : Routine) (cursor : Nat) : Nat :=
  if (List.range cursor).any fun index => (routine.gate? index).isSome then 1 else 0

/-- A loop that the cursor is past starts over when the cursor comes back, but until then it has
nothing to go. -/
def rank (routine : Routine) (trail : List Nat) (cursor : Nat) (frames : List Frame) :
    Nat × Nat × Nat × (Nat → Nat) :=
  (routine.budget trail, routine.gateBehind cursor, routine.weight frames 0, fun index =>
    if index = 0 then routine.steps.length - cursor
    else if index < cursor then 0 else routine.weight frames index)

def Sinks (n : Nat) : Nat × Nat × Nat × (Nat → Nat) → Nat × Nat × Nat × (Nat → Nat) → Prop :=
  Prod.Lex (· < ·) (Prod.Lex (· < ·) (Prod.Lex (· < ·) (Lower n)))

theorem sinks_wf (n : Nat) : WellFounded (Sinks n) :=
  WellFounded.prod_lex Nat.lt_wfRel.wf
    (WellFounded.prod_lex Nat.lt_wfRel.wf (WellFounded.prod_lex Nat.lt_wfRel.wf (lower_wf n)))

theorem lex_of_le {r : α → α → Prop} {a a' : Nat} {b b' : α} (ha : a' ≤ a) (hb : r b' b) :
    Prod.Lex (· < ·) r (a', b') (a, b) := by
  rcases Nat.lt_or_eq_of_le ha with ha | rfl
  · exact .left _ _ ha
  · exact .right _ hb

variable {trail : List Nat} {cursor : Nat} {frames' : List Frame}

theorem budget_append_of_ne (hg : routine.gate? index = none) :
    routine.budget (trail ++ [index]) = routine.budget trail := by
  unfold budget
  congr 1
  refine List.map_congr_left fun other _ => ?_
  cases ho : routine.gate? other with
  | none => rfl
  | some count =>
    have hne : index ≠ other := by
      rintro rfl
      rw [hg] at ho
      cases ho
    simp [hne]

/-- A gate that is executed and lets pass has less to go. -/
theorem budget_append_lt {count : Nat} (hg : routine.gate? index = some count)
    (hopen : routine.Open (trail ++ [index])) :
    routine.budget (trail ++ [index]) < routine.budget trail := by
  have hindex := lt_of_gate? hg
  have hpassed := hopen index count hg
  rw [List.count_append, List.count_singleton_self] at hpassed
  refine List.sum_lt_sum _ _ (fun other _ => ?_) ⟨index, List.mem_range.mpr hindex, ?_⟩
  · cases ho : routine.gate? other with
    | none => exact Nat.le_refl _
    | some c =>
      have hcount : trail.count other ≤ (trail ++ [index]).count other := by simp
      exact Nat.sub_le_sub_left hcount (c + 1)
  · rw [hg]
    dsimp only
    rw [List.count_append, List.count_singleton_self]
    exact Nat.sub_lt_sub_left (by omega) (Nat.lt_succ_self _)

theorem gateBehind_succ (hg : routine.gate? cursor = none) :
    routine.gateBehind (cursor + 1) = routine.gateBehind cursor := by
  simp [gateBehind, List.range_succ, hg]

theorem gateBehind_of_lt {gate count : Nat} (hg : routine.gate? gate = some count)
    (hlt : gate < cursor) : routine.gateBehind cursor = 1 := by
  have hany : ((List.range cursor).any fun index => (routine.gate? index).isSome) = true :=
    List.any_eq_true.mpr ⟨gate, List.mem_range.mpr hlt, by simp [hg]⟩
  rw [gateBehind, if_pos hany]

theorem gateBehind_zero : routine.gateBehind 0 = 0 := rfl

theorem sinks_onward (hlt : cursor < routine.steps.length) (hg : routine.gate? cursor = none)
    (hheader : routine.weight frames' 0 ≤ routine.weight frames 0)
    (hother : ∀ other, other ≠ 0 → other ≠ cursor →
      Frames.left? other frames' = Frames.left? other frames) :
    Sinks (routine.steps.length + 1) (routine.rank (trail ++ [cursor]) (cursor + 1) frames')
      (routine.rank trail cursor frames) := by
  refine lex_of_le (Nat.le_of_eq (budget_append_of_ne hg)) (lex_of_le
    (Nat.le_of_eq (gateBehind_succ hg)) (lex_of_le hheader ⟨0, Nat.succ_pos _, ?_, ?_⟩))
  · simp only [if_true]
    omega
  · intro i hi _
    have hne : i ≠ 0 := Nat.ne_of_gt hi
    simp only [hne, if_false]
    by_cases hbehind : i < cursor + 1
    · simp [hbehind]
    · have hsame := hother i hne (by omega)
      simp [hbehind, show ¬ i < cursor by omega, weight, hsame]

/-- A gate that lies behind was executed since the last time that the cursor came back. -/
theorem sinks_behind {trail' : List Nat} (hb : routine.budget trail' ≤ routine.budget trail)
    (hg : routine.gateBehind cursor = 1) :
    Sinks (routine.steps.length + 1) (routine.rank trail' 0 frames')
      (routine.rank trail cursor frames) :=
  lex_of_le hb (.left _ _ (by rw [hg, gateBehind_zero]; exact Nat.one_pos))

theorem gateBehind_zero_le : routine.gateBehind 0 ≤ routine.gateBehind cursor := by
  rw [gateBehind_zero]
  exact Nat.zero_le _

theorem sinks_header {trail' : List Nat} (hb : routine.budget trail' ≤ routine.budget trail)
    (hlt : routine.weight frames' 0 < routine.weight frames 0) :
    Sinks (routine.steps.length + 1) (routine.rank trail' 0 frames')
      (routine.rank trail cursor frames) :=
  lex_of_le hb (lex_of_le gateBehind_zero_le (.left _ _ hlt))

/-- A loop begins another pass: those before it start over, and those after it stay as they are. -/
theorem sinks_loop {trail' : List Nat} (hb : routine.budget trail' ≤ routine.budget trail)
    (hcursor : cursor < routine.steps.length) (hne : cursor ≠ 0)
    (hlt : routine.weight frames' cursor < routine.weight frames cursor)
    (hother : ∀ other, other ≠ cursor → Frames.left? other frames' = Frames.left? other frames) :
    Sinks (routine.steps.length + 1) (routine.rank trail' 0 frames')
      (routine.rank trail cursor frames) := by
  have hsame : ∀ other, other ≠ cursor →
      routine.weight frames' other = routine.weight frames other :=
    fun other ho => by rw [weight, weight, hother other ho]
  refine lex_of_le hb (lex_of_le gateBehind_zero_le (lex_of_le
    (Nat.le_of_eq (hsame 0 (Ne.symm hne))) ⟨cursor, by omega, ?_, fun i hi _ => ?_⟩))
  · simpa [hne] using hlt
  · have hi0 : i ≠ 0 := by omega
    simp [hi0, show ¬ i < cursor by omega, hsame i (Nat.ne_of_gt hi)]

theorem Framed.left?_ne {n : Nat} (h : routine.Framed frames)
    (hl : routine.loop? index = some (.finite n)) :
    Frames.left? index frames ≠ some .infinite := by
  intro hleft
  obtain ⟨f, hf, hrem⟩ := Option.map_eq_some_iff.mp hleft
  have hstep : f.step = index := by simpa using List.find?_some hf
  exact h.bounded f (List.mem_of_find?_eq_some hf) n (hstep ▸ hl) hrem

/-- The first step opens the header, which leaves it no more to go. -/
theorem Framed.enterHeader_le (h : routine.Framed frames) (hl : routine.loop? 0 = some count)
    (echo : Bool) :
    routine.weight (Frames.enterHeader count echo frames) 0 ≤ routine.weight frames 0 := by
  unfold Frames.enterHeader
  split
  · exact Nat.le_refl _
  · rename_i hheader
    have hnone : Frames.left? 0 frames = none := by
      refine Frames.left?_eq_none fun f hf hstep => hheader (List.find?_isSome.mpr ⟨f, hf, ?_⟩)
      simpa using (h.header f hf).mpr ⟨hstep, by rw [hl]; rfl⟩
    rw [weight, weight, hl, Frames.left?_append, hnone]
    cases count with
    | infinite => exact Nat.le_refl _
    | finite n => cases n <;> simp [LoopCount.weight, LoopCount.pred, LoopCount.pass?]

theorem left?_enterHeader {other : Nat} (h : other ≠ 0) (count : LoopCount) (echo : Bool)
    (frames : List Frame) :
    Frames.left? other (Frames.enterHeader count echo frames) = Frames.left? other frames := by
  unfold Frames.enterHeader
  split
  · rfl
  · simp [Frames.left?_append, Ne.symm h]

/-- The header goes by what the frame of the first step has left. -/
theorem Framed.crossEnd_left (h : routine.Framed frames) {crossing : Crossing}
    (hc : Frames.crossEnd frames = some crossing) (hagain : crossing.again = true) :
    ∃ count left rest, routine.loop? 0 = some count ∧ Frames.left? 0 frames = some left ∧
      left.pass? = some rest ∧ Frames.left? 0 crossing.frames = some rest := by
  obtain ⟨frame, hheader, rfl⟩ := Option.map_eq_some_iff.mp hc
  have hkind : frame.kind = .header := by simpa using List.find?_some hheader
  obtain ⟨hstep, hsome⟩ := (h.header frame (List.mem_of_find?_eq_some hheader)).mp hkind
  obtain ⟨count, hcount⟩ := Option.isSome_iff_exists.mp hsome
  have hfind : (frames.find? fun f => f.step = 0) = some frame := by
    rw [← hheader]
    refine Frames.find?_congr fun f hf => ?_
    rw [Bool.eq_iff_iff]
    simp [h.header f hf, hsome]
  have hleft : Frames.left? 0 frames = some frame.remaining := by simp [Frames.left?, hfind]
  cases hpass : frame.remaining.pass? with
  | none => simp [hpass] at hagain
  | some rest =>
    refine ⟨count, frame.remaining, rest, hcount, hleft, hpass, ?_⟩
    rw [hstep]
    exact Frames.left?_setRemaining (by rw [hleft]; rfl) rest

end Routine

namespace Passage
open Routine

variable {config : Config} {routine : Routine} {p : Passage} {cursor cursor' : Nat}
  {frames frames' : List Frame} {count : LoopCount}

theorem sinks_end (hgated : routine.Gated) (hframed : routine.Framed frames) {crossing : Crossing}
    (hget : routine.get? cursor = none) (hcross : Frames.crossEnd frames = some crossing)
    (hagain : crossing.again = true) :
    Sinks (routine.steps.length + 1) (routine.rank p.trail 0 crossing.frames)
      (routine.rank p.trail cursor frames) := by
  have hend : routine.steps.length ≤ cursor := List.getElem?_eq_none_iff.mp hget
  obtain ⟨count, left, rest, hl, hleft, hpass, hrest⟩ := hframed.crossEnd_left hcross hagain
  cases count with
  | infinite =>
    obtain ⟨gate, n, hgate, _⟩ := hgated 0 hl
    exact sinks_behind (Nat.le_refl _)
      (gateBehind_of_lt hgate (Nat.lt_of_lt_of_le (lt_of_gate? hgate) hend))
  | finite n =>
    refine sinks_header (Nat.le_refl _) ?_
    rw [weight, weight, hl, hrest]
    exact LoopCount.weight_lt (hframed.left?_ne hl) (.inl rfl) (by rw [hleft]; exact hpass)

theorem sinks_again (hgated : routine.Gated) (hframed : routine.Framed frames) {step : Step}
    (hget : routine.get? cursor = some step) (hne : cursor ≠ 0)
    (hc : step.command = .loop count) (total echo : Bool)
    (hagain : (Frames.crossLoop cursor count total echo frames).again = true) :
    Sinks (routine.steps.length + 1) (routine.rank (p.trail ++ [cursor]) 0
      (Frames.crossLoop cursor count total echo frames).frames)
      (routine.rank p.trail cursor frames) := by
  have hl := loop?_of_command hget hc
  have hg : routine.gate? cursor = none := by simp [gate?, hget, hc]
  have hbudget : routine.budget (p.trail ++ [cursor]) ≤ routine.budget p.trail :=
    Nat.le_of_eq (budget_append_of_ne hg)
  obtain ⟨hpass, hrest, hother⟩ := Frames.crossLoop_left cursor count total echo frames
  rw [hagain] at hpass
  obtain ⟨rest, hpass⟩ := Option.isSome_iff_exists.mp hpass.symm
  cases count with
  | infinite =>
    obtain ⟨gate, n, hgate, hbefore⟩ := hgated cursor hl
    exact sinks_behind hbudget (gateBehind_of_lt hgate (hbefore hne))
  | finite n =>
    refine sinks_loop hbudget (lt_of_get? hget) hne ?_ hother
    rw [weight, weight, hl, hrest rest hpass]
    refine LoopCount.weight_lt (hframed.left?_ne hl) ?_ hpass
    cases total with
    | true => cases n <;> exact .inr rfl
    | false => exact .inl rfl

/-- A step that is no gate leads on, or is a loop that leads back. -/
theorem sinks_step (hgated : routine.Gated) (hframed : routine.Framed frames) {step : Step}
    (hget : routine.get? cursor = some step) (hg : routine.gate? cursor = none)
    (htarget : target cursor (step.transit config cursor frames).flow = some cursor') :
    Sinks (routine.steps.length + 1)
      (routine.rank (p.trail ++ [cursor]) cursor' (step.transit config cursor frames).frames)
      (routine.rank p.trail cursor frames) := by
  have honward : ∀ frames'', routine.weight frames'' 0 ≤ routine.weight frames 0 →
      (∀ other, other ≠ 0 → other ≠ cursor →
        Frames.left? other frames'' = Frames.left? other frames) →
      Sinks (routine.steps.length + 1) (routine.rank (p.trail ++ [cursor]) (cursor + 1) frames'')
        (routine.rank p.trail cursor frames) :=
    fun _ => sinks_onward (lt_of_get? hget) hg
  unfold Step.transit at htarget ⊢
  split at htarget
  · rename_i n hc
    exact absurd hc (gate?_eq_none hget hg n)
  · rename_i count hc
    have hl := loop?_of_command hget hc
    split at htarget
    · rename_i hzero
      subst hzero
      split at htarget
      · cases htarget
      · rename_i hcount
        cases htarget
        rw [if_pos rfl, if_neg hcount]
        exact honward _ (hframed.enterHeader_le hl _) fun _ ho _ => left?_enterHeader ho _ _ _
    · rename_i hne
      obtain ⟨_, _, hother⟩ := Frames.crossLoop_left cursor count config.loopTotal
        (step.echoes config) frames
      rw [if_neg hne]
      dsimp only at htarget
      split at htarget
      · rename_i hagain
        cases htarget
        exact sinks_again hgated hframed hget hne hc _ _ hagain
      · cases htarget
        refine honward _ (Nat.le_of_eq ?_) fun other _ ho => hother other ho
        rw [weight, weight, hother 0 (Ne.symm hne)]
  · cases htarget
    exact honward _ (Nat.le_refl _) fun _ _ _ => rfl

theorem sinks_next (hgated : routine.Gated) (hframed : routine.Framed frames)
    (hopen : routine.Open (p.next config routine).trail) (hp : p.spot = some (cursor, frames))
    (hp' : (p.next config routine).spot = some (cursor', frames')) :
    Sinks (routine.steps.length + 1) (routine.rank (p.next config routine).trail cursor' frames')
      (routine.rank p.trail cursor frames) := by
  cases hget : routine.get? cursor with
  | none =>
    cases hcross : Frames.crossEnd frames with
    | none =>
      rw [next_end hp hget hcross] at hp'
      cases hp'
    | some crossing =>
      rw [next_crossEnd hp hget hcross] at hp' ⊢
      by_cases hagain : crossing.again = true
      · rw [if_pos hagain] at hp'
        cases hp'
        exact sinks_end hgated hframed hget hcross hagain
      · rw [if_neg hagain] at hp'
        cases hp'
  | some step =>
    rw [next_step hp hget] at hp' hopen ⊢
    obtain ⟨_, htarget, he⟩ := Option.map_eq_some_iff.mp hp'
    cases he
    cases hg : routine.gate? cursor with
    | some n => exact .left _ _ (budget_append_lt hg hopen)
    | none => exact sinks_step hgated hframed hget hg htarget

theorem framed_next (hframed : routine.Framed frames) (hp : p.spot = some (cursor, frames))
    (hp' : (p.next config routine).spot = some (cursor', frames')) : routine.Framed frames' := by
  cases hget : routine.get? cursor with
  | some step =>
    rw [next_step hp hget] at hp'
    obtain ⟨_, _, he⟩ := Option.map_eq_some_iff.mp hp'
    cases he
    exact hframed.transit hget config
  | none =>
    cases hcross : Frames.crossEnd frames with
    | none =>
      rw [next_end hp hget hcross] at hp'
      cases hp'
    | some crossing =>
      rw [next_crossEnd hp hget hcross] at hp'
      dsimp only at hp'
      split at hp'
      · cases hp'
        exact hframed.crossEnd hcross
      · cases hp'

theorem framed_after (config : Config) (routine : Routine) (m : Nat) :
    ∀ cursor frames, (after config routine m).spot = some (cursor, frames) →
      routine.Framed frames := by
  induction m with
  | zero =>
    rintro _ _ ⟨⟩
    exact ⟨fun _ hf => (nomatch hf), fun _ hf => (nomatch hf)⟩
  | succ m ih =>
    intro cursor frames hp'
    rw [after_succ] at hp'
    cases hp : (after config routine m).spot with
    | none =>
      rw [next_of_over hp, hp] at hp'
      cases hp'
    | some spot => exact framed_next (ih spot.1 spot.2 hp) hp hp'

theorem after_of_over {m n : Nat} (h : (after config routine m).spot = none) (hle : m ≤ n) :
    (after config routine n).spot = none := by
  induction hle with
  | refl => exact h
  | step _ ih => rwa [after_succ, next_of_over ih]

/-- If every loop without end has a gate before it, the macro has an end, whatever its other loops
are. -/
theorem ends (config : Config) (hgated : routine.Gated) :
    ∃ m, (after config routine m).spot = none := by
  by_contra hnever
  have hspot : ∀ m, ∃ spot, (after config routine m).spot = some spot :=
    fun m => Option.ne_none_iff_exists'.mp fun hnone => hnever ⟨m, hnone⟩
  choose spot hspot using hspot
  have hwf : IsWellFounded _ (Sinks (routine.steps.length + 1)) := ⟨sinks_wf _⟩
  obtain ⟨m, hm⟩ := WellFounded.not_rel_apply_succ (r := Sinks (routine.steps.length + 1))
    fun m => routine.rank (after config routine m).trail (spot m).1 (spot m).2
  have hopen : routine.Open (after config routine (m + 1)).trail := by
    rcases alike_or_closed config routine (m + 1) with h | h
    · exact h.unclosed
    · exact absurd h.ended (by simp [hspot])
  refine hm ?_
  have hnext := hspot (m + 1)
  simp only [after_succ] at hopen hnext ⊢
  exact sinks_next hgated (framed_after config routine m _ _ (hspot m)) hopen (hspot m) hnext

end Passage
end MacroEngine
