import MacroEngine.Proofs.Completion
import MacroEngine.Proofs.Walks

/-! Finite loops inside one another. Each loop goes back to the start of the macro, so the steps
before it run again with all loops among them. The frame of a loop is there only while its passes
are counted: the loops inside find none of their own and start anew each time. -/
namespace MacroEngine

namespace LoopCount

def repeats (total : Bool) (n : Nat) : Nat := if total then n - 1 else n

theorem pred_finite (n : Nat) : (finite n).pred = finite (n - 1) := by
  cases n <;> rfl

end LoopCount

namespace Frames

def counting (step n left : Nat) (echo : Bool) : Frame :=
  ⟨step, .loop, .finite n, .finite left, echo⟩

variable {frames : List Frame} {step n k : Nat} {total echo : Bool}

theorem enter_of_ne {fresh : Frame} (h : ∀ f ∈ frames, f.step ≠ fresh.step) :
    enter fresh frames = frames ++ [fresh] := by
  have hany : ¬ (frames.any fun f => f.step = fresh.step) = true := by simpa using h
  rw [enter, if_neg hany]

theorem enter_counting (kind : FrameKind) (count first : LoopCount) (echo' : Bool) :
    enter ⟨step, kind, count, first, echo'⟩ (frames ++ [counting step n k echo]) =
      frames ++ [counting step n k echo] := by
  simp [enter, counting]

theorem find?_append_of_ne {f : Frame} (h : ∀ f ∈ frames, f.step ≠ step) (hs : f.step = step) :
    ((frames ++ [f]).find? fun f => f.step = step) = some f := by
  have hnone : (frames.find? fun f => f.step = step) = none := by simpa using h
  rw [List.find?_append, hnone]
  simp [hs]

theorem setRemaining_of_ne (h : ∀ f ∈ frames, f.step ≠ step) (count : LoopCount) :
    setRemaining step count frames = frames := by
  unfold setRemaining
  refine (List.map_congr_left (g := id) fun f hf => ?_).trans (List.map_id _)
  exact if_neg (h f hf)

theorem remove_append_of_ne {f : Frame} (h : ∀ f ∈ frames, f.step ≠ step) (hs : f.step = step) :
    remove step (frames ++ [f]) = frames := by
  unfold remove
  rw [List.eraseP_append_right _ (by simpa using h)]
  simp [hs]

/-- A loop that was not entered counts as if its frame had been there. -/
theorem crossLoop_fresh (h : ∀ f ∈ frames, f.step ≠ step) :
    crossLoop step (.finite n) total echo frames =
      crossLoop step (.finite n) total echo
        (frames ++ [counting step n (LoopCount.repeats total n) echo]) := by
  have hfirst : (if total then (LoopCount.finite n).pred else .finite n) =
      .finite (LoopCount.repeats total n) := by
    unfold LoopCount.repeats
    cases total
    · rfl
    · exact LoopCount.pred_finite n
  unfold crossLoop
  dsimp only
  rw [hfirst, enter_of_ne h, enter_counting]
  rfl

theorem crossLoop_last (h : ∀ f ∈ frames, f.step ≠ step) :
    crossLoop step (.finite n) total echo (frames ++ [counting step n 0 echo]) =
      ⟨frames, false, some "Loops complete"⟩ := by
  unfold crossLoop
  dsimp only
  rw [enter_counting, find?_append_of_ne h rfl, remove_append_of_ne h rfl]
  rfl

theorem crossLoop_again (h : ∀ f ∈ frames, f.step ≠ step) :
    crossLoop step (.finite n) total echo (frames ++ [counting step n (k + 1) echo]) =
      ⟨frames ++ [counting step n k echo], true, left (.finite k) "loops"⟩ := by
  have hset : setRemaining step (.finite k) (frames ++ [counting step n (k + 1) echo]) =
      frames ++ [counting step n k echo] := by
    have happend : setRemaining step (.finite k) (frames ++ [counting step n (k + 1) echo]) =
        setRemaining step (.finite k) frames ++
          setRemaining step (.finite k) [counting step n (k + 1) echo] := List.map_append
    rw [happend, setRemaining_of_ne h]
    simp [setRemaining, counting]
  unfold crossLoop
  dsimp only
  rw [enter_counting, find?_append_of_ne h rfl]
  dsimp only [counting, LoopCount.pass?]
  exact congrArg (Crossing.mk · true _) hset

end Frames

structure FiniteLoop where
  step : Step
  count : Nat
  counts : step.command = .loop (.finite count)

namespace Passage

variable {config : Config} {routine : Routine} {entry base extra frames : List Frame}
  {before body after steps : List Step} {index crossed : Nat} {loop : FiniteLoop}

/-- The steps from the start of the macro up to an index. At first the passage stands at the
start with the frames `entry`; whenever it comes back, the frames are `base` and those of loops
further on, which are left alone. -/
structure Opens (config : Config) (routine : Routine) (entry base : List Frame) (index : Nat)
    (steps : List Step) (crossed : Nat) : Prop where
  first : Walks config routine (0, entry) steps crossed (some (index, base))
  again : ∀ extra : List Frame, (∀ f ∈ extra, index ≤ f.step) →
    Walks config routine (0, base ++ extra) steps crossed (some (index, base ++ extra))

/-- A loop with `k` passes left goes back as often, and then passes on. -/
theorem Opens.passes (h : Opens config routine entry base before.length steps crossed)
    (hr : routine.steps = before ++ body ++ loop.step :: after)
    (hplain : ∀ step ∈ body, step.command.isBoundary = false)
    (hpos : 0 < (before ++ body).length)
    (hfree : ∀ f ∈ base ++ extra, f.step ≠ (before ++ body).length)
    (hextra : ∀ f ∈ extra, before.length ≤ f.step) (k : Nat)
    (hcross : Frames.crossLoop (before ++ body).length (.finite loop.count) config.loopTotal
        (loop.step.echoes config) frames =
      Frames.crossLoop (before ++ body).length (.finite loop.count) config.loopTotal
        (loop.step.echoes config) (base ++ extra ++ [Frames.counting (before ++ body).length
          loop.count k (loop.step.echoes config)])) :
    Walks config routine ((before ++ body).length, frames)
      (loop.step :: (List.replicate k (steps ++ body ++ [loop.step])).flatten)
      (1 + k * (crossed + 1)) (some ((before ++ body).length + 1, base ++ extra)) := by
  have hget : routine.get? (before ++ body).length = some loop.step := by
    simp [Routine.get?, hr]
  have htransit : ∀ {frames' crossing},
      Frames.crossLoop (before ++ body).length (.finite loop.count) config.loopTotal
        (loop.step.echoes config) frames' = crossing →
      loop.step.transit config (before ++ body).length frames' =
        ⟨crossing.frames, 1, if crossing.again then .jump 0 else .next⟩ := by
    rintro frames' _ rfl
    simp only [Step.transit, loop.counts, if_neg (Nat.ne_of_gt hpos)]
  induction k generalizing frames with
  | zero =>
    rw [Frames.crossLoop_last hfree] at hcross
    have hlast := Walks.step hget (htransit hcross)
    exact hlast.of_eq rfl (by simp)
  | succ k ih =>
    rw [Frames.crossLoop_again hfree] at hcross
    have hback := Walks.step hget (htransit hcross)
    have hbegin := h.again (extra ++ [Frames.counting (before ++ body).length loop.count k
      (loop.step.echoes config)]) (by
        intro f hf
        rcases List.mem_append.mp hf with hf | hf
        · exact hextra f hf
        · rw [List.mem_singleton.mp hf]
          simp [Frames.counting])
    rw [← List.append_assoc] at hbegin
    have hbody := Walks.plain config hr hplain
      (base ++ extra ++ [Frames.counting (before ++ body).length loop.count k
        (loop.step.echoes config)])
    have hall := hback.trans (hbegin.trans (hbody.trans (ih rfl)))
    rw [List.replicate_succ, List.flatten_cons]
    refine hall.of_eq (by simp) ?_
    rw [Nat.succ_mul]
    dsimp only
    omega

/-- A loop around all that comes before it. -/
theorem Opens.around (h : Opens config routine entry base before.length steps crossed)
    (hr : routine.steps = before ++ body ++ loop.step :: after)
    (hplain : ∀ step ∈ body, step.command.isBoundary = false)
    (hpos : 0 < (before ++ body).length) (hbase : ∀ f ∈ base, f.step = 0) :
    Opens config routine entry base (before ++ body ++ [loop.step]).length
      (List.replicate (LoopCount.repeats config.loopTotal loop.count + 1)
        (steps ++ body ++ [loop.step])).flatten
      ((LoopCount.repeats config.loopTotal loop.count + 1) * (crossed + 1)) := by
  have hlater : ∀ extra : List Frame, (∀ f ∈ extra, (before ++ body).length < f.step) →
      Walks config routine (before.length, base ++ extra)
        (body ++ loop.step :: (List.replicate (LoopCount.repeats config.loopTotal loop.count)
          (steps ++ body ++ [loop.step])).flatten)
        (1 + LoopCount.repeats config.loopTotal loop.count * (crossed + 1))
        (some ((before ++ body).length + 1, base ++ extra)) := by
    intro extra hextra
    have hfree : ∀ f ∈ base ++ extra, f.step ≠ (before ++ body).length := by
      intro f hf
      rcases List.mem_append.mp hf with hf | hf
      · have := hbase f hf
        omega
      · have := hextra f hf
        omega
    have hbody := Walks.plain config hr hplain (base ++ extra)
    have hpasses := h.passes hr hplain hpos hfree
      (fun f hf => by have := hextra f hf; rw [List.length_append] at this; omega)
      _ (Frames.crossLoop_fresh hfree)
    simpa using hbody.trans hpasses
  have hlen : (before ++ body ++ [loop.step]).length = (before ++ body).length + 1 :=
    List.length_append
  rw [hlen, List.replicate_succ, List.flatten_cons]
  constructor
  · have hlater := hlater [] (by simp)
    rw [List.append_nil] at hlater
    have hfirst := h.first.trans hlater
    refine hfirst.of_eq (by simp) ?_
    rw [Nat.succ_mul]
    omega
  · intro extra hextra
    have hagain := (h.again extra fun f hf => by
      have := hextra f hf
      rw [List.length_append] at this
      omega).trans (hlater extra hextra)
    refine hagain.of_eq (by simp) ?_
    rw [Nat.succ_mul]
    omega

end Passage

/-- A macro with no gates and finite loops only. It may have a header, a loop on its first step. -/
structure Nest where
  header : Option FiniteLoop
  /-- Plain steps and the loop that ends them. -/
  blocks : List (List Step × FiniteLoop)
  tail : List Step
  plain : ∀ step ∈ blocks.flatMap Prod.fst ++ tail, step.command.isBoundary = false
  /-- No other loop is on the first step. -/
  opens : header = none → ∀ loop rest, blocks ≠ ([], loop) :: rest

namespace Nest

def opening (header : Option FiniteLoop) : List Step := (header.map FiniteLoop.step).toList

def body (blocks : List (List Step × FiniteLoop)) : List Step :=
  blocks.flatMap fun b => b.1 ++ [b.2.step]

def routine (t : Nest) : Routine := ⟨opening t.header ++ body t.blocks ++ t.tail⟩

/-- The steps up to the end of a block run once, and again for each time its loop goes back. -/
def unroll (total : Bool) (steps : List Step) (blocks : List (List Step × FiniteLoop)) :
    List Step :=
  blocks.foldl (fun steps b => (List.replicate (LoopCount.repeats total b.2.count + 1)
    (steps ++ b.1 ++ [b.2.step])).flatten) steps

def pass (total : Bool) (t : Nest) : List Step := unroll total (opening t.header) t.blocks ++ t.tail

def loops (total : Bool) (t : Nest) : Nat :=
  (unroll total [] t.blocks).countP fun step => step.command.isLoop

def steps (total : Bool) (t : Nest) : List Step :=
  match t.header with
  | none => t.pass total
  | some header =>
    if header.count = 0 then [header.step]
    else (List.replicate header.count (t.pass total)).flatten

/-- The loops executed that are not the header, and the passes of the header. -/
def crossings (total : Bool) (t : Nest) : Nat :=
  match t.header with
  | none => t.loops total
  | some header => header.count * t.loops total + header.count

theorem countP_plain {steps : List Step} (h : ∀ step ∈ steps, step.command.isBoundary = false) :
    (steps.countP fun step => step.command.isLoop) = 0 := by
  rw [List.countP_eq_zero]
  intro step hm hloop
  have hplain := h step hm
  cases hc : step.command <;> simp_all [Command.isLoop, Command.isBoundary]

theorem countP_around {body steps : List Step} {loop : FiniteLoop}
    (h : ∀ step ∈ body, step.command.isBoundary = false) (k : Nat) :
    ((List.replicate k (steps ++ body ++ [loop.step])).flatten.countP
        fun step => step.command.isLoop) =
      k * ((steps.countP fun step => step.command.isLoop) + 1) := by
  have hone : ((steps ++ body ++ [loop.step]).countP fun step => step.command.isLoop) =
      (steps.countP fun step => step.command.isLoop) + 1 := by
    rw [List.countP_append, List.countP_append, countP_plain h]
    simp [loop.counts, Command.isLoop]
  induction k with
  | zero => simp
  | succ k ih =>
    rw [List.replicate_succ, List.flatten_cons, List.countP_append, ih, hone, Nat.succ_mul,
      Nat.add_comm]

end Nest

namespace Passage

variable {config : Config} {routine : Routine} {entry base : List Frame}

/-- Induction on the blocks; `plain` is the steps up to them without the header. -/
theorem Opens.blocks (hbase : ∀ f ∈ base, f.step = 0) {after : List Step}
    (blocks : List (List Step × FiniteLoop)) :
    ∀ {before steps : List Step} (plain : List Step),
      Opens config routine entry base before.length steps
        (plain.countP fun step => step.command.isLoop) →
      routine.steps = before ++ Nest.body blocks ++ after →
      (∀ step ∈ blocks.flatMap Prod.fst, step.command.isBoundary = false) →
      (before = [] → ∀ loop rest, blocks ≠ ([], loop) :: rest) →
      Opens config routine entry base (before ++ Nest.body blocks).length
        (Nest.unroll config.loopTotal steps blocks)
        ((Nest.unroll config.loopTotal plain blocks).countP fun step => step.command.isLoop) := by
  induction blocks with
  | nil =>
    intro before steps plain h _ _ _
    simpa [Nest.body, Nest.unroll] using h
  | cons b blocks ih =>
    obtain ⟨body, loop⟩ := b
    intro before steps plain h hr hplain hopens
    have hbody : ∀ step ∈ body, step.command.isBoundary = false :=
      fun step hm => hplain step (by simp [hm])
    have hpos : 0 < (before ++ body).length := by
      refine List.length_pos_iff.mpr fun hnil => ?_
      obtain ⟨hb, rfl⟩ := List.append_eq_nil_iff.mp hnil
      exact hopens hb loop blocks rfl
    have hsteps : routine.steps = before ++ body ++ loop.step :: (Nest.body blocks ++ after) := by
      simp [hr, Nest.body]
    have haround := h.around hsteps hbody hpos hbase
    rw [← Nest.countP_around hbody] at haround
    have hrest := ih _ haround (by simp [hr, Nest.body]) (fun step hm => hplain step (by simp_all))
      (fun hnil => by simp at hnil)
    simpa [Nest.body, Nest.unroll] using hrest

end Passage

namespace Nest
open Passage

variable {config : Config} {t : Nest} {entry base : List Frame}

def heading (config : Config) (header : FiniteLoop) (left : Nat) : Frame :=
  ⟨0, .header, .finite header.count, .finite left, header.step.echoes config⟩

/-- From the header on, one pass leads to the end of the steps. -/
theorem pass_walks (hbase : ∀ f ∈ base, f.step = 0)
    (h : Opens config t.routine entry base (opening t.header).length (opening t.header) 0) :
    Walks config t.routine (0, entry) (t.pass config.loopTotal) (t.loops config.loopTotal)
      (some (t.routine.steps.length, base)) := by
  have hopens : opening t.header = [] → ∀ loop rest, t.blocks ≠ ([], loop) :: rest := by
    intro hnil
    refine t.opens ?_
    cases hh : t.header with
    | none => rfl
    | some header => simp [opening, hh] at hnil
  have hplain := t.plain
  have hblocks := Opens.blocks hbase t.blocks [] h rfl
    (fun step hm => hplain step (List.mem_append_left _ hm)) hopens
  have hsteps : t.routine.steps = opening t.header ++ body t.blocks ++ t.tail ++ [] :=
    (List.append_nil _).symm
  have htail := Walks.plain config hsteps
    (fun step hm => hplain step (List.mem_append_right _ hm)) base
  exact (hblocks.first.trans htail).of_eq rfl (Nat.add_zero _)

theorem get?_end (t : Nest) : t.routine.get? t.routine.steps.length = none :=
  List.getElem?_eq_none (Nat.le_refl _)

theorem transit_heading {header : FiniteLoop} (hpos : header.count ≠ 0) (left : Nat)
    (extra : List Frame) :
    header.step.transit config 0 (heading config header left :: extra) =
      ⟨heading config header left :: extra, 0, .next⟩ := by
  simp [Step.transit, header.counts, hpos, Frames.enterHeader, Frames.header?, heading]

theorem transit_header {header : FiniteLoop} (hpos : header.count ≠ 0) :
    header.step.transit config 0 [] = ⟨[heading config header (header.count - 1)], 0, .next⟩ := by
  simp [Step.transit, header.counts, hpos, Frames.enterHeader, Frames.header?, heading,
    LoopCount.pred_finite]

theorem crossEnd_last (config : Config) (header : FiniteLoop) :
    ∃ news, Frames.crossEnd [heading config header 0] = some ⟨[], false, news⟩ :=
  ⟨_, rfl⟩

theorem crossEnd_again (config : Config) (header : FiniteLoop) (left : Nat) :
    ∃ news, Frames.crossEnd [heading config header (left + 1)] =
      some ⟨[heading config header left], true, news⟩ :=
  ⟨if header.step.echoes config then Frames.left (.finite left) "loops" else none, by
    simp [Frames.crossEnd, Frames.header?, heading, LoopCount.pass?, Frames.setRemaining]⟩

/-- The header opens the first pass, and every other pass that is left. -/
theorem opens_header {header : FiniteLoop} (hh : t.header = some header) (hpos : header.count ≠ 0)
    {left : Nat}
    (he : entry = [] ∧ left = header.count - 1 ∨ entry = [heading config header left]) :
    Opens config t.routine entry [heading config header left] (opening t.header).length
      (opening t.header) 0 := by
  have hget : t.routine.get? 0 = some header.step := by
    simp [Routine.get?, Nest.routine, opening, hh]
  have hsteps : opening t.header = [header.step] := by simp [opening, hh]
  rw [hsteps]
  have hagain : ∀ extra, Walks config t.routine (0, heading config header left :: extra)
      [header.step] 0 (some (1, heading config header left :: extra)) :=
    fun extra => Walks.step hget (transit_heading hpos left extra)
  refine ⟨?_, fun extra _ => hagain extra⟩
  rcases he with ⟨rfl, rfl⟩ | rfl
  · exact Walks.step hget (transit_header hpos)
  · exact hagain []

/-- Induction on the passes that are left after the one that begins. -/
theorem passes_walk (config : Config) {header : FiniteLoop} (hh : t.header = some header)
    (hpos : header.count ≠ 0)
    (left : Nat) (entry : List Frame)
    (he : entry = [] ∧ left = header.count - 1 ∨ entry = [heading config header left]) :
    Walks config t.routine (0, entry) (List.replicate (left + 1) (t.pass config.loopTotal)).flatten
      ((left + 1) * (t.loops config.loopTotal + 1)) none := by
  induction left generalizing entry with
  | zero =>
    have hpass := pass_walks (by simp [heading]) (opens_header hh hpos he)
    obtain ⟨news, hcross⟩ := crossEnd_last config header
    exact (hpass.trans (Walks.crossing t.get?_end hcross)).of_eq (by simp) (by simp)
  | succ left ih =>
    have hpass := pass_walks (by simp [heading]) (opens_header hh hpos he)
    obtain ⟨news, hcross⟩ := crossEnd_again config header left
    have hrest := (Walks.crossing t.get?_end hcross).trans (ih _ (.inr rfl))
    refine (hpass.trans hrest).of_eq (by simp [List.replicate_succ]) ?_
    rw [Nat.succ_mul (left + 1)]
    omega

theorem walks (config : Config) (t : Nest) : Walks config t.routine (0, [])
    (t.steps config.loopTotal) (t.crossings config.loopTotal) none := by
  unfold steps crossings
  cases hh : t.header with
  | none =>
    have hopens : Opens config t.routine [] [] (opening t.header).length (opening t.header) 0 := by
      rw [hh]
      exact ⟨Walks.refl _, fun extra _ => Walks.refl _⟩
    exact (pass_walks (by simp) hopens).trans (Walks.ended t.get?_end rfl) |>.of_eq (by simp) rfl
  | some header =>
    by_cases hz : header.count = 0
    · have hget : t.routine.get? 0 = some header.step := by
        simp [Routine.get?, Nest.routine, opening, hh]
      have htransit : header.step.transit config 0 [] = ⟨[], 0, .finish⟩ := by
        simp [Step.transit, header.counts, hz]
      dsimp only
      rw [if_pos hz, hz, Nat.zero_mul]
      exact Walks.step hget htransit
    · obtain ⟨left, hleft⟩ : ∃ left, header.count = left + 1 := ⟨header.count - 1, by omega⟩
      have hall := passes_walk config hh hz left [] (.inl ⟨rfl, by omega⟩)
      dsimp only
      rw [if_neg hz, hleft]
      exact hall.of_eq rfl (Nat.mul_succ _ _)

/-- Nested finite loops whose steps all complete: the run ends, and has executed the steps of the
loops and no others. If the macro runs no other it has counted these steps and crossings only. -/
theorem nested_loops {engine : Engine γ} {now : Moment} {game : γ} {name : String} (t : Nest)
    (h : (Snapshot.start now game name t.routine).Completes engine) :
    ∃ n ended report,
      ((Snapshot.start now game name t.routine).after engine n).run.outcome =
        some ⟨.ok report, ended⟩ ∧
      report.stoppedByUser = false ∧
      completedSteps name
          ((Snapshot.start now game name t.routine).after engine n).run.fiber.journal =
        t.steps engine.rules.config.loopTotal ∧
      (t.routine.Alone →
        report.stepsExecuted = (t.steps engine.rules.config.loopTotal).length ∧
        report.loopCrossings = t.crossings engine.rules.config.loopTotal) := by
  obtain ⟨m, hsteps, hlen, hcross, hspot⟩ := (t.walks engine.rules.config).whole
  obtain ⟨n, hn⟩ := h.finishes hspot
  obtain ⟨ended, hout⟩ := hn.outcome
  refine ⟨n, ended, _, hout, rfl, hn.tallies.completed.trans hsteps, fun halone => ⟨?_, ?_⟩⟩
  · exact (hn.tallies.steps halone).trans hlen
  · exact (hn.crossings halone).trans hcross

def twofold : Nest where
  header := some ⟨⟨1, .loop (.finite 2), "2", {}⟩, 2, rfl⟩
  blocks := [([⟨2, .echo "a", "a", {}⟩], ⟨⟨3, .loop (.finite 1), "1", {}⟩, 1, rfl⟩),
    ([⟨4, .echo "b", "b", {}⟩], ⟨⟨5, .loop (.finite 1), "1", {}⟩, 1, rfl⟩)]
  tail := [⟨6, .echo "c", "c", {}⟩]
  plain := by decide
  opens := by simp

theorem nested_loops_twofold :
    (Snapshot.start 0 () "m" twofold.routine).Completes (.still .empty) ∧
    ∃ n ended report,
      ((Snapshot.start 0 () "m" twofold.routine).after (.still .empty) n).run.outcome =
        some ⟨.ok report, ended⟩ ∧ report.stepsExecuted = 34 ∧ report.loopCrossings = 14 := by
  have hc : (Snapshot.start 0 () "m" twofold.routine).Completes (.still .empty) :=
    Snapshot.Completes.of_over (N := 260) (by decide +kernel) (by decide +kernel)
      (by decide +kernel)
  obtain ⟨n, ended, report, hout, _, _, hcounts⟩ := nested_loops twofold hc
  have halone : twofold.routine.Alone := by
    simp [Routine.Alone, Nest.routine, twofold, opening, body]
  obtain ⟨hsteps, hcross⟩ := hcounts halone
  exact ⟨hc, n, ended, report, hout, hsteps, hcross⟩

def calling : Nest where
  header := none
  blocks := [([⟨1, .runMacro "x", "x", {}⟩], ⟨⟨2, .loop (.finite 1), "1", {}⟩, 1, rfl⟩)]
  tail := []
  plain := by decide
  opens := by simp

/-- The steps of a macro that is called are counted as well. -/
theorem calls_counted :
    let engine := Engine.still ⟨[⟨"x", .native, "/echo hi"⟩]⟩
    (Snapshot.start 0 () "m" calling.routine).Completes engine ∧
    (calling.steps engine.rules.config.loopTotal).length = 4 ∧
    (((Snapshot.start 0 () "m" calling.routine).after engine 60).run.outcome.bind fun outcome =>
      outcome.result.toOption) = some ⟨"m", 6, 2, [], false⟩ := by
  refine ⟨Snapshot.Completes.of_over (N := 60) (by decide +kernel) (by decide +kernel)
    (by decide +kernel), by decide +kernel, by decide +kernel⟩

end Nest
end MacroEngine
