import MacroEngine.Proofs.Steadiness
import Mathlib.Data.Nat.Find

/-! A macro that runs inside others takes the strides that it takes on its own, and leaves the
levels below alone until it is over. Then the step that entered it is complete. -/
namespace MacroEngine

namespace Stage

variable {engine : Engine γ} {s t n : Stage γ} {a b : Account γ} {level : Level}
  {below mid : List Level}

def Closed (s : Stage γ) : Prop := ∀ result, s.ended = some result → s.levels = []

theorem closed_leave (a : Account γ) (below : List Level) (stopped : Bool) :
    (leave a below stopped).Closed := by
  cases below with
  | nil => exact fun _ _ => rfl
  | cons => exact fun _ h => nomatch h

theorem closed_handleFailure (engine : Engine γ) (a : Account γ) (level : Level)
    (below : List Level) (site : Site) (error : RunError) :
    (handleFailure engine a level below site error).Closed := by
  unfold handleFailure
  split
  · split
    · exact fun _ _ => rfl
    · exact fun _ h => nomatch h
  · exact fun _ _ => rfl

theorem closed_conclude (engine : Engine γ) (a : Account γ) (level : Level) (below : List Level)
    (ending : Course.End Flow) : (conclude engine a level below ending).Closed := by
  match ending with
  | .value .next | .value (.jump _) | .value (.enter ..) => exact fun _ h => nomatch h
  | .value .finish | .interrupted => exact closed_leave _ _ _
  | .failure site error => exact closed_handleFailure _ _ _ _ _ _

theorem closed_finishSteps (client : Client γ) (a : Account γ) (level : Level)
    (below : List Level) : (finishSteps client a level below).Closed := by
  unfold finishSteps
  split
  · exact closed_leave _ _ _
  · dsimp only
    split
    · exact fun _ h => nomatch h
    · exact closed_leave _ _ _

theorem closed_stride (hs : s.Closed) : (s.stride engine).Closed := by
  unfold stride
  split
  · exact hs
  · split
    · exact closed_finishSteps _ _ _ _
    · exact closed_conclude _ _ _ _ _

theorem closed_after (hs : s.Closed) (k : Nat) : (s.after engine k).Closed := by
  induction k with
  | zero => exact hs
  | succ k ih =>
    rw [after_succ]
    exact closed_stride ih

theorem closed_going (a : Account γ) (levels : List Level) :
    (⟨a, levels, none⟩ : Stage γ).Closed := fun _ h => nomatch h

theorem closed_start (game : γ) (name : String) (routine : Routine) :
    (start game name routine).Closed := closed_going _ _

theorem after_ended (hs : s.Closed) {k l : Nat} {result : Except RunError Bool}
    (h : (s.after engine k).ended = some result) (hkl : k ≤ l) :
    s.after engine l = s.after engine k := by
  obtain ⟨m, rfl⟩ := Nat.exists_eq_add_of_le hkl
  clear hkl
  induction m with
  | zero => rfl
  | succ m ih =>
    have hlevels : (s.after engine k).levels = [] := closed_after hs k _ h
    rw [← Nat.add_assoc, after_succ, ih]
    simp only [stride, hlevels]

theorem after_unique (hs : s.Closed) {k l : Nat} {result result' : Except RunError Bool}
    (h : (s.after engine k).ended = some result) (h' : (s.after engine l).ended = some result') :
    s.after engine k = s.after engine l := by
  rcases Nat.le_total k l with hkl | hkl
  · exact (after_ended hs h hkl).symm
  · exact after_ended hs h' hkl

/-- No error was reported, and none ended the run. -/
structure Clean (s : Stage γ) : Prop where
  softErrors : s.account.softErrors = []
  ended : ∀ error, s.ended ≠ some (.error error)

theorem Clean.before (hs : s.Closed) {k l : Nat} (h : (s.after engine l).Clean) (hkl : k ≤ l) :
    (s.after engine k).Clean := by
  refine ⟨?_, fun error he => ?_⟩
  · have hupto := (upto_after engine s hkl).softErrors
    rw [h.softErrors] at hupto
    exact List.suffix_nil.mp hupto
  · rw [after_ended hs he hkl] at h
    exact h.ended error he

theorem complete_softErrors (a : Account γ) (level : Level) :
    (complete a level).softErrors = a.softErrors := by
  unfold complete
  split <;> rfl

theorem Clean.value {ending : Course.End Flow} (hne : ending ≠ .interrupted)
    (h : (conclude engine a level below ending).Clean) : ∃ flow, ending = .value flow := by
  cases ending with
  | value flow => exact ⟨flow, rfl⟩
  | interrupted => exact absurd rfl hne
  | failure site error =>
    exfalso
    obtain ⟨hsoft, hended⟩ := h
    simp only [conclude, handleFailure] at hsoft hended
    split at hsoft
    · split at hsoft
      · cases hsoft
      · rw [advance, complete_softErrors] at hsoft
        cases hsoft
    · rename_i hhard
      rw [if_neg hhard] at hended
      exact hended error rfl

/-- A macro on its own, and the same macro on top of what was done before, with levels below. -/
inductive Within (b : Account γ) (below : List Level) : Stage γ → Stage γ → Prop where
  | going {t a : Account γ} {level : Level} {mid : List Level} : a.yield = b.yield ++ t.yield →
      Within b below ⟨t, level :: mid, none⟩ ⟨a, level :: (mid ++ below), none⟩
  | done {t a : Account γ} : a.yield = b.yield ++ t.yield →
      Within b below ⟨t, [], some (.ok false)⟩ (leave a below false)

theorem yield_complete (level : Level) :
    ∃ d : Yield, ∀ a : Account γ, (complete a level).yield = a.yield ++ d := by
  cases hget : level.routine.get? level.cursor with
  | some step =>
    exact ⟨.ofStep level.name step, fun a => by rw [complete_eq hget, Account.yield_plus]⟩
  | none =>
    refine ⟨⟨1, 0, [], []⟩, fun a => ?_⟩
    simp only [complete, hget]
    exact a.yield_plus ⟨1, 0, [], []⟩ a.game

theorem complete_onto {t : Account γ} (h : a.yield = b.yield ++ t.yield) (level : Level) :
    (complete a level).yield = b.yield ++ (complete t level).yield := by
  obtain ⟨d, hd⟩ := yield_complete (γ := γ) level
  rw [hd, hd, h, Yield.append_assoc]

theorem within_leave {t : Account γ} (h : a.yield = b.yield ++ t.yield) (mid : List Level) :
    Within b below (leave t mid false) (leave a (mid ++ below) false) := by
  cases mid with
  | nil => exact .done h
  | cons parent rest => exact .going (complete_onto h parent)

theorem within_conclude {t : Account γ} (h : a.yield = b.yield ++ t.yield) (level : Level)
    (mid : List Level) (flow : Flow) :
    Within b below (conclude engine t level mid (.value flow))
      (conclude engine a level (mid ++ below) (.value flow)) := by
  cases flow with
  | next | jump => exact .going (complete_onto h level)
  | finish => exact within_leave (complete_onto h level) mid
  | enter => exact .going h

theorem within_finishSteps {t : Account γ} (h : a.yield = b.yield ++ t.yield) (client : Client γ)
    (level : Level) (mid : List Level) :
    Within b below (finishSteps client t level mid)
      (finishSteps client a level (mid ++ below)) := by
  unfold finishSteps
  cases hcross : Frames.crossEnd level.frames with
  | none => exact within_leave h mid
  | some crossing =>
    have hcrossed : (cross client a crossing).yield =
        b.yield ++ (cross client t crossing).yield := by
      obtain ⟨game, hgame⟩ := cross_eq client a crossing
      obtain ⟨game', hgame'⟩ := cross_eq client t crossing
      rw [hgame, hgame', Account.yield_plus, Account.yield_plus, h, Yield.append_assoc]
    dsimp only
    split
    · exact .going hcrossed
    · exact within_leave hcrossed mid

theorem chain_append (mid below : List Level) :
    chain (mid ++ below) = chain below ++ chain mid := by
  simp [chain]

theorem length_leave (a : Account γ) (below : List Level) (stopped : Bool) :
    (leave a below stopped).levels.length = below.length := by
  cases below <;> rfl

/-- A step that leaves no error behind ends in a flow. -/
theorem flow_of_clean (steady : engine.client.Steady) {step : Step} {a' : Account γ}
    {level' : Level}
    (h : (conclude engine a' level' below (playStep engine a level below step).ending).Clean) :
    ∃ flow, (playStep engine a level below step).ending = .value flow := by
  obtain ⟨_, _, ending, _, hne, hfixed⟩ := Execution.fixed_step steady
    engine.rules (chain (level :: below)) level.cursor level.frames step
  obtain ⟨game, hgame⟩ := hfixed a
  refine h.value ?_
  rw [playStep, hgame]
  exact hne

theorem within_stride (steady : engine.client.Steady) (h : Within b below t n)
    (hlen : below.length < n.levels.length) (hclean : (n.stride engine).Clean) :
    Within b below (t.stride engine) (n.stride engine) := by
  cases h with
  | done =>
    rw [length_leave] at hlen
    exact absurd hlen (Nat.lt_irrefl _)
  | @going t a level mid h =>
    simp only [stride] at hclean ⊢
    cases hget : level.routine.get? level.cursor with
    | none => exact within_finishSteps h engine.client level mid
    | some step =>
      simp only [hget] at hclean
      obtain ⟨flow, hflow⟩ := flow_of_clean steady hclean
      have hsub : chain (level :: mid) ⊆ chain (level :: (mid ++ below)) := by
        rw [← List.cons_append, chain_append]
        exact List.subset_append_right _ _
      obtain ⟨d, frames, hplay⟩ := Execution.play_fewer steady hflow
      obtain ⟨game, hn⟩ := hplay _ (List.Subset.refl _) a
      obtain ⟨game', ht⟩ := hplay _ hsub t
      have honto : (a.plus d game).yield = b.yield ++ (t.plus d game').yield := by
        rw [Account.yield_plus, Account.yield_plus, h, Yield.append_assoc]
      dsimp only
      rw [playStep, playStep, hn, ht]
      exact within_conclude honto _ mid flow

theorem within_after (steady : engine.client.Steady) (h : Within b below t n) {k : Nat}
    (hlen : ∀ m < k, below.length < (n.after engine m).levels.length)
    (hclean : ∀ m ≤ k, (n.after engine m).Clean) :
    Within b below (t.after engine k) (n.after engine k) := by
  induction k with
  | zero => exact h
  | succ k ih =>
    have hk := ih (fun m hm => hlen m (by omega)) (fun m hm => hclean m (by omega))
    have hnext := hclean (k + 1) (Nat.le_refl _)
    rw [after_succ] at hnext ⊢
    rw [after_succ]
    exact within_stride steady hk (hlen k (by omega)) hnext

theorem yield_of_leave {a' : Account γ} (h : leave a below false = leave a' below false) :
    a.yield = a'.yield := by
  cases below with
  | nil => exact congrArg Account.yield (congrArg Stage.account h)
  | cons parent rest =>
    obtain ⟨d, hd⟩ := yield_complete (γ := γ) parent
    have hcomplete := congrArg Account.yield (congrArg Stage.account h)
    simp only [leave, advance, hd] at hcomplete
    exact Yield.append_cancel_right hcomplete

/-- A macro that was entered in a run without errors is left again. Until then it took the strides
of a run on its own, which ends with the same yield in whatever state of the game it begins. -/
theorem entered_leaves (steady : engine.client.Steady) {name : String} {routine : Routine} {K : Nat}
    {result : Except RunError Bool}
    (hs : s = ⟨a, ⟨name, routine, 0, []⟩ :: below, none⟩)
    (hended : (s.after engine K).ended = some result) (hclean : (s.after engine K).Clean) :
    ∃ j ≤ K, ∃ (a' : Account γ) (d : Yield), s.after engine j = leave a' below false ∧
      a'.yield = a.yield ++ d ∧ ∀ game, ∃ t, (start game name routine).after engine j =
        ⟨t, [], some (.ok false)⟩ ∧ t.yield = d := by
  have hclosed : s.Closed := by
    rw [hs]
    exact closed_going _ _
  have hlow : ∃ j, (s.after engine j).levels.length ≤ below.length :=
    ⟨K, by simp [closed_after hclosed K _ hended]⟩
  obtain ⟨j, hj, hleast⟩ : ∃ j, (s.after engine j).levels.length ≤ below.length ∧
      ∀ m < j, below.length < (s.after engine m).levels.length :=
    ⟨Nat.find hlow, Nat.find_spec hlow, fun m hm => Nat.lt_of_not_le (Nat.find_min hlow hm)⟩
  have hjK : j ≤ K := by
    by_contra hlt
    have hlong := hleast K (by omega)
    simp [closed_after hclosed K _ hended] at hlong
  have hover : ∀ game, ∃ t a', (start game name routine).after engine j =
      ⟨t, [], some (.ok false)⟩ ∧ s.after engine j = leave a' below false ∧
        a'.yield = a.yield ++ t.yield := by
    intro game
    have hwithin : Within a below (start game name routine) s := by
      have hyield : a.yield = a.yield ++ (⟨game, 0, 0, [], []⟩ : Account γ).yield := by
        ext1 <;> simp [Account.yield]
      rw [hs]
      exact .going hyield
    have hafter := within_after steady hwithin hleast
      fun m hm => hclean.before hclosed (Nat.le_trans hm hjK)
    generalize ht : (start game name routine).after engine j = t at hafter
    generalize hn : s.after engine j = n at hafter hj
    cases hafter with
    | going h =>
      simp only [List.length_cons, List.length_append] at hj
      omega
    | done h => exact ⟨_, _, rfl, rfl, h⟩
  obtain ⟨t, a', _, hn, hyield⟩ := hover a.game
  refine ⟨j, hjK, a', t.yield, hn, hyield, fun game => ?_⟩
  obtain ⟨t', a'', ht', hn', hyield'⟩ := hover game
  refine ⟨t', ht', ?_⟩
  rw [← yield_of_leave (hn.symm.trans hn'), hyield] at hyield'
  exact (Yield.append_cancel hyield').symm

end Stage
end MacroEngine
