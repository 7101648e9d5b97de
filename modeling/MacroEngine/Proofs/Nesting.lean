import MacroEngine.Proofs.Pausing
import MacroEngine.Proofs.Separation
import MacroEngine.Proofs.Unwinding

/-! Nested macros are compositional. A run does what its macro does on its own, with the yield of
a separate run for each macro that it calls, to any depth. -/
namespace MacroEngine

def Entry.hollow (entry : Entry) : Entry := { entry with text := "" }

/-- The library with the same macros, each of which does nothing. -/
def Library.hollow (lib : Library) : Library := ⟨lib.entries.map Entry.hollow⟩

def Engine.hollow (engine : Engine γ) : Engine γ :=
  { engine with rules := { engine.rules with library := engine.rules.library.hollow } }

theorem Library.hollow_find? (lib : Library) (name : String) :
    lib.hollow.find? name = (lib.find? name).map Entry.hollow := by
  simp only [hollow, find?, List.find?_map, Function.comp_def, Entry.hollow]

theorem empty_ofSource : Routine.ofSource "" = .ok ⟨[]⟩ := by decide +kernel

theorem Library.entry_of_native {lib : Library} {name : String} {routine : Routine}
    (h : lib.native name = .ok routine) :
    ∃ entry, lib.find? name = some entry ∧ entry.kind = .native := by
  cases hentry : lib.find? name with
  | none => simp [native, get, entry, hentry, bind, Except.bind] at h
  | some entry =>
    refine ⟨entry, rfl, ?_⟩
    cases hk : entry.kind with
    | native => rfl
    | script =>
      exfalso
      simp only [native, get, Library.entry, hentry, Entry.read, hk, bind, Except.bind] at h
      cases hp : Script.Program.ofSource entry.text <;>
        simp [hp, Except.map, Except.mapError, Source.native?] at h

theorem Library.hollow_native {lib : Library} {name : String} {routine : Routine}
    (h : lib.native name = .ok routine) : lib.hollow.native name = .ok ⟨[]⟩ := by
  obtain ⟨entry, hfind, hk⟩ := entry_of_native h
  have htext : entry.hollow.text = "" := rfl
  have hkind : entry.hollow.kind = .native := hk
  simp only [native, get, Library.entry, hollow_find?, hfind, Option.map_some, bind, Except.bind,
    Entry.read, hkind, htext, empty_ofSource, Except.map, Except.mapError, Source.native?]

namespace Snapshot

variable {engine : Engine γ} {s : Snapshot γ} {now : Moment} {game : γ} {name : String}
  {routine : Routine} {d : Yield}

/-- A run that is left alone ends without errors, and this is what it came to. -/
def Yields (engine : Engine γ) (s : Snapshot γ) (d : Yield) : Prop :=
  d.softErrors = [] ∧ ∃ n ended, (s.after engine n).run.outcome =
      some ⟨.ok ⟨s.run.name, d.steps, d.crossings, d.softErrors, false⟩, ended⟩ ∧
    (s.after engine n).run.fiber.journal.reverse.map Prod.snd = d.events

theorem softErrors_of_trips (engine : Engine γ) (hs : s.Sound name) (h : s.run.fiber.Trips) :
    (s.settle engine).account.softErrors ≠ [] := by
  obtain ⟨reason, next, hp⟩ := h
  obtain ⟨inv, below, hstack⟩ := List.exists_cons_of_ne_nil (hs.stacked _ hp)
  let notified := (s.run.fiber.account s.game).notify engine.client (reason ++ "; macro paused")
  have hupto : notified.Upto (s.settle engine).account := by
    unfold settle
    rw [Fiber.settle_busy hp hstack]
    exact (Activity.upto_play engine.client next notified inv.frames).trans
      (Stage.upto_conclude _ _ _ _ _)
  intro hnil
  have hsuffix := hupto.softErrors
  rw [hnil] at hsuffix
  cases List.suffix_nil.mp hsuffix

theorem free_of_clean (ht : engine.client.Timeless) {k : Nat} {result : Except RunError Bool}
    (hk : ((Stage.start game name routine).after engine k).ended = some result)
    (hclean : ((Stage.start game name routine).after engine k).Clean) :
    (start now game name routine).Free engine := by
  refine ⟨rfl, governed_start Lifecycle.kept_started _ _ _ _, fun n htrips => ?_⟩
  obtain ⟨hsound, _, l, hl⟩ := pauses_settle ht (moves_after (start now game name routine) n)
  have hclosed := Stage.closed_start game name routine
  apply softErrors_of_trips engine hsound htrips
  rw [hl]
  rcases Nat.le_total l k with h | h
  · exact (hclean.before hclosed h).softErrors
  · rw [Stage.after_ended hclosed hk h]
    exact hclean.softErrors

theorem yields_of_ended (ht : engine.client.Timeless) {k : Nat} {t : Account γ}
    (hk : (Stage.start game name routine).after engine k = ⟨t, [], some (.ok false)⟩)
    (hsoft : t.softErrors = []) : (start now game name routine).Yields engine t.yield := by
  have hended : (((start now game name routine).settle engine).after engine k).ended =
      some (.ok false) := by
    rw [settle_start, hk]
  have hfree : (start now game name routine).Free engine := by
    refine free_of_clean ht (k := k) (by rw [hk]) ?_
    rw [hk]
    exact ⟨hsoft, fun error h => nomatch h⟩
  have hsound := sound_start now game name routine
  obtain ⟨n, ended, hout, haccount⟩ := hfree.finishes ht hsound hended
  rw [settle_start, hk] at haccount
  dsimp only at haccount
  refine ⟨by simp [Account.yield, hsoft], n, ended, hout.trans ?_, ?_⟩
  · rw [← haccount]
    have hname : ((start now game name routine).after engine n).run.name = name :=
      (hsound.after n).name
    simp only [Except.map, Run.report, hname]
    rfl
  · rw [← haccount]
    simp [Account.yield, Fiber.account]

theorem stage_of_outcome (ht : engine.client.Timeless) {n : Nat} {report : Report} {ended : Moment}
    (h : ((start now game name routine).after engine n).run.outcome = some ⟨.ok report, ended⟩) :
    ∃ k stopped, (Stage.start game name routine).after engine k =
        ⟨((start now game name routine).after engine n).run.fiber.account
          ((start now game name routine).after engine n).game, [], some (.ok stopped)⟩ ∧
      report = ((start now game name routine).after engine n).run.report stopped := by
  obtain ⟨hsound, _, k, hk⟩ := pauses_settle ht (moves_after (start now game name routine) n)
  obtain ⟨result, hp, hres⟩ := hsound.outcome _ h
  cases result with
  | error => cases hres
  | ok stopped =>
    exact ⟨k, stopped, by rw [← hk, settle_ended hp], Except.ok.inj hres⟩

end Snapshot

/-- A separate run of a macro of the library yields this, whenever it begins and in whatever state
the game then is. -/
def Engine.Runs (engine : Engine γ) (name : String) (d : Yield) : Prop :=
  ∃ routine, engine.rules.library.native name = .ok routine ∧
    ∀ now game, (Snapshot.start now game name routine).Yields engine d

theorem Engine.Runs.yield_eq {engine : Engine γ} (ht : engine.client.Timeless) {name : String}
    {routine : Routine} {d : Yield} (h : engine.Runs name d)
    (hlib : engine.rules.library.native name = .ok routine) {game : γ} {k : Nat} {t : Account γ}
    (hk : (Stage.start game name routine).after engine k = ⟨t, [], some (.ok false)⟩) :
    t.yield = d := by
  obtain ⟨routine', hlib', hall⟩ := h
  obtain rfl : routine' = routine := Except.ok.inj (hlib'.symm.trans hlib)
  obtain ⟨_, n, ended, hout, hevents⟩ := hall 0 game
  obtain ⟨l, stopped, hl, hreport⟩ := Snapshot.stage_of_outcome ht hout
  have hsame := Stage.after_unique (Stage.closed_start game name routine')
    (congrArg Stage.ended hk) (congrArg Stage.ended hl)
  rw [hk, hl] at hsame
  have haccount : t = _ := congrArg Stage.account hsame
  rw [haccount]
  ext1
  · exact (congrArg Report.stepsExecuted hreport).symm
  · exact (congrArg Report.loopCrossings hreport).symm
  · exact (congrArg Report.softErrors hreport).symm
  · rw [← hevents]
    simp [Account.yield, Fiber.account]

namespace Stage

variable {engine : Engine γ} {runs : String → Yield} {s s' : Stage γ} {a h : Account γ}

/-- An account is that of a macro on its own, with what the macros yield that it calls. -/
structure Fills (engine : Engine γ) (runs : String → Yield) (h a : Account γ) : Prop where
  yield : a.yield = h.yield.expand runs
  calls : ∀ called ∈ h.yield.calls, engine.Runs called (runs called)

theorem Fills.plus (hf : Fills engine runs h a) {d : Yield}
    (hd : ∀ event ∈ d.events, event.call? = none) (game game' : γ) :
    Fills engine runs (h.plus d game) (a.plus d game') where
  yield := by
    rw [Account.yield_plus, Account.yield_plus, Yield.expand_append, hf.yield,
      Yield.expand_of_no_calls hd]
  calls := by
    rw [Account.yield_plus, Yield.calls_append]
    intro called hc
    rcases List.mem_append.mp hc with hc | hc
    · exact hf.calls called hc
    · obtain ⟨event, he, hcall⟩ := List.mem_filterMap.mp hc
      rw [hd event he] at hcall
      cases hcall

theorem Fills.call (hf : Fills engine runs h a) {a' : Account γ} {name called : String}
    {step : Step}
    (hc : step.command = .runMacro called) (hruns : engine.Runs called (runs called))
    (hsoft : (runs called).softErrors = []) (ha : a'.yield = a.yield ++ runs called)
    (game game' : γ) :
    Fills engine runs (h.plus (.ofStep name step) game) (a'.plus (.ofStep name step) game') where
  yield := by
    rw [Account.yield_plus, Account.yield_plus, Yield.expand_append, ← hf.yield, ha,
      Yield.expand_call hc hsoft, Yield.append_assoc]
  calls := by
    rw [Account.yield_plus, Yield.calls_append]
    intro other hother
    rcases List.mem_append.mp hother with ho | ho
    · exact hf.calls other ho
    · obtain ⟨event, he, hcall⟩ := List.mem_filterMap.mp ho
      obtain rfl := List.mem_singleton.mp he
      rw [Yield.call?_called hc] at hcall
      cases hcall
      exact hruns

inductive Together (engine : Engine γ) (runs : String → Yield) : Stage γ → Stage γ → Prop where
  | going {h a : Account γ} {level : Level} : Fills engine runs h a →
      Together engine runs ⟨a, [level], none⟩ ⟨h, [level], none⟩
  | done {h a : Account γ} : Fills engine runs h a →
      Together engine runs ⟨a, [], some (.ok false)⟩ ⟨h, [], some (.ok false)⟩

variable {level : Level} {step : Step}

theorem fills_complete (hf : Fills engine runs h a)
    (hget : level.routine.get? level.cursor = some step)
    (hplain : ∀ called, step.command ≠ .runMacro called) :
    Fills engine runs (complete h level) (complete a level) := by
  rw [complete_eq hget, complete_eq hget]
  refine hf.plus (fun event he => ?_) _ _
  obtain rfl := List.mem_singleton.mp he
  exact Yield.call?_completed hplain

theorem together_finishSteps (hf : Fills engine runs h a) (level : Level) :
    Together engine runs (finishSteps engine.client a level [])
      (finishSteps engine.client h level []) := by
  unfold finishSteps
  cases hcross : Frames.crossEnd level.frames with
  | none => exact .done hf
  | some crossing =>
    have hcrossed : Fills engine runs (cross engine.client h crossing)
        (cross engine.client a crossing) := by
      obtain ⟨game, hgame⟩ := cross_eq engine.client h crossing
      obtain ⟨game', hgame'⟩ := cross_eq engine.client a crossing
      rw [hgame, hgame']
      refine hf.plus (fun event he => ?_) _ _
      obtain ⟨text, _, rfl⟩ := List.mem_map.mp he
      rfl
    dsimp only
    split
    · exact .going hcrossed
    · exact .done hcrossed

/-- A step that calls no macro is the same whether there are others or not. -/
theorem together_plain (steady : engine.client.Steady) (hf : Fills engine runs h a)
    (hget : level.routine.get? level.cursor = some step)
    (hplain : ∀ called, step.command ≠ .runMacro called)
    (hclean : (stride engine ⟨a, [level], none⟩).Clean) :
    Together engine runs (stride engine ⟨a, [level], none⟩)
      (stride engine.hollow ⟨h, [level], none⟩) := by
  simp only [stride, hget] at hclean ⊢
  obtain ⟨flow, hflow⟩ := flow_of_clean steady hclean
  have hfixed : (Execution.step engine.rules (chain [level]) level.cursor level.frames step).Fixed
      engine.client level.frames := Execution.fixed_step steady _ _ _ _ _
  obtain ⟨d, frames, ending, hd, _, hfixed⟩ := hfixed
  obtain ⟨game, hgame⟩ := hfixed a
  obtain ⟨game', hgame'⟩ := hfixed h
  have hnoenter : ∀ name routine wait, flow ≠ .enter name routine wait := by
    rintro name routine wait rfl
    have hleads := Activity.ensures_play engine.client _ (Execution.ensures_step engine.rules
      (chain [level]) level.cursor step) hflow
    exact hplain name hleads.enter
  have hhollow : playStep engine.hollow h level [] step = ⟨h.plus d game', frames, ending⟩ := by
    have hconfig : engine.hollow.rules.config = engine.rules.config := rfl
    rw [← hgame', playStep,
      Execution.step_plain hconfig (chain [level]) _ level.cursor level.frames hplain]
    rfl
  have hown : playStep engine a level [] step = ⟨a.plus d game, frames, ending⟩ := hgame
  rw [hown] at hflow
  rw [hown, hhollow]
  cases hflow
  have hplus := hf.plus (fun event he => Yield.call?_of_isCommand (hd event he)) game' game
  have hcomplete : Fills engine runs (complete (h.plus d game') { level with frames := frames })
      (complete (a.plus d game) { level with frames := frames }) := fills_complete hplus hget hplain
  cases flow with
  | next | jump => exact .going hcomplete
  | finish => exact .done hcomplete
  | enter => exact absurd rfl (hnoenter _ _ _)

/-- A call enters the macro, which is empty in the hollow library. -/
theorem stride_call (steady : engine.client.Steady)
    (hget : level.routine.get? level.cursor = some step) {called : String}
    (hc : step.command = .runMacro called) (hclean : (stride engine ⟨a, [level], none⟩).Clean) :
    ∃ routine, engine.rules.library.native called = .ok routine ∧
      stride engine ⟨a, [level], none⟩ = ⟨a, [⟨called, routine, 0, []⟩, level], none⟩ ∧
      ∀ h, stride engine.hollow ⟨h, [level], none⟩ =
        ⟨h, [⟨called, ⟨[]⟩, 0, []⟩, level], none⟩ := by
  simp only [stride, hget] at hclean ⊢
  obtain ⟨flow, hflow⟩ := flow_of_clean steady hclean
  obtain ⟨routine, wait, hlib, hplay⟩ := Execution.play_enter steady hc hflow
  have hsub : chain [level] ⊆ chain [level] := List.Subset.refl _
  refine ⟨routine, hlib, ?_, fun h => ?_⟩
  · rw [playStep, hplay engine.rules _ routine rfl hsub hlib a]
    rfl
  · have hhollow : playStep engine.hollow h level [] step =
        ⟨h, level.frames, .value (.enter called ⟨[]⟩ wait)⟩ :=
      hplay engine.hollow.rules _ ⟨[]⟩ rfl hsub (Library.hollow_native hlib) h
    rw [hhollow]
    rfl

/-- A call: the macro is entered and left again, while that in the hollow library does nothing. -/
theorem together_call (steady : engine.client.Steady)
    (hruns : ∀ called d, engine.Runs called d → engine.Runs called (runs called))
    (hf : Fills engine runs h a) (hget : level.routine.get? level.cursor = some step)
    {called : String} (hc : step.command = .runMacro called) {k : Nat}
    {result : Except RunError Bool}
    (hended : (after engine ⟨a, [level], none⟩ (1 + k)).ended = some result)
    (hclean : (after engine ⟨a, [level], none⟩ (1 + k)).Clean) :
    ∃ j ≤ k, Together engine runs (after engine ⟨a, [level], none⟩ (1 + j))
      (after engine.hollow ⟨h, [level], none⟩ 2) := by
  have hclosed := closed_going a [level]
  obtain ⟨routine, hlib, hentered, hhollow⟩ :=
    stride_call steady hget hc (hclean.before hclosed (k := 1) (by omega))
  have hrest : ∀ l, after engine ⟨a, [level], none⟩ (1 + l) =
      after engine ⟨a, [⟨called, routine, 0, []⟩, level], none⟩ l := by
    intro l
    rw [after_add, after_one, hentered]
  obtain ⟨j, hj, a', d, hleft, hyield, halone⟩ :=
    entered_leaves steady rfl (hrest k ▸ hended) (hrest k ▸ hclean)
  have hsoft : d.softErrors = [] := by
    have hnone := (hclean.before hclosed (k := 1 + j) (by omega)).softErrors
    rw [hrest, hleft, leave, advance, complete_softErrors] at hnone
    have happend := congrArg Yield.softErrors hyield
    simp only [Account.yield, hnone, Yield.append_softErrors, List.reverse_nil] at happend
    exact (List.append_eq_nil_iff.mp happend.symm).2
  have hd : engine.Runs called d := by
    refine ⟨routine, hlib, fun now game => ?_⟩
    obtain ⟨t, ht, rfl⟩ := halone game
    refine Snapshot.yields_of_ended steady.timeless ht ?_
    simpa [Account.yield] using hsoft
  have hsame : d = runs called := by
    obtain ⟨t, ht, rfl⟩ := halone a.game
    exact (hruns called _ hd).yield_eq steady.timeless hlib ht
  refine ⟨j, hj, ?_⟩
  rw [hrest, hleft, after_succ, after_one, hhollow]
  subst hsame
  have hcall : Fills engine runs (complete h level) (complete a' level) := by
    rw [complete_eq hget, complete_eq hget]
    exact hf.call hc hd hsoft hyield _ _
  exact .going hcall

/-- Strong induction on the strides that are left, as a call takes many. -/
theorem together_after (steady : engine.client.Steady)
    (hruns : ∀ called d, engine.Runs called d → engine.Runs called (runs called)) (k : Nat) :
    ∀ {s s' : Stage γ} {result : Except RunError Bool}, Together engine runs s s' →
      (s.after engine k).ended = some result → (s.after engine k).Clean →
      ∃ l t a, s.after engine k = ⟨a, [], some (.ok false)⟩ ∧
        s'.after engine.hollow l = ⟨t, [], some (.ok false)⟩ ∧ Fills engine runs t a := by
  induction k using Nat.strongRecOn with
  | ind k ih =>
    intro s s' result htogether hended hclean
    cases htogether with
    | @done h a hf =>
      have hclosed : (⟨a, [], some (.ok false)⟩ : Stage γ).Closed := fun _ _ => rfl
      exact ⟨0, h, a, after_ended hclosed (k := 0) rfl (Nat.zero_le k), rfl, hf⟩
    | @going h a level hf =>
      have hlater : ∀ j l, 0 < j → j ≤ k → Together engine runs
          (after engine ⟨a, [level], none⟩ j) (after engine.hollow ⟨h, [level], none⟩ l) →
          ∃ l t a', after engine ⟨a, [level], none⟩ k = ⟨a', [], some (.ok false)⟩ ∧
            after engine.hollow ⟨h, [level], none⟩ l = ⟨t, [], some (.ok false)⟩ ∧
            Fills engine runs t a' := by
        intro j l hpos hj hnext
        obtain ⟨m, rfl⟩ := Nat.exists_eq_add_of_le hj
        rw [after_add] at hended hclean ⊢
        obtain ⟨l', t, a', ha, ht, hf'⟩ := ih m (by omega) hnext hended hclean
        exact ⟨l + l', t, a', ha, by rw [after_add, ht], hf'⟩
      cases k with
      | zero => cases hended
      | succ k =>
        have hfirst : (stride engine ⟨a, [level], none⟩).Clean :=
          hclean.before (closed_going a [level]) (k := 1) (by omega)
        cases hget : level.routine.get? level.cursor with
        | none =>
          refine hlater 1 1 (by omega) (by omega) ?_
          have hfinish := together_finishSteps hf level
          simp only [after_one, stride, hget]
          exact hfinish
        | some step =>
          by_cases hcall : ∃ called, step.command = .runMacro called
          · obtain ⟨called, hc⟩ := hcall
            rw [Nat.add_comm] at hended hclean
            obtain ⟨j, hj, hnext⟩ := together_call steady hruns hf hget hc hended hclean
            exact hlater (1 + j) 2 (by omega) (by omega) hnext
          · have hplain : ∀ called, step.command ≠ .runMacro called :=
              fun called hc => hcall ⟨called, hc⟩
            exact hlater 1 1 (by omega) (by omega) (together_plain steady hf hget hplain hfirst)

end Stage

theorem Engine.exists_runs (engine : Engine γ) :
    ∃ runs : String → Yield, ∀ called d, engine.Runs called d →
      engine.Runs called (runs called) := by
  have hchoice : ∀ called, ∃ d, ∀ d', engine.Runs called d' → engine.Runs called d := by
    intro called
    by_cases h : ∃ d, engine.Runs called d
    · obtain ⟨d, hd⟩ := h
      exact ⟨d, fun _ _ => hd⟩
    · exact ⟨.zero, fun d' hd' => absurd ⟨d', hd'⟩ h⟩
  exact Classical.skolem.mp hchoice

namespace Snapshot

variable {engine : Engine γ} {now : Moment} {game : γ} {name : String} {routine : Routine}

/-- A run whose stages end well is at no moment ended by an error. -/
theorem unfailing_of_ended (ht : engine.client.Timeless) {k : Nat} {stopped : Bool}
    (hk : ((Stage.start game name routine).after engine k).ended = some (.ok stopped)) (n : Nat)
    (error : RunError) :
    ((start now game name routine).after engine n).run.fiber.phase ≠ .ended (.error error) := by
  intro hp
  obtain ⟨_, _, l, hl⟩ := pauses_settle ht (moves_after (start now game name routine) n)
  have hfailed : ((Stage.start game name routine).after engine l).ended = some (.error error) := by
    rw [← hl, settle_ended hp]
  have hsame := Stage.after_unique (Stage.closed_start game name routine) hk hfailed
  rw [hsame] at hk
  cases hfailed.symm.trans hk

/-- Nested macros are compositional, in a game whose answers never change. A run that ends without
an error has completed every step that it came to; so every macro that it called exists, and none
was called by itself. Its own steps are those of the run in which all that it calls does nothing. -/
theorem nested_runs (steady : engine.client.Steady) {n : Nat} {report : Report} {ended : Moment}
    (hover : ((start now game name routine).after engine n).run.outcome = some ⟨.ok report, ended⟩)
    (hclean : report.softErrors = []) :
    (∃ (own : Yield) (runs : String → Yield),
      (start now game name routine).Yields engine.hollow own ∧
      (∀ called ∈ own.calls, engine.Runs called (runs called)) ∧
      ((start now game name routine).after engine n).run.fiber.journal.reverse.map Prod.snd =
        own.events.flatMap (Yield.fill runs) ∧
      commands ((start now game name routine).after engine n).run.fiber.journal =
        own.events.flatMap (Yield.sent runs) ∧
      report.stepsExecuted = own.steps + (own.calls.map fun called => (runs called).steps).sum ∧
      report.loopCrossings =
        own.crossings + (own.calls.map fun called => (runs called).crossings).sum) ∧
    ∀ k, ((start now game name routine).after engine k).Unwinds engine := by
  have ht := steady.timeless
  obtain ⟨K, stopped, hK, hreport⟩ := stage_of_outcome ht hover
  have hstage : ((Stage.start game name routine).after engine K).Clean := by
    rw [hK]
    refine ⟨?_, fun error h => nomatch h⟩
    rw [hreport] at hclean
    exact List.reverse_eq_nil_iff.mp hclean
  have hended : ((Stage.start game name routine).after engine K).ended = some (.ok stopped) := by
    rw [hK]
  have hfree : (start now game name routine).Free engine := free_of_clean ht hended hstage
  constructor
  · obtain ⟨runs, hruns⟩ := engine.exists_runs
    have hfills : Stage.Fills engine runs (⟨game, 0, 0, [], []⟩ : Account γ) ⟨game, 0, 0, [], []⟩ :=
      ⟨rfl, fun _ h => absurd h List.not_mem_nil⟩
    obtain ⟨l, t, a, ha, hl, hf⟩ :=
      Stage.together_after steady hruns K (.going hfills) hended hstage
    have hcome : (Stage.start game name routine).after engine K = _ := ha
    rw [hK] at hcome
    obtain ⟨rfl, _⟩ := Stage.mk.inj hcome
    have hsoft : t.yield.softErrors = [] := by
      have hexpand := congrArg Yield.softErrors hf.yield
      rw [hreport] at hclean
      exact hexpand.symm.trans hclean
    have hollow : engine.hollow.client.Timeless := ht
    have hown : (start now game name routine).Yields engine.hollow t.yield :=
      yields_of_ended hollow hl (by simpa [Account.yield] using hsoft)
    refine ⟨t.yield, runs, hown, hf.calls, ?_, ?_, ?_, ?_⟩
    · rw [List.map_reverse]
      exact congrArg Yield.events hf.yield
    · rw [commands_eq _ ((start now game name routine).after engine n).run.fiber,
        ← Yield.commands_expand, ← hf.yield]
      rfl
    · rw [hreport]
      exact congrArg Yield.steps hf.yield
    · rw [hreport]
      exact congrArg Yield.crossings hf.yield
  · intro k
    refine (hfree.after k).unwinds (hfree.stands_after (stands_start ..) k) fun error => ?_
    rw [← after_succ]
    exact unfailing_of_ended ht hended (k + 1) error

def steadyStill : Client.still.Steady where
  seen := Client.still.view () 0
  acknowledged _ := true
  refusal _ := none
  reply _ := .ok ()
  timeless := timeless_still
  view _ := ⟨fun _ => true, rfl⟩
  refuses _ _ _ h := nomatch h
  issues _ _ _ := ⟨0, rfl, rfl⟩
  performs _ _ := rfl

def pantry : Library :=
  ⟨[⟨"pour", .native, "/echo milk\n/craft 0\n/echo sugar"⟩,
    ⟨"brew", .native, "/runmacro pour\n/echo tea"⟩]⟩

def serving : Routine :=
  ⟨[⟨1, .loop (.finite 2), "2", {}⟩, ⟨2, .runMacro "brew", "brew", {}⟩,
    ⟨3, .echo "cup", "cup", {}⟩]⟩

theorem nested_runs_serving :
    ∃ (own : Yield) (runs : String → Yield),
      (start 0 () "m" serving).Yields (Engine.still pantry).hollow own ∧
      (∀ called ∈ own.calls, (Engine.still pantry).Runs called (runs called)) ∧
      own.events.flatMap (Yield.sent runs) =
        [.echoed "milk", .echoed "tea", .echoed "cup", .echoed "milk", .echoed "tea",
          .echoed "cup"] ∧
      14 = own.steps + (own.calls.map fun called => (runs called).steps).sum := by
  have hover : (((start 0 () "m" serving).after (.still pantry) 80).run.outcome.bind
      fun o => o.result.toOption) = some ⟨"m", 14, 4, [], false⟩ := by decide +kernel
  obtain ⟨⟨result, ended⟩, hout, hresult⟩ := Option.bind_eq_some_iff.mp hover
  cases result with
  | error => cases hresult
  | ok report =>
    cases hresult
    obtain ⟨⟨own, runs, hown, hcalls, _, hcommands, hsteps, _⟩, _⟩ :=
      nested_runs steadyStill hout rfl
    refine ⟨own, runs, hown, hcalls, ?_, hsteps⟩
    rw [← hcommands]
    decide +kernel

end Snapshot
end MacroEngine
