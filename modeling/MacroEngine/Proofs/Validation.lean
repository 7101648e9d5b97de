import MacroEngine.Proofs.StepReading
import MacroEngine.Routine.Resolution

/-! The modifiers of a step that was read, brought to concrete values. Amounts were checked when
they were read, and nothing that passed is refused later: what can still be wrong is a modifier that
the command does not take, or a condition that the game does not know. -/
namespace MacroEngine
open Text Number

namespace Binary64

variable {x y : Binary64} {rank : Nat}

theorem lt_of_le (h : x.le y = true) : y.lt x = false := by
  unfold le lt order? at *
  cases hx : x.place? with
  | none => simp
  | some a =>
    cases hy : y.place? with
    | none => simp
    | some b =>
      have hle : a ≤ b := by
        simp only [hx, hy, Option.bind_eq_bind, Option.bind_some, pure, Option.some_beq_some,
          Bool.or_eq_true, beq_iff_eq, compare_lt_iff_lt, compare_eq_iff_eq] at h
        omega
      have hnot : compare b a ≠ .lt := by
        rw [Ne, compare_lt_iff_lt]
        omega
      simp [hnot]

/-- From `2 ^ 53` on all magnitudes are whole. -/
theorem units_whole (h : 2 * runLength * unitsPerOne ≤ units rank) :
    unitsPerOne ∣ units rank := by
  have hpos : 0 < runLength := by rw [runLength_eq]; exact Nat.two_pow_pos 52
  by_cases hsmall : rank < runLength
  · have hone := Nat.le_mul_of_pos_right (2 * runLength) unitsPerOne_pos
    rw [units_small hsmall] at h
    omega
  · obtain ⟨run, m, hlow, hhigh, rfl⟩ := exists_mantissa (Nat.le_of_not_lt hsmall)
    rw [units_mantissa hlow hhigh] at h ⊢
    rw [unitsPerOne_eq] at h ⊢
    generalize 1074 = k at h ⊢
    have hrun : k < run := by
      apply (Nat.pow_lt_pow_iff_right Nat.one_lt_two).mp
      apply Nat.lt_of_mul_lt_mul_left (a := 2 * runLength)
      exact Nat.lt_of_le_of_lt h (Nat.mul_lt_mul_of_pos_right hhigh (Nat.two_pow_pos run))
    exact Dvd.dvd.mul_left (Nat.pow_dvd_pow 2 (Nat.le_of_lt hrun)) m

end Binary64

namespace Duration

variable {secs : Binary64} {d : Duration}

theorem roundHalfEven_le (num den : Nat) : roundHalfEven num den ≤ num / den + 1 := by
  unfold roundHalfEven
  dsimp only
  split <;> omega

/-- Seconds that can be waited come to less than the longest span: those that round up are far from
it, and those that are near it are whole. -/
theorem lt_max_of_ofSeconds? (h : ofSeconds? secs = some d) : d.nanos < Duration.max.nanos := by
  unfold ofSeconds? at h
  split at h
  · rename_i rank hrank
    rw [Option.ite_none_right_eq_some] at h
    obtain ⟨hlt, h⟩ := h
    cases h
    by_cases hwhole : 2 * Binary64.runLength * Binary64.unitsPerOne ≤ Binary64.units rank
    · obtain ⟨n, hn⟩ := Binary64.units_whole hwhole
      rw [hn, Nat.mul_comm] at hlt
      have hbound : n < max64 + 1 := Nat.lt_of_mul_lt_mul_right hlt
      rw [hn, Nat.mul_comm Binary64.unitsPerOne, Nat.mul_right_comm,
        roundHalfEven_mul Binary64.unitsPerOne_pos]
      have hsecond : nanosPerSecond = 1000000000 := rfl
      change n * nanosPerSecond < (max64 + 1) * nanosPerSecond - 1
      rw [hsecond]
      omega
    · refine Nat.lt_of_le_of_lt (roundHalfEven_le _ _) ?_
      have hsmall : Binary64.units rank * nanosPerSecond / Binary64.unitsPerOne <
          2 * Binary64.runLength * nanosPerSecond := by
        apply (Nat.div_lt_iff_lt_mul Binary64.unitsPerOne_pos).mpr
        rw [Nat.mul_right_comm]
        exact Nat.mul_lt_mul_of_pos_right (Nat.lt_of_not_le hwhole) (by decide)
      refine Nat.lt_of_le_of_lt (Nat.succ_le_of_lt hsmall) ?_
      decide
  · cases h

end Duration

theorem WaitSpan.checkWait_of_read {cs : List Char} {span : WaitSpan} (h : read cs = some span) :
    checkWait span = .ok () := by
  unfold read at h
  split at h
  · obtain ⟨d, hd, rfl⟩ := Option.map_eq_some_iff.mp h
    simp [checkWait, hd]
  · split at h
    · rw [Option.ite_none_right_eq_some] at h
      obtain ⟨hle, h⟩ := h
      obtain ⟨d, hd, rfl⟩ := Option.map_eq_some_iff.mp h
      simp [checkWait, Binary64.lt_of_le hle, hd]
    · cases h
  · cases h

theorem WaitSpan.sample_fixed {secs : Binary64} (h : checkWait (.fixed secs) = .ok ()) (draw : Draw)
    (n : Nat) : Duration.ofSeconds? secs = some (sample draw n (.fixed secs)) ∧
      sample draw n (.fixed secs) ≠ Duration.max := by
  cases hd : Duration.ofSeconds? secs with
  | none => simp [checkWait, hd] at h
  | some d =>
    have hsample : sample draw n (.fixed secs) = d := by simp [sample, hd]
    rw [hsample]
    refine ⟨rfl, fun hmax => ?_⟩
    exact absurd (Duration.lt_max_of_ofSeconds? hd) (by rw [hmax]; exact Nat.lt_irrefl _)

theorem ofSeconds?_of_readSeconds {cs : List Char} {secs : Binary64}
    (h : readSeconds cs = some secs) : ∃ d, Duration.ofSeconds? secs = some d := by
  unfold readSeconds at h
  split at h
  · obtain ⟨d, hd, rfl⟩ := Option.map_eq_some_iff.mp h
    exact ⟨d, hd⟩
  · cases h

structure Modifiers.Waitable (mods : Modifiers) : Prop where
  wait : checkWait (mods.wait.getD .zero) = .ok ()
  maxWait : ∀ secs ∈ mods.maxWait, ∃ d, Duration.ofSeconds? secs = some d

theorem Modifiers.Settled.waitable {mods : Modifiers} (h : mods.Settled) : mods.Waitable := by
  constructor
  · cases hwait : mods.wait with
    | none => decide
    | some span =>
      have hput := (h .wait).given (by simp [has, hwait])
      have hread : WaitSpan.read span.text = some span := by
        simpa [put?, valueText, only, hwait, Option.bind_eq_some_iff] using hput
      exact WaitSpan.checkWait_of_read hread
  · intro secs hsecs
    have hput := (h .maxWait).given (by simp [has, Option.mem_def.mp hsecs])
    have hread : readSeconds secs.text = some secs := by
      simpa [put?, valueText, only, Option.mem_def.mp hsecs, Option.bind_eq_some_iff] using hput
    exact ofSeconds?_of_readSeconds hread

/-- A step that was read, in a text or on its own. -/
def Step.WasRead (step : Step) : Prop :=
  (∃ cs routine, Routine.read cs = .ok routine ∧ step ∈ routine.steps) ∨
    ∃ s, Step.read s = .ok (some step)

section Reading

variable {cs : List Char} {n : Nat} {step : Step}

theorem waitable_of_readLine (h : readLine n cs = .ok (some step)) : step.modifiers.Waitable := by
  unfold readLine at h
  split at h
  · cases h
  · dsimp only at h
    obtain ⟨⟨args, mods⟩, hsplit, h⟩ := bind_eq_ok.mp h
    obtain ⟨command, -, h⟩ := bind_eq_ok.mp h
    cases h
    exact (kept_of_splitTags (mapError_eq_ok.mp hsplit)).settled.waitable
  · dsimp only at h
    obtain ⟨⟨args, mods⟩, hsplit, h⟩ := bind_eq_ok.mp h
    cases h
    exact (kept_of_splitTags (mapError_eq_ok.mp hsplit)).settled.waitable

theorem waitable_of_readLines {ls : List (Nat × List Char)} {steps : List Step}
    (h : readLines ls = .ok steps) : ∀ step ∈ steps, step.modifiers.Waitable := by
  induction ls generalizing steps with
  | nil =>
    cases h
    exact fun _ hm => absurd hm List.not_mem_nil
  | cons l ls ih =>
    obtain ⟨first, hfirst, h⟩ := bind_eq_ok.mp h
    obtain ⟨more, hmore, h⟩ := bind_eq_ok.mp h
    cases h
    intro step hm
    rcases List.mem_append.mp hm with hm | hm
    · obtain rfl : first = some step := by simpa using hm
      exact waitable_of_readLine hfirst
    · exact ih hmore step hm

theorem Step.WasRead.waitable (h : step.WasRead) : step.modifiers.Waitable := by
  rcases h with ⟨cs, routine, hread, hm⟩ | ⟨s, hread⟩
  · obtain ⟨steps, hsteps, rfl⟩ := map_eq_ok.mp hread
    exact waitable_of_readLines hsteps step hm
  · exact waitable_of_readLine hread

end Reading

/-- The default of settings that were brought into their ranges can be waited. -/
theorem Config.normalized_maxWait (config : Config) :
    Duration.ofSeconds? config.normalized.defaultMaxWait = some config.normalized.maxWait := by
  have hfallback : Duration.ofSeconds? fallbackMaxWait = some (.ofSeconds 5) := by
    have hsmall : 5 ≤ max32 := by decide
    rw [fallbackMaxWait, Binary64.ofNat, ← wholeSeconds_eq hsmall, ofSeconds?_whole hsmall]
  have hsome : ∃ d, Duration.ofSeconds? config.normalized.defaultMaxWait = some d := by
    unfold normalized
    dsimp only
    split
    · exact ⟨_, hfallback⟩
    · rename_i hgood
      simp only [Bool.or_eq_true, not_or, Bool.not_eq_true, Option.isNone_eq_false_iff] at hgood
      exact Option.isSome_iff_exists.mp hgood.2
  obtain ⟨d, hd⟩ := hsome
  rw [maxWait, hd, Option.getD_some]

def ConditionTerm.Known (names : List String) (term : ConditionTerm) : Prop :=
  ∃ name ∈ names, nameKey name = nameKey term.name

instance (names : List String) (term : ConditionTerm) : Decidable (term.Known names) :=
  inferInstanceAs (Decidable (∃ name ∈ names, nameKey name = nameKey term.name))

section Resolving

variable {names : List String} {before after terms : List ConditionTerm} {term : ConditionTerm}
  {config : Config} {step : Step}

theorem any_sameName : (names.any fun name => sameName name term.name) = true ↔ term.Known names := by
  simp [sameName, ConditionTerm.Known]

theorem unknownTerm?_first (hnames : names ≠ []) (hbefore : ∀ t ∈ before, t.Known names)
    (hterm : ¬ term.Known names) :
    unknownTerm? names (before ++ term :: after) = some term := by
  unfold unknownTerm?
  rw [if_neg (by simpa using hnames)]
  refine List.find?_eq_some_iff_append.mpr ⟨?_, before, after, rfl, fun t ht => ?_⟩
  · simpa [← any_sameName] using hterm
  · simpa [← any_sameName] using hbefore t ht

theorem unknownTerm?_none (h : names = [] ∨ ∀ t ∈ terms, t.Known names) :
    unknownTerm? names terms = none := by
  unfold unknownTerm?
  rcases h with rfl | h
  · rfl
  · split
    · rfl
    · refine List.find?_eq_none.mpr fun t ht => ?_
      simpa [← any_sameName] using h t ht

theorem resolve_unsupported {before after : List ModifierKind} {kind : ModifierKind}
    (hkinds : step.modifiers.kinds = before ++ kind :: after)
    (hbefore : ∀ k ∈ before, step.command.accepts k = true)
    (hkind : step.command.accepts kind = false) :
    resolve config names step = .error (.notSupported kind step.command.name) := by
  have hfind : (step.modifiers.kinds.find? fun k => !step.command.accepts k) = some kind :=
    List.find?_eq_some_iff_append.mpr
      ⟨by simp [hkind], before, after, hkinds, fun k hk => by simp [hbefore k hk]⟩
  unfold resolve
  simp only [hfind]
  rfl

def Step.effective (config : Config) (step : Step) (maxWait : Duration) : Effective where
  wait := step.modifiers.wait.getD .zero
  maxWait := maxWait
  condition := step.modifiers.condition
  unconfirmed := step.modifiers.unconfirmed
  echo := step.modifiers.echo || (config.loopEcho && step.command.isBoundary)
  index := step.modifiers.index
  list := step.modifiers.list
  hq := step.modifiers.hq

/-- Where all modifiers are taken, only the condition can be refused. -/
theorem resolve_supported (config : Config) (names : List String)
    (hwait : step.modifiers.Waitable)
    (hkinds : ∀ kind ∈ step.modifiers.kinds, step.command.accepts kind = true) :
    ∃ maxWait, (∀ secs ∈ step.modifiers.maxWait, Duration.ofSeconds? secs = some maxWait) ∧
      (step.modifiers.maxWait = none → maxWait = config.maxWait) ∧
      resolve config names step =
        match unknownTerm? names (step.modifiers.condition.getD []) with
        | some term => .error (.unknownCondition term.name)
        | none => .ok (step.effective config maxWait) := by
  have hfind : (step.modifiers.kinds.find? fun k => !step.command.accepts k) = none :=
    List.find?_eq_none.mpr fun kind hkind => by simp [hkinds kind hkind]
  have hterms : step.modifiers.condition.bind (unknownTerm? names) =
      unknownTerm? names (step.modifiers.condition.getD []) := by
    cases step.modifiers.condition with
    | none => exact (unknownTerm?_none (.inr fun _ ht => absurd ht List.not_mem_nil)).symm
    | some terms => rfl
  unfold resolve
  simp only [hfind, hwait.wait, hterms]
  generalize unknownTerm? names (step.modifiers.condition.getD []) = unknown
  cases hmax : step.modifiers.maxWait with
  | none =>
    refine ⟨config.maxWait, fun _ hs => absurd hs (by simp), fun _ => rfl, ?_⟩
    cases unknown <;> rfl
  | some secs =>
    obtain ⟨d, hd⟩ := hwait.maxWait secs hmax
    refine ⟨d, fun _ hs => Option.some.inj hs ▸ hd, fun hs => absurd hs (by simp), ?_⟩
    simp only [hd]
    cases unknown <;> rfl

/-- A step with amounts that can be waited is refused for nothing else. -/
theorem resolve_outcome (config : Config) (names : List String) (hwait : step.modifiers.Waitable) :
    (∃ kind, resolve config names step = .error (.notSupported kind step.command.name)) ∨
      (∃ name, resolve config names step = .error (.unknownCondition name)) ∨
        ∃ eff, resolve config names step = .ok eff := by
  by_cases hkinds : ∀ kind ∈ step.modifiers.kinds, step.command.accepts kind = true
  · obtain ⟨maxWait, -, -, hresult⟩ := resolve_supported config names hwait hkinds
    rw [hresult]
    cases unknownTerm? names (step.modifiers.condition.getD []) with
    | some term => exact .inr (.inl ⟨_, rfl⟩)
    | none => exact .inr (.inr ⟨_, rfl⟩)
  · left
    cases hfind : step.modifiers.kinds.find? fun k => !step.command.accepts k with
    | none => exact absurd (fun k hk => by simpa using List.find?_eq_none.mp hfind k hk) hkinds
    | some kind =>
      obtain ⟨hkind, before, after, hsplit, hbefore⟩ := List.find?_eq_some_iff_append.mp hfind
      exact ⟨kind, resolve_unsupported hsplit (fun k hk => by simpa using hbefore k hk)
        (by simpa using hkind)⟩

end Resolving

/-- A step that was read is never refused for its amounts. What it is refused for is the first of
its modifiers that the command does not take; else the first of its conditions that the game does
not know, if the game says which it knows; else nothing. Then it waits for what it needs as long as
its tag or the settings say, and a fixed wait of it is short of the longest span. -/
theorem resolve_wasRead (config : Config) (names : List String) {step : Step}
    (hread : step.WasRead) :
    let result := resolve config.normalized names step
    let terms := step.modifiers.condition.getD []
    (∀ lo hi, result ≠ .error (.invertedRange lo hi)) ∧
    (∀ kind secs, result ≠ .error (.outOfRange kind secs)) ∧
    (∀ before kind after, step.modifiers.kinds = before ++ kind :: after →
      (∀ k ∈ before, step.command.accepts k = true) → step.command.accepts kind = false →
      result = .error (.notSupported kind step.command.name)) ∧
    ((∀ kind ∈ step.modifiers.kinds, step.command.accepts kind = true) →
      (∀ before term after, terms = before ++ term :: after → names ≠ [] →
        (∀ t ∈ before, t.Known names) → ¬ term.Known names →
        result = .error (.unknownCondition term.name)) ∧
      (names = [] ∨ (∀ term ∈ terms, term.Known names) →
        ∃ eff, result = .ok eff ∧
          (∀ secs ∈ step.modifiers.maxWait, Duration.ofSeconds? secs = some eff.maxWait) ∧
          (step.modifiers.maxWait = none →
            Duration.ofSeconds? config.normalized.defaultMaxWait = some eff.maxWait) ∧
          eff.wait = step.modifiers.wait.getD .zero ∧
          ∀ secs, eff.wait = .fixed secs → ∀ draw n,
            Duration.ofSeconds? secs = some (eff.wait.sample draw n) ∧
              eff.wait.sample draw n ≠ Duration.max)) := by
  intro result terms
  have hwait : step.modifiers.Waitable := hread.waitable
  have houtcome := resolve_outcome config.normalized names hwait
  have hnever : ∀ error, (∀ kind, error ≠ .notSupported kind step.command.name) →
      (∀ name, error ≠ .unknownCondition name) → result ≠ .error error := by
    intro error hkind hname heq
    rcases houtcome with ⟨kind, h⟩ | ⟨name, h⟩ | ⟨eff, h⟩
    · exact hkind kind (Except.error.inj (heq.symm.trans h))
    · exact hname name (Except.error.inj (heq.symm.trans h))
    · cases heq.symm.trans h
  refine ⟨fun _ _ => hnever _ nofun nofun, fun _ _ => hnever _ nofun nofun,
    fun _ _ _ => resolve_unsupported, fun hkinds => ?_⟩
  obtain ⟨maxWait, hgiven, hdefault, hresult⟩ := resolve_supported config.normalized names hwait hkinds
  constructor
  · intro before term after hterms hnames hbefore hterm
    have hfirst : unknownTerm? names terms = some term := by
      rw [hterms]
      exact unknownTerm?_first hnames hbefore hterm
    simp only [result, hresult, terms] at hfirst ⊢
    rw [hfirst]
  · intro hknown
    have hnone : unknownTerm? names terms = none := unknownTerm?_none hknown
    refine ⟨step.effective config.normalized maxWait, ?_, hgiven, fun hnot => ?_, rfl, ?_⟩
    · simp only [result, hresult, terms] at hnone ⊢
      rw [hnone]
    · exact hdefault hnot ▸ config.normalized_maxWait
    · intro secs hfixed draw n
      have hcheck : checkWait (step.modifiers.wait.getD .zero) = .ok () := hwait.wait
      rw [hfixed]
      exact WaitSpan.sample_fixed (hfixed ▸ hcheck) draw n

def fed : Step :=
  ⟨1, .require "Well Fed", "\"Well Fed\"",
    { wait := WaitSpan.read "0.1".toList, maxWait := readSeconds "2".toList }⟩

def sunny : Step :=
  ⟨1, .action "Observe", "Observe", { condition := some [⟨"GOOD", false⟩, ⟨"sunny", true⟩] }⟩

def hasty : Step :=
  ⟨1, .click "go", "go", { wait := WaitSpan.read "1".toList, maxWait := readSeconds "3".toList }⟩

theorem resolve_wasRead_fed :
    Step.read "/require \"Well Fed\" <maxwait. 2.0> <WAIT.0.10>" = .ok (some fed) ∧
    Step.read "/ac Observe <condition.GOOD,not.sunny>" = .ok (some sunny) ∧
    Step.read "/click <wait.1>go<maxwait.3>" = .ok (some hasty) ∧
    (∃ eff, resolve Config.default.normalized ["Good"] fed = .ok eff ∧
      eff.maxWait = .ofSeconds 2 ∧ eff.wait.sample WaitSpan.Draw.lowest 0 = .ofMillis 100) ∧
    resolve Config.default.normalized ["Good"] sunny = .error (.unknownCondition "sunny") ∧
    resolve Config.default.normalized ["Good"] hasty = .error (.notSupported .maxWait "click") := by
  have hfed : Step.read "/require \"Well Fed\" <maxwait. 2.0> <WAIT.0.10>" = .ok (some fed) := by
    decide +kernel
  have hsunny : Step.read "/ac Observe <condition.GOOD,not.sunny>" = .ok (some sunny) := by
    decide +kernel
  have hhasty : Step.read "/click <wait.1>go<maxwait.3>" = .ok (some hasty) := by decide +kernel
  obtain ⟨_, _, _, hwell⟩ := resolve_wasRead .default ["Good"] (.inr ⟨_, hfed⟩)
  obtain ⟨_, _, _, hunknown⟩ := resolve_wasRead .default ["Good"] (.inr ⟨_, hsunny⟩)
  obtain ⟨_, _, hunfit, _⟩ := resolve_wasRead .default ["Good"] (.inr ⟨_, hhasty⟩)
  refine ⟨hfed, hsunny, hhasty, ?_, ?_, ?_⟩
  · obtain ⟨eff, heff, hgiven, _, hwait, hsample⟩ := (hwell (by decide +kernel)).2 (by decide +kernel)
    have hmax : Duration.ofSeconds? (.ofNat 2) = some eff.maxWait := hgiven _ (by decide +kernel)
    have hfixed : eff.wait = .fixed (Decimal.round false ⟨1, -1⟩) := hwait.trans (by decide +kernel)
    obtain ⟨hsecs, _⟩ := hsample _ hfixed WaitSpan.Draw.lowest 0
    exact ⟨eff, heff, Option.some.inj (hmax.symm.trans (by decide +kernel)),
      Option.some.inj (hsecs.symm.trans (by decide +kernel))⟩
  · exact (hunknown (by decide +kernel)).1 [⟨"GOOD", false⟩] ⟨"sunny", true⟩ [] rfl (by decide)
      (by decide +kernel) (by decide +kernel)
  · exact hunfit [.wait] .maxWait [] (by decide +kernel) (by decide +kernel) (by decide +kernel)

end MacroEngine
