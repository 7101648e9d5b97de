import MacroEngine.Config
import MacroEngine.Proofs.Squeezing

/-! Settings as they are loaded. The environment comes over the file, and every value is brought
into its range at the end, so that what is loaded stays as it is when that is done again. The bound
on retries is a number of eight bits wherever it comes from: a larger one in the environment does
not count, a larger one in a file makes the file unreadable. -/
namespace MacroEngine
open Text Number

namespace Config

variable {readFile : ReadFile} {env : Environment} {path : Option String} {file c : Config}
  {name : String} {v : Nat}

def retriesVariable : String := "PCRAFT_MAX_RETRIES"

/-- A variable is set to a number in decimal digits, with any blanks around it. -/
def Environment.Gives (env : Environment) (name : String) (v : Nat) : Prop :=
  ∃ before digits after, (∀ c ∈ before, isBlank c = true) ∧ Denotes digits v ∧
    (∀ c ∈ after, isBlank c = true) ∧ env name = some (String.ofList (before ++ digits ++ after))

/-- The settings that are under the environment's own: those of the file that is asked for, or of
the one that the environment names, or else the built-in ones. -/
def Under (readFile : ReadFile) (env : Environment) (path : Option String) (file : Config) : Prop :=
  match path.or (env.given "PCRAFT_CONFIG") with
  | some path => ∃ text, readFile path = .ok text ∧ (Json.ofText? text).bind ofJson? = some file
  | none => file = default

theorem Environment.Gives.upTo (h : env.Gives name v) (limit : Nat) :
    env.upTo limit name = if v ≤ limit then some v else none := by
  obtain ⟨before, digits, after, hbefore, hdigits, hafter, henv⟩ := h
  have htrim : trim (before ++ digits ++ after) = digits := by
    rw [trim_append_blanks hafter, trim_blanks_append hbefore, trim_of_no_blanks]
    exact fun c hc => isBlank_of_isAsciiDigit (hdigits.digits c hc)
  rw [Environment.upTo, henv, Option.bind_some, String.toList_ofList, htrim, hdigits.readUpTo]

/-! What is in range already stays as it is. -/

def usableWait (secs : Binary64) : Binary64 :=
  if secs = .nan || secs.lt (.zero false) || (Duration.ofSeconds? secs).isNone then fallbackMaxWait
  else secs

theorem usableWait_fallback : usableWait fallbackMaxWait = fallbackMaxWait := ite_self _

theorem usableWait_usableWait (secs : Binary64) :
    usableWait (usableWait secs) = usableWait secs := by
  rcases ite_eq_or_eq (secs = .nan || secs.lt (.zero false) || (Duration.ofSeconds? secs).isNone)
    fallbackMaxWait secs with hfallback | hself
  · have heq : usableWait secs = fallbackMaxWait := hfallback
    rw [heq, usableWait_fallback]
  · have heq : usableWait secs = secs := hself
    rw [heq, heq]

theorem normalized_eq (c : Config) : c.normalized =
    { c with
      maxRetries := min c.maxRetries maxRetriesLimit
      pollMs := max c.pollMs 1
      defaultMaxWait := usableWait c.defaultMaxWait } := rfl

theorem normalized_normalized (c : Config) : c.normalized.normalized = c.normalized := by
  have hretries : min (min c.maxRetries maxRetriesLimit) maxRetriesLimit =
      min c.maxRetries maxRetriesLimit := min_eq_left (min_le_right _ _)
  have hpolls : max (max c.pollMs 1) 1 = max c.pollMs 1 := max_eq_left (le_max_right _ _)
  simp only [normalized_eq, hretries, hpolls, usableWait_usableWait]

theorem normalized_default : default.normalized = default := by
  rw [normalized_eq]
  simp only [default, usableWait_fallback]
  rfl

theorem ofFile_eq {path text : String} (htext : readFile path = .ok text)
    (hjson : (Json.ofText? text).bind ofJson? = some file) :
    ofFile readFile path = .ok file.normalized := by
  simp only [ofFile, htext, Except.mapError, bind, Except.bind, hjson, pure, Except.pure]

/-- What is loaded is what was under the environment, in range, with the environment over it, and
in range again. -/
theorem load_eq (h : Under readFile env path file) :
    load readFile env path = .ok (file.normalized.override env).normalized := by
  unfold Under at h
  unfold load
  cases hpath : path.or (env.given "PCRAFT_CONFIG") with
  | none =>
    rw [hpath] at h
    have hfile : file = default := h
    rw [hfile, normalized_default]
    rfl
  | some path =>
    rw [hpath] at h
    obtain ⟨text, htext, hjson⟩ := h
    change (ofFile readFile path).bind _ = _
    rw [ofFile_eq htext hjson]
    rfl

theorem maxRetries_normalized_override (base : Config) (hgives : env.Gives retriesVariable v) :
    (base.override env).normalized.maxRetries =
      min (if v ≤ max8 then v else base.maxRetries) maxRetriesLimit := by
  have hgiven := hgives.upTo max8
  rw [retriesVariable] at hgiven
  rw [normalized_eq, override, hgiven]
  split <;> rfl

theorem maxRetries_of_load (hload : load readFile env path = .ok c)
    (hgives : env.Gives retriesVariable v) (hv : v ≤ max8) :
    c.maxRetries = min v maxRetriesLimit := by
  have hover : ∃ base : Config, c = (base.override env).normalized := by
    unfold load at hload
    split at hload
    · obtain ⟨base, -, hc⟩ := bind_eq_ok.mp hload
      exact ⟨base, (Except.ok.inj hc).symm⟩
    · exact ⟨default, (Except.ok.inj hload).symm⟩
  obtain ⟨base, rfl⟩ := hover
  rw [maxRetries_normalized_override base hgives, if_pos hv]

/-- The bound on retries that the environment sets is clamped, and so it grows with what is set, as
long as that is a number of eight bits; a larger one counts as if it were not set, and the bound is
that of the file, clamped. Loading does not fail for it. Only the settings that have variables of
their own differ from those of the file when these are in range, and what is loaded is in range. -/
theorem retries_bounded (hfile : Under readFile env path file)
    (hgives : env.Gives retriesVariable v) :
    ∃ c, load readFile env path = .ok c ∧
      c.maxRetries = min (if v ≤ max8 then v else file.maxRetries) maxRetriesLimit ∧
      (∀ w readFile' env' path' c', v ≤ w → w ≤ max8 → env'.Gives retriesVariable w →
        load readFile' env' path' = .ok c' → c.maxRetries ≤ c'.maxRetries) ∧
      c = { file.normalized with
        maxRetries := c.maxRetries
        ackTimeoutMs := c.ackTimeoutMs
        pollMs := c.pollMs
        macrosDir := c.macrosDir } ∧
      c.normalized = c := by
  have hload := load_eq hfile
  refine ⟨_, hload, ?_, ?_, ?_, normalized_normalized _⟩
  · rw [maxRetries_normalized_override _ hgives, normalized_eq]
    split
    · rfl
    · exact min_eq_left (min_le_right _ _)
  · intro w readFile' env' path' c' hvw hw hgives' hload'
    rw [maxRetries_of_load hload hgives (hvw.trans hw), maxRetries_of_load hload' hgives' hw]
    omega
  · simp only [normalized_eq, override, usableWait_usableWait]

def boundOnly (value : String) : Environment := fun name =>
  if name = retriesVariable then some value else none

def eager : String := "\x7b \"max_timeout_retries\": 42, \"loop_echo\": true \x7d"

theorem retries_bounded_eager : ∃ file c,
    Under (fun _ => .ok eager) (boundOnly " 7\t") (some "pcraft.json") file ∧
    (boundOnly " 7\t").Gives retriesVariable 7 ∧ file.maxRetries = 42 ∧
    load (fun _ => .ok eager) (boundOnly " 7\t") (some "pcraft.json") = .ok c ∧
    c.maxRetries = 7 ∧ c.loopEcho = true ∧ c.normalized = c := by
  have hread : ((Json.ofText? eager).bind ofJson?).any
      (fun file => decide (file.maxRetries = 42 ∧ file.loopEcho = true)) = true := by
    decide +kernel
  obtain ⟨file, hfile, hchecked⟩ := (Option.any_eq_true _ _).mp hread
  obtain ⟨hretries, hecho⟩ := of_decide_eq_true hchecked
  have hunder : Under (fun _ => .ok eager) (boundOnly " 7\t") (some "pcraft.json") file :=
    ⟨eager, rfl, hfile⟩
  have hgives : (boundOnly " 7\t").Gives retriesVariable 7 :=
    ⟨" ".toList, "7".toList, "\t".toList, forall_mem_of_all (by decide), by decide,
      forall_mem_of_all (by decide), rfl⟩
  obtain ⟨c, hload, hbound, -, hrest, hrange⟩ := retries_bounded hunder hgives
  refine ⟨file, c, hunder, hgives, hretries, hload, hbound, ?_, hrange⟩
  rw [hrest]
  exact hecho

/-- A bound of nine bits does not count: there are fewer retries than with a smaller one. -/
theorem retries_beyond_byte :
    (boundOnly "256").Gives retriesVariable 256 ∧ (boundOnly "255").Gives retriesVariable 255 ∧
    ∃ c c', load (fun _ => .error "") (boundOnly "256") none = .ok c ∧
      load (fun _ => .error "") (boundOnly "255") none = .ok c' ∧
      c.maxRetries = 3 ∧ c.maxRetries ≠ min 256 maxRetriesLimit ∧
      ¬ c'.maxRetries ≤ c.maxRetries := by
  refine ⟨⟨[], "256".toList, [], nofun, by decide, nofun, rfl⟩,
    ⟨[], "255".toList, [], nofun, by decide, nofun, rfl⟩,
    _, _, rfl, rfl, ?_, ?_, ?_⟩ <;> decide

end Config
end MacroEngine
