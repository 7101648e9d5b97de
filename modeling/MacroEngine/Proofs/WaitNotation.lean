import MacroEngine.Proofs.LexedLines
import MacroEngine.Proofs.TaggedLines
import MacroEngine.Proofs.TagWriting

/-! How waits are written. A span is one amount or two with a dash between them, in digits with an
optional fraction, and nothing else reads as one. It is the same span whether it is the argument of
a command, which squeezes its blanks, or the value of a tag, which is cut at the first point. -/
namespace MacroEngine
open Text Number Script

section Amounts

variable {cs whole places rest : List Char} {x : Binary64}

/-- A numeral has a value, and it is read as that before anything that could not belong to it. -/
theorem readAmount_numeral (h : isNumeral cs = true) : ∃ x, Binary64.ofText? cs = some x ∧
    ∀ rest, (∀ c, rest.head? = some c → isAsciiDigit c = false ∧ c ≠ '.') →
      readAmount (cs ++ rest) = some (x, rest) := by
  obtain ⟨whole, places, hne, hwhole, hplaces, hcs⟩ := isNumeral_iff.mp h
  refine ⟨_, Binary64.ofText?_digits hne hwhole hplaces hcs, fun rest hrest => ?_⟩
  rcases hcs with ⟨rfl, rfl⟩ | ⟨hsome, rfl⟩
  · rw [List.append_nil]
    exact readAmount_whole hwhole hne hrest
  · rw [List.append_assoc, List.cons_append]
    exact readAmount_places hwhole hne hplaces hsome fun c hc => (hrest c hc).1

/-- What is read as an amount is a numeral with its value. -/
theorem numeral_of_readAmount (h : readAmount cs = some (x, rest)) :
    ∃ d, isNumeral d = true ∧ Binary64.ofText? d = some x ∧ cs = d ++ rest := by
  have happend := List.takeWhile_append_dropWhile (p := isAsciiDigit) (l := cs)
  have hwhole : ∀ c ∈ cs.takeWhile isAsciiDigit, isAsciiDigit c = true :=
    fun _ hc => List.mem_takeWhile_imp hc
  unfold readAmount at h
  dsimp only at h
  generalize cs.takeWhile isAsciiDigit = whole at happend hwhole h
  generalize cs.dropWhile isAsciiDigit = more at happend h
  rw [Option.ite_none_left_eq_some] at h
  obtain ⟨hne, h⟩ := h
  have hwholeNe : whole ≠ [] := by simpa using hne
  have hnumeral : ∀ {places d : List Char}, (∀ c ∈ places, isAsciiDigit c = true) →
      (places = [] ∧ d = whole ∨ places ≠ [] ∧ d = whole ++ '.' :: places) → isNumeral d = true ∧
        Binary64.ofText? d = some (Decimal.round false ⟨ofDigits (whole ++ places), -places.length⟩) :=
    fun hplaces hd => ⟨isNumeral_iff.mpr ⟨whole, _, hwholeNe, hwhole, hplaces, hd⟩,
      Binary64.ofText?_digits hwholeNe hwhole hplaces hd⟩
  have hnoPlaces : ∀ c ∈ ([] : List Char), isAsciiDigit c = true :=
    fun _ hc => absurd hc List.not_mem_nil
  split at h
  · rename_i after
    split at h
    · cases h
      obtain ⟨hd, hvalue⟩ := hnumeral hnoPlaces (.inl ⟨rfl, rfl⟩)
      exact ⟨whole, hd, hvalue, happend.symm⟩
    · rename_i hsome
      cases h
      have hplacesNe : after.takeWhile isAsciiDigit ≠ [] := by simpa using hsome
      obtain ⟨hd, hvalue⟩ := hnumeral (fun _ hc => List.mem_takeWhile_imp hc)
        (.inr ⟨hplacesNe, rfl⟩)
      refine ⟨_, hd, hvalue, ?_⟩
      rw [List.append_assoc, List.cons_append, List.takeWhile_append_dropWhile, happend]
  · cases h
    obtain ⟨hd, hvalue⟩ := hnumeral hnoPlaces (.inl ⟨rfl, rfl⟩)
    exact ⟨whole, hd, hvalue, happend.symm⟩

end Amounts

namespace WaitSpan

/-- How a span is spelled: `D` or `D-D` in digits with an optional fraction, where a duration holds
the upper amount and a range does not descend. -/
inductive Spells : List Char → WaitSpan → Prop
  | fixed {cs : List Char} {secs : Binary64} (numeral : isNumeral cs = true)
      (value : Binary64.ofText? cs = some secs)
      (holds : (Duration.ofSeconds? secs).isSome = true) : Spells cs (.fixed secs)
  | range {low high : List Char} {lo hi : Binary64} (lowNumeral : isNumeral low = true)
      (highNumeral : isNumeral high = true) (lowValue : Binary64.ofText? low = some lo)
      (highValue : Binary64.ofText? high = some hi)
      (holds : (Duration.ofSeconds? hi).isSome = true) (ascends : lo.le hi = true) :
      Spells (low ++ '-' :: high) (.range lo hi)

variable {cs : List Char} {span : WaitSpan}

theorem Spells.not_blank (h : Spells cs span) {c : Char} (hc : c ∈ cs) : isBlank c = false := by
  have hnumeral : ∀ {ds : List Char}, isNumeral ds = true → c ∈ ds → isBlank c = false := by
    intro ds hds hm
    rcases digit_or_point_of_mem hds hm with hdigit | rfl
    · exact isBlank_of_isAsciiDigit hdigit
    · decide
  cases h with
  | fixed numeral => exact hnumeral numeral hc
  | range lowNumeral highNumeral =>
    rcases List.mem_append.mp hc with hc | hc
    · exact hnumeral lowNumeral hc
    rcases List.mem_cons.mp hc with rfl | hc
    · decide
    · exact hnumeral highNumeral hc

/-- Just the spellings of a span are read as it. -/
theorem read_eq_some_iff : read cs = some span ↔ Spells (trim cs) span := by
  have hnone : ∀ c, ([] : List Char).head? = some c → isAsciiDigit c = false ∧ c ≠ '.' := nofun
  have halone : ∀ {ds : List Char} {secs : Binary64}, isNumeral ds = true →
      Binary64.ofText? ds = some secs → readAmount ds = some (secs, []) := by
    intro ds secs hds hsecs
    obtain ⟨x, hx, hread⟩ := readAmount_numeral hds
    obtain rfl := Option.some.inj (hx.symm.trans hsecs)
    simpa using hread [] hnone
  unfold read
  constructor
  · intro h
    split at h
    · rename_i secs hread
      obtain ⟨d, hd, rfl⟩ := Option.map_eq_some_iff.mp h
      obtain ⟨ds, hds, hvalue, htrim⟩ := numeral_of_readAmount hread
      rw [htrim, List.append_nil]
      exact .fixed hds hvalue (by rw [hd]; rfl)
    · rename_i lo rest hread
      split at h
      · rename_i hi hhi
        obtain ⟨hle, h⟩ := Option.ite_none_right_eq_some.mp h
        obtain ⟨d, hd, rfl⟩ := Option.map_eq_some_iff.mp h
        obtain ⟨low, hlow, hlo, htrim⟩ := numeral_of_readAmount hread
        obtain ⟨high, hhigh, hvalue, rfl⟩ := numeral_of_readAmount hhi
        rw [htrim, List.append_nil]
        exact .range hlow hhigh hlo hvalue (by rw [hd]; rfl) hle
      · cases h
    · cases h
  · intro h
    generalize trim cs = ds at h
    cases h with
    | fixed numeral value holds =>
      obtain ⟨d, hd⟩ := Option.isSome_iff_exists.mp holds
      simp only [halone numeral value, hd, Option.map_some]
    | @range low high lo hi lowNumeral highNumeral lowValue highValue holds ascends =>
      obtain ⟨d, hd⟩ := Option.isSome_iff_exists.mp holds
      obtain ⟨x, hx, hread⟩ := readAmount_numeral lowNumeral
      obtain rfl := Option.some.inj (hx.symm.trans lowValue)
      have hlow := hread ('-' :: high) (by rintro _ ⟨⟩; decide)
      simp only [hlow, halone highNumeral highValue, ascends, if_true, hd, Option.map_some]

theorem squeezeFrom_eq_self {inQuote : Bool}
    (h : ∀ c ∈ squeezeFrom inQuote false cs, isBlank c = false) :
    squeezeFrom inQuote false cs = cs := by
  induction cs generalizing inQuote with
  | nil => rfl
  | cons c cs ih =>
    rw [squeezeFrom] at h ⊢
    generalize (if c = '"' then !inQuote else inQuote) = next at h ⊢
    by_cases hc : (isBlank c && !next) = true
    · simp only [hc, if_true, Bool.false_eq_true, if_false] at h
      exact absurd (h ' ' List.mem_cons_self) (by decide)
    · rw [if_neg hc] at h ⊢
      rw [ih fun d hd => h d (List.mem_cons_of_mem c hd)]

/-- Squeezed arguments are the same span: blanks inside it make it none before and after. -/
theorem read_squeeze (cs : List Char) : read (squeeze cs) = read cs := by
  refine Option.ext fun span => ?_
  rw [read_eq_some_iff, read_eq_some_iff]
  constructor
  · intro h
    have hsqueeze : squeeze cs = trim (squeeze cs) := by
      conv => lhs; rw [← squeeze_squeeze, squeeze]
      exact squeezeFrom_word (fun _ hc => h.not_blank hc) _ _
    have htrim : squeeze cs = trim cs := squeezeFrom_eq_self fun c hc => by
      rw [← squeeze, hsqueeze] at hc
      exact h.not_blank hc
    rwa [htrim, trim_trim] at h
  · intro h
    have hsqueeze : squeeze cs = trim cs := squeezeFrom_word (fun _ hc => h.not_blank hc) _ _
    rwa [hsqueeze, trim_trim]

end WaitSpan

/-! The two places for a span. -/

def waitBreaks : List Char := ['<', '>', '"', '#', '\n']

def waitTag (cs : List Char) : Tag := ⟨"wait".toList, some cs⟩

variable {cs : List Char}

theorem readLine_wait (n : Nat) (hcs : ∀ c ∈ waitBreaks, c ∉ cs) :
    readLine n ("/wait ".toList ++ cs) =
      match WaitSpan.read cs with
      | some span => .ok (some ⟨n, .wait span, String.ofList (squeeze cs), {}⟩)
      | none => .error
        ⟨n, .invalidArgument "wait" "expected seconds or an ascending lo-hi range"⟩ := by
  have hname : ∀ c ∈ "wait".toList, isBlank c = false := forall_mem_of_all (by decide)
  have hrest : ∀ c ∈ waitBreaks, c ∉ ' ' :: cs := by
    intro c hc hm
    rcases List.mem_cons.mp hm with rfl | hm
    · exact absurd hc (by decide)
    · exact hcs c hc hm
  obtain ⟨blanks, hblanks, hsplit⟩ := exists_trimEnd_append (' ' :: cs)
  have hline : trim (withoutComment ('/' :: ("wait".toList ++ ' ' :: cs))) =
      '/' :: ("wait".toList ++ trimEnd (' ' :: cs)) := by
    rw [withoutComment_command (by rintro ⟨⟩) (uncommented_of_not_mem ?_)]
    · change trimEnd ('/' :: ("wait".toList ++ ' ' :: cs)) = _
      rw [← List.cons_append, trimEnd_append]
      split
      · rename_i hnil
        rw [hnil]
        rfl
      · rfl
    · simpa using hrest '#' (by decide)
  have hhead : ∀ c, (trimEnd (' ' :: cs)).head? = some c → isBlank c = true := by
    intro c hc
    obtain ⟨rest, he⟩ := List.head?_eq_some_iff.mp hc
    rw [he] at hsplit
    rw [← (List.cons.inj hsplit).1]
    decide
  have hinert : Inert (trimEnd (' ' :: cs)) := by
    have hnot : ∀ c ∈ waitBreaks, c ∉ trimEnd (' ' :: cs) := fun c hc hm =>
      hrest c hc (hsplit ▸ List.mem_append_left _ hm)
    exact inert_of_not_mem (hnot _ (by decide)) (hnot _ (by decide)) (hnot _ (by decide))
  have htags : splitTags (trimEnd (' ' :: cs)) = .ok (String.ofList (squeeze cs), {}) := by
    have htake := takeTags_inert hinert {} []
    have hsqueeze : squeeze (trimEnd (' ' :: cs)) = squeeze cs := by
      rw [← squeeze_append_blanks hblanks, ← hsplit]
      have hblank : ∀ c ∈ [' '], isBlank c = true := forall_mem_of_all (by decide)
      exact squeeze_blanks_append hblank cs
    rw [List.append_nil] at htake
    rw [splitTags, htake, ← hsqueeze]
    simp [takeTags, Except.map, bind, Except.bind, pure, Except.pure]
  have hcommand : ∀ args, commandOf "wait" (canonicalName "wait") args =
      match WaitSpan.read args with
      | some span => .ok (.wait span)
      | none => .error "expected seconds or an ascending lo-hi range" := by
    intro args
    have hwait : canonicalName "wait" = "wait" := by decide
    rw [hwait]
    simp only [commandOf]
    cases WaitSpan.read args <;> rfl
  have hword : String.ofList "wait".toList = "wait" := String.ofList_toList
  change readLine n ('/' :: ("wait".toList ++ ' ' :: cs)) = _
  rw [readLine_of_command n hline hname hhead, htags, hword]
  simp only [Except.mapError, Except.bind, String.toList_ofList, hcommand, WaitSpan.read_squeeze]
  cases WaitSpan.read cs <;> rfl

/-- Waits can be written in two ways. As argument and as tag the same texts are spans, and the same
spans: digits with an optional fraction, or two of them with a dash between that do not descend,
if a duration holds them. Any other text is refused, by either in its own words. -/
theorem wait_grammar :
    (∀ cs span, WaitSpan.read cs = some span ↔ WaitSpan.Spells (trim cs) span) ∧
    ∀ cs, (∀ c ∈ waitBreaks, c ∉ cs) →
      (∀ n, readLine n ("/wait ".toList ++ cs) =
        match WaitSpan.read cs with
        | some span => .ok (some ⟨n, .wait span, String.ofList (squeeze cs), {}⟩)
        | none => .error
          ⟨n, .invalidArgument "wait" "expected seconds or an ascending lo-hi range"⟩) ∧
      ∀ n (line : TaggedLine (waitTag cs) .wait), readLine n line.text =
        match WaitSpan.read cs with
        | some span => line.step n { line.mods with wait := some span }
        | none => .error ⟨n, .malformedValue "wait" (String.ofList cs)⟩ := by
  refine ⟨fun _ _ => WaitSpan.read_eq_some_iff, fun cs hcs => ⟨fun n => readLine_wait n hcs, ?_⟩⟩
  intro n line
  have hname : ModifierKind.ofName? (String.ofList "wait".toList) = some .wait := by decide
  have hkind : (waitTag cs).kind? = some .wait := hname
  have hreadable : (waitTag cs).Readable := Tag.readable hkind fun value hvalue => by
    obtain rfl : cs = value := Option.some.inj hvalue
    exact ⟨hcs _ (by decide), hcs _ (by decide)⟩
  have hput : Modifiers.put? {} .wait (waitTag cs).value =
      (WaitSpan.read cs).map fun span => { wait := some span } := by
    cases hread : WaitSpan.read cs <;> simp [Modifiers.put?, waitTag, hread]
  rw [line.readLine_text n hkind hreadable, hput]
  cases WaitSpan.read cs <;> rfl

def waitedLine : TaggedLine (waitTag " 1.50-2".toList) .wait where
  text := "  /ac \"Basic Touch\"<wait. 1.50-2> <hq> # twice".toList
  name := "ac".toList
  head := " \"Basic Touch\"".toList
  tail := " <hq>".toList
  before := " \"Basic Touch\"".toList
  after := [' ']
  early := {}
  mods := { hq := true }
  command := by decide +kernel
  word := forall_mem_of_all (by decide)
  apart := ⟨' ', "\"Basic Touch\"".toList, by decide, by decide⟩
  complete := complete_of_takeTags (by decide) (by rfl)
  ordered := by rfl
  free := rfl

theorem wait_grammar_twice :
    (∀ c ∈ waitBreaks, c ∉ " 1.50-2".toList) ∧ (∀ c ∈ waitBreaks, c ∉ "1.-5".toList) ∧
    ∃ span, WaitSpan.Spells "1.50-2".toList span ∧
      readLine 7 "/wait  1.50-2".toList = .ok (some ⟨7, .wait span, "1.50-2", {}⟩) ∧
      readLine 8 waitedLine.text = .ok (some ⟨8, .action "Basic Touch", "\"Basic Touch\"",
        { wait := some span, hq := true }⟩) ∧
      readLine 9 "/wait 1.-5".toList = .error
        ⟨9, .invalidArgument "wait" "expected seconds or an ascending lo-hi range"⟩ := by
  have hcs : ∀ c ∈ waitBreaks, c ∉ " 1.50-2".toList := forall_mem_of_all (by decide)
  have hbad : ∀ c ∈ waitBreaks, c ∉ "1.-5".toList := forall_mem_of_all (by decide)
  obtain ⟨span, hspan⟩ : ∃ span, WaitSpan.read " 1.50-2".toList = some span :=
    Option.isSome_iff_exists.mp (by decide +kernel)
  have hnone : WaitSpan.read "1.-5".toList = none := by decide +kernel
  obtain ⟨hcommand, htag⟩ := wait_grammar.2 _ hcs
  have hwaited := htag 8 waitedLine
  have hcommand := hcommand 7
  have hrefused := (wait_grammar.2 _ hbad).1 9
  rw [hspan] at hwaited hcommand
  rw [hnone] at hrefused
  refine ⟨hcs, hbad, span, (wait_grammar.1 _ _).mp hspan, hcommand, hwaited, hrefused⟩

end MacroEngine
