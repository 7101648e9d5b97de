import MacroEngine.Proofs.Squeezing
import MacroEngine.Routine.CraftLoop

/-! The text of a crafting loop, read again. Around the steps of the macro stand those of the
loop: the gate, the three that begin a synthesis, and the way back. -/
namespace MacroEngine
open Text Number

variable {n count secs : Nat} {layout : CraftLayout}

def craftGate (layout : CraftLayout) (line count : Nat) : Step :=
  ⟨line, .craft count, String.ofList (digits count), { echo := layout.echo }⟩

def awaitAddon (line : Nat) (addon : String) (secs : Nat) : Step :=
  ⟨line, .waitAddon addon, "\"" ++ addon ++ "\"", { maxWait := some (wholeSeconds secs) }⟩

def clickSynthesize (line : Nat) : Step := ⟨line, .click "synthesize", "synthesize", {}⟩

def synthesisSteps (line secs : Nat) : List Step :=
  [awaitAddon line "RecipeNote" secs, clickSynthesize (line + 1),
    awaitAddon (line + 2) "Synthesis" secs]

def wayBack (line : Nat) : Step := ⟨line, .loop .infinite, "", {}⟩

theorem squeeze_digits {before after : List Char} (hb : ∀ c ∈ before, isBlank c = true)
    (ha : ∀ c ∈ after, isBlank c = true) : squeeze (before ++ digits n ++ after) = digits n :=
  squeeze_word hb (fun _ hc => isBlank_of_mem_digits hc) ha

theorem splitTags_text {cs : List Char} (h : '<' ∉ cs) (hq : quoteAfter false cs = false) :
    splitTags cs = .ok (String.ofList (squeeze cs), {}) :=
  splitTags_untagged (untagged_of_not_mem h) hq

theorem splitTags_tag {cs body name : List Char} {value : Option (List Char)} {mods : Modifiers}
    (h : '<' ∉ cs) (hq : quoteAfter false cs = false) (hbody : '>' ∉ body)
    (hparts : tagParts body = some (name, value))
    (hmods : Modifiers.insert {} (String.ofList name) value = .ok mods) :
    splitTags (cs ++ '<' :: (body ++ ['>'])) = .ok (String.ofList (squeeze cs), mods) := by
  have htake : takeTags 0 false {} (cs ++ '<' :: (body ++ ['>'])) = .ok (cs, mods) := by
    rw [takeTags_untagged (untagged_of_not_mem h), hq, takeTags_tag hbody hparts hmods]
    simp [takeTags, Except.map]
  simp only [splitTags, htake, bind, Except.bind]
  rfl

theorem readLine_command (n : Nat) {name rest : List Char} {args : String} {mods : Modifiers}
    {command : Command} (hne : name ≠ []) (hname : name.any isBlank = false)
    (hslash : '/' ∉ name) (hhash : '#' ∉ name ++ rest)
    (hhead : ∀ c, rest.head? = some c → isBlank c = true)
    (hlast : ∀ c, rest.getLast? = some c → isBlank c = false)
    (htags : splitTags rest = .ok (args, mods))
    (hcommand : commandOf (String.ofList name) (canonicalName (String.ofList name)) args.toList =
      .ok command) :
    readLine n ('/' :: (name ++ rest)) = .ok (some ⟨n, command, args, mods⟩) := by
  have hword : ∀ c ∈ name, isBlank c = false := fun c hc => by
    simpa using List.any_eq_false.mp hname c hc
  have hhead' : (name ++ rest).head? ≠ some '/' := by
    obtain ⟨c, name, rfl⟩ := List.exists_cons_of_ne_nil hne
    rintro ⟨⟩
    exact hslash List.mem_cons_self
  have hcomment : Uncommented false false ('/' :: (name ++ rest)) :=
    uncommented_of_not_mem fun hm => hhash ((List.mem_cons.mp hm).resolve_left (by decide))
  rw [readLine_command_eq n hword hhead' hcomment hhead hlast, htags]
  simp only [Except.mapError, Except.bind, hcommand, Except.map]

def gateArguments (echo : Bool) (count : Nat) : List Char :=
  ' ' :: digits count ++ if echo then " <echo>".toList else []

theorem splitTags_gate (echo : Bool) (count : Nat) :
    splitTags (gateArguments echo count) = .ok (String.ofList (digits count), { echo }) := by
  have hopen : '<' ∉ digits count := not_mem_digits (by decide)
  have hquote : '"' ∉ digits count := not_mem_digits (by decide)
  cases echo with
  | false =>
    have htext : splitTags ([' '] ++ digits count ++ []) = _ :=
      splitTags_text (by simp [hopen]) (quoteAfter_of_not_mem (by simp [hquote]) false)
    rw [squeeze_digits (by simp [isBlank]) (by simp)] at htext
    exact htext
  | true =>
    have hparts : tagParts "echo".toList = some ("echo".toList, none) := by decide
    have hmods : Modifiers.insert {} (String.ofList "echo".toList) none = .ok { echo := true } := by
      decide
    have htag : splitTags ([' '] ++ digits count ++ [' '] ++ '<' :: ("echo".toList ++ ['>'])) = _ :=
      splitTags_tag (by simp [hopen]) (quoteAfter_of_not_mem (by simp [hquote]) false) (by decide)
        hparts hmods
    rw [squeeze_digits (by simp [isBlank]) (by simp [isBlank]), List.append_assoc] at htag
    exact htag

theorem commandOf_craft (h : count ≤ max32) :
    commandOf "craft" (canonicalName "craft") (digits count) = .ok (.craft count) := by
  have hname : canonicalName "craft" = "craft" := by decide
  rw [hname]
  unfold commandOf
  dsimp only
  rw [readUpTo_digits h]
  rfl

theorem readLine_gate (layout : CraftLayout) (n : Nat) (h : count ≤ max32) :
    readLine n (gateLine layout count) = .ok (some (craftGate layout n count)) := by
  have hline : gateLine layout count =
      '/' :: ("craft".toList ++ gateArguments layout.echo count) := rfl
  have hhash : '#' ∉ digits count := not_mem_digits (by decide)
  have hblank : ∀ c ∈ digits count, isBlank c = false :=
    fun c hc => isBlank_of_mem_digits hc
  have hlast : ∀ c, (gateArguments layout.echo count).getLast? = some c → isBlank c = false := by
    intro c hc
    cases he : layout.echo with
    | false =>
      rw [he, gateArguments] at hc
      have hc : (' ' :: digits count).getLast? = some c := by simpa using hc
      rw [List.getLast?_cons_of_ne_nil (digits_ne_nil count)] at hc
      exact hblank c (List.mem_of_getLast? hc)
    | true =>
      rw [he, gateArguments, List.getLast?_append] at hc
      cases hc
      decide
  rw [hline]
  refine readLine_command n (by decide) (by decide) (by decide) ?_ (by rintro c ⟨⟩; rfl) hlast
    (splitTags_gate layout.echo count) ?_
  · cases he : layout.echo <;> simp [gateArguments, hhash]
  · simpa using commandOf_craft h

def addonArguments (addon : String) : List Char := ' ' :: '"' :: addon.toList ++ ['"', ' ']

theorem tagParts_maxWait (secs : Nat) :
    tagParts ("maxwait.".toList ++ digits secs) = some ("maxwait".toList, some (digits secs)) := by
  have hline : (digits secs).contains '\n' = false := by
    simpa using not_mem_digits (n := secs) (c := '\n') (by decide)
  change (if (digits secs).contains '\n' then none else _) = _
  rw [hline]
  rfl

theorem insert_maxWait (h : secs ≤ max32) :
    Modifiers.insert {} (String.ofList "maxwait".toList) (some (digits secs)) =
      .ok { maxWait := some (wholeSeconds secs) } := by
  have hkind : ModifierKind.ofName? (String.ofList "maxwait".toList) = some .maxWait := by
    decide
  simp only [Modifiers.insert, hkind, Modifiers.has, Modifiers.put?, bind, Option.bind,
    readSeconds_digits h]
  rfl

theorem splitTags_awaitAddon {addon : String} (ha : addon = "RecipeNote" ∨ addon = "Synthesis")
    (h : secs ≤ max32) :
    splitTags (addonArguments addon ++ '<' :: ("maxwait.".toList ++ digits secs ++ ['>'])) =
      .ok ("\"" ++ addon ++ "\"", { maxWait := some (wholeSeconds secs) }) := by
  have hclose : '>' ∉ "maxwait.".toList ++ digits secs := by
    have hd : '>' ∉ digits secs := not_mem_digits (by decide)
    simp [hd]
  have hopen : '<' ∉ addonArguments addon := by rcases ha with rfl | rfl <;> decide
  have hquote : quoteAfter false (addonArguments addon) = false := by
    rcases ha with rfl | rfl <;> decide
  have hargs : String.ofList (squeeze (addonArguments addon)) = "\"" ++ addon ++ "\"" := by
    rcases ha with rfl | rfl <;> decide
  rw [splitTags_tag hopen hquote hclose (tagParts_maxWait secs) (insert_maxWait h), hargs]

theorem readLine_awaitAddon {addon : String} (ha : addon = "RecipeNote" ∨ addon = "Synthesis")
    (n : Nat) (h : secs ≤ max32) :
    readLine n ('/' :: ("waitaddon".toList ++
      (addonArguments addon ++ '<' :: ("maxwait.".toList ++ digits secs ++ ['>'])))) =
        .ok (some (awaitAddon n addon secs)) := by
  have hhash : '#' ∉ addonArguments addon ++
      '<' :: ("maxwait.".toList ++ digits secs ++ ['>']) := by
    have hd : '#' ∉ digits secs := not_mem_digits (by decide)
    rcases ha with rfl | rfl <;> simp [addonArguments, hd]
  refine readLine_command n (by decide) (by decide) (by decide) ?_ (by rintro c ⟨⟩; rfl) ?_
    (splitTags_awaitAddon ha h) ?_
  · simpa using hhash
  · intro c hc
    simp only [List.getLast?_append, List.getLast?_cons] at hc
    simp at hc
    subst hc
    decide
  · rcases ha with rfl | rfl <;> decide

/-- The number of the line is all that depends on where it stands. -/
theorem readLine_at {cs : List Char} {step : Step} (h : readLine 0 cs = .ok (some step)) (n : Nat) :
    readLine n cs = .ok (some (step.later n)) := by
  have hlater := readLine_later 0 n cs
  rwa [h, Nat.zero_add] at hlater

theorem readLine_clickSynthesize (n : Nat) :
    readLine n "/click synthesize".toList = .ok (some (clickSynthesize n)) := by
  have h : readLine 0 "/click synthesize".toList = .ok (some (clickSynthesize 0)) := by
    decide
  simpa [clickSynthesize, Step.later] using readLine_at h n

theorem readLine_wayBack (n : Nat) : readLine n "/loop".toList = .ok (some (wayBack n)) := by
  have h : readLine 0 "/loop".toList = .ok (some (wayBack 0)) := by decide
  simpa [wayBack, Step.later] using readLine_at h n

theorem readLines_synthesis (n : Nat) (h : secs ≤ max32) :
    readLines (numbered n (startSynthesis secs)) = .ok (synthesisSteps n secs) := by
  have hrecipe := readLine_awaitAddon (.inl rfl) n h
  have hsynthesis := readLine_awaitAddon (.inr rfl) (n + 2) h
  have hlines : startSynthesis secs =
      ['/' :: ("waitaddon".toList ++ (addonArguments "RecipeNote" ++
          '<' :: ("maxwait.".toList ++ digits secs ++ ['>']))),
        "/click synthesize".toList,
        '/' :: ("waitaddon".toList ++ (addonArguments "Synthesis" ++
          '<' :: ("maxwait.".toList ++ digits secs ++ ['>'])))] := by
    rfl
  rw [hlines]
  simp only [numbered, readLines, hrecipe, readLine_clickSynthesize, hsynthesis, bind, Except.bind]
  rfl

theorem readLines_gate (layout : CraftLayout) (n : Nat) {counts : Option Nat}
    (h : ∀ count ∈ counts, count ≤ max32) :
    readLines (numbered n (counts.map (gateLine layout)).toList) =
      .ok (counts.map (craftGate layout n)).toList := by
  cases counts with
  | none => rfl
  | some count =>
    simp only [Option.map_some, Option.toList_some, numbered, readLines,
      readLine_gate layout n (h count rfl), bind, Except.bind]
    rfl

variable {source : List Char}

/-- The body is followed by line feeds only, and does not end in one. -/
theorem normalize_eq_craftBody (source : List Char) :
    (∃ k, normalize source = craftBody source ++ List.replicate k '\n') ∧
      (craftBody source).getLast? ≠ some '\n' := by
  obtain ⟨feeds, hfeeds, he⟩ := exists_dropEnd_append (· = '\n') (normalize source)
  constructor
  · refine ⟨feeds.length, he.trans (congrArg _ (List.eq_replicate_of_mem fun c hc => ?_))⟩
    simpa using hfeeds c hc
  · intro hlast
    simpa using of_getLast?_dropEnd hlast

def bodyLines (source : List Char) : List (List Char) := lines (craftBody source ++ ['\n'])

theorem mem_craftBody {c : Char} (h : c ∈ craftBody source) : c ≠ '\r' ∧ c ≠ '\t' := by
  obtain ⟨⟨k, hk⟩, _⟩ := normalize_eq_craftBody source
  exact mem_normalize (by rw [hk]; exact List.mem_append_left _ h)

/-- They read like the text itself: the line feeds left out are blank lines. -/
theorem readLines_body (source : List Char) (n : Nat) :
    readLines (numbered n (bodyLines source)) =
      readLines (numbered n (lines (normalize source))) := by
  obtain ⟨⟨k, hk⟩, hlast⟩ := normalize_eq_craftBody source
  rw [hk, bodyLines]
  by_cases hbody : craftBody source = []
  · have hblank : lines (craftBody source ++ ['\n']) = List.replicate 1 [] := by rw [hbody]; rfl
    rw [hblank, hbody, List.nil_append, lines_replicate, readLines_blank, readLines_blank]
  · cases k with
    | zero =>
      rw [lines_last (fun hr => (mem_craftBody hr).1 rfl) hlast hbody, List.replicate_zero,
        List.append_nil]
    | succ k =>
      rw [List.replicate_succ, lines_append _ (List.replicate k '\n'), lines_replicate,
        numbered_append, readLines_append, readLines_blank]
      cases readLines (numbered n (lines (craftBody source ++ ['\n']))) with
      | error e => rfl
      | ok steps => simp [Except.bind, Except.map]

/-- How far the steps of the macro stand below their own lines. -/
def craftShift (layout : CraftLayout) (counts : Option Nat) : Nat :=
  if layout.fromRecipeNote then 3 + counts.toList.length else 0

def craftSteps (layout : CraftLayout) (counts : Option Nat) (lines : Nat) (steps : List Step) :
    List Step :=
  let gates := counts.toList.length
  if layout.fromRecipeNote then
    (counts.map (craftGate layout 1)).toList ++
      (synthesisSteps (1 + gates) layout.maxWaitSecs ++
        (steps.map (Step.later (3 + gates)) ++ [wayBack (1 + (3 + gates) + lines)]))
  else
    steps ++ ((counts.map fun count => craftGate layout (1 + lines) (count - 1)).toList ++
      (synthesisSteps (1 + lines + gates) layout.maxWaitSecs ++
        [wayBack (1 + lines + gates + 3)]))

/-- A line without line endings and tabs, as those around the body are. -/
def Flat (line : List Char) : Prop := ∀ c ∈ line, c ≠ '\n' ∧ c ≠ '\r' ∧ c ≠ '\t'

instance (line : List Char) : Decidable (Flat line) := List.decidableBAll _ line

theorem flat_append {xs ys : List Char} : Flat (xs ++ ys) ↔ Flat xs ∧ Flat ys :=
  List.forall_mem_append

theorem Flat.oneLine {line : List Char} (h : Flat line) : OneLine line :=
  ⟨fun hn => (h _ hn).1 rfl, fun hr => (h _ hr).2.1 rfl⟩

theorem flat_digits (n : Nat) : Flat (digits n) := by
  intro c hc
  refine ⟨?_, ?_, ?_⟩ <;> exact fun he => not_mem_digits (c := c) (by rw [he]; decide) hc

theorem flat_gateLine (layout : CraftLayout) (count : Nat) : Flat (gateLine layout count) := by
  have hecho : Flat (if layout.echo then " <echo>".toList else []) := by
    cases layout.echo <;> decide
  exact flat_append.mpr ⟨flat_append.mpr ⟨by decide, flat_digits count⟩, hecho⟩

theorem flat_startSynthesis (secs : Nat) : ∀ line ∈ startSynthesis secs, Flat line := by
  have hwait : Flat (" <maxwait.".toList ++ digits secs ++ ['>']) :=
    flat_append.mpr ⟨flat_append.mpr ⟨by decide, flat_digits secs⟩, by decide⟩
  have haddon : ∀ addon, Flat addon →
      Flat (addon ++ (" <maxwait.".toList ++ digits secs ++ ['>'])) :=
    fun _ h => flat_append.mpr ⟨h, hwait⟩
  unfold startSynthesis
  rw [List.forall_mem_cons, List.forall_mem_cons, List.forall_mem_cons]
  exact ⟨haddon _ (by decide), by decide, haddon _ (by decide), by simp⟩

def frameLines (layout : CraftLayout) (counts : Option Nat) : List (List Char) :=
  (counts.map (gateLine layout)).toList ++ startSynthesis layout.maxWaitSecs

theorem flat_frameLines (layout : CraftLayout) (counts : Option Nat) :
    ∀ line ∈ frameLines layout counts, Flat line := by
  refine List.forall_mem_append.mpr ⟨fun line hl => ?_, flat_startSynthesis _⟩
  obtain ⟨count, -, rfl⟩ : ∃ count, counts = some count ∧ gateLine layout count = line := by
    simpa using hl
  exact flat_gateLine layout count

theorem craftLines_eq (layout : CraftLayout) (body : List Char) (counts : Option Nat) :
    craftLines layout body counts =
      if layout.fromRecipeNote then frameLines layout counts ++ [body, "/loop".toList]
      else body :: (frameLines layout (counts.map fun n => n - 1) ++ ["/loop".toList]) := by
  unfold craftLines frameLines
  split <;> simp [Function.comp_def]

theorem readLines_frame (layout : CraftLayout) {counts : Option Nat}
    (h : ∀ count ∈ counts, count ≤ max32) (hwait : layout.maxWaitSecs ≤ max32) (n : Nat) :
    readLines (numbered n (frameLines layout counts)) =
      .ok ((counts.map (craftGate layout n)).toList ++
        synthesisSteps (n + counts.toList.length) layout.maxWaitSecs) := by
  have hlen : (counts.map (gateLine layout)).toList.length = counts.toList.length := by
    cases counts <;> rfl
  rw [frameLines, numbered_append, readLines_append, readLines_gate layout n h,
    readLines_synthesis _ hwait, hlen]
  rfl

theorem length_frameLines (layout : CraftLayout) (counts : Option Nat) :
    (frameLines layout counts).length = counts.toList.length + 3 := by
  cases counts <;> rfl

theorem lines_craft (layout : CraftLayout) (source : List Char) (counts : Option Nat) :
    lines (unlines (craftLines layout (craftBody source) counts)) =
      if layout.fromRecipeNote then
        frameLines layout counts ++ (bodyLines source ++ ["/loop".toList])
      else bodyLines source ++ (frameLines layout (counts.map fun n => n - 1) ++ ["/loop".toList]) := by
  have hframe : ∀ counts, ∀ line ∈ frameLines layout counts, OneLine line :=
    fun counts line hl => (flat_frameLines layout counts line hl).oneLine
  have hloop : lines (unlines ["/loop".toList]) = ["/loop".toList] :=
    lines_single (by decide) (by decide)
  rw [craftLines_eq]
  split
  · rw [lines_unlines_append (hframe _) (by simp), unlines_cons _ (by simp), lines_append, hloop]
    rfl
  · rw [unlines_cons _ (by simp), lines_append, lines_unlines_append (hframe _) (by simp), hloop]
    rfl

theorem normalize_craft (layout : CraftLayout) (counts : Option Nat)
    (hmark : (normalize source).head? ≠ some '\ufeff') :
    normalize (unlines (craftLines layout (craftBody source) counts)) =
      unlines (craftLines layout (craftBody source) counts) := by
  have hlines : ∀ line ∈ craftLines layout (craftBody source) counts,
      ∀ c ∈ line, c ≠ '\r' ∧ c ≠ '\t' := by
    have hflat : ∀ line, Flat line → ∀ c ∈ line, c ≠ '\r' ∧ c ≠ '\t' :=
      fun _ h c hc => (h c hc).2
    have hbody : ∀ c ∈ craftBody source, c ≠ '\r' ∧ c ≠ '\t' := fun _ => mem_craftBody
    rw [craftLines_eq]
    split
    · simp only [List.forall_mem_append, List.forall_mem_cons]
      exact ⟨fun line hl => hflat line (flat_frameLines _ _ line hl), hbody,
        hflat _ (by decide), by simp⟩
    · simp only [List.forall_mem_append, List.forall_mem_cons]
      exact ⟨hbody, fun line hl => hflat line (flat_frameLines _ _ line hl),
        hflat _ (by decide), by simp⟩
  refine normalize_eq_self (fun c hc => ?_) fun hhead => ?_
  · rcases mem_unlines hc with rfl | ⟨line, hl, hc⟩
    · decide
    · exact hlines line hl c hc
  · rw [craftLines_eq] at hhead
    split at hhead
    · obtain ⟨line, ls, hframe⟩ : ∃ line ls, frameLines layout counts = ('/' :: line) :: ls := by
        cases counts <;> exact ⟨_, _, rfl⟩
      rw [hframe, List.cons_append, head?_unlines (by simp)] at hhead
      cases hhead
    · obtain ⟨⟨k, hk⟩, _⟩ := normalize_eq_craftBody source
      by_cases hbody : craftBody source = []
      · rw [hbody, unlines_cons _ (by simp)] at hhead
        cases hhead
      · obtain ⟨c, cs, hcs⟩ := List.exists_cons_of_ne_nil hbody
        rw [head?_unlines hbody] at hhead
        rw [hk, hcs] at hmark
        rw [hcs] at hhead
        exact hmark hhead

/-- The crafting loop reads as the macro does, with the steps of the loop around those of the
macro; a fault of the macro is found where it stands in the loop. -/
theorem craft_read (layout : CraftLayout) {counts : Option Nat}
    (hmark : (normalize source).head? ≠ some '\ufeff') (hcount : ∀ count ∈ counts, count ≤ max32)
    (hwait : layout.maxWaitSecs ≤ max32) :
    Routine.read (normalize (unlines (craftLines layout (craftBody source) counts))) =
      ((Routine.read (normalize source)).mapError (LineError.later (craftShift layout counts))).map
        fun routine => ⟨craftSteps layout counts (bodyLines source).length routine.steps⟩ := by
  have hloop : ∀ n, readLines (numbered n ["/loop".toList]) = .ok [wayBack n] := by
    intro n
    simp only [numbered, readLines, readLine_wayBack, bind, Except.bind]
    rfl
  have hshift : ∀ k, readLines (numbered (1 + k) (bodyLines source)) =
      ((readLines (numbered 1 (lines (normalize source)))).mapError (LineError.later k)).map
        (List.map (Step.later k)) := by
    intro k
    rw [readLines_later, readLines_body]
  rw [normalize_craft layout counts hmark, Routine.read, Routine.read, lines_craft, craftShift]
  unfold craftSteps
  by_cases hfrom : layout.fromRecipeNote
  · simp only [hfrom, if_true]
    rw [numbered_append, readLines_append, readLines_frame layout hcount hwait, numbered_append,
      readLines_append, length_frameLines, Nat.add_comm counts.toList.length, hshift, hloop]
    cases readLines (numbered 1 (lines (normalize source))) with
    | error e => rfl
    | ok steps => simp [Except.bind, Except.map, Except.mapError]
  · have hcount' : ∀ count ∈ counts.map fun n => n - 1, count ≤ max32 := by
      intro count hc
      obtain ⟨n, hn, rfl⟩ := Option.map_eq_some_iff.mp hc
      exact Nat.le_trans (Nat.sub_le n 1) (hcount n hn)
    simp only [hfrom, Bool.false_eq_true, if_false]
    rw [numbered_append, readLines_append, readLines_body, numbered_append, readLines_append,
      readLines_frame layout hcount' hwait, hloop, length_frameLines]
    cases readLines (numbered 1 (lines (normalize source))) with
    | error e => rfl
    | ok steps =>
      cases counts <;>
        simp [Except.bind, Except.map, Except.mapError, Nat.add_assoc]

/-- A crafting loop is a macro when what it is put around is one: its own steps around those of the
macro, which are further down by the lines before them. What is wrong with the macro is wrong with
the loop, so many lines further down. -/
theorem craftLoop_reads {source : String} {counts : Option Nat}
    (hmark : (normalize source.toList).head? ≠ some '\ufeff')
    (htemplate : layout.useTemplate = false) (hcount : ∀ count ∈ counts, count ≤ max32)
    (hsecs : layout.maxWaitSecs ≤ max32) :
    ∃ text, craftLoop source.toList counts layout = .ok text ∧
      (∀ routine, Routine.ofSource source = .ok routine →
        Routine.ofSource (String.ofList text) =
          .ok ⟨craftSteps layout counts (bodyLines source.toList).length routine.steps⟩) ∧
      ∀ e, Routine.ofSource source = .error e →
        Routine.ofSource (String.ofList text) = .error (e.later (craftShift layout counts)) := by
  have hread := craft_read layout hmark hcount hsecs
  refine ⟨unlines (craftLines layout (craftBody source.toList) counts), by
    simp [craftLoop, htemplate], fun routine hsource => ?_, fun e hsource => ?_⟩
  · unfold Routine.ofSource at hsource ⊢
    rw [String.toList_ofList, hread, hsource]
    rfl
  · unfold Routine.ofSource at hsource ⊢
    rw [String.toList_ofList, hread, hsource]
    rfl

/-- In the middle of a synthesis, around a macro with a comment and blank lines at its end. -/
theorem craftLoop_reads_midway :
    let layout : CraftLayout := ⟨false, "", false, true, 7⟩
    (normalize "/ac Observe # look\r\n\r\n".toList).head? ≠ some '\ufeff' ∧
    layout.useTemplate = false ∧ layout.maxWaitSecs ≤ max32 ∧
    Routine.ofSource "/ac Observe # look\r\n\r\n" =
      .ok ⟨[⟨1, .action "Observe", "Observe", {}⟩]⟩ ∧
    ∃ text, craftLoop "/ac Observe # look\r\n\r\n".toList (some 3) layout = .ok text ∧
      Routine.ofSource (String.ofList text) =
        .ok ⟨[⟨1, .action "Observe", "Observe", {}⟩, ⟨2, .craft 2, "2", { echo := true }⟩,
          awaitAddon 3 "RecipeNote" 7, clickSynthesize 4, awaitAddon 5 "Synthesis" 7,
          wayBack 6]⟩ := by
  intro layout
  have hmark : (normalize "/ac Observe # look\r\n\r\n".toList).head? ≠ some '\ufeff' := by
    decide
  have hsource : Routine.ofSource "/ac Observe # look\r\n\r\n" =
      .ok ⟨[⟨1, .action "Observe", "Observe", {}⟩]⟩ := by decide
  have hlines : bodyLines "/ac Observe # look\r\n\r\n".toList = ["/ac Observe # look".toList] := by
    decide
  have hcount : ∀ count ∈ some 3, count ≤ max32 := by decide
  have htemplate : layout.useTemplate = false := rfl
  have hsecs : layout.maxWaitSecs ≤ max32 := by decide
  obtain ⟨text, htext, hreads, -⟩ := craftLoop_reads hmark htemplate hcount hsecs
  refine ⟨hmark, htemplate, hsecs, hsource, text, htext, (hreads _ hsource).trans ?_⟩
  rw [hlines]
  rfl

end MacroEngine
