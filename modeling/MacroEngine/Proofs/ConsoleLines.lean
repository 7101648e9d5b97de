import MacroEngine.Console
import MacroEngine.Proofs.TagWriting
import MacroEngine.Session

/-! Lines of the console that name a macro. A name in quotes is taken as it is, whatever it looks
like, and the same quotes name it in a macro. Without quotes a name is what is left of the line
behind the words before it; the blanks between those words count for nothing, with one exception:
a second blank behind `loop` makes all of it a name. -/
namespace MacroEngine
open Text Number

def inQuotes (name : String) : List Char := '"' :: (name.toList ++ ['"'])

structure Apart (blanks : List Char) : Prop where
  ne_nil : blanks ≠ []
  blank : ∀ c ∈ blanks, isBlank c = true

instance (blanks : List Char) : Decidable (Apart blanks) :=
  decidable_of_iff (blanks ≠ [] ∧ blanks.all isBlank = true)
    ⟨fun ⟨hne, hblank⟩ => ⟨hne, List.all_eq_true.mp hblank⟩,
      fun h => ⟨h.ne_nil, List.all_eq_true.mpr h.blank⟩⟩

/-- A name as it is listed: it is not empty and has no blanks at its ends. -/
structure Trimmed (name : String) : Prop where
  ne_empty : name ≠ ""
  trimmed : trimmed name = name

instance (name : String) : Decidable (Trimmed name) :=
  decidable_of_iff (name ≠ "" ∧ Text.trimmed name = name)
    ⟨fun ⟨hne, htrim⟩ => ⟨hne, htrim⟩, fun h => ⟨h.ne_empty, h.trimmed⟩⟩

variable {name : String} {before after blanks word rest cs : List Char}

structure Names (text : List Char) (name : String) : Prop where
  trimmed : trim text = text
  ne_nil : text ≠ []
  unquoted : unquote text = name.toList

namespace Trimmed

theorem ne_nil (h : Trimmed name) : name.toList ≠ [] := fun he =>
  h.ne_empty (String.toList_inj.mp he)

theorem trim_eq (h : Trimmed name) : trim name.toList = name.toList := by
  have heq := congrArg String.toList h.trimmed
  rwa [Text.trimmed, String.toList_ofList] at heq

end Trimmed

theorem Number.Denotes.not_blank {n : Nat} (h : Denotes cs n) : ∀ c ∈ cs, isBlank c = false :=
  fun c hc => isBlank_of_isAsciiDigit (h.digits c hc)

theorem getLast?_inQuotes (name : String) : (inQuotes name).getLast? = some '"' := by
  rw [inQuotes, ← List.cons_append, List.getLast?_concat]

theorem trim_inQuotes (name : String) : trim (inQuotes name) = inQuotes name := by
  refine trim_eq_self (by rintro _ ⟨⟩; rfl) fun c hc => ?_
  rw [getLast?_inQuotes] at hc
  cases hc
  rfl

theorem unquote_of_head? (htrim : trim cs = cs) (hhead : cs.head? ≠ some '"') :
    unquote cs = cs := by
  unfold unquote
  rw [htrim]
  split
  · exact absurd rfl hhead
  · rfl

theorem Trimmed.quoted (h : Trimmed name) : Names (inQuotes name) name where
  trimmed := trim_inQuotes name
  ne_nil := List.cons_ne_nil _ _
  unquoted := by
    unfold unquote
    rw [trim_inQuotes, inQuotes]
    simp [h.trim_eq]

theorem Trimmed.plain (h : Trimmed name) (hquote : '"' ∉ name.toList) : Names name.toList name where
  trimmed := h.trim_eq
  ne_nil := h.ne_nil
  unquoted := unquote_of_head? h.trim_eq fun hhead => hquote (List.mem_of_head? hhead)

theorem Names.behind {text : List Char} (h : Names text name)
    (hblanks : ∀ c ∈ blanks, isBlank c = true) : unquote (blanks ++ text) = name.toList := by
  rw [← h.unquoted, unquote, unquote, trim_blanks_append hblanks]

theorem trim_words (hword : ∀ c ∈ word, isBlank c = false) (hne : word ≠ [])
    (hrest : trim rest = rest) (hrestne : rest ≠ []) (blanks : List Char) :
    trim (word ++ blanks ++ rest) = word ++ blanks ++ rest := by
  refine trim_eq_self (fun c hc => ?_) fun c hc => ?_
  · obtain ⟨d, word, rfl⟩ := List.exists_cons_of_ne_nil hne
    exact Option.some.inj hc ▸ hword d List.mem_cons_self
  · rw [List.getLast?_append_of_ne_nil _ hrestne, ← hrest, trim] at hc
    exact isBlank_of_getLast?_trimEnd hc

theorem Apart.tail (h : Apart blanks) : ∀ c ∈ blanks.tail, isBlank c = true :=
  fun c hc => h.blank c (List.mem_of_mem_tail hc)

/-- Only the first of the blanks behind a word is cut off with it. -/
theorem cutAtBlank_apart (hword : ∀ c ∈ word, isBlank c = false) (hblanks : Apart blanks)
    (rest : List Char) :
    cutAtBlank (word ++ blanks ++ rest) = (word, some (blanks.tail ++ rest)) := by
  obtain ⟨blank, more, rfl⟩ := List.exists_cons_of_ne_nil hblanks.ne_nil
  have hblank := hblanks.blank blank List.mem_cons_self
  rw [List.append_assoc, List.cons_append, cutAtBlank_word hword hblank]
  rfl

namespace Console

/-- The console takes quotes off a name as a macro does. -/
theorem unquote_eq (cs : List Char) : Console.unquote cs = MacroEngine.unquote cs := by
  have htrim := trim_trim cs
  unfold Console.unquote MacroEngine.unquote
  generalize trim cs = text at htrim
  cases text with
  | nil => rfl
  | cons c rest =>
    by_cases hc : c = '"'
    · subst hc
      by_cases hlast : rest.getLast? = some '"' <;> simp [hlast, htrim]
    · simp [hc]

theorem readName_ok (form : String) (hname : name ≠ "")
    (hcs : MacroEngine.unquote cs = name.toList) : readName form cs = .ok name := by
  rw [readName, unquote_eq, hcs]
  simp [hname]

theorem read_named (hbefore : ∀ c ∈ before, isBlank c = true) (hblanks : Apart blanks)
    (hrest : trim rest = rest) (hne : rest ≠ []) (hafter : ∀ c ∈ after, isBlank c = true) :
    Console.read (before ++ "run".toList ++ blanks ++ rest ++ after) = (readRun rest).map some ∧
    Console.read (before ++ "craft".toList ++ blanks ++ rest ++ after) =
      (readCraft rest).map some := by
  have hline (word : List Char) (hword : ∀ c ∈ word, isBlank c = false) (hwordne : word ≠ []) :
      trim (before ++ word ++ blanks ++ rest ++ after) = word ++ blanks ++ rest ∧
        cutAtBlank (word ++ blanks ++ rest) = (word, some (blanks.tail ++ rest)) := by
    refine ⟨?_, cutAtBlank_apart hword hblanks rest⟩
    rw [trim_append_blanks hafter, List.append_assoc, List.append_assoc,
      trim_blanks_append hbefore, ← List.append_assoc, trim_words hword hwordne hrest hne]
  have hmore : trim (blanks.tail ++ rest) = rest := by rw [trim_blanks_append hblanks.tail, hrest]
  constructor
  · obtain ⟨htrim, hcut⟩ := hline "run".toList (forall_mem_of_all (by decide)) (by decide)
    unfold Console.read
    simp only [htrim, hcut, Option.getD_some, hmore]
    rfl
  · obtain ⟨htrim, hcut⟩ := hline "craft".toList (forall_mem_of_all (by decide)) (by decide)
    unfold Console.read
    simp only [htrim, hcut, Option.getD_some, hmore]
    rfl

/-! What stands behind the first word. -/

theorem cutAtBlank_inQuotes (name : String) :
    ∃ word rest, cutAtBlank (inQuotes name) = ('"' :: word, rest) := by
  have hfirst : ∀ ds, (cutAtBlank ds).1 = (firstWord ds).1 := by
    intro ds
    unfold cutAtBlank
    split <;> rename_i hcut <;> rw [hcut]
  refine ⟨(firstWord (name.toList ++ ['"'])).1, (cutAtBlank (inQuotes name)).2, Prod.ext ?_ rfl⟩
  rw [hfirst, firstWord, inQuotes, List.takeWhile_cons_of_pos (by decide)]
  rfl

theorem readRun_inQuotes (h : Trimmed name) : readRun (inQuotes name) = .ok (.run name none) := by
  have hargs : loopArgs (inQuotes name) = none := by
    obtain ⟨word, rest, hcut⟩ := cutAtBlank_inQuotes name
    have hloop : eqIgnoringAsciiCase ('"' :: word) ['l', 'o', 'o', 'p'] = false := by
      simp [eqIgnoringAsciiCase, asciiLower]
    unfold loopArgs
    rw [hcut]
    cases rest with
    | none => rfl
    | some rest =>
      dsimp only
      split
      · rw [hloop]
        rfl
      · rfl
  unfold readRun
  simp only [trim_inQuotes, hargs, readName_ok runForm h.ne_empty h.quoted.unquoted, Except.map]

theorem readCraft_inQuotes (h : Trimmed name) :
    readCraft (inQuotes name) = .ok (.craft name none) := by
  obtain ⟨word, rest, hcut⟩ := cutAtBlank_inQuotes name
  have hcount : readUpTo max32 ('"' :: word) = none := by simp [readUpTo, isAsciiDigit]
  unfold readCraft
  simp only [trim_inQuotes, hcut]
  cases rest <;>
    simp only [hcount, readName_ok craftForm h.ne_empty h.quoted.unquoted, Except.map]

section Counted

variable {count text first second third : List Char} {n : Nat}

theorem trim_counted (hcount : Denotes count n) (h : Names text name) (blanks : List Char) :
    trim (count ++ blanks ++ text) = count ++ blanks ++ text :=
  trim_words hcount.not_blank hcount.ne_nil h.trimmed h.ne_nil blanks

theorem trim_loop_counted (hcount : Denotes count n) (h : Names text name)
    (second third : List Char) :
    trim ("loop".toList ++ second ++ (count ++ third ++ text)) =
      "loop".toList ++ second ++ (count ++ third ++ text) :=
  trim_words (forall_mem_of_all (by decide)) (by decide) (trim_counted hcount h third)
    (by simp [h.ne_nil]) second

theorem readCraft_counted (hcount : Denotes count n) (hn : n ≤ max32) (hblanks : Apart blanks)
    (h : Names text name) (hname : Trimmed name) :
    readCraft (count ++ blanks ++ text) = .ok (.craft name (some n)) := by
  unfold readCraft
  simp only [trim_counted hcount h, cutAtBlank_apart hcount.not_blank hblanks, hcount.readUpTo,
    if_pos hn, readName_ok craftForm hname.ne_empty (h.behind hblanks.tail), Except.map]

/-- Behind `loop` stands a count, unless there is more than one blank between them: then the word
behind the first blank is empty, and no count. -/
theorem loopArgs_counted (hsecond : Apart second) (hcount : Denotes count n) (hn : n ≤ max32)
    (hthird : Apart third) (text : List Char) :
    loopArgs ("loop".toList ++ second ++ (count ++ third ++ text)) =
      if second.length = 1 then some (n, third.tail ++ text) else none := by
  have hloop : eqIgnoringAsciiCase "loop".toList ['l', 'o', 'o', 'p'] = true := by decide
  unfold loopArgs
  rw [cutAtBlank_apart (forall_mem_of_all (by decide)) hsecond]
  obtain ⟨blank, more, rfl⟩ := List.exists_cons_of_ne_nil hsecond.ne_nil
  cases more with
  | nil =>
    simp only [List.tail_cons, List.nil_append, cutAtBlank_apart hcount.not_blank hthird, hloop,
      if_true, hcount.readUpTo, if_pos hn, Option.map_some, List.length_singleton]
  | cons extra more =>
    have hextra : isBlank extra = true := hsecond.tail extra List.mem_cons_self
    have hnothing : ∀ c ∈ ([] : List Char), isBlank c = false := nofun
    have hcut : ∀ rest, cutAtBlank (extra :: rest) = ([], some rest) :=
      cutAtBlank_word hnothing hextra
    have hempty : readUpTo max32 [] = none := by decide
    simp only [List.tail_cons, List.cons_append, hcut, hloop, if_true, hempty, Option.map_none]
    simp

theorem readRun_counted (hsecond : Apart second) (hcount : Denotes count n) (hn : n ≤ max32)
    (hthird : Apart third) (h : Names text name) (hname : Trimmed name) :
    readRun ("loop".toList ++ second ++ (count ++ third ++ text)) =
      .ok (if second.length = 1 then .run name (some n)
        else .run (String.ofList ("loop".toList ++ second ++ (count ++ third ++ text))) none) := by
  have htrim := trim_loop_counted hcount h second third
  have hwhole : readName runForm ("loop".toList ++ second ++ (count ++ third ++ text)) =
      .ok (String.ofList ("loop".toList ++ second ++ (count ++ third ++ text))) := by
    refine readName_ok runForm (by simp) ?_
    exact (unquote_of_head? htrim (by rintro ⟨⟩)).trans String.toList_ofList.symm
  unfold readRun
  simp only [htrim, loopArgs_counted hsecond hcount hn hthird]
  by_cases hone : second.length = 1
  · simp only [if_pos hone, readName_ok runForm hname.ne_empty (h.behind hthird.tail), Except.map]
  · simp only [if_neg hone, hwhole, Except.map]

variable (hbefore : ∀ c ∈ before, isBlank c = true) (hfirst : Apart first)
  (hsecond : Apart second) (hthird : Apart third) (hafter : ∀ c ∈ after, isBlank c = true)
  (hcount : Denotes count n) (hn : n ≤ max32) (h : Names text name) (hname : Trimmed name)

include hbefore hfirst hsecond hafter hcount hn h hname

theorem read_craft_counted :
    Console.read (before ++ "craft".toList ++ first ++ (count ++ second ++ text) ++ after) =
      .ok (some (.craft name (some n))) := by
  rw [(read_named hbefore hfirst (trim_counted hcount h second) (by simp [h.ne_nil]) hafter).2,
    readCraft_counted hcount hn hsecond h hname]
  rfl

include hthird

theorem read_run_counted :
    Console.read (before ++ "run".toList ++ first ++
        ("loop".toList ++ second ++ (count ++ third ++ text)) ++ after) =
      .ok (some (if second.length = 1 then .run name (some n)
        else .run (String.ofList ("loop".toList ++ second ++ (count ++ third ++ text))) none)) := by
  rw [(read_named hbefore hfirst (trim_loop_counted hcount h second third) (by simp) hafter).1,
    readRun_counted hsecond hcount hn hthird h hname]
  rfl

end Counted

end Console

/-! The same name in a macro. -/

theorem squeeze_inQuotes (h : '"' ∉ name.toList) : squeeze (inQuotes name) = inQuotes name := by
  have hcons : inQuotes name = '"' :: (name.toList ++ '"' :: []) := rfl
  rw [squeeze, trim_inQuotes, hcons, squeezeFrom]
  simp [isBlank, squeezeFrom_quoted h, squeezeFrom]

theorem commandOf_runMacro {args : List Char} (hname : name ≠ "")
    (hargs : MacroEngine.unquote args = name.toList) :
    commandOf "runmacro" (canonicalName "runmacro") args = .ok (.runMacro name) := by
  have hcanonical : canonicalName "runmacro" = "runmacro" := by decide
  have hne : name.toList.isEmpty = false := by simpa using hname
  rw [hcanonical]
  unfold commandOf
  dsimp only
  rw [hargs, hne, String.ofList_toList]
  rfl

theorem readLine_runMacro (n : Nat) (h : Trimmed name) (hquote : '"' ∉ name.toList) :
    readLine n ('/' :: ("runmacro".toList ++ ' ' :: inQuotes name)) =
      .ok (some ⟨n, .runMacro name, String.ofList (inQuotes name), {}⟩) := by
  have hinside : Names (inQuotes name) name := h.quoted
  have hblank : ∀ c ∈ [' '], isBlank c = true := forall_mem_of_all (by decide)
  have hinert : Inert (' ' :: inQuotes name) := (inert_blanks hblank).append (inert_quoted hquote)
  have hargs : splitTags (' ' :: inQuotes name) = .ok (String.ofList (inQuotes name), {}) := by
    have hsqueeze : squeeze ([' '] ++ inQuotes name) = inQuotes name := by
      rw [squeeze_blanks_append hblank, squeeze_inQuotes hquote]
    have hsplit := splitTags_untagged hinert.tags hinert.quotes
    rwa [← List.singleton_append, hsqueeze] at hsplit
  have hcommand := commandOf_runMacro h.ne_empty hinside.unquoted
  have hcomment : Uncommented false false ('/' :: ("runmacro".toList ++ ' ' :: inQuotes name)) := by
    have hword : Inert "/runmacro".toList := inert_of_not_mem (by decide) (by decide) (by decide)
    exact (hword.append hinert).comments.anywhere
  have hlast : ∀ c, (' ' :: inQuotes name).getLast? = some c → isBlank c = false := by
    intro c hc
    rw [List.getLast?_cons_of_ne_nil hinside.ne_nil, getLast?_inQuotes] at hc
    cases hc
    rfl
  have hword : ∀ c ∈ "runmacro".toList, isBlank c = false := forall_mem_of_all (by decide)
  rw [readLine_command_eq n hword (by rintro ⟨⟩) hcomment (by rintro _ ⟨⟩; rfl) hlast, hargs]
  simp only [Except.mapError, Except.bind, String.toList_ofList]
  change (Except.mapError _ (commandOf "runmacro" (canonicalName "runmacro") _)).map _ = _
  rw [hcommand]
  rfl

/-- The macro that a name stands for is what the console runs by that name, and what a macro
enters by it, unless it is under way. -/
theorem reached_of_native {library : Library} {routine : Routine}
    (h : library.native name = .ok routine) :
    Session.prepare library name none = .ok (.ofRoutine name routine) ∧
    ∀ chain eff, (∀ other ∈ chain, sameName other name = false) →
      Execution.enter library chain eff name = .done (.enter name routine eff.wait) := by
  constructor
  · obtain ⟨source, hget, hsource⟩ := bind_eq_ok.mp h
    unfold Session.prepare
    rw [hget]
    cases source with
    | native => cases hsource; rfl
    | script => cases hsource
  · intro chain eff hchain
    have hfree : ¬ (chain.any fun other => sameName other name) = true := by
      simpa using hchain
    rw [Execution.enter, if_neg hfree, h]

/-- Every name can be written. In quotes it is the name of the macro to run or to craft, with a
count in front or without, whatever it looks like; and if it has no quotes itself, a macro names it
in the same way, so that both come to the same entry of the library. -/
theorem quoted_names {count : List Char} {n : Nat} (hname : Trimmed name) (hcount : Denotes count n)
    (hn : n ≤ max32) :
    Console.read ("run ".toList ++ inQuotes name) = .ok (some (.run name none)) ∧
    Console.read ("run loop ".toList ++ count ++ ' ' :: inQuotes name) =
      .ok (some (.run name (some n))) ∧
    Console.read ("craft ".toList ++ inQuotes name) = .ok (some (.craft name none)) ∧
    Console.read ("craft ".toList ++ count ++ ' ' :: inQuotes name) =
      .ok (some (.craft name (some n))) ∧
    ('"' ∉ name.toList →
      Step.read (String.ofList ("/runmacro ".toList ++ inQuotes name)) =
        .ok (some ⟨1, .runMacro name, String.ofList (inQuotes name), {}⟩)) ∧
    ∀ library routine, library.native name = .ok routine →
      Session.prepare library name none = .ok (.ofRoutine name routine) ∧
      ∀ chain eff, (∀ other ∈ chain, sameName other name = false) →
        Execution.enter library chain eff name = .done (.enter name routine eff.wait) := by
  have hblank : Apart [' '] := by decide
  have hend : ∀ c ∈ ([] : List Char), isBlank c = true := nofun
  have hquoted := hname.quoted
  have hplain := Console.read_named hend hblank hquoted.trimmed hquoted.ne_nil hend
  have hrun := Console.read_run_counted hend hblank hblank hblank hend hcount hn hquoted hname
  have hcraft := Console.read_craft_counted hend hblank hblank hend hcount hn hquoted hname
  refine ⟨?_, ?_, ?_, ?_, fun hquote => ?_, fun _ _ => reached_of_native⟩
  · have hread := hplain.1
    rw [Console.readRun_inQuotes hname] at hread
    simpa [Except.map] using hread
  · simpa using hrun
  · have hread := hplain.2
    rw [Console.readCraft_inQuotes hname] at hread
    simpa [Except.map] using hread
  · simpa using hcraft
  · rw [Step.read, String.toList_ofList]
    exact readLine_runMacro 1 hname hquote

def mimic : String := "loop 5 # <hq>  x"

theorem quoted_names_mimic :
    Trimmed mimic ∧ Trimmed "5 \"x\"" ∧ Denotes "007".toList 7 ∧ 7 ≤ max32 ∧ '"' ∉ mimic.toList ∧
    Console.read "run \"loop 5 # <hq>  x\"".toList = .ok (some (.run mimic none)) ∧
    Console.read "craft 007 \"5 \"x\"\"".toList = .ok (some (.craft "5 \"x\"" (some 7))) ∧
    Step.read "/runmacro \"loop 5 # <hq>  x\"" =
      .ok (some ⟨1, .runMacro mimic, "\"loop 5 # <hq>  x\"", {}⟩) ∧
    Session.prepare ⟨[⟨"Loop 5 # <hq>  X", .native, "/ac Observe"⟩]⟩ mimic none =
      .ok (.ofRoutine mimic ⟨[⟨1, .action "Observe", "Observe", {}⟩]⟩) := by
  have hmimic : Trimmed mimic := by decide
  have hfive : Trimmed "5 \"x\"" := by decide
  have hcount : Denotes "007".toList 7 := by decide
  have hn : 7 ≤ max32 := by decide
  have hquote : '"' ∉ mimic.toList := by decide
  obtain ⟨hrun, -, -, -, hstep, hreach⟩ := quoted_names hmimic hcount hn
  obtain ⟨-, -, -, hcraft, -, -⟩ := quoted_names hfive hcount hn
  have hrunLine : "run \"loop 5 # <hq>  x\"".toList = "run ".toList ++ inQuotes mimic := by decide
  have hcraftLine : "craft 007 \"5 \"x\"\"".toList =
      "craft ".toList ++ "007".toList ++ ' ' :: inQuotes "5 \"x\"" := by decide
  rw [hrunLine, hcraftLine]
  exact ⟨hmimic, hfive, hcount, hn, hquote, hrun, hcraft, hstep hquote,
    (hreach _ _ (by decide +kernel)).1⟩

/-- The amount of blanks between the words of a line does not matter, nor do blanks at its ends,
but for those behind `loop`: with more than one of them all the rest is taken for a name. -/
theorem blanks_between_words {first second third count : List Char} {n : Nat}
    (hbefore : ∀ c ∈ before, isBlank c = true) (hfirst : Apart first) (hsecond : Apart second)
    (hthird : Apart third) (hafter : ∀ c ∈ after, isBlank c = true) (hcount : Denotes count n)
    (hn : n ≤ max32) (hname : Trimmed name) (hquote : '"' ∉ name.toList) :
    Console.read (before ++ "run".toList ++ first ++ "loop".toList ++ second ++ count ++ third ++
        name.toList ++ after) =
      .ok (some (if second.length = 1 then .run name (some n) else
        .run (String.ofList ("loop".toList ++ second ++ count ++ third ++ name.toList)) none)) ∧
    Console.read (before ++ "craft".toList ++ first ++ count ++ second ++ name.toList ++ after) =
      .ok (some (.craft name (some n))) := by
  have hplain := hname.plain hquote
  constructor
  · have hrun := Console.read_run_counted hbefore hfirst hsecond hthird hafter hcount hn hplain
      hname
    simpa only [List.append_assoc] using hrun
  · have hcraft := Console.read_craft_counted hbefore hfirst hsecond hafter hcount hn hplain hname
    simpa only [List.append_assoc] using hcraft

theorem blanks_between_words_wide :
    (∀ c ∈ "  ".toList, isBlank c = true) ∧ Apart "\t \u3000".toList ∧ Apart " ".toList ∧
    Apart " \u2002 ".toList ∧ Denotes "05".toList 5 ∧ 5 ≤ max32 ∧ Trimmed "Quick Synth" ∧
    '"' ∉ "Quick Synth".toList ∧
    Console.read "  run\t \u3000loop 05 \u2002 Quick Synth  ".toList =
      .ok (some (.run "Quick Synth" (some 5))) ∧
    Console.read "  craft\t \u300005 \u2002 Quick Synth  ".toList =
      .ok (some (.craft "Quick Synth" (some 5))) := by
  have hends : ∀ c ∈ "  ".toList, isBlank c = true := forall_mem_of_all (by decide)
  have hfirst : Apart "\t \u3000".toList := by decide
  have hone : Apart " ".toList := by decide
  have hwide : Apart " \u2002 ".toList := by decide
  have hcount : Denotes "05".toList 5 := by decide
  have hn : 5 ≤ max32 := by decide
  have hname : Trimmed "Quick Synth" := by decide
  have hquote : '"' ∉ "Quick Synth".toList := by decide
  have hrunLine : "  run\t \u3000loop 05 \u2002 Quick Synth  ".toList =
      "  ".toList ++ "run".toList ++ "\t \u3000".toList ++ "loop".toList ++ " ".toList ++
        "05".toList ++ " \u2002 ".toList ++ "Quick Synth".toList ++ "  ".toList := by decide
  have hcraftLine : "  craft\t \u300005 \u2002 Quick Synth  ".toList =
      "  ".toList ++ "craft".toList ++ "\t \u3000".toList ++ "05".toList ++
        " \u2002 ".toList ++ "Quick Synth".toList ++ "  ".toList := by decide
  rw [hrunLine, hcraftLine]
  exact ⟨hends, hfirst, hone, hwide, hcount, hn, hname, hquote,
    (blanks_between_words hends hfirst hone hwide hends hcount hn hname hquote).1,
    (blanks_between_words hends hfirst hwide hwide hends hcount hn hname hquote).2⟩

/-- With two blanks behind `loop` another macro is asked for. -/
theorem blanks_behind_loop :
    Console.read "run loop  5 x".toList = .ok (some (.run "loop  5 x" none)) ∧
    Console.read "run loop  5 x".toList ≠ .ok (some (.run "x" (some 5))) := by
  decide

end MacroEngine
