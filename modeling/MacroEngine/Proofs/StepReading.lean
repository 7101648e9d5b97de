import MacroEngine.Proofs.Squeezing
import MacroEngine.Proofs.TagWriting

/-! What reading leaves of a line. The arguments of a step are squeezed and close their quotes, its
modifiers are what tags can set, and its command is what its own name makes of its arguments,
whatever name it was called by. -/
namespace MacroEngine
open Text

/-! The command that arguments make. -/

section CommandNames

variable {name canonical : String} {args : List Char} {command : Command}

def Command.names : List String :=
  ["action", "click", "craft", "loop", "recipe", "require", "requirequality", "requirerepair",
    "requirespiritbond", "requirestats", "item", "runmacro", "send", "hold", "release", "target",
    "waitaddon", "wait", "echo"]

theorem canonicalName_of_mem : ∀ name ∈ Command.names, canonicalName name = name := by
  decide

theorem chars_of_mem_names (h : name ∈ Command.names) {c : Char} (hc : c ∈ name.toList) :
    isBlank c = false ∧ c ≠ '/' ∧ c ≠ '"' := by
  have hall : (Command.names.all fun name => name.toList.all fun c =>
      !isBlank c && c != '/' && c != '"') = true := by decide
  simpa [and_assoc] using List.all_eq_true.mp (List.all_eq_true.mp hall name h) c hc

/-- A command with a name of its own comes under that name, however it was called; any other is
given to the game as typed. -/
theorem commandOf_eq_ok (h : commandOf name canonical args = .ok command) :
    (canonical ∈ Command.names ∧ command.name = canonical ∧
      ∀ name, commandOf name canonical args = .ok command) ∨ command = .native name := by
  have hmatch := h
  unfold commandOf at hmatch
  dsimp only at hmatch
  split at hmatch
  case h_20 => exact .inr (Except.ok.inj hmatch).symm
  all_goals
    refine .inl ⟨by simp [Command.names], ?_, fun _ => hmatch⟩
    grind [Command.name, Option.map_eq_some_iff]

theorem commandOf_name (h : commandOf name (canonicalName name) args = .ok command) :
    commandOf command.name (canonicalName command.name) args = .ok command ∧
      (command = .native name ∨ command.name ∈ Command.names) := by
  rcases commandOf_eq_ok h with ⟨hnames, hname, hagain⟩ | rfl
  · rw [hname, canonicalName_of_mem _ hnames]
    exact ⟨hagain _, .inr hnames⟩
  · exact ⟨h, .inl rfl⟩

end CommandNames

/-! What reading leaves of a line. -/

section Taking

variable {inQuote : Bool} {skip : Nat} {cs args body name : List Char}
  {value : Option (List Char)} {mods mods' : Modifiers}

/-- The value of a tag ends neither the tag nor the line. -/
theorem contained_of_tagAt (h : tagAt cs = some (body, name, value)) :
    ∀ v ∈ value, '>' ∉ v ∧ '\n' ∉ v := by
  rintro v rfl
  unfold tagAt at h
  rw [Option.ite_none_right_eq_some] at h
  obtain ⟨-, h⟩ := h
  obtain ⟨⟨name', value'⟩, hparts, he⟩ := Option.map_eq_some_iff.mp h
  cases he
  have hbody : '>' ∉ cs.takeWhile (· ≠ '>') := fun hm => by simpa using List.mem_takeWhile_imp hm
  generalize cs.takeWhile (· ≠ '>') = body at hparts hbody
  unfold tagParts at hparts
  dsimp only at hparts
  rw [Option.ite_none_left_eq_some] at hparts
  obtain ⟨-, hparts⟩ := hparts
  split at hparts
  · cases hparts
  · rename_i rest hrest
    rw [Option.ite_none_left_eq_some] at hparts
    obtain ⟨hline, hparts⟩ := hparts
    cases hparts
    have hclose : '>' ∉ v := fun hm =>
      hbody ((List.dropWhile_sublist isAsciiLetter).subset (hrest ▸ List.mem_cons_of_mem '.' hm))
    exact ⟨hclose, by simpa using hline⟩
  · cases hparts

structure Taken (inQuote : Bool) (cs args : List Char) (mods : Modifiers) : Prop where
  quotes : quoteAfter inQuote args = false
  within : ∀ c ∈ args, c ∈ cs
  settled : mods.Settled

theorem taken_of_takeTags (h : takeTags skip inQuote mods cs = .ok (args, mods'))
    (hmods : mods.Settled) : Taken inQuote cs args mods' := by
  induction cs generalizing skip inQuote mods args with
  | nil =>
    rw [takeTags] at h
    cases inQuote with
    | true => cases h
    | false =>
      cases h
      exact ⟨rfl, fun c hc => hc, hmods⟩
  | cons c cs ih =>
    cases skip with
    | succ skip =>
      rw [takeTags] at h
      have htaken := ih h hmods
      exact ⟨htaken.quotes, fun d hd => List.mem_cons_of_mem c (htaken.within d hd), htaken.settled⟩
    | zero =>
      rw [takeTags] at h
      split at h
      · rename_i body name value htag
        obtain ⟨mid, hinsert, h⟩ := bind_eq_ok.mp h
        obtain ⟨kind, -, -, hput⟩ := Modifiers.insert_eq_ok.mp hinsert
        rw [Modifiers.put?_eq] at hput
        obtain ⟨alone, halone, rfl⟩ := Option.map_eq_some_iff.mp hput
        have hvalue := contained_of_tagAt (Option.ite_none_right_eq_some.mp htag).2
        have htaken := ih h (hmods.set (Modifiers.settledAt_of_put? halone hvalue))
        exact ⟨htaken.quotes, fun d hd => List.mem_cons_of_mem c (htaken.within d hd),
          htaken.settled⟩
      · obtain ⟨⟨args', mods''⟩, hrest, h⟩ := bind_eq_ok.mp h
        cases h
        have htaken := ih hrest hmods
        refine ⟨htaken.quotes, fun d hd => ?_, htaken.settled⟩
        rcases List.mem_cons.mp hd with rfl | hd
        · exact List.mem_cons_self
        · exact List.mem_cons_of_mem c (htaken.within d hd)

structure Kept (cs : List Char) (args : String) (mods : Modifiers) : Prop where
  squeezed : squeeze args.toList = args.toList
  quotes : quoteAfter false args.toList = false
  within : ∀ c ∈ args.toList, c ∈ cs ∨ c = ' '
  settled : mods.Settled

theorem kept_of_splitTags {args : String} (h : splitTags cs = .ok (args, mods)) :
    Kept cs args mods := by
  obtain ⟨⟨args', mods'⟩, htake, h⟩ := bind_eq_ok.mp h
  cases h
  have htaken := taken_of_takeTags htake Modifiers.settled_empty
  refine ⟨?_, ?_, fun c hc => ?_, htaken.settled⟩
  · rw [String.toList_ofList, squeeze_squeeze]
  · rw [String.toList_ofList, quoteAfter_squeeze, htaken.quotes]
  · rw [String.toList_ofList] at hc
    exact (mem_squeeze hc).imp_left (htaken.within c)

end Taking

structure Step.Settled (step : Step) : Prop where
  word : ∀ c ∈ step.command.name.toList, isBlank c = false
  slash : step.command.name.toList.head? ≠ some '/'
  squeezed : squeeze step.rawArgs.toList = step.rawArgs.toList
  quotes : quoteAfter false step.rawArgs.toList = false
  oneLine : '\n' ∉ step.rawArgs.toList
  modifiers : step.modifiers.Settled
  command : commandOf step.command.name (canonicalName step.command.name) step.rawArgs.toList =
    .ok step.command

section Lines

variable {cs : List Char} {n : Nat} {step : Step}

theorem cutComment_prefix (cs : List Char) :
    ∀ inQuote afterBlank, ∃ rest, cs = cutComment inQuote afterBlank cs ++ rest := by
  induction cs with
  | nil => exact fun _ _ => ⟨[], rfl⟩
  | cons c cs ih =>
    intro inQuote afterBlank
    rw [cutComment]
    split
    · exact ⟨c :: cs, rfl⟩
    · obtain ⟨rest, hrest⟩ := ih (if c = '"' then !inQuote else inQuote) (isBlank c)
      exact ⟨rest, congrArg (c :: ·) hrest⟩

theorem mem_withoutComment {c : Char} (h : c ∈ withoutComment cs) : c ∈ cs := by
  unfold withoutComment at h
  split at h
  · cases h
  · cases h
  · obtain ⟨rest, hrest⟩ := cutComment_prefix cs false false
    rw [hrest]
    exact List.mem_append_left _ h

/-- Two slashes begin a comment, not a command. -/
theorem trim_withoutComment_ne (cs body : List Char) :
    trim (withoutComment cs) ≠ '/' :: '/' :: body := by
  intro h
  unfold withoutComment at h
  split at h
  · cases h
  · cases h
  · rename_i hnot
    obtain ⟨rest, hrest⟩ := cutComment_prefix cs false false
    obtain ⟨blanks, -, htrim⟩ := exists_trimEnd_append (trimStart (cutComment false false cs))
    rw [show trimEnd (trimStart (cutComment false false cs)) = '/' :: '/' :: body from h] at htrim
    refine hnot (body ++ blanks ++ rest) ?_
    have hstart : trimStart (cutComment false false cs ++ rest) =
        trimStart (cutComment false false cs) ++ rest := by
      unfold trimStart at htrim ⊢
      rw [List.dropWhile_append, htrim]
      rfl
    calc trimStart cs = trimStart (cutComment false false cs ++ rest) := by rw [← hrest]
      _ = '/' :: '/' :: (body ++ blanks ++ rest) := by
        rw [hstart, htrim]
        rfl

theorem settled_of_readLine (hline : '\n' ∉ cs) (h : readLine n cs = .ok (some step)) :
    step.Settled := by
  have hwithin : ∀ c ∈ trim (withoutComment cs), c ∈ cs :=
    fun c hc => mem_withoutComment (mem_trim hc)
  have honeLine : ∀ {rest args mods}, Kept rest args mods → (∀ c ∈ rest, c ∈ cs) →
      '\n' ∉ args.toList := by
    intro rest args mods hkept hrest hm
    rcases hkept.within _ hm with hm | hm
    · exact hline (hrest _ hm)
    · exact absurd hm (by decide)
  unfold readLine at h
  split at h
  · cases h
  · rename_i body hbody
    dsimp only at h
    obtain ⟨⟨args, mods⟩, hsplit, h⟩ := bind_eq_ok.mp h
    obtain ⟨command, hcommand, h⟩ := bind_eq_ok.mp h
    cases h
    have hkept := kept_of_splitTags (mapError_eq_ok.mp hsplit)
    obtain ⟨hagain, hname⟩ := commandOf_name (mapError_eq_ok.mp hcommand)
    have hrest : ∀ c ∈ (firstWord body).2, c ∈ cs := fun c hc =>
      hwithin c (hbody ▸ List.mem_cons_of_mem '/' ((List.dropWhile_sublist _).subset hc))
    refine ⟨?_, ?_, hkept.squeezed, hkept.quotes, honeLine hkept hrest, hkept.settled, hagain⟩
    · rcases hname with rfl | hm
      · intro c hc
        rw [Command.name, String.toList_ofList] at hc
        simpa using List.mem_takeWhile_imp hc
      · exact fun c hc => (chars_of_mem_names hm hc).1
    · rcases hname with rfl | hm
      · intro he
        rw [Command.name, String.toList_ofList] at he
        obtain ⟨more, hmore⟩ := List.head?_eq_some_iff.mp he
        refine trim_withoutComment_ne cs (more ++ (firstWord body).2) ?_
        rw [hbody, ← List.cons_append, ← hmore, firstWord_append]
      · exact fun he => (chars_of_mem_names hm (List.mem_of_head? he)).2.1 rfl
  · dsimp only at h
    obtain ⟨⟨args, mods⟩, hsplit, h⟩ := bind_eq_ok.mp h
    cases h
    have hkept := kept_of_splitTags (mapError_eq_ok.mp hsplit)
    have hname : "echo" ∈ Command.names := by decide
    refine ⟨fun c hc => (chars_of_mem_names hname hc).1, ?_, hkept.squeezed, hkept.quotes,
      honeLine hkept hwithin, hkept.settled, ?_⟩
    · exact fun he => (chars_of_mem_names hname (List.mem_of_head? he)).2.1 rfl
    · rw [Command.name, canonicalName_of_mem _ hname]
      exact congrArg (fun s => Except.ok (Command.echo s)) String.ofList_toList

end Lines

namespace Text

variable {cs line l : List Char}

theorem mem_of_mem_dropReturn {c : Char} (h : c ∈ dropReturn line) : c ∈ line := by
  unfold dropReturn at h
  split at h
  · exact List.mem_cons_of_mem _ h
  · exact h

theorem not_mem_of_mem_linesFrom (h : l ∈ linesFrom line cs) (hline : '\n' ∉ line) : '\n' ∉ l := by
  induction cs generalizing line with
  | nil =>
    rw [linesFrom] at h
    split at h
    · cases h
    · rw [List.mem_singleton.mp h, List.mem_reverse]
      exact hline
  | cons c cs ih =>
    rw [linesFrom] at h
    split at h
    · rcases List.mem_cons.mp h with rfl | h
      · rw [List.mem_reverse]
        exact fun hm => hline (mem_of_mem_dropReturn hm)
      · exact ih h List.not_mem_nil
    · rename_i hc
      exact ih h fun hm => (List.mem_cons.mp hm).elim (fun he => hc he.symm) hline

theorem not_mem_of_mem_lines (h : l ∈ lines cs) : '\n' ∉ l :=
  not_mem_of_mem_linesFrom h List.not_mem_nil

end Text

theorem settled_of_readLines {ls : List (List Char)} {n : Nat} {steps : List Step}
    (hlines : ∀ l ∈ ls, '\n' ∉ l) (h : readLines (numbered n ls) = .ok steps) :
    ∀ step ∈ steps, step.Settled := by
  induction ls generalizing n steps with
  | nil =>
    cases h
    exact fun _ hm => absurd hm List.not_mem_nil
  | cons cs ls ih =>
    obtain ⟨first, hfirst, h⟩ := bind_eq_ok.mp h
    obtain ⟨more, hmore, h⟩ := bind_eq_ok.mp h
    cases h
    intro step hm
    rcases List.mem_append.mp hm with hm | hm
    · obtain rfl : first = some step := by simpa using hm
      exact settled_of_readLine (hlines cs List.mem_cons_self) hfirst
    · exact ih (fun l hl => hlines l (List.mem_cons_of_mem cs hl)) hmore step hm

end MacroEngine
