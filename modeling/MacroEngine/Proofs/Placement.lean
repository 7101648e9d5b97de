import MacroEngine.Proofs.Squeezing
import MacroEngine.Proofs.TagSets
import Mathlib.Data.List.Perm.Basic

/-! A command line as words, quoted texts and tags. Where its tags stand does not matter: what is
left of the line without them are its words and quoted texts, one blank apart, and quotes keep what
is inside them from being read as anything else. -/
namespace MacroEngine
open Text

inductive Item where
  | word (cs : List Char)
  | quoted (cs : List Char)
  | tag (tag : Tag)
  deriving DecidableEq, Repr

namespace Item

def argument? : Item → Option (List Char)
  | .word cs => some cs
  | .quoted cs => some ('"' :: cs ++ ['"'])
  | .tag _ => none

def tag? : Item → Option Tag
  | .tag t => some t
  | _ => none

def text : Item → List Char
  | .word cs => cs
  | .quoted cs => '"' :: cs ++ ['"']
  | .tag t => t.text

/-- Words are without blanks, quotes, tags and comments, quoted texts without quotes; tags can be
used, and their values could not be taken for anything else. -/
def Fits : Item → Prop
  | .word cs => cs ≠ [] ∧ ∀ c ∈ cs, isBlank c = false ∧ c ≠ '"' ∧ c ≠ '<' ∧ c ≠ '#'
  | .quoted cs => '"' ∉ cs
  | .tag t => t.alone.isOk = true ∧
    ∀ value ∈ t.value, ∀ c ∈ value, c ≠ '"' ∧ c ≠ '#' ∧ c ≠ '>' ∧ c ≠ '\n'

instance : DecidablePred Fits
  | .word cs =>
    haveI := List.decidableBAll (fun c => isBlank c = false ∧ c ≠ '"' ∧ c ≠ '<' ∧ c ≠ '#') cs
    inferInstanceAs (Decidable (_ ∧ _))
  | .quoted _ => inferInstanceAs (Decidable (_ ∉ _))
  | .tag _ =>
    haveI := List.decidableBAll fun c => c ≠ '"' ∧ c ≠ '#' ∧ c ≠ '>' ∧ c ≠ '\n'
    inferInstanceAs (Decidable (_ ∧ _))

end Item

structure Spaced where
  gap : List Char
  item : Item
  deriving DecidableEq, Repr

namespace Spaced

def text (spaced : Spaced) : List Char := spaced.gap ++ spaced.item.text

def rest (spaced : Spaced) : List Char := spaced.gap ++ spaced.item.argument?.getD []

structure Fits (spaced : Spaced) : Prop where
  gap : spaced.gap ≠ [] ∧ ∀ c ∈ spaced.gap, isBlank c = true
  item : spaced.item.Fits

instance (spaced : Spaced) : Decidable spaced.Fits :=
  haveI := List.decidableBAll (fun c => isBlank c = true) spaced.gap
  decidable_of_iff (_ ∧ _) ⟨fun h => ⟨h.1, h.2⟩, fun h => ⟨h.gap, h.item⟩⟩

def arguments (spaced : List Spaced) : List (List Char) :=
  spaced.filterMap fun x => x.item.argument?

def tags (spaced : List Spaced) : List Tag := spaced.filterMap fun x => x.item.tag?

def items (spaced : List Spaced) : List Item := spaced.map Spaced.item

def line (name : List Char) (spaced : List Spaced) : List Char :=
  '/' :: (name ++ spaced.flatMap text)

end Spaced

/-- Text that squeezing keeps, and after which it goes on as after a word. -/
structure Solid (cs : List Char) : Prop where
  ne_nil : cs ≠ []
  last : ∀ c, cs.getLast? = some c → isBlank c = false
  kept : ∀ afterBlank rest, squeezeFrom false afterBlank (cs ++ rest) =
    cs ++ squeezeFrom false false rest

theorem solid_word {cs : List Char} (hne : cs ≠ [])
    (h : ∀ c ∈ cs, isBlank c = false ∧ c ≠ '"') : Solid cs where
  ne_nil := hne
  last c hc := (h c (List.mem_of_getLast? hc)).1
  kept afterBlank rest := by
    obtain ⟨c, cs, rfl⟩ := List.exists_cons_of_ne_nil hne
    obtain ⟨hc, hquote⟩ := h c List.mem_cons_self
    have hrest : squeezeFrom false false (cs ++ rest) = cs ++ squeezeFrom false false rest :=
      squeezeFrom_solid (fun d hd => h d (List.mem_cons_of_mem c hd)) rest
    simp [squeezeFrom, hc, hquote, hrest]

theorem solid_quoted {cs : List Char} (h : '"' ∉ cs) : Solid ('"' :: cs ++ ['"']) where
  ne_nil := by simp
  last c hc := by
    rw [List.getLast?_append] at hc
    cases hc
    decide
  kept afterBlank rest := by
    have hrest := squeezeFrom_quoted h rest
    simp [squeezeFrom, isBlank, hrest]

/-- The arguments of a text: what is left of it is nothing without them, and otherwise the
arguments, one blank apart, with a blank in front unless one came before. -/
structure Squeezes (cs : List Char) (arguments : List (List Char)) : Prop where
  none : arguments = [] → trimEnd cs = []
  some : arguments ≠ [] → trimEnd cs ≠ [] ∧ ∀ afterBlank,
    squeezeFrom false afterBlank (trimEnd cs) =
      (if afterBlank then [] else [' ']) ++ List.intercalate [' '] arguments

namespace Squeezes

variable {gap cs argument : List Char} {arguments : List (List Char)}

theorem squeeze (h : Squeezes cs arguments) :
    squeeze cs = List.intercalate [' '] arguments := by
  rw [squeeze_eq]
  by_cases hne : arguments = []
  · rw [h.none hne, hne]
    rfl
  · exact (h.some hne).2 true

theorem blanks_append (hne : gap ≠ []) (hgap : ∀ c ∈ gap, isBlank c = true)
    (h : Squeezes cs arguments) : Squeezes (gap ++ cs) arguments where
  none hnil := by rw [trimEnd_append, if_pos (h.none hnil), trimEnd_of_blanks hgap]
  some harguments := by
    obtain ⟨htrim, hsqueeze⟩ := h.some harguments
    rw [trimEnd_append, if_neg htrim]
    refine ⟨by simp [hne], fun afterBlank => ?_⟩
    rw [squeezeFrom_blanks hgap hne, hsqueeze]
    rfl

theorem argument_append (hne : gap ≠ []) (hgap : ∀ c ∈ gap, isBlank c = true)
    (hsolid : Solid argument) (h : Squeezes cs arguments) : Squeezes (gap ++ argument ++ cs) (argument :: arguments) where
  none hnil := absurd hnil (by simp)
  some _ := by
    rw [trimEnd_append]
    by_cases hlast : arguments = []
    · have hend : trimEnd (gap ++ argument) = gap ++ argument := trimEnd_eq_self fun c hc => by
        rw [List.getLast?_append_of_ne_nil _ hsolid.ne_nil] at hc
        exact hsolid.last c hc
      have hkept := hsolid.kept true []
      rw [List.append_nil] at hkept
      rw [if_pos (h.none hlast), hend]
      refine ⟨by simp [hne], fun afterBlank => ?_⟩
      rw [squeezeFrom_blanks hgap hne, hkept, hlast]
      simp [squeezeFrom]
    · obtain ⟨htrim, hsqueeze⟩ := h.some hlast
      obtain ⟨next, more, hmore⟩ := List.exists_cons_of_ne_nil hlast
      rw [if_neg htrim]
      refine ⟨by simp [hne], fun afterBlank => ?_⟩
      rw [List.append_assoc, squeezeFrom_blanks hgap hne, hsolid.kept, hsqueeze]
      simp [hmore, List.intercalate]

end Squeezes

namespace Spaced

variable {name : List Char} {xs ys spaced : List Spaced} {x : Spaced} {argument : List Char}
  {mods mods' : Modifiers} {t : Tag}

theorem Fits.solid (h : x.Fits) (hargument : x.item.argument? = some argument) :
    Solid argument := by
  obtain ⟨gap, item⟩ := x
  cases item with
  | word cs =>
    cases hargument
    exact solid_word h.item.1 fun c hc => ⟨(h.item.2 c hc).1, (h.item.2 c hc).2.1⟩
  | quoted cs =>
    cases hargument
    exact solid_quoted h.item
  | tag t => cases hargument

theorem squeezes_rest (h : ∀ x ∈ spaced, x.Fits) :
    Squeezes (spaced.flatMap rest) (arguments spaced) := by
  induction spaced with
  | nil => exact ⟨fun _ => rfl, fun hne => absurd rfl hne⟩
  | cons x spaced ih =>
    have ih := ih fun y hy => h y (List.mem_cons_of_mem x hy)
    have hx := h x List.mem_cons_self
    obtain ⟨hne, hblanks⟩ := hx.gap
    cases hargument : x.item.argument? with
    | none => simpa [rest, arguments, hargument] using ih.blanks_append hne hblanks
    | some argument =>
      simpa [rest, arguments, hargument] using
      ih.argument_append hne hblanks (hx.solid hargument)

theorem Fits.tag (h : x.Fits) (ht : x.item.tag? = some t) :
    t.Readable ∧ ∃ alone, t.alone = .ok alone := by
  obtain ⟨gap, item⟩ := x
  cases item with
  | word cs | quoted cs => cases ht
  | tag t' =>
    obtain rfl : t' = t := Option.some.inj ht
    obtain ⟨hok, hvalue⟩ : t'.alone.isOk = true ∧ _ := h.item
    cases halone : t'.alone with
    | error => rw [halone] at hok; cases hok
    | ok alone =>
      obtain ⟨kind, hkind, -⟩ := Modifiers.alone_eq_ok.mp halone
      exact ⟨Tag.readable hkind fun value hv =>
        ⟨fun hm => (hvalue value hv _ hm).2.2.1 rfl, fun hm => (hvalue value hv _ hm).2.2.2 rfl⟩,
        alone, rfl⟩

theorem Fits.inert (h : x.Fits) (hargument : x.item.argument? = some argument) :
    Inert argument := by
  obtain ⟨gap, item⟩ := x
  cases item with
  | word cs =>
    cases hargument
    exact inert_of_not_mem (fun hm => (h.item.2 _ hm).2.2.1 rfl)
      (fun hm => (h.item.2 _ hm).2.2.2 rfl) fun hm => (h.item.2 _ hm).2.1 rfl
  | quoted cs =>
    cases hargument
    exact inert_quoted h.item
  | tag t => cases hargument

/-- No item begins a comment or leaves quotes open. -/
theorem Fits.whole (h : x.Fits) :
    Uncommented false true x.text ∧ quoteAfter false x.text = false := by
  have hgap := inert_blanks h.gap.2
  have hitem : Uncommented false true x.item.text ∧ quoteAfter false x.item.text = false := by
    cases hi : x.item with
    | word cs | quoted cs =>
      have hinert : Inert x.item.text := h.inert (by rw [hi]; rfl)
      rw [hi] at hinert
      exact ⟨hinert.comments, hinert.quotes⟩
    | tag t =>
      have hreadable := (h.tag (t := t) (by rw [hi]; rfl)).1
      obtain ⟨-, hvalue⟩ : t.alone.isOk = true ∧ _ := hi ▸ h.item
      have hnot : ∀ c, isAsciiLetter c = false → c ≠ '<' ∧ c ≠ '.' ∧ c ≠ '>' →
          (∀ value ∈ t.value, c ∉ value) → c ∉ t.text :=
        fun c hletter hmark hv => Tag.not_mem_text hletter hmark hreadable hv
      exact ⟨uncommented_of_not_mem (hnot _ (by decide) (by decide)
          fun value hv hm => (hvalue value hv _ hm).2.1 rfl),
        quoteAfter_of_not_mem (hnot _ (by decide) (by decide)
          fun value hv hm => (hvalue value hv _ hm).1 rfl) false⟩
  constructor
  · rw [text, uncommented_append, hgap.quotes]
    exact ⟨hgap.comments, hitem.1.anywhere⟩
  · rw [text, quoteAfter_append, hgap.quotes, hitem.2]

theorem uncommented_texts (h : ∀ x ∈ spaced, x.Fits) (afterBlank : Bool) :
    Uncommented false afterBlank (spaced.flatMap text) := by
  induction spaced generalizing afterBlank with
  | nil => exact uncommented_of_not_mem (by simp)
  | cons x spaced ih =>
    obtain ⟨hcomments, hquotes⟩ := (h x List.mem_cons_self).whole
    rw [List.flatMap_cons, uncommented_append, hquotes]
    exact ⟨hcomments.anywhere, ih (fun y hy => h y (List.mem_cons_of_mem x hy)) _⟩

theorem takeTags_texts (h : ∀ x ∈ spaced, x.Fits)
    (hall : mods.addAll (tags spaced) = .ok mods') :
    takeTags 0 false mods (spaced.flatMap text) = .ok (spaced.flatMap rest, mods') := by
  induction spaced generalizing mods with
  | nil =>
    cases hall
    rfl
  | cons x spaced ih =>
    have hx := h x List.mem_cons_self
    have hspaced := fun y hy => h y (List.mem_cons_of_mem x hy)
    rw [List.flatMap_cons, List.flatMap_cons, text, List.append_assoc,
      takeTags_inert (inert_blanks hx.gap.2)]
    cases hi : x.item with
    | word cs | quoted cs =>
      have hargument : x.item.argument? = some x.item.text := by rw [hi]; rfl
      have htags : tags (x :: spaced) = tags spaced := by simp [tags, hi, Item.tag?]
      rw [htags] at hall
      rw [← hi, takeTags_inert (hx.inert hargument), ih hspaced hall, rest, hargument]
      simp [Except.map]
    | tag t =>
      have htags : tags (x :: spaced) = t :: tags spaced := by simp [tags, hi, Item.tag?]
      have hrest : x.rest = x.gap := by simp [rest, hi, Item.argument?]
      rw [htags, Modifiers.addAll, List.foldlM_cons] at hall
      obtain ⟨mid, hadd, hall⟩ := bind_eq_ok.mp hall
      obtain ⟨hreadable, -⟩ := hx.tag (t := t) (by rw [hi]; rfl)
      rw [Item.text, hreadable.takeTags hadd, ih hspaced hall, hrest]
      rfl

theorem getLast?_text (h : x.Fits) {c : Char} (hc : x.text.getLast? = some c) :
    x.text ≠ [] ∧ isBlank c = false := by
  have hitem : x.item.text ≠ [] ∧ ∀ c, x.item.text.getLast? = some c → isBlank c = false := by
    cases hi : x.item with
    | word cs | quoted cs =>
      have hsolid : Solid x.item.text := h.solid (by rw [hi]; rfl)
      rw [hi] at hsolid
      exact ⟨hsolid.ne_nil, hsolid.last⟩
    | tag t =>
      refine ⟨by simp [Item.text, Tag.text], fun c hc => ?_⟩
      rw [Item.text, Tag.text, ← List.cons_append, List.getLast?_append] at hc
      cases hc
      decide
  rw [text, List.getLast?_append_of_ne_nil _ hitem.1] at hc
  exact ⟨by simp [text, hitem.1], hitem.2 c hc⟩

theorem head?_texts (h : ∀ x ∈ spaced, x.Fits) {c : Char}
    (hc : (spaced.flatMap text).head? = some c) : isBlank c = true := by
  cases spaced with
  | nil => cases hc
  | cons x spaced =>
    obtain ⟨hne, hblanks⟩ := (h x List.mem_cons_self).gap
    rw [List.flatMap_cons, text, List.append_assoc, List.head?_append_of_ne_nil _ hne] at hc
    exact hblanks c (List.mem_of_head? hc)

theorem getLast?_texts (h : ∀ x ∈ spaced, x.Fits) {c : Char}
    (hc : (spaced.flatMap text).getLast? = some c) : isBlank c = false := by
  induction spaced with
  | nil => cases hc
  | cons x spaced ih =>
    rw [List.flatMap_cons, List.getLast?_append] at hc
    cases hlast : (spaced.flatMap text).getLast? with
    | some d =>
      rw [hlast] at hc
      exact ih (fun y hy => h y (List.mem_cons_of_mem x hy)) (hlast.trans hc)
    | none =>
      rw [hlast] at hc
      exact (getLast?_text (h x List.mem_cons_self) hc).2

/-- What the line reads as: its arguments in order decide the command, its tags the modifiers. -/
theorem readLine_line (n : Nat) (hname : ∀ c ∈ name, c ≠ '/' ∧ c ≠ '"' ∧ isBlank c = false)
    (h : ∀ x ∈ spaced, x.Fits) (hall : Modifiers.addAll {} (tags spaced) = .ok mods) :
    readLine n (line name spaced) =
      ((commandOf (String.ofList name) (canonicalName (String.ofList name))
        (List.intercalate [' '] (arguments spaced))).mapError fun reason =>
          ⟨n, .invalidArgument (canonicalName (String.ofList name)) reason⟩).map fun command =>
            some ⟨n, command, String.ofList (List.intercalate [' '] (arguments spaced)), mods⟩ := by
  have hblank : ∀ c ∈ name, isBlank c = false := fun c hc => (hname c hc).2.2
  have hslash : (name ++ spaced.flatMap text).head? ≠ some '/' := by
    cases name with
    | nil => exact fun he => absurd (head?_texts h he) (by decide)
    | cons c name => exact fun he => (hname c List.mem_cons_self).1 (Option.some.inj he)
  have hcomment : Uncommented false false ('/' :: (name ++ spaced.flatMap text)) := by
    have hquote : '"' ∉ name := fun hm => (hname _ hm).2.1 rfl
    rw [uncommented_cons, uncommented_append]
    exact ⟨by decide, uncommented_word hblank, by
      rw [if_neg (by decide), quoteAfter_of_not_mem hquote]
      exact uncommented_texts h _⟩
  have hsplit : splitTags (spaced.flatMap text) =
      .ok (String.ofList (List.intercalate [' '] (arguments spaced)), mods) := by
    rw [splitTags, takeTags_texts h hall, ← (squeezes_rest h).squeeze]
    rfl
  rw [line, readLine_command_eq n hblank hslash hcomment (fun c => head?_texts h)
    (fun c => getLast?_texts h), hsplit]
  simp only [Except.mapError, Except.bind, String.toList_ofList]

/-- Tags may stand anywhere on a line. In whichever places they are, the line reads alike: its words
and quoted texts as they are written, one blank apart, and just the modifiers of its tags. Nothing
is wrong with it but what the command finds wrong with its arguments. -/
theorem tags_anywhere (hname : ∀ c ∈ name, c ≠ '/' ∧ c ≠ '"' ∧ isBlank c = false)
    (hx : ∀ x ∈ xs, x.Fits) (hy : ∀ y ∈ ys, y.Fits) (hkinds : ((tags xs).map Tag.kind?).Nodup)
    (hperm : (items xs).Perm (items ys)) (horder : arguments xs = arguments ys) :
    Step.read (String.ofList (line name xs)) = Step.read (String.ofList (line name ys)) ∧
    (∀ result, Step.read (String.ofList (line name xs)) = .ok result → ∃ step, result = some step ∧
      step.rawArgs = String.ofList (List.intercalate [' '] (arguments xs)) ∧
      step.modifiers.Holds (tags xs)) ∧
    ∀ e, Step.read (String.ofList (line name xs)) = .error e → ∃ reason,
      e = ⟨1, .invalidArgument (canonicalName (String.ofList name)) reason⟩ := by
  have htags : (tags xs).Perm (tags ys) := by
    simpa [tags, items, List.filterMap_map, Function.comp_def] using hperm.filterMap Item.tag?
  have halone : ∀ {zs : List Spaced}, (∀ z ∈ zs, z.Fits) → ∀ t ∈ tags zs,
      ∃ alone, t.alone = .ok alone := by
    intro zs hz t ht
    obtain ⟨z, hm, ht⟩ := List.mem_filterMap.mp ht
    exact ((hz z hm).tag ht).2
  obtain ⟨mods, hall, hholds⟩ := Modifiers.exists_holds (halone hx) hkinds
  obtain ⟨mods', hall', hholds'⟩ := Modifiers.exists_holds (halone hy)
    ((htags.map Tag.kind?).nodup_iff.mp hkinds)
  obtain rfl : mods' = mods := hholds'.unique (hholds.perm htags)
  unfold Step.read
  rw [String.toList_ofList, String.toList_ofList, readLine_line 1 hname hx hall,
    readLine_line 1 hname hy hall', horder]
  refine ⟨rfl, ?_⟩
  cases commandOf (String.ofList name) (canonicalName (String.ofList name))
      (List.intercalate [' '] (arguments ys)) with
  | error reason =>
    refine ⟨fun _ h => (nomatch h), fun e h => ⟨reason, ?_⟩⟩
    cases h
    rfl
  | ok command =>
    refine ⟨fun result h => ?_, fun _ h => (nomatch h)⟩
    cases h
    exact ⟨_, rfl, rfl, hholds⟩

def tagged : List Spaced :=
  [⟨[' '], .tag ⟨"WAIT".toList, some "2".toList⟩⟩, ⟨[' ', ' '], .quoted "a  <hq> # b".toList⟩,
    ⟨['\t'], .tag ⟨"condition".toList, some "good,!poor".toList⟩⟩, ⟨[' '], .word "now".toList⟩]

def retagged : List Spaced :=
  [⟨[' '], .quoted "a  <hq> # b".toList⟩, ⟨[' '], .word "now".toList⟩,
    ⟨[' '], .tag ⟨"condition".toList, some "good,!poor".toList⟩⟩,
    ⟨[' '], .tag ⟨"WAIT".toList, some "2".toList⟩⟩]

theorem tags_anywhere_tagged :
    (∀ c ∈ "ac".toList, c ≠ '/' ∧ c ≠ '"' ∧ isBlank c = false) ∧
    (∀ x ∈ tagged, x.Fits) ∧ (∀ y ∈ retagged, y.Fits) ∧
    ((tags tagged).map Tag.kind?).Nodup ∧ (items tagged).Perm (items retagged) ∧
    arguments tagged = arguments retagged ∧
    ∃ step, Step.read (String.ofList (line "ac".toList tagged)) = .ok (some step) ∧
      Step.read (String.ofList (line "ac".toList retagged)) = .ok (some step) ∧
      step.rawArgs = "\"a  <hq> # b\" now" ∧ step.modifiers.Holds (tags tagged) := by
  have hname : ∀ c ∈ "ac".toList, c ≠ '/' ∧ c ≠ '"' ∧ isBlank c = false := by
    have hall : ("ac".toList.all fun c => c != '/' && c != '"' && !isBlank c) = true := by decide
    simpa [and_assoc] using List.all_eq_true.mp hall
  have hx : ∀ x ∈ tagged, x.Fits := by decide +kernel
  have hy : ∀ y ∈ retagged, y.Fits := by decide +kernel
  have hkinds : ((tags tagged).map Tag.kind?).Nodup := by decide
  have hperm : (items tagged).Perm (items retagged) := by decide
  have horder : arguments tagged = arguments retagged := by decide
  have hok : (Step.read (String.ofList (line "ac".toList tagged))).isOk = true := by decide +kernel
  obtain ⟨hsame, hread, -⟩ := tags_anywhere hname hx hy hkinds hperm horder
  cases hresult : Step.read (String.ofList (line "ac".toList tagged)) with
  | error e =>
    rw [hresult] at hok
    cases hok
  | ok result =>
    obtain ⟨step, rfl, hargs, hholds⟩ := hread result hresult
    have hraw : String.ofList (List.intercalate [' '] (arguments tagged)) =
        "\"a  <hq> # b\" now" := by decide
    exact ⟨hname, hx, hy, hkinds, hperm, horder, step, rfl, hsame.symm.trans hresult,
      hargs.trans hraw, hholds⟩

end Spaced
end MacroEngine
