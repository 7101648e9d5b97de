import MacroEngine.Proofs.DecimalNotation
import MacroEngine.Proofs.Squeezing
import MacroEngine.Proofs.TagSets
import Mathlib.Data.List.Nodup

/-! Modifiers, written and read again. The tag that is written for a modifier sets it to what it
is, however the tag that it came from was spelled: a negation is written as a mark, amounts are
written in the fewest digits, and kinds come in their canonical order. -/
namespace MacroEngine

namespace Text

variable {sep c : Char} {cs piece : List Char} {pieces : List (List Char)}

theorem splitOn_eq (sep : Char) (cs : List Char) : splitOn sep cs = List.splitOn sep cs := by
  have hfrom : ∀ piece, splitOnFrom sep piece cs = List.splitOnPPrepend (· == sep) cs piece := by
    induction cs with
    | nil => exact fun _ => rfl
    | cons c cs ih =>
      intro piece
      rw [splitOnFrom, List.splitOnPPrepend_cons_eq_if, ih, ← ih]
      simp only [beq_iff_eq, List.splitOnP_eq_splitOnPPrepend, ih]
  exact hfrom []

theorem splitOn_intercalate (h : ∀ piece ∈ pieces, sep ∉ piece) (hne : pieces ≠ []) :
    splitOn sep (List.intercalate [sep] pieces) = pieces := by
  rw [splitOn_eq]
  exact List.splitOn_intercalate sep h hne

theorem mem_of_mem_splitOnFrom {under : List Char} (h : piece ∈ splitOnFrom sep under cs)
    (hc : c ∈ piece) : c ∈ under ∨ c ∈ cs ∧ c ≠ sep := by
  induction cs generalizing under with
  | nil =>
    rw [splitOnFrom, List.mem_singleton] at h
    exact .inl (List.mem_reverse.mp (h ▸ hc))
  | cons d cs ih =>
    have hmore : ∀ {under}, piece ∈ splitOnFrom sep under cs → c ∈ under ∨ c ∈ d :: cs ∧ c ≠ sep :=
      fun h => (ih h).imp_right (.imp_left (List.mem_cons_of_mem d))
    rw [splitOnFrom] at h
    split at h
    · rcases List.mem_cons.mp h with rfl | h
      · exact .inl (List.mem_reverse.mp hc)
      · exact .inr ((hmore h).resolve_left List.not_mem_nil)
    · rename_i hsep
      rcases hmore h with hunder | hrest
      · rcases List.mem_cons.mp hunder with rfl | hunder
        · exact .inr ⟨List.mem_cons_self, hsep⟩
        · exact .inl hunder
      · exact .inr hrest

theorem mem_of_mem_splitOn (h : piece ∈ splitOn sep cs) (hc : c ∈ piece) : c ∈ cs ∧ c ≠ sep :=
  (mem_of_mem_splitOnFrom h hc).resolve_left List.not_mem_nil

theorem mem_trim (h : c ∈ trim cs) : c ∈ cs := by
  obtain ⟨blanks, -, he⟩ := exists_trimEnd_append (trimStart cs)
  have hstart : c ∈ trimStart cs := by
    rw [he]
    exact List.mem_append_left _ h
  exact (List.dropWhile_sublist isBlank).subset hstart

theorem isBlank_of_head?_trim (h : (trim cs).head? = some c) : isBlank c = false := by
  rw [← trimStart_trimEnd, trimStart] at h
  have hnot := List.head?_dropWhile_not isBlank (trimEnd cs)
  rw [h] at hnot
  simpa using hnot

theorem trim_trim (cs : List Char) : trim (trim cs) = trim cs :=
  trim_eq_self (fun _ => isBlank_of_head?_trim) fun _ => isBlank_of_getLast?_trimEnd

theorem trim_cons (hc : isBlank c = false) (h : trim cs = cs) : trim (c :: cs) = c :: cs := by
  refine trim_eq_self (by rintro _ ⟨⟩; exact hc) fun d hd => ?_
  rw [List.getLast?_cons] at hd
  cases hlast : cs.getLast? with
  | none =>
    rw [hlast] at hd
    cases hd
    exact hc
  | some e =>
    rw [hlast] at hd
    cases hd
    rw [← h] at hlast
    exact isBlank_of_getLast?_trimEnd hlast

end Text

open Text Number

namespace ConditionTerm

variable {term : ConditionTerm} {terms : List ConditionTerm} {cs : List Char}

/-- A term as it is read: it has a name without blanks around it, and the name of one that is not
negated does not begin like a negation. -/
structure Settled (term : ConditionTerm) : Prop where
  named : term.name.toList ≠ []
  trimmed : trim term.name.toList = term.name.toList
  plain : term.negated = false → term.name.toList.head? ≠ some '!' ∧
    eqIgnoringAsciiCase (term.name.toList.take 4) ['n', 'o', 't', '.'] = false

/-- The name of a term is what a negation in front of it leaves. -/
theorem settled_of_readTerm (h : readTerm cs = some term) :
    term.Settled ∧ ∀ c ∈ term.name.toList, c ∈ cs := by
  have hnamed : ∀ {body : List Char} {negated : Bool},
      (if (trim body).isEmpty then none else some ⟨String.ofList (trim body), negated⟩) =
        some term →
      (∀ c ∈ body, c ∈ trim cs) →
      (negated = false → (trim body).head? ≠ some '!' ∧
        eqIgnoringAsciiCase ((trim body).take 4) ['n', 'o', 't', '.'] = false) →
      term.Settled ∧ ∀ c ∈ term.name.toList, c ∈ cs := by
    intro body negated hterm hbody hplain
    rw [Option.ite_none_left_eq_some] at hterm
    obtain ⟨hne, hterm⟩ := hterm
    cases hterm
    refine ⟨⟨?_, ?_, ?_⟩, fun c hc => ?_⟩
    · simpa using hne
    · simpa using trim_trim body
    · simpa using hplain
    · rw [String.toList_ofList] at hc
      exact mem_trim (hbody c (mem_trim hc))
  unfold readTerm at h
  dsimp only at h
  split at h
  · rename_i rest hrest
    exact hnamed h (fun c hc => hrest ▸ List.mem_cons_of_mem '!' hc) nofun
  · rename_i hmark
    by_cases hnot : eqIgnoringAsciiCase ((trim cs).take 4) ['n', 'o', 't', '.'] = true
    · simp only [if_pos hnot] at h
      exact hnamed h (fun c hc => List.mem_of_mem_drop hc) nofun
    · simp only [if_neg hnot] at h
      refine hnamed h (fun c hc => hc) fun _ => ?_
      rw [trim_trim]
      refine ⟨fun hhead => ?_, Bool.eq_false_iff.mpr hnot⟩
      obtain ⟨rest, hrest⟩ := List.head?_eq_some_iff.mp hhead
      exact hmark rest hrest

theorem Settled.readTerm_text (h : term.Settled) : readTerm term.text = some term := by
  obtain ⟨name, negated⟩ := term
  obtain ⟨hne, htrim, hplain⟩ := h
  dsimp only at hne htrim hplain
  have hempty : name.toList.isEmpty = false := List.isEmpty_eq_false_iff.mpr hne
  cases negated with
  | true =>
    have hmark : trim ('!' :: name.toList) = '!' :: name.toList := trim_cons (by decide) htrim
    simp only [text, readTerm, if_true, List.cons_append, List.nil_append, hmark, htrim, hempty,
      Bool.false_eq_true, if_false, String.ofList_toList]
  | false =>
    obtain ⟨hmark, hnot⟩ := hplain rfl
    simp only [text, readTerm, Bool.false_eq_true, if_false, List.nil_append, htrim, hnot]
    split
    · rename_i rest hrest
      rw [hrest] at hmark
      exact absurd rfl hmark
    · simp only [htrim, hempty, Bool.false_eq_true, if_false, String.ofList_toList]

theorem mapM_readTerm {pieces : List (List Char)} (h : pieces.mapM readTerm = some terms) :
    (pieces ≠ [] → terms ≠ []) ∧
      ∀ term ∈ terms, term.Settled ∧ ∃ piece ∈ pieces, ∀ c ∈ term.name.toList, c ∈ piece := by
  induction pieces generalizing terms with
  | nil =>
    cases h
    exact ⟨fun hne => absurd rfl hne, fun _ hm => absurd hm List.not_mem_nil⟩
  | cons piece pieces ih =>
    simp only [List.mapM_cons, bind, pure, Option.bind_eq_some_iff, Option.some.injEq] at h
    obtain ⟨term, hterm, more, hmore, rfl⟩ := h
    obtain ⟨hsettled, hmem⟩ := settled_of_readTerm hterm
    refine ⟨fun _ => List.cons_ne_nil _ _, List.forall_mem_cons.mpr
      ⟨⟨hsettled, piece, List.mem_cons_self, hmem⟩, fun term ht => ?_⟩⟩
    obtain ⟨hsettled, piece', hpiece, hmem⟩ := (ih hmore).2 term ht
    exact ⟨hsettled, piece', List.mem_cons_of_mem piece hpiece, hmem⟩

theorem mapM_readTerm_text (h : ∀ term ∈ terms, term.Settled) :
    (terms.map text).mapM readTerm = some terms := by
  induction terms with
  | nil => rfl
  | cons term terms ih =>
    rw [List.map_cons, List.mapM_cons, (h term List.mem_cons_self).readTerm_text,
      ih fun t ht => h t (List.mem_cons_of_mem term ht)]
    rfl

theorem mem_text {c : Char} (h : c ∈ term.text) : c = '!' ∨ c ∈ term.name.toList := by
  rcases List.mem_append.mp h with h | h
  · split at h
    · exact .inl (List.mem_singleton.mp h)
    · cases h
  · exact .inr h

def listText (terms : List ConditionTerm) : List Char := List.intercalate [','] (terms.map text)

theorem mem_listText {c : Char} (h : c ∈ listText terms) :
    c = ',' ∨ c = '!' ∨ ∃ term ∈ terms, c ∈ term.name.toList := by
  induction terms with
  | nil => cases h
  | cons term terms ih =>
    have hhead : c ∈ term.text →
        c = ',' ∨ c = '!' ∨ ∃ other ∈ term :: terms, c ∈ other.name.toList :=
      fun hc => .inr ((mem_text hc).imp_right fun hc => ⟨term, List.mem_cons_self, hc⟩)
    cases terms with
    | nil =>
      have hc : c ∈ term.text := by simpa [listText, List.intercalate] using h
      exact hhead hc
    | cons next terms =>
      have hsplit : listText (term :: next :: terms) =
          term.text ++ ',' :: listText (next :: terms) := by
        simp [listText, List.intercalate]
      rw [hsplit] at h
      rcases List.mem_append.mp h with hc | hc
      · exact hhead hc
      · rcases List.mem_cons.mp hc with hc | hc
        · exact .inl hc
        · exact (ih hc).imp_right (.imp_right fun ⟨other, ho, hc⟩ =>
            ⟨other, List.mem_cons_of_mem term ho, hc⟩)

theorem readTerms_text (h : readTerms cs = some terms) : readTerms (listText terms) = some terms ∧
    ∀ term ∈ terms, ∀ c ∈ term.name.toList, c ∈ cs := by
  obtain ⟨hne, hterms⟩ := mapM_readTerm h
  have hparts : ∀ term ∈ terms, ∀ c ∈ term.name.toList, c ∈ cs ∧ c ≠ ',' := by
    intro term ht c hc
    obtain ⟨-, piece, hpiece, hmem⟩ := hterms term ht
    exact mem_of_mem_splitOn hpiece (hmem c hc)
  have hcomma : ∀ piece ∈ terms.map text, ',' ∉ piece := by
    intro piece hpiece hm
    obtain ⟨term, ht, rfl⟩ := List.mem_map.mp hpiece
    rcases mem_text hm with hm | hm
    · exact absurd hm (by decide)
    · exact (hparts term ht _ hm).2 rfl
  have hmap : terms.map text ≠ [] := by simpa using hne (splitOn_ne_nil ',' cs)
  refine ⟨?_, fun term ht c hc => (hparts term ht c hc).1⟩
  rw [readTerms, listText, splitOn_intercalate hcomma hmap,
    mapM_readTerm_text fun term ht => (hterms term ht).1]

end ConditionTerm

namespace Modifiers

variable {mods alone : Modifiers} {kind : ModifierKind} {value : Option (List Char)} {c : Char}

def valueText (mods : Modifiers) : ModifierKind → Option (List Char)
  | .wait => mods.wait.map WaitSpan.text
  | .maxWait => mods.maxWait.map Binary64.text
  | .condition => mods.condition.map ConditionTerm.listText
  | .index => mods.index.map digits
  | .list => mods.list.map digits
  | .unconfirmed | .echo | .hq => none

theorem valueText_only (mods : Modifiers) (kind : ModifierKind) :
    (mods.only kind).valueText kind = mods.valueText kind := by
  cases kind <;> rfl

theorem only_only (mods : Modifiers) (kind : ModifierKind) :
    (mods.only kind).only kind = mods.only kind := by
  cases kind <;> rfl

def isAmountChar (c : Char) : Bool := isAsciiDigit c || c = '.' || c = '-'

/-- The modifier of a kind is what the tag that is written for it sets. -/
structure SettledAt (mods : Modifiers) (kind : ModifierKind) : Prop where
  given : mods.has kind = true → put? {} kind (mods.valueText kind) = some (mods.only kind)
  contained : ∀ cs ∈ mods.valueText kind, '>' ∉ cs ∧ '\n' ∉ cs
  amount : kind ≠ .condition → ∀ cs ∈ mods.valueText kind, ∀ c ∈ cs, isAmountChar c = true

def Settled (mods : Modifiers) : Prop := ∀ kind, mods.SettledAt kind

theorem settledAt_only : (mods.only kind).SettledAt kind ↔ mods.SettledAt kind := by
  have hsame : ∀ {a b : Modifiers}, a.only kind = b.only kind →
      a.SettledAt kind → b.SettledAt kind := by
    intro a b he h
    have hhas : a.has kind = b.has kind := by rw [← has_only, he, has_only]
    have hvalue : a.valueText kind = b.valueText kind := by
      rw [← valueText_only, he, valueText_only]
    exact ⟨by rw [← hhas, ← hvalue, ← he]; exact h.given, hvalue ▸ h.contained, hvalue ▸ h.amount⟩
  exact ⟨hsame (only_only mods kind), hsame (only_only mods kind).symm⟩

theorem settled_empty : Settled {} := fun kind => by
  cases kind <;> exact ⟨nofun, nofun, nofun⟩

theorem isAmountChar_digit (h : isAsciiDigit c = true) : isAmountChar c = true := by
  simp [isAmountChar, h]

theorem contained_of_amount {cs : List Char} (h : ∀ c ∈ cs, isAmountChar c = true) :
    '>' ∉ cs ∧ '\n' ∉ cs :=
  ⟨fun hm => absurd (h _ hm) (by decide), fun hm => absurd (h _ hm) (by decide)⟩

theorem readUpTo_le {limit n : Nat} {cs : List Char} (h : readUpTo limit cs = some n) :
    n ≤ limit := by
  unfold readUpTo at h
  dsimp only at h
  rw [Option.ite_none_left_eq_some, Option.ite_none_right_eq_some] at h
  obtain ⟨-, hle, h⟩ := h
  cases h
  exact hle

theorem isAmountChar_of_mem_digits {n : Nat} : ∀ c ∈ digits n, isAmountChar c = true :=
  fun _ hc => isAmountChar_digit (isAsciiDigit_of_mem_digits hc)

/-- What a tag sets is written as a tag that sets it again. -/
theorem settledAt_of_put? (h : put? {} kind value = some alone)
    (hvalue : ∀ cs ∈ value, '>' ∉ cs ∧ '\n' ∉ cs) : alone.SettledAt kind := by
  have hamount : ∀ {cs}, alone.valueText kind = some cs → put? {} kind (some cs) = some alone →
      (∀ c ∈ cs, isAmountChar c = true) → alone.SettledAt kind := by
    intro cs hcs hput hchars
    refine ⟨fun _ => by rw [hcs, hput, only_of_put? h], fun cs' hm => ?_, fun _ cs' hm => ?_⟩
    all_goals
      obtain rfl : cs = cs' := Option.some.inj (hcs.symm.trans hm)
    · exact contained_of_amount hchars
    · exact hchars
  cases kind <;> simp only [put?, bind, pure, Option.bind_eq_some_iff,
    Option.ite_none_right_eq_some, Option.some.injEq] at h
  case wait =>
    obtain ⟨cs, rfl, span, hread, rfl⟩ := h
    obtain ⟨hamounts, hagain⟩ := WaitSpan.read_text hread
    refine hamount rfl (by simp [put?, hagain]) fun c hc => ?_
    simpa [isAmountChar, or_assoc] using hamounts.mem_text hc
  case maxWait =>
    obtain ⟨cs, rfl, secs, hread, rfl⟩ := h
    obtain ⟨⟨rank, rfl⟩, hagain⟩ := readSeconds_text hread
    refine hamount rfl (by simp [put?, hagain]) fun c hc => ?_
    rcases Binary64.mem_text_finite hc with hdigit | rfl
    · exact isAmountChar_digit hdigit
    · decide
  case condition =>
    obtain ⟨cs, rfl, terms, hread, rfl⟩ := h
    obtain ⟨hagain, hnames⟩ := ConditionTerm.readTerms_text hread
    have hnot : ∀ c, c ≠ ',' → c ≠ '!' → c ∉ cs → c ∉ ConditionTerm.listText terms := by
      intro c hcomma hmark hcs hm
      rcases ConditionTerm.mem_listText hm with hm | hm | ⟨term, ht, hm⟩
      · exact hcomma hm
      · exact hmark hm
      · exact hcs (hnames term ht c hm)
    refine ⟨fun _ => by simp [put?, valueText, only, hagain], fun cs' hm => ?_,
      fun hne => absurd rfl hne⟩
    obtain rfl : ConditionTerm.listText terms = cs' := Option.some.inj hm
    obtain ⟨hclose, hline⟩ := hvalue cs rfl
    exact ⟨hnot _ (by decide) (by decide) hclose, hnot _ (by decide) (by decide) hline⟩
  case index | list =>
    obtain ⟨cs, rfl, n, hread, rfl⟩ := h
    have hagain := readUpTo_digits (readUpTo_le hread)
    exact hamount rfl (by simp [put?, trim_digits, hagain]) isAmountChar_of_mem_digits
  case unconfirmed | echo | hq =>
    obtain ⟨-, rfl⟩ := h
    refine ⟨fun _ => rfl, fun _ hm => ?_, fun _ _ hm => ?_⟩ <;> cases hm

theorem Settled.set (h : mods.Settled) (halone : alone.SettledAt kind) :
    (mods.set kind alone).Settled := by
  intro other
  rw [← settledAt_only]
  by_cases he : other = kind
  · subst he
    rw [only_set]
    exact settledAt_only.mpr halone
  · rw [only_set_of_ne he]
    exact settledAt_only.mpr (h other)

def tagOf (mods : Modifiers) (kind : ModifierKind) : Tag := ⟨kind.name.toList, mods.valueText kind⟩

def written (mods : Modifiers) : List Tag := mods.kinds.map mods.tagOf

theorem kind?_tagOf (mods : Modifiers) (kind : ModifierKind) :
    (mods.tagOf kind).kind? = some kind := by
  rw [Tag.kind?, tagOf, String.ofList_toList]
  cases kind <;> decide

theorem tags_eq (mods : Modifiers) : mods.tags = mods.written.map Tag.text := by
  have hflag : ∀ kind, flag kind = (⟨kind.name.toList, none⟩ : Tag).text := fun kind => by
    simp [flag, Tag.text, Tag.body]
  have hpieces : mods.written.map Tag.text = ModifierKind.all.flatMap fun kind =>
      if mods.has kind then [(mods.tagOf kind).text] else [] := by
    rw [written, kinds, List.map_map]
    generalize ModifierKind.all = kinds
    induction kinds with
    | nil => rfl
    | cons kind kinds ih =>
      rw [List.filter_cons, List.flatMap_cons, ← ih]
      cases mods.has kind <;> rfl
  obtain ⟨wait, maxWait, condition, unconfirmed, echo, index, list, hq⟩ := mods
  rw [hpieces]
  simp only [tags, ModifierKind.all, List.flatMap_cons, List.flatMap_nil, List.append_nil,
    List.append_assoc, hflag]
  congr 1
  · cases wait <;> rfl
  congr 1
  · cases maxWait <;> rfl
  congr 1
  · cases condition <;> rfl
  congr 1
  congr 1
  congr 1
  · cases index <;> rfl
  congr 1
  cases list <;> rfl

theorem Settled.addAll_written (h : mods.Settled) : addAll {} mods.written = .ok mods := by
  have halone : ∀ kind, mods.has kind = true →
      (mods.tagOf kind).alone = .ok (mods.only kind) := fun kind hhas =>
    alone_eq_ok.mpr ⟨kind, kind?_tagOf mods kind, (h kind).given hhas⟩
  have hkinds : mods.written.map Tag.kind? = mods.kinds.map some := by
    simp [written, kind?_tagOf]
  have hnodup : (mods.written.map Tag.kind?).Nodup := by
    rw [hkinds]
    exact (List.Nodup.filter _ (by decide)).map (Option.some_injective _)
  have hholds : mods.Holds mods.written := by
    refine ⟨fun t ht kind hkind => ?_, fun kind hhas => ?_⟩
    · obtain ⟨kind', hm, rfl⟩ := List.mem_map.mp ht
      obtain rfl : kind' = kind := Option.some.inj ((kind?_tagOf mods kind').symm.trans hkind)
      exact halone kind' (List.mem_filter.mp hm).2
    · have hall : kind ∈ ModifierKind.all := by cases kind <;> decide
      exact ⟨mods.tagOf kind, List.mem_map_of_mem (List.mem_filter.mpr ⟨hall, hhas⟩),
        kind?_tagOf mods kind⟩
  have hgood : ∀ t ∈ mods.written, ∃ alone, t.alone = .ok alone := by
    intro t ht
    obtain ⟨kind, hm, rfl⟩ := List.mem_map.mp ht
    exact ⟨_, halone kind (List.mem_filter.mp hm).2⟩
  obtain ⟨mods', hall, hholds'⟩ := exists_holds hgood hnodup
  rw [hall, hholds'.unique hholds]

end Modifiers
end MacroEngine
