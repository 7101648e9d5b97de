import MacroEngine.Proofs.Scanning

/-! Tags and the modifiers they set. A tag sets the modifier of its kind to what it sets on its own
and leaves the others alone, so tags of different kinds make one set in any order. -/
namespace MacroEngine

structure Tag where
  name : List Char
  value : Option (List Char)
  deriving DecidableEq, Repr

namespace Tag

def kind? (tag : Tag) : Option ModifierKind := ModifierKind.ofName? (String.ofList tag.name)

def body (tag : Tag) : List Char :=
  tag.name ++ match tag.value with
    | none => []
    | some value => '.' :: value

def text (tag : Tag) : List Char := '<' :: (tag.body ++ ['>'])

def addTo (mods : Modifiers) (tag : Tag) : Except Fault Modifiers :=
  mods.insert (String.ofList tag.name) tag.value

def alone (tag : Tag) : Except Fault Modifiers := tag.addTo {}

end Tag

namespace Modifiers

variable {mods mods' a b : Modifiers} {kind other : ModifierKind} {value : Option (List Char)}
  {tag : Tag} {tags tags' : List Tag}

def only (mods : Modifiers) : ModifierKind → Modifiers
  | .wait => { wait := mods.wait }
  | .maxWait => { maxWait := mods.maxWait }
  | .condition => { condition := mods.condition }
  | .unconfirmed => { unconfirmed := mods.unconfirmed }
  | .echo => { echo := mods.echo }
  | .index => { index := mods.index }
  | .list => { list := mods.list }
  | .hq => { hq := mods.hq }

theorem ext_only (h : ∀ kind, a.only kind = b.only kind) : a = b := by
  obtain ⟨wait, maxWait, condition, unconfirmed, echo, index, list, hq⟩ := a
  obtain ⟨wait', maxWait', condition', unconfirmed', echo', index', list', hq'⟩ := b
  have hwait := congrArg Modifiers.wait (h .wait)
  have hmax := congrArg Modifiers.maxWait (h .maxWait)
  have hcondition := congrArg Modifiers.condition (h .condition)
  have hunconfirmed := congrArg Modifiers.unconfirmed (h .unconfirmed)
  have hecho := congrArg Modifiers.echo (h .echo)
  have hindex := congrArg Modifiers.index (h .index)
  have hlist := congrArg Modifiers.list (h .list)
  have hhq := congrArg Modifiers.hq (h .hq)
  simp only [only] at *
  subst hwait hmax hcondition hunconfirmed hecho hindex hlist hhq
  rfl

theorem has_empty (kind : ModifierKind) : has {} kind = false := by
  cases kind <;> rfl

theorem has_only (mods : Modifiers) (kind : ModifierKind) :
    (mods.only kind).has kind = mods.has kind := by
  cases kind <;> rfl

theorem only_of_not_has (h : mods.has kind = false) : mods.only kind = {} := by
  cases kind <;> simp_all [has, only]

def set (mods : Modifiers) (kind : ModifierKind) (other : Modifiers) : Modifiers :=
  match kind with
  | .wait => { mods with wait := other.wait }
  | .maxWait => { mods with maxWait := other.maxWait }
  | .condition => { mods with condition := other.condition }
  | .unconfirmed => { mods with unconfirmed := other.unconfirmed }
  | .echo => { mods with echo := other.echo }
  | .index => { mods with index := other.index }
  | .list => { mods with list := other.list }
  | .hq => { mods with hq := other.hq }

theorem only_set (mods : Modifiers) (kind : ModifierKind) (other : Modifiers) :
    (mods.set kind other).only kind = other.only kind := by
  cases kind <;> rfl

theorem only_set_of_ne (h : other ≠ kind) (mods alone : Modifiers) :
    (mods.set kind alone).only other = mods.only other := by
  cases kind <;> cases other <;> first | rfl | exact absurd rfl h

theorem put?_eq (mods : Modifiers) (kind : ModifierKind) (value : Option (List Char)) :
    mods.put? kind value = (put? {} kind value).map (mods.set kind) := by
  cases kind <;> cases value <;> simp [put?, set, Function.comp_def]

theorem insert_eq_ok : mods.insert name value = .ok mods' ↔
    ∃ kind, ModifierKind.ofName? name = some kind ∧ mods.has kind = false ∧
      mods.put? kind value = some mods' := by
  unfold Modifiers.insert
  cases ModifierKind.ofName? name with
  | none => simp
  | some kind =>
    cases hhas : mods.has kind with
    | true => simp [hhas]
    | false => cases hput : mods.put? kind value <;> simp [hhas, hput]

theorem set_empty (kind : ModifierKind) (other : Modifiers) :
    set {} kind other = other.only kind := by
  cases kind <;> rfl

theorem only_of_put? (h : put? {} kind value = some mods) : mods.only kind = mods := by
  have hset := put?_eq {} kind value
  rw [h, Option.map_some, set_empty] at hset
  exact (Option.some.inj hset).symm

theorem alone_eq_ok : tag.alone = .ok mods ↔
    ∃ kind, tag.kind? = some kind ∧ put? {} kind tag.value = some mods := by
  simp [Tag.alone, Tag.addTo, Tag.kind?, insert_eq_ok, has_empty]

theorem addTo_eq_ok (hkind : tag.kind? = some kind) (hhas : mods.has kind = false)
    (hput : put? {} kind tag.value = some mods') : tag.addTo mods = .ok (mods.set kind mods') :=
  insert_eq_ok.mpr ⟨kind, hkind, hhas, by rw [put?_eq, hput]; rfl⟩

/-- The tags set all that is there, each what it sets alone. -/
structure Holds (mods : Modifiers) (tags : List Tag) : Prop where
  given : ∀ tag ∈ tags, ∀ kind, tag.kind? = some kind → tag.alone = .ok (mods.only kind)
  only : ∀ kind, mods.has kind = true → ∃ tag ∈ tags, tag.kind? = some kind

theorem Holds.unique (ha : a.Holds tags) (hb : b.Holds tags) : a = b := by
  refine ext_only fun kind => ?_
  by_cases htag : ∃ tag ∈ tags, tag.kind? = some kind
  · obtain ⟨tag, hm, hkind⟩ := htag
    exact Except.ok.inj ((ha.given tag hm kind hkind).symm.trans (hb.given tag hm kind hkind))
  · have hnot : ∀ mods : Modifiers, mods.Holds tags → mods.has kind = false := fun mods h =>
      Bool.eq_false_iff.mpr fun hhas => htag (h.only kind hhas)
    rw [only_of_not_has (hnot a ha), only_of_not_has (hnot b hb)]

theorem Holds.perm (h : mods.Holds tags) (hperm : tags.Perm tags') : mods.Holds tags' where
  given tag hm := h.given tag (hperm.mem_iff.mpr hm)
  only kind hhas := (h.only kind hhas).imp fun _ ht => ht.imp_left hperm.mem_iff.mp

def addAll (mods : Modifiers) (tags : List Tag) : Except Fault Modifiers :=
  tags.foldlM Tag.addTo mods

/-- Tags of different kinds can be added one after another, none of them in the way of another. -/
theorem addAll_apart (halone : ∀ tag ∈ tags, ∃ alone, tag.alone = .ok alone)
    (hkinds : (tags.map Tag.kind?).Nodup)
    (hfree : ∀ tag ∈ tags, ∀ kind, tag.kind? = some kind → mods.has kind = false) :
    ∃ mods', mods.addAll tags = .ok mods' ∧
      (∀ tag ∈ tags, ∀ kind, tag.kind? = some kind → tag.alone = .ok (mods'.only kind)) ∧
      ∀ kind, (∀ tag ∈ tags, tag.kind? ≠ some kind) → mods'.only kind = mods.only kind := by
  induction tags generalizing mods with
  | nil => exact ⟨mods, rfl, by simp, fun _ _ => rfl⟩
  | cons tag tags ih =>
    obtain ⟨alone, halone'⟩ := halone tag List.mem_cons_self
    obtain ⟨kind, hkind, hput⟩ := alone_eq_ok.mp halone'
    obtain ⟨hnew, hkinds⟩ := List.nodup_cons.mp hkinds
    have hhas := hfree tag List.mem_cons_self kind hkind
    have hadd : tag.addTo mods = .ok (mods.set kind alone) :=
      addTo_eq_ok hkind hhas hput
    have hne : ∀ tag' ∈ tags, tag'.kind? ≠ some kind := fun tag' hm he =>
      hnew (hkind ▸ he ▸ List.mem_map_of_mem hm)
    have hfree' : ∀ tag' ∈ tags, ∀ other, tag'.kind? = some other →
        (mods.set kind alone).has other = false := fun tag' hm other hother => by
      have hold := hfree tag' (List.mem_cons_of_mem _ hm) other hother
      have hapart : other ≠ kind := fun he => hne tag' hm (he ▸ hother)
      rw [← has_only, only_set_of_ne hapart, has_only, hold]
    obtain ⟨mods', hall, hgiven, hother⟩ :=
      ih (fun tag' hm => halone tag' (List.mem_cons_of_mem _ hm)) hkinds hfree'
    refine ⟨mods', by rw [addAll, List.foldlM_cons, hadd]; exact hall, ?_, ?_⟩
    · intro tag' hm other hother'
      rcases List.mem_cons.mp hm with rfl | hm
      · obtain rfl := Option.some.inj (hkind.symm.trans hother')
        rw [hother kind hne, only_set, only_of_put? hput, halone']
      · exact hgiven tag' hm other hother'
    · intro other hnone
      have hapart : other ≠ kind := fun he => hnone tag List.mem_cons_self (he ▸ hkind)
      rw [hother other fun tag' hm => hnone tag' (List.mem_cons_of_mem _ hm), only_set_of_ne hapart]

/-- Tags of different kinds, each good on its own, make a set that holds just them. -/
theorem exists_holds (halone : ∀ tag ∈ tags, ∃ alone, tag.alone = .ok alone)
    (hkinds : (tags.map Tag.kind?).Nodup) :
    ∃ mods, addAll {} tags = .ok mods ∧ mods.Holds tags := by
  obtain ⟨mods, hall, hgiven, hother⟩ := addAll_apart halone hkinds
    fun _ _ kind _ => has_empty kind
  refine ⟨mods, hall, hgiven, fun kind hhas => ?_⟩
  by_contra hnone
  have hnot : ∀ tag ∈ tags, tag.kind? ≠ some kind := fun tag hm he => hnone ⟨tag, hm, he⟩
  rw [← has_only, hother kind hnot, has_only, has_empty] at hhas
  cases hhas

end Modifiers

open Text

theorem isAsciiLetter_of_asciiLower {c : Char} (h : isAsciiLetter (asciiLower c) = true) :
    isAsciiLetter c = true := by
  unfold asciiLower at h
  split at h
  · rename_i hupper
    simp [isAsciiLetter, hupper]
  · exact h

namespace ModifierKind

theorem letters_name (kind : ModifierKind) :
    kind.name.toList ≠ [] ∧ ∀ c ∈ kind.name.toList, isAsciiLetter c = true := by
  rw [← List.all_eq_true]
  cases kind <;> decide

theorem letters_of_ofName? {name : List Char} {kind : ModifierKind}
    (h : ofName? (String.ofList name) = some kind) :
    name ≠ [] ∧ ∀ c ∈ name, isAsciiLetter c = true := by
  have hname : kind.name.toList = name.map asciiLower := by
    have hfound := List.find?_some h
    rw [decide_eq_true_eq] at hfound
    rw [hfound, asciiLowered, String.toList_ofList, String.toList_ofList]
  obtain ⟨hne, hletters⟩ := kind.letters_name
  rw [hname] at hne hletters
  exact ⟨fun he => hne (by rw [he]; rfl),
    fun c hc => isAsciiLetter_of_asciiLower (hletters _ (List.mem_map_of_mem hc))⟩

end ModifierKind

namespace Tag

variable {tag : Tag} {kind : ModifierKind} {mods mods' : Modifiers}

structure Readable (tag : Tag) : Prop where
  ne_nil : tag.name ≠ []
  letters : ∀ c ∈ tag.name, isAsciiLetter c = true
  value : ∀ cs ∈ tag.value, '>' ∉ cs ∧ '\n' ∉ cs

theorem readable (hkind : tag.kind? = some kind) (hvalue : ∀ cs ∈ tag.value, '>' ∉ cs ∧ '\n' ∉ cs) :
    tag.Readable :=
  ⟨(ModifierKind.letters_of_ofName? hkind).1, (ModifierKind.letters_of_ofName? hkind).2, hvalue⟩

theorem Readable.tagParts (h : tag.Readable) : tagParts tag.body = some (tag.name, tag.value) := by
  obtain ⟨name, value⟩ := tag
  obtain ⟨hne, hletters, hvalue⟩ := h
  have hname : name.isEmpty = false := by simpa using hne
  cases value with
  | none =>
    have htake : name.takeWhile isAsciiLetter = name := List.takeWhile_eq_self_iff.mpr hletters
    have hdrop : name.dropWhile isAsciiLetter = [] := List.dropWhile_eq_nil_iff.mpr hletters
    simp [MacroEngine.tagParts, body, htake, hdrop, hname]
  | some value =>
    have hline : value.contains '\n' = false := by simpa using (hvalue value rfl).2
    have hdot : isAsciiLetter '.' = false := by decide
    have htake : (name ++ '.' :: value).takeWhile isAsciiLetter = name := by
      rw [List.takeWhile_append_of_pos hletters, List.takeWhile_cons, hdot]
      simp
    have hdrop : (name ++ '.' :: value).dropWhile isAsciiLetter = '.' :: value := by
      rw [List.dropWhile_append_of_pos hletters, List.dropWhile_cons, hdot]
      simp
    simp only [MacroEngine.tagParts, body, htake, hdrop, hname, hline]
    rfl

theorem mem_body {c : Char} (h : c ∈ tag.body) :
    c ∈ tag.name ∨ c = '.' ∨ ∃ value ∈ tag.value, c ∈ value := by
  obtain ⟨name, value⟩ := tag
  cases value with
  | none => exact .inl (by simpa [body] using h)
  | some value => simpa [body] using h

theorem Readable.not_mem_body (h : tag.Readable) : '>' ∉ tag.body := by
  intro hm
  rcases mem_body hm with hm | hm | ⟨value, hvalue, hm⟩
  · exact absurd (h.letters _ hm) (by decide)
  · exact absurd hm (by decide)
  · exact (h.value value hvalue).1 hm

theorem Readable.takeTags (h : tag.Readable) (hadd : tag.addTo mods = .ok mods') (ys : List Char) :
    takeTags 0 false mods (tag.text ++ ys) = takeTags 0 false mods' ys := by
  have htag := takeTags_tag h.not_mem_body h.tagParts hadd ys
  simpa [text] using htag

theorem not_mem_text {c : Char} (hletter : isAsciiLetter c = false)
    (hmark : c ≠ '<' ∧ c ≠ '.' ∧ c ≠ '>') (h : tag.Readable)
    (hvalue : ∀ value ∈ tag.value, c ∉ value) : c ∉ tag.text := by
  obtain ⟨hopen, hdot, hclose⟩ := hmark
  intro hm
  rcases List.mem_cons.mp hm with hm | hm
  · exact hopen hm
  rcases List.mem_append.mp hm with hm | hm
  · rcases mem_body hm with hm | hm | ⟨value, hv, hm⟩
    · rw [h.letters c hm] at hletter
      cases hletter
    · exact hdot hm
    · exact hvalue value hv hm
  · exact hclose (List.mem_singleton.mp hm)

end Tag
end MacroEngine
