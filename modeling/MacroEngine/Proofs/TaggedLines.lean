import MacroEngine.Proofs.TagSets

/-! One tag on a command line. What stands before the tag is read in full before it, what stands
behind it is read with the modifier already set, and comments and blanks around the command are
gone by then: the line is the line without the tag, with one modifier more, unless the tag itself
cannot be used. -/
namespace MacroEngine
open Text

namespace Modifiers

variable {mods mods' alone other : Modifiers} {kind kind' : ModifierKind} {name : String}
  {value : Option (List Char)}

theorem has_set_of_ne (h : kind' ≠ kind) (mods other : Modifiers) :
    (mods.set kind other).has kind' = mods.has kind' := by
  rw [← has_only, only_set_of_ne h, has_only]

theorem set_comm (h : kind' ≠ kind) (mods a b : Modifiers) :
    (mods.set kind a).set kind' b = (mods.set kind' b).set kind a := by
  refine ext_only fun third => ?_
  by_cases hthird : third = kind
  · subst hthird
    rw [only_set_of_ne (Ne.symm h), only_set, only_set]
  · by_cases hthird' : third = kind'
    · subst hthird'
      rw [only_set, only_set_of_ne hthird, only_set]
    · rw [only_set_of_ne hthird', only_set_of_ne hthird, only_set_of_ne hthird,
        only_set_of_ne hthird']

theorem has_of_put? (h : mods.put? kind value = some mods') : mods'.has kind = true := by
  cases kind <;> simp only [put?, bind, pure, Option.bind_eq_some_iff,
    Option.ite_none_right_eq_some, Option.some.injEq] at h
  case wait | maxWait | condition | index | list =>
    obtain ⟨-, -, -, -, rfl⟩ := h
    rfl
  case unconfirmed | echo | hq =>
    obtain ⟨-, rfl⟩ := h
    rfl

theorem has_insert (h : mods.insert name value = .ok mods') (hhas : mods.has kind = true) :
    mods'.has kind = true := by
  obtain ⟨kind', -, hfree, hput⟩ := insert_eq_ok.mp h
  rw [put?_eq] at hput
  obtain ⟨alone, -, rfl⟩ := Option.map_eq_some_iff.mp hput
  have hne : kind ≠ kind' := fun he => by rw [he, hfree] at hhas; cases hhas
  rw [has_set_of_ne hne, hhas]

/-- A tag adds the same beside a modifier of another kind. -/
theorem insert_set (h : mods.insert name value = .ok mods') (hfree : mods'.has kind = false)
    (other : Modifiers) : (mods.set kind other).insert name value = .ok (mods'.set kind other) := by
  obtain ⟨kind', hname, hhas, hput⟩ := insert_eq_ok.mp h
  have hne : kind' ≠ kind := fun he => by
    rw [← he, has_of_put? hput] at hfree
    cases hfree
  rw [put?_eq] at hput
  obtain ⟨alone, halone, rfl⟩ := Option.map_eq_some_iff.mp hput
  refine insert_eq_ok.mpr ⟨kind', hname, ?_, ?_⟩
  · rw [has_set_of_ne hne, hhas]
  · rw [put?_eq, halone, Option.map_some, set_comm hne]

end Modifiers

/-! Scanning up to a tag and on behind it. -/

/-- Is there a `>` behind every `<`? -/
def closesTags : List Char → Bool
  | [] => true
  | c :: cs => (c != '<' || cs.contains '>') && closesTags cs

/-- Text that is read in full before what follows it: it leaves no quotes and no tag open. -/
def Complete (mods : Modifiers) (cs args : List Char) (mods' : Modifiers) : Prop :=
  ∀ rest, takeTags 0 false mods (cs ++ rest) =
    (takeTags 0 false mods' rest).map fun taken => (args ++ taken.1, taken.2)

section Scanning

variable {skip : Nat} {inQuote : Bool} {cs rest args body name : List Char}
  {value : Option (List Char)} {mods mods' : Modifiers} {kind : ModifierKind}

theorem tagAt_append (h : '>' ∈ cs) (rest : List Char) : tagAt (cs ++ rest) = tagAt cs := by
  have htake := takeWhile_append_of_mem (p := (· ≠ '>')) h (by decide) rest
  have hcontains : (cs ++ rest).contains '>' = cs.contains '>' := by simp [h]
  unfold tagAt
  rw [htake, hcontains]

theorem length_tagAt (h : tagAt cs = some (body, name, value)) : body.length + 1 ≤ cs.length := by
  unfold tagAt at h
  obtain ⟨hclose, h⟩ := Option.ite_none_right_eq_some.mp h
  obtain ⟨parts, -, he⟩ := Option.map_eq_some_iff.mp h
  have hbody : cs.takeWhile (· ≠ '>') = body := (Prod.mk.inj he).1
  have hsplit := congrArg List.length (List.takeWhile_append_dropWhile (p := (· ≠ '>')) (l := cs))
  have hrest : cs.dropWhile (· ≠ '>') ≠ [] := fun hnil => by
    have hall := List.dropWhile_eq_nil_iff.mp hnil '>' (by simpa using hclose)
    simp at hall
  have hpos := List.length_pos_iff.mpr hrest
  rw [List.length_append, hbody] at hsplit
  omega

/-- What is read of a text alone is read of it before any other, if no tag stays open in it. -/
theorem takeTags_append (hclosed : closesTags cs = true) (hskip : skip ≤ cs.length)
    (h : takeTags skip inQuote mods cs = .ok (args, mods')) (rest : List Char) :
    takeTags skip inQuote mods (cs ++ rest) =
      (takeTags 0 false mods' rest).map fun taken => (args ++ taken.1, taken.2) := by
  induction cs generalizing skip inQuote mods args with
  | nil =>
    obtain rfl : skip = 0 := Nat.le_zero.mp hskip
    cases inQuote with
    | true => cases h
    | false =>
      cases h
      change takeTags 0 false mods' rest = (takeTags 0 false mods' rest).map fun taken => taken
      cases takeTags 0 false mods' rest <;> rfl
  | cons c cs ih =>
    obtain ⟨hc, hcs⟩ := Bool.and_eq_true_iff.mp hclosed
    cases skip with
    | succ skip =>
      rw [takeTags] at h
      rw [List.cons_append, takeTags]
      exact ih hcs (Nat.le_of_succ_le_succ hskip) h
    | zero =>
      have htag : (if c = '<' && !inQuote then tagAt (cs ++ rest) else none) =
          if c = '<' && !inQuote then tagAt cs else none := by
        split
        · rename_i hopen
          have hclose : '>' ∈ cs := by simp_all
          rw [tagAt_append hclose]
        · rfl
      rw [takeTags] at h
      rw [List.cons_append, takeTags, htag]
      split at h
      · rename_i body name value hfound
        obtain ⟨mid, hinsert, h⟩ := bind_eq_ok.mp h
        have hlength := length_tagAt (Option.ite_none_right_eq_some.mp hfound).2
        simp only [hinsert]
        exact ih hcs hlength h
      · obtain ⟨⟨args', mods''⟩, hrest, h⟩ := bind_eq_ok.mp h
        cases h
        simp only [ih hcs (Nat.zero_le _) hrest]
        cases takeTags 0 false mods' rest <;> rfl

theorem complete_of_takeTags (hclosed : closesTags cs = true)
    (h : takeTags 0 false mods cs = .ok (args, mods')) : Complete mods cs args mods' :=
  takeTags_append hclosed (Nat.zero_le _) h

theorem has_takeTags (h : takeTags skip inQuote mods cs = .ok (args, mods'))
    (hhas : mods.has kind = true) : mods'.has kind = true := by
  induction cs generalizing skip inQuote mods args with
  | nil =>
    rw [takeTags] at h
    split at h
    · cases h
    · cases h
      exact hhas
  | cons c cs ih =>
    cases skip with
    | succ skip =>
      rw [takeTags] at h
      exact ih h hhas
    | zero =>
      rw [takeTags] at h
      split at h
      · obtain ⟨mid, hinsert, h⟩ := bind_eq_ok.mp h
        exact ih h (Modifiers.has_insert hinsert hhas)
      · obtain ⟨⟨args', mods''⟩, hrest, h⟩ := bind_eq_ok.mp h
        cases h
        exact ih hrest hhas

theorem takeTags_set (h : takeTags skip inQuote mods cs = .ok (args, mods'))
    (hfree : mods'.has kind = false) (other : Modifiers) :
    takeTags skip inQuote (mods.set kind other) cs = .ok (args, mods'.set kind other) := by
  induction cs generalizing skip inQuote mods args with
  | nil =>
    rw [takeTags] at h ⊢
    split at h
    · cases h
    · rename_i hquote
      cases h
      rw [if_neg hquote]
  | cons c cs ih =>
    cases skip with
    | succ skip =>
      rw [takeTags] at h ⊢
      exact ih h
    | zero =>
      rw [takeTags] at h ⊢
      split at h
      · obtain ⟨mid, hinsert, h⟩ := bind_eq_ok.mp h
        have hmid : mid.has kind = false := Bool.eq_false_iff.mpr fun hhas => by
          rw [has_takeTags h hhas] at hfree
          cases hfree
        simp only [Modifiers.insert_set hinsert hmid other]
        exact ih h
      · obtain ⟨⟨args', mods''⟩, hrest, h⟩ := bind_eq_ok.mp h
        cases h
        simp only [ih hrest]
        rfl

end Scanning

/-- A command line with a tag on it. Comments and the blanks around the command are left out; what
stands before the tag begins with a blank and is read in full, what stands behind it is in order,
and there is no other tag of the kind. -/
structure TaggedLine (tag : Tag) (kind : ModifierKind) where
  text : List Char
  name : List Char
  head : List Char
  tail : List Char
  before : List Char
  after : List Char
  early : Modifiers
  mods : Modifiers
  command : trim (withoutComment text) = '/' :: (name ++ (head ++ (tag.text ++ tail)))
  word : ∀ c ∈ name, isBlank c = false
  apart : ∃ c rest, head = c :: rest ∧ isBlank c = true
  complete : Complete {} head before early
  ordered : takeTags 0 false early tail = .ok (after, mods)
  free : mods.has kind = false

namespace TaggedLine

variable {tag : Tag} {kind : ModifierKind} (line : TaggedLine tag kind)

def arguments : List Char := squeeze (line.before ++ line.after)

def step (n : Nat) (mods : Modifiers) : Except LineError (Option Step) :=
  let name := String.ofList line.name
  ((commandOf name (canonicalName name) line.arguments).mapError fun reason =>
    ⟨n, .invalidArgument (canonicalName name) reason⟩).map fun command =>
      some ⟨n, command, String.ofList line.arguments, mods⟩

/-- A tag adds its modifier where there is none of its kind, unless its value is malformed. -/
theorem insert_early (hkind : tag.kind? = some kind) :
    line.early.insert (String.ofList tag.name) tag.value =
      match Modifiers.put? {} kind tag.value with
      | some alone => .ok (line.early.set kind alone)
      | none => .error (.malformedValue kind.name (String.ofList (tag.value.getD []))) := by
  have hfree : line.early.has kind = false := Bool.eq_false_iff.mpr fun hhas => by
    have hlast := has_takeTags line.ordered hhas
    rw [line.free] at hlast
    cases hlast
  have hname : ModifierKind.ofName? (String.ofList tag.name) = some kind := hkind
  unfold Modifiers.insert
  simp only [hname, hfree, Bool.false_eq_true, if_false, Modifiers.put?_eq line.early]
  cases Modifiers.put? {} kind tag.value <;> rfl

/-- The line reads as its step with the modifier of the tag beside the others, or the tag is what is
wrong with it. -/
theorem readLine_text (n : Nat) (hkind : tag.kind? = some kind) (hreadable : tag.Readable) :
    readLine n line.text =
      match Modifiers.put? {} kind tag.value with
      | some alone => line.step n (line.mods.set kind alone)
      | none => .error
        ⟨n, .malformedValue kind.name (String.ofList (tag.value.getD []))⟩ := by
  have hapart : ∀ c, (line.head ++ (tag.text ++ line.tail)).head? = some c → isBlank c = true := by
    intro c hc
    obtain ⟨d, rest, hhead, hd⟩ := line.apart
    rw [hhead] at hc
    cases hc
    exact hd
  have htag : takeTags 0 false line.early (tag.text ++ line.tail) =
      (line.early.insert (String.ofList tag.name) tag.value).bind fun mods =>
        takeTags 0 false mods line.tail := by
    have htext : tag.text ++ line.tail = '<' :: (tag.body ++ '>' :: line.tail) := by
      simp [Tag.text]
    rw [htext, takeTags_tag_eq hreadable.not_mem_body hreadable.tagParts]
  rw [readLine_of_command n line.command line.word hapart, splitTags, line.complete, htag,
    line.insert_early hkind]
  cases Modifiers.put? {} kind tag.value with
  | none => rfl
  | some alone =>
    simp only [Except.bind, takeTags_set line.ordered line.free]
    unfold step arguments
    simp only [bind, pure, Except.pure, Except.map, Except.bind, Except.mapError,
      String.toList_ofList]

end TaggedLine
end MacroEngine
