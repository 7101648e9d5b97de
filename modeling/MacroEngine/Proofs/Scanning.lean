import MacroEngine.Proofs.LineReading

/-! The scanners of a line on text that they leave alone. Each walks through the line with a state,
whether it is inside quotes and whether a blank came before, and what a scanner makes of a text is
put together from what it makes of its parts, each read in the state that the parts before it end
in. -/
namespace MacroEngine
open Text

variable {inQuote afterBlank : Bool} {c : Char} {cs xs ys : List Char}

/-- What can be checked of every member of a list. -/
theorem forall_mem_of_all {α : Type} {p : α → Prop} [DecidablePred p] {xs : List α}
    (h : (xs.all fun x => decide (p x)) = true) : ∀ x ∈ xs, p x :=
  fun x hx => of_decide_eq_true (List.all_eq_true.mp h x hx)

/-- What a text begins with ends inside the text, if it ends there at all. -/
theorem takeWhile_append_of_mem {p : Char → Bool} (h : c ∈ xs) (hc : p c = false)
    (ys : List Char) : (xs ++ ys).takeWhile p = xs.takeWhile p := by
  induction xs with
  | nil => cases h
  | cons d xs ih =>
    rcases List.mem_cons.mp h with rfl | h
    · simp [hc]
    · simp only [List.cons_append, List.takeWhile_cons, ih h]

/-- Is a text that begins inside quotes, or not, inside them at its end? -/
def quoteAfter (inQuote : Bool) (cs : List Char) : Bool :=
  cs.foldl (fun inQuote c => if c = '"' then !inQuote else inQuote) inQuote

theorem quoteAfter_cons (inQuote : Bool) (c : Char) (cs : List Char) :
    quoteAfter inQuote (c :: cs) = quoteAfter (if c = '"' then !inQuote else inQuote) cs := rfl

theorem quoteAfter_append (inQuote : Bool) (xs ys : List Char) :
    quoteAfter inQuote (xs ++ ys) = quoteAfter (quoteAfter inQuote xs) ys := List.foldl_append

theorem quoteAfter_of_not_mem {cs : List Char} (h : '"' ∉ cs) (inQuote : Bool) :
    quoteAfter inQuote cs = inQuote := by
  induction cs generalizing inQuote with
  | nil => rfl
  | cons c cs ih =>
    have hc : c ≠ '"' := fun he => h (he ▸ List.mem_cons_self)
    have hcs : '"' ∉ cs := fun hm => h (List.mem_cons_of_mem c hm)
    simpa [quoteAfter, hc] using ih hcs inQuote

def blankAfter (afterBlank : Bool) (cs : List Char) : Bool :=
  cs.foldl (fun _ c => isBlank c) afterBlank

/-- Every `<` stands inside quotes. -/
def Untagged (inQuote : Bool) (cs : List Char) : Prop :=
  ∀ i, (h : i < cs.length) → cs[i] = '<' → quoteAfter inQuote (cs.take i) = true

/-- Every `#` stands inside quotes or after a character that is not blank. -/
def Uncommented (inQuote afterBlank : Bool) (cs : List Char) : Prop :=
  ∀ i, (h : i < cs.length) → cs[i] = '#' →
    quoteAfter inQuote (cs.take i) = true ∨ blankAfter afterBlank (cs.take i) = false

instance : Decidable (Untagged inQuote cs) :=
  Nat.decidableBallLT cs.length fun i h => cs[i] = '<' → quoteAfter inQuote (cs.take i) = true

instance : Decidable (Uncommented inQuote afterBlank cs) :=
  Nat.decidableBallLT cs.length fun i h => cs[i] = '#' →
    quoteAfter inQuote (cs.take i) = true ∨ blankAfter afterBlank (cs.take i) = false

/-- What holds of each character of a text and of what stands before it, taken from the front. -/
theorem forall_places_cons (P : Char → List Char → Prop) :
    (∀ i, (h : i < (c :: cs).length) → P (c :: cs)[i] ((c :: cs).take i)) ↔
      P c [] ∧ ∀ i, (h : i < cs.length) → P cs[i] (c :: cs.take i) := by
  constructor
  · intro h
    exact ⟨h 0 (by simp), fun i hi => h (i + 1) (by simpa using hi)⟩
  · rintro ⟨hhead, htail⟩ i hi
    cases i with
    | zero => exact hhead
    | succ i => exact htail i (by simpa using hi)

theorem untagged_cons : Untagged inQuote (c :: cs) ↔
    (c = '<' → inQuote = true) ∧ Untagged (if c = '"' then !inQuote else inQuote) cs :=
  forall_places_cons fun d before => d = '<' → quoteAfter inQuote before = true

theorem uncommented_cons : Uncommented inQuote afterBlank (c :: cs) ↔
    (c = '#' → inQuote = true ∨ afterBlank = false) ∧
      Uncommented (if c = '"' then !inQuote else inQuote) (isBlank c) cs :=
  forall_places_cons fun d before =>
    d = '#' → quoteAfter inQuote before = true ∨ blankAfter afterBlank before = false

theorem untagged_append : Untagged inQuote (xs ++ ys) ↔
    Untagged inQuote xs ∧ Untagged (quoteAfter inQuote xs) ys := by
  induction xs generalizing inQuote with
  | nil => exact ⟨fun h => ⟨fun i hi => absurd hi (Nat.not_lt_zero i), h⟩, And.right⟩
  | cons c xs ih =>
    rw [List.cons_append, untagged_cons, untagged_cons, ih, quoteAfter_cons, and_assoc]

theorem uncommented_append : Uncommented inQuote afterBlank (xs ++ ys) ↔
    Uncommented inQuote afterBlank xs ∧
      Uncommented (quoteAfter inQuote xs) (blankAfter afterBlank xs) ys := by
  induction xs generalizing inQuote afterBlank with
  | nil => exact ⟨fun h => ⟨fun i hi => absurd hi (Nat.not_lt_zero i), h⟩, And.right⟩
  | cons c xs ih =>
    rw [List.cons_append, uncommented_cons, uncommented_cons, ih, quoteAfter_cons, and_assoc]
    rfl

theorem untagged_of_not_mem (h : '<' ∉ cs) : Untagged inQuote cs :=
  fun _ _ hc => absurd (hc ▸ List.getElem_mem _) h

theorem uncommented_of_not_mem (h : '#' ∉ cs) : Uncommented inQuote afterBlank cs :=
  fun _ _ hc => absurd (hc ▸ List.getElem_mem _) h

theorem uncommented_word (h : ∀ c ∈ cs, isBlank c = false) : Uncommented inQuote false cs := by
  induction cs generalizing inQuote with
  | nil => exact fun i hi => absurd hi (Nat.not_lt_zero i)
  | cons c cs ih =>
    rw [uncommented_cons, h c List.mem_cons_self]
    exact ⟨fun _ => .inr rfl, ih fun d hd => h d (List.mem_cons_of_mem c hd)⟩

/-- What holds no comment after a blank holds none after anything. -/
theorem Uncommented.anywhere (h : Uncommented inQuote true cs) :
    Uncommented inQuote afterBlank cs := by
  cases cs with
  | nil => exact fun i hi => absurd hi (Nat.not_lt_zero i)
  | cons c cs =>
    rw [uncommented_cons] at h ⊢
    exact ⟨fun hc => (h.1 hc).imp_right fun hf => absurd hf (by decide), h.2⟩

theorem cutComment_of_uncommented (h : Uncommented inQuote afterBlank cs) :
    cutComment inQuote afterBlank cs = cs := by
  induction cs generalizing inQuote afterBlank with
  | nil => rfl
  | cons c cs ih =>
    obtain ⟨hc, hcs⟩ := uncommented_cons.mp h
    have hstart : (c = '#' && !inQuote && afterBlank) = false := by
      by_cases hhash : c = '#'
      · rcases hc hhash with rfl | rfl <;> simp
      · simp [hhash]
    rw [cutComment, hstart, ih hcs]
    rfl

/-- Text in which every `<` is quoted stays argument text. -/
theorem takeTags_untagged (h : Untagged inQuote xs) (mods : Modifiers) (ys : List Char) :
    takeTags 0 inQuote mods (xs ++ ys) =
      (takeTags 0 (quoteAfter inQuote xs) mods ys).map fun taken => (xs ++ taken.1, taken.2) := by
  induction xs generalizing inQuote with
  | nil =>
    change takeTags 0 inQuote mods ys = (takeTags 0 inQuote mods ys).map fun taken => taken
    cases takeTags 0 inQuote mods ys <;> rfl
  | cons c xs ih =>
    obtain ⟨hc, hxs⟩ := untagged_cons.mp h
    have hopen : (c = '<' && !inQuote) = false := by
      by_cases hlt : c = '<'
      · simp [hc hlt]
      · simp [hlt]
    rw [List.cons_append, takeTags, hopen, quoteAfter_cons]
    simp only [Bool.false_eq_true, if_false, ih hxs]
    cases takeTags 0 (quoteAfter (if c = '"' then !inQuote else inQuote) xs) mods ys <;> rfl

theorem takeTags_skip (body : List Char) (inQuote : Bool) (mods : Modifiers) (ys : List Char) :
    takeTags (body.length + 1) inQuote mods (body ++ '>' :: ys) =
      takeTags 0 inQuote mods ys := by
  induction body with
  | nil => rw [List.nil_append, List.length_nil, takeTags]
  | cons c body ih => rw [List.cons_append, List.length_cons, takeTags, ih]

/-- A tag leaves the text, and what it adds decides how the text behind it is read. -/
theorem takeTags_tag_eq {body name : List Char} {value : Option (List Char)} (hbody : '>' ∉ body)
    (hparts : tagParts body = some (name, value)) (mods : Modifiers) (ys : List Char) :
    takeTags 0 false mods ('<' :: (body ++ '>' :: ys)) =
      (mods.insert (String.ofList name) value).bind fun mods' => takeTags 0 false mods' ys := by
  have htake : (body ++ '>' :: ys).takeWhile (· ≠ '>') = body := by
    rw [List.takeWhile_append_of_pos]
    · simp
    · intro c hc
      simpa using fun he : c = '>' => hbody (he ▸ hc)
  have htag : tagAt (body ++ '>' :: ys) = some (body, name, value) := by
    have hcontains : (body ++ '>' :: ys).contains '>' = true := by simp
    unfold tagAt
    rw [htake, hcontains]
    simp only [if_true, hparts, Option.map_some]
  rw [takeTags]
  simp only [decide_true, Bool.not_false, Bool.and_self, if_true, htag]
  exact congrArg (Except.bind _) (funext fun mods' => takeTags_skip body false mods' ys)

theorem takeTags_tag {body name : List Char} {value : Option (List Char)} {mods mods' : Modifiers}
    (hbody : '>' ∉ body) (hparts : tagParts body = some (name, value))
    (hmods : mods.insert (String.ofList name) value = .ok mods') (ys : List Char) :
    takeTags 0 false mods ('<' :: (body ++ '>' :: ys)) = takeTags 0 false mods' ys := by
  rw [takeTags_tag_eq hbody hparts, hmods]
  rfl

/-- Text that no scanner cuts: it begins no tag and no comment, and it closes its quotes. -/
structure Inert (cs : List Char) : Prop where
  tags : Untagged false cs
  comments : Uncommented false true cs
  quotes : quoteAfter false cs = false

theorem Inert.append (hx : Inert xs) (hy : Inert ys) : Inert (xs ++ ys) where
  tags := untagged_append.mpr ⟨hx.tags, by rw [hx.quotes]; exact hy.tags⟩
  comments := uncommented_append.mpr ⟨hx.comments, by rw [hx.quotes]; exact hy.comments.anywhere⟩
  quotes := by rw [quoteAfter_append, hx.quotes, hy.quotes]

theorem inert_of_not_mem (htag : '<' ∉ cs) (hcomment : '#' ∉ cs) (hquote : '"' ∉ cs) : Inert cs :=
  ⟨untagged_of_not_mem htag, uncommented_of_not_mem hcomment, quoteAfter_of_not_mem hquote false⟩

theorem inert_blanks (h : ∀ c ∈ cs, isBlank c = true) : Inert cs :=
  inert_of_not_mem (fun hm => absurd (h _ hm) (by decide)) (fun hm => absurd (h _ hm) (by decide))
    fun hm => absurd (h _ hm) (by decide)

/-- Quotes protect what is between them. -/
theorem inert_quoted (h : '"' ∉ cs) : Inert ('"' :: cs ++ ['"']) := by
  have hquotes : quoteAfter true cs = true := quoteAfter_of_not_mem h true
  have hinside : ∀ i (_ : i < cs.length), quoteAfter true (cs.take i) = true :=
    fun i _ => quoteAfter_of_not_mem (fun hm => h (List.mem_of_mem_take hm)) true
  refine ⟨?_, ?_, ?_⟩
  · rw [List.cons_append, untagged_cons, untagged_append]
    exact ⟨by decide, fun i hi _ => hinside i hi, untagged_of_not_mem (by decide)⟩
  · rw [List.cons_append, uncommented_cons, uncommented_append]
    exact ⟨by decide, fun i hi _ => .inl (hinside i hi), uncommented_of_not_mem (by decide)⟩
  · rw [List.cons_append, quoteAfter_cons, quoteAfter_append]
    exact congrArg (quoteAfter · ['"']) hquotes

theorem takeTags_inert (h : Inert xs) (mods : Modifiers) (ys : List Char) :
    takeTags 0 false mods (xs ++ ys) =
      (takeTags 0 false mods ys).map fun taken => (xs ++ taken.1, taken.2) := by
  rw [takeTags_untagged h.tags, h.quotes]

theorem firstWord_append_blank {name rest : List Char} (hname : ∀ c ∈ name, isBlank c = false)
    (hhead : ∀ c, rest.head? = some c → isBlank c = true) :
    firstWord (name ++ rest) = (name, rest) := by
  have hpos : ∀ c ∈ name, (!isBlank c) = true := fun c hc => by simp [hname c hc]
  unfold firstWord
  rw [List.takeWhile_append_of_pos hpos, List.dropWhile_append_of_pos hpos]
  cases rest with
  | nil => simp
  | cons c rest => simp [hhead c rfl]

theorem cutAtBlank_word {word : List Char} {blank : Char} (hword : ∀ c ∈ word, isBlank c = false)
    (hblank : isBlank blank = true) (rest : List Char) :
    cutAtBlank (word ++ blank :: rest) = (word, some rest) := by
  rw [cutAtBlank, firstWord_append_blank hword (by rintro _ ⟨⟩; exact hblank)]

theorem withoutComment_command {cs : List Char} (hslash : cs.head? ≠ some '/')
    (hcomment : Uncommented false false ('/' :: cs)) :
    withoutComment ('/' :: cs) = '/' :: cs := by
  have hstart : trimStart ('/' :: cs) = '/' :: cs := rfl
  unfold withoutComment
  rw [hstart]
  split
  · rename_i he
    cases he
  · rename_i he
    rw [(List.cons.inj he).2] at hslash
    exact absurd rfl hslash
  · exact cutComment_of_uncommented hcomment

/-- What a line reads as that is a command without its comment and the blanks around it. -/
theorem readLine_of_command (n : Nat) {cs name rest : List Char}
    (hcs : trim (withoutComment cs) = '/' :: (name ++ rest))
    (hname : ∀ c ∈ name, isBlank c = false)
    (hhead : ∀ c, rest.head? = some c → isBlank c = true) :
    readLine n cs =
      ((splitTags rest).mapError (LineError.mk n)).bind fun taken =>
        ((commandOf (String.ofList name) (canonicalName (String.ofList name))
          taken.1.toList).mapError fun reason =>
            ⟨n, .invalidArgument (canonicalName (String.ofList name)) reason⟩).map fun command =>
              some ⟨n, command, taken.1, taken.2⟩ := by
  unfold readLine
  rw [hcs]
  simp only [firstWord_append_blank hname hhead]
  generalize commandOf (String.ofList name) (canonicalName (String.ofList name)) = command
  cases splitTags rest with
  | error fault => rfl
  | ok taken =>
    dsimp only [bind, Except.bind, Except.mapError]
    cases command taken.1.toList <;> rfl

/-- What a command line without a comment reads as, name and arguments apart. -/
theorem readLine_command_eq (n : Nat) {name rest : List Char}
    (hname : ∀ c ∈ name, isBlank c = false) (hslash : (name ++ rest).head? ≠ some '/')
    (hcomment : Uncommented false false ('/' :: (name ++ rest)))
    (hhead : ∀ c, rest.head? = some c → isBlank c = true)
    (hlast : ∀ c, rest.getLast? = some c → isBlank c = false) :
    readLine n ('/' :: (name ++ rest)) =
      ((splitTags rest).mapError (LineError.mk n)).bind fun taken =>
        ((commandOf (String.ofList name) (canonicalName (String.ofList name))
          taken.1.toList).mapError fun reason =>
            ⟨n, .invalidArgument (canonicalName (String.ofList name)) reason⟩).map fun command =>
              some ⟨n, command, taken.1, taken.2⟩ := by
  refine readLine_of_command n ?_ hname hhead
  rw [withoutComment_command hslash hcomment]
  refine trim_eq_self (by rintro c ⟨⟩; rfl) fun c hc => ?_
  rw [← List.cons_append, List.getLast?_append] at hc
  cases hr : rest.getLast? with
  | some d =>
    rw [hr] at hc
    exact hlast c (hr.trans hc)
  | none =>
    rw [hr] at hc
    rcases List.mem_cons.mp (List.mem_of_getLast? hc) with rfl | hm
    · rfl
    · exact hname c hm

end MacroEngine
