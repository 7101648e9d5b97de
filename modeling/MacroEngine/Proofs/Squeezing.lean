import MacroEngine.Proofs.Scanning

/-! Trimming and squeezing argument text. Blanks at the ends do not matter, a squeezed text stays
as it is when it is squeezed again, and words and quoted texts are kept as they are written. -/
namespace MacroEngine

namespace Text

variable {blanks cs : List Char} {c : Char}

theorem trimEnd_of_blanks (h : ∀ c ∈ blanks, isBlank c = true) : trimEnd blanks = [] := by
  have hdrop : blanks.reverse.dropWhile isBlank = [] :=
    List.dropWhile_eq_nil_iff.mpr fun c hc => h c (List.mem_reverse.mp hc)
  rw [trimEnd, hdrop, List.reverse_nil]

theorem exists_trimEnd_append (cs : List Char) :
    ∃ blanks, (∀ c ∈ blanks, isBlank c = true) ∧ cs = trimEnd cs ++ blanks :=
  exists_dropEnd_append isBlank cs

theorem trimEnd_append (xs ys : List Char) :
    trimEnd (xs ++ ys) = if trimEnd ys = [] then trimEnd xs else xs ++ trimEnd ys := by
  unfold trimEnd
  rw [List.reverse_append, List.dropWhile_append]
  cases hrest : ys.reverse.dropWhile isBlank with
  | nil => simp
  | cons c rest => simp

theorem isBlank_of_getLast?_trimEnd (h : (trimEnd cs).getLast? = some c) : isBlank c = false :=
  of_getLast?_dropEnd h

theorem trimEnd_eq_self (h : ∀ c, cs.getLast? = some c → isBlank c = false) :
    trimEnd cs = cs := by
  have hdrop : cs.reverse.dropWhile isBlank = cs.reverse := by
    cases hreverse : cs.reverse with
    | nil => rfl
    | cons c rest =>
      have hlast : cs.getLast? = some c := by rw [← List.head?_reverse, hreverse]; rfl
      simp [h c hlast]
  rw [trimEnd, hdrop, List.reverse_reverse]

theorem trimStart_blanks_append (h : ∀ c ∈ blanks, isBlank c = true) (cs : List Char) :
    trimStart (blanks ++ cs) = trimStart cs :=
  List.dropWhile_append_of_pos h

theorem trimStart_trimEnd (cs : List Char) : trimStart (trimEnd cs) = trim cs := by
  unfold trim
  induction cs with
  | nil => rfl
  | cons c cs ih =>
    have hend := trimEnd_append [c] cs
    rw [List.cons_append, List.nil_append] at hend
    cases hc : isBlank c with
    | true =>
      have hstart : ∀ rest, trimStart (c :: rest) = trimStart rest := fun rest => by
        simp [trimStart, hc]
      rw [hstart, hend, ← ih]
      split
      · rename_i hnil
        rw [trimEnd_of_blanks (by simpa using hc), hnil]
      · exact hstart _
    | false =>
      have hstart : ∀ rest, trimStart (c :: rest) = c :: rest := fun rest => by
        simp [trimStart, hc]
      have hword : trimEnd [c] = [c] := trimEnd_eq_self (by rintro _ ⟨⟩; exact hc)
      rw [hstart, hend, hword]
      split
      · exact hstart _
      · exact hstart _

theorem trim_blanks_append (h : ∀ c ∈ blanks, isBlank c = true) (cs : List Char) :
    trim (blanks ++ cs) = trim cs := by
  rw [trim, trim, trimStart_blanks_append h]

theorem trim_append_blanks (h : ∀ c ∈ blanks, isBlank c = true) (cs : List Char) :
    trim (cs ++ blanks) = trim cs := by
  rw [← trimStart_trimEnd, ← trimStart_trimEnd, trimEnd_append, if_pos (trimEnd_of_blanks h)]

end Text

open Text

variable {inQuote afterBlank : Bool} {blanks cs : List Char} {c : Char}

theorem squeezeFrom_trimStart (cs : List Char) :
    squeezeFrom false false (trimStart cs) = squeezeFrom false true cs := by
  induction cs with
  | nil => rfl
  | cons c cs ih =>
    cases hc : isBlank c with
    | true =>
      have hquote : c ≠ '"' := fun he => by rw [he] at hc; cases hc
      simpa [trimStart, squeezeFrom, hc, hquote] using ih
    | false => simp [trimStart, squeezeFrom, hc]

theorem squeeze_eq (cs : List Char) : squeeze cs = squeezeFrom false true (trimEnd cs) := by
  rw [squeeze, ← trimStart_trimEnd, squeezeFrom_trimStart]

theorem squeeze_append_blanks (h : ∀ c ∈ blanks, isBlank c = true) (cs : List Char) :
    squeeze (cs ++ blanks) = squeeze cs := by
  rw [squeeze, squeeze, trim_append_blanks h]

theorem squeeze_blanks_append (h : ∀ c ∈ blanks, isBlank c = true) (cs : List Char) :
    squeeze (blanks ++ cs) = squeeze cs := by
  rw [squeeze, squeeze, trim_blanks_append h]

theorem squeezeFrom_squeezeFrom (inQuote afterBlank : Bool) (cs : List Char) :
    squeezeFrom inQuote afterBlank (squeezeFrom inQuote afterBlank cs) =
      squeezeFrom inQuote afterBlank cs := by
  induction cs generalizing inQuote afterBlank with
  | nil => rfl
  | cons c cs ih =>
    by_cases hquote : c = '"'
    · subst hquote
      simp [squeezeFrom, isBlank, ih]
    · cases hc : isBlank c && !inQuote with
      | true =>
        obtain ⟨hblank, rfl⟩ : isBlank c = true ∧ inQuote = false := by simpa using hc
        have hspace : isBlank ' ' = true := by decide
        cases afterBlank <;> simp [squeezeFrom, hquote, hblank, hspace, ih]
      | false => simp [squeezeFrom, hquote, hc, ih]

theorem quoteAfter_squeezeFrom (inQuote afterBlank : Bool) (cs : List Char) :
    quoteAfter inQuote (squeezeFrom inQuote afterBlank cs) = quoteAfter inQuote cs := by
  induction cs generalizing inQuote afterBlank with
  | nil => rfl
  | cons c cs ih =>
    rw [squeezeFrom, quoteAfter_cons]
    by_cases hquote : c = '"'
    · subst hquote
      simp [isBlank, quoteAfter_cons, ih]
    · simp only [hquote, if_false]
      split
      · split
        · exact ih _ _
        · exact ih _ _
      · rw [quoteAfter_cons, if_neg hquote, ih]

/-- A character is left out, becomes a blank or is kept. -/
theorem squeezeFrom_cons (inQuote afterBlank : Bool) (c : Char) (cs : List Char) : ∃ next,
    squeezeFrom inQuote afterBlank (c :: cs) = squeezeFrom next true cs ∨
    squeezeFrom inQuote afterBlank (c :: cs) = ' ' :: squeezeFrom next true cs ∨
    squeezeFrom inQuote afterBlank (c :: cs) = c :: squeezeFrom next false cs := by
  refine ⟨if c = '"' then !inQuote else inQuote, ?_⟩
  rw [squeezeFrom]
  generalize (if c = '"' then !inQuote else inQuote) = next
  split
  · split
    · exact .inl rfl
    · exact .inr (.inl rfl)
  · exact .inr (.inr rfl)

/-- The last character stays if it is not a blank. -/
theorem getLast?_squeezeFrom (hc : isBlank c = false) (h : cs.getLast? = some c)
    (inQuote afterBlank : Bool) : (squeezeFrom inQuote afterBlank cs).getLast? = some c := by
  induction cs generalizing inQuote afterBlank with
  | nil => cases h
  | cons d cs ih =>
    by_cases hne : cs = []
    · subst hne
      obtain rfl : d = c := by simpa using h
      simp [squeezeFrom, hc]
    · rw [List.getLast?_cons_of_ne_nil hne] at h
      obtain ⟨next, hd | hd | hd⟩ := squeezeFrom_cons inQuote afterBlank d cs
      · rw [hd, ih h]
      · rw [hd, List.getLast?_cons, ih h]
        rfl
      · rw [hd, List.getLast?_cons, ih h]
        rfl

theorem mem_squeezeFrom (h : c ∈ squeezeFrom inQuote afterBlank cs) : c ∈ cs ∨ c = ' ' := by
  induction cs generalizing inQuote afterBlank with
  | nil => cases h
  | cons d cs ih =>
    obtain ⟨next, hd | hd | hd⟩ := squeezeFrom_cons inQuote afterBlank d cs
    · rw [hd] at h
      exact (ih h).imp_left (List.mem_cons_of_mem d)
    · rw [hd] at h
      rcases List.mem_cons.mp h with rfl | h
      · exact .inr rfl
      · exact (ih h).imp_left (List.mem_cons_of_mem d)
    · rw [hd] at h
      rcases List.mem_cons.mp h with rfl | h
      · exact .inl List.mem_cons_self
      · exact (ih h).imp_left (List.mem_cons_of_mem d)

theorem isBlank_of_getLast?_squeeze (h : (squeeze cs).getLast? = some c) : isBlank c = false := by
  rw [squeeze_eq] at h
  cases hlast : (trimEnd cs).getLast? with
  | none =>
    rw [List.getLast?_eq_none_iff.mp hlast] at h
    cases h
  | some d =>
    have hd := isBlank_of_getLast?_trimEnd hlast
    rw [getLast?_squeezeFrom hd hlast] at h
    cases h
    exact hd

theorem squeeze_squeeze (cs : List Char) : squeeze (squeeze cs) = squeeze cs := by
  rw [squeeze_eq (squeeze cs), trimEnd_eq_self fun _ => isBlank_of_getLast?_squeeze, squeeze_eq,
    squeezeFrom_squeezeFrom]

theorem quoteAfter_squeeze (cs : List Char) :
    quoteAfter false (squeeze cs) = quoteAfter false cs := by
  obtain ⟨blanks, hblanks, he⟩ := exists_trimEnd_append cs
  have hquote : '"' ∉ blanks := fun hm => absurd (hblanks _ hm) (by decide)
  calc quoteAfter false (squeeze cs) = quoteAfter false (trimEnd cs) := by
        rw [squeeze_eq, quoteAfter_squeezeFrom]
    _ = quoteAfter (quoteAfter false (trimEnd cs)) blanks :=
        (quoteAfter_of_not_mem hquote _).symm
    _ = quoteAfter false (trimEnd cs ++ blanks) := (quoteAfter_append _ _ _).symm
    _ = quoteAfter false cs := by rw [← he]

theorem mem_squeeze (h : c ∈ squeeze cs) : c ∈ cs ∨ c = ' ' := by
  obtain ⟨blanks, -, he⟩ := exists_trimEnd_append cs
  rw [squeeze_eq] at h
  refine (mem_squeezeFrom h).imp_left fun h => ?_
  rw [he]
  exact List.mem_append_left _ h

theorem squeezeFrom_more_blanks (h : ∀ c ∈ blanks, isBlank c = true) (cs : List Char) :
    squeezeFrom false true (blanks ++ cs) = squeezeFrom false true cs := by
  rw [← squeezeFrom_trimStart, trimStart_blanks_append h, squeezeFrom_trimStart]

theorem squeezeFrom_blanks (h : ∀ c ∈ blanks, isBlank c = true) (hne : blanks ≠ [])
    (afterBlank : Bool) (cs : List Char) :
    squeezeFrom false afterBlank (blanks ++ cs) =
      (if afterBlank then [] else [' ']) ++ squeezeFrom false true cs := by
  cases afterBlank with
  | true => exact squeezeFrom_more_blanks h cs
  | false =>
    obtain ⟨c, blanks, rfl⟩ := List.exists_cons_of_ne_nil hne
    have hc : isBlank c = true := h c List.mem_cons_self
    have hquote : c ≠ '"' := fun he => by rw [he] at hc; cases hc
    have hmore := squeezeFrom_more_blanks (fun d hd => h d (List.mem_cons_of_mem c hd)) cs
    simp [squeezeFrom, hquote, hc, hmore]

theorem squeezeFrom_solid (h : ∀ c ∈ cs, isBlank c = false ∧ c ≠ '"') (rest : List Char) :
    squeezeFrom inQuote false (cs ++ rest) = cs ++ squeezeFrom inQuote false rest := by
  induction cs with
  | nil => rfl
  | cons c cs ih =>
    obtain ⟨hc, hquote⟩ := h c List.mem_cons_self
    simp [squeezeFrom, hc, hquote, ih fun d hd => h d (List.mem_cons_of_mem c hd)]

theorem squeezeFrom_quoted (h : '"' ∉ cs) (rest : List Char) :
    squeezeFrom true false (cs ++ '"' :: rest) = cs ++ '"' :: squeezeFrom false false rest := by
  induction cs with
  | nil => simp [squeezeFrom, isBlank]
  | cons c cs ih =>
    obtain ⟨hc, hcs⟩ : '"' ≠ c ∧ '"' ∉ cs := by simpa using h
    simp [squeezeFrom, Ne.symm hc, ih hcs]

theorem squeezeFrom_word {cs : List Char} (h : ∀ c ∈ cs, isBlank c = false) :
    ∀ inQuote afterBlank, squeezeFrom inQuote afterBlank cs = cs := by
  induction cs with
  | nil => exact fun _ _ => rfl
  | cons c cs ih =>
    intro inQuote afterBlank
    simp [squeezeFrom, h c List.mem_cons_self, ih fun c' hc => h c' (List.mem_cons_of_mem c hc)]

theorem squeeze_of_no_blanks {cs : List Char} (h : ∀ c ∈ cs, isBlank c = false) :
    squeeze cs = cs := by
  rw [squeeze, trim_of_no_blanks h, squeezeFrom_word h]

theorem squeeze_word {before cs after : List Char} (hb : ∀ c ∈ before, isBlank c = true)
    (h : ∀ c ∈ cs, isBlank c = false) (ha : ∀ c ∈ after, isBlank c = true) :
    squeeze (before ++ cs ++ after) = cs := by
  rw [squeeze_append_blanks ha, squeeze_blanks_append hb, squeeze_of_no_blanks h]

/-- Text in which every `<` is quoted is kept as it is squeezed. -/
theorem splitTags_untagged {cs : List Char} (h : Untagged false cs)
    (hquotes : quoteAfter false cs = false) :
    splitTags cs = .ok (String.ofList (squeeze cs), {}) := by
  have htake : takeTags 0 false {} cs = .ok (cs, {}) := by
    have htext := takeTags_untagged h {} []
    rw [hquotes, List.append_nil] at htext
    simpa [takeTags, Except.map] using htext
  simp only [splitTags, htake, bind, Except.bind]
  rfl

end MacroEngine
