import MacroEngine.Text.Case

/-! Lower case and ASCII. The lower case of an ASCII text is taken letter by letter. Beyond ASCII
only the Kelvin sign has an ASCII letter as its lower case, so a text whose lower case is ASCII
without a `k` is an ASCII text itself. -/
namespace MacroEngine.Text

variable {c d : Char} {cs before : List Char}

theorem toNat_ofNat_or (n : Nat) : (Char.ofNat n).toNat = n ∨ (Char.ofNat n).toNat = 0 := by
  by_cases h : n.isValidChar
  · exact .inl (by rw [Char.ofNat, dif_pos h]; rfl)
  · exact .inr (by rw [Char.ofNat, dif_neg h]; rfl)

theorem toNat_asciiLower (c : Char) :
    (asciiLower c).toNat = if 65 ≤ c.toNat ∧ c.toNat ≤ 90 then c.toNat + 32 else c.toNat := by
  have hupper : 'A' ≤ c ∧ c ≤ 'Z' ↔ 65 ≤ c.toNat ∧ c.toNat ≤ 90 := Iff.rfl
  unfold asciiLower
  by_cases h : 65 ≤ c.toNat ∧ c.toNat ≤ 90
  · have hvalid : (c.toNat + 32).isValidChar := .inl (by omega)
    rw [if_pos (hupper.mpr h), if_pos h, Char.ofNat, dif_pos hvalid]
    rfl
  · rw [if_neg (mt hupper.mp h), if_neg h]

theorem asciiLower_asciiLower (c : Char) : asciiLower (asciiLower c) = asciiLower c := by
  apply Char.toNat_inj.mp
  have h := toNat_asciiLower c
  rw [toNat_asciiLower (asciiLower c)]
  split at h <;> split <;> omega

/-- What is not a letter is the lower case of itself only. -/
theorem asciiLower_eq_iff (hd : isAsciiLetter d = false) : asciiLower c = d ↔ c = d := by
  have hletter : ¬(97 ≤ d.toNat ∧ d.toNat ≤ 122 ∨ 65 ≤ d.toNat ∧ d.toNat ≤ 90) := by
    intro hrange
    have htrue : isAsciiLetter d = true := by
      simp only [isAsciiLetter, Bool.or_eq_true, Bool.and_eq_true, decide_eq_true_eq]
      exact hrange
    exact Bool.false_ne_true (hd.symm.trans htrue)
  rw [← Char.toNat_inj, ← Char.toNat_inj, toNat_asciiLower]
  split <;> omega

theorem isAsciiDigit_iff : isAsciiDigit c = true ↔ 48 ≤ c.toNat ∧ c.toNat ≤ 57 := by
  simp only [isAsciiDigit, Bool.and_eq_true, decide_eq_true_eq]
  exact Iff.rfl

theorem isAsciiDigit_asciiLower (c : Char) : isAsciiDigit (asciiLower c) = isAsciiDigit c := by
  apply Bool.eq_iff_iff.mpr
  rw [isAsciiDigit_iff, isAsciiDigit_iff, toNat_asciiLower]
  split <;> omega

theorem asciiLower_of_isAsciiDigit (h : isAsciiDigit c = true) : asciiLower c = c := by
  apply Char.toNat_inj.mp
  have hrange := isAsciiDigit_iff.mp h
  rw [toNat_asciiLower, if_neg (by omega)]

theorem map_asciiLower_of_digits (h : ∀ c ∈ cs, isAsciiDigit c = true) :
    cs.map asciiLower = cs :=
  (List.map_congr_left fun c hc => asciiLower_of_isAsciiDigit (h c hc)).trans (List.map_id' cs)

/-- Of the characters beyond ASCII, only the Kelvin sign has an ASCII letter as its lower case. -/
theorem mapped_lowerRows (hc : 128 ≤ c.toNat)
    (h : 0 < (mapped lowerRows c).toNat ∧ (mapped lowerRows c).toNat < 128) :
    mapped lowerRows c = 'k' := by
  have hrows : ∀ row ∈ lowerRows, 128 ≤ row.2.2.2 ∨ row = (8490, 8490, 1, 107) := by
    decide +kernel
  unfold mapped at h ⊢
  split at h
  · rename_i first last stride image hfind
    have hrow := List.find?_some hfind
    rcases hrows _ (List.mem_of_find?_eq_some hfind) with hge | heq
    · dsimp only at hge h
      rcases toNat_ofNat_or (image + (c.toNat - first)) with he | he <;> omega
    · cases heq
      have hkelvin : c.toNat = 8490 := by simp at hrow; omega
      rw [hkelvin]
  · omega

/-- Is `c` an ASCII character that no character beyond ASCII has in its lower case? -/
def OwnAscii (c : Char) : Prop := 0 < c.toNat ∧ c.toNat < 128 ∧ c ≠ 'k'

instance (c : Char) : Decidable (OwnAscii c) := inferInstanceAs (Decidable (_ ∧ _))

theorem map_asciiLower_of_lowerFrom (h : ∀ c ∈ lowerFrom before cs, OwnAscii c) :
    lowerFrom before cs = cs.map asciiLower := by
  induction cs generalizing before with
  | nil => rfl
  | cons c cs ih =>
    rw [lowerFrom] at h ⊢
    obtain ⟨himage, hrest⟩ := List.forall_mem_append.mp h
    rw [ih hrest, List.map_cons]
    suffices heq : (if c = 'Σ' then [if meetsCased before && !meetsCased cs then 'ς' else 'σ']
        else lowerChar c) = [asciiLower c] by rw [heq, List.singleton_append]
    split at himage
    · split at himage <;> exact absurd (himage _ List.mem_cons_self) (by decide)
    · rename_i hsigma
      rw [if_neg hsigma]
      unfold lowerChar at himage ⊢
      split at himage
      · rename_i hascii
        rw [if_pos hascii]
      split at himage
      · exact absurd (himage '\u0307' (by simp)) (by decide)
      · rename_i hhigh _
        obtain ⟨hpos, hlt, hk⟩ := himage _ List.mem_cons_self
        exact absurd (mapped_lowerRows (Nat.le_of_not_lt hhigh) ⟨hpos, hlt⟩) hk

theorem lowerFrom_of_ascii (h : ∀ c ∈ cs, c.toNat < 128) :
    lowerFrom before cs = cs.map asciiLower := by
  induction cs generalizing before with
  | nil => rfl
  | cons c cs ih =>
    obtain ⟨hc, hrest⟩ := List.forall_mem_cons.mp h
    have hsigma : c ≠ 'Σ' := by
      rintro rfl
      exact absurd hc (by decide)
    rw [lowerFrom, if_neg hsigma, lowerChar, if_pos hc, ih hrest, List.map_cons,
      List.singleton_append]

/-- Only an ASCII text has such a lower case, and it is taken letter by letter. -/
theorem lower_eq_iff (h : ∀ c ∈ cs, OwnAscii (asciiLower c)) (ds : List Char) :
    lower ds = lower cs ↔ ds.map asciiLower = cs.map asciiLower := by
  have hown : ∀ c ∈ cs.map asciiLower, OwnAscii c := List.forall_mem_map.mpr h
  have hascii {es : List Char} (hes : es.map asciiLower = cs.map asciiLower) :
      lower es = cs.map asciiLower := by
    rw [← hes]
    refine lowerFrom_of_ascii fun e he => ?_
    have hlt := (hown _ (hes ▸ List.mem_map_of_mem he)).2.1
    rw [toNat_asciiLower] at hlt
    split at hlt <;> omega
  rw [hascii rfl]
  constructor
  · intro heq
    rw [← heq]
    exact (map_asciiLower_of_lowerFrom fun c hc => hown c (heq ▸ hc)).symm
  · exact hascii

end MacroEngine.Text
