import MacroEngine.Proofs.LowerCase
import MacroEngine.Proofs.WholeNumbers
import Mathlib.Tactic.Ring

/-! Decimal notation, read again. What a decimal is rounded to depends on its value and not on the
zeros it is written with, so a number that is written in the fewest digits, or in all of them, is
read back as that number, and so is what is waited. -/
namespace MacroEngine

namespace Number

variable {n k num den width part : Nat} {c : Char} {cs : List Char}

theorem tenTo_pos (n : Nat) : 0 < tenTo n := Nat.pow_pos (by decide)

theorem tenTo_add (m n : Nat) : tenTo (m + n) = tenTo m * tenTo n := Nat.pow_add 10 m n

theorem roundHalfEven_scale (h : 0 < k) (num den : Nat) :
    roundHalfEven (num * k) (den * k) = roundHalfEven num den := by
  have hlt : 2 * (num % den * k) < den * k ↔ 2 * (num % den) < den := by
    rw [← Nat.mul_assoc, Nat.mul_lt_mul_right h]
  have heq : 2 * (num % den * k) = den * k ↔ 2 * (num % den) = den := by
    rw [← Nat.mul_assoc, Nat.mul_left_inj (Nat.ne_of_gt h)]
  unfold roundHalfEven
  simp only [Nat.mul_div_mul_right _ _ h, Nat.mul_mod_mul_right, hlt, heq]

theorem digitCount_pos (n : Nat) : 0 < digitCount n := Nat.length_toDigits_pos

theorem digitCount_le_iff (hk : 0 < k) : digitCount n ≤ k ↔ n < tenTo k :=
  Nat.length_toDigits_le_iff (by decide) hk

theorem digitCount_mul_tenTo (h : 0 < n) (k : Nat) :
    digitCount (n * tenTo k) = digitCount n + k := by
  have hle : ∀ m, digitCount (n * tenTo k) ≤ m ↔ digitCount n + k ≤ m := by
    intro m
    rcases Nat.lt_or_ge k m with hm | hm
    · obtain ⟨j, rfl⟩ := Nat.exists_eq_add_of_lt hm
      rw [digitCount_le_iff (by omega), Nat.add_assoc, Nat.add_comm k, tenTo_add,
        Nat.mul_lt_mul_right (tenTo_pos k), ← digitCount_le_iff (Nat.succ_pos j)]
      omega
    · have hpos := digitCount_pos n
      have hlow : tenTo m ≤ n * tenTo k :=
        calc tenTo m ≤ tenTo k := Nat.pow_le_pow_right (by decide) hm
          _ ≤ n * tenTo k := Nat.le_mul_of_pos_left _ h
      have hnot : ¬ digitCount (n * tenTo k) ≤ m := by
        rcases Nat.eq_zero_or_pos m with rfl | hmpos
        · exact Nat.not_le.mpr (digitCount_pos _)
        · rw [digitCount_le_iff hmpos]
          exact Nat.not_lt.mpr hlow
      exact ⟨fun hc => absurd hc hnot, fun hc => by omega⟩
  exact Nat.le_antisymm ((hle _).mpr (Nat.le_refl _)) ((hle _).mp (Nat.le_refl _))

theorem ofDigits_append (xs ys : List Char) :
    ofDigits (xs ++ ys) = ofDigits xs * tenTo ys.length + ofDigits ys := by
  have hfrom : ∀ n, ys.foldl (fun n c => 10 * n + digitValue c) n =
      n * tenTo ys.length + ofDigits ys := by
    induction ys with
    | nil => intro n; simp [ofDigits, tenTo]
    | cons c ys ih =>
      intro n
      have hhead : ofDigits (c :: ys) = digitValue c * tenTo ys.length + ofDigits ys :=
        (ih (10 * 0 + digitValue c)).trans (by rw [Nat.mul_zero, Nat.zero_add])
      have hone : tenTo (ys.length + 1) = tenTo ys.length * 10 := tenTo_add _ 1
      rw [List.foldl_cons, ih, hhead, List.length_cons, hone]
      ring
  rw [ofDigits, List.foldl_append, hfrom]
  rfl

theorem ofDigits_zeros (k : Nat) : ofDigits (List.replicate k '0') = 0 := by
  induction k with
  | zero => rfl
  | succ k ih => exact ih

theorem length_padded (h : digitCount n ≤ width) : (padded width n).length = width := by
  rw [padded, List.length_append, List.length_replicate]
  exact Nat.sub_add_cancel h

theorem ofDigits_padded (width n : Nat) : ofDigits (padded width n) = n := by
  rw [padded, ofDigits_append, ofDigits_zeros, ofDigits_digits, Nat.zero_mul, Nat.zero_add]

theorem isAsciiDigit_of_mem_padded (h : c ∈ padded width n) : Text.isAsciiDigit c = true := by
  rcases List.mem_append.mp h with h | h
  · rw [List.eq_of_mem_replicate h]
    decide
  · exact isAsciiDigit_of_mem_digits h

/-- Digits without the zeros at their end. -/
theorem exists_zeros_append (cs : List Char) :
    ∃ k, cs = (cs.reverse.dropWhile (· = '0')).reverse ++ List.replicate k '0' := by
  obtain ⟨zeros, hzeros, he⟩ := exists_dropEnd_append (· = '0') cs
  refine ⟨zeros.length, he.trans (congrArg _ (List.eq_replicate_of_mem fun c hc => ?_))⟩
  simpa using hzeros c hc

/-- The places of a fraction are digits, and with as many zeros as they lack they are its part. -/
theorem fraction_eq (hpos : part ≠ 0) (hpart : part < tenTo width) : ∃ places k,
    fraction width part = '.' :: places ∧ places ≠ [] ∧
      (∀ c ∈ places, Text.isAsciiDigit c = true) ∧ places.length + k = width ∧
      ofDigits places * tenTo k = part := by
  have hwidth : 0 < width := by
    rcases Nat.eq_zero_or_pos width with rfl | hw
    · exact absurd (Nat.lt_one_iff.mp hpart) hpos
    · exact hw
  obtain ⟨k, hk⟩ := exists_zeros_append (padded width part)
  have hlength := length_padded ((digitCount_le_iff hwidth).mpr hpart)
  have hvalue := ofDigits_padded width part
  rw [hk, List.length_append, List.length_replicate] at hlength
  rw [hk, ofDigits_append, ofDigits_zeros, List.length_replicate, Nat.add_zero] at hvalue
  refine ⟨((padded width part).reverse.dropWhile (· = '0')).reverse, k, if_neg hpos,
    fun hnil => ?_, fun c hc => ?_, hlength, hvalue⟩
  · rw [hnil] at hvalue
    exact hpos (hvalue.symm.trans (Nat.zero_mul _))
  · have hpadded : c ∈ padded width part := by
      rw [hk]
      exact List.mem_append_left _ hc
    exact isAsciiDigit_of_mem_padded hpadded

end Number

open Number

namespace Binary64

variable {num den num' den' k : Nat}

theorem nearestRank_scale (h : 0 < k) (num den : Nat) :
    nearestRank (num * k) (den * k) = nearestRank num den := by
  have hshift : ∀ run, (den * k) <<< run = (den <<< run) * k := fun run => by
    rw [Nat.shiftLeft_eq, Nat.shiftLeft_eq, Nat.mul_right_comm]
  unfold nearestRank
  simp only [Nat.mul_div_mul_right _ _ h, hshift, roundHalfEven_scale h]

theorem ofUnits_congr (negative : Bool) (hden : 0 < den) (hden' : 0 < den')
    (h : num * den' = num' * den) : ofUnits negative num den = ofUnits negative num' den' := by
  have hrank : nearestRank num den = nearestRank num' den' :=
    calc nearestRank num den = nearestRank (num * den') (den * den') :=
          (nearestRank_scale hden' _ _).symm
      _ = nearestRank (num' * den) (den' * den) := by rw [h, Nat.mul_comm den]
      _ = nearestRank num' den' := nearestRank_scale hden _ _
  simp only [ofUnits, hrank]

theorem nearestRank_units (rank : Nat) : nearestRank (units rank) 1 = rank := by
  rcases Nat.lt_or_ge rank runLength with hlt | hge
  · have hlog : rank.log2 - 52 = 0 := by
      rcases Nat.eq_zero_or_pos rank with rfl | hrank
      · rfl
      · have hle := (Nat.log2_lt (Nat.ne_of_gt hrank)).mpr (runLength_eq ▸ hlt)
        omega
    rw [units_small hlt]
    unfold nearestRank
    simp [hlog, roundHalfEven_one]
  · obtain ⟨run, m, hlow, hhigh, rfl⟩ := exists_mantissa hge
    rw [units_mantissa hlow hhigh, nearestRank_mantissa hlow hhigh]

theorem ofUnits_units (rank : Fin rankLimit) :
    ofUnits false (units rank) 1 = .finite false rank := by
  have hlt : nearestRank (units rank) 1 < rankLimit := by rw [nearestRank_units]; exact rank.isLt
  rw [ofUnits, dif_pos hlt]
  congr 1
  exact Fin.ext (nearestRank_units rank)

end Binary64

namespace Decimal

/-- Zeros at the end of a coefficient count like a greater exponent. -/
theorem round_shift (negative : Bool) (n k : Nat) (e : Int) :
    round negative ⟨n * tenTo k, e⟩ = round negative ⟨n, e + k⟩ := by
  rcases Nat.eq_zero_or_pos n with rfl | hpos
  · simp [round]
  · have hne : n * tenTo k ≠ 0 := Nat.ne_of_gt (Nat.mul_pos hpos (tenTo_pos k))
    have htop : e + (digitCount (n * tenTo k) : Int) = e + k + digitCount n := by
      rw [digitCount_mul_tenTo hpos]
      omega
    have hunits : Binary64.ofUnits negative
        (n * tenTo k * tenTo e.toNat * Binary64.unitsPerOne) (tenTo (-e).toNat) =
        Binary64.ofUnits negative (n * tenTo (e + k).toNat * Binary64.unitsPerOne)
          (tenTo (-(e + k)).toNat) := by
      refine Binary64.ofUnits_congr negative (tenTo_pos _) (tenTo_pos _) ?_
      have hexponent : k + e.toNat + (-(e + k)).toNat = (e + k).toNat + (-e).toNat := by omega
      have hpowers := congrArg tenTo hexponent
      rw [tenTo_add, tenTo_add, tenTo_add] at hpowers
      generalize Binary64.unitsPerOne = one
      calc n * tenTo k * tenTo e.toNat * one * tenTo (-(e + k)).toNat
          = n * one * (tenTo k * tenTo e.toNat * tenTo (-(e + k)).toNat) := by ring
        _ = n * one * (tenTo (e + k).toNat * tenTo (-e).toNat) := by rw [hpowers]
        _ = n * tenTo (e + k).toNat * one * tenTo (-e).toNat := by ring
    unfold round
    simp only [htop, hne, Nat.ne_of_gt hpos, false_or, hunits]

theorem units_eq_zero {rank : Nat} (h : Binary64.units rank = 0) : rank = 0 := by
  have hrank := Binary64.nearestRank_units rank
  rw [h] at hrank
  exact hrank.symm.trans (by decide)

theorem units_lt (rank : Fin rankLimit) :
    Binary64.units rank < 2 * Binary64.runLength * (1 <<< 2045) := by
  have hlimit : rankLimit = 2047 * Binary64.runLength := by decide
  have hrank := rank.isLt
  rcases Nat.lt_or_ge rank.val Binary64.runLength with hlt | hge
  · rw [Binary64.units_small hlt, Nat.one_shiftLeft]
    generalize 2045 = top
    have hone := Nat.le_mul_of_pos_right (2 * Binary64.runLength) (Nat.two_pow_pos top)
    omega
  · obtain ⟨run, m, hlow, hhigh, hsplit⟩ := Binary64.exists_mantissa hge
    have hrun : run ≤ 2045 := by
      have htop : (run + 1) * Binary64.runLength < 2047 * Binary64.runLength := by
        rw [Nat.add_mul]
        omega
      have hlt := Nat.lt_of_mul_lt_mul_right htop
      omega
    rw [hsplit, Binary64.units_mantissa hlow hhigh, Nat.one_shiftLeft]
    generalize 2045 = top at hrun
    exact Nat.mul_lt_mul_of_lt_of_le hhigh (Nat.pow_le_pow_right (by decide) hrun)
      (Nat.two_pow_pos _)

theorem round_exact (rank : Fin rankLimit) : round false (exact rank) = .finite false rank := by
  rcases Nat.eq_zero_or_pos (Binary64.units rank) with hzero | hpos
  · have hrank : rank.val = 0 := units_eq_zero hzero
    simp only [round, exact, hzero, Nat.zero_mul, true_or, if_true]
    exact congrArg (Binary64.finite false) (Fin.ext hrank.symm)
  · have hfive : Nat.pow 5 1074 * Binary64.unitsPerOne = tenTo 1074 := by decide +kernel
    have hlow : ¬ digitCount (Binary64.units rank * Nat.pow 5 1074) ≤ 744 := by
      rw [digitCount_le_iff (by decide), Nat.not_lt]
      exact Nat.le_trans (show tenTo 744 ≤ Nat.pow 5 1074 by decide +kernel)
        (Nat.le_mul_of_pos_left _ hpos)
    have hhigh : digitCount (Binary64.units rank * Nat.pow 5 1074) ≤ 1384 := by
      rw [digitCount_le_iff (by decide)]
      refine Nat.lt_of_le_of_lt (Nat.mul_le_mul_right _ (Nat.le_of_lt (units_lt rank))) ?_
      decide +kernel
    have hne : Binary64.units rank * Nat.pow 5 1074 ≠ 0 :=
      Nat.ne_of_gt (Nat.mul_pos hpos (show 0 < Nat.pow 5 1074 by decide +kernel))
    have hunits : Binary64.ofUnits false (Binary64.units rank * Nat.pow 5 1074 * tenTo 0 *
        Binary64.unitsPerOne) (tenTo 1074) = .finite false rank := by
      rw [← Binary64.ofUnits_units]
      refine Binary64.ofUnits_congr false (tenTo_pos _) Nat.one_pos ?_
      have hone : tenTo 0 = 1 := rfl
      rw [hone, Nat.mul_one, Nat.mul_one, Nat.mul_assoc, hfive]
    have htop : ∀ count : Nat, ¬ count ≤ 744 → count ≤ 1384 →
        ¬ ((-1074 : Int) + count < -330) ∧ ¬ 310 < (-1074 : Int) + count := by
      intro count _ _
      omega
    obtain ⟨hnotSmall, hnotLarge⟩ := htop _ hlow hhigh
    unfold round exact
    dsimp only
    rw [if_neg (not_or.mpr ⟨hne, hnotSmall⟩), if_neg hnotLarge]
    exact hunits

/-- The fewest digits of a magnitude are read as that magnitude. -/
theorem round_shortest (rank : Fin rankLimit) :
    round false (shortest rank) = .finite false rank := by
  unfold shortest
  dsimp only
  cases hfound : List.find? _ _ with
  | none => exact round_exact rank
  | some d => simpa using List.find?_some hfound

/-- Where a decimal has its point does not matter. -/
theorem round_whole (negative : Bool) (d : Decimal) :
    round negative ⟨d.coefficient * tenTo d.exponent.toNat, -((-d.exponent).toNat : Int)⟩ =
      round negative d := by
  have hexponent : -((-d.exponent).toNat : Int) + d.exponent.toNat = d.exponent := by omega
  rw [round_shift, hexponent]

end Decimal

open Text

section ReadAmount

variable {cs whole places rest : List Char}

theorem not_letter_of_isAsciiDigit {c : Char} (h : isAsciiDigit c = true) :
    c ≠ '-' ∧ c ≠ '+' ∧ asciiLower c ≠ 'i' ∧ asciiLower c ≠ 'n' := by
  have hrange := isAsciiDigit_iff.mp h
  rw [asciiLower_of_isAsciiDigit h]
  refine ⟨?_, ?_, ?_, ?_⟩ <;>
  · rintro rfl
    revert hrange
    decide

/-- Digits are a number with no sign and no name, and the point only moves its exponent. -/
theorem Binary64.ofText?_digits (hne : whole ≠ []) (hwhole : ∀ c ∈ whole, isAsciiDigit c = true)
    (hplaces : ∀ c ∈ places, isAsciiDigit c = true)
    (hcs : places = [] ∧ cs = whole ∨ places ≠ [] ∧ cs = whole ++ '.' :: places) :
    Binary64.ofText? cs = some (Decimal.round false ⟨ofDigits (whole ++ places), -places.length⟩) := by
  have hempty : whole.isEmpty = false := List.isEmpty_eq_false_iff.mpr hne
  have hmagnitude : Binary64.readMagnitude cs =
      some ⟨ofDigits (whole ++ places), -places.length⟩ := by
    rcases hcs with ⟨rfl, rfl⟩ | ⟨hsome, rfl⟩
    · simp [Binary64.readMagnitude, List.takeWhile_eq_self_iff.mpr hwhole,
        List.dropWhile_eq_nil_iff.mpr hwhole, Binary64.readFraction, Binary64.readExponent, hne]
    · have hpoint : isAsciiDigit '.' = false := by decide
      simp [Binary64.readMagnitude, List.takeWhile_append_of_pos hwhole,
        List.dropWhile_append_of_pos hwhole, hpoint, Binary64.readFraction,
        List.takeWhile_eq_self_iff.mpr hplaces, List.dropWhile_eq_nil_iff.mpr hplaces,
        Binary64.readExponent, hne]
  obtain ⟨d, ds, hds⟩ : ∃ d ds, cs = d :: ds ∧ isAsciiDigit d = true := by
    obtain ⟨d, ds, rfl⟩ := List.exists_cons_of_ne_nil hne
    have hd := hwhole d List.mem_cons_self
    rcases hcs with ⟨-, rfl⟩ | ⟨-, rfl⟩
    · exact ⟨d, ds, rfl, hd⟩
    · exact ⟨d, ds ++ '.' :: places, rfl, hd⟩
  obtain ⟨rfl, hd⟩ := hds
  obtain ⟨hminus, hplus, hi, hn⟩ := not_letter_of_isAsciiDigit hd
  have hword : ∀ word : String, word.toList.head? = some 'i' ∨ word.toList.head? = some 'n' →
      String.ofList ((d :: ds).map asciiLower) ≠ word := by
    rintro _ hhead rfl
    rw [String.toList_ofList, List.map_cons, List.head?_cons] at hhead
    exact hhead.elim (fun he => hi (Option.some.inj he)) fun he => hn (Option.some.inj he)
  unfold Binary64.ofText?
  split
  rename_i negative body hsign
  obtain ⟨rfl, rfl⟩ : negative = false ∧ body = d :: ds := by
    split at hsign
    · exact absurd (List.cons.inj ‹_›).1 hminus
    · exact absurd (List.cons.inj ‹_›).1 hplus
    · cases hsign
      exact ⟨rfl, rfl⟩
  simp only [hword "inf" (.inl rfl), hword "infinity" (.inl rfl), hword "nan" (.inr rfl),
    or_self, if_false, hmagnitude, Option.map_some]

theorem readAmount_places (h : ∀ c ∈ whole, isAsciiDigit c = true) (hne : whole ≠ [])
    (hplaces : ∀ c ∈ places, isAsciiDigit c = true) (hplacesNe : places ≠ [])
    (hrest : ∀ c, rest.head? = some c → isAsciiDigit c = false) :
    readAmount (whole ++ '.' :: (places ++ rest)) =
      some (Decimal.round false ⟨ofDigits (whole ++ places), -places.length⟩, rest) := by
  have hpoint : ∀ c, ('.' :: (places ++ rest)).head? = some c → isAsciiDigit c = false := by
    rintro _ ⟨⟩
    decide
  obtain ⟨htake, hdrop⟩ := takeWhile_digits h hpoint
  obtain ⟨htakePlaces, hdropPlaces⟩ := takeWhile_digits hplaces hrest
  have hempty : whole.isEmpty = false := by simpa using hne
  have hemptyPlaces : places.isEmpty = false := by simpa using hplacesNe
  unfold readAmount
  simp only [htake, hdrop, htakePlaces, hdropPlaces, hempty, hemptyPlaces]
  simp

theorem Decimal.mem_text {d : Decimal} {c : Char} (h : c ∈ d.text) :
    isAsciiDigit c = true ∨ c = '.' := by
  rcases List.mem_append.mp h with h | h
  · exact .inl (isAsciiDigit_of_mem_digits h)
  · by_cases hpart : d.coefficient * tenTo d.exponent.toNat % tenTo (-d.exponent).toNat = 0
    · rw [fraction, if_pos hpart] at h
      cases h
    · obtain ⟨places, k, htext, -, hplaces, -⟩ :=
        fraction_eq hpart (Nat.mod_lt _ (tenTo_pos (-d.exponent).toNat))
      rw [htext] at h
      exact (List.mem_cons.mp h).symm.imp_left (hplaces c)

theorem readAmount_decimal (d : Decimal)
    (hrest : ∀ c, rest.head? = some c → isAsciiDigit c = false ∧ c ≠ '.') :
    readAmount (d.text ++ rest) = some (d.round false, rest) := by
  rw [← Decimal.round_whole]
  unfold Decimal.text
  dsimp only
  generalize d.coefficient * tenTo d.exponent.toNat = value
  generalize (-d.exponent).toNat = width
  have hdigits := fun n c => isAsciiDigit_of_mem_digits (n := n) (c := c)
  have hsplit := Nat.div_add_mod' value (tenTo width)
  by_cases hpart : value % tenTo width = 0
  · rw [hpart, Nat.add_zero] at hsplit
    rw [fraction, if_pos hpart, List.append_nil,
      readAmount_whole (fun c => hdigits _ c) (digits_ne_nil _) hrest, ofDigits_digits]
    conv => rhs; rw [← hsplit, Decimal.round_shift, Int.add_left_neg]
  · obtain ⟨places, k, htext, hne, hplaces, hlength, hvalue⟩ :=
      fraction_eq hpart (Nat.mod_lt _ (tenTo_pos width))
    have hall : ofDigits (digits (value / tenTo width) ++ places) * tenTo k = value := by
      rw [ofDigits_append, ofDigits_digits, Nat.add_mul, hvalue, Nat.mul_assoc, ← tenTo_add,
        hlength, hsplit]
    have hexponent : -(width : Int) + k = -places.length := by omega
    rw [htext, List.append_assoc, List.cons_append,
      readAmount_places (fun c => hdigits _ c) (digits_ne_nil _) hplaces hne
        fun c hc => (hrest c hc).1]
    conv => rhs; rw [← hall, Decimal.round_shift, hexponent]

end ReadAmount

namespace Binary64

variable {rank : Fin rankLimit} {x lo hi : Binary64} {c : Char} {cs rest : List Char}

/-- A magnitude is written as a decimal that is nearest to it. -/
theorem exists_decimal (rank : Fin rankLimit) :
    ∃ d : Decimal, (finite false rank).text = d.text ∧ d.round false = finite false rank := by
  by_cases hzero : rank.val = 0
  · refine ⟨⟨0, 0⟩, ?_, ?_⟩
    · simp only [text, hzero, if_true, Bool.false_eq_true, if_false]
      decide
    · simp only [Decimal.round, true_or, if_true, zero]
      exact congrArg (finite false) (Fin.ext hzero.symm)
  · refine ⟨Decimal.shortest rank, ?_, Decimal.round_shortest rank⟩
    rw [text, if_neg hzero, if_neg Bool.false_ne_true, List.nil_append]

theorem mem_text_finite (h : c ∈ (finite false rank).text) : isAsciiDigit c = true ∨ c = '.' := by
  obtain ⟨d, htext, -⟩ := exists_decimal rank
  exact Decimal.mem_text (htext ▸ h)

theorem readAmount_text (rank : Fin rankLimit)
    (hrest : ∀ c, rest.head? = some c → isAsciiDigit c = false ∧ c ≠ '.') :
    readAmount ((finite false rank).text ++ rest) = some (finite false rank, rest) := by
  obtain ⟨d, htext, hround⟩ := exists_decimal rank
  rw [htext, readAmount_decimal d hrest, hround]

theorem readAmount_text_alone (rank : Fin rankLimit) :
    readAmount (finite false rank).text = some (finite false rank, []) := by
  have hread : readAmount ((finite false rank).text ++ []) = some (finite false rank, []) :=
    readAmount_text rank (by rintro _ ⟨⟩)
  rwa [List.append_nil] at hread

theorem ofUnits_sign (negative : Bool) (num den : Nat) :
    ofUnits negative num den = .infinite negative ∨
      ∃ rank, ofUnits negative num den = .finite negative rank := by
  unfold ofUnits
  split
  · exact .inr ⟨_, rfl⟩
  · exact .inl rfl

theorem readAmount_sign (h : readAmount cs = some (x, rest)) :
    x = .infinite false ∨ ∃ rank, x = .finite false rank := by
  have hround : ∀ d, Decimal.round false d = .infinite false ∨
      ∃ rank, Decimal.round false d = .finite false rank := by
    intro d
    unfold Decimal.round
    dsimp only
    split
    · exact .inr ⟨_, rfl⟩
    · split
      · exact .inl rfl
      · exact ofUnits_sign _ _ _
  unfold readAmount at h
  dsimp only at h
  split at h
  · cases h
  · cases h
    exact hround _

theorem finite_of_ofSeconds? (hread : readAmount cs = some (x, rest)) {d : Duration}
    (h : Duration.ofSeconds? x = some d) : ∃ rank, x = .finite false rank := by
  rcases readAmount_sign hread with rfl | hfinite
  · cases h
  · exact hfinite

theorem finite_of_le (hread : readAmount cs = some (lo, rest))
    (h : lo.le (.finite false rank) = true) : ∃ rank, lo = .finite false rank := by
  rcases readAmount_sign hread with rfl | hfinite
  · have hcompare : compare (rankLimit : Int) rank.val = .gt :=
      compare_gt_iff_gt.mpr (Int.ofNat_lt.mpr rank.isLt)
    simp [le, order?, place?, signed, hcompare] at h
  · exact hfinite

theorem trim_text (rank : Fin rankLimit) :
    trim (finite false rank).text = (finite false rank).text :=
  trim_of_no_blanks fun _ hc => (mem_text_finite hc).elim isBlank_of_isAsciiDigit
    fun hpoint => hpoint ▸ by decide

end Binary64

open Binary64

theorem readSeconds_text {cs : List Char} {secs : Binary64} (h : readSeconds cs = some secs) :
    (∃ rank, secs = .finite false rank) ∧ readSeconds secs.text = some secs := by
  unfold readSeconds at h
  split at h
  · rename_i read hread
    obtain ⟨d, hd, rfl⟩ := Option.map_eq_some_iff.mp h
    obtain ⟨rank, rfl⟩ := finite_of_ofSeconds? hread hd
    refine ⟨⟨rank, rfl⟩, ?_⟩
    unfold readSeconds
    rw [trim_text, readAmount_text_alone]
    exact h
  · cases h

namespace WaitSpan

def Amounts : WaitSpan → Prop
  | .fixed secs => ∃ rank, secs = .finite false rank
  | .range lo hi => (∃ rank, lo = .finite false rank) ∧ ∃ rank, hi = .finite false rank

theorem Amounts.mem_text {span : WaitSpan} (h : span.Amounts) {c : Char} (hc : c ∈ span.text) :
    isAsciiDigit c = true ∨ c = '.' ∨ c = '-' := by
  cases span with
  | fixed secs =>
    obtain ⟨rank, rfl⟩ := h
    exact (mem_text_finite hc).imp_right .inl
  | range lo hi =>
    obtain ⟨⟨lo, rfl⟩, hi, rfl⟩ := h
    rcases List.mem_append.mp hc with hc | hc
    · exact (mem_text_finite hc).imp_right .inl
    rcases List.mem_cons.mp hc with hc | hc
    · exact .inr (.inr hc)
    · exact (mem_text_finite hc).imp_right .inl

theorem Amounts.trim_text {span : WaitSpan} (h : span.Amounts) : trim span.text = span.text :=
  trim_of_no_blanks fun c hc => by
    rcases h.mem_text hc with hdigit | rfl | rfl
    · exact isBlank_of_isAsciiDigit hdigit
    · decide
    · decide

theorem read_text {cs : List Char} {span : WaitSpan} (h : read cs = some span) :
    span.Amounts ∧ read span.text = some span := by
  unfold read at h
  split at h
  · rename_i secs hread
    obtain ⟨d, hd, rfl⟩ := Option.map_eq_some_iff.mp h
    obtain ⟨rank, rfl⟩ := finite_of_ofSeconds? hread hd
    have hamounts : Amounts (.fixed (.finite false rank)) := ⟨rank, rfl⟩
    refine ⟨hamounts, ?_⟩
    unfold read
    rw [hamounts.trim_text, text, readAmount_text_alone]
    exact h
  · rename_i lo rest hlo
    split at h
    · rename_i hi hhi
      split at h
      · rename_i hle
        obtain ⟨d, hd, rfl⟩ := Option.map_eq_some_iff.mp h
        obtain ⟨high, rfl⟩ := finite_of_ofSeconds? hhi hd
        obtain ⟨low, rfl⟩ := finite_of_le hlo hle
        have hamounts : Amounts (.range (.finite false low) (.finite false high)) :=
          ⟨⟨low, rfl⟩, high, rfl⟩
        refine ⟨hamounts, ?_⟩
        unfold read
        rw [hamounts.trim_text, text, readAmount_text low (by rintro _ ⟨⟩; decide)]
        simp only [readAmount_text_alone, hle, if_true, hd, Option.map_some]
      · cases h
    · cases h
  · cases h

end WaitSpan
end MacroEngine
