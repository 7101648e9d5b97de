import MacroEngine.Routine.WaitSpan
import Mathlib.Algebra.Group.Nat.Defs
import Mathlib.Data.List.TakeWhile

/-! Whole numbers as text and as floating point numbers. The digits of a number are read back as
that number, and a number of less than 53 bits is a magnitude of its own: whole seconds of 32 bits
that are written in digits are the very span that is waited. -/
namespace MacroEngine
open Text

namespace Number

variable {n limit : Nat} {c : Char}

theorem ofDigits_digits (n : Nat) : ofDigits (digits n) = n :=
  Nat.ofDigitChars_toDigits (by decide) (by decide)

theorem digits_ne_nil (n : Nat) : digits n ≠ [] := Nat.toDigits_ne_nil

theorem isAsciiDigit_of_mem_digits (h : c ∈ digits n) : isAsciiDigit c = true := by
  have hd : c.isDigit = true := Nat.isDigit_of_mem_toDigits (by decide) (by decide) h
  exact hd

structure Denotes (cs : List Char) (n : Nat) : Prop where
  ne_nil : cs ≠ []
  digits : ∀ c ∈ cs, isAsciiDigit c = true
  value : ofDigits cs = n

instance (cs : List Char) (n : Nat) : Decidable (Denotes cs n) :=
  decidable_of_iff (cs ≠ [] ∧ cs.all isAsciiDigit = true ∧ ofDigits cs = n)
    ⟨fun ⟨hne, hdigits, hvalue⟩ => ⟨hne, List.all_eq_true.mp hdigits, hvalue⟩,
      fun h => ⟨h.ne_nil, List.all_eq_true.mpr h.digits, h.value⟩⟩

theorem denotes_digits (n : Nat) : Denotes (digits n) n :=
  ⟨digits_ne_nil n, fun _ => isAsciiDigit_of_mem_digits, ofDigits_digits n⟩

/-- No digit is a sign, so digits are read as their number if it is small enough. -/
theorem Denotes.readUpTo {cs : List Char} (h : Denotes cs n) (limit : Nat) :
    readUpTo limit cs = if n ≤ limit then some n else none := by
  have hplus : ∀ rest, cs ≠ '+' :: rest := by
    rintro rest rfl
    exact absurd (h.digits '+' List.mem_cons_self) (by decide)
  have hall : cs.all isAsciiDigit = true := List.all_eq_true.mpr h.digits
  unfold Number.readUpTo
  dsimp only
  split
  · exact absurd rfl (hplus _)
  · simp [h.ne_nil, hall, h.value]

theorem readUpTo_digits (h : n ≤ limit) : readUpTo limit (digits n) = some n := by
  rw [(denotes_digits n).readUpTo, if_pos h]

theorem digitCount_le_of_lt {k : Nat} (hk : 0 < k) (h : n < 10 ^ k) : digitCount n ≤ k :=
  (Nat.length_toDigits_le_iff (by decide) hk).mpr h

end Number

namespace Binary64
open Number

theorem runLength_eq : runLength = 2 ^ 52 := Nat.one_shiftLeft 52

theorem unitsPerOne_eq : unitsPerOne = 2 ^ 1074 := by
  unfold unitsPerOne
  generalize 1074 = k
  exact Nat.one_shiftLeft k

theorem unitsPerOne_pos : 0 < unitsPerOne := by
  rw [unitsPerOne_eq]
  generalize 1074 = k
  exact Nat.two_pow_pos k

variable {m run n : Nat}

/-- A magnitude of a run is a mantissa of 53 bits in units of the run. -/
theorem nearestRank_mantissa (hlow : runLength ≤ m) (hhigh : m < 2 * runLength) :
    nearestRank (m * 2 ^ run) 1 = run * runLength + m := by
  have hpos : 0 < 2 ^ run := Nat.two_pow_pos run
  rw [runLength_eq] at hlow hhigh
  have hne : m * 2 ^ run ≠ 0 := by
    have hm : 0 < m := Nat.lt_of_lt_of_le (Nat.two_pow_pos 52) hlow
    exact Nat.ne_of_gt (Nat.mul_pos hm hpos)
  have hlog : (m * 2 ^ run).log2 = 52 + run := by
    refine (Nat.log2_eq_iff hne).mpr ⟨?_, ?_⟩
    · rw [Nat.pow_add]
      exact Nat.mul_le_mul_right _ hlow
    · rw [Nat.add_right_comm, Nat.pow_add]
      exact Nat.mul_lt_mul_of_pos_right (by simpa [Nat.pow_succ, Nat.mul_comm] using hhigh) hpos
  unfold nearestRank
  dsimp only
  rw [Nat.div_one, hlog, Nat.add_sub_cancel_left, Nat.one_shiftLeft, roundHalfEven_mul hpos]

theorem units_mantissa (hlow : runLength ≤ m) (hhigh : m < 2 * runLength) :
    units (run * runLength + m) = m * 2 ^ run := by
  have hpos : 0 < runLength := by rw [runLength_eq]; exact Nat.two_pow_pos 52
  have hrun : (run * runLength + m) / runLength - 1 = run := by
    have hdiv : m / runLength = 1 := Nat.div_eq_of_lt_le (by omega) (by omega)
    rw [Nat.mul_comm, Nat.mul_add_div hpos, hdiv, Nat.add_sub_cancel]
  unfold units
  dsimp only
  rw [hrun, Nat.add_sub_cancel_left, Nat.shiftLeft_eq]

theorem units_small {rank : Nat} (h : rank < runLength) : units rank = rank := by
  unfold units
  simp [Nat.div_eq_of_lt h]

/-- Past the first run a rank is a run and a mantissa of 53 bits. -/
theorem exists_mantissa {rank : Nat} (h : runLength ≤ rank) :
    ∃ run m, runLength ≤ m ∧ m < 2 * runLength ∧ rank = run * runLength + m := by
  have hpos : 0 < runLength := by rw [runLength_eq]; exact Nat.two_pow_pos 52
  have hdiv : 1 ≤ rank / runLength := (Nat.one_le_div_iff hpos).mpr h
  have hsplit := Nat.div_add_mod rank runLength
  have hmod := Nat.mod_lt rank hpos
  obtain ⟨run, hrun⟩ := Nat.exists_eq_add_of_le hdiv
  refine ⟨run, runLength + rank % runLength, Nat.le_add_right _ _, by omega, ?_⟩
  rw [hrun, Nat.mul_add, Nat.mul_one, Nat.mul_comm runLength run] at hsplit
  omega

/-- The mantissa and the run of a whole number. -/
theorem whole_mantissa (hpos : 0 < n) (hn : n < 2 * runLength) :
    ∃ m run, runLength ≤ m ∧ m < 2 * runLength ∧ run ≤ 1074 ∧ n * unitsPerOne = m * 2 ^ run := by
  have hne : n ≠ 0 := Nat.ne_of_gt hpos
  have hlog : n.log2 ≤ 52 := by
    rw [runLength_eq] at hn
    exact Nat.lt_succ_iff.mp
      ((Nat.log2_lt hne).mpr (by simpa [Nat.pow_succ, Nat.mul_comm] using hn))
  refine ⟨n * 2 ^ (52 - n.log2), 1022 + n.log2, ?_, ?_, by omega, ?_⟩
  · calc runLength = 2 ^ n.log2 * 2 ^ (52 - n.log2) := by
          rw [runLength_eq, ← Nat.pow_add, Nat.add_sub_cancel' hlog]
      _ ≤ n * 2 ^ (52 - n.log2) := Nat.mul_le_mul_right _ (Nat.log2_self_le hne)
  · calc n * 2 ^ (52 - n.log2) < 2 ^ (n.log2 + 1) * 2 ^ (52 - n.log2) :=
          Nat.mul_lt_mul_of_pos_right Nat.lt_log2_self (Nat.two_pow_pos _)
      _ = 2 * runLength := by
          rw [runLength_eq, ← Nat.pow_add, ← Nat.pow_succ']
          congr 1
          omega
  · rw [unitsPerOne_eq, Nat.mul_assoc, ← Nat.pow_add]
    congr 2
    omega

theorem whole_exact (hn : n < 2 * runLength) : ∃ rank : Fin rankLimit,
    ofUnits false (n * unitsPerOne) 1 = .finite false rank ∧ units rank = n * unitsPerOne := by
  rcases Nat.eq_zero_or_pos n with rfl | hpos
  · exact ⟨⟨0, by decide⟩, by decide, by decide⟩
  · obtain ⟨m, run, hlow, hhigh, hrun, he⟩ := whole_mantissa hpos hn
    have hrank : nearestRank (m * 2 ^ run) 1 = _ := nearestRank_mantissa hlow hhigh
    have hlt : run * runLength + m < rankLimit := by
      have hmul := Nat.mul_le_mul_right runLength hrun
      have hlimit : 1076 * runLength ≤ rankLimit := by decide
      omega
    refine ⟨⟨run * runLength + m, hlt⟩, ?_, ?_⟩
    · rw [he]
      simp [ofUnits, hrank, hlt]
    · rw [he]
      exact units_mantissa hlow hhigh

end Binary64

open Number

theorem Decimal.round_nat {n : Nat} (h : digitCount n ≤ 310) :
    Decimal.round false ⟨n, 0⟩ = .ofNat n := by
  unfold Decimal.round Binary64.ofNat
  dsimp only
  rw [if_neg (show ¬ 310 < (0 : Int) + digitCount n by omega)]
  by_cases hzero : n = 0
  · subst hzero
    decide
  · rw [if_neg (show ¬ (n = 0 ∨ (0 : Int) + digitCount n < -330) by omega)]
    change Binary64.ofUnits false (n * 1 * _) 1 = _
    rw [Nat.mul_one]

def wholeSeconds (n : Nat) : Binary64 := Decimal.round false ⟨n, 0⟩

theorem wholeSeconds_eq {n : Nat} (h : n ≤ max32) :
    wholeSeconds n = .ofUnits false (n * Binary64.unitsPerOne) 1 := by
  have hcount : digitCount n ≤ 10 :=
    digitCount_le_of_lt (by decide) (Nat.lt_of_le_of_lt h (by decide))
  exact Decimal.round_nat (Nat.le_trans hcount (by decide))

theorem ofSeconds?_whole {n : Nat} (h : n ≤ max32) :
    Duration.ofSeconds? (wholeSeconds n) = some (.ofSeconds n) := by
  have hexact : n < 2 * Binary64.runLength := Nat.lt_of_le_of_lt h (by decide)
  obtain ⟨rank, hrank, hunits⟩ := Binary64.whole_exact hexact
  have hlt : n * Binary64.unitsPerOne < (max64 + 1) * Binary64.unitsPerOne :=
    Nat.mul_lt_mul_of_pos_right (Nat.lt_of_le_of_lt h (by decide)) Binary64.unitsPerOne_pos
  rw [wholeSeconds_eq h, hrank]
  unfold Duration.ofSeconds?
  simp only [Binary64.atLeastZero, hunits, hlt, if_true, Bool.false_eq_true, if_false]
  rw [Nat.mul_right_comm, roundHalfEven_mul Binary64.unitsPerOne_pos, Duration.ofSeconds]

theorem isBlank_of_ascii {c : Char} (hlow : ' ' < c) (hhigh : c ≤ '~') : isBlank c = false := by
  simp only [isBlank, Char.le_def, Char.lt_def, Char.ext_iff, UInt32.le_iff_toNat_le,
    UInt32.lt_iff_toNat_lt, ← UInt32.toNat_inj] at *
  simp at *
  omega

theorem exists_dropEnd_append (p : α → Bool) (xs : List α) : ∃ dropped,
    (∀ x ∈ dropped, p x = true) ∧ xs = (xs.reverse.dropWhile p).reverse ++ dropped := by
  refine ⟨(xs.reverse.takeWhile p).reverse, fun x hx => ?_, ?_⟩
  · exact List.mem_takeWhile_imp (List.mem_reverse.mp hx)
  · rw [← List.reverse_append, List.takeWhile_append_dropWhile, List.reverse_reverse]

theorem of_getLast?_dropEnd {p : α → Bool} {xs : List α} {x : α}
    (h : (xs.reverse.dropWhile p).reverse.getLast? = some x) : p x = false := by
  rw [List.getLast?_reverse] at h
  have hnot := List.head?_dropWhile_not p xs.reverse
  rw [h] at hnot
  simpa using hnot

theorem trim_eq_self {cs : List Char} (hhead : ∀ c, cs.head? = some c → isBlank c = false)
    (hlast : ∀ c, cs.getLast? = some c → isBlank c = false) : trim cs = cs := by
  have hstart : ∀ cs : List Char, (∀ c, cs.head? = some c → isBlank c = false) →
      cs.dropWhile isBlank = cs := by
    intro cs hcs
    cases cs with
    | nil => rfl
    | cons c cs => simp [hcs c rfl]
  unfold trim trimEnd trimStart
  rw [hstart cs hhead, hstart cs.reverse (by simpa using hlast), List.reverse_reverse]

theorem trim_of_no_blanks {cs : List Char} (h : ∀ c ∈ cs, isBlank c = false) : trim cs = cs :=
  trim_eq_self (fun c hc => h c (List.mem_of_head? hc)) fun c hc => h c (List.mem_of_getLast? hc)

theorem isBlank_of_isAsciiDigit {c : Char} (h : isAsciiDigit c = true) : isBlank c = false := by
  simp only [isAsciiDigit, Bool.and_eq_true, decide_eq_true_eq] at h
  exact isBlank_of_ascii (Nat.lt_of_lt_of_le (by decide) h.1) (Nat.le_trans h.2 (by decide))

theorem isBlank_of_mem_digits {n : Nat} {c : Char} (h : c ∈ digits n) : isBlank c = false :=
  isBlank_of_isAsciiDigit (isAsciiDigit_of_mem_digits h)

theorem not_mem_digits {n : Nat} {c : Char} (h : isAsciiDigit c = false) : c ∉ digits n := by
  intro hm
  rw [isAsciiDigit_of_mem_digits hm] at h
  cases h

theorem trim_digits (n : Nat) : trim (digits n) = digits n :=
  trim_of_no_blanks fun _ hc => isBlank_of_mem_digits hc

section ReadAmount

variable {whole rest : List Char}

theorem takeWhile_digits (h : ∀ c ∈ whole, isAsciiDigit c = true)
    (hrest : ∀ c, rest.head? = some c → isAsciiDigit c = false) :
    (whole ++ rest).takeWhile isAsciiDigit = whole ∧
      (whole ++ rest).dropWhile isAsciiDigit = rest := by
  rw [List.takeWhile_append_of_pos h, List.dropWhile_append_of_pos h]
  cases rest with
  | nil => simp
  | cons c rest => simp [hrest c rfl]

theorem readAmount_whole (h : ∀ c ∈ whole, isAsciiDigit c = true) (hne : whole ≠ [])
    (hrest : ∀ c, rest.head? = some c → isAsciiDigit c = false ∧ c ≠ '.') :
    readAmount (whole ++ rest) = some (Decimal.round false ⟨ofDigits whole, 0⟩, rest) := by
  obtain ⟨htake, hdrop⟩ := takeWhile_digits h fun c hc => (hrest c hc).1
  have hempty : whole.isEmpty = false := by simpa using hne
  unfold readAmount
  simp only [htake, hdrop, hempty, Bool.false_eq_true, if_false]
  split
  · exact absurd rfl (hrest '.' rfl).2
  · simp

end ReadAmount

theorem readSeconds_digits {n : Nat} (h : n ≤ max32) :
    readSeconds (digits n) = some (wholeSeconds n) := by
  have hrest : ∀ c, ([] : List Char).head? = some c → isAsciiDigit c = false ∧ c ≠ '.' := by
    rintro _ ⟨⟩
  have hread : readAmount (digits n ++ []) = some (wholeSeconds n, []) := by
    rw [readAmount_whole (fun _ => isAsciiDigit_of_mem_digits) (digits_ne_nil n) hrest,
      ofDigits_digits, wholeSeconds]
  rw [List.append_nil] at hread
  unfold readSeconds
  rw [trim_digits, hread]
  simp [ofSeconds?_whole h]

end MacroEngine
