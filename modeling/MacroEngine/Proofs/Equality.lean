import MacroEngine.Proofs.LowerCase
import MacroEngine.Script.Value
import Mathlib.Data.List.TakeWhile

/-! Equality of script values. A number is read without regard to the case of its letters, and only
from characters that no other letter has as its lower case, so no text that is not a number has the
lower case of one: a chain of equal values is of numbers throughout or of texts throughout. On texts
and on numbers equality is an equivalence, but for NaN, which equals every number. -/
namespace MacroEngine
namespace Binary64
open Text Number

variable {cs ds : List Char} {c : Char} {x y : Binary64}

/-! The reading of a number. -/

def readSign : List Char → Bool × List Char
  | '-' :: cs => (true, cs)
  | '+' :: cs => (false, cs)
  | cs => (false, cs)

theorem readSign_unsigned (hminus : c ≠ '-') (hplus : c ≠ '+') :
    readSign (c :: cs) = (false, c :: cs) := by
  unfold readSign
  split
  · exact absurd (List.cons.inj ‹_›).1 hminus
  · exact absurd (List.cons.inj ‹_›).1 hplus
  · rfl

theorem readExponent_cons (c : Char) (cs : List Char) :
    readExponent (c :: cs) =
      if (c = 'e' ∨ c = 'E') ∧ (readSign cs).2 ≠ [] ∧ (readSign cs).2.all isAsciiDigit then
        some (signed (readSign cs).1 (ofDigits (readSign cs).2))
      else none := rfl

theorem ofText?_eq (cs : List Char) :
    ofText? cs =
      if String.ofList ((readSign cs).2.map asciiLower) = "inf" ∨
          String.ofList ((readSign cs).2.map asciiLower) = "infinity" then
        some (.infinite (readSign cs).1)
      else if String.ofList ((readSign cs).2.map asciiLower) = "nan" then some .nan
      else (readMagnitude (readSign cs).2).map (Decimal.round (readSign cs).1) := rfl

theorem readSign_map (cs : List Char) :
    readSign (cs.map asciiLower) = ((readSign cs).1, (readSign cs).2.map asciiLower) := by
  cases cs with
  | nil => rfl
  | cons c cs =>
    by_cases hminus : c = '-'
    · subst hminus
      rfl
    by_cases hplus : c = '+'
    · subst hplus
      rfl
    rw [List.map_cons, readSign_unsigned (mt (asciiLower_eq_iff (by decide)).mp hminus)
      (mt (asciiLower_eq_iff (by decide)).mp hplus), readSign_unsigned hminus hplus, List.map_cons]

theorem isAsciiDigit_comp_asciiLower : isAsciiDigit ∘ asciiLower = isAsciiDigit :=
  funext isAsciiDigit_asciiLower

theorem takeWhile_isAsciiDigit_map (cs : List Char) :
    (cs.map asciiLower).takeWhile isAsciiDigit = cs.takeWhile isAsciiDigit := by
  rw [List.takeWhile_map, isAsciiDigit_comp_asciiLower]
  exact map_asciiLower_of_digits fun c hc => List.mem_takeWhile_imp hc

theorem dropWhile_isAsciiDigit_map (cs : List Char) :
    (cs.map asciiLower).dropWhile isAsciiDigit = (cs.dropWhile isAsciiDigit).map asciiLower := by
  rw [List.dropWhile_map, isAsciiDigit_comp_asciiLower]

theorem readExponent_map (cs : List Char) :
    readExponent (cs.map asciiLower) = readExponent cs := by
  cases cs with
  | nil => rfl
  | cons c cs =>
    have hmark : (asciiLower c = 'e' ∨ asciiLower c = 'E') ↔ (c = 'e' ∨ c = 'E') := by
      simp only [← Char.toNat_inj, toNat_asciiLower]
      have he : 'e'.toNat = 101 ∧ 'E'.toNat = 69 := by decide
      split <;> omega
    rw [List.map_cons, readExponent_cons, readExponent_cons, readSign_map]
    dsimp only
    rw [List.all_map, isAsciiDigit_comp_asciiLower]
    by_cases hall : (readSign cs).2.all isAsciiDigit = true
    · rw [map_asciiLower_of_digits (List.all_eq_true.mp hall)]
      simp only [hmark]
    · rw [if_neg fun h => hall h.2.2, if_neg fun h => hall h.2.2]

theorem readFraction_map (cs : List Char) :
    readFraction (cs.map asciiLower) =
      ((readFraction cs).1, (readFraction cs).2.map asciiLower) := by
  have hother {d : Char} {ds : List Char} (hd : d ≠ '.') :
      readFraction (d :: ds) = ([], d :: ds) := by
    unfold readFraction
    split
    · exact absurd (List.cons.inj ‹_›).1 hd
    · rfl
  cases cs with
  | nil => rfl
  | cons c cs =>
    by_cases hpoint : c = '.'
    · subst hpoint
      exact Prod.ext (takeWhile_isAsciiDigit_map cs) (dropWhile_isAsciiDigit_map cs)
    · rw [List.map_cons, hother (mt (asciiLower_eq_iff (by decide)).mp hpoint), hother hpoint,
        List.map_cons]

theorem readMagnitude_map (cs : List Char) :
    readMagnitude (cs.map asciiLower) = readMagnitude cs := by
  unfold readMagnitude
  simp only [takeWhile_isAsciiDigit_map, dropWhile_isAsciiDigit_map, readFraction_map,
    readExponent_map]

theorem ofText?_map (cs : List Char) : ofText? (cs.map asciiLower) = ofText? cs := by
  have htwice (ds : List Char) : (ds.map asciiLower).map asciiLower = ds.map asciiLower := by
    rw [List.map_map]
    exact List.map_congr_left fun c _ => asciiLower_asciiLower c
  rw [ofText?_eq, ofText?_eq, readSign_map, htwice, readMagnitude_map]

theorem ownAscii_of_isAsciiDigit (h : isAsciiDigit c = true) : OwnAscii (asciiLower c) := by
  have hrange := isAsciiDigit_iff.mp h
  rw [asciiLower_of_isAsciiDigit h]
  refine ⟨by omega, by omega, ?_⟩
  rintro rfl
  revert hrange
  decide

theorem mem_readSign (h : c ∈ cs) : c = '-' ∨ c = '+' ∨ c ∈ (readSign cs).2 := by
  unfold readSign
  split
  · exact (List.mem_cons.mp h).imp_right .inr
  · exact .inr (List.mem_cons.mp h)
  · exact .inr (.inr h)

theorem ownAscii_of_readExponent {exponent : Int} (h : readExponent cs = some exponent)
    (hc : c ∈ cs) : OwnAscii (asciiLower c) := by
  cases cs with
  | nil => exact absurd hc List.not_mem_nil
  | cons e cs =>
    rw [readExponent_cons] at h
    split at h
    · rename_i hread
      obtain ⟨he, -, hdigits⟩ := hread
      rcases List.mem_cons.mp hc with rfl | hc
      · rcases he with rfl | rfl <;> decide
      rcases mem_readSign hc with rfl | rfl | hc
      · decide
      · decide
      · exact ownAscii_of_isAsciiDigit (List.all_eq_true.mp hdigits c hc)
    · cases h

theorem mem_readFraction (h : c ∈ cs) :
    c = '.' ∨ isAsciiDigit c = true ∨ c ∈ (readFraction cs).2 := by
  unfold readFraction
  split
  · rename_i rest
    rcases List.mem_cons.mp h with rfl | h
    · exact .inl rfl
    rw [← List.takeWhile_append_dropWhile (p := isAsciiDigit) (l := rest)] at h
    exact .inr ((List.mem_append.mp h).imp_left fun hc => List.mem_takeWhile_imp hc)
  · exact .inr (.inr h)

theorem ownAscii_of_readMagnitude {d : Decimal} (h : readMagnitude cs = some d) (hc : c ∈ cs) :
    OwnAscii (asciiLower c) := by
  unfold readMagnitude at h
  dsimp only at h
  split at h
  · cases h
  obtain ⟨exponent, hexponent, -⟩ := Option.map_eq_some_iff.mp h
  rw [← List.takeWhile_append_dropWhile (p := isAsciiDigit) (l := cs)] at hc
  rcases List.mem_append.mp hc with hc | hc
  · exact ownAscii_of_isAsciiDigit (List.mem_takeWhile_imp hc)
  rcases mem_readFraction hc with rfl | hc | hc
  · decide
  · exact ownAscii_of_isAsciiDigit hc
  · exact ownAscii_of_readExponent hexponent hc

theorem ownAscii_of_ofText? (h : ofText? cs = some x) (hc : c ∈ cs) : OwnAscii (asciiLower c) := by
  rcases mem_readSign hc with rfl | rfl | hc
  · decide
  · decide
  have hword {word : String} (hown : word.toList.all (fun d => OwnAscii d) = true)
      (heq : String.ofList ((readSign cs).2.map asciiLower) = word) : OwnAscii (asciiLower c) := by
    rw [← heq, String.toList_ofList] at hown
    exact of_decide_eq_true (List.all_eq_true.mp hown _ (List.mem_map_of_mem hc))
  rw [ofText?_eq] at h
  split at h
  · rename_i hinfinite
    rcases hinfinite with heq | heq
    · exact hword (by decide) heq
    · exact hword (by decide) heq
  split at h
  · rename_i hnan
    exact hword (by decide) hnan
  · obtain ⟨d, hd, -⟩ := Option.map_eq_some_iff.mp h
    exact ownAscii_of_readMagnitude hd hc

theorem ofText?_of_lower_eq (hlower : lower ds = lower cs) (h : ofText? cs = some x) :
    ofText? ds = some x := by
  have hmap := (lower_eq_iff (fun c hc => ownAscii_of_ofText? h hc) ds).mp hlower
  rw [← ofText?_map, hmap, ofText?_map, h]

/-! The order of numbers. -/

theorem place?_eq_none : x.place? = none ↔ x = .nan := by
  cases x <;> simp [place?]

theorem signed_eq_iff {a b : Bool} {m n : Nat} :
    signed a m = signed b n ↔ m = n ∧ (a = b ∨ m = 0) := by
  cases a <;> cases b <;> simp [signed] <;> omega

/-- Two numbers have one place when they are the same, or zero with either sign. -/
theorem place?_eq_iff (hx : x ≠ .nan) :
    x.place? = y.place? ↔ x = y ∨ x.isZero = true ∧ y.isZero = true := by
  have hlimit : rankLimit ≠ 0 := by decide
  cases x with
  | nan => exact absurd rfl hx
  | infinite a =>
    cases y with
    | nan => simp [place?, isZero]
    | infinite b => simp [place?, isZero, signed_eq_iff, hlimit]
    | finite b s => simp [place?, isZero, signed_eq_iff, Nat.ne_of_gt s.isLt]
  | finite a r =>
    cases y with
    | nan => simp [place?, isZero]
    | infinite b => simp [place?, isZero, signed_eq_iff, Nat.ne_of_lt r.isLt]
    | finite b s =>
      simp only [place?, Option.some.injEq, signed_eq_iff, isZero, decide_eq_true_eq,
        finite.injEq, Fin.ext_iff]
      constructor
      · rintro ⟨hrank, hsign | hzero⟩
        · exact .inl ⟨hsign, hrank⟩
        · exact .inr ⟨hzero, hrank ▸ hzero⟩
      · rintro (⟨hsign, hrank⟩ | ⟨hr, hs⟩)
        · exact ⟨hrank, .inl hsign⟩
        · exact ⟨hr.trans hs.symm, .inr hr⟩

theorem order?_swap (x y : Binary64) : y.order? x = (x.order? y).map Ordering.swap := by
  unfold order?
  cases x.place? <;> cases y.place? <;> try rfl
  exact congrArg some Std.OrientedCmp.eq_swap

/-- Taken as equal are the same numbers, zero with either sign, and NaN with any number. -/
theorem order?_getD_eq_iff :
    (x.order? y).getD .eq = .eq ↔
      x = .nan ∨ y = .nan ∨ x = y ∨ x.isZero = true ∧ y.isZero = true := by
  by_cases hx : x = .nan
  · subst hx
    simp [order?, place?]
  by_cases hy : y = .nan
  · subst hy
    have hplace : x.order? .nan = none := by
      unfold order?
      cases x.place? <;> rfl
    simp [hplace]
  rw [← place?_eq_iff hx, or_iff_right hx, or_iff_right hy]
  obtain ⟨m, hm⟩ := Option.ne_none_iff_exists'.mp (mt place?_eq_none.mp hx)
  obtain ⟨n, hn⟩ := Option.ne_none_iff_exists'.mp (mt place?_eq_none.mp hy)
  have horder : x.order? y = some (compare m n) := by
    unfold order?
    rw [hm, hn]
    rfl
  rw [horder, hm, hn, Option.getD_some, Std.compare_eq_iff_eq, Option.some.injEq]

/-- On numbers this is an equivalence but for NaN in the middle of a chain. -/
theorem order?_getD_trans {z : Binary64} (hy : y ≠ .nan) (hxy : (x.order? y).getD .eq = .eq)
    (hyz : (y.order? z).getD .eq = .eq) : (x.order? z).getD .eq = .eq := by
  rw [order?_getD_eq_iff] at *
  rcases hxy with hx | hnan | rfl | ⟨hx, hzero⟩
  · exact .inl hx
  · exact absurd hnan hy
  · exact hyz
  rcases hyz with hnan | hz | rfl | ⟨-, hz⟩
  · exact absurd hnan hy
  · exact .inr (.inl hz)
  · exact .inr (.inr (.inr ⟨hx, hzero⟩))
  · exact .inr (.inr (.inr ⟨hx, hz⟩))

end Binary64

namespace Script
open Text

variable {vars : Variables} {x y z : Expr} {a b c : String} {m n : Binary64}

theorem order_numbers (ha : numberOf a = some m) (hb : numberOf b = some n) :
    order a b = (m.order? n).getD .eq := by
  have hnumbers : numbers? a b = some (m, n) := by
    unfold numbers?
    rw [ha, hb]
    rfl
  unfold order
  rw [hnumbers]

theorem order_texts (h : numberOf a = none ∨ numberOf b = none) :
    order a b = compare (lowered (trimmed a)) (lowered (trimmed b)) := by
  have hnumbers : numbers? a b = none := by
    unfold numbers?
    rcases h with ha | hb
    · rw [ha]
      rfl
    · rw [hb]
      cases numberOf a <;> rfl
  unfold order
  rw [hnumbers]
  simp only [lowered, trimmed, String.toList_ofList]

theorem numberOf_eq_of_lowered (h : lowered (trimmed a) = lowered (trimmed b)) :
    numberOf a = numberOf b := by
  have hlower : lower (trim a.toList) = lower (trim b.toList) := by
    simpa only [lowered, trimmed, String.toList_ofList, String.ofList_inj] using h
  unfold numberOf
  cases ha : Binary64.ofText? (trim a.toList) with
  | some m => exact (Binary64.ofText?_of_lower_eq hlower.symm ha).symm
  | none =>
    cases hb : Binary64.ofText? (trim b.toList) with
    | some n => exact ha.symm.trans (Binary64.ofText?_of_lower_eq hlower hb)
    | none => rfl

theorem order_texts_eq_iff (h : numberOf a = none ∨ numberOf b = none) :
    order a b = .eq ↔ lowered (trimmed a) = lowered (trimmed b) := by
  rw [order_texts h, Std.compare_eq_iff_eq]

theorem numberOf_isSome_of_order (ha : numberOf a = some m) (h : order a b = .eq) :
    ∃ n, numberOf b = some n := by
  apply Option.ne_none_iff_exists'.mp
  intro hb
  have hsame := numberOf_eq_of_lowered ((order_texts_eq_iff (.inr hb)).mp h)
  cases (ha.symm.trans hsame).trans hb

theorem order_swap (a b : String) : order b a = (order a b).swap := by
  by_cases h : numberOf a = none ∨ numberOf b = none
  · rw [order_texts h, order_texts h.symm]
    exact Std.OrientedCmp.eq_swap
  · obtain ⟨ha, hb⟩ := not_or.mp h
    obtain ⟨m, ha⟩ := Option.ne_none_iff_exists'.mp ha
    obtain ⟨n, hb⟩ := Option.ne_none_iff_exists'.mp hb
    rw [order_numbers ha hb, order_numbers hb ha, Binary64.order?_swap]
    cases m.order? n <;> rfl

theorem order_eq_comm (a b : String) : order a b = .eq ↔ order b a = .eq := by
  rw [order_swap a b]
  cases order a b <;> decide

theorem order_self (a : String) : order a a = .eq := by
  cases ha : numberOf a with
  | none => exact (order_texts_eq_iff (.inl ha)).mpr rfl
  | some m => exact (order_numbers ha ha).trans (Binary64.order?_getD_eq_iff.mpr (by simp))

theorem order_eq_trans (hb : numberOf b ≠ some .nan) (hab : order a b = .eq)
    (hbc : order b c = .eq) : order a c = .eq := by
  cases hnumber : numberOf b with
  | some n =>
    obtain ⟨m, ha⟩ := numberOf_isSome_of_order hnumber ((order_eq_comm a b).mp hab)
    obtain ⟨k, hc⟩ := numberOf_isSome_of_order hnumber hbc
    rw [order_numbers ha hnumber] at hab
    rw [order_numbers hnumber hc] at hbc
    rw [order_numbers ha hc]
    refine Binary64.order?_getD_trans ?_ hab hbc
    rintro rfl
    exact hb hnumber
  | none =>
    have hlower := (order_texts_eq_iff (.inr hnumber)).mp hab
    have ha : numberOf a = none := (numberOf_eq_of_lowered hlower).trans hnumber
    rw [order_texts_eq_iff (.inl hnumber)] at hbc
    exact (order_texts_eq_iff (.inl ha)).mpr (hlower.trans hbc)

def Holds (vars : Variables) (e : Expr) : Prop := eval vars e = .ok "true"

instance (vars : Variables) (e : Expr) : Decidable (Holds vars e) :=
  inferInstanceAs (Decidable (_ = _))

theorem eval_eq (hx : eval vars x = .ok a) (hy : eval vars y = .ok b) :
    eval vars (.binary x .eq y) = .ok (ofBool (order a b == .eq)) := by
  rw [eval, hx]
  change (eval vars y >>= fun r => apply .eq a r) = _
  rw [hy]
  rfl

theorem eval_ne (hx : eval vars x = .ok a) (hy : eval vars y = .ok b) :
    eval vars (.binary x .ne y) = .ok (ofBool (order a b != .eq)) := by
  rw [eval, hx]
  change (eval vars y >>= fun r => apply .ne a r) = _
  rw [hy]
  rfl

theorem holds_eq_iff (hx : eval vars x = .ok a) (hy : eval vars y = .ok b) :
    Holds vars (.binary x .eq y) ↔ order a b = .eq := by
  unfold Holds
  rw [eval_eq hx hy]
  cases order a b <;> decide

/-- `==` is reflexive and symmetric, and transitive as long as the value in the middle is not NaN;
`!=` is its negation. Numbers are equal to themselves, zero with either sign, and to NaN; when one
side is no number, the trimmed texts are compared in lower case. -/
theorem equality_of_values (hx : eval vars x = .ok a) (hy : eval vars y = .ok b)
    (hz : eval vars z = .ok c) :
    Holds vars (.binary x .eq x) ∧
    eval vars (.binary x .eq y) = eval vars (.binary y .eq x) ∧
    (numberOf b ≠ some .nan → Holds vars (.binary x .eq y) → Holds vars (.binary y .eq z) →
      Holds vars (.binary x .eq z)) ∧
    (∃ verdict, eval vars (.binary x .eq y) = .ok (ofBool verdict) ∧
      eval vars (.binary x .ne y) = .ok (ofBool !verdict)) ∧
    (∀ m n, numberOf a = some m → numberOf b = some n →
      (Holds vars (.binary x .eq y) ↔
        m = .nan ∨ n = .nan ∨ m = n ∨ m.isZero = true ∧ n.isZero = true)) ∧
    (numberOf a = none ∨ numberOf b = none →
      (Holds vars (.binary x .eq y) ↔ lowered (trimmed a) = lowered (trimmed b))) := by
  rw [holds_eq_iff hx hx, holds_eq_iff hx hy, holds_eq_iff hy hz, holds_eq_iff hx hz]
  refine ⟨order_self a, ?_, order_eq_trans, ⟨order a b == .eq, eval_eq hx hy, eval_ne hx hy⟩, ?_,
    order_texts_eq_iff⟩
  · rw [eval_eq hx hy, eval_eq hy hx]
    have hcomm := order_eq_comm a b
    by_cases hab : order a b = .eq
    · rw [hab, hcomm.mp hab]
    · rw [beq_false_of_ne hab, beq_false_of_ne (mt hcomm.mpr hab)]
  · intro m n ha hb
    rw [order_numbers ha hb]
    exact Binary64.order?_getD_eq_iff

def spellings : Variables := ⟨[("a", " 1.0"), ("b", "1e0"), ("c", "+1 ")]⟩

theorem equality_of_values_spellings :
    eval spellings (.var "a") = .ok " 1.0" ∧
    eval spellings (.var "b") = .ok "1e0" ∧
    eval spellings (.var "c") = .ok "+1 " ∧
    numberOf "1e0" ≠ some .nan ∧
    Holds spellings (.binary (.var "a") .eq (.var "b")) ∧
    Holds spellings (.binary (.var "b") .eq (.var "c")) ∧
    Holds spellings (.binary (.var "a") .eq (.var "c")) ∧
    eval spellings (.binary (.var "a") .ne (.var "b")) = .ok "false" := by
  have ha : eval spellings (.var "a") = .ok " 1.0" := rfl
  have hb : eval spellings (.var "b") = .ok "1e0" := rfl
  have hc : eval spellings (.var "c") = .ok "+1 " := rfl
  have hnan : numberOf "1e0" ≠ some .nan := by decide +kernel
  have hab : Holds spellings (.binary (.var "a") .eq (.var "b")) := by decide +kernel
  have hbc : Holds spellings (.binary (.var "b") .eq (.var "c")) := by decide +kernel
  obtain ⟨_, _, htrans, ⟨verdict, heq, hne⟩, _⟩ := equality_of_values ha hb hc
  refine ⟨ha, hb, hc, hnan, hab, hbc, htrans hnan hab hbc, ?_⟩
  cases verdict with
  | true => exact hne
  | false => exact absurd (hab.symm.trans heq) (by decide)

def bridged : Variables := ⟨[("a", "1"), ("b", "nan"), ("c", "2")]⟩

theorem nan_joins_numbers :
    Holds bridged (.binary (.var "a") .eq (.var "b")) ∧
    Holds bridged (.binary (.var "b") .eq (.var "c")) ∧
    ¬Holds bridged (.binary (.var "a") .eq (.var "c")) ∧
    numberOf "1" ≠ numberOf "nan" := by
  decide +kernel

end Script
end MacroEngine
