import MacroEngine.Proofs.CraftTemplates
import Mathlib.Data.List.Infix

/-! The placeholders of a template. A line is read once, from left to right, as placeholders and
the characters between them. The macro and the count are put in for all of them at once: what is
put in is not read again, so a macro that mentions a placeholder goes in as it stands. -/
namespace MacroEngine
open Text Number

inductive Piece where
  | plain (c : Char)
  | body
  | number
  deriving DecidableEq

namespace Piece

def text : Piece → List Char
  | .plain c => [c]
  | .body => macroMarker
  | .number => countMarker

def image (body : List Char) (count : Option Nat) : Piece → List Char
  | .plain c => [c]
  | .body => body
  | .number => (count.map digits).getD []

end Piece

/-- The pieces of a line with `skip` characters of the current placeholder still to pass over. -/
def piecesFrom : Nat → List Char → List Piece
  | _, [] => []
  | skip + 1, _ :: cs => piecesFrom skip cs
  | 0, c :: cs =>
    if macroMarker.isPrefixOf (c :: cs) then .body :: piecesFrom (macroMarker.length - 1) cs
    else if countMarker.isPrefixOf (c :: cs) then .number :: piecesFrom (countMarker.length - 1) cs
    else .plain c :: piecesFrom 0 cs

def pieces (line : List Char) : List Piece := piecesFrom 0 line

def occurrences (marker cs : List Char) : Nat := cs.tails.countP (marker.isPrefixOf ·)

variable {body cs line : List Char} {c : Char} {n : Nat}

theorem pieces_body (cs : List Char) : pieces (macroMarker ++ cs) = .body :: pieces cs := rfl

theorem pieces_number (cs : List Char) : pieces (countMarker ++ cs) = .number :: pieces cs := rfl

theorem pieces_plain (hmark : macroMarker.isPrefixOf (c :: cs) = false)
    (hcount : countMarker.isPrefixOf (c :: cs) = false) :
    pieces (c :: cs) = .plain c :: pieces cs := by
  rw [pieces, piecesFrom, hmark, hcount]
  rfl

/-- A line begins with a placeholder or with a character at which none begins. -/
theorem pieces_induction {P : List Char → Prop} (nil : P [])
    (body : ∀ cs, P cs → P (macroMarker ++ cs)) (number : ∀ cs, P cs → P (countMarker ++ cs))
    (plain : ∀ c cs, macroMarker.isPrefixOf (c :: cs) = false →
      countMarker.isPrefixOf (c :: cs) = false → P cs → P (c :: cs)) (line : List Char) :
    P line := by
  induction hn : line.length using Nat.strong_induction_on generalizing line with
  | _ n ih =>
    have later : ∀ {front cs : List Char}, front ≠ [] → line = front ++ cs → P cs := by
      intro front cs hfront hline
      have hpos : 0 < front.length := List.length_pos_iff.mpr hfront
      refine ih cs.length ?_ cs rfl
      rw [← hn, hline, List.length_append]
      omega
    cases line with
    | nil => exact nil
    | cons c cs =>
      by_cases hmark : macroMarker.isPrefixOf (c :: cs) = true
      · obtain ⟨rest, hrest⟩ := List.isPrefixOf_iff_prefix.mp hmark
        rw [← hrest]
        exact body rest (later (by decide) hrest.symm)
      by_cases hcount : countMarker.isPrefixOf (c :: cs) = true
      · obtain ⟨rest, hrest⟩ := List.isPrefixOf_iff_prefix.mp hcount
        rw [← hrest]
        exact number rest (later (by decide) hrest.symm)
      · exact plain c cs (Bool.eq_false_iff.mpr hmark) (Bool.eq_false_iff.mpr hcount)
          (later (List.cons_ne_nil c []) rfl)

theorem text_pieces (line : List Char) : (pieces line).flatMap Piece.text = line := by
  induction line using pieces_induction with
  | nil => rfl
  | body cs ih => rw [pieces_body, List.flatMap_cons, ih, Piece.text]
  | number cs ih => rw [pieces_number, List.flatMap_cons, ih, Piece.text]
  | plain c cs hmark hcount ih =>
    rw [pieces_plain hmark hcount, List.flatMap_cons, ih]
    rfl

theorem occurrences_cons (marker : List Char) (c : Char) (cs : List Char) :
    occurrences marker (c :: cs) =
      occurrences marker cs + if marker.isPrefixOf (c :: cs) then 1 else 0 := by
  rw [occurrences, List.tails, List.countP_cons]
  rfl

theorem count_pieces (line : List Char) :
    (pieces line).count .body = occurrences macroMarker line ∧
      (pieces line).count .number = occurrences countMarker line := by
  induction line using pieces_induction with
  | nil => exact ⟨rfl, rfl⟩
  | body cs ih =>
    have hmark : occurrences macroMarker (macroMarker ++ cs) = occurrences macroMarker cs + 1 := by
      simp [macroMarker, occurrences_cons]
    have hcount : occurrences countMarker (macroMarker ++ cs) = occurrences countMarker cs := by
      simp [macroMarker, countMarker, occurrences_cons]
    rw [pieces_body, hmark, hcount, ← ih.1, ← ih.2]
    exact ⟨List.count_cons_self, List.count_cons_of_ne (by decide)⟩
  | number cs ih =>
    have hmark : occurrences macroMarker (countMarker ++ cs) = occurrences macroMarker cs := by
      simp [macroMarker, countMarker, occurrences_cons]
    have hcount : occurrences countMarker (countMarker ++ cs) = occurrences countMarker cs + 1 := by
      simp [countMarker, occurrences_cons]
    rw [pieces_number, hmark, hcount, ← ih.1, ← ih.2]
    exact ⟨List.count_cons_of_ne (by decide), List.count_cons_self⟩
  | plain c cs hmark hcount ih =>
    have hbody : Piece.plain c ≠ .body := Piece.noConfusion
    have hnumber : Piece.plain c ≠ .number := Piece.noConfusion
    rw [pieces_plain hmark hcount, List.count_cons_of_ne hbody, List.count_cons_of_ne hnumber,
      occurrences_cons, occurrences_cons, hmark, hcount]
    exact ih

theorem occurrences_eq_zero {marker : List Char} (h : ¬ marker <:+: cs) :
    occurrences marker cs = 0 := by
  refine List.countP_eq_zero.mpr fun tail htail hprefix => h ?_
  obtain ⟨rest, rfl⟩ := List.isPrefixOf_iff_prefix.mp hprefix
  obtain ⟨front, hfront⟩ := (List.mem_tails _ _).mp htail
  exact ⟨front, rest, by rw [List.append_assoc, hfront]⟩

theorem occurs_iff {marker : List Char} : occurs marker cs = true ↔ marker <:+: cs := by
  induction cs with
  | nil => simp [occurs]
  | cons c cs ih => rw [occurs, Bool.or_eq_true, ih, List.infix_cons_iff, List.isPrefixOf_iff_prefix]

theorem substitute_cons {marker image : List Char} (h : marker.isPrefixOf (c :: cs) = false) :
    substitute marker image (c :: cs) = c :: substitute marker image cs := by
  rw [substitute, substituteFrom, h]
  rfl

theorem substitute_of_not_occurs {marker image : List Char} (h : occurs marker cs = false) :
    substitute marker image cs = cs := by
  induction cs with
  | nil => rfl
  | cons c cs ih =>
    rw [occurs, Bool.or_eq_false_iff] at h
    rw [substitute_cons h.1, ih h.2]

/-- Putting the count in makes no new beginning of a text without digits. -/
theorem prefix_of_substitute {front : List Char} (hfront : ∀ c ∈ front, isAsciiDigit c = false)
    (h : front <+: substitute countMarker (digits n) cs) : front <+: cs := by
  induction cs generalizing front with
  | nil => exact h
  | cons c cs ih =>
    cases front with
    | nil => exact List.nil_prefix
    | cons d front =>
      obtain ⟨hd, hfront⟩ := List.forall_mem_cons.mp hfront
      by_cases hcount : countMarker.isPrefixOf (c :: cs) = true
      · obtain ⟨rest, hrest⟩ := List.isPrefixOf_iff_prefix.mp hcount
        have hdigits : substitute countMarker (digits n) (c :: cs) =
            digits n ++ substitute countMarker (digits n) rest := by
          rw [← hrest]
          exact substitute_marker '{' ['{', 'c', 'o', 'u', 'n', 't', '}', '}'] (digits n) rest
        obtain ⟨e, es, he⟩ := List.exists_cons_of_ne_nil (digits_ne_nil n)
        rw [hdigits, he, List.cons_append, List.cons_prefix_cons] at h
        have hdigit : isAsciiDigit e = true := isAsciiDigit_of_mem_digits (he ▸ List.mem_cons_self)
        rw [← h.1, hd] at hdigit
        exact absurd hdigit Bool.false_ne_true
      · rw [substitute_cons (Bool.eq_false_iff.mpr hcount), List.cons_prefix_cons] at h
        exact List.cons_prefix_cons.mpr ⟨h.1, ih hfront h.2⟩

theorem no_digits_macroMarker : ∀ c ∈ macroMarker, isAsciiDigit c = false := by
  have hall : (macroMarker.all fun c => !isAsciiDigit c) = true := by decide
  simpa using hall

/-- One placeholder after the other comes to the same as both at once. -/
theorem substitute_pieces (body : List Char) (n : Nat) (line : List Char) :
    substitute macroMarker body (substitute countMarker (digits n) line) =
      (pieces line).flatMap (Piece.image body (some n)) := by
  induction line using pieces_induction with
  | nil => rfl
  | body cs ih =>
    have hcount : substitute countMarker (digits n) (macroMarker ++ cs) =
        macroMarker ++ substitute countMarker (digits n) cs := rfl
    have hmark := substitute_marker '{' ['{', 'm', 'a', 'c', 'r', 'o', '}', '}'] body
      (substitute countMarker (digits n) cs)
    rw [hcount, macroMarker, hmark, ← macroMarker, ih, pieces_body, List.flatMap_cons, Piece.image]
  | number cs ih =>
    have hcount := substitute_marker '{' ['{', 'c', 'o', 'u', 'n', 't', '}', '}'] (digits n) cs
    have hopen : '{' ∉ digits n := not_mem_digits (by decide)
    rw [countMarker, hcount, ← countMarker, macroMarker, substitute_append hopen, ← macroMarker, ih,
      pieces_number, List.flatMap_cons]
    rfl
  | plain c cs hmark hcount ih =>
    have hlater : macroMarker.isPrefixOf (c :: substitute countMarker (digits n) cs) = false := by
      rw [Bool.eq_false_iff, Ne, List.isPrefixOf_iff_prefix] at hmark ⊢
      rw [← substitute_cons hcount]
      exact fun h => hmark (prefix_of_substitute no_digits_macroMarker h)
    rw [substitute_cons hcount, substitute_cons hlater, ih, pieces_plain hmark hcount,
      List.flatMap_cons]
    rfl

/-- Without a count, no line that mentions it is filled. -/
def kept (count : Option Nat) (line : List Char) : Bool :=
  decide (count.isSome ∨ ¬ countMarker <:+: line)

theorem fillLine_pieces (body : List Char) (count : Option Nat) (line : List Char) :
    fillLine body count line =
      if kept count line then some ((pieces line).flatMap (Piece.image body count)) else none := by
  cases count with
  | some n => simp [fillLine, kept, substitute_pieces]
  | none =>
    by_cases hcount : countMarker <:+: line
    · simp [fillLine, kept, hcount, occurs_iff.mpr hcount]
    · have hoccurs : occurs countMarker line = false := by simpa [← occurs_iff] using hcount
      have hnumber : Piece.number ∉ pieces line := by
        rw [← List.count_eq_zero, (count_pieces line).2]
        exact occurrences_eq_zero hcount
      have himage : (pieces line).flatMap (Piece.image body (some 0)) =
          (pieces line).flatMap (Piece.image body none) := by
        refine List.flatMap_congr fun piece hpiece => ?_
        cases piece with
        | plain | body => rfl
        | number => exact absurd hpiece hnumber
      have hfilled := substitute_pieces body 0 line
      rw [substitute_of_not_occurs hoccurs, himage] at hfilled
      simp [fillLine, kept, hcount, hoccurs, hfilled]

theorem filterMap_fillLine (body : List Char) (count : Option Nat) (ls : List (List Char)) :
    ls.filterMap (fillLine body count) =
      (ls.filter (kept count)).map fun line => (pieces line).flatMap (Piece.image body count) := by
  rw [← List.filterMap_eq_map, List.filterMap_filter]
  exact List.filterMap_congr fun line _ => fillLine_pieces body count line

/-- By a template, every line that is kept goes into the loop with the macro and the count put in for
all its placeholders at once. What is put in for a placeholder is the normalized macro without the
line feeds at its end, whatever it holds, or the count; a line has as many placeholders as it has
places where a marker stands. -/
theorem craftLoop_placeholders (source : List Char) (count : Option Nat) {layout : CraftLayout}
    (huse : layout.useTemplate = true) (hmarker : macroMarker <:+: layout.template.toList) :
    let body := craftBody source
    let templateLines := (lines (normalize layout.template.toList)).filter (kept count)
    (∃ k, normalize source = body ++ List.replicate k '\n') ∧ body.getLast? ≠ some '\n' ∧
    craftLoop source count layout =
      .ok (unlines (templateLines.map fun line =>
        (pieces line).flatMap (Piece.image body count))) ∧
    ∀ line, (pieces line).flatMap Piece.text = line ∧
      (pieces line).count .body = occurrences macroMarker line ∧
      (pieces line).count .number = occurrences countMarker line := by
  intro body templateLines
  obtain ⟨hbody, hlast⟩ := normalize_eq_craftBody source
  refine ⟨hbody, hlast, ?_, fun line => ⟨text_pieces line, count_pieces line⟩⟩
  simp only [craftLoop, huse, if_true, occurs_iff.mpr hmarker, filterMap_fillLine]
  rfl

def quoting : List Char := "/echo \x7b\x7bcount\x7d\x7d of \x7b\x7bmacro\x7d\x7d\r\n\n".toList

def crowded : CraftLayout :=
  { CraftLayout.default with
    useTemplate := true
    template := "\x7b\x7bcount\x7d\x7d\x7b\x7bmacro\x7d\x7d\x7b\x7b\x7bmacro\x7d\x7d\n" ++
      "/craft \x7b\x7bcount\x7d\x7d\n\x7b\x7bcount\x7d" }

theorem craftLoop_placeholders_quoting :
    crowded.useTemplate = true ∧ macroMarker <:+: crowded.template.toList ∧
    craftLoop quoting (some 12) crowded = .ok ("12".toList ++ craftBody quoting ++
      ('{' :: craftBody quoting) ++ "\n/craft 12\n\x7b\x7bcount\x7d".toList) := by
  have hmarker : macroMarker <:+: crowded.template.toList := by decide +kernel
  obtain ⟨_, _, hloop, _⟩ := craftLoop_placeholders quoting (some 12) rfl hmarker
  refine ⟨rfl, hmarker, hloop.trans ?_⟩
  decide +kernel

end MacroEngine
