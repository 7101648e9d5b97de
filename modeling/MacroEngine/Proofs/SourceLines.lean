import MacroEngine.Proofs.InlineBlocks
import MacroEngine.Proofs.ScriptRoundTrip

/-! The lines of a source and the lines that its script is read from. A block on one line becomes
two lines before the script is lexed, so every line behind one has a number that is too large by
the blocks on one line before it. The tokens of a line have the number of that line. -/
namespace MacroEngine
namespace Text

/-- The lines of a source, of which `line` was begun, backwards. CR LF, CR and LF end a line each. -/
def sourceLinesFrom (line : List Char) : List Char → List (List Char)
  | '\r' :: '\n' :: cs => line.reverse :: sourceLinesFrom [] cs
  | '\r' :: cs => line.reverse :: sourceLinesFrom [] cs
  | '\n' :: cs => line.reverse :: sourceLinesFrom [] cs
  | c :: cs => sourceLinesFrom (c :: line) cs
  | [] => if line.isEmpty then [] else [line.reverse]

def sourceLines : List Char → List (List Char)
  | '\ufeff' :: cs => sourceLinesFrom [] cs
  | cs => sourceLinesFrom [] cs

def withoutTabs (line : List Char) : List Char :=
  line.flatMap fun c => if c = '\t' then [' ', ' ', ' ', ' '] else [c]

variable {cs line : List Char}

theorem withoutTabs_append (as bs : List Char) :
    withoutTabs (as ++ bs) = withoutTabs as ++ withoutTabs bs := List.flatMap_append

theorem withoutTabs_isEmpty (line : List Char) : (withoutTabs line).isEmpty = line.isEmpty := by
  cases line with
  | nil => rfl
  | cons c line =>
    rw [withoutTabs, List.flatMap_cons]
    split <;> rfl

theorem dropReturn_eq_self (h : '\r' ∉ line) : dropReturn line = line := by
  unfold dropReturn
  split
  · exact absurd List.mem_cons_self h
  · rfl

theorem mem_withoutTabs {c : Char} (h : c ∈ withoutTabs line) : c ∈ line ∨ c = ' ' := by
  obtain ⟨d, hd, hm⟩ := List.mem_flatMap.mp h
  split at hm
  · exact .inr (by simpa using hm)
  · exact .inl (List.mem_singleton.mp hm ▸ hd)

theorem not_mem_withoutTabs (h : '\r' ∉ line) : '\r' ∉ withoutTabs line := fun hm =>
  (mem_withoutTabs hm).elim h (by decide)

/-- The lines of an even text are those of the source. `line` holds no line end. -/
theorem linesFrom_evenOut (hline : '\r' ∉ line) :
    linesFrom (withoutTabs line.reverse).reverse (evenOut cs) =
      (sourceLinesFrom line cs).map withoutTabs := by
  have hreverse {line : List Char} (h : '\r' ∉ line) :
      dropReturn (withoutTabs line.reverse).reverse = (withoutTabs line.reverse).reverse :=
    dropReturn_eq_self fun hm =>
      not_mem_withoutTabs (fun hr => h (List.mem_reverse.mp hr)) (List.mem_reverse.mp hm)
  have hbreak (line : List Char) (h : '\r' ∉ line) (cs : List Char)
      (ih : linesFrom (withoutTabs ([] : List Char).reverse).reverse (evenOut cs) =
        (sourceLinesFrom [] cs).map withoutTabs) :
      linesFrom (withoutTabs line.reverse).reverse ('\n' :: evenOut cs) =
        (line.reverse :: sourceLinesFrom [] cs).map withoutTabs := by
    rw [linesFrom, if_pos rfl, hreverse h, List.reverse_reverse, List.map_cons, ← ih]
    rfl
  fun_induction sourceLinesFrom line cs with
  | case1 line cs ih | case2 line cs _ ih | case3 line cs ih =>
    have hrest := hbreak line hline cs (ih List.not_mem_nil)
    simpa [evenOut] using hrest
  | case4 line c cs hcrlf hr hn ih =>
    have hcr : c ≠ '\r' := fun he => hr he
    have hlf : c ≠ '\n' := fun he => hn he
    have hrest := ih (by simp [hline, Ne.symm hcr])
    rw [List.reverse_cons, withoutTabs_append, List.reverse_append] at hrest
    by_cases htab : c = '\t'
    · subst htab
      simpa [evenOut, linesFrom, withoutTabs] using hrest
    · simpa [evenOut, linesFrom, withoutTabs, hcr, hlf, htab] using hrest
  | case5 line hempty =>
    obtain rfl := List.isEmpty_iff.mp hempty
    rfl
  | case6 line hempty =>
    rw [evenOut, linesFrom, List.isEmpty_reverse, withoutTabs_isEmpty, List.isEmpty_reverse,
      if_neg hempty, List.reverse_reverse]
    rfl

/-- The lines that are read are those of the source, without tabs. -/
theorem lines_normalize (cs : List Char) : lines (normalize cs) = (sourceLines cs).map withoutTabs := by
  have heven (cs : List Char) : lines (evenOut cs) = (sourceLinesFrom [] cs).map withoutTabs :=
    linesFrom_evenOut List.not_mem_nil
  unfold normalize
  split
  · exact heven _
  · rename_i hmark
    rw [heven, sourceLines]
    exact hmark

theorem oneLine_of_mem_sourceLinesFrom {l : List Char} (hline : OneLine line)
    (h : l ∈ sourceLinesFrom line cs) : OneLine l := by
  have hbreak {line cs : List Char} (hline : OneLine line) (h : l ∈ line.reverse :: sourceLinesFrom [] cs)
      (ih : l ∈ sourceLinesFrom [] cs → OneLine l) : OneLine l := by
    rcases List.mem_cons.mp h with rfl | h
    · simpa [OneLine] using hline
    · exact ih h
  fun_induction sourceLinesFrom line cs with
  | case1 line cs ih | case2 line cs _ ih | case3 line cs ih => exact hbreak hline h (ih (by decide))
  | case4 line c cs _ hr hn ih =>
    refine ih ⟨?_, ?_⟩ h
    · exact fun hm => (List.mem_cons.mp hm).elim (fun he => hn he.symm) hline.1
    · exact fun hm => (List.mem_cons.mp hm).elim (fun he => hr he.symm) hline.2
  | case5 line hempty => cases h
  | case6 line hempty =>
    rw [List.mem_singleton.mp h]
    simpa [OneLine] using hline

theorem oneLine_of_mem_sourceLines {l : List Char} (h : l ∈ sourceLines cs) : OneLine l := by
  unfold sourceLines at h
  split at h <;> exact oneLine_of_mem_sourceLinesFrom (by decide) h

/-- Lines that hold no line ends are found again behind line feeds. -/
theorem lines_flatMap_ended {ls : List (List Char)} (h : ∀ l ∈ ls, OneLine l) :
    lines (ls.flatMap fun l => l ++ ['\n']) = ls := by
  induction ls with
  | nil => rfl
  | cons l ls ih =>
    obtain ⟨hl, hls⟩ := List.forall_mem_cons.mp h
    rw [List.flatMap_cons, List.append_assoc, List.singleton_append, lines_line hl, ih hls]

end Text

namespace Script
open Text

variable {cs head tail : List Char}

/-! The lines that a line of a source becomes. -/

theorem append_of_splitAtColon {quote : Option Char} (h : splitAtColon quote cs = some (head, tail)) :
    cs = head ++ tail := by
  induction cs generalizing quote head with
  | nil => cases h
  | cons c cs ih =>
    rw [splitAtColon.eq_def] at h
    dsimp only at h
    split at h
    · cases h
      rfl
    · obtain ⟨⟨head, tail⟩, hsplit, he⟩ := Option.map_eq_some_iff.mp h
      cases he
      rw [ih hsplit, List.cons_append]

theorem exists_trim (cs : List Char) : ∃ before after, (∀ c ∈ before, isBlank c = true) ∧
    (∀ c ∈ after, isBlank c = true) ∧ cs = before ++ trim cs ++ after := by
  obtain ⟨after, hafter, he⟩ := exists_trimEnd_append (trimStart cs)
  refine ⟨cs.takeWhile isBlank, after, fun c hc => List.mem_takeWhile_imp hc, hafter, ?_⟩
  rw [List.append_assoc, trim, ← he, trimStart, List.takeWhile_append_dropWhile]

/-- A line is kept, or it is cut behind a colon. Then the second part is deeper than the first, and
nothing but blanks is left out between them and at the end. -/
theorem expandLine_cases (line : List Char) : expandLine line = [line] ∨
    ∃ indent head gap tail trail, line = indent ++ head ++ gap ++ tail ++ trail ∧
      (∀ c ∈ indent ++ gap ++ trail, isBlank c = true) ∧
      expandLine line = [indent ++ head, indent ++ [' ', ' ', ' ', ' '] ++ tail] := by
  unfold expandLine
  dsimp only
  split
  · exact .inl rfl
  · rename_i head tail hsplit
    split
    · exact .inl rfl
    · obtain ⟨gap, trail, hgap, htrail, htail⟩ := exists_trim tail
      refine .inr ⟨line.takeWhile isBlank, head, gap, trim tail, trail, ?_, ?_, rfl⟩
      · have hbody : trimStart line = head ++ tail := by
          split at hsplit
          · exact append_of_splitAtColon hsplit
          · cases hsplit
        calc line = line.takeWhile isBlank ++ trimStart line := List.takeWhile_append_dropWhile.symm
          _ = line.takeWhile isBlank ++ (head ++ (gap ++ trim tail ++ trail)) := by rw [hbody, ← htail]
          _ = line.takeWhile isBlank ++ head ++ gap ++ trim tail ++ trail := by simp
      · simp only [List.forall_mem_append]
        exact ⟨⟨fun c hc => List.mem_takeWhile_imp hc, hgap⟩, htrail⟩

theorem mem_of_mem_expandLine {line part : List Char} (h : part ∈ expandLine line) {c : Char}
    (hc : c ∈ part) : c ∈ line ∨ c = ' ' := by
  rcases expandLine_cases line with he | ⟨indent, head, gap, tail, trail, hline, -, he⟩
  · rw [he] at h
    exact .inl (List.mem_singleton.mp h ▸ hc)
  · rw [he] at h
    rw [hline]
    simp only [List.mem_cons, List.not_mem_nil, or_false] at h
    rcases h with rfl | rfl
    · exact .inl (by simp only [List.mem_append] at hc ⊢; tauto)
    · simp only [List.mem_append, List.mem_cons, List.not_mem_nil, or_false] at hc ⊢
      tauto

theorem lines_expandBlocks (cs : List Char) : lines (expandBlocks (normalize cs)) =
    ((sourceLines cs).map withoutTabs).flatMap expandLine := by
  rw [expandBlocks, lines_normalize]
  refine lines_flatMap_ended fun part hpart => ?_
  obtain ⟨_, hm, hpart⟩ := List.mem_flatMap.mp hpart
  obtain ⟨line, hline, rfl⟩ := List.mem_map.mp hm
  have hone := oneLine_of_mem_sourceLines hline
  have hchars {c : Char} (hc : c ∈ part) : c ∈ line ∨ c = ' ' :=
    (mem_of_mem_expandLine hpart hc).elim mem_withoutTabs .inr
  exact ⟨fun hm => (hchars hm).elim hone.1 (by decide), fun hm => (hchars hm).elim hone.2 (by decide)⟩

def isInline (line : List Char) : Bool := (expandLine line).length = 2

theorem length_expandLine (line : List Char) :
    (expandLine line).length = 1 + if isInline line then 1 else 0 := by
  rcases expandLine_cases line with he | ⟨indent, head, gap, tail, trail, -, -, he⟩
  · simp [isInline, he]
  · simp [isInline, he]

/-- A line that a script is read from: its number there, the number of the source line that it comes
from, whether it is the first or the second line made of that, and its text. -/
structure Part where
  number : Nat
  line : Nat
  index : Nat
  text : List Char

/-- The parts of source lines, of which the first is line `m`; `n` is the number of its first part. -/
def partsFrom (n m : Nat) : List (List Char) → List Part
  | [] => []
  | l :: ls =>
    (numbered 0 (expandLine (withoutTabs l))).map (fun (i, text) => ⟨n + i, m, i, text⟩) ++
      partsFrom (n + (expandLine (withoutTabs l)).length) (m + 1) ls

def sourceParts (source : String) : List Part := partsFrom 1 1 (sourceLines source.toList)

def inlineCount (ls : List (List Char)) : Nat := ls.countP fun l => isInline (withoutTabs l)

theorem getElem?_of_mem_numbered {α : Type} {n i : Nat} {x : α} {xs : List α}
    (h : (i, x) ∈ numbered n xs) : n ≤ i ∧ xs[i - n]? = some x := by
  induction xs generalizing n with
  | nil => cases h
  | cons y ys ih =>
    rcases List.mem_cons.mp h with he | h
    · cases he
      simp
    · obtain ⟨hle, hx⟩ := ih h
      obtain ⟨k, rfl⟩ := Nat.exists_eq_add_of_le hle
      refine ⟨by omega, ?_⟩
      rw [Nat.add_sub_cancel_left] at hx
      rw [show n + 1 + k - n = k + 1 by omega]
      exact hx

theorem numbered_map_add {α : Type} (n k : Nat) (xs : List α) :
    (numbered k xs).map (fun (i, x) => (n + i, x)) = numbered (n + k) xs := by
  induction xs generalizing k with
  | nil => rfl
  | cons x xs ih =>
    rw [numbered, List.map_cons, ih]
    rfl

theorem map_partsFrom (n m : Nat) (ls : List (List Char)) :
    (partsFrom n m ls).map (fun p => (p.number, p.text)) =
      numbered n ((ls.map withoutTabs).flatMap expandLine) := by
  induction ls generalizing n m with
  | nil => rfl
  | cons l ls ih =>
    rw [partsFrom, List.map_append, ih, List.map_cons, List.flatMap_cons, numbered_append,
      List.map_map]
    exact congrArg (· ++ _) (numbered_map_add n 0 _)

/-- Where a part comes from, and its number: that of the source line, and one more for every block
on an earlier line and for the part in front of it on the same line. -/
theorem of_mem_partsFrom {n m : Nat} {ls : List (List Char)} {p : Part} (h : p ∈ partsFrom n m ls) :
    ∃ before l after, ls = before ++ l :: after ∧ p.line = m + before.length ∧
      (expandLine (withoutTabs l))[p.index]? = some p.text ∧
      p.number = n + before.length + inlineCount before + p.index := by
  induction ls generalizing n m with
  | nil => cases h
  | cons l ls ih =>
    rcases List.mem_append.mp h with h | h
    · obtain ⟨⟨i, text⟩, hm, rfl⟩ := List.mem_map.mp h
      exact ⟨[], l, ls, rfl, rfl, (getElem?_of_mem_numbered hm).2, rfl⟩
    · obtain ⟨before, l', after, rfl, hline, htext, hnumber⟩ := ih h
      refine ⟨l :: before, l', after, rfl, ?_, htext, ?_⟩
      · rw [hline, List.length_cons]
        omega
      · rw [hnumber, length_expandLine, inlineCount, inlineCount, List.countP_cons, List.length_cons]
        omega

end Script
end MacroEngine
