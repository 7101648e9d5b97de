import MacroEngine.Proofs.CraftText
import Mathlib.Data.List.Basic

/-! Crafting loops by template. A template line without a marker goes into the loop as it stands,
and one that is nothing but the marker of the macro becomes the body, whatever the body holds. The
built-in template comes to the lines of the layout from the crafting log. -/
namespace MacroEngine

namespace Text

variable {marker image cs : List Char} {c : Char}

theorem substitute_of_not_mem (h : c ∉ cs) : substitute (c :: marker) image cs = cs := by
  unfold substitute
  induction cs with
  | nil => rfl
  | cons d cs ih =>
    obtain ⟨hd, hcs⟩ : c ≠ d ∧ c ∉ cs := by simpa using h
    have hprefix : (c :: marker).isPrefixOf (d :: cs) = false := by simp [List.isPrefixOf, hd]
    rw [substituteFrom, hprefix, ih hcs]
    rfl

theorem substituteFrom_skip (marker image skipped cs : List Char) :
    substituteFrom marker image skipped.length (skipped ++ cs) =
      substituteFrom marker image 0 cs := by
  induction skipped with
  | nil => rfl
  | cons d skipped ih => rw [List.cons_append, List.length_cons, substituteFrom, ih]

/-- A marker at the front is replaced, and its image is not looked at again. -/
theorem substitute_marker (c : Char) (marker image cs : List Char) :
    substitute (c :: marker) image ((c :: marker) ++ cs) =
      image ++ substitute (c :: marker) image cs := by
  have hprefix : (c :: marker).isPrefixOf (c :: (marker ++ cs)) = true := by simp
  rw [substitute, List.cons_append, substituteFrom, hprefix]
  exact congrArg (image ++ ·) (substituteFrom_skip (c :: marker) image marker cs)

/-- Text before a marker that holds no beginning of one. -/
theorem substitute_append (h : c ∉ cs) (marker image rest : List Char) :
    substitute (c :: marker) image (cs ++ rest) = cs ++ substitute (c :: marker) image rest := by
  induction cs with
  | nil => rfl
  | cons d cs ih =>
    obtain ⟨hd, hcs⟩ : c ≠ d ∧ c ∉ cs := by simpa using h
    have hprefix : (c :: marker).isPrefixOf (d :: (cs ++ rest)) = false := by
      simp [List.isPrefixOf, hd]
    rw [List.cons_append, substitute, substituteFrom, hprefix]
    exact congrArg (d :: ·) (ih hcs)

end Text

open Text Number

variable {line : List Char}

theorem occurs_of_not_mem {marker cs : List Char} {c : Char} (h : c ∉ cs) :
    occurs (c :: marker) cs = false := by
  induction cs with
  | nil => rfl
  | cons d cs ih =>
    obtain ⟨hd, hcs⟩ : c ≠ d ∧ c ∉ cs := by simpa using h
    simp [occurs, List.isPrefixOf, hd, ih hcs]

theorem fillLine_plain (h : '{' ∉ line) (body : List Char) (count : Option Nat) :
    fillLine body count line = some line := by
  have hcount : ∀ image, substitute countMarker image line = line :=
    fun _ => substitute_of_not_mem h
  have hmacro : substitute macroMarker body line = line := substitute_of_not_mem h
  have hoccurs : occurs countMarker line = false := occurs_of_not_mem h
  cases count with
  | none => simp [fillLine, hoccurs, hmacro]
  | some n => simp [fillLine, hcount, hmacro]

theorem fillLine_body (body : List Char) (count : Option Nat) :
    fillLine body count macroMarker = some body := by
  have hcount : ∀ image, substitute countMarker image macroMarker = macroMarker := fun _ => rfl
  have hmacro : substitute macroMarker body macroMarker = body := by
    have h := substitute_marker '{' ['{', 'm', 'a', 'c', 'r', 'o', '}', '}'] body []
    rwa [substitute_nil, List.append_nil, List.append_nil] at h
  have hoccurs : occurs countMarker macroMarker = false := by decide
  cases count with
  | none => simp [fillLine, hoccurs, hmacro]
  | some n => simp [fillLine, hcount, hmacro]

theorem fillLine_count (h : '{' ∉ line) (hoccurs : occurs countMarker (line ++ countMarker) = true)
    (body : List Char) (count : Option Nat) :
    fillLine body count (line ++ countMarker) = count.map fun n => line ++ digits n := by
  cases count with
  | none => simp [fillLine, hoccurs]
  | some n =>
    have hcount : substitute countMarker (digits n) (line ++ countMarker) = line ++ digits n := by
      have hmarker := substitute_marker '{' ['{', 'c', 'o', 'u', 'n', 't', '}', '}'] (digits n) []
      rw [substitute_nil, List.append_nil, List.append_nil] at hmarker
      rw [countMarker, substitute_append h, hmarker]
    have hopen : '{' ∉ line ++ digits n := by simp [h, not_mem_digits (n := n) (c := '{') (by decide)]
    have hmacro : substitute macroMarker body (line ++ digits n) = line ++ digits n :=
      substitute_of_not_mem hopen
    simp [fillLine, hcount, hmacro]

theorem lines_template : lines (normalize CraftLayout.default.template.toList) =
    ("/craft ".toList ++ countMarker) :: (startSynthesis 5 ++ [macroMarker, "/loop".toList]) := by
  decide +kernel

theorem gateLine_silent {layout : CraftLayout} (h : layout.echo = false) (n : Nat) :
    gateLine layout n = "/craft ".toList ++ digits n := by
  have hempty : (if layout.echo then " <echo>".toList else []) = [] := if_neg (by simp [h])
  exact (congrArg _ hempty).trans (List.append_nil _)

theorem startSynthesis_plain : ∀ line ∈ startSynthesis 5, '{' ∉ line := by decide

/-- The lines of the built-in template, filled, are those of the layout from the crafting log. -/
theorem filterMap_template (layout : CraftLayout) (hfrom : layout.fromRecipeNote = true)
    (hecho : layout.echo = false) (hsecs : layout.maxWaitSecs = 5) (body : List Char)
    (count : Option Nat) :
    (lines (normalize CraftLayout.default.template.toList)).filterMap (fillLine body count) =
      craftLines layout body count := by
  have hgate : fillLine body count ("/craft ".toList ++ countMarker) =
      count.map (gateLine layout) := by
    rw [fillLine_count (by decide) (by decide)]
    cases count with
    | none => rfl
    | some n => exact congrArg some (gateLine_silent hecho n).symm
  have hstart : (startSynthesis 5).filterMap (fillLine body count) = startSynthesis 5 :=
    (List.filterMap_congr fun line hl => fillLine_plain (startSynthesis_plain line hl) body count).trans
      List.filterMap_some
  have hloop : fillLine body count "/loop".toList = some "/loop".toList :=
    fillLine_plain (by decide) body count
  have hlines : craftLines layout body count =
      (count.map (gateLine layout)).toList ++ (startSynthesis 5 ++ [body, "/loop".toList]) := by
    simp only [craftLines, hfrom, if_true, hsecs, List.append_assoc, List.cons_append,
      List.nil_append]
  rw [lines_template, hlines, List.filterMap_cons, hgate, List.filterMap_append, hstart,
    List.filterMap_cons_some (fillLine_body body count), List.filterMap_cons_some hloop,
    List.filterMap_nil]
  cases count <;> rfl

/-- A crafting loop by the built-in template, whatever else its layout says, is the loop from the
crafting log, without an echo and with waits of at most five seconds. -/
theorem craftLoop_template (source : List Char) (count : Option Nat) (fromRecipeNote echo : Bool)
    (secs : Nat) (template : String) :
    ∃ text,
      craftLoop source count ⟨true, CraftLayout.default.template, fromRecipeNote, echo, secs⟩ =
        .ok text ∧
      craftLoop source count ⟨false, template, true, false, 5⟩ = .ok text := by
  have hmarker : occurs macroMarker CraftLayout.default.template.toList = true := by decide +kernel
  have hlines := filterMap_template ⟨false, template, true, false, 5⟩ rfl rfl rfl
    (craftBody source) count
  refine ⟨_, ?_, rfl⟩
  simp only [craftLoop, if_true, hmarker, hlines]

end MacroEngine
