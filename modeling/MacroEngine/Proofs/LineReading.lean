import MacroEngine.Proofs.WholeNumbers
import MacroEngine.Routine.Reader

/-! Reading text line by line. A text that was put together from lines is taken apart into them
again, each line is read on its own, and where it stands decides nothing but its number. -/
namespace MacroEngine

namespace Text

variable {a b cs : List Char} {ls : List (List Char)}

def OneLine (cs : List Char) : Prop := '\n' ∉ cs ∧ '\r' ∉ cs

instance (cs : List Char) : Decidable (OneLine cs) := inferInstanceAs (Decidable (_ ∧ _))

theorem linesFrom_append (a : List Char) :
    ∀ line, linesFrom line (a ++ '\n' :: b) = linesFrom line (a ++ ['\n']) ++ lines b := by
  induction a with
  | nil => intro line; simp [linesFrom, lines]
  | cons c a ih =>
    intro line
    by_cases hc : c = '\n'
    · simp [linesFrom, hc, ih]
    · simp [linesFrom, hc, ih]

theorem lines_append (a b : List Char) : lines (a ++ '\n' :: b) = lines (a ++ ['\n']) ++ lines b :=
  linesFrom_append a []

theorem linesFrom_line (h : OneLine a) : ∀ line, '\r' ∉ line →
    linesFrom line (a ++ ['\n']) = [line.reverse ++ a] := by
  have hdrop : ∀ line : List Char, '\r' ∉ line → dropReturn line = line := by
    intro line hl
    unfold dropReturn
    split
    · exact absurd List.mem_cons_self hl
    · rfl
  induction a with
  | nil => intro line hl; simp [linesFrom, hdrop line hl]
  | cons c a ih =>
    intro line hl
    simp only [OneLine, List.mem_cons, not_or] at h
    obtain ⟨⟨hn, hna⟩, hr, hra⟩ := h
    have hc : c ≠ '\n' := Ne.symm hn
    have hstep := ih ⟨hna, hra⟩ (c :: line) (by simp [hr, hl])
    simpa [linesFrom, hc] using hstep

theorem lines_line (h : OneLine a) (b : List Char) : lines (a ++ '\n' :: b) = a :: lines b := by
  rw [lines_append, lines, linesFrom_line h [] (by simp)]
  simp

theorem linesFrom_last (h : '\r' ∉ a) (hlast : a.getLast? ≠ some '\n') :
    ∀ line, '\r' ∉ line → (a = [] → line ≠ []) →
      linesFrom line (a ++ ['\n']) = linesFrom line a := by
  induction a with
  | nil =>
    intro line hl hne
    cases line with
    | nil => exact absurd rfl (hne rfl)
    | cons c line =>
      have hc : c ≠ '\r' := fun he => hl (he ▸ List.mem_cons_self)
      simp [linesFrom, dropReturn, hc]
  | cons c a ih =>
    intro line hl _
    obtain ⟨hc, ha⟩ : '\r' ≠ c ∧ '\r' ∉ a := by simpa using h
    by_cases he : a = []
    · subst he
      have hn : c ≠ '\n' := by simpa using hlast
      have hc' : c ≠ '\r' := Ne.symm hc
      simp [linesFrom, hn, dropReturn, hc']
    · have hlast' : a.getLast? ≠ some '\n' := by
        rwa [List.getLast?_cons_of_ne_nil he] at hlast
      have ih := ih ha hlast'
      by_cases hn : c = '\n'
      · simp [linesFrom, hn, ih [] (by simp) (fun h => absurd h he)]
      · simp [linesFrom, hn, ih (c :: line) (by simp [hc, hl]) (fun h => absurd h he)]

theorem lines_last (h : '\r' ∉ a) (hlast : a.getLast? ≠ some '\n') (hne : a ≠ []) :
    lines (a ++ ['\n']) = lines a :=
  linesFrom_last h hlast [] (by simp) fun he => absurd he hne

theorem lines_replicate (k : Nat) : lines (List.replicate k '\n') = List.replicate k [] := by
  induction k with
  | zero => rfl
  | succ k ih =>
    rw [List.replicate_succ, List.replicate_succ, ← ih]
    exact lines_line (a := []) (by decide) _

theorem mem_evenOut {c : Char} (h : c ∈ evenOut cs) : c ≠ '\r' ∧ c ≠ '\t' := by
  fun_induction evenOut cs with
  | case1 cs ih | case2 cs _ ih =>
    rcases List.mem_cons.mp h with rfl | h
    · decide
    · exact ih h
  | case3 cs ih =>
    simp only [List.mem_cons] at h
    rcases h with rfl | rfl | rfl | rfl | h
    iterate 4 decide
    exact ih h
  | case4 d cs hcrlf hr ht ih =>
    rcases List.mem_cons.mp h with rfl | h
    · exact ⟨fun he => hr he, fun he => ht he⟩
    · exact ih h
  | case5 => cases h

theorem evenOut_eq_self (h : ∀ c ∈ cs, c ≠ '\r' ∧ c ≠ '\t') : evenOut cs = cs := by
  induction cs with
  | nil => rfl
  | cons c cs ih =>
    obtain ⟨hr, ht⟩ := h c List.mem_cons_self
    have ih := ih fun c hc => h c (List.mem_cons_of_mem _ hc)
    simp [evenOut, hr, ih]

theorem normalize_eq_self (h : ∀ c ∈ cs, c ≠ '\r' ∧ c ≠ '\t') (hmark : cs.head? ≠ some '\ufeff') :
    normalize cs = cs := by
  unfold normalize
  split
  · exact absurd rfl hmark
  · exact evenOut_eq_self h

theorem mem_normalize {c : Char} (h : c ∈ normalize cs) : c ≠ '\r' ∧ c ≠ '\t' := by
  unfold normalize at h
  split at h
  · exact mem_evenOut h
  · exact mem_evenOut h

theorem unlines_cons (l : List Char) (h : ls ≠ []) :
    unlines (l :: ls) = l ++ '\n' :: unlines ls := by
  obtain ⟨l', ls', rfl⟩ := List.exists_cons_of_ne_nil h
  simp [unlines, List.intercalate, List.intersperse]

theorem head?_unlines {line : List Char} (h : line ≠ []) (ls : List (List Char)) :
    (unlines (line :: ls)).head? = line.head? := by
  obtain ⟨c, line, rfl⟩ := List.exists_cons_of_ne_nil h
  by_cases hls : ls = []
  · subst hls
    simp [unlines, List.intercalate]
  · rw [unlines_cons _ hls]
    rfl

theorem mem_unlines {c : Char} (h : c ∈ unlines ls) : c = '\n' ∨ ∃ l ∈ ls, c ∈ l := by
  induction ls with
  | nil => simp [unlines, List.intercalate] at h
  | cons l ls ih =>
    by_cases hne : ls = []
    · subst hne
      exact .inr ⟨l, List.mem_cons_self, by simpa [unlines, List.intercalate] using h⟩
    · rw [unlines_cons l hne] at h
      rcases List.mem_append.mp h with h | h
      · exact .inr ⟨l, List.mem_cons_self, h⟩
      · rcases List.mem_cons.mp h with h | h
        · exact .inl h
        · exact (ih h).imp_right fun ⟨l', hl, hc⟩ => ⟨l', List.mem_cons_of_mem l hl, hc⟩

theorem lines_unlines_append {pre post : List (List Char)} (h : ∀ l ∈ pre, OneLine l)
    (hpost : post ≠ []) : lines (unlines (pre ++ post)) = pre ++ lines (unlines post) := by
  induction pre with
  | nil => rfl
  | cons l pre ih =>
    rw [List.cons_append, unlines_cons l (by simp [hpost]), lines_line (h l List.mem_cons_self),
      ih fun l' hl => h l' (List.mem_cons_of_mem l hl), List.cons_append]

theorem lines_single (h : OneLine l) (hne : l ≠ []) : lines (unlines [l]) = [l] := by
  have hlast : l.getLast? ≠ some '\n' := fun he => h.1 (List.mem_of_getLast? he)
  have hline := lines_line h []
  rw [lines_last h.2 hlast hne] at hline
  simpa [unlines, List.intercalate, lines, linesFrom] using hline

theorem numbered_append (xs ys : List α) (n : Nat) :
    numbered n (xs ++ ys) = numbered n xs ++ numbered (n + xs.length) ys := by
  induction xs generalizing n with
  | nil => rfl
  | cons x xs ih => simp [numbered, ih, Nat.add_assoc, Nat.add_comm 1]

end Text

open Text

def Step.later (k : Nat) (step : Step) : Step := { step with line := step.line + k }

def LineError.later (k : Nat) (e : LineError) : LineError := { e with line := e.line + k }

/-- What is on a line does not depend on its number. -/
theorem readLine_later (n k : Nat) (cs : List Char) :
    readLine (n + k) cs =
      ((readLine n cs).mapError (LineError.later k)).map (Option.map (Step.later k)) := by
  unfold readLine
  split
  · rfl
  · rename_i body _
    dsimp only
    cases splitTags (firstWord body).2 with
    | error fault => rfl
    | ok tags =>
      obtain ⟨args, mods⟩ := tags
      dsimp only [bind, Except.bind, Except.mapError]
      cases commandOf (String.ofList (firstWord body).1)
          (canonicalName (String.ofList (firstWord body).1)) args.toList with
      | error reason => rfl
      | ok command => rfl
  · cases splitTags (trim (withoutComment cs)) with
    | error fault => rfl
    | ok tags => rfl

theorem bind_eq_ok {x : Except ε α} {f : α → Except ε β} {b : β} :
    x >>= f = .ok b ↔ ∃ a, x = .ok a ∧ f a = .ok b := by
  cases x <;> simp [bind, Except.bind]

theorem map_eq_ok {x : Except ε α} {f : α → β} {b : β} :
    x.map f = .ok b ↔ ∃ a, x = .ok a ∧ f a = b := by
  cases x <;> simp [Except.map]

theorem mapError_eq_ok {x : Except ε α} {f : ε → ε'} {a : α} :
    x.mapError f = .ok a ↔ x = .ok a := by
  cases x <;> simp [Except.mapError]

theorem readLine_line {n : Nat} {cs : List Char} {step : Step}
    (h : readLine n cs = .ok (some step)) : step.line = n := by
  unfold readLine at h
  split at h
  · cases h
  · obtain ⟨_, _, h⟩ := bind_eq_ok.mp h
    obtain ⟨_, _, h⟩ := bind_eq_ok.mp h
    cases h
    rfl
  · obtain ⟨_, _, h⟩ := bind_eq_ok.mp h
    cases h
    rfl

theorem readLines_line {ls : List (List Char)} {steps : List Step} {n : Nat}
    (h : readLines (numbered n ls) = .ok steps) :
    ∀ step ∈ steps, n ≤ step.line ∧ step.line < n + ls.length := by
  induction ls generalizing n steps with
  | nil =>
    cases h
    simp
  | cons cs ls ih =>
    obtain ⟨first, hfirst, h⟩ := bind_eq_ok.mp h
    obtain ⟨more, hmore, h⟩ := bind_eq_ok.mp h
    cases h
    intro step hm
    rcases List.mem_append.mp hm with hm | hm
    · obtain rfl : first = some step := by simpa using hm
      rw [readLine_line hfirst, List.length_cons]
      omega
    · have hrange := ih hmore step hm
      rw [List.length_cons]
      omega

theorem readLines_append (xs ys : List (Nat × List Char)) :
    readLines (xs ++ ys) =
      (readLines xs).bind fun steps => (readLines ys).map fun more => steps ++ more := by
  induction xs with
  | nil =>
    rw [List.nil_append, readLines]
    cases readLines ys <;> rfl
  | cons x xs ih =>
    obtain ⟨n, cs⟩ := x
    rw [List.cons_append, readLines, readLines, ih]
    cases readLine n cs with
    | error e => rfl
    | ok step =>
      cases readLines xs with
      | error e => rfl
      | ok steps =>
        cases readLines ys with
        | error e => rfl
        | ok more => simp [Except.bind, Except.map, bind, pure, Except.pure]

theorem readLines_later (ls : List (List Char)) (n k : Nat) :
    readLines (numbered (n + k) ls) =
      ((readLines (numbered n ls)).mapError (LineError.later k)).map (List.map (Step.later k)) := by
  induction ls generalizing n with
  | nil => rfl
  | cons cs ls ih =>
    have ih := ih (n + 1)
    rw [Nat.add_right_comm] at ih
    rw [numbered, numbered, readLines, readLines, readLine_later, ih]
    cases readLine n cs with
    | error e => rfl
    | ok step =>
      cases readLines (numbered (n + 1) ls) with
      | error e => rfl
      | ok steps => cases step <;> rfl

theorem readLines_blank (k n : Nat) : readLines (numbered n (List.replicate k [])) = .ok [] := by
  induction k generalizing n with
  | zero => rfl
  | succ k ih =>
    rw [List.replicate_succ, numbered, readLines, ih]
    rfl

end MacroEngine
