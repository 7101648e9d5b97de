import MacroEngine.Proofs.ScriptRoundTrip
import MacroEngine.Proofs.UnnumberedReading

/-! Remarks in scripts. What a line adds to the tokens is decided by the line and the blocks that are
open, and its number only names the place. A line with nothing but a remark adds nothing, and a
remark behind a line whose quotes are closed is cut off again before anything is lexed. -/
namespace MacroEngine.Script
open Text

/-! Quotes. -/

def nextQuote (quote : Option Char) (c : Char) : Option Char :=
  match quote with
  | some q => if c = q then none else some q
  | none => if isQuote c then some c else none

def openQuote (quote : Option Char) (cs : List Char) : Option Char := cs.foldl nextQuote quote

variable {cs xs ys raw raw' gap note : List Char} {c : Char} {quote : Option Char}

theorem openQuote_append (quote : Option Char) (xs ys : List Char) :
    openQuote quote (xs ++ ys) = openQuote (openQuote quote xs) ys := List.foldl_append

theorem openQuote_unquoted (h : ∀ c ∈ cs, isQuote c = false) : openQuote none cs = none := by
  induction cs with
  | nil => rfl
  | cons c cs ih =>
    have hc := h c List.mem_cons_self
    have hnext : nextQuote none c = none := by simp [nextQuote, hc]
    rw [openQuote, List.foldl_cons, hnext]
    exact ih fun d hd => h d (List.mem_cons_of_mem c hd)

theorem openQuote_open {q : Char} (h : q ∉ cs) : openQuote (some q) cs = some q := by
  induction cs with
  | nil => rfl
  | cons c cs ih =>
    obtain ⟨hc, hcs⟩ : q ≠ c ∧ q ∉ cs := by simpa using h
    have hnext : nextQuote (some q) c = some q := by simp [nextQuote, Ne.symm hc]
    rw [openQuote, List.foldl_cons, hnext]
    exact ih hcs

theorem openQuote_of_quoted {q : Char} {body : List Char} (hquote : isQuote q = true)
    (hbody : q ∉ body) : openQuote none (q :: (body ++ [q])) = none := by
  have hfirst : nextQuote none q = some q := by simp [nextQuote, hquote]
  rw [openQuote, List.foldl_cons, hfirst]
  change openQuote (some q) (body ++ [q]) = none
  rw [openQuote_append, openQuote_open hbody]
  simp [openQuote, nextQuote]

theorem openQuote_piece {token : Option Token} (h : Piece cs token) : openQuote none cs = none := by
  cases h with
  | blank hc => exact openQuote_unquoted (by simpa using isQuote_of_isBlank hc)
  | @symbol t ht =>
    refine openQuote_unquoted (forall_mem_of_all ?_)
    cases t <;> first | decide | exact absurd rfl ht
  | quoted hquote hbody => exact openQuote_of_quoted hquote hbody
  | number hnumeral =>
    refine openQuote_unquoted fun c hc => ?_
    rcases digit_or_point_of_mem hnumeral hc with hdigit | rfl
    · exact isQuote_of_isWordChar (isWordChar_of_isAsciiDigit hdigit)
    · decide
  | word hword =>
    exact openQuote_unquoted fun c hc => isQuote_of_isWordChar (isWordChar_of_mem hword hc)

/-- Only a quote that is not closed is reported with the line. -/
theorem tokenAt_congr (h : isQuote c = true → c ∈ cs) (raw raw' : List Char) :
    tokenAt raw c cs = tokenAt raw' c cs := by
  by_cases hsign : c ∈ signs
  · simp only [signs, List.mem_cons, List.not_mem_nil, or_false] at hsign
    rcases hsign with rfl | rfl | rfl | rfl | rfl | rfl | rfl | rfl | rfl | rfl | rfl <;> rfl
  · rw [tokenAt_of_not_sign hsign, tokenAt_of_not_sign hsign]
    by_cases hquote : c = '"' ∨ c = '\''
    · have hmem : cs.contains c = true := by simpa using h (by simpa [isQuote] using hquote)
      simp only [hmem, if_true]
    · simp only [if_neg hquote]

/-- Text whose quotes are closed is lexed alike wherever it stands. -/
theorem lineTokens_congr (h : openQuote none cs = none) (raw raw' : List Char) :
    lineTokens raw 0 cs = lineTokens raw' 0 cs := by
  generalize hn : cs.length = n
  induction n using Nat.strongRecOn generalizing cs with
  | ind n ih =>
    cases cs with
    | nil => rfl
    | cons c cs =>
      have hclosed : isQuote c = true → c ∈ cs := by
        intro hquote
        by_contra hm
        have hfirst : nextQuote none c = some c := by simp [nextQuote, hquote]
        have hrest := openQuote_open hm
        rw [openQuote, List.foldl_cons, hfirst] at h
        rw [openQuote, h] at hrest
        cases hrest
      rw [lineTokens_cons, lineTokens_cons, tokenAt_congr hclosed raw raw']
      cases htoken : tokenAt raw' c cs with
      | error fault => rfl
      | ok found =>
        obtain ⟨token, k⟩ := found
        obtain ⟨hpiece, hk⟩ := piece_of_tokenAt htoken
        have hsplit : c :: cs = (c :: cs.take k) ++ cs.drop k := by simp
        have hrest : openQuote none (cs.drop k) = none := by
          rw [hsplit, openQuote_append, openQuote_piece hpiece] at h
          exact h
        change ((lineTokens raw 0 (cs.drop k)).map _) = ((lineTokens raw' 0 (cs.drop k)).map _)
        rw [ih _ (by simp at hn ⊢; omega) hrest rfl]

/-! Cutting a remark off. -/

theorem openQuote_blanks (h : ∀ c ∈ cs, isBlank c = true)
    (hquote : ∀ q ∈ quote, isQuote q = true) : openQuote quote cs = quote := by
  cases quote with
  | none => exact openQuote_unquoted fun c hc => isQuote_of_isBlank (h c hc)
  | some q =>
    refine openQuote_open fun hm => ?_
    have hq := hquote q rfl
    rw [isQuote_of_isBlank (h q hm)] at hq
    cases hq

theorem isQuote_of_openQuote (h : ∀ q ∈ quote, isQuote q = true) :
    ∀ q ∈ openQuote quote cs, isQuote q = true := by
  induction cs generalizing quote with
  | nil => exact h
  | cons c cs ih =>
    rw [openQuote, List.foldl_cons]
    refine ih fun q hq => ?_
    cases quote with
    | some p =>
      by_cases hc : c = p
      · simp [nextQuote, hc] at hq
      · simp only [nextQuote, if_neg hc] at hq
        exact h q hq
    | none =>
      by_cases hc : isQuote c = true
      · simp only [nextQuote, if_pos hc] at hq
        rw [← Option.some.inj hq]
        exact hc
      · simp [nextQuote, hc] at hq

theorem openQuote_trim (h : openQuote none cs = none) : openQuote none (trim cs) = none := by
  obtain ⟨after, hafter, hend⟩ := exists_trimEnd_append (trimStart cs)
  have hsplit : cs = cs.takeWhile isBlank ++ (trim cs ++ after) := by
    rw [trim, ← hend, trimStart, List.takeWhile_append_dropWhile]
  have hbefore : openQuote none (cs.takeWhile isBlank) = none :=
    openQuote_blanks (fun _ hc => List.mem_takeWhile_imp hc) (by simp)
  rw [hsplit, openQuote_append, hbefore, openQuote_append,
    openQuote_blanks hafter (isQuote_of_openQuote (by simp))] at h
  exact h

theorem cutComment_cons_none (c : Char) (cs : List Char) : cutComment none (c :: cs) =
    if c = '#' ∨ c = '/' ∧ cs.head? = some '/' then []
    else c :: cutComment (nextQuote none c) cs := by
  rw [cutComment]
  simp [nextQuote, isQuote]

theorem cutComment_cons_some (q c : Char) (cs : List Char) :
    cutComment (some q) (c :: cs) = c :: cutComment (nextQuote (some q) c) cs := by
  rw [cutComment]
  rfl

/-- A comment that begins in a text goes on to the end of the line. -/
theorem cutComment_append (hys : ys.head? ≠ some '/') : cutComment quote (xs ++ ys) =
    if cutComment quote xs = xs then xs ++ cutComment (openQuote quote xs) ys
    else cutComment quote xs := by
  induction xs generalizing quote with
  | nil => rfl
  | cons c xs ih =>
    have hstep : ∀ next, c :: cutComment next (xs ++ ys) =
        if c :: cutComment next xs = c :: xs then c :: (xs ++ cutComment (openQuote next xs) ys)
        else c :: cutComment next xs := by
      intro next
      rw [ih]
      by_cases hcut : cutComment next xs = xs
      · rw [if_pos hcut, if_pos (congrArg (c :: ·) hcut)]
      · rw [if_neg hcut, if_neg fun he => hcut (List.cons.inj he).2]
    cases quote with
    | some q => rw [List.cons_append, cutComment_cons_some, cutComment_cons_some, hstep]; rfl
    | none =>
      have hhead : (xs ++ ys).head? = some '/' ↔ xs.head? = some '/' := by
        cases xs with
        | nil => exact ⟨fun he => absurd he hys, nofun⟩
        | cons d xs => rfl
      rw [List.cons_append, cutComment_cons_none, cutComment_cons_none]
      simp only [hhead]
      by_cases hcomment : c = '#' ∨ c = '/' ∧ xs.head? = some '/'
      · rw [if_pos hcomment, if_pos hcomment, if_neg nofun]
      · rw [if_neg hcomment, if_neg hcomment, hstep]
        rfl

theorem cutComment_note (h : isCommentOnly note = true) : cutComment none note = [] := by
  unfold isCommentOnly at h
  split at h
  · rfl
  · rfl
  · cases h

theorem cutComment_blanks_append (hgap : ∀ c ∈ gap, isBlank c = true) (cs : List Char) :
    cutComment none (gap ++ cs) = gap ++ cutComment none cs := by
  induction gap with
  | nil => rfl
  | cons c gap ih =>
    have hc := hgap c List.mem_cons_self
    have hplain : c ≠ '#' ∧ c ≠ '/' :=
      ⟨fun he => absurd (he ▸ hc) (by decide), fun he => absurd (he ▸ hc) (by decide)⟩
    rw [List.cons_append, cutComment_cons_none, if_neg (by simp [hplain]), nextQuote,
      if_neg (by simp [isQuote_of_isBlank hc]), ih fun d hd => hgap d (List.mem_cons_of_mem c hd)]
    rfl

/-- A remark behind closed quotes leaves a line as it was. -/
theorem trim_cutComment_append (hclosed : openQuote none (cutComment none raw) = none)
    (hne : gap ≠ []) (hgap : ∀ c ∈ gap, isBlank c = true) (hnote : isCommentOnly note = true) :
    trim (cutComment none (raw ++ (gap ++ note))) = trim (cutComment none raw) := by
  have hhead : (gap ++ note).head? ≠ some '/' := by
    rw [List.head?_append_of_ne_nil _ hne]
    exact fun he => absurd (hgap _ (List.mem_of_head? he)) (by decide)
  rw [cutComment_append hhead]
  by_cases hcut : cutComment none raw = raw
  · rw [hcut] at hclosed
    rw [if_pos hcut, hcut, hclosed, cutComment_blanks_append hgap, cutComment_note hnote,
      List.append_nil, trim_append_blanks hgap]
  · rw [if_neg hcut]

/-! Lines. -/

/-- What one line adds to the tokens, and the blocks that are open behind it. -/
def lexLine (depths : Depths) (raw : List Char) : Except LexFault (List Token × Depths) :=
  match trim (cutComment none raw) with
  | [] => .ok ([], depths)
  | body =>
    match relayout (raw.takeWhile (· = ' ')).length depths with
    | none => .error .inconsistentIndentation
    | some (layout, depths) =>
      (lineTokens raw 0 body).map fun tokens => (layout ++ tokens ++ [.newline], depths)

theorem lexemesFrom_cons (depths : Depths) (last n : Nat) (raw : List Char)
    (rest : List (Nat × List Char)) : lexemesFrom depths last ((n, raw) :: rest) =
      ((lexLine depths raw).mapError (.lex n)).bind fun added =>
        (lexemesFrom added.2 n rest).map fun more => added.1.map (⟨·, n⟩) ++ more := by
  rw [lexemesFrom, lexLine]
  cases trim (cutComment none raw) with
  | nil =>
    change lexemesFrom depths n rest = (lexemesFrom depths n rest).map id
    cases lexemesFrom depths n rest <;> rfl
  | cons c body =>
    dsimp only
    cases relayout (raw.takeWhile (· = ' ')).length depths with
    | none => rfl
    | some found =>
      obtain ⟨layout, depths'⟩ := found
      cases lineTokens raw 0 (c :: body) with
      | error fault => rfl
      | ok tokens =>
        change (lexemesFrom depths' n rest).bind _ = (lexemesFrom depths' n rest).map _
        cases lexemesFrom depths' n rest <;> rfl

theorem lexLine_remark (h : trimStart raw = [] ∨ isCommentOnly (trimStart raw) = true)
    (depths : Depths) : lexLine depths raw = .ok ([], depths) := by
  have hblanks : ∀ c ∈ raw.takeWhile isBlank, isBlank c = true :=
    fun _ hc => List.mem_takeWhile_imp hc
  have hsplit : raw = raw.takeWhile isBlank ++ trimStart raw :=
    (List.takeWhile_append_dropWhile ..).symm
  have hnothing : cutComment none (trimStart raw) = [] := by
    rcases h with hnil | hnote
    · rw [hnil]
      rfl
    · exact cutComment_note hnote
  have hbody : trim (cutComment none raw) = [] := by
    rw [hsplit, cutComment_blanks_append hblanks, hnothing, List.append_nil]
    exact trim_append_blanks hblanks []
  rw [lexLine, hbody]

theorem lexLine_note (hclosed : openQuote none (cutComment none raw) = none)
    (hne : gap ≠ []) (hgap : ∀ c ∈ gap, isBlank c = true) (hnote : isCommentOnly note = true)
    (depths : Depths) : lexLine depths (raw ++ (gap ++ note)) = lexLine depths raw := by
  have hquotes := openQuote_trim hclosed
  rw [lexLine, lexLine, trim_cutComment_append hclosed hne hgap hnote]
  cases hbody : trim (cutComment none raw) with
  | nil => rfl
  | cons c body =>
    have hc : isBlank c = false := isBlank_of_head?_trim (by rw [hbody]; rfl)
    have hmem : c ∈ raw := mem_of_mem_cutComment (mem_trim (hbody ▸ List.mem_cons_self))
    have hdepth := takeWhile_append_of_mem (p := (· = ' ')) hmem
      (decide_eq_false fun he => absurd (he ▸ hc) (by decide)) (gap ++ note)
    rw [hbody] at hquotes
    dsimp only
    rw [hdepth, lineTokens_congr hquotes (raw ++ (gap ++ note)) raw]

/-! Scripts. -/

def tokensFrom (depths : Depths) : List (List Char) → Except ScriptError (List Lexeme)
  | [] => .ok ((depths.map fun _ => ⟨.dedent, 0⟩) ++ [⟨.eof, 0⟩])
  | raw :: rest =>
    ((lexLine depths raw).mapError (.lex 0)).bind fun added =>
      (tokensFrom added.2 rest).map fun more => added.1.map (⟨·, 0⟩) ++ more

theorem lexemesFrom_unlined (depths : Depths) (last n : Nat) (ls : List (List Char)) :
    erased (List.map Lexeme.unlined) (lexemesFrom depths last (numbered n ls)) =
      tokensFrom depths ls := by
  induction ls generalizing depths last n with
  | nil => simp [numbered, lexemesFrom, tokensFrom, erased, Except.map, Except.mapError,
      Lexeme.unlined]
  | cons raw ls ih =>
    rw [numbered, lexemesFrom_cons, tokensFrom]
    cases lexLine depths raw with
    | error fault => rfl
    | ok added =>
      change erased _ ((lexemesFrom added.2 n (numbered (n + 1) ls)).map _) =
        (tokensFrom added.2 ls).map _
      rw [← ih added.2 n (n + 1)]
      cases lexemesFrom added.2 n (numbered (n + 1) ls) with
      | error e => rfl
      | ok more => simp [erased, Except.map, Except.mapError, Lexeme.unlined, Function.comp_def]

theorem read_unlined (source : List Char) : erased allUnlined (Program.read source) =
    (tokensFrom [] (lines source)).bind Program.ofLexemes := by
  rw [← lexemesFrom_unlined [] 0 1]
  exact (erased_bind ofLexemes_unlined).symm

theorem tokensFrom_insert {line : List Char}
    (h : trimStart line = [] ∨ isCommentOnly (trimStart line) = true) (depths : Depths)
    (before after : List (List Char)) :
    tokensFrom depths (before ++ line :: after) = tokensFrom depths (before ++ after) := by
  induction before generalizing depths with
  | nil =>
    rw [List.nil_append, List.nil_append, tokensFrom, lexLine_remark h]
    change (tokensFrom depths after).map id = tokensFrom depths after
    cases tokensFrom depths after <;> rfl
  | cons raw before ih =>
    rw [List.cons_append, List.cons_append, tokensFrom, tokensFrom]
    simp only [ih]

theorem lexemesFrom_replace (h : ∀ depths, lexLine depths raw' = lexLine depths raw)
    (depths : Depths) (last n : Nat) (before after : List (List Char)) :
    lexemesFrom depths last (numbered n (before ++ raw' :: after)) =
      lexemesFrom depths last (numbered n (before ++ raw :: after)) := by
  induction before generalizing depths last n with
  | nil =>
    rw [List.nil_append, List.nil_append, numbered, numbered, lexemesFrom_cons, lexemesFrom_cons,
      h]
  | cons first before ih =>
    rw [List.cons_append, List.cons_append, numbered, numbered, lexemesFrom_cons, lexemesFrom_cons]
    simp only [ih]

/-- Remarks are invisible. A line more that is blank or holds a comment only, wherever it stands and
however far it is indented, leaves a script the program it was, or the error, but for line numbers.
A comment behind a line whose quotes are closed changes nothing at all. -/
theorem remarks_invisible {source source' : List Char} {before after : List (List Char)}
    {line : List Char} (hlines : lines source' = before ++ line :: after) :
    (lines source = before ++ after → trimStart line = [] ∨ isCommentOnly (trimStart line) = true →
      erased allUnlined (Program.read source') = erased allUnlined (Program.read source)) ∧
    ∀ raw gap note, lines source = before ++ raw :: after → line = raw ++ gap ++ note →
      openQuote none (cutComment none raw) = none → gap ≠ [] → (∀ c ∈ gap, isBlank c = true) →
      isCommentOnly note = true → Program.read source' = Program.read source := by
  refine ⟨fun hsource hremark => ?_, fun raw gap note hsource hline hclosed hne hgap hnote => ?_⟩
  · rw [read_unlined, read_unlined, hlines, hsource, tokensFrom_insert hremark]
  · have hsame : lexemes source' = lexemes source := by
      rw [lexemes, lexemes, hlines, hsource, hline, List.append_assoc]
      exact lexemesFrom_replace (lexLine_note hclosed hne hgap hnote) [] 0 1 before after
    rw [Program.read, Program.read, hsame]

def plain : List (List Char) := ["if ready:", "    log \"a # b\"", "yield '/bow'"].map String.toList

def remarked : List (List Char) :=
  ["if ready:", "  // it's", "    log \"a # b\"", "yield '/bow'"].map String.toList

def noted : List (List Char) :=
  ["if ready:", "    log \"a # b\" \t# it's", "yield '/bow'"].map String.toList

theorem remarks_invisible_block : (Program.read (unlines plain)).isOk = true ∧
    erased allUnlined (Program.read (unlines remarked)) =
      erased allUnlined (Program.read (unlines plain)) ∧
    Program.read (unlines noted) = Program.read (unlines plain) := by
  have hplain : lines (unlines plain) = plain := by decide +kernel
  have hremarked : lines (unlines remarked) = remarked := by decide +kernel
  have hnoted : lines (unlines noted) = noted := by decide +kernel
  have hremark : trimStart "  // it's".toList = [] ∨
      isCommentOnly (trimStart "  // it's".toList) = true := .inr rfl
  have hclosed : openQuote none (cutComment none "    log \"a # b\"".toList) = none := by decide
  have hline : lines (unlines remarked) =
      ["if ready:".toList] ++ "  // it's".toList :: plain.drop 1 := hremarked
  have hbehind : lines (unlines noted) =
      ["if ready:".toList] ++ "    log \"a # b\" \t# it's".toList :: plain.drop 2 := hnoted
  refine ⟨by decide +kernel, ?_, ?_⟩
  · exact (remarks_invisible hline).1 hplain hremark
  · exact (remarks_invisible hbehind).2 _ " \t".toList "# it's".toList
      hplain (by decide) hclosed (by decide) (forall_mem_of_all (by decide)) rfl

end MacroEngine.Script
