import MacroEngine.Proofs.OffendingTokens
import MacroEngine.Proofs.SourceLines

/-! The line numbers of a script. The program has them for what it yields and repeats, and every
error names one. They are those of the lines that the script is read from, and so those of the
source as long as no block stands on one line. -/
namespace MacroEngine.Script
open Text

def Token.isLayout : Token → Bool
  | .newline | .indent | .dedent | .eof => true
  | _ => false

def textTokens (raw : List Char) : List Token :=
  (lineTokens raw 0 (trim (cutComment none raw))).toOption.getD []

def LexFault.isIn (raw : List Char) : LexFault → Prop
  | .inconsistentIndentation => raw.head? = some ' '
  | .missingQuote line => line = String.ofList raw
  | .unexpectedChar c => c ∈ raw

variable {raw cs : List Char} {c : Char} {fault : LexFault} {depths : Depths} {n last : Nat}
  {ts : List Lexeme} {ls : List (Nat × List Char)}

/-! One line. -/

theorem isLayout_of_piece {t : Token} (h : Piece cs (some t)) : t.isLayout = false := by
  generalize hsome : some t = token at h
  cases h with
  | blank _ => cases hsome
  | symbol hsymbol =>
    cases hsome
    cases t <;> first | rfl | exact absurd rfl hsymbol
  | quoted _ _ | number _ =>
    cases hsome
    rfl
  | word _ =>
    cases hsome
    rcases ofWord_cases cs with hkeyword | hident
    · cases ht : Token.ofWord cs <;> first | rfl | (rw [ht] at hkeyword; exact absurd rfl hkeyword)
    · rw [hident]
      rfl

theorem isLayout_of_pieces {tokens : List Token} (h : Pieces cs tokens) :
    ∀ t ∈ tokens, t.isLayout = false := by
  induction h with
  | nil => exact List.forall_mem_nil _
  | @cons piece rest token tokens hpiece _ ih =>
    cases token with
    | none => exact ih
    | some t => exact List.forall_mem_cons.mpr ⟨isLayout_of_piece hpiece, ih⟩

theorem isLayout_textTokens (raw : List Char) : ∀ t ∈ textTokens raw, t.isLayout = false := by
  unfold textTokens
  cases h : lineTokens raw 0 (trim (cutComment none raw)) with
  | error fault => exact List.forall_mem_nil _
  | ok tokens => exact isLayout_of_pieces (pieces_of_lineTokens h)

theorem fault_of_tokenAt (h : tokenAt raw c cs = .error fault) :
    fault = .missingQuote (String.ofList raw) ∨ fault = .unexpectedChar c := by
  by_cases hsign : c ∈ signs
  · simp only [signs, List.mem_cons, List.not_mem_nil, or_false] at hsign
    rcases hsign with rfl | rfl | rfl | rfl | rfl | rfl | rfl | rfl | rfl | rfl | rfl <;> cases h
  · rw [tokenAt_of_not_sign hsign] at h
    split at h
    · cases h
    split at h
    · split at h
      · cases h
      · cases h
        exact .inl rfl
    split at h
    · cases h
    split at h
    · cases h
    split at h
    · cases h
    · cases h
      exact .inr rfl

theorem fault_of_lineTokens (h : lineTokens raw 0 cs = .error fault) :
    fault = .missingQuote (String.ofList raw) ∨ ∃ c ∈ cs, fault = .unexpectedChar c := by
  generalize hn : cs.length = n
  induction n using Nat.strongRecOn generalizing cs with
  | ind n ih =>
    cases cs with
    | nil => cases h
    | cons c cs =>
      rw [lineTokens_cons] at h
      cases htoken : tokenAt raw c cs with
      | error fault' =>
        rw [htoken] at h
        cases h
        exact (fault_of_tokenAt htoken).imp_right fun he => ⟨c, List.mem_cons_self, he⟩
      | ok found =>
        obtain ⟨token, k⟩ := found
        rw [htoken] at h
        have hrest : lineTokens raw 0 (cs.drop k) = .error fault := by
          cases hmore : lineTokens raw 0 (cs.drop k) with
          | error fault' => simpa [Except.bind, Except.map, hmore] using h
          | ok tokens => simp [Except.bind, Except.map, hmore] at h
        have hshorter : (cs.drop k).length < n := by
          rw [← hn, List.length_drop, List.length_cons]
          omega
        refine (ih _ hshorter hrest rfl).imp_right ?_
        rintro ⟨d, hd, he⟩
        exact ⟨d, List.mem_cons_of_mem _ (List.mem_of_mem_drop hd), he⟩

theorem closeTo_zero (depths : Depths) : (relayout.closeTo 0 depths).isSome = true := by
  induction depths with
  | nil => rfl
  | cons top outer ih =>
    rw [relayout.closeTo]
    split
    · simpa using ih
    · rw [if_pos (by omega)]
      rfl

theorem relayout_zero (depths : Depths) : (relayout 0 depths).isSome = true := by
  cases depths with
  | nil => rfl
  | cons top outer =>
    rw [relayout]
    split
    · rfl
    · split
      · rfl
      · exact closeTo_zero _

theorem head?_of_relayout_none {raw : List Char}
    (h : relayout (raw.takeWhile (· = ' ')).length depths = none) : raw.head? = some ' ' := by
  have hzero : ¬ (raw.takeWhile (· = ' ')).length = 0 := fun he => by
    have hsome := relayout_zero depths
    rw [← he, h] at hsome
    cases hsome
  cases raw with
  | nil => exact absurd rfl hzero
  | cons c raw =>
    by_cases hc : c = ' '
    · rw [hc]
      rfl
    · exact absurd (by rw [List.takeWhile_cons_of_neg (by simpa using hc)]; rfl) hzero

theorem isLayout_of_relayout {depths' : Depths} {layout : List Token}
    (h : relayout n depths = some (layout, depths')) :
    ∀ t ∈ layout, t.isLayout = true ∧ t ≠ .eof := by
  intro t ht
  rcases relayout_tokens h with rfl | hdedents
  · rw [List.mem_singleton.mp ht]
    exact ⟨rfl, by decide⟩
  · rw [hdedents t ht]
    exact ⟨rfl, by decide⟩

/-- What the lexer can do with one line, whatever is on the lines behind it. -/
inductive LineLexed (depths : Depths) (n : Nat) (raw : List Char) : Prop where
  | empty : textTokens raw = [] →
      (∀ last rest, lexemesFrom depths last ((n, raw) :: rest) = lexemesFrom depths n rest) →
      LineLexed depths n raw
  | fails (fault : LexFault) : fault.isIn raw →
      (∀ last rest, lexemesFrom depths last ((n, raw) :: rest) = .error (.lex n fault)) →
      LineLexed depths n raw
  | tokens (layout : List Token) (depths' : Depths) : (∀ t ∈ layout, t.isLayout = true ∧ t ≠ .eof) →
      (∀ last rest, lexemesFrom depths last ((n, raw) :: rest) = (lexemesFrom depths' n rest).map
        ((layout ++ textTokens raw ++ [Token.newline]).map (⟨·, n⟩) ++ ·)) →
      LineLexed depths n raw

theorem lineLexed (depths : Depths) (n : Nat) (raw : List Char) : LineLexed depths n raw := by
  cases hbody : trim (cutComment none raw) with
  | nil =>
    refine .empty (by rw [textTokens, hbody]; rfl) fun last rest => ?_
    rw [lexemesFrom, hbody]
  | cons c body =>
    have hmem {d : Char} (hd : d ∈ c :: body) : d ∈ raw :=
      mem_of_mem_cutComment (mem_trim (hbody ▸ hd))
    cases hlayout : relayout (raw.takeWhile (· = ' ')).length depths with
    | none =>
      refine .fails .inconsistentIndentation (head?_of_relayout_none hlayout) fun last rest => ?_
      rw [lexemesFrom, hbody]
      dsimp only
      rw [hlayout]
      rfl
    | some found =>
      obtain ⟨layout, depths'⟩ := found
      cases htokens : lineTokens raw 0 (c :: body) with
      | error fault =>
        refine .fails fault ?_ fun last rest => ?_
        · rcases fault_of_lineTokens htokens with rfl | ⟨d, hd, rfl⟩
          · rfl
          · exact hmem hd
        · rw [lexemesFrom, hbody]
          dsimp only
          rw [hlayout, htokens]
          rfl
      | ok tokens =>
        refine .tokens layout depths' (isLayout_of_relayout hlayout) fun last rest => ?_
        rw [lexemesFrom, hbody]
        dsimp only
        rw [hlayout, htokens, textTokens, hbody, htokens]
        dsimp only [bind, Except.bind, Except.mapError]
        cases lexemesFrom depths' n rest <;> rfl

/-! All lines. -/

def proper (ts : List Lexeme) : List Lexeme := ts.filter fun t => !t.token.isLayout

def lineLexemes (line : Nat × List Char) : List Lexeme := (textTokens line.2).map (⟨·, line.1⟩)

theorem proper_append (ts us : List Lexeme) : proper (ts ++ us) = proper ts ++ proper us :=
  List.filter_append ..

theorem proper_of_layout (h : ∀ t ∈ ts, t.token.isLayout = true) : proper ts = [] :=
  List.filter_eq_nil_iff.mpr fun t ht => by simp [h t ht]

theorem proper_lineLexemes (line : Nat × List Char) : proper (lineLexemes line) = lineLexemes line := by
  refine List.filter_eq_self.mpr fun t ht => ?_
  obtain ⟨token, hm, rfl⟩ := List.mem_map.mp ht
  simp [isLayout_textTokens line.2 token hm]

theorem proper_group {layout : List Token} (h : ∀ t ∈ layout, t.isLayout = true ∧ t ≠ .eof) (n : Nat)
    (raw : List Char) : proper ((layout ++ textTokens raw ++ [Token.newline]).map (⟨·, n⟩)) =
      lineLexemes (n, raw) := by
  have hlayout : proper (layout.map (⟨·, n⟩)) = [] := proper_of_layout fun t ht => by
    obtain ⟨token, hm, rfl⟩ := List.mem_map.mp ht
    exact (h token hm).1
  rw [List.map_append, List.map_append, proper_append, proper_append, hlayout]
  change [] ++ proper (lineLexemes (n, raw)) ++ [] = _
  rw [proper_lineLexemes, List.append_nil, List.nil_append]

theorem mem_closing {t : Lexeme}
    (h : t ∈ (depths.map fun _ => (⟨.dedent, last⟩ : Lexeme)) ++ [⟨.eof, last⟩]) :
    t.line = last ∧ t.token.isLayout = true := by
  rcases List.mem_append.mp h with h | h
  · obtain ⟨_, -, rfl⟩ := List.mem_map.mp h
    exact ⟨rfl, rfl⟩
  · rw [List.mem_singleton.mp h]
    exact ⟨rfl, rfl⟩

theorem mem_group {layout : List Token} (hlayout : ∀ t ∈ layout, t.isLayout = true ∧ t ≠ .eof)
    {raw : List Char} {t : Lexeme}
    (h : t ∈ (layout ++ textTokens raw ++ [Token.newline]).map (⟨·, n⟩ : Token → Lexeme)) :
    t.line = n ∧ t.token ≠ .eof := by
  obtain ⟨token, hm, rfl⟩ := List.mem_map.mp h
  refine ⟨rfl, ?_⟩
  rcases List.mem_append.mp hm with hm | hm
  · rcases List.mem_append.mp hm with hm | hm
    · exact (hlayout token hm).2
    · rintro rfl
      exact absurd (isLayout_textTokens raw _ hm) (by decide)
  · rw [List.mem_singleton.mp hm]
    nofun

theorem proper_lexemesFrom (h : lexemesFrom depths last ls = .ok ts) :
    proper ts = ls.flatMap lineLexemes := by
  induction ls generalizing depths last ts with
  | nil =>
    cases h
    exact proper_of_layout fun t ht => (mem_closing ht).2
  | cons line ls ih =>
    obtain ⟨n, raw⟩ := line
    rw [List.flatMap_cons]
    cases lineLexed depths n raw with
    | empty htokens hstep =>
      rw [hstep] at h
      rw [ih h, lineLexemes, htokens]
      rfl
    | fails fault _ hstep =>
      rw [hstep] at h
      cases h
    | tokens layout depths' hlayout hstep =>
      rw [hstep] at h
      obtain ⟨more, hmore, rfl⟩ := map_eq_ok.mp h
      rw [proper_append, proper_group hlayout, ih hmore]

theorem isChain_of_line (h : ∀ t ∈ ts, t.line = n) :
    ts.IsChain fun a b => a.token = .newline ∨ a.line = b.line :=
  (List.pairwise_iff_forall_sublist.mpr fun {a b} hab => .inr (by
    rw [h a (hab.subset (by simp)), h b (hab.subset (by simp))])).isChain

/-- The stream ends with its only end token, and only a line end is followed by another line. -/
theorem lined_of_lexemesFrom (h : lexemesFrom depths last ls = .ok ts) :
    Lined ts ∧ ∃ used line, ts = used ++ [⟨.eof, line⟩] ∧ ∀ t ∈ used, t.token ≠ .eof := by
  induction ls generalizing depths last ts with
  | nil =>
    cases h
    refine ⟨⟨⟨⟨.eof, last⟩, by simp, rfl⟩, isChain_of_line fun t ht => (mem_closing ht).1⟩, _, last,
      rfl, fun t ht => ?_⟩
    obtain ⟨_, -, rfl⟩ := List.mem_map.mp ht
    nofun
  | cons line ls ih =>
    obtain ⟨n, raw⟩ := line
    cases lineLexed depths n raw with
    | empty htokens hstep =>
      rw [hstep] at h
      exact ih h
    | fails fault _ hstep =>
      rw [hstep] at h
      cases h
    | tokens layout depths' hlayout hstep =>
      rw [hstep] at h
      obtain ⟨more, hmore, rfl⟩ := map_eq_ok.mp h
      obtain ⟨hlined, used, line, rfl, hused⟩ := ih hmore
      refine ⟨⟨?_, ?_⟩, _, line, (List.append_assoc ..).symm,
        List.forall_mem_append.mpr ⟨fun t ht => (mem_group hlayout ht).2, hused⟩⟩
      · obtain ⟨t, hm, he⟩ := hlined.ended
        exact ⟨t, List.mem_append_right _ hm, he⟩
      · refine List.isChain_append.mpr
          ⟨isChain_of_line fun t ht => (mem_group hlayout ht).1, hlined.chained, ?_⟩
        intro a ha b _
        rw [List.map_append, List.map_singleton, List.getLast?_concat] at ha
        rw [← Option.some.inj ha]
        exact .inl rfl

theorem split_append {α : Type} {xs ys us vs : List α} {t : α} (h : xs ++ ys = us ++ t :: vs) :
    (∃ us', us = xs ++ us' ∧ ys = us' ++ t :: vs) ∨ ∃ vs', xs = us ++ t :: vs' := by
  rcases List.append_eq_append_iff.mp h with ⟨us', hus, hys⟩ | ⟨vs', hxs, hvs⟩
  · exact .inl ⟨us', hus, hys⟩
  · cases vs' with
    | nil => exact .inl ⟨[], by rw [hxs, List.append_nil, List.append_nil], hvs.symm⟩
    | cons t' vs' =>
      obtain ⟨rfl, -⟩ := List.cons.inj hvs
      exact .inr ⟨vs', hxs⟩

/-- Where a lexeme of the stream comes from: it has the number of a line, and what was lexed up to it
are the tokens of the lines before and some of that line. Without lines there is only the end. -/
theorem exists_line {used rest : List Lexeme} {t : Lexeme}
    (h : lexemesFrom depths last ls = .ok (used ++ t :: rest)) :
    (∃ earlier line later taken, ls = earlier ++ line :: later ∧ t.line = line.1 ∧
      taken <+: textTokens line.2 ∧
      proper (used ++ [t]) = earlier.flatMap lineLexemes ++ taken.map (⟨·, line.1⟩)) ∨
    ls = [] ∧ t.line = last ∧ proper (used ++ [t]) = [] := by
  induction ls generalizing depths last used with
  | nil =>
    have hts : (depths.map fun _ => ⟨.dedent, last⟩) ++ [⟨.eof, last⟩] = used ++ t :: rest :=
      Except.ok.inj h
    have hall : ∀ t' ∈ used ++ t :: rest, t'.line = last ∧ t'.token.isLayout = true :=
      fun t' ht' => mem_closing (hts ▸ ht')
    refine .inr ⟨rfl, (hall t (by simp)).1, proper_of_layout fun t' ht' => (hall t' ?_).2⟩
    rw [List.append_cons]
    exact List.mem_append_left _ ht'
  | cons line ls ih =>
    obtain ⟨n, raw⟩ := line
    refine .inl ?_
    cases lineLexed depths n raw with
    | empty htokens hstep =>
      rw [hstep] at h
      rcases ih h with ⟨earlier, line, later, taken, rfl, hline, htaken, hproper⟩ | ⟨rfl, hline, hproper⟩
      · refine ⟨(n, raw) :: earlier, line, later, taken, rfl, hline, htaken, ?_⟩
        rw [hproper, List.flatMap_cons, lineLexemes, htokens]
        rfl
      · exact ⟨[], (n, raw), [], [], rfl, hline, List.nil_prefix, hproper⟩
    | fails fault _ hstep =>
      rw [hstep] at h
      cases h
    | tokens layout depths' hlayout hstep =>
      rw [hstep] at h
      obtain ⟨more, hmore, hts⟩ := map_eq_ok.mp h
      generalize hgroup : (layout ++ textTokens raw ++ [Token.newline]).map (⟨·, n⟩ : Token → Lexeme)
        = group at hts
      have hproper : proper group = (textTokens raw).map (⟨·, n⟩) :=
        hgroup ▸ proper_group hlayout n raw
      -- the lexeme is one of this line, or it comes after all of them
      rcases split_append hts with ⟨used', rfl, rfl⟩ | ⟨tail, hgroup'⟩
      · rcases ih hmore with ⟨earlier, line, later, taken, rfl, hline, htaken, hmore⟩ |
          ⟨rfl, hline, hmore⟩
        · refine ⟨(n, raw) :: earlier, line, later, taken, rfl, hline, htaken, ?_⟩
          rw [List.append_assoc, proper_append, hmore, hproper, List.flatMap_cons, List.append_assoc]
          rfl
        · refine ⟨[], (n, raw), [], textTokens raw, rfl, hline, List.prefix_refl _, ?_⟩
          rw [List.append_assoc, proper_append, hmore, hproper, List.append_nil]
          rfl
      · have hsplit : group = (used ++ [t]) ++ tail := hgroup'.trans (List.append_cons ..)
        have hprefix : proper (used ++ [t]) <+: (textTokens raw).map (⟨·, n⟩) := by
          rw [← hproper, hsplit, proper_append (used ++ [t])]
          exact List.prefix_append _ _
        obtain ⟨taken, htaken, heq⟩ := List.prefix_map_iff.mp hprefix
        refine ⟨[], (n, raw), ls, taken, rfl, ?_, htaken, heq⟩
        have hm : t ∈ group := hgroup' ▸ by simp
        exact (mem_group hlayout (hgroup ▸ hm)).1

/-- The first line that cannot be lexed: all before it are, and with it no script is. -/
theorem exists_fault {e : ScriptError} (h : lexemesFrom depths last ls = .error e) :
    ∃ earlier line later fault, ls = earlier ++ line :: later ∧ e = .lex line.1 fault ∧
      fault.isIn line.2 ∧ (∃ ts, lexemesFrom depths last earlier = .ok ts) ∧
      ∀ more, lexemesFrom depths last (earlier ++ line :: more) = .error e := by
  induction ls generalizing depths last with
  | nil => cases h
  | cons line ls ih =>
    obtain ⟨n, raw⟩ := line
    cases lineLexed depths n raw with
    | empty _ hstep =>
      rw [hstep] at h
      obtain ⟨earlier, line, later, fault, rfl, he, hin, ⟨ts, hts⟩, hmore⟩ := ih h
      exact ⟨(n, raw) :: earlier, line, later, fault, rfl, he, hin, ⟨ts, by rw [hstep, hts]⟩,
        fun more => (hstep ..).trans (hmore more)⟩
    | fails fault hin hstep =>
      rw [hstep] at h
      cases h
      exact ⟨[], (n, raw), ls, fault, rfl, rfl, hin, ⟨_, rfl⟩, fun more => hstep ..⟩
    | tokens layout depths' _ hstep =>
      rw [hstep] at h
      have hfails : lexemesFrom depths' n ls = .error e := by
        cases hls : lexemesFrom depths' n ls with
        | error e' => rw [hls] at h; cases h; rfl
        | ok ts => rw [hls] at h; cases h
      obtain ⟨earlier, line, later, fault, rfl, he, hin, ⟨ts, hts⟩, hmore⟩ := ih hfails
      refine ⟨(n, raw) :: earlier, line, later, fault, rfl, he, hin,
        ⟨_, (hstep ..).trans (congrArg (Except.map _) hts)⟩, fun more => ?_⟩
      rw [List.cons_append, hstep, hmore]
      rfl

/-! The lines that a program keeps. -/

def Token.keepsLine : Token → Bool
  | .yieldWord | .repeatWord => true
  | _ => false

mutual
/-- The words of a statement whose lines it keeps, with these lines, in the order of the text. -/
def Stmt.marks : Stmt → List Lexeme
  | .yield line _ => [⟨.yieldWord, line⟩]
  | .log _ | .assign _ _ | .ask _ _ => []
  | .branch _ body elifs none => allMarks body ++ elifsMarks elifs
  | .branch _ body elifs (some otherwise) => allMarks body ++ elifsMarks elifs ++ allMarks otherwise
  | .repeated line _ body => ⟨.repeatWord, line⟩ :: allMarks body
def allMarks : List Stmt → List Lexeme
  | [] => []
  | s :: rest => s.marks ++ allMarks rest
def elifsMarks : List (Expr × List Stmt) → List Lexeme
  | [] => []
  | (_, body) :: rest => allMarks body ++ elifsMarks rest
end

def Item.marks : Item → List Lexeme
  | .stmt s => s.marks
  | .block body | .stmts body | .script body => allMarks body
  | .elifs blocks => elifsMarks blocks

def marked (ts : List Lexeme) : List Lexeme := ts.filter (·.token.keepsLine)

variable {rest : List Lexeme}

theorem marked_append (ts us : List Lexeme) : marked (ts ++ us) = marked ts ++ marked us :=
  List.filter_append ..

theorem marked_proper (ts : List Lexeme) : marked (proper ts) = marked ts := by
  rw [marked, proper, List.filter_filter]
  refine List.filter_congr fun t _ => ?_
  obtain ⟨token, line⟩ := t
  cases token <;> rfl

theorem marked_tail {t : Token} (h : peek ts = t) (ht : t.keepsLine = false) :
    marked ts.tail = marked ts := by
  cases ts with
  | nil => rfl
  | cons first ts =>
    subst h
    exact (List.filter_cons_of_neg (by rw [show first.token.keepsLine = false from ht]; nofun)).symm

theorem marked_word {t : Token} (h : peek ts = t) (ht : t.keepsLine = true) :
    marked ts = ⟨t, lineOf ts⟩ :: marked ts.tail := by
  cases ts with
  | nil =>
    rw [← h] at ht
    cases ht
  | cons first ts =>
    subst h
    exact List.filter_cons_of_pos ht

theorem marked_expression {e : Expr} (h : expression ts = .ok (e, rest)) : marked ts = marked rest := by
  obtain ⟨used, -, htook⟩ := expression_took h
  have hnone : marked used = [] := List.filter_eq_nil_iff.mpr fun t ht hkept => by
    have hpart := htook.parts t ht
    obtain ⟨token, line⟩ := t
    cases token <;> first | exact absurd hkept Bool.false_ne_true | exact absurd hpart Bool.false_ne_true
  rw [htook.split, marked_append, hnone, List.nil_append]

theorem marked_lineEnd {s s' : Stmt} (h : lineEnd s ts = .ok (s', rest)) :
    s' = s ∧ marked ts = marked rest := by
  obtain ⟨rfl, ⟨hpeek, rfl⟩ | ⟨-, rfl⟩⟩ := lineEnd_ok h
  · exact ⟨rfl, (marked_tail hpeek rfl).symm⟩
  · exact ⟨rfl, rfl⟩

theorem marked_assignment {line : Nat} {s : Stmt} (h : assignment line ts = .ok (s, rest)) :
    s.marks = [] ∧ marked ts = marked rest := by
  obtain ⟨name, hname, ⟨value, after, hassign, hexpr, hend⟩ |
    ⟨text, query, hfrom, hgame, hcolon, htext, -, hend⟩⟩ := assignment_ok h
  · obtain ⟨rfl, hafter⟩ := marked_lineEnd hend
    refine ⟨rfl, ?_⟩
    rw [← hafter, ← marked_expression hexpr, marked_tail hassign rfl, marked_tail hname rfl]
  · obtain ⟨rfl, hafter⟩ := marked_lineEnd hend
    refine ⟨rfl, ?_⟩
    rw [← hafter, marked_tail htext rfl, marked_tail hcolon rfl, marked_tail hgame rfl,
      marked_tail hfrom rfl, marked_tail hname rfl]

/-- Every word whose line is kept leaves its line in the program, in the order of the stream. -/
theorem Read.marks {item : Item} (h : Read item ts rest) : marked ts = item.marks ++ marked rest := by
  induction h with
  | yield hpeek hexpr hend =>
    obtain ⟨rfl, hafter⟩ := marked_lineEnd hend
    rw [marked_word hpeek rfl, marked_expression hexpr, hafter]
    rfl
  | log hpeek hexpr hend =>
    obtain ⟨rfl, hafter⟩ := marked_lineEnd hend
    rw [← marked_tail hpeek rfl, marked_expression hexpr, hafter]
    rfl
  | set hpeek hassign =>
    obtain ⟨hnone, hafter⟩ := marked_assignment hassign
    rw [← marked_tail hpeek rfl, hafter, Item.marks, hnone, List.nil_append]
  | branch hpeek hexpr _ _ _ ihBody ihElifs =>
    rw [← marked_tail hpeek rfl, marked_expression hexpr, ihBody, ihElifs]
    simp only [Item.marks, Stmt.marks, List.append_assoc]
  | branchElse hpeek hexpr _ _ helse _ ihBody ihElifs ihElse =>
    rw [← marked_tail hpeek rfl, marked_expression hexpr, ihBody, ihElifs, ← marked_tail helse rfl,
      ihElse]
    simp only [Item.marks, Stmt.marks, List.append_assoc]
  | repeated hpeek hexpr _ ihBody =>
    rw [marked_word hpeek rfl, marked_expression hexpr, ihBody]
    rfl
  | block hopen _ ihBody =>
    obtain ⟨hcolon, hnewline, hindent, rfl⟩ := openBlock_ok hopen
    rw [← marked_tail hcolon rfl, ← marked_tail hnewline rfl, ← marked_tail hindent rfl, ihBody]
    rfl
  | dedent hpeek => exact (marked_tail hpeek rfl).symm
  | «end» _ | noElif _ | scriptEnd _ => rfl
  | emptyLine hpeek _ ih | scriptLine hpeek _ ih => exact (marked_tail hpeek rfl).symm.trans ih
  | next _ _ _ ihStmt ihBody | scriptNext _ _ _ _ ihStmt ihBody =>
    rw [ihStmt, ihBody]
    simp only [Item.marks, allMarks, List.append_assoc]
  | elif hpeek hexpr _ _ ihBody ihElifs =>
    rw [← marked_tail hpeek rfl, marked_expression hexpr, ihBody, ihElifs]
    simp only [Item.marks, elifsMarks, List.append_assoc]

theorem Read.script_end {program : Program} (h : Read (.script program) ts rest) :
    peek rest = .eof := by
  generalize hitem : Item.script program = item at h
  induction h generalizing program with
  | scriptEnd hpeek => exact hpeek
  | scriptLine _ _ ih => exact ih hitem
  | scriptNext _ _ _ _ _ ih => exact ih rfl
  | _ => cases hitem

theorem marks_ofLexemes {program : Program} (hlexed : lexemesFrom depths last ls = .ok ts)
    (h : Program.ofLexemes ts = .ok program) : allMarks program = marked ts := by
  obtain ⟨rest, hread⟩ := read_of_topLevel h
  obtain ⟨-, used, line, hused, hinner⟩ := lined_of_lexemesFrom hlexed
  have hrest : marked rest = [] := by
    have hend := hread.script_end
    obtain ⟨before, hbefore⟩ := hread.suffix
    cases rest with
    | nil => rfl
    | cons t rest =>
      rcases split_append (hused.symm.trans hbefore.symm) with ⟨skipped, -, hlast⟩ | ⟨after, rfl⟩
      · cases skipped with
        | nil =>
          obtain ⟨rfl, rfl⟩ := List.cons.inj hlast
          rfl
        | cons t' skipped => simp at hlast
      · exact absurd hend (hinner t (by simp))
  rw [hread.marks, hrest, List.append_nil]
  rfl

/-! The source of a script. -/

def Part.numbered (p : Part) : Nat × List Char := (p.number, p.text)

def Part.lexemes (p : Part) : List Lexeme := lineLexemes p.numbered

def lexParts (parts : List Part) : Except ScriptError (List Lexeme) :=
  lexemesFrom [] 0 (parts.map Part.numbered)

/-- An error is about the part `p`: its text cannot be lexed, or a token cannot be read that `p`
brings to the stream, behind the tokens of the parts before it and those in front of it on `p`. -/
inductive AboutPart (before : List Part) (p : Part) (later : List Part) (e : ScriptError) : Prop where
  | text (fault : LexFault) : e = .lex p.number fault → fault.isIn p.text →
      (∃ ts, lexParts before = .ok ts) → (∀ more, lexParts (before ++ p :: more) = .error e) →
      AboutPart before p later e
  | token (used : List Lexeme) (t : Lexeme) (rest : List Lexeme) (taken : List Token) :
      lexParts (before ++ p :: later) = .ok (used ++ t :: rest) → t.line = p.number →
      taken <+: textTokens p.text →
      proper (used ++ [t]) = before.flatMap Part.lexemes ++ taken.map (⟨·, p.number⟩) →
      Offends used t e → AboutPart before p later e

theorem ofSource_eq (source : String) :
    Program.ofSource source = (lexParts (sourceParts source)).bind Program.ofLexemes := by
  have hparts : (sourceParts source).map Part.numbered =
      numbered 1 (lines (expandBlocks (normalize source.toList))) :=
    (map_partsFrom 1 1 _).trans (congrArg (numbered 1) (lines_expandBlocks _).symm)
  rw [Program.ofSource, Program.read, lexemes, lexParts, hparts]
  rfl

/-- In a source without blocks on one line, every line of the script has its number in the source. -/
theorem number_of_not_inline {n : Nat} {ls : List (List Char)} (h : inlineCount ls = 0) :
    ∀ p ∈ partsFrom n n ls, p.number = p.line := by
  intro p hp
  obtain ⟨before, l, after, rfl, hline, htext, hnumber⟩ := of_mem_partsFrom hp
  have hnone := List.countP_eq_zero.mp h
  have hbefore : inlineCount before = 0 :=
    List.countP_eq_zero.mpr fun l hl => hnone l (List.mem_append_left _ hl)
  have hlength : (expandLine (withoutTabs l)).length = 1 := by
    rw [length_expandLine, if_neg (hnone l (by simp))]
  have hindex : p.index < 1 := hlength ▸ (List.getElem?_eq_some_iff.mp htext).1
  omega

theorem aboutPart_of_lexParts {parts : List Part} {e : ScriptError} (h : lexParts parts = .error e) :
    ∃ before p later, parts = before ++ p :: later ∧ e.line? = some p.number ∧
      AboutPart before p later e := by
  obtain ⟨earlier, line, later, fault, hsplit, rfl, hin, hearlier, hmore⟩ := exists_fault h
  obtain ⟨before, rest, rfl, rfl, hrest⟩ := List.map_eq_append_iff.mp hsplit
  obtain ⟨p, later, rfl, rfl, -⟩ := List.map_eq_cons_iff.mp hrest
  refine ⟨before, p, later, rfl, rfl, .text fault rfl hin hearlier fun more => ?_⟩
  rw [lexParts, List.map_append, List.map_cons]
  exact hmore _

theorem aboutPart_of_ofLexemes {parts : List Part} {ts : List Lexeme} {e : ScriptError}
    (hts : lexParts parts = .ok ts) (h : Program.ofLexemes ts = .error e) :
    ∃ before p later, parts = before ++ p :: later ∧ e.line? = some p.number ∧
      AboutPart before p later e := by
  obtain ⟨used, t, rest, rfl, hoffends⟩ := exists_offends (lined_of_lexemesFrom hts).1 h
  rcases exists_line hts with ⟨earlier, line, later, taken, hsplit, hline, htaken, hproper⟩ | ⟨hnone, -, -⟩
  · obtain ⟨before, rest', rfl, rfl, hrest⟩ := List.map_eq_append_iff.mp hsplit
    obtain ⟨p, later, rfl, rfl, -⟩ := List.map_eq_cons_iff.mp hrest
    refine ⟨before, p, later, rfl, hoffends.line.trans (congrArg some hline),
      .token used t rest taken hts hline htaken ?_ hoffends⟩
    rw [hproper, List.flatMap_map]
    rfl
  · rw [lexParts, hnone] at hts
    rw [← Except.ok.inj hts] at h
    cases h

/-- The lines that a program keeps and the lines of errors are those of the parts that their words,
characters and tokens stand on. The number of a part is that of its source line, and one more for
every block on one line before it: for each on an earlier line, and for its own if the part is the
second one. -/
theorem ofSource_lines (source : String) :
    (∀ p ∈ sourceParts source, ∃ before l after,
      sourceLines source.toList = before ++ l :: after ∧ p.line = before.length + 1 ∧
      (expandLine (withoutTabs l))[p.index]? = some p.text ∧
      p.number = p.line + inlineCount before + p.index) ∧
    (inlineCount (sourceLines source.toList) = 0 → ∀ p ∈ sourceParts source, p.number = p.line) ∧
    (∀ program, Program.ofSource source = .ok program →
      allMarks program = marked ((sourceParts source).flatMap Part.lexemes)) ∧
    ∀ e, Program.ofSource source = .error e → ∃ before p later,
      sourceParts source = before ++ p :: later ∧ e.line? = some p.number ∧
      AboutPart before p later e := by
  refine ⟨fun p hp => ?_, number_of_not_inline, fun program h => ?_, fun e h => ?_⟩
  · obtain ⟨before, l, after, hsplit, hline, htext, hnumber⟩ := of_mem_partsFrom hp
    exact ⟨before, l, after, hsplit, hline.trans (Nat.add_comm ..), htext, by rw [hnumber, hline]⟩
  · rw [ofSource_eq] at h
    obtain ⟨ts, hts, h⟩ := bind_eq_ok.mp h
    rw [marks_ofLexemes hts h, ← marked_proper, proper_lexemesFrom hts, List.flatMap_map]
    rfl
  · rw [ofSource_eq] at h
    cases hts : lexParts (sourceParts source) with
    | error e' =>
      rw [hts] at h
      cases h
      exact aboutPart_of_lexParts hts
    | ok ts =>
      rw [hts] at h
      exact aboutPart_of_ofLexemes hts h

theorem exists_error {α ε : Type} {x : Except ε α} {p : ε → Prop} [DecidablePred p]
    (h : (match x with | .ok _ => false | .error e => decide (p e)) = true) :
    ∃ e, x = .error e ∧ p e := by
  cases x with
  | ok a => cases h
  | error e => exact ⟨e, rfl, of_decide_eq_true h⟩

def manyLines : String := "repeat 2: yield \"a\"\r\nif 1 == 1:\r\tyield \"b\"\nset n = 1"

def noOperand : String := "if 1 == 1: log \"a\"\n\nyield 1 +"

theorem ofSource_lines_many :
    (inlineCount (sourceLines "yield 1\nrepeat 2:\n  yield 3".toList) = 0 ∧
      ∀ p ∈ sourceParts "yield 1\nrepeat 2:\n  yield 3", p.number = p.line) ∧
    (∃ program, Program.ofSource manyLines = .ok program ∧
      allMarks program = [⟨.repeatWord, 1⟩, ⟨.yieldWord, 2⟩, ⟨.yieldWord, 4⟩] ∧
      allMarks program = marked ((sourceParts manyLines).flatMap Part.lexemes)) ∧
    ∃ e, Program.ofSource noOperand = .error e ∧ e = .parse 4 (.noValue .newline) ∧
      ∃ before p later, sourceParts noOperand = before ++ p :: later ∧ e.line? = some p.number ∧
        AboutPart before p later e := by
  have hplain : inlineCount (sourceLines "yield 1\nrepeat 2:\n  yield 3".toList) = 0 := by
    decide +kernel
  obtain ⟨program, hprogram, hmarks⟩ : ∃ program, Program.ofSource manyLines = .ok program ∧
      allMarks program = [⟨.repeatWord, 1⟩, ⟨.yieldWord, 2⟩, ⟨.yieldWord, 4⟩] :=
    Routine.exists_ok (by decide +kernel)
  obtain ⟨e, hfails, he⟩ : ∃ e, Program.ofSource noOperand = .error e ∧
      e = .parse 4 (.noValue .newline) := exists_error (by decide +kernel)
  exact ⟨⟨hplain, (ofSource_lines _).2.1 hplain⟩,
    ⟨program, hprogram, hmarks, (ofSource_lines manyLines).2.2.1 program hprogram⟩,
    e, hfails, he, (ofSource_lines noOperand).2.2.2 e hfails⟩

/-- A block on the first line moves the word on the second. -/
theorem ofSource_moved :
    sourceLines "if 1 == 1: log \"a\"\nyield \"x\"".toList =
        ["if 1 == 1: log \"a\"".toList, "yield \"x\"".toList] ∧
      (Program.ofSource "if 1 == 1: log \"a\"\nyield \"x\"").map allMarks =
        .ok [⟨.yieldWord, 3⟩] := by
  decide +kernel

end MacroEngine.Script
