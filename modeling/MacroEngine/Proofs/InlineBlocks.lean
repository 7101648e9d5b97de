import MacroEngine.Proofs.Expressions
import MacroEngine.Proofs.LexedLines
import MacroEngine.Proofs.LowerCase
import MacroEngine.Proofs.RoundTrip
import MacroEngine.Script.Grammar

/-! A block on one line means what it means on two lines. The header is found by its text before
the script is lexed: the lexer and the search for the colon cut the line in the same places, as long
as a blank stands behind the word that opens the block. -/
namespace MacroEngine
namespace Text

/-- Is `c` an ASCII letter in lower case that no other character than its capital has as its lower
case? -/
def OwnLower (c : Char) : Prop := 97 ≤ c.toNat ∧ c.toNat < 128 ∧ c ≠ 'k'

instance (c : Char) : Decidable (OwnLower c) := inferInstanceAs (Decidable (_ ∧ _))

theorem OwnLower.ownAscii {c : Char} (h : OwnLower c) : OwnAscii c :=
  ⟨Nat.lt_of_lt_of_le (by decide) h.1, h.2⟩

end Text

namespace Script
open Text

variable {piece rest head body cs : List Char} {token : Option Token} {tokens : List Token} {q : Char}

/-! The search for the colon passes over the pieces of a header. -/

def prefixed (cs : List Char) (found : List Char × List Char) : List Char × List Char :=
  (cs ++ found.1, found.2)

theorem map_prefixed_append (cs ds : List Char) (found : Option (List Char × List Char)) :
    (found.map (prefixed ds)).map (prefixed cs) = found.map (prefixed (cs ++ ds)) := by
  cases found <;> simp [prefixed]

theorem splitAtColon_outside {c : Char} (h : c ≠ ':') (cs : List Char) :
    splitAtColon none (c :: cs) =
      (splitAtColon (if isQuote c then some c else none) cs).map (prefixed [c]) := by
  rw [splitAtColon]
  simp only [h, decide_false, Bool.false_and, Bool.false_eq_true, if_false]
  rfl

theorem splitAtColon_inside (q c : Char) (cs : List Char) :
    splitAtColon (some q) (c :: cs) =
      (splitAtColon (if c = q then none else some q) cs).map (prefixed [c]) := by
  rw [splitAtColon]
  simp only [Option.isNone_some, Bool.and_false, Bool.false_eq_true, if_false]
  rfl

theorem splitAtColon_plain (h : ∀ c ∈ cs, c ≠ ':' ∧ isQuote c = false) (rest : List Char) :
    splitAtColon none (cs ++ rest) = (splitAtColon none rest).map (prefixed cs) := by
  induction cs with
  | nil => rw [List.nil_append]; cases splitAtColon none rest <;> rfl
  | cons c cs ih =>
    obtain ⟨⟨hcolon, hquote⟩, h⟩ := List.forall_mem_cons.mp h
    rw [List.cons_append, splitAtColon_outside hcolon, hquote, if_neg Bool.false_ne_true, ih h,
      map_prefixed_append, List.singleton_append]

theorem splitAtColon_quoted (h : q ∉ body) (rest : List Char) :
    splitAtColon (some q) (body ++ q :: rest) =
      (splitAtColon none rest).map (prefixed (body ++ [q])) := by
  induction body with
  | nil => rw [List.nil_append, splitAtColon_inside, if_pos rfl, List.nil_append]
  | cons c body ih =>
    obtain ⟨hc, h⟩ : q ≠ c ∧ q ∉ body := by simpa using h
    rw [List.cons_append, splitAtColon_inside, if_neg (Ne.symm hc), ih h, map_prefixed_append,
      List.singleton_append, List.cons_append]

theorem splitAtColon_piece (h : Piece piece token) (hcolon : token ≠ some .colon)
    (rest : List Char) :
    splitAtColon none (piece ++ rest) = (splitAtColon none rest).map (prefixed piece) := by
  cases h with
  | @blank c hblank =>
    refine splitAtColon_plain (List.forall_mem_singleton.mpr ⟨?_, ?_⟩) rest
    · rintro rfl
      revert hblank
      decide
    · exact isQuote_of_isBlank hblank
  | @symbol t hsymbol =>
    refine splitAtColon_plain ?_ rest
    cases t <;> first | exact absurd rfl hcolon | exact absurd rfl hsymbol |
      exact forall_mem_of_all (by decide)
  | @quoted q body hquote hbody =>
    have hne : q ≠ ':' := by
      rintro rfl
      revert hquote
      decide
    rw [List.cons_append, splitAtColon_outside hne, hquote, if_pos rfl, List.append_assoc,
      List.singleton_append, splitAtColon_quoted hbody, map_prefixed_append, List.singleton_append]
  | @number cs hnumeral =>
    refine splitAtColon_plain (fun c hc => ?_) rest
    rcases digit_or_point_of_mem hnumeral hc with hdigit | rfl
    · have hword := isWordChar_of_isAsciiDigit hdigit
      exact ⟨ne_of_isWordChar hword (by decide), isQuote_of_isWordChar hword⟩
    · decide
  | @word cs hword =>
    refine splitAtColon_plain (fun c hc => ?_) rest
    have hc := isWordChar_of_mem hword hc
    exact ⟨ne_of_isWordChar hc (by decide), isQuote_of_isWordChar hc⟩

theorem splitAtColon_pieces (h : Pieces head tokens) (hcolon : .colon ∉ tokens) (rest : List Char) :
    splitAtColon none (head ++ ':' :: rest) = some (head ++ [':'], rest) := by
  induction h with
  | nil => rfl
  | @cons piece after token tokens hpiece _ ih =>
    obtain ⟨hfirst, hrest⟩ : .colon ∉ token.toList ∧ .colon ∉ tokens := by simpa using hcolon
    rw [List.append_assoc, splitAtColon_piece hpiece (by rintro rfl; simp at hfirst), ih hrest]
    simp [prefixed]

/-! Headers, as the lexer and the grammar know them. -/

def Token.opensBlock : Token → Bool
  | .ifWord | .elifWord | .repeatWord => true
  | _ => false

/-- A header: `else`, or a word that opens a block, a blank, and one whole expression. -/
inductive Header : List Char → Prop where
  | otherwise {head : List Char} : lineTokens head 0 head = .ok [.elseWord] → Header head
  | opening {word condition : List Char} {tokens : List Token} {e : Expr} :
      (Token.ofWord word).opensBlock = true → lineTokens condition 0 condition = .ok tokens →
      expression (tokens.map fun t => ⟨t, 1⟩) = .ok (e, []) → Header (word ++ ' ' :: condition)

theorem lower_of_ofWord {word : List Char} {t : Token} (h : Token.ofWord word = t)
    (ht : t.keyword ≠ []) : lower word = t.keyword := by
  subst h
  unfold Token.ofWord at ht ⊢
  split at ht <;> first
    | exact absurd rfl ht
    | exact String.toList_ofList.symm.trans (congrArg String.toList ‹_ = _›)

theorem ownLower_keyword (t : Token) : ∀ c ∈ t.keyword, OwnLower c := by
  cases t <;> first | exact List.forall_mem_nil _ | exact forall_mem_of_all (by decide)

theorem map_asciiLower_of_ofWord {word : List Char} {t : Token} (h : Token.ofWord word = t)
    (ht : t.keyword ≠ []) : word.map asciiLower = t.keyword := by
  have hlower := lower_of_ofWord h ht
  rw [← hlower]
  refine (map_asciiLower_of_lowerFrom fun c hc => ?_).symm
  exact (ownLower_keyword t c (hlower ▸ hc)).ownAscii

theorem isHeader_append (h : isHeader head = true) (rest : List Char) :
    isHeader (head ++ rest) = true := by
  unfold isHeader at h ⊢
  obtain ⟨word, hword, hprefix⟩ := List.any_eq_true.mp h
  refine List.any_eq_true.mpr ⟨word, hword, ?_⟩
  rw [List.isPrefixOf_iff_prefix] at hprefix ⊢
  rw [List.map_append]
  exact hprefix.trans (List.prefix_append _ _)

theorem not_mem_of_expression {ts : List Lexeme} {e : Expr} {t : Lexeme}
    (h : expression ts = .ok (e, [])) (ht : t.token.isPart = false) : t ∉ ts := by
  obtain ⟨used, -, htook⟩ := expression_took h
  rw [htook.split, List.append_nil]
  intro hm
  rw [htook.parts t hm] at ht
  cases ht

theorem word_of_pieces {t : Token} (h : Pieces head [t]) (ht : t.keyword ≠ [])
    (hhead : ∀ c ∈ head.head?, isBlank c = false) :
    ∃ word rest, head = word ++ rest ∧ Token.ofWord word = t := by
  generalize hone : [t] = tokens at h
  cases h with
  | nil => cases hone
  | @cons piece rest token tokens hpiece _ =>
    cases hpiece with
    | blank hblank => exact absurd (hhead _ rfl) (by simp [hblank])
    | @symbol t' hsymbol =>
      obtain ⟨rfl, -⟩ := List.cons.inj hone
      cases t <;> first | exact absurd rfl ht | exact absurd rfl hsymbol
    | quoted _ _ | number _ =>
      obtain ⟨rfl, -⟩ := List.cons.inj hone
      exact absurd rfl ht
    | word _ => exact ⟨piece, rest, rfl, (List.cons.inj hone).1.symm⟩

theorem map_asciiLower_of_opensBlock {word : List Char}
    (h : (Token.ofWord word).opensBlock = true) :
    word.map asciiLower ∈ [['i', 'f'], ['e', 'l', 'i', 'f'], ['r', 'e', 'p', 'e', 'a', 't']] := by
  generalize ht : Token.ofWord word = t at h
  cases t <;> first
    | exact absurd h Bool.false_ne_true
    | (rw [map_asciiLower_of_ofWord ht (by decide)]; decide)

theorem Header.isHeader (h : Header head) (hhead : ∀ c ∈ head.head?, isBlank c = false) :
    isHeader head = true := by
  cases h with
  | otherwise h =>
    obtain ⟨word, rest, rfl, hword⟩ := word_of_pieces (pieces_of_lineTokens h) (by decide) hhead
    refine isHeader_append ?_ rest
    rw [Script.isHeader, map_asciiLower_of_ofWord hword (by decide)]
    decide
  | @opening word condition tokens e hword =>
    rw [List.append_cons]
    refine isHeader_append ?_ condition
    rw [Script.isHeader, List.map_append]
    generalize hlower : word.map asciiLower = lower
    have hmem := hlower ▸ map_asciiLower_of_opensBlock hword
    simp only [List.mem_cons, List.not_mem_nil, or_false] at hmem
    rcases hmem with rfl | rfl | rfl <;> decide

theorem Header.splitAtColon (h : Header head) (rest : List Char) :
    splitAtColon none (head ++ ':' :: rest) = some (head ++ [':'], rest) := by
  cases h with
  | otherwise h => exact splitAtColon_pieces (pieces_of_lineTokens h) (by decide) rest
  | @opening word condition tokens e hword htokens hexpr =>
    have hcolon : Token.colon ∉ tokens := fun hm =>
      not_mem_of_expression (t := ⟨.colon, 1⟩) hexpr rfl (List.mem_map_of_mem hm)
    have hletters : ∀ ds ∈ [['i', 'f'], ['e', 'l', 'i', 'f'], ['r', 'e', 'p', 'e', 'a', 't']],
        ':' ∉ ds ∧ '"' ∉ ds ∧ '\'' ∉ ds := by decide
    obtain ⟨hno, hdouble, hsingle⟩ := hletters _ (map_asciiLower_of_opensBlock hword)
    have hplain : ∀ c ∈ word, c ≠ ':' ∧ isQuote c = false := by
      intro c hc
      have hmem := List.mem_map_of_mem (f := asciiLower) hc
      refine ⟨?_, Bool.or_eq_false_iff.mpr ⟨decide_eq_false ?_, decide_eq_false ?_⟩⟩
      · rintro rfl
        exact hno hmem
      · rintro rfl
        exact hdouble hmem
      · rintro rfl
        exact hsingle hmem
    rw [List.append_assoc, splitAtColon_plain hplain, List.cons_append,
      splitAtColon_outside (by decide), if_neg (by decide),
      splitAtColon_pieces (pieces_of_lineTokens htokens) hcolon]
    simp [prefixed]

/-! The statement behind the colon. -/

def Stmt.isSimple : Stmt → Bool
  | .yield _ _ | .log _ | .assign _ _ | .ask _ _ => true
  | .branch _ _ _ _ | .repeated _ _ _ => false

theorem peek_of_statement {fuel : Nat} {ts rest : List Lexeme} {s : Stmt}
    (h : statement fuel ts = .ok (s, rest)) (hs : s.isSimple = true) :
    peek ts = .yieldWord ∨ peek ts = .logWord ∨ peek ts = .setWord := by
  cases fuel with
  | zero => cases h
  | succ fuel =>
    rw [statement] at h
    split at h
    · exact .inl ‹_›
    · exact .inr (.inl ‹_›)
    · exact .inr (.inr ‹_›)
    · obtain ⟨⟨_, _⟩, -, h⟩ := bind_eq_ok.mp h
      obtain ⟨⟨_, _⟩, -, h⟩ := bind_eq_ok.mp h
      obtain ⟨⟨_, _⟩, -, h⟩ := bind_eq_ok.mp h
      dsimp only at h
      split at h
      · obtain ⟨⟨_, _⟩, -, h⟩ := bind_eq_ok.mp h
        cases h
        cases hs
      · cases h
        cases hs
    · obtain ⟨_, -, h⟩ := bind_eq_ok.mp h
      obtain ⟨_, -, h⟩ := bind_eq_ok.mp h
      cases h
      cases hs
    · cases h

theorem peek_of_topLevel {fuel : Nat} {ts : List Lexeme} {s : Stmt}
    (h : topLevel fuel ts = .ok [s]) (hs : s.isSimple = true) (hnewline : peek ts ≠ .newline) :
    peek ts = .yieldWord ∨ peek ts = .logWord ∨ peek ts = .setWord := by
  cases fuel with
  | zero => cases h
  | succ fuel =>
    rw [topLevel] at h
    split at h
    · cases h
    · exact absurd ‹_› hnewline
    · cases h
    · cases h
    · obtain ⟨⟨first, rest⟩, hfirst, h⟩ := bind_eq_ok.mp h
      obtain ⟨_, -, h⟩ := bind_eq_ok.mp h
      cases h
      exact peek_of_statement hfirst hs

theorem trimStart_append_of_blanks {blanks : List Char} (h : ∀ c ∈ blanks, isBlank c = true)
    (hfirst : ∀ c ∈ cs.head?, isBlank c = false) : trimStart (blanks ++ cs) = cs := by
  rw [trimStart_blanks_append h, trimStart]
  cases cs with
  | nil => rfl
  | cons c cs => exact List.dropWhile_cons_of_neg (by simp [hfirst c rfl])

theorem takeWhile_append_of_blanks {blanks : List Char} (h : ∀ c ∈ blanks, isBlank c = true)
    (hfirst : ∀ c ∈ cs.head?, isBlank c = false) : (blanks ++ cs).takeWhile isBlank = blanks := by
  rw [List.takeWhile_append_of_pos h]
  cases cs with
  | nil => simp
  | cons c cs => rw [List.takeWhile_cons_of_neg (by simp [hfirst c rfl]), List.append_nil]

theorem head?_trim {c : Char} (h : isBlank c = false) (cs : List Char) :
    (trim (c :: cs)).head? = some c := by
  rw [trim, trimStart, List.dropWhile_cons_of_neg (by simp [h]), ← List.singleton_append,
    trimEnd_append]
  split
  · rw [trimEnd_eq_self (by rintro _ ⟨⟩; exact h)]
    rfl
  · rfl

theorem tokenAt_letter {c : Char} (h : isAsciiLetter c = true) (raw cs : List Char) :
    tokenAt raw c cs = .ok (some (.ofWord (c :: cs.takeWhile isWordChar)),
      (cs.takeWhile isWordChar).length) := by
  have hletter := isLetter_of_isAsciiLetter h
  rw [tokenAt_of_not_sign (not_sign_of_isWordChar (isWordChar_of_isLetter hletter)),
    if_neg fun hb => ne_of_isAsciiLetter h (by decide) hb.1,
    if_neg fun hq => hq.elim (ne_of_isAsciiLetter h (by decide)) (ne_of_isAsciiLetter h (by decide)),
    isAsciiDigit_of_isLetter hletter, if_neg Bool.false_ne_true, if_pos (.inl hletter)]

theorem lexemes_line {line body : List Char} (hline : OneLine line) (hne : line ≠ [])
    (hbody : trim (cutComment none line) = body) (hsome : body ≠ [])
    (hmargin : line.head? ≠ some ' ') : lexemes line =
      (((lineTokens line 0 body).mapError (.lex 1)).map fun tokens =>
        (tokens ++ [Token.newline, .eof]).map (⟨·, 1⟩)) := by
  have hlines : lines line = [line] := by
    simpa [unlines, List.intercalate] using lines_single hline hne
  have hdepth : (line.takeWhile (· = ' ')).length = 0 := by
    cases line with
    | nil => rfl
    | cons c cs =>
      rw [List.takeWhile_cons_of_neg (by simpa using hmargin)]
      rfl
  rw [lexemes, hlines]
  change lexemesFrom [] 0 [(1, line)] = _
  rw [lexemesFrom, hbody]
  split
  · exact absurd rfl hsome
  · rw [hdepth]
    cases lineTokens line 0 body with
    | error fault => rfl
    | ok tokens =>
      change Except.ok _ = Except.ok _
      simp

theorem asciiLower_of_isHeader {stmt : List Char} (h : isHeader stmt = true) :
    ∃ c cs, stmt = c :: cs ∧ asciiLower c ∈ ['i', 'e', 'r'] := by
  obtain ⟨word, hword, hprefix⟩ := List.any_eq_true.mp h
  rw [List.isPrefixOf_iff_prefix] at hprefix
  have hfirst : ∃ d ds, word = d :: ds ∧ d ∈ ['i', 'e', 'r'] := by
    simp only [List.mem_cons, List.not_mem_nil, or_false] at hword
    rcases hword with rfl | rfl | rfl | rfl <;> exact ⟨_, _, rfl, by decide⟩
  obtain ⟨d, ds, rfl, hd⟩ := hfirst
  cases stmt with
  | nil => exact absurd hprefix (by simp)
  | cons c cs =>
    obtain ⟨rfl, -⟩ := List.cons_prefix_cons.mp hprefix
    exact ⟨c, cs, rfl, hd⟩

theorem isAsciiLetter_of_asciiLower {c : Char} (h : asciiLower c ∈ ['i', 'e', 'r']) :
    isAsciiLetter c = true := by
  unfold asciiLower at h
  split at h
  · rename_i hupper
    simp [isAsciiLetter, hupper]
  · simp only [List.mem_cons, List.not_mem_nil, or_false] at h
    rcases h with rfl | rfl | rfl <;> decide

theorem ofWord_ne_newline (word : List Char) : Token.ofWord word ≠ .newline := by
  unfold Token.ofWord
  split <;> exact Token.noConfusion

/-- A line that reads as a simple statement starts with a word that none of the headers starts
with. -/
theorem isHeader_of_read {stmt : List Char} {s : Stmt} (h : Program.read stmt = .ok [s])
    (hs : s.isSimple = true) (hline : OneLine stmt) : isHeader stmt = false := by
  by_contra hheader
  obtain ⟨c, cs, rfl, hc⟩ := asciiLower_of_isHeader (by simpa using hheader)
  have hletter := isAsciiLetter_of_asciiLower hc
  have hne {d : Char} (hd : isAsciiLetter d = false) : c ≠ d := ne_of_isAsciiLetter hletter hd
  have hblank := isBlank_of_isWordChar (isWordChar_of_isLetter (isLetter_of_isAsciiLetter hletter))
  obtain ⟨body, hbody⟩ : ∃ body, trim (cutComment none (c :: cs)) = c :: body := by
    rw [cutComment]
    simp only [hne (d := '#') (by decide), hne (d := '/') (by decide), decide_false, Bool.false_and,
      Bool.or_false, Bool.false_eq_true, if_false]
    generalize cutComment _ cs = rest
    have hhead := head?_trim hblank rest
    cases htrim : trim (c :: rest) with
    | nil =>
      rw [htrim] at hhead
      cases hhead
    | cons d body =>
      rw [htrim] at hhead
      cases hhead
      exact ⟨body, rfl⟩
  obtain ⟨ts, hts, h⟩ := bind_eq_ok.mp h
  rw [lexemes_line hline (List.cons_ne_nil _ _) hbody (List.cons_ne_nil _ _)
    (by simpa using hne (d := ' ') (by decide))] at hts
  obtain ⟨tokens, htokens, rfl⟩ := map_eq_ok.mp hts
  rw [mapError_eq_ok, lineTokens_cons, tokenAt_letter hletter] at htokens
  obtain ⟨more, -, rfl⟩ := map_eq_ok.mp htokens
  generalize hword : c :: body.takeWhile isWordChar = word at h
  have hother {t : Token} (ht : Token.ofWord word = t) (hkey : t.keyword ≠ [])
      (hfirst : t.keyword.head?.all (· ∉ ['i', 'e', 'r']) = true) : False := by
    rw [← map_asciiLower_of_ofWord ht hkey, ← hword] at hfirst
    exact of_decide_eq_true hfirst hc
  rcases peek_of_topLevel h hs (ofWord_ne_newline word) with ht | ht | ht <;>
    exact hother ht (by decide) (by decide)

theorem read_blank {line : List Char} (hline : OneLine line)
    (h : trim (cutComment none line) = []) : Program.read line = .ok [] := by
  by_cases hne : line = []
  · subst hne
    rfl
  · have hlines : lines line = [line] := by
      simpa [unlines, List.intercalate] using lines_single hline hne
    have hlexemes : lexemes line = .ok [⟨.eof, 1⟩] := by
      rw [lexemes, hlines]
      change lexemesFrom [] 0 [(1, line)] = _
      rw [lexemesFrom, h]
      rfl
    rw [Program.read, hlexemes]
    rfl

/-! The two forms of a block with one statement. -/

/-- A header and its statement, with the blanks around them where they stand on one line. -/
structure InlineBlock where
  indent : List Char
  head : List Char
  gap : List Char
  stmt : List Char
  trail : List Char

namespace InlineBlock

def oneLine (b : InlineBlock) : List Char :=
  b.indent ++ (b.head ++ ':' :: (b.gap ++ b.stmt ++ b.trail))

def headLine (b : InlineBlock) : List Char := b.indent ++ (b.head ++ [':'])

def bodyLine (b : InlineBlock) : List Char := b.indent ++ [' ', ' ', ' ', ' '] ++ b.stmt

def twoLines (b : InlineBlock) : List Char := b.headLine ++ '\n' :: b.bodyLine

structure Proper (b : InlineBlock) : Prop where
  indent : ∀ c ∈ b.indent, isBlank c = true
  gap : ∀ c ∈ b.gap, isBlank c = true
  trail : ∀ c ∈ b.trail, isBlank c = true
  margin : ∀ c ∈ b.head.head?, isBlank c = false
  header : Header b.head
  trimmed : trim b.stmt = b.stmt
  stmt : ∃ s, Program.read b.stmt = .ok [s] ∧ s.isSimple = true
  line : OneLine b.oneLine

variable {b : InlineBlock}

theorem Proper.oneLine_stmt (h : b.Proper) : OneLine b.stmt := by
  obtain ⟨hfeed, hreturn⟩ := h.line
  simp only [oneLine, List.mem_append, List.mem_cons, not_or] at hfeed hreturn
  exact ⟨hfeed.2.2.2.1.2, hreturn.2.2.2.1.2⟩

theorem Proper.notComment (h : b.Proper) : b.stmt ≠ [] ∧ isCommentOnly b.stmt = false := by
  obtain ⟨s, hread, -⟩ := h.stmt
  have hcut : cutComment none b.stmt ≠ [] := by
    intro he
    rw [read_blank h.oneLine_stmt (by rw [he]; rfl)] at hread
    cases hread
  refine ⟨fun he => hcut (by rw [he]; rfl), ?_⟩
  by_contra hcomment
  refine hcut ?_
  unfold isCommentOnly at hcomment
  split at hcomment
  · rename_i heq
    rw [heq]
    rfl
  · rename_i heq
    rw [heq]
    rfl
  · exact absurd rfl hcomment

theorem Proper.trim_tail (h : b.Proper) : trim (b.gap ++ b.stmt ++ b.trail) = b.stmt := by
  rw [← trimStart_trimEnd, trimEnd_append, if_pos (trimEnd_of_blanks h.trail), trimStart_trimEnd, trim,
    trimStart_blanks_append h.gap]
  exact h.trimmed

theorem Proper.expandLine_head (h : b.Proper) (tail : List Char) :
    expandLine (b.headLine ++ tail) =
      if (trim tail).isEmpty || isCommentOnly (trim tail) then [b.headLine ++ tail]
      else [b.headLine, b.indent ++ [' ', ' ', ' ', ' '] ++ trim tail] := by
  have hfirst : ∀ c ∈ (b.head ++ ':' :: tail).head?, isBlank c = false := by
    intro c hc
    rw [List.head?_append] at hc
    cases hhead : b.head.head? with
    | none =>
      rw [hhead] at hc
      cases hc
      decide
    | some d =>
      rw [hhead] at hc
      cases hc
      exact h.margin _ hhead
  have hline : b.headLine ++ tail = b.indent ++ (b.head ++ ':' :: tail) := by
    simp [headLine]
  rw [hline, expandLine, trimStart_append_of_blanks h.indent hfirst,
    takeWhile_append_of_blanks h.indent hfirst,
    if_pos (isHeader_append (h.header.isHeader h.margin) _), h.header.splitAtColon]
  rfl

theorem Proper.expandLine_oneLine (h : b.Proper) : expandLine b.oneLine = [b.headLine, b.bodyLine] := by
  have hline : b.oneLine = b.headLine ++ (b.gap ++ b.stmt ++ b.trail) := by
    simp [oneLine, headLine]
  obtain ⟨hne, hcomment⟩ := h.notComment
  rw [hline, h.expandLine_head, h.trim_tail, hcomment, List.isEmpty_eq_false_iff.mpr hne]
  rfl

theorem Proper.expandLine_headLine (h : b.Proper) : expandLine b.headLine = [b.headLine] := by
  have hline := h.expandLine_head []
  rw [List.append_nil] at hline
  exact hline

theorem Proper.expandLine_bodyLine (h : b.Proper) : expandLine b.bodyLine = [b.bodyLine] := by
  obtain ⟨s, hread, hs⟩ := h.stmt
  have hindent : ∀ c ∈ b.indent ++ [' ', ' ', ' ', ' '], isBlank c = true :=
    List.forall_mem_append.mpr ⟨h.indent, forall_mem_of_all (by decide)⟩
  have hfirst : ∀ c ∈ b.stmt.head?, isBlank c = false := fun c hc =>
    isBlank_of_head?_trim (by rwa [h.trimmed])
  rw [bodyLine, expandLine, trimStart_append_of_blanks hindent hfirst,
    isHeader_of_read hread hs h.oneLine_stmt]
  rfl

end InlineBlock

def LineStart (before : List Char) : Prop :=
  before = [] ∨ before = ['\ufeff'] ∨ before.getLast? = some '\n'

def LineEnd (after : List Char) : Prop := after = [] ∨ after.head? = some '\n'

theorem lines_append_of_ended {a : List Char} (h : a = [] ∨ a.getLast? = some '\n')
    (b : List Char) : lines (a ++ b) = lines a ++ lines b := by
  rcases h with rfl | hlast
  · rfl
  · obtain ⟨a, rfl⟩ := List.getLast?_eq_some_iff.mp hlast
    rw [List.append_assoc, List.singleton_append, lines_append]

theorem lines_first {line after : List Char} (h : OneLine line) (hne : line ≠ [])
    (hafter : LineEnd after) : lines (line ++ after) = line :: lines after.tail := by
  cases after with
  | nil =>
    have hline := lines_single h hne
    simpa [unlines, List.intercalate, lines, linesFrom] using hline
  | cons c after =>
    obtain rfl : c = '\n' := by simpa [LineEnd] using hafter
    exact lines_line h after

theorem expandBlocks_twoLines {b : InlineBlock} (h : b.Proper) {before after : List Char}
    (hbefore : before = [] ∨ before.getLast? = some '\n') (hafter : LineEnd after) :
    expandBlocks (before ++ (b.oneLine ++ after)) =
      expandBlocks (before ++ (b.twoLines ++ after)) := by
  have hmem : ∀ c, c ∈ b.headLine ∨ c ∈ b.bodyLine → c ∈ b.oneLine ∨ c = ' ' := by
    intro c hc
    simp only [InlineBlock.oneLine, InlineBlock.headLine, InlineBlock.bodyLine, List.mem_append,
      List.mem_cons, List.not_mem_nil, or_false] at hc ⊢
    tauto
  have hparts {line : List Char} (hline : ∀ c ∈ line, c ∈ b.oneLine ∨ c = ' ') : OneLine line :=
    ⟨fun hm => (hline _ hm).elim h.line.1 (by decide),
      fun hm => (hline _ hm).elim h.line.2 (by decide)⟩
  have hhead : OneLine b.headLine := hparts fun c hc => hmem c (.inl hc)
  have hbody : OneLine b.bodyLine := hparts fun c hc => hmem c (.inr hc)
  have hone : b.oneLine ≠ [] := by simp [InlineBlock.oneLine]
  have hsome : b.bodyLine ≠ [] := by simp [InlineBlock.bodyLine]
  rw [expandBlocks, expandBlocks, lines_append_of_ended hbefore, lines_append_of_ended hbefore,
    lines_first h.line hone hafter, InlineBlock.twoLines, List.append_assoc, List.cons_append,
    lines_line hhead, lines_first hbody hsome hafter]
  simp only [List.flatMap_append, List.flatMap_cons, h.expandLine_oneLine, h.expandLine_headLine,
    h.expandLine_bodyLine, List.cons_append, List.nil_append]

/-- The byte order mark in front of a source is no part of its lines. -/
theorem exists_normalize_append {before : List Char} (hbefore : LineStart before)
    (hplain : ∀ c ∈ before, c ≠ '\r' ∧ c ≠ '\t') :
    ∃ kept, (kept = [] ∨ kept.getLast? = some '\n') ∧ ∀ rest : List Char,
      rest.head? ≠ some '\ufeff' → (∀ c ∈ rest, c ≠ '\r' ∧ c ≠ '\t') →
      normalize (before ++ rest) = kept ++ rest := by
  have hwhole {kept rest : List Char} (hkept : ∀ c ∈ kept, c ≠ '\r' ∧ c ≠ '\t')
      (hrest : ∀ c ∈ rest, c ≠ '\r' ∧ c ≠ '\t') : evenOut (kept ++ rest) = kept ++ rest :=
    evenOut_eq_self (List.forall_mem_append.mpr ⟨hkept, hrest⟩)
  by_cases hmark : before.head? = some '\ufeff'
  · obtain ⟨kept, rfl⟩ := List.head?_eq_some_iff.mp hmark
    refine ⟨kept, ?_, fun rest _ hrest => ?_⟩
    · rcases hbefore with he | he | hlast
      · cases he
      · exact .inl (List.cons.inj he).2
      · cases kept with
        | nil => exact .inl rfl
        | cons c kept => exact .inr (by rwa [List.getLast?_cons_cons] at hlast)
    · exact hwhole (List.forall_mem_cons.mp hplain).2 hrest
  · refine ⟨before, ?_, fun rest hhead hrest => ?_⟩
    · rcases hbefore with rfl | rfl | hlast
      · exact .inl rfl
      · exact absurd rfl hmark
      · exact .inr hlast
    · refine normalize_eq_self (List.forall_mem_append.mpr ⟨hplain, hrest⟩) ?_
      rw [List.head?_append]
      cases hfirst : before.head? with
      | none => exact hhead
      | some c =>
        rw [hfirst] at hmark
        exact hmark

theorem InlineBlock.Proper.noMark {b : InlineBlock} (h : b.Proper) (tail : List Char) :
    (b.headLine ++ tail).head? ≠ some '\ufeff' := by
  obtain ⟨c, cs, hhead, hc⟩ := asciiLower_of_isHeader (h.header.isHeader h.margin)
  rw [headLine, hhead]
  cases hindent : b.indent with
  | nil =>
    intro he
    exact ne_of_isAsciiLetter (isAsciiLetter_of_asciiLower hc) (by decide) (Option.some.inj he)
  | cons d indent =>
    intro he
    have hd := h.indent d (by rw [hindent]; exact List.mem_cons_self)
    rw [Option.some.inj he] at hd
    exact absurd hd (by decide)

/-- A block on one line and the same block on two lines make the same script, whatever stands
before and after them. -/
theorem ofSource_oneLine {b : InlineBlock} (h : b.Proper) {before after : List Char}
    (hbefore : LineStart before) (hafter : LineEnd after)
    (hplain : ∀ c ∈ before ++ (b.oneLine ++ after), c ≠ '\r' ∧ c ≠ '\t') :
    Program.ofSource (String.ofList (before ++ (b.oneLine ++ after))) =
      Program.ofSource (String.ofList (before ++ (b.twoLines ++ after))) := by
  obtain ⟨hplainBefore, hplainRest⟩ := List.forall_mem_append.mp hplain
  obtain ⟨hplainLine, hplainAfter⟩ := List.forall_mem_append.mp hplainRest
  obtain ⟨kept, hkept, hnormalize⟩ := exists_normalize_append hbefore hplainBefore
  have hplainTwo : ∀ c ∈ b.twoLines ++ after, c ≠ '\r' ∧ c ≠ '\t' := by
    refine List.forall_mem_append.mpr ⟨fun c hc => ?_, hplainAfter⟩
    by_cases hbreak : c = ' ' ∨ c = '\n'
    · rcases hbreak with rfl | rfl <;> decide
    · refine hplainLine c ?_
      simp only [InlineBlock.twoLines, InlineBlock.oneLine, InlineBlock.headLine,
        InlineBlock.bodyLine, List.mem_append, List.mem_cons, List.not_mem_nil, or_false] at hc ⊢
      tauto
  have hone : b.oneLine ++ after = b.headLine ++ (b.gap ++ b.stmt ++ b.trail ++ after) := by
    simp [InlineBlock.oneLine, InlineBlock.headLine]
  have htwo : b.twoLines ++ after = b.headLine ++ ('\n' :: b.bodyLine ++ after) := by
    rw [InlineBlock.twoLines, List.append_assoc]
  rw [Program.ofSource, Program.ofSource, String.toList_ofList, String.toList_ofList,
    hnormalize _ (hone ▸ h.noMark _) hplainRest, hnormalize _ (htwo ▸ h.noMark _) hplainTwo,
    expandBlocks_twoLines h hkept hafter]

def quotedColon : InlineBlock where
  indent := []
  head := "IF n == \"a: b\" ".toList
  gap := [' ', ' ']
  stmt := "log \"x: # y\" # note".toList
  trail := [' ']

theorem proper_quotedColon : quotedColon.Proper where
  indent := List.forall_mem_nil _
  gap := forall_mem_of_all (by decide)
  trail := forall_mem_of_all (by decide)
  margin := fun c hc => Option.some.inj hc ▸ (by decide : isBlank 'I' = false)
  header := by
    have hword : (Token.ofWord "IF".toList).opensBlock = true := by decide +kernel
    have htokens : lineTokens "n == \"a: b\" ".toList 0 "n == \"a: b\" ".toList =
        .ok [.ident "n", .equals, .str "a: b"] := by decide +kernel
    exact .opening hword htokens (e := .binary (.var "n") .eq (.str "a: b")) rfl
  trimmed := by decide +kernel
  stmt := by
    obtain ⟨program, hread, hone, hsimple⟩ : ∃ program, Program.read quotedColon.stmt = .ok program ∧
        program.length = 1 ∧ program.all Stmt.isSimple = true :=
      Routine.exists_ok (by decide +kernel)
    obtain ⟨s, rfl⟩ := List.length_eq_one_iff.mp hone
    exact ⟨s, hread, by simpa using hsimple⟩
  line := by decide +kernel

theorem ofSource_oneLine_quotedColon :
    (Program.ofSource (String.ofList ("set n = 1\n".toList ++
      (quotedColon.oneLine ++ "\nelse: yield n".toList)))).isOk = true ∧
    Program.ofSource (String.ofList ("set n = 1\n".toList ++
        (quotedColon.oneLine ++ "\nelse: yield n".toList))) =
      Program.ofSource (String.ofList ("set n = 1\n".toList ++
        (quotedColon.twoLines ++ "\nelse: yield n".toList))) :=
  ⟨by decide +kernel, ofSource_oneLine proper_quotedColon (.inr (.inr rfl)) (.inr rfl)
    (forall_mem_of_all (by decide +kernel))⟩

/-- Without a blank behind the word, a header is only known in front of a line break. -/
theorem ofSource_parenthesis :
    (Program.ofSource "if(1 == 1):\n    yield \"a\"").isOk = true ∧
      (Program.ofSource "if(1 == 1): yield \"a\"").isOk = false := by
  decide +kernel

end Script
end MacroEngine
