import MacroEngine.Proofs.LexedLines
import MacroEngine.Proofs.WholeNumbers

/-! Tokens that are written on a line, and lexed again. A blank stands between two tokens, except
inside parentheses and in front of a colon; a string stands in a quote that it lacks. -/
namespace MacroEngine.Script
open Text

def quoteFor (cs : List Char) : Char := if '"' ∈ cs then '\'' else '"'

namespace Token

def written : Token → List Char
  | .str s => quoteFor s.toList :: (s.toList ++ [quoteFor s.toList])
  | .ident name => name.toList
  | .number digits => digits.toList
  | t => t.symbol ++ t.keyword

def fitsQuotes (cs : List Char) : Bool := !cs.contains '\n' && (!cs.contains '"' || !cs.contains '\'')

/-- Is the text an identifier, and no keyword? -/
def isName (name : String) : Bool :=
  isWord name.toList && decide (Token.ofWord name.toList = .ident name)

def isProper : Token → Bool
  | .str s => fitsQuotes s.toList
  | .ident name => isName name
  | .number digits => isNumeral digits.toList
  | .newline | .indent | .dedent | .eof => false
  | _ => true

theorem isWord_of_isName {name : String} (h : isName name = true) : isWord name.toList = true :=
  (Bool.and_eq_true_iff.mp h).1

theorem ofWord_of_isName {name : String} (h : isName name = true) :
    Token.ofWord name.toList = .ident name :=
  of_decide_eq_true (Bool.and_eq_true_iff.mp h).2

end Token

def glued (t next : Token) : Bool := t = .openParen || next = .closeParen || next = .colon

def spelled : List Token → List Char
  | [] => []
  | [t] => t.written
  | t :: next :: ts => t.written ++ ((if glued t next then [] else [' ']) ++ spelled (next :: ts))

variable {t : Token} {ts : List Token} {raw rest body : List Char}

/-- Characters that no token but a parenthesis or a colon begins with. -/
def Ends (rest : List Char) : Prop := ∀ c ∈ rest.head?, c = ' ' ∨ c = ')' ∨ c = ':'

theorem quoteFor_not_mem {cs : List Char} (h : Token.fitsQuotes cs = true) : quoteFor cs ∉ cs := by
  unfold quoteFor
  split
  · rename_i hdouble
    simp [Token.fitsQuotes, hdouble] at h
    exact h.2
  · assumption

theorem isQuote_quoteFor (cs : List Char) : isQuote (quoteFor cs) = true := by
  unfold quoteFor
  split <;> decide

theorem lineTokens_step {c : Char} {cs : List Char} {token : Option Token} {k : Nat}
    (h : tokenAt raw c cs = .ok (token, k)) : lineTokens raw 0 (c :: cs) =
      (lineTokens raw 0 (cs.drop k)).map fun tokens => token.toList ++ tokens := by
  rw [lineTokens_cons, h]
  rfl

theorem tokenAt_quote {q : Char} (h : isQuote q = true) (hbody : q ∉ body) (rest : List Char) :
    tokenAt raw q (body ++ q :: rest) =
      .ok (some (.str (String.ofList body)), body.length + 1) := by
  have hquote : q = '"' ∨ q = '\'' := by simpa [isQuote] using h
  have hsign : q ∉ signs := by rcases hquote with rfl | rfl <;> decide
  have hbang : q ≠ '!' := by rcases hquote with rfl | rfl <;> decide
  have htake : (body ++ q :: rest).takeWhile (· ≠ q) = body := by
    rw [List.takeWhile_append_of_pos fun c hc => by simpa using fun he : c = q => hbody (he ▸ hc),
      List.takeWhile_cons_of_neg (by simp), List.append_nil]
  rw [tokenAt_of_not_sign hsign, if_neg fun hb => hbang hb.1, if_pos hquote, htake,
    if_pos (by simp)]

theorem tokenAt_word {c : Char} {cs : List Char} (h : isWord (c :: cs) = true)
    (hrest : ∀ d ∈ rest.head?, isWordChar d = false) :
    tokenAt raw c (cs ++ rest) = .ok (some (.ofWord (c :: cs)), cs.length) := by
  have hhead := isWordChar_of_head h
  obtain ⟨hfirst, htail⟩ : (isLetter c = true ∨ c = '_') ∧ ∀ d ∈ cs, isWordChar d = true := by
    simpa [isWord] using h
  have htake : (cs ++ rest).takeWhile isWordChar = cs := by
    rw [List.takeWhile_append_of_pos htail]
    cases rest with
    | nil => simp
    | cons d rest => rw [List.takeWhile_cons_of_neg (by simp [hrest d rfl]), List.append_nil]
  have hdigit : isAsciiDigit c = false := by
    rcases hfirst with hletter | rfl
    · exact isAsciiDigit_of_isLetter hletter
    · decide
  rw [tokenAt_of_not_sign (not_sign_of_isWordChar hhead), if_neg fun hb => ne_of_isWordChar hhead (by decide) hb.1,
    if_neg fun hq => hq.elim (ne_of_isWordChar hhead (by decide)) (ne_of_isWordChar hhead (by decide)),
    hdigit, if_neg Bool.false_ne_true, if_pos hfirst, htake]

theorem numberAt_append {cs : List Char} (h : isNumeral cs = true)
    (hrest : ∀ d ∈ rest.head?, isAsciiDigit d = false ∧ d ≠ '.') : numberAt (cs ++ rest) = cs := by
  have hend {ds : List Char} (hds : ∀ d ∈ ds, isAsciiDigit d = true) :
      (ds ++ rest).takeWhile isAsciiDigit = ds ∧ (ds ++ rest).dropWhile isAsciiDigit = rest := by
    rw [List.takeWhile_append_of_pos hds, List.dropWhile_append_of_pos hds]
    cases rest with
    | nil => simp
    | cons d rest => simp [hrest d rfl]
  obtain ⟨whole, places, hne, hwhole, hplaces, ⟨-, rfl⟩ | ⟨hsome, rfl⟩⟩ := isNumeral_iff.mp h
  · obtain ⟨htake, hdrop⟩ := hend hwhole
    unfold numberAt
    rw [htake, hdrop]
    split
    · exact absurd rfl (hrest '.' rfl).2
    · rfl
  · have hpoint : isAsciiDigit '.' = false := by decide
    have htake : (whole ++ '.' :: places ++ rest).takeWhile isAsciiDigit = whole := by
      rw [List.append_assoc, List.takeWhile_append_of_pos hwhole, List.cons_append,
        List.takeWhile_cons_of_neg (by simp [hpoint]), List.append_nil]
    have hdrop : (whole ++ '.' :: places ++ rest).dropWhile isAsciiDigit = '.' :: (places ++ rest) := by
      rw [List.append_assoc, List.dropWhile_append_of_pos hwhole, List.cons_append,
        List.dropWhile_cons_of_neg (by simp [hpoint])]
    unfold numberAt
    rw [htake, hdrop]
    simp only [(hend hplaces).1, List.isEmpty_eq_false_iff.mpr hsome, Bool.false_eq_true, if_false]

theorem tokenAt_number {c : Char} {cs : List Char} (h : isNumeral (c :: cs) = true)
    (hrest : ∀ d ∈ rest.head?, isAsciiDigit d = false ∧ d ≠ '.') :
    tokenAt raw c (cs ++ rest) = .ok (some (.number (String.ofList (c :: cs))), cs.length) := by
  have hdigit : isAsciiDigit c = true := by
    obtain ⟨whole, places, hne, hwhole, -, ⟨-, he⟩ | ⟨-, he⟩⟩ := isNumeral_iff.mp h
    · exact hwhole c (he ▸ List.mem_cons_self)
    · obtain ⟨d, whole, rfl⟩ := List.exists_cons_of_ne_nil hne
      exact (List.cons.inj he).1 ▸ hwhole d List.mem_cons_self
  have hword := isWordChar_of_isAsciiDigit hdigit
  have hnumber := numberAt_append h hrest
  rw [List.cons_append] at hnumber
  rw [tokenAt_of_not_sign (not_sign_of_isWordChar hword),
    if_neg fun hb => ne_of_isWordChar hword (by decide) hb.1,
    if_neg fun hq => hq.elim (ne_of_isWordChar hword (by decide)) (ne_of_isWordChar hword (by decide)),
    if_pos hdigit, hnumber]
  rfl

/-! A written token is lexed as itself. -/

theorem Ends.next (h : Ends rest) {c : Char} (hc : c ∈ rest.head?) :
    isWordChar c = false ∧ isAsciiDigit c = false ∧ c ≠ '.' ∧ c ≠ '=' ∧ c ≠ '/' := by
  rcases h c hc with rfl | rfl | rfl <;> decide

theorem lineTokens_word {word : List Char} (h : isWord word = true) (hrest : Ends rest) :
    lineTokens raw 0 (word ++ rest) =
      (lineTokens raw 0 rest).map fun tokens => .ofWord word :: tokens := by
  cases word with
  | nil => cases h
  | cons c cs =>
    rw [List.cons_append, lineTokens_step (tokenAt_word h fun d hd => (hrest.next hd).1),
      List.drop_left]
    rfl

theorem lineTokens_keyword (h : t.keyword ≠ []) (hrest : Ends rest) :
    lineTokens raw 0 (t.keyword ++ rest) = (lineTokens raw 0 rest).map fun tokens => t :: tokens := by
  have hword : isWord t.keyword = true ∧ Token.ofWord t.keyword = t := by
    cases t <;> first | exact absurd rfl h | decide +kernel
  rw [lineTokens_word hword.1 hrest, hword.2]

theorem lineTokens_symbol (h : t.symbol ≠ []) (hrest : t = .openParen ∨ Ends rest) :
    lineTokens raw 0 (t.symbol ++ rest) = (lineTokens raw 0 rest).map fun tokens => t :: tokens := by
  have hequal : t ≠ .openParen → rest.head? ≠ some '=' := fun ht he =>
    ((hrest.resolve_left ht).next he).2.2.2.1 rfl
  cases t with
  | assign | greater | less =>
    rw [Token.symbol, List.singleton_append, lineTokens_cons]
    simp only [tokenAt, if_neg (hequal nofun)]
    rfl
  | colon | plus | minus | star | slash | percent | openParen | closeParen =>
    rw [Token.symbol, List.singleton_append, lineTokens_cons]
    rfl
  | equals | notEquals | greaterEqual | lessEqual =>
    rw [Token.symbol, List.cons_append, lineTokens_cons]
    rfl
  | _ => exact absurd rfl h

theorem lineTokens_written (h : t.isProper = true) (hrest : t = .openParen ∨ Ends rest) :
    lineTokens raw 0 (t.written ++ rest) = (lineTokens raw 0 rest).map fun tokens => t :: tokens := by
  have hkeyword (hwritten : t.written = t.keyword) (hne : t.keyword ≠ []) (ht : t ≠ .openParen) :
      lineTokens raw 0 (t.written ++ rest) = (lineTokens raw 0 rest).map fun tokens => t :: tokens :=
    hwritten ▸ lineTokens_keyword hne (hrest.resolve_left ht)
  have hsymbol (hwritten : t.written = t.symbol) (hne : t.symbol ≠ []) :
      lineTokens raw 0 (t.written ++ rest) = (lineTokens raw 0 rest).map fun tokens => t :: tokens :=
    hwritten ▸ lineTokens_symbol hne hrest
  cases t with
  | str s =>
    rw [Token.written, List.cons_append, List.append_assoc, List.singleton_append,
      lineTokens_step (tokenAt_quote (isQuote_quoteFor _) (quoteFor_not_mem h) rest), ← List.singleton_append, ← List.append_assoc,
      List.drop_left' (by simp), String.ofList_toList]
    rfl
  | ident name =>
    rw [Token.written, lineTokens_word (Token.isWord_of_isName h) (hrest.resolve_left nofun),
      Token.ofWord_of_isName h]
  | number digits =>
    have hends := hrest.resolve_left nofun
    have hdigits : isNumeral digits.toList = true := h
    rw [Token.written]
    cases hlist : digits.toList with
    | nil =>
      rw [hlist] at hdigits
      cases hdigits
    | cons c cs =>
      rw [hlist] at hdigits
      rw [List.cons_append, lineTokens_step (tokenAt_number hdigits fun d hd =>
        ⟨(hends.next hd).2.1, (hends.next hd).2.2.1⟩), List.drop_left, ← hlist, String.ofList_toList]
      rfl
  | newline | indent | dedent | eof => cases h
  | yieldWord | logWord | setWord | fromWord | gameWord | ifWord | elifWord | elseWord | repeatWord
  | andWord | orWord => exact hkeyword rfl (by decide) nofun
  | _ => exact hsymbol rfl (by decide)

theorem lineTokens_blank (rest : List Char) : lineTokens raw 0 (' ' :: rest) = lineTokens raw 0 rest := by
  have hblank : tokenAt raw ' ' rest = .ok (none, 0) := rfl
  rw [lineTokens_step hblank, List.drop_zero]
  cases lineTokens raw 0 rest <;> rfl

/-! A line of written tokens. -/

theorem ends_behind (t next : Token) (ts : List Token) :
    t = .openParen ∨ Ends ((if glued t next then [] else [' ']) ++ spelled (next :: ts)) := by
  by_cases hopen : t = .openParen
  · exact .inl hopen
  refine .inr ?_
  split
  · rename_i hglued
    obtain hnext | hnext : next = .closeParen ∨ next = .colon := by
      simpa [glued, hopen] using hglued
    all_goals
      subst hnext
      cases ts <;> intro c hc <;> obtain rfl := Option.some.inj hc <;> decide
  · intro c hc
    exact .inl (Option.some.inj hc).symm

theorem lineTokens_spelled (h : ∀ t ∈ ts, t.isProper = true) :
    lineTokens raw 0 (spelled ts) = .ok ts := by
  fun_induction spelled ts with
  | case1 => rfl
  | case2 t =>
    have hlex : lineTokens raw 0 (t.written ++ []) = (lineTokens raw 0 []).map fun tokens => t :: tokens :=
      lineTokens_written (h t List.mem_cons_self) (.inr nofun)
    rw [List.append_nil] at hlex
    exact hlex
  | case3 t next ts ih =>
    obtain ⟨ht, hts⟩ := List.forall_mem_cons.mp h
    rw [lineTokens_written ht (ends_behind t next ts)]
    have hrest : lineTokens raw 0 ((if glued t next then [] else [' ']) ++ spelled (next :: ts)) =
        lineTokens raw 0 (spelled (next :: ts)) := by
      split
      · rfl
      · exact lineTokens_blank _
    rw [hrest, ih hts]
    rfl

/-! The comment scanner passes over written tokens. -/

theorem cutComment_quoted {q : Char} (h : q ∉ body) (rest : List Char) :
    cutComment (some q) (body ++ q :: rest) = body ++ q :: cutComment none rest := by
  induction body with
  | nil => simp [cutComment]
  | cons c body ih =>
    obtain ⟨hc, h⟩ : q ≠ c ∧ q ∉ body := by simpa using h
    rw [List.cons_append, cutComment]
    simp only [if_neg (Ne.symm hc)]
    rw [ih h, List.cons_append]

def isPlain (c : Char) : Bool := c ≠ '#' && c ≠ '/' && !isQuote c

theorem cutComment_plain {cs : List Char} (h : ∀ c ∈ cs, isPlain c = true) (rest : List Char) :
    cutComment none (cs ++ rest) = cs ++ cutComment none rest := by
  induction cs with
  | nil => rfl
  | cons c cs ih =>
    obtain ⟨hc, h⟩ := List.forall_mem_cons.mp h
    obtain ⟨⟨hhash, hslash⟩, hquote⟩ : (c ≠ '#' ∧ c ≠ '/') ∧ isQuote c = false := by
      simpa [isPlain] using hc
    have hopen : (c = '"' || c = '\'') = false := hquote
    rw [List.cons_append, cutComment]
    simp only [hhash, hslash, decide_false, Bool.false_and, Bool.or_false, Bool.false_eq_true, if_false,
      hopen]
    rw [ih h, List.cons_append]

theorem isPlain_of_isWordChar {c : Char} (h : isWordChar c = true) : isPlain c = true := by
  simp [isPlain, isQuote_of_isWordChar h, ne_of_isWordChar h (d := '#') (by decide),
    ne_of_isWordChar h (d := '/') (by decide)]

theorem cutComment_written (h : t.isProper = true) (hrest : t = .openParen ∨ Ends rest) :
    cutComment none (t.written ++ rest) = t.written ++ cutComment none rest := by
  cases t with
  | str s =>
    have hquote := isQuote_quoteFor s.toList
    have hbody := quoteFor_not_mem h
    rw [Token.written, List.cons_append, List.append_assoc, List.singleton_append]
    generalize quoteFor s.toList = q at hquote hbody ⊢
    have hkept : cutComment none (q :: (s.toList ++ q :: rest)) =
        q :: cutComment (some q) (s.toList ++ q :: rest) := by
      obtain rfl | rfl : q = '"' ∨ q = '\'' := by simpa [isQuote] using hquote
      all_goals rfl
    rw [hkept, cutComment_quoted hbody]
    simp
  | ident name =>
    have hword := Token.isWord_of_isName h
    exact cutComment_plain (fun c hc => isPlain_of_isWordChar (isWordChar_of_mem hword hc)) rest
  | number digits =>
    refine cutComment_plain (fun c hc => ?_) rest
    rcases digit_or_point_of_mem h hc with hdigit | rfl
    · exact isPlain_of_isWordChar (isWordChar_of_isAsciiDigit hdigit)
    · decide
  | slash =>
    have hnext : rest.head? ≠ some '/' := fun he =>
      ((hrest.resolve_left (by decide)).next he).2.2.2.2 rfl
    change cutComment none ('/' :: rest) = '/' :: cutComment none rest
    rw [cutComment]
    simp [hnext]
  | newline | indent | dedent | eof => cases h
  | _ => exact cutComment_plain (forall_mem_of_all (by decide)) rest

theorem cutComment_spelled (h : ∀ t ∈ ts, t.isProper = true) :
    cutComment none (spelled ts) = spelled ts := by
  fun_induction spelled ts with
  | case1 => rfl
  | case2 t =>
    have hcut : cutComment none (t.written ++ []) = t.written ++ cutComment none [] :=
      cutComment_written (h t List.mem_cons_self) (.inr nofun)
    rw [List.append_nil] at hcut
    exact hcut.trans (List.append_nil _)
  | case3 t next ts ih =>
    obtain ⟨ht, hts⟩ := List.forall_mem_cons.mp h
    rw [cutComment_written ht (ends_behind t next ts)]
    split
    · rw [List.nil_append, ih hts]
    · rw [cutComment_plain (forall_mem_of_all (by decide)), ih hts]

/-! A written line keeps its ends, and is one line. -/

theorem written_solid (h : t.isProper = true) (hstr : ∀ s, t ≠ .str s) :
    t.written ≠ [] ∧ ∀ c ∈ t.written, isBlank c = false := by
  cases t with
  | str s => exact absurd rfl (hstr s)
  | ident name =>
    have hword := Token.isWord_of_isName h
    refine ⟨fun he => ?_, fun c hc => isBlank_of_isWordChar (isWordChar_of_mem hword hc)⟩
    rw [show name.toList = [] from he] at hword
    cases hword
  | number digits =>
    refine ⟨fun he => ?_, fun c hc => ?_⟩
    · rw [Token.isProper, show digits.toList = [] from he] at h
      cases h
    · rcases digit_or_point_of_mem h hc with hdigit | rfl
      · exact isBlank_of_isWordChar (isWordChar_of_isAsciiDigit hdigit)
      · decide
  | newline | indent | dedent | eof => cases h
  | _ => exact ⟨List.cons_ne_nil _ _, forall_mem_of_all (by decide)⟩

theorem isBlank_quoteFor (cs : List Char) : isBlank (quoteFor cs) = false := by
  unfold quoteFor
  split <;> decide

theorem written_ends (h : t.isProper = true) :
    (∃ c, t.written.head? = some c ∧ isBlank c = false) ∧
      ∃ c, t.written.getLast? = some c ∧ isBlank c = false := by
  by_cases hstr : ∃ s, t = .str s
  · obtain ⟨s, rfl⟩ := hstr
    exact ⟨⟨_, rfl, isBlank_quoteFor _⟩,
      ⟨quoteFor s.toList, by simp [Token.written, List.getLast?_cons], isBlank_quoteFor _⟩⟩
  · obtain ⟨hne, hsolid⟩ := written_solid h fun s he => hstr ⟨s, he⟩
    exact ⟨⟨_, List.head?_eq_some_head hne, hsolid _ (List.head_mem hne)⟩,
      ⟨_, List.getLast?_eq_some_getLast hne, hsolid _ (List.getLast_mem hne)⟩⟩

theorem spelled_ends (h : ∀ t ∈ ts, t.isProper = true) (hne : ts ≠ []) :
    (∃ c, (spelled ts).head? = some c ∧ isBlank c = false) ∧
      ∃ c, (spelled ts).getLast? = some c ∧ isBlank c = false := by
  fun_induction spelled ts with
  | case1 => exact absurd rfl hne
  | case2 t => exact written_ends (h t List.mem_cons_self)
  | case3 t next ts ih =>
    obtain ⟨ht, hts⟩ := List.forall_mem_cons.mp h
    obtain ⟨⟨c, hc, hcBlank⟩, -⟩ := written_ends ht
    obtain ⟨-, d, hd, hdBlank⟩ := ih hts (List.cons_ne_nil _ _)
    exact ⟨⟨c, by rw [List.head?_append, hc]; rfl, hcBlank⟩,
      ⟨d, by rw [List.getLast?_append, List.getLast?_append, hd]; rfl, hdBlank⟩⟩

theorem written_unbroken (h : t.isProper = true) : '\n' ∉ t.written := by
  intro hm
  by_cases hstr : ∃ s, t = .str s
  · obtain ⟨s, rfl⟩ := hstr
    have hquote : '\n' ≠ quoteFor s.toList := by
      unfold quoteFor
      split <;> decide
    have hmem : '\n' ∈ s.toList := by simpa [Token.written, hquote] using hm
    simp [Token.isProper, Token.fitsQuotes, hmem] at h
  · exact absurd ((written_solid h fun s he => hstr ⟨s, he⟩).2 _ hm) (by decide)

theorem spelled_unbroken (h : ∀ t ∈ ts, t.isProper = true) : '\n' ∉ spelled ts := by
  fun_induction spelled ts with
  | case1 => exact List.not_mem_nil
  | case2 t => exact written_unbroken (h t List.mem_cons_self)
  | case3 t next ts ih =>
    obtain ⟨ht, hts⟩ := List.forall_mem_cons.mp h
    simp only [List.mem_append, not_or]
    refine ⟨written_unbroken ht, ?_, ih hts⟩
    split <;> decide

end MacroEngine.Script
