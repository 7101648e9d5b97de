import MacroEngine.Proofs.RoundTrip
import MacroEngine.Proofs.Statements
import MacroEngine.Proofs.WrittenExpressions
import MacroEngine.Proofs.WrittenTokens
import MacroEngine.Script.Grammar

/-! Programs as text. Each statement and each header stands on its own line, four blanks deeper for
every block that it stands in. The layout of such lines opens and closes a block where the program
has one, and reading them gives the program again. -/
namespace MacroEngine.Script
open Text

/-! Writing a program. -/

def Query.text : Query → String
  | .status name => "status " ++ name
  | .addon name => "addon " ++ name
  | .condition => "condition"
  | .quality => "quality"
  | .hqChance => "hq"
  | .item name => "item " ++ name
  | .target => "target"

structure WrittenLine where
  depth : Nat
  tokens : List Token

def WrittenLine.text (line : WrittenLine) : List Char :=
  List.replicate (4 * line.depth) ' ' ++ spelled line.tokens

def headerLine (depth : Nat) (word : Token) (e : Expr) : WrittenLine :=
  ⟨depth, word :: (e.tokens 0 ++ [.colon])⟩

mutual
def Stmt.lines (depth : Nat) : Stmt → List WrittenLine
  | .yield _ command => [⟨depth, .yieldWord :: command.tokens 0⟩]
  | .log message => [⟨depth, .logWord :: message.tokens 0⟩]
  | .assign name value => [⟨depth, .setWord :: .ident name :: .assign :: value.tokens 0⟩]
  | .ask name query =>
    [⟨depth, [.setWord, .ident name, .fromWord, .gameWord, .colon, .str query.text]⟩]
  | .branch condition body elifs none =>
    headerLine depth .ifWord condition :: (blockLines (depth + 1) body ++ elifLines depth elifs)
  | .branch condition body elifs (some otherwise) =>
    headerLine depth .ifWord condition :: (blockLines (depth + 1) body ++ (elifLines depth elifs ++
      ⟨depth, [.elseWord, .colon]⟩ :: blockLines (depth + 1) otherwise))
  | .repeated _ count body => headerLine depth .repeatWord count :: blockLines (depth + 1) body
def blockLines (depth : Nat) : List Stmt → List WrittenLine
  | [] => []
  | s :: rest => s.lines depth ++ blockLines depth rest
def elifLines (depth : Nat) : List (Expr × List Stmt) → List WrittenLine
  | [] => []
  | (condition, body) :: rest =>
    headerLine depth .elifWord condition :: (blockLines (depth + 1) body ++ elifLines depth rest)
end

def Program.text (program : Program) : List Char :=
  unlines ((blockLines 0 program).map WrittenLine.text)

/-! What can be written, and what is read again. -/

def Expr.isProper : Expr → Bool
  | .str s => Token.fitsQuotes s.toList
  | .number digits => isNumeral digits.toList
  | .var name => Token.isName name
  | .binary left _ right => left.isProper && right.isProper

def isQueryName (name : String) : Bool :=
  !name.toList.isEmpty && decide (trim name.toList = name.toList) && Token.fitsQuotes name.toList

def Query.isProper : Query → Bool
  | .status name | .addon name | .item name => isQueryName name
  | .condition | .quality | .hqChance | .target => true

mutual
/-- Can the statement be written? No block in it is empty. -/
def Stmt.isProper : Stmt → Bool
  | .yield _ command => command.isProper
  | .log message => message.isProper
  | .assign name value => Token.isName name && value.isProper
  | .ask name query => Token.isName name && query.isProper
  | .branch condition body elifs none =>
    condition.isProper && !body.isEmpty && allProper body && elifsProper elifs
  | .branch condition body elifs (some otherwise) =>
    condition.isProper && !body.isEmpty && allProper body && elifsProper elifs &&
      !otherwise.isEmpty && allProper otherwise
  | .repeated _ count body => count.isProper && !body.isEmpty && allProper body
def allProper : List Stmt → Bool
  | [] => true
  | s :: rest => s.isProper && allProper rest
def elifsProper : List (Expr × List Stmt) → Bool
  | [] => true
  | (condition, body) :: rest =>
    condition.isProper && !body.isEmpty && allProper body && elifsProper rest
end

mutual
def Stmt.unlined : Stmt → Stmt
  | .yield _ command => .yield 0 command
  | .log message => .log message
  | .assign name value => .assign name value
  | .ask name query => .ask name query
  | .branch condition body elifs none =>
    .branch condition (allUnlined body) (elifsUnlined elifs) none
  | .branch condition body elifs (some otherwise) =>
    .branch condition (allUnlined body) (elifsUnlined elifs) (some (allUnlined otherwise))
  | .repeated _ count body => .repeated 0 count (allUnlined body)
def allUnlined : List Stmt → List Stmt
  | [] => []
  | s :: rest => s.unlined :: allUnlined rest
def elifsUnlined : List (Expr × List Stmt) → List (Expr × List Stmt)
  | [] => []
  | (condition, body) :: rest => (condition, allUnlined body) :: elifsUnlined rest
end

/-! The layout of written lines. -/

def blocks : Nat → Depths
  | 0 => []
  | d + 1 => 4 * (d + 1) :: blocks d

/-- The layout between a line in `d` blocks and one in `d'`, at most one of them new. -/
def layoutTo (d d' : Nat) : List Token := if d < d' then [.indent] else List.replicate (d - d') .dedent

def layout (d : Nat) : List WrittenLine → List Token
  | [] => List.replicate d .dedent ++ [.eof]
  | line :: rest => layoutTo d line.depth ++ (line.tokens ++ .newline :: layout line.depth rest)

/-- Lines behind one in `d` blocks, where no line opens two blocks, and their tokens can be
written. -/
def Nested (d : Nat) : List WrittenLine → Prop
  | [] => True
  | line :: rest => line.depth ≤ d + 1 ∧ line.tokens ≠ [] ∧ (∀ t ∈ line.tokens, t.isProper = true) ∧
      Nested line.depth rest

theorem closeTo_blocks {d d' : Nat} (h : d' ≤ d) :
    relayout.closeTo (4 * d') (blocks d) = some (List.replicate (d - d') .dedent, blocks d') := by
  induction d with
  | zero =>
    obtain rfl := Nat.le_zero.mp h
    rfl
  | succ d ih =>
    rw [blocks, relayout.closeTo]
    rcases Nat.eq_or_lt_of_le h with rfl | hlt
    · simp [blocks]
    · have hle := Nat.le_of_lt_succ hlt
      rw [if_pos (by omega), ih hle, Nat.succ_sub hle]
      rfl

theorem relayout_blocks {d d' : Nat} (h : d' ≤ d + 1) :
    relayout (4 * d') (blocks d) = some (layoutTo d d', blocks d') := by
  unfold layoutTo
  rcases Nat.lt_or_ge d d' with hlt | hge
  · obtain rfl : d' = d + 1 := Nat.le_antisymm h hlt
    rw [if_pos hlt]
    cases d with
    | zero => rfl
    | succ d =>
      rw [blocks, relayout, if_pos (by omega)]
      rfl
  · rw [if_neg (Nat.not_lt.mpr hge), ← closeTo_blocks hge]
    cases d with
    | zero =>
      obtain rfl := Nat.le_zero.mp hge
      rfl
    | succ d =>
      rw [blocks, relayout, if_neg (by omega)]
      split
      · rename_i heq
        rw [relayout.closeTo, if_neg (by omega), if_pos heq]
      · rfl

theorem WrittenLine.lexed {line : WrittenLine} (hne : line.tokens ≠ [])
    (h : ∀ t ∈ line.tokens, t.isProper = true) :
    trim (cutComment none line.text) = spelled line.tokens ∧
      (line.text.takeWhile (· = ' ')).length = 4 * line.depth := by
  obtain ⟨⟨c, hc, hcBlank⟩, d, hd, hdBlank⟩ := spelled_ends h hne
  have hblanks : ∀ b ∈ List.replicate (4 * line.depth) ' ', b = ' ' := fun b hb =>
    List.eq_of_mem_replicate hb
  constructor
  · rw [text, cutComment_plain fun b hb => hblanks b hb ▸ by decide, cutComment_spelled h, trim,
      trimStart_blanks_append fun b hb => hblanks b hb ▸ by decide]
    refine trim_eq_self (fun b hb => ?_) fun b hb => ?_
    · rw [hc] at hb
      exact Option.some.inj hb ▸ hcBlank
    · rw [hd] at hb
      exact Option.some.inj hb ▸ hdBlank
  · obtain ⟨cs, hcs⟩ := List.head?_eq_some_iff.mp hc
    have hne : c ≠ ' ' := by
      rintro rfl
      revert hcBlank
      decide
    rw [text, List.takeWhile_append_of_pos fun b hb => by simpa using hblanks b hb, hcs,
      List.takeWhile_cons_of_neg (by simpa using hne), List.append_nil, List.length_replicate]

theorem length_blocks (d : Nat) : (blocks d).length = d := by
  induction d with
  | zero => rfl
  | succ d ih => rw [blocks, List.length_cons, ih]

theorem lexemesFrom_lines {d : Nat} {ls : List WrittenLine} (h : Nested d ls) (last n : Nat) :
    ∃ us, lexemesFrom (blocks d) last (numbered n (ls.map WrittenLine.text)) = .ok us ∧
      us.map Lexeme.token = layout d ls := by
  induction ls generalizing d last n with
  | nil =>
    refine ⟨_, rfl, ?_⟩
    simp [layout, length_blocks]
  | cons line ls ih =>
    obtain ⟨hdepth, hne, hproper, hrest⟩ := h
    obtain ⟨hbody, hmargin⟩ := WrittenLine.lexed hne hproper
    obtain ⟨us, hus, htokens⟩ := ih hrest n (n + 1)
    obtain ⟨⟨c, hc, -⟩, -⟩ := spelled_ends hproper hne
    rw [List.map_cons, numbered, lexemesFrom, hbody]
    split
    · rename_i hnil
      rw [hnil] at hc
      cases hc
    · rw [hmargin, relayout_blocks hdepth]
      dsimp only
      rw [lineTokens_spelled hproper, hus]
      refine ⟨_, rfl, ?_⟩
      simp [layout, htokens, Function.comp_def]

theorem Nested.of_mem {d : Nat} {ls : List WrittenLine} (h : Nested d ls) {line : WrittenLine}
    (hm : line ∈ ls) : line.tokens ≠ [] ∧ ∀ t ∈ line.tokens, t.isProper = true := by
  induction ls generalizing d with
  | nil => cases hm
  | cons first ls ih =>
    obtain ⟨-, hne, hproper, hrest⟩ := h
    rcases List.mem_cons.mp hm with rfl | hm
    · exact ⟨hne, hproper⟩
    · exact ih hrest hm

theorem lexemes_text {program : Program} (h : Nested 0 (blockLines 0 program)) :
    ∃ us, lexemes program.text = .ok us ∧
      us.map Lexeme.token = layout 0 (blockLines 0 program) := by
  have hlines : lines program.text = (blockLines 0 program).map WrittenLine.text := by
    refine lines_unlines fun l hl => ?_
    obtain ⟨line, hline, rfl⟩ := List.mem_map.mp hl
    obtain ⟨hne, hproper⟩ := h.of_mem hline
    obtain ⟨-, c, hc, hcBlank⟩ := spelled_ends hproper hne
    have hlast : line.text.getLast? = some c := by
      rw [WrittenLine.text, List.getLast?_append, hc]
      rfl
    refine ⟨fun he => ?_, ?_, fun he => ?_⟩
    · rw [he] at hlast
      cases hlast
    · rw [WrittenLine.text, List.mem_append, not_or]
      exact ⟨fun hm => absurd (List.eq_of_mem_replicate hm) (by decide), spelled_unbroken hproper⟩
    · rw [hlast] at he
      rw [Option.some.inj he] at hcBlank
      exact absurd hcBlank (by decide)
  rw [lexemes, hlines]
  exact lexemesFrom_lines h 0 1

/-! The lines of a program that can be written are nested. -/

theorem Nested.mono {c d : Nat} {ls : List WrittenLine} (h : Nested c ls) (hle : c ≤ d) :
    Nested d ls := by
  cases ls with
  | nil => trivial
  | cons line ls => exact ⟨Nat.le_trans h.1 (Nat.succ_le_succ hle), h.2⟩

theorem Expr.isProper_tokens {e : Expr} (h : e.isProper = true) (level : Nat) :
    ∀ t ∈ e.tokens level, t.isProper = true := by
  induction e generalizing level with
  | str s | number digits | var name => exact List.forall_mem_singleton.mpr h
  | binary left op right ihLeft ihRight =>
    obtain ⟨hleft, hright⟩ := Bool.and_eq_true_iff.mp h
    have hbare : ∀ t ∈ left.tokens op.leftLevel ++ op.token :: right.tokens (op.level + 1),
        t.isProper = true :=
      List.forall_mem_append.mpr ⟨ihLeft hleft _,
        List.forall_mem_cons.mpr ⟨by cases op <;> rfl, ihRight hright _⟩⟩
    rw [tokens]
    split
    · exact List.forall_mem_cons.mpr ⟨rfl, List.forall_mem_append.mpr ⟨hbare, by decide⟩⟩
    · exact hbare

theorem Query.fits_text {q : Query} (h : q.isProper = true) :
    Token.fitsQuotes q.text.toList = true := by
  have hnamed {word : List Char} {name : String} (hword : '\n' ∉ word ∧ '"' ∉ word ∧ '\'' ∉ word)
      (hname : isQueryName name = true) : Token.fitsQuotes (word ++ name.toList) = true := by
    have hfits := (Bool.and_eq_true_iff.mp hname).2
    simpa [Token.fitsQuotes, hword] using hfits
  cases q with
  | status name | addon name | item name =>
    rw [text, String.toList_append]
    exact hnamed (by decide) h
  | _ => decide

theorem nested_header {c d : Nat} {word : Token} {e : Expr} {rest : List WrittenLine}
    (hd : d ≤ c + 1) (hword : word.isProper = true) (h : e.isProper = true) (hrest : Nested d rest) :
    Nested c (headerLine d word e :: rest) :=
  ⟨hd, List.cons_ne_nil _ _, List.forall_mem_cons.mpr ⟨hword, List.forall_mem_append.mpr
    ⟨Expr.isProper_tokens h 0, by decide⟩⟩, hrest⟩

mutual
theorem Stmt.nested : (s : Stmt) → s.isProper = true → ∀ {c d : Nat} {rest : List WrittenLine},
    d ≤ c + 1 → Nested d rest → Nested c (s.lines d ++ rest)
  | .yield _ command, h, _, _, _, hd, hrest | .log command, h, _, _, _, hd, hrest =>
    ⟨hd, List.cons_ne_nil _ _, List.forall_mem_cons.mpr ⟨rfl, Expr.isProper_tokens h 0⟩, hrest⟩
  | .assign name value, h, _, _, _, hd, hrest => by
    obtain ⟨hname, hvalue⟩ := Bool.and_eq_true_iff.mp h
    refine ⟨hd, List.cons_ne_nil _ _, ?_, hrest⟩
    simp only [List.forall_mem_cons]
    exact ⟨rfl, hname, rfl, Expr.isProper_tokens hvalue 0⟩
  | .ask name query, h, _, _, _, hd, hrest => by
    obtain ⟨hname, hquery⟩ := Bool.and_eq_true_iff.mp h
    refine ⟨hd, List.cons_ne_nil _ _, ?_, hrest⟩
    simp only [List.forall_mem_cons, List.not_mem_nil]
    exact ⟨rfl, hname, rfl, rfl, rfl, Query.fits_text hquery, nofun⟩
  | .branch condition body elifs none, h, _, _, _, hd, hrest => by
    simp only [Stmt.isProper, Bool.and_eq_true] at h
    obtain ⟨⟨⟨hcondition, -⟩, hbody⟩, helifs⟩ := h
    have hmore := nested_elifLines elifs helifs hrest
    rw [Stmt.lines, List.cons_append, List.append_assoc]
    exact nested_header hd rfl hcondition
      (nested_blockLines body hbody (Nat.le_refl _) hmore (hmore.mono (Nat.le_succ _)))
  | .branch condition body elifs (some otherwise), h, _, d, _, hd, hrest => by
    simp only [Stmt.isProper, Bool.and_eq_true] at h
    obtain ⟨⟨⟨⟨⟨hcondition, -⟩, hbody⟩, helifs⟩, -⟩, hotherwise⟩ := h
    have helse := nested_blockLines otherwise hotherwise (Nat.le_refl _) hrest
      (hrest.mono (Nat.le_succ _))
    have hlines : Nested d (⟨d, [.elseWord, .colon]⟩ :: (blockLines (d + 1) otherwise ++ _)) :=
      ⟨Nat.le_succ _, List.cons_ne_nil _ _,
        List.forall_mem_cons.mpr ⟨rfl, List.forall_mem_singleton.mpr rfl⟩, helse⟩
    have hmore := nested_elifLines elifs helifs hlines
    rw [Stmt.lines, List.cons_append, List.append_assoc, List.append_assoc, List.cons_append]
    exact nested_header hd rfl hcondition
      (nested_blockLines body hbody (Nat.le_refl _) hmore (hmore.mono (Nat.le_succ _)))
  | .repeated _ count body, h, _, _, _, hd, hrest => by
    simp only [Stmt.isProper, Bool.and_eq_true] at h
    obtain ⟨⟨hcount, -⟩, hbody⟩ := h
    rw [Stmt.lines, List.cons_append]
    exact nested_header hd rfl hcount
      (nested_blockLines body hbody (Nat.le_refl _) hrest (hrest.mono (Nat.le_succ _)))
theorem nested_blockLines : (body : List Stmt) → allProper body = true →
    ∀ {c d : Nat} {rest : List WrittenLine}, d ≤ c + 1 → Nested c rest → Nested d rest →
      Nested c (blockLines d body ++ rest)
  | [], _, _, _, _, _, hrest, _ => hrest
  | s :: body, h, _, _, _, hd, _, hrest => by
    obtain ⟨hs, hbody⟩ := Bool.and_eq_true_iff.mp h
    rw [blockLines, List.append_assoc]
    exact s.nested hs hd (nested_blockLines body hbody (Nat.le_succ _) hrest hrest)
theorem nested_elifLines : (elifs : List (Expr × List Stmt)) → elifsProper elifs = true →
    ∀ {d : Nat} {rest : List WrittenLine}, Nested d rest → Nested d (elifLines d elifs ++ rest)
  | [], _, _, _, hrest => hrest
  | (condition, body) :: elifs, h, _, _, hrest => by
    simp only [elifsProper, Bool.and_eq_true] at h
    obtain ⟨⟨⟨hcondition, -⟩, hbody⟩, helifs⟩ := h
    have hmore := nested_elifLines elifs helifs hrest
    rw [elifLines, List.cons_append, List.append_assoc]
    exact nested_header (Nat.le_succ _) rfl hcondition
      (nested_blockLines body hbody (Nat.le_refl _) hmore (hmore.mono (Nat.le_succ _)))
end

/-! Reading the tokens of written lines. -/

/-- The lines of a statement begin with a word that begins a statement, at the statement's depth. -/
theorem Stmt.exists_lines (s : Stmt) (d : Nat) : ∃ t ts more,
    s.lines d = ⟨d, t :: ts⟩ :: more ∧ t.opensStmt = true := by
  cases s with
  | branch condition body elifs otherwise => cases otherwise <;> exact ⟨_, _, _, rfl, rfl⟩
  | _ => exact ⟨_, _, _, rfl, rfl⟩

theorem layout_same (d : Nat) (ts : List Token) (rest : List WrittenLine) :
    layout d (⟨d, ts⟩ :: rest) = ts ++ .newline :: layout d rest := by
  simp [layout, layoutTo]

theorem layout_open (d : Nat) (ts : List Token) (rest : List WrittenLine) :
    layout d (⟨d + 1, ts⟩ :: rest) = .indent :: layout (d + 1) (⟨d + 1, ts⟩ :: rest) := by
  simp [layout, layoutTo]

theorem layout_close {d : Nat} {rest : List WrittenLine} (h : ∀ l ∈ rest.head?, l.depth ≤ d) :
    layout (d + 1) rest = .dedent :: layout d rest := by
  cases rest with
  | nil => rfl
  | cons l rest =>
    have hle := h l rfl
    rw [layout, layout, layoutTo, layoutTo, if_neg (by omega), if_neg (by omega), Nat.succ_sub hle]
    rfl

/-- Do the lines leave the block of depth `d`, or go on in it with a word such as `p` says? -/
def Follows (p : Token → Prop) (d : Nat) (rest : List WrittenLine) : Prop :=
  ∀ l ∈ rest.head?, l.depth < d ∨ l.depth = d ∧ ∃ t ts, l.tokens = t :: ts ∧ p t

theorem Follows.depth_le {p : Token → Prop} {d : Nat} {rest : List WrittenLine}
    (h : Follows p d rest) : ∀ l ∈ rest.head?, l.depth ≤ d :=
  fun l hl => (h l hl).elim Nat.le_of_lt fun hsame => Nat.le_of_eq hsame.1

theorem peek_eq (us : List Lexeme) : peek us = (us.map Lexeme.token).head?.getD .eof := by
  cases us <;> rfl

theorem Follows.peek {p : Token → Prop} {d : Nat} {rest : List WrittenLine} (h : Follows p d rest)
    {us : List Lexeme} (hus : us.map Lexeme.token = layout d rest) :
    peek us = .dedent ∨ peek us = .eof ∨ p (peek us) := by
  rw [peek_eq, hus]
  cases rest with
  | nil =>
    cases d with
    | zero => exact .inr (.inl rfl)
    | succ d => exact .inl rfl
  | cons l rest =>
    rw [layout, layoutTo]
    rcases h l rfl with hlt | ⟨hdepth, t, ts, htokens, hp⟩
    · rw [if_neg (by omega), show d - l.depth = d - l.depth - 1 + 1 by omega]
      exact .inl rfl
    · simp only [hdepth, htokens, Nat.lt_irrefl, if_false, Nat.sub_self]
      exact .inr (.inr hp)

theorem follows_elifLines {p : Token → Prop} {d : Nat} {rest : List WrittenLine}
    (h : Follows p d rest) (elifs : List (Expr × List Stmt)) :
    Follows (fun t => p t ∨ t = .elifWord) d (elifLines d elifs ++ rest) := by
  cases elifs with
  | nil =>
    intro l hl
    refine (h l hl).imp_right fun ⟨hdepth, t, ts, htokens, hp⟩ => ⟨hdepth, t, ts, htokens, .inl hp⟩
  | cons first elifs =>
    rintro _ ⟨⟩
    exact .inr ⟨rfl, _, _, rfl, .inr rfl⟩

theorem follows_blockLines {d : Nat} {rest : List WrittenLine}
    (h : ∀ l ∈ rest.head?, l.depth < d) (body : List Stmt) :
    Follows (·.opensStmt = true) d (blockLines d body ++ rest) := by
  cases body with
  | nil => exact fun l hl => .inl (h l hl)
  | cons s body =>
    obtain ⟨t, ts, more, hlines, ht⟩ := s.exists_lines d
    rw [blockLines, hlines]
    rintro _ ⟨⟩
    exact .inr ⟨rfl, t, ts, rfl, ht⟩

/-- Reading gives a value such as `same` says, and leaves the tokens `more`. -/
def Regains {α : Type} (P : Reader α) (same : α → Prop) (us : List Lexeme) (more : List Token) : Prop :=
  ∃ x rest, P us = .ok (x, rest) ∧ same x ∧ rest.map Lexeme.token = more

theorem lineEnd_newline {us : List Lexeme} {more : List Token} (s : Stmt)
    (h : us.map Lexeme.token = .newline :: more) :
    ∃ rest, lineEnd s us = .ok (s, rest) ∧ rest.map Lexeme.token = more := by
  obtain ⟨n, rest, rfl, hn, hrest⟩ := List.map_eq_cons_iff.mp h
  exact ⟨rest, by rw [lineEnd, peek, hn]; rfl, hrest⟩

theorem opening_header {us : List Lexeme} {more : List Token}
    (h : us.map Lexeme.token = .colon :: .newline :: .indent :: more) :
    ∃ rest, opening us = .ok ((), rest) ∧ rest.map Lexeme.token = more := by
  obtain ⟨c, us, rfl, hc, h⟩ := List.map_eq_cons_iff.mp h
  obtain ⟨n, us, rfl, hn, h⟩ := List.map_eq_cons_iff.mp h
  obtain ⟨i, rest, rfl, hi, h⟩ := List.map_eq_cons_iff.mp h
  refine ⟨rest, ?_, h⟩
  simp [opening, openBlock, expect, peek, hc, hn, hi, bind, Except.bind, Except.map]

theorem Query.read_text {q : Query} (h : q.isProper = true) : Query.read q.text.toList = some q := by
  have hnamed (word : List Char) {name : String} (hword : ∀ c ∈ word, isBlank c = false)
      (hne : word ≠ []) (hname : isQueryName name = true) :
      cutAtBlank (trim (word ++ ' ' :: name.toList)) = (word, some name.toList) ∧
        trim name.toList = name.toList ∧ name.toList.isEmpty = false := by
    obtain ⟨⟨hsome, htrim⟩, -⟩ : (name.toList ≠ [] ∧ trim name.toList = name.toList) ∧
        Token.fitsQuotes name.toList = true := by simpa [isQueryName] using hname
    have hlast : ∀ c, name.toList.getLast? = some c → isBlank c = false := by
      rw [← htrim, trim]
      exact fun c => isBlank_of_getLast?_trimEnd
    refine ⟨?_, htrim, List.isEmpty_eq_false_iff.mpr hsome⟩
    rw [trim_eq_self, cutAtBlank_word hword (by decide)]
    · intro c hc
      obtain ⟨d, ds, rfl⟩ := List.exists_cons_of_ne_nil hne
      exact Option.some.inj hc ▸ hword d List.mem_cons_self
    · intro c hc
      rw [List.getLast?_append_of_ne_nil _ (List.cons_ne_nil _ _),
        List.getLast?_cons_of_ne_nil hsome] at hc
      exact hlast c hc
  cases q with
  | status name =>
    have hlist : (Query.status name).text.toList = "status".toList ++ ' ' :: name.toList :=
      String.toList_append
    have hword : String.ofList ("status".toList.map asciiLower) = "status" := by decide
    obtain ⟨hcut, htrim, hsome⟩ := hnamed "status".toList (forall_mem_of_all (by decide)) (by decide) h
    generalize "status".toList = word at hlist hword hcut
    simp only [Query.read, hlist, hcut, Option.getD_some, htrim, hsome, hword, Bool.false_eq_true,
      if_false, String.ofList_toList]
  | addon name =>
    have hlist : (Query.addon name).text.toList = "addon".toList ++ ' ' :: name.toList :=
      String.toList_append
    have hword : String.ofList ("addon".toList.map asciiLower) = "addon" := by decide
    obtain ⟨hcut, htrim, hsome⟩ := hnamed "addon".toList (forall_mem_of_all (by decide)) (by decide) h
    generalize "addon".toList = word at hlist hword hcut
    simp only [Query.read, hlist, hcut, Option.getD_some, htrim, hsome, hword, Bool.false_eq_true,
      if_false, String.ofList_toList]
  | item name =>
    have hlist : (Query.item name).text.toList = "item".toList ++ ' ' :: name.toList :=
      String.toList_append
    have hword : String.ofList ("item".toList.map asciiLower) = "item" := by decide
    obtain ⟨hcut, htrim, hsome⟩ := hnamed "item".toList (forall_mem_of_all (by decide)) (by decide) h
    generalize "item".toList = word at hlist hword hcut
    simp only [Query.read, hlist, hcut, Option.getD_some, htrim, hsome, hword, Bool.false_eq_true,
      if_false, String.ofList_toList]
  | _ => decide

/-! The lines of a program are read as the program. -/

open Reader

variable {d : Nat} {us : List Lexeme} {rest : List WrittenLine} {more : List Token}

theorem assignment_value {name : String} {value : Expr} (line : Nat)
    (h : us.map Lexeme.token = .ident name :: .assign :: (value.tokens 0 ++ .newline :: more)) :
    ∃ rest, assignment line us = .ok (.assign name value, rest) ∧ rest.map Lexeme.token = more := by
  obtain ⟨n, us, rfl, hn, h⟩ := List.map_eq_cons_iff.mp h
  obtain ⟨a, us, rfl, ha, h⟩ := List.map_eq_cons_iff.mp h
  obtain ⟨r, hexpr, hr⟩ := expression_tokens h ⟨_, _, rfl, rfl⟩
  obtain ⟨r, hend, hr⟩ := lineEnd_newline (.assign name value) hr
  refine ⟨r, ?_, hr⟩
  simp [assignment, peek, hn, ha, hexpr, hend, bind, Except.bind]

theorem assignment_query {name : String} {query : Query} (hquery : query.isProper = true) (line : Nat)
    (h : us.map Lexeme.token = .ident name :: .fromWord :: .gameWord :: .colon :: .str query.text ::
      .newline :: more) :
    ∃ rest, assignment line us = .ok (.ask name query, rest) ∧ rest.map Lexeme.token = more := by
  obtain ⟨n, us, rfl, hn, h⟩ := List.map_eq_cons_iff.mp h
  obtain ⟨f, us, rfl, hf, h⟩ := List.map_eq_cons_iff.mp h
  obtain ⟨g, us, rfl, hg, h⟩ := List.map_eq_cons_iff.mp h
  obtain ⟨c, us, rfl, hc, h⟩ := List.map_eq_cons_iff.mp h
  obtain ⟨q, us, rfl, hq, h⟩ := List.map_eq_cons_iff.mp h
  obtain ⟨r, hend, hr⟩ := lineEnd_newline (.ask name query) h
  refine ⟨r, ?_, hr⟩
  simp [assignment, expect, peek, hn, hf, hg, hc, hq, Query.read_text hquery, hend, bind, Except.bind]

theorem regains_block {body : List Stmt} (hbody : body.isEmpty = false)
    (hus : us.map Lexeme.token =
      .colon :: .newline :: layout d (blockLines (d + 1) body ++ rest))
    (hstmts : ∀ us : List Lexeme,
      us.map Lexeme.token = layout (d + 1) (blockLines (d + 1) body ++ rest) →
      Regains readStmts (allUnlined · = allUnlined body) us (layout d rest)) :
    Regains readBlock (allUnlined · = allUnlined body) us (layout d rest) := by
  obtain ⟨s, body, rfl⟩ := List.exists_cons_of_ne_nil (List.isEmpty_eq_false_iff.mp hbody)
  obtain ⟨t, ts, after, hlines, -⟩ := s.exists_lines (d + 1)
  have hindent : layout d (blockLines (d + 1) (s :: body) ++ rest) =
      .indent :: layout (d + 1) (blockLines (d + 1) (s :: body) ++ rest) := by
    rw [blockLines, hlines]
    exact layout_open d _ _
  rw [hindent] at hus
  obtain ⟨r, hopening, hr⟩ := opening_header hus
  obtain ⟨found, r', hread, hsame, hr'⟩ := hstmts r hr
  exact ⟨found, r', by rw [readBlock_eq, andThen_ok hopening, hread], hsame, hr'⟩

theorem header_tokens {word : Token} {e : Expr} {ls : List WrittenLine}
    (hus : us.map Lexeme.token = layout d (headerLine d word e :: ls)) :
    ∃ u us' r, us = u :: us' ∧ u.token = word ∧ expression us' = .ok (e, r) ∧
      r.map Lexeme.token = .colon :: .newline :: layout d ls := by
  rw [headerLine, layout_same, List.cons_append, List.append_assoc, List.singleton_append] at hus
  obtain ⟨u, us, rfl, hu, hus⟩ := List.map_eq_cons_iff.mp hus
  obtain ⟨r, hexpr, hr⟩ := expression_tokens hus ⟨_, _, rfl, rfl⟩
  exact ⟨u, us, r, rfl, hu, hexpr, hr⟩

mutual
theorem Stmt.regains : (s : Stmt) → s.isProper = true → ∀ {d us rest},
    us.map Lexeme.token = layout d (s.lines d ++ rest) → Follows (·.opensStmt = true) d rest →
    Regains readStmt (·.unlined = s.unlined) us (layout d rest)
  | .yield _ command, _, d, us, rest, hus, _ => by
    rw [Stmt.lines, List.singleton_append, layout_same, List.cons_append] at hus
    obtain ⟨u, us, rfl, hu, hus⟩ := List.map_eq_cons_iff.mp hus
    obtain ⟨r, hexpr, hr⟩ := expression_tokens hus ⟨_, _, rfl, rfl⟩
    obtain ⟨r, hend, hr⟩ := lineEnd_newline (.yield u.line command) hr
    exact ⟨.yield u.line command, r, by rw [readStmt_yield hu, andThen_ok hexpr, hend], rfl, hr⟩
  | .log message, _, d, us, rest, hus, _ => by
    rw [Stmt.lines, List.singleton_append, layout_same, List.cons_append] at hus
    obtain ⟨u, us, rfl, hu, hus⟩ := List.map_eq_cons_iff.mp hus
    obtain ⟨r, hexpr, hr⟩ := expression_tokens hus ⟨_, _, rfl, rfl⟩
    obtain ⟨r, hend, hr⟩ := lineEnd_newline (.log message) hr
    exact ⟨.log message, r, by rw [readStmt_log hu, andThen_ok hexpr, hend], rfl, hr⟩
  | .assign name value, _, d, us, rest, hus, _ => by
    rw [Stmt.lines, List.singleton_append, layout_same] at hus
    obtain ⟨u, us, rfl, hu, hus⟩ := List.map_eq_cons_iff.mp hus
    obtain ⟨r, hassign, hr⟩ := assignment_value u.line hus
    exact ⟨.assign name value, r, by rw [readStmt_set hu, hassign], rfl, hr⟩
  | .ask name query, h, d, us, rest, hus, _ => by
    obtain ⟨-, hquery⟩ := Bool.and_eq_true_iff.mp h
    rw [Stmt.lines, List.singleton_append, layout_same] at hus
    obtain ⟨u, us, rfl, hu, hus⟩ := List.map_eq_cons_iff.mp hus
    obtain ⟨r, hassign, hr⟩ := assignment_query hquery u.line hus
    exact ⟨.ask name query, r, by rw [readStmt_set hu, hassign], rfl, hr⟩
  | .branch condition body elifs none, h, d, us, rest, hus, hrest => by
    simp only [Stmt.isProper, Bool.and_eq_true, Bool.not_eq_true'] at h
    obtain ⟨⟨⟨-, hsome⟩, hbody⟩, helifs⟩ := h
    have hnext : Follows (· ≠ .elifWord) d rest := fun l hl =>
      (hrest l hl).imp_right fun ⟨hdepth, t, ts, htokens, ht⟩ =>
        ⟨hdepth, t, ts, htokens, by rintro rfl; cases ht⟩
    have hlow := (follows_elifLines hrest elifs).depth_le
    rw [Stmt.lines, List.cons_append, List.append_assoc] at hus
    obtain ⟨u, us, r, rfl, hu, hexpr, hr⟩ := header_tokens hus
    obtain ⟨body', r, hblock, hsameBody, hr⟩ :=
      regains_block hsome hr fun us hus => regains_blockLines body hbody hus hlow
    obtain ⟨elifs', r, hmore, hsameElifs, hr⟩ := regains_elifLines elifs helifs hr hnext
    have helse : peek r ≠ .elseWord := by
      rcases hrest.peek hr with he | he | he
      · rw [he]; nofun
      · rw [he]; nofun
      · rintro hword
        rw [hword] at he
        cases he
    refine ⟨.branch condition body' elifs' none, r, ?_, ?_, hr⟩
    · rw [readStmt_if hu, andThen_ok hexpr, andThen_ok hblock, andThen_ok hmore, readElse,
        if_neg helse]
    · simp only [Stmt.unlined, hsameBody, hsameElifs]
  | .branch condition body elifs (some otherwise), h, d, us, rest, hus, hrest => by
    simp only [Stmt.isProper, Bool.and_eq_true, Bool.not_eq_true'] at h
    obtain ⟨⟨⟨⟨⟨-, hsome⟩, hbody⟩, helifs⟩, hsomeElse⟩, hotherwise⟩ := h
    have hnext : Follows (· ≠ .elifWord) d
        (⟨d, [.elseWord, .colon]⟩ :: (blockLines (d + 1) otherwise ++ rest)) := by
      rintro _ ⟨⟩
      exact .inr ⟨rfl, _, _, rfl, nofun⟩
    have hlow := (follows_elifLines hnext elifs).depth_le
    rw [Stmt.lines, List.cons_append, List.append_assoc, List.append_assoc, List.cons_append] at hus
    obtain ⟨u, us, r, rfl, hu, hexpr, hr⟩ := header_tokens hus
    obtain ⟨body', r, hblock, hsameBody, hr⟩ :=
      regains_block hsome hr fun us hus => regains_blockLines body hbody hus hlow
    obtain ⟨elifs', r, hmore, hsameElifs, hr⟩ := regains_elifLines elifs helifs hr hnext
    rw [layout_same] at hr
    obtain ⟨o, r, rfl, ho, hr⟩ := List.map_eq_cons_iff.mp hr
    obtain ⟨otherwise', r, hlast, hsameElse, hr⟩ :=
      regains_block hsomeElse hr fun us hus =>
        regains_blockLines otherwise hotherwise hus hrest.depth_le
    refine ⟨.branch condition body' elifs' (some otherwise'), r, ?_, ?_, hr⟩
    · rw [readStmt_if hu, andThen_ok hexpr, andThen_ok hblock, andThen_ok hmore, readElse,
        peek, if_pos ho, List.tail_cons, map_ok hlast]
    · simp only [Stmt.unlined, hsameBody, hsameElifs, hsameElse]
  | .repeated _ count body, h, d, us, rest, hus, hrest => by
    simp only [Stmt.isProper, Bool.and_eq_true, Bool.not_eq_true'] at h
    obtain ⟨⟨-, hsome⟩, hbody⟩ := h
    rw [Stmt.lines, List.cons_append] at hus
    obtain ⟨u, us, r, rfl, hu, hexpr, hr⟩ := header_tokens hus
    obtain ⟨body', r, hblock, hsameBody, hr⟩ :=
      regains_block hsome hr fun us hus => regains_blockLines body hbody hus hrest.depth_le
    refine ⟨.repeated u.line count body', r, ?_, ?_, hr⟩
    · rw [readStmt_repeat hu, andThen_ok hexpr, map_ok hblock]
    · simp only [Stmt.unlined, hsameBody]
theorem regains_blockLines : (body : List Stmt) → allProper body = true → ∀ {d us rest},
    us.map Lexeme.token = layout (d + 1) (blockLines (d + 1) body ++ rest) →
    (∀ l ∈ rest.head?, l.depth ≤ d) →
    Regains readStmts (allUnlined · = allUnlined body) us (layout d rest)
  | [], _, d, us, rest, hus, hrest => by
    rw [blockLines, List.nil_append, layout_close hrest] at hus
    obtain ⟨u, us, rfl, hu, hus⟩ := List.map_eq_cons_iff.mp hus
    exact ⟨[], us, readStmts_dedent hu us, rfl, hus⟩
  | s :: body, h, d, us, rest, hus, hrest => by
    obtain ⟨hs, hbody⟩ := Bool.and_eq_true_iff.mp h
    have hnext := follows_blockLines (fun l hl => Nat.lt_succ_of_le (hrest l hl)) body
    obtain ⟨t, ts, after, hlines, ht⟩ := s.exists_lines (d + 1)
    rw [blockLines, List.append_assoc] at hus
    obtain ⟨s', r, hread, hsame, hr⟩ := s.regains hs hus hnext
    obtain ⟨body', r, hmore, hsameBody, hr⟩ := regains_blockLines body hbody hr hrest
    rw [hlines, List.cons_append, layout_same] at hus
    obtain ⟨u, us, rfl, hu, -⟩ := List.map_eq_cons_iff.mp hus
    have hbegins : u.token.beginsStmt = true := by
      rw [hu]
      cases t <;> first | rfl | cases ht
    refine ⟨s' :: body', r, ?_, ?_, hr⟩
    · rw [readStmts_next hbegins, andThen_ok hread, map_ok hmore]
    · simp only [allUnlined, hsame, hsameBody]
theorem regains_elifLines : (elifs : List (Expr × List Stmt)) → elifsProper elifs = true →
    ∀ {d us rest}, us.map Lexeme.token = layout d (elifLines d elifs ++ rest) →
    Follows (· ≠ .elifWord) d rest →
    Regains readElifs (elifsUnlined · = elifsUnlined elifs) us (layout d rest)
  | [], _, d, us, rest, hus, hrest => by
    refine ⟨[], us, readElifs_none ?_, rfl, hus⟩
    rcases hrest.peek hus with he | he | he
    · rw [he]; nofun
    · rw [he]; nofun
    · exact he
  | (condition, body) :: elifs, h, d, us, rest, hus, hrest => by
    simp only [elifsProper, Bool.and_eq_true, Bool.not_eq_true'] at h
    obtain ⟨⟨⟨-, hsome⟩, hbody⟩, helifs⟩ := h
    have hlow := (follows_elifLines hrest elifs).depth_le
    rw [elifLines, List.cons_append, List.append_assoc] at hus
    obtain ⟨u, us, r, rfl, hu, hexpr, hr⟩ := header_tokens hus
    obtain ⟨body', r, hblock, hsameBody, hr⟩ :=
      regains_block hsome hr fun us hus => regains_blockLines body hbody hus hlow
    obtain ⟨elifs', r, hmore, hsameElifs, hr⟩ := regains_elifLines elifs helifs hr hrest
    refine ⟨(condition, body') :: elifs', r, ?_, ?_, hr⟩
    · rw [readElifs_elif hu, andThen_ok hexpr, andThen_ok hblock, map_ok hmore]
    · simp only [elifsUnlined, hsameBody, hsameElifs]
end

theorem readScript_lines : (program : Program) → allProper program = true → ∀ {us},
    us.map Lexeme.token = layout 0 (blockLines 0 program) →
    ∃ program', readScript us = .ok program' ∧ allUnlined program' = allUnlined program
  | [], _, us, hus => by
    obtain ⟨u, us, rfl, hu, -⟩ := List.map_eq_cons_iff.mp hus
    exact ⟨[], readScript_eof hu us, rfl⟩
  | s :: program, h, us, hus => by
    obtain ⟨hs, hprogram⟩ := Bool.and_eq_true_iff.mp h
    have hnext : Follows (·.opensStmt = true) 0 (blockLines 0 program) := by
      have hfollows : Follows (·.opensStmt = true) 0 (blockLines 0 program ++ []) :=
        follows_blockLines (fun _ hl => by cases hl) program
      rwa [List.append_nil] at hfollows
    obtain ⟨t, ts, after, hlines, ht⟩ := s.exists_lines 0
    rw [blockLines] at hus
    obtain ⟨s', r, hread, hsame, hr⟩ := s.regains hs hus hnext
    obtain ⟨program', hmore, hsameMore⟩ := readScript_lines program hprogram hr
    rw [hlines, List.cons_append, layout_same] at hus
    obtain ⟨u, us, rfl, hu, -⟩ := List.map_eq_cons_iff.mp hus
    have hword : u.token.beginsStmt = true ∧ u.token ≠ .indent := by
      rw [hu]
      cases t <;> first | exact absurd ht Bool.false_ne_true | exact ⟨rfl, Token.noConfusion⟩
    refine ⟨s' :: program', ?_, ?_⟩
    · rw [readScript_next hword.1 hword.2, hread]
      simp [Except.bind, Except.map, hmore]
    · simp only [allUnlined, hsame, hsameMore]

/-- A program that can be written is read from its text, but for its line numbers. -/
theorem read_of_isProper {program : Program} (h : allProper program = true) :
    ∃ program', Program.read program.text = .ok program' ∧
      allUnlined program' = allUnlined program := by
  have hnested : Nested 0 (blockLines 0 program ++ []) :=
    nested_blockLines program h (Nat.le_succ 0) trivial trivial
  rw [List.append_nil] at hnested
  obtain ⟨us, hlexemes, hus⟩ := lexemes_text hnested
  obtain ⟨program', hread, hsame⟩ := readScript_lines program h hus
  exact ⟨program', by rw [Program.read, hlexemes]; exact (ofLexemes_eq us).trans hread, hsame⟩

end MacroEngine.Script
