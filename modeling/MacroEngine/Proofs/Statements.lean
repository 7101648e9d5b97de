import MacroEngine.Proofs.Expressions
import MacroEngine.Proofs.LineReading

/-! Statements, blocks and scripts as a relation between a stream and what is left of it behind
them. The readers give what the relation says, and the bound on their depth is never reached: every
level of a block or a branch takes a token. So they obey equations that do without it. -/
namespace MacroEngine.Script

inductive Item where
  | stmt (s : Stmt)
  | block (body : List Stmt)
  /-- The statements of a block that is open. -/
  | stmts (body : List Stmt)
  | elifs (blocks : List (Expr × List Stmt))
  | script (program : Program)

def Token.beginsStmt : Token → Bool
  | .dedent | .eof | .newline => false
  | _ => true

inductive Read : Item → List Lexeme → List Lexeme → Prop where
  | yield {ts rest after : List Lexeme} {command : Expr} {s : Stmt} : peek ts = .yieldWord →
      expression ts.tail = .ok (command, rest) →
      lineEnd (.yield (lineOf ts) command) rest = .ok (s, after) → Read (.stmt s) ts after
  | log {ts rest after : List Lexeme} {message : Expr} {s : Stmt} : peek ts = .logWord →
      expression ts.tail = .ok (message, rest) →
      lineEnd (.log message) rest = .ok (s, after) → Read (.stmt s) ts after
  | set {ts after : List Lexeme} {s : Stmt} : peek ts = .setWord →
      assignment (lineOf ts) ts.tail = .ok (s, after) → Read (.stmt s) ts after
  | branch {ts rest after last : List Lexeme} {condition : Expr} {body : List Stmt}
      {elifs : List (Expr × List Stmt)} : peek ts = .ifWord →
      expression ts.tail = .ok (condition, rest) → Read (.block body) rest after →
      Read (.elifs elifs) after last → peek last ≠ .elseWord →
      Read (.stmt (.branch condition body elifs none)) ts last
  | branchElse {ts rest after last final : List Lexeme} {condition : Expr}
      {body otherwise : List Stmt} {elifs : List (Expr × List Stmt)} : peek ts = .ifWord →
      expression ts.tail = .ok (condition, rest) → Read (.block body) rest after →
      Read (.elifs elifs) after last → peek last = .elseWord →
      Read (.block otherwise) last.tail final →
      Read (.stmt (.branch condition body elifs (some otherwise))) ts final
  | repeated {ts rest after : List Lexeme} {count : Expr} {body : List Stmt} :
      peek ts = .repeatWord → expression ts.tail = .ok (count, rest) →
      Read (.block body) rest after → Read (.stmt (.repeated (lineOf ts) count body)) ts after
  | block {ts rest after : List Lexeme} {body : List Stmt} : openBlock ts = .ok rest →
      Read (.stmts body) rest after → Read (.block body) ts after
  | dedent {ts : List Lexeme} : peek ts = .dedent → Read (.stmts []) ts ts.tail
  | end {ts : List Lexeme} : peek ts = .eof → Read (.stmts []) ts ts
  | emptyLine {ts after : List Lexeme} {body : List Stmt} : peek ts = .newline →
      Read (.stmts body) ts.tail after → Read (.stmts body) ts after
  | next {ts rest after : List Lexeme} {s : Stmt} {body : List Stmt} :
      (peek ts).beginsStmt = true → Read (.stmt s) ts rest → Read (.stmts body) rest after →
      Read (.stmts (s :: body)) ts after
  | elif {ts rest after last : List Lexeme} {condition : Expr} {body : List Stmt}
      {elifs : List (Expr × List Stmt)} : peek ts = .elifWord →
      expression ts.tail = .ok (condition, rest) → Read (.block body) rest after →
      Read (.elifs elifs) after last → Read (.elifs ((condition, body) :: elifs)) ts last
  | noElif {ts : List Lexeme} : peek ts ≠ .elifWord → Read (.elifs []) ts ts
  | scriptEnd {ts : List Lexeme} : peek ts = .eof → Read (.script []) ts ts
  | scriptLine {ts after : List Lexeme} {program : Program} : peek ts = .newline →
      Read (.script program) ts.tail after → Read (.script program) ts after
  | scriptNext {ts rest after : List Lexeme} {s : Stmt} {program : Program} :
      (peek ts).beginsStmt = true → peek ts ≠ .indent → Read (.stmt s) ts rest →
      Read (.script program) rest after → Read (.script (s :: program)) ts after

variable {ts rest : List Lexeme}

theorem beginsStmt_of {t : Token} (hdedent : t ≠ .dedent) (heof : t ≠ .eof)
    (hnewline : t ≠ .newline) : t.beginsStmt = true := by
  cases t <;> first | rfl | contradiction

/-- What the readers give is what the relation says. -/
theorem read_of_ok (fuel : Nat) :
    (∀ ts s rest, statement fuel ts = .ok (s, rest) → Read (.stmt s) ts rest) ∧
    (∀ ts body rest, block fuel ts = .ok (body, rest) → Read (.block body) ts rest) ∧
    (∀ ts body rest, blockRest fuel ts = .ok (body, rest) → Read (.stmts body) ts rest) ∧
    ∀ ts elifs rest, elifBlocks fuel ts = .ok (elifs, rest) → Read (.elifs elifs) ts rest := by
  induction fuel with
  | zero => exact ⟨nofun, nofun, nofun, nofun⟩
  | succ fuel ih =>
    obtain ⟨ihStatement, ihBlock, ihRest, ihElifs⟩ := ih
    refine ⟨fun ts s rest h => ?_, fun ts body rest h => ?_, fun ts body rest h => ?_,
      fun ts elifs rest h => ?_⟩
    · rw [statement] at h
      split at h
      · obtain ⟨⟨command, after⟩, hexpr, h⟩ := bind_eq_ok.mp h
        exact .yield ‹_› hexpr h
      · obtain ⟨⟨message, after⟩, hexpr, h⟩ := bind_eq_ok.mp h
        exact .log ‹_› hexpr h
      · exact .set ‹_› h
      · obtain ⟨⟨condition, after⟩, hexpr, h⟩ := bind_eq_ok.mp h
        obtain ⟨⟨body, after⟩, hbody, h⟩ := bind_eq_ok.mp h
        obtain ⟨⟨elifs, after⟩, helifs, h⟩ := bind_eq_ok.mp h
        dsimp only at h
        split at h
        · obtain ⟨⟨otherwise, after⟩, hotherwise, h⟩ := bind_eq_ok.mp h
          cases h
          exact .branchElse ‹_› hexpr (ihBlock _ _ _ hbody) (ihElifs _ _ _ helifs) ‹_›
            (ihBlock _ _ _ hotherwise)
        · cases h
          exact .branch ‹_› hexpr (ihBlock _ _ _ hbody) (ihElifs _ _ _ helifs) ‹_›
      · obtain ⟨⟨count, after⟩, hexpr, h⟩ := bind_eq_ok.mp h
        obtain ⟨⟨body, after⟩, hbody, h⟩ := bind_eq_ok.mp h
        cases h
        exact .repeated ‹_› hexpr (ihBlock _ _ _ hbody)
      · cases h
    · rw [block] at h
      obtain ⟨after, hopen, h⟩ := bind_eq_ok.mp h
      exact .block hopen (ihRest _ _ _ h)
    · rw [blockRest] at h
      split at h
      · cases h
        exact .dedent ‹_›
      · cases h
        exact .end ‹_›
      · exact .emptyLine ‹_› (ihRest _ _ _ h)
      · rename_i hdedent heof hnewline
        obtain ⟨⟨s, after⟩, hstmt, h⟩ := bind_eq_ok.mp h
        obtain ⟨⟨stmts, after⟩, hstmts, h⟩ := bind_eq_ok.mp h
        cases h
        exact .next (beginsStmt_of hdedent heof hnewline) (ihStatement _ _ _ hstmt) (ihRest _ _ _ hstmts)
    · rw [elifBlocks] at h
      split at h
      · obtain ⟨⟨condition, after⟩, hexpr, h⟩ := bind_eq_ok.mp h
        obtain ⟨⟨body, after⟩, hbody, h⟩ := bind_eq_ok.mp h
        obtain ⟨⟨elifs, after⟩, helifs, h⟩ := bind_eq_ok.mp h
        cases h
        exact .elif ‹_› hexpr (ihBlock _ _ _ hbody) (ihElifs _ _ _ helifs)
      · cases h
        exact .noElif ‹_›

theorem read_of_topLevel {fuel : Nat} {program : Program} (h : topLevel fuel ts = .ok program) :
    ∃ rest, Read (.script program) ts rest := by
  induction fuel generalizing ts program with
  | zero => cases h
  | succ fuel ih =>
    rw [topLevel] at h
    split at h
    · cases h
      exact ⟨ts, .scriptEnd ‹_›⟩
    · obtain ⟨rest, hread⟩ := ih h
      exact ⟨rest, .scriptLine ‹_› hread⟩
    · cases h
    · cases h
    · rename_i heof hnewline hdedent hindent
      obtain ⟨⟨s, after⟩, hstmt, h⟩ := bind_eq_ok.mp h
      obtain ⟨stmts, hstmts, h⟩ := bind_eq_ok.mp h
      cases h
      obtain ⟨rest, hread⟩ := ih hstmts
      exact ⟨rest, .scriptNext (beginsStmt_of hdedent heof hnewline) hindent
        ((read_of_ok fuel).1 _ _ _ hstmt) hread⟩

/-! What is read gets shorter. -/

theorem length_tail {t : Token} (h : peek ts = t) (ht : t ≠ .eof) :
    ts.tail.length + 1 = ts.length := by
  cases ts with
  | nil => exact absurd h.symm ht
  | cons _ _ => rfl

theorem expression_length {e : Expr} (h : expression ts = .ok (e, rest)) :
    rest.length + 1 ≤ ts.length := by
  obtain ⟨used, hne, htook⟩ := expression_took h
  rw [htook.split, List.length_append]
  have hpos := List.length_pos_iff.mpr hne
  omega

theorem expect_ok {token : Token} {fault : ParseFault} (h : expect token fault ts = .ok rest) :
    peek ts = token ∧ rest = ts.tail := by
  rw [expect] at h
  split at h
  · cases h
    exact ⟨‹_›, rfl⟩
  · cases h

theorem lineEnd_ok {s s' : Stmt} (h : lineEnd s ts = .ok (s', rest)) :
    s' = s ∧ (peek ts = .newline ∧ rest = ts.tail ∨
      (peek ts = .eof ∨ peek ts = .dedent) ∧ rest = ts) := by
  rw [lineEnd] at h
  split at h
  · cases h
    exact ⟨rfl, .inl ⟨‹_›, rfl⟩⟩
  · cases h
    exact ⟨rfl, .inr ⟨.inl ‹_›, rfl⟩⟩
  · cases h
    exact ⟨rfl, .inr ⟨.inr ‹_›, rfl⟩⟩
  · cases h

theorem lineEnd_length {s s' : Stmt} (h : lineEnd s ts = .ok (s', rest)) :
    rest.length ≤ ts.length := by
  obtain ⟨-, ⟨-, rfl⟩ | ⟨-, rfl⟩⟩ := lineEnd_ok h
  · simp
  · exact Nat.le_refl _

theorem openBlock_ok (h : openBlock ts = .ok rest) :
    peek ts = .colon ∧ peek ts.tail = .newline ∧ peek ts.tail.tail = .indent ∧
      rest = ts.tail.tail.tail := by
  obtain ⟨_, hfirst, h⟩ := bind_eq_ok.mp h
  obtain ⟨hcolon, rfl⟩ := expect_ok hfirst
  obtain ⟨_, hsecond, h⟩ := bind_eq_ok.mp h
  obtain ⟨hnewline, rfl⟩ := expect_ok hsecond
  obtain ⟨hindent, rfl⟩ := expect_ok h
  exact ⟨hcolon, hnewline, hindent, rfl⟩

theorem openBlock_length (h : openBlock ts = .ok rest) : rest.length + 3 = ts.length := by
  obtain ⟨hcolon, hnewline, hindent, rfl⟩ := openBlock_ok h
  have hfirst := length_tail hcolon nofun
  have hsecond := length_tail hnewline nofun
  have hthird := length_tail hindent nofun
  omega

theorem assignment_ok {line : Nat} {s : Stmt} (h : assignment line ts = .ok (s, rest)) :
    ∃ name, peek ts = .ident name ∧
      ((∃ value after, peek ts.tail = .assign ∧ expression ts.tail.tail = .ok (value, after) ∧
          lineEnd (.assign name value) after = .ok (s, rest)) ∨
        ∃ text query, peek ts.tail = .fromWord ∧ peek ts.tail.tail = .gameWord ∧
          peek ts.tail.tail.tail = .colon ∧ peek ts.tail.tail.tail.tail = .str text ∧
          Query.read text.toList = some query ∧
          lineEnd (.ask name query) ts.tail.tail.tail.tail.tail = .ok (s, rest)) := by
  unfold assignment at h
  split at h
  · rename_i name hname
    refine ⟨name, hname, ?_⟩
    dsimp only at h
    split at h
    · rename_i hassign
      obtain ⟨⟨value, after⟩, hexpr, h⟩ := bind_eq_ok.mp h
      exact .inl ⟨value, after, hassign, hexpr, h⟩
    · rename_i hfrom
      obtain ⟨_, hfirst, h⟩ := bind_eq_ok.mp h
      obtain ⟨hgame, rfl⟩ := expect_ok hfirst
      obtain ⟨_, hsecond, h⟩ := bind_eq_ok.mp h
      obtain ⟨hcolon, rfl⟩ := expect_ok hsecond
      split at h
      · rename_i text htext
        split at h
        · rename_i query hquery
          exact .inr ⟨text, query, hfrom, hgame, hcolon, htext, hquery, h⟩
        · cases h
      · cases h
    · cases h
  · cases h

theorem assignment_length {line : Nat} {s : Stmt} (h : assignment line ts = .ok (s, rest)) :
    rest.length ≤ ts.length := by
  have htail (us : List Lexeme) : us.tail.length ≤ us.length := by simp
  obtain ⟨name, -, ⟨value, after, -, hexpr, hend⟩ | ⟨text, query, -, -, -, -, -, hend⟩⟩ :=
    assignment_ok h
  · exact Nat.le_trans (lineEnd_length hend) (Nat.le_trans (Nat.le_of_succ_le (expression_length hexpr))
      (Nat.le_trans (htail _) (htail _)))
  · exact Nat.le_trans (lineEnd_length hend) (by simp; omega)

def Item.least : Item → Nat
  | .stmt _ | .block _ => 1
  | .stmts _ | .elifs _ | .script _ => 0

theorem Read.length {item : Item} (h : Read item ts rest) : rest.length + item.least ≤ ts.length := by
  induction h with
  | yield hpeek hexpr hend | log hpeek hexpr hend =>
    have hfirst := length_tail hpeek nofun
    have hvalue := expression_length hexpr
    have hline := lineEnd_length hend
    simp only [Item.least]
    omega
  | set hpeek hassign =>
    have hfirst := length_tail hpeek nofun
    have hvalue := assignment_length hassign
    simp only [Item.least]
    omega
  | branch hpeek hexpr _ _ _ hbody helifs =>
    have hfirst := length_tail hpeek nofun
    have hvalue := expression_length hexpr
    simp only [Item.least] at *
    omega
  | branchElse hpeek hexpr _ _ helse _ hbody helifs hotherwise =>
    have hfirst := length_tail hpeek nofun
    have hvalue := expression_length hexpr
    have hword := length_tail helse nofun
    simp only [Item.least] at *
    omega
  | repeated hpeek hexpr _ hbody =>
    have hfirst := length_tail hpeek nofun
    have hvalue := expression_length hexpr
    simp only [Item.least] at *
    omega
  | block hopen _ hbody =>
    have hlayout := openBlock_length hopen
    simp only [Item.least] at *
    omega
  | dedent hpeek => simp [Item.least]
  | «end» _ | noElif _ | scriptEnd _ => exact Nat.le_refl _
  | emptyLine hpeek _ hbody | scriptLine hpeek _ hbody =>
    have hfirst := length_tail hpeek nofun
    simp only [Item.least] at *
    omega
  | next _ _ _ hstmt hbody | scriptNext _ _ _ _ hstmt hbody =>
    simp only [Item.least] at *
    omega
  | elif hpeek hexpr _ _ hbody helifs =>
    have hfirst := length_tail hpeek nofun
    have hvalue := expression_length hexpr
    simp only [Item.least] at *
    omega

theorem Read.suffix {item : Item} (h : Read item ts rest) : rest <:+ ts := by
  have hexpr {ts rest : List Lexeme} {e : Expr} (h : expression ts.tail = .ok (e, rest)) :
      rest <:+ ts := by
    obtain ⟨used, -, htook⟩ := expression_took h
    exact List.IsSuffix.trans ⟨used, htook.split.symm⟩ (List.tail_suffix ts)
  have hend {ts rest : List Lexeme} {s s' : Stmt} (h : lineEnd s ts = .ok (s', rest)) :
      rest <:+ ts := by
    obtain ⟨-, ⟨-, rfl⟩ | ⟨-, rfl⟩⟩ := lineEnd_ok h
    · exact List.tail_suffix ts
    · exact List.suffix_refl _
  have htail (ts : List Lexeme) : ts.tail <:+ ts := List.tail_suffix ts
  induction h with
  | yield _ hvalue hline | log _ hvalue hline => exact (hend hline).trans (hexpr hvalue)
  | set _ hassign =>
    obtain ⟨name, -, ⟨value, after, -, hvalue, hline⟩ | ⟨text, query, -, -, -, -, -, hline⟩⟩ :=
      assignment_ok hassign
    · exact (hend hline).trans ((hexpr hvalue).trans ((htail _).trans (htail _)))
    · exact (hend hline).trans ((htail _).trans ((htail _).trans ((htail _).trans ((htail _).trans
        ((htail _).trans (htail _))))))
  | branch _ hvalue _ _ _ hbody helifs | elif _ hvalue _ _ hbody helifs =>
    exact helifs.trans (hbody.trans (hexpr hvalue))
  | branchElse _ hvalue _ _ _ _ hbody helifs hotherwise =>
    exact hotherwise.trans ((htail _).trans (helifs.trans (hbody.trans (hexpr hvalue))))
  | repeated _ hvalue _ hbody => exact hbody.trans (hexpr hvalue)
  | block hopen _ hbody =>
    obtain ⟨-, -, -, rfl⟩ := openBlock_ok hopen
    exact hbody.trans ((htail _).trans ((htail _).trans (htail _)))
  | dedent _ => exact htail _
  | «end» _ | noElif _ | scriptEnd _ => exact List.suffix_refl _
  | emptyLine _ _ hbody | scriptLine _ _ hbody => exact hbody.trans (htail _)
  | next _ _ _ hstmt hbody | scriptNext _ _ _ _ hstmt hbody => exact hbody.trans hstmt

/-! The bound on the depth. -/

theorem statement_length {n : Nat} {s : Stmt} (h : statement n ts = .ok (s, rest)) :
    rest.length < ts.length :=
  ((read_of_ok n).1 _ _ _ h).length

theorem block_length {n : Nat} {body : List Stmt} (h : block n ts = .ok (body, rest)) :
    rest.length < ts.length :=
  ((read_of_ok n).2.1 _ _ _ h).length

theorem elifBlocks_length {n : Nat} {elifs : List (Expr × List Stmt)}
    (h : elifBlocks n ts = .ok (elifs, rest)) : rest.length ≤ ts.length :=
  ((read_of_ok n).2.2.2 _ _ _ h).length

theorem bind_congr_ok {ε α β : Type} {x : Except ε α} {f g : α → Except ε β}
    (h : ∀ a, x = .ok a → f a = g a) : (x >>= f) = (x >>= g) := by
  cases x with
  | error e => rfl
  | ok a => exact h a rfl

theorem bound_irrelevant (f : Nat) : ∀ g,
    (∀ ts : List Lexeme, ts.length < f → ts.length < g → statement f ts = statement g ts) ∧
    (∀ ts : List Lexeme, ts.length < f → ts.length < g → block f ts = block g ts) ∧
    (∀ ts : List Lexeme, ts.length + 1 < f → ts.length + 1 < g → blockRest f ts = blockRest g ts) ∧
    ∀ ts : List Lexeme, ts.length < f → ts.length < g → elifBlocks f ts = elifBlocks g ts := by
  induction f with
  | zero => exact fun g => ⟨nofun, nofun, nofun, nofun⟩
  | succ f ih =>
    intro g
    cases g with
    | zero => exact ⟨nofun, nofun, nofun, nofun⟩
    | succ g =>
      obtain ⟨ihStatement, ihBlock, ihRest, ihElifs⟩ := ih g
      refine ⟨fun ts hf hg => ?_, fun ts hf hg => ?_, fun ts hf hg => ?_, fun ts hf hg => ?_⟩
      · rw [statement, statement]
        split
        · rfl
        · rfl
        · rfl
        · rename_i hpeek
          have hfirst := length_tail hpeek nofun
          refine bind_congr_ok fun ⟨condition, r⟩ hexpr => ?_
          have hvalue := expression_length hexpr
          dsimp only
          rw [ihBlock r (by omega) (by omega)]
          refine bind_congr_ok fun ⟨body, r'⟩ hbody => ?_
          have hblock := block_length hbody
          dsimp only
          rw [ihElifs r' (by omega) (by omega)]
          refine bind_congr_ok fun ⟨elifs, r''⟩ helifs => ?_
          have hmore := elifBlocks_length helifs
          dsimp only
          rw [ihBlock r''.tail (by simp; omega) (by simp; omega)]
        · rename_i hpeek
          have hfirst := length_tail hpeek nofun
          refine bind_congr_ok fun ⟨count, r⟩ hexpr => ?_
          have hvalue := expression_length hexpr
          dsimp only
          rw [ihBlock r (by omega) (by omega)]
        · rfl
      · rw [block, block]
        refine bind_congr_ok fun r hopen => ?_
        have hlayout := openBlock_length hopen
        exact ihRest r (by omega) (by omega)
      · rw [blockRest, blockRest]
        split
        · rfl
        · rfl
        · rename_i hpeek
          have hfirst := length_tail hpeek nofun
          exact ihRest _ (by omega) (by omega)
        · rw [ihStatement ts (by omega) (by omega)]
          refine bind_congr_ok fun ⟨s, r⟩ hstmt => ?_
          have hfirst := statement_length hstmt
          dsimp only
          rw [ihRest r (by omega) (by omega)]
      · rw [elifBlocks, elifBlocks]
        split
        · rename_i hpeek
          have hfirst := length_tail hpeek nofun
          refine bind_congr_ok fun ⟨condition, r⟩ hexpr => ?_
          have hvalue := expression_length hexpr
          dsimp only
          rw [ihBlock r (by omega) (by omega)]
          refine bind_congr_ok fun ⟨body, r'⟩ hbody => ?_
          have hblock := block_length hbody
          dsimp only
          rw [ihElifs r' (by omega) (by omega)]
        · rfl

/-! The readers with a bound that the stream itself gives. -/

def readStmt : Reader Stmt := fun ts => statement (ts.length + 1) ts

def readBlock : Reader (List Stmt) := fun ts => block (ts.length + 1) ts

def readStmts : Reader (List Stmt) := fun ts => blockRest (ts.length + 2) ts

def readElifs : Reader (List (Expr × List Stmt)) := fun ts => elifBlocks (ts.length + 1) ts

def readElse (condition : Expr) (body : List Stmt) (elifs : List (Expr × List Stmt)) : Reader Stmt :=
  fun ts =>
    if peek ts = .elseWord then
      readBlock.map (fun otherwise => .branch condition body elifs (some otherwise)) ts.tail
    else .ok (.branch condition body elifs none, ts)

def opening : Reader Unit := fun ts => (openBlock ts).map fun rest => ((), rest)

variable {t : Lexeme}

theorem block_eq {n : Nat} (h : rest.length < n) : block n rest = readBlock rest :=
  ((bound_irrelevant n _).2.1 rest h (Nat.lt_succ_self _))

theorem elifBlocks_eq {n : Nat} (h : rest.length < n) : elifBlocks n rest = readElifs rest :=
  (bound_irrelevant n _).2.2.2 rest h (Nat.lt_succ_self _)

theorem statement_eq {n : Nat} (h : rest.length < n) : statement n rest = readStmt rest :=
  (bound_irrelevant n _).1 rest h (Nat.lt_succ_self _)

theorem blockRest_eq {n : Nat} (h : rest.length + 1 < n) : blockRest n rest = readStmts rest :=
  (bound_irrelevant n _).2.2.1 rest h (Nat.lt_succ_self _)

open Reader

theorem readStmt_yield (h : t.token = .yieldWord) (ts : List Lexeme) :
    readStmt (t :: ts) = andThen expression (fun command => lineEnd (.yield t.line command)) ts := by
  rw [readStmt, statement, peek, h]
  rfl

theorem readStmt_log (h : t.token = .logWord) (ts : List Lexeme) :
    readStmt (t :: ts) = andThen expression (fun message => lineEnd (.log message)) ts := by
  rw [readStmt, statement, peek, h]
  rfl

theorem readStmt_set (h : t.token = .setWord) (ts : List Lexeme) :
    readStmt (t :: ts) = assignment t.line ts := by
  rw [readStmt, statement, peek, h]
  rfl

theorem readStmt_if (h : t.token = .ifWord) (ts : List Lexeme) :
    readStmt (t :: ts) =
      andThen expression (fun condition => andThen readBlock fun body =>
        andThen readElifs fun elifs => readElse condition body elifs) ts := by
  rw [readStmt, statement, peek, h]
  refine bind_congr_ok fun ⟨condition, r⟩ hexpr => ?_
  have hvalue := expression_length hexpr
  dsimp only [List.tail_cons, List.length_cons] at hvalue ⊢
  rw [block_eq (by omega)]
  refine bind_congr_ok fun ⟨body, r'⟩ hbody => ?_
  have hblock := block_length hbody
  dsimp only
  rw [elifBlocks_eq (by omega)]
  refine bind_congr_ok fun ⟨elifs, r''⟩ helifs => ?_
  have hmore := elifBlocks_length helifs
  dsimp only
  rw [block_eq (by simp; omega)]
  rfl

theorem readStmt_repeat (h : t.token = .repeatWord) (ts : List Lexeme) :
    readStmt (t :: ts) =
      andThen expression (fun count => readBlock.map (.repeated t.line count)) ts := by
  rw [readStmt, statement, peek, h]
  refine bind_congr_ok fun ⟨count, r⟩ hexpr => ?_
  have hvalue := expression_length hexpr
  dsimp only [List.tail_cons, List.length_cons] at hvalue ⊢
  rw [block_eq (by omega)]
  rfl

def Token.opensStmt : Token → Bool
  | .yieldWord | .logWord | .setWord | .ifWord | .repeatWord => true
  | _ => false

theorem readStmt_other (h : t.token.opensStmt = false) (ts : List Lexeme) :
    readStmt (t :: ts) = fail t.line (.unexpectedToken t.token) := by
  obtain ⟨token, line⟩ := t
  rw [readStmt, statement, peek]
  cases token <;> first | rfl | cases h

theorem readBlock_eq (ts : List Lexeme) : readBlock ts = andThen opening (fun _ => readStmts) ts := by
  rw [readBlock, block, andThen, opening]
  cases hopen : openBlock ts with
  | error e => rfl
  | ok r =>
    have hlayout := openBlock_length hopen
    exact blockRest_eq (by omega)

theorem readStmts_dedent (h : t.token = .dedent) (ts : List Lexeme) :
    readStmts (t :: ts) = .ok ([], ts) := by
  rw [readStmts, blockRest, peek, h]
  rfl

theorem readStmts_eof (h : t.token = .eof) (ts : List Lexeme) :
    readStmts (t :: ts) = .ok ([], t :: ts) := by
  rw [readStmts, blockRest, peek, h]

theorem readStmts_newline (h : t.token = .newline) (ts : List Lexeme) :
    readStmts (t :: ts) = readStmts ts := by
  rw [readStmts, blockRest, peek, h]
  exact blockRest_eq (by simp)

theorem readStmts_next (h : t.token.beginsStmt = true) (ts : List Lexeme) :
    readStmts (t :: ts) = readStmt.andThen (fun s => readStmts.map (s :: ·)) (t :: ts) := by
  rw [readStmts, blockRest]
  split
  · rename_i hpeek
    exact absurd h (by rw [show t.token = _ from hpeek]; decide)
  · rename_i hpeek
    exact absurd h (by rw [show t.token = _ from hpeek]; decide)
  · rename_i hpeek
    exact absurd h (by rw [show t.token = _ from hpeek]; decide)
  · rw [statement_eq (by simp)]
    refine bind_congr_ok fun ⟨s, r⟩ hstmt => ?_
    have hfirst := statement_length hstmt
    dsimp only
    rw [blockRest_eq (by omega)]
    rfl

theorem readElifs_elif (h : t.token = .elifWord) (ts : List Lexeme) :
    readElifs (t :: ts) = andThen expression (fun condition => readBlock.andThen fun body =>
      readElifs.map ((condition, body) :: ·)) ts := by
  rw [readElifs, elifBlocks, peek, if_pos h]
  refine bind_congr_ok fun ⟨condition, r⟩ hexpr => ?_
  have hvalue := expression_length hexpr
  dsimp only [List.tail_cons, List.length_cons] at hvalue ⊢
  rw [block_eq (by omega)]
  refine bind_congr_ok fun ⟨body, r'⟩ hbody => ?_
  have hblock := block_length hbody
  dsimp only
  rw [elifBlocks_eq (by omega)]
  rfl

theorem readElifs_none (h : peek ts ≠ .elifWord) : readElifs ts = .ok ([], ts) := by
  rw [readElifs, elifBlocks, if_neg h]

/-! Scripts. -/

theorem topLevel_bound_irrelevant {f g : Nat} (hf : ts.length + 1 < f) (hg : ts.length + 1 < g) :
    topLevel f ts = topLevel g ts := by
  induction f generalizing g ts with
  | zero => cases hf
  | succ f ih =>
    cases g with
    | zero => cases hg
    | succ g =>
      rw [topLevel, topLevel]
      split
      · rfl
      · rename_i hpeek
        have hfirst := length_tail hpeek nofun
        exact ih (by omega) (by omega)
      · rfl
      · rfl
      · rw [statement_eq (by omega), statement_eq (by omega)]
        refine bind_congr_ok fun ⟨s, r⟩ hstmt => ?_
        have hfirst := statement_length hstmt
        dsimp only
        have hrest : topLevel f r = topLevel g r := ih (by omega) (by omega)
        rw [hrest]

def readScript (ts : List Lexeme) : Except ScriptError Program := topLevel (ts.length + 2) ts

theorem ofLexemes_eq (ts : List Lexeme) : Program.ofLexemes ts = readScript ts :=
  topLevel_bound_irrelevant (by omega) (by omega)

theorem readScript_eof (h : t.token = .eof) (ts : List Lexeme) : readScript (t :: ts) = .ok [] := by
  rw [readScript, topLevel, peek, h]

theorem readScript_newline (h : t.token = .newline) (ts : List Lexeme) :
    readScript (t :: ts) = readScript ts := by
  rw [readScript, topLevel, peek, h]
  exact topLevel_bound_irrelevant (by simp) (by simp)

theorem readScript_layout (h : t.token = .indent ∨ t.token = .dedent) (ts : List Lexeme) :
    readScript (t :: ts) = fail t.line .unexpectedIndentation := by
  rw [readScript, topLevel, peek]
  rcases h with h | h <;> rw [h] <;> rfl

theorem readScript_next (h : t.token.beginsStmt = true) (hindent : t.token ≠ .indent)
    (ts : List Lexeme) : readScript (t :: ts) = (readStmt (t :: ts)).bind fun (s, rest) =>
      (readScript rest).map (s :: ·) := by
  obtain ⟨token, line⟩ := t
  have hnext (ts' : List Lexeme) (hlength : ts'.length + 1 ≤ (⟨token, line⟩ :: ts : List Lexeme).length) :
      topLevel ((⟨token, line⟩ :: ts : List Lexeme).length + 1) ts' = readScript ts' :=
    topLevel_bound_irrelevant (by omega) (by omega)
  have hstep : readScript (⟨token, line⟩ :: ts) =
      (do
        let (s, rest) ← statement ((⟨token, line⟩ :: ts : List Lexeme).length + 1) (⟨token, line⟩ :: ts)
        let stmts ← topLevel ((⟨token, line⟩ :: ts : List Lexeme).length + 1) rest
        pure (s :: stmts)) := by
    cases token <;> first | rfl | exact absurd rfl hindent | cases h
  rw [hstep, statement_eq (Nat.lt_succ_self _)]
  refine bind_congr_ok fun ⟨s, r⟩ hstmt => ?_
  have hfirst := statement_length hstmt
  dsimp only
  rw [hnext r hfirst]
  rfl

end MacroEngine.Script
