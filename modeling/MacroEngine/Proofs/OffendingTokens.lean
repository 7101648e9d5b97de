import MacroEngine.Proofs.Statements

/-! The token at which a script cannot be read. What was read before it can always be completed, so
no earlier token is at fault; with it, no stream can be read. The error is about its line, also
where the readers give the line of the statement: no statement of `set` goes over a line end. -/
namespace MacroEngine.Script
open Reader

/-- Which token may stand behind statements that `old` stands behind. -/
def BehindStmts (old new : Token) : Prop :=
  new = old ∨ old ≠ .eof ∧ (new = .dedent ∨ new = .eof)

def EndsBranch (t : Token) : Prop := t ≠ .elifWord ∧ t ≠ .elseWord

def Nowhere (_ _ : Token) : Prop := False

variable {t : Lexeme} {ts rest : List Lexeme} {α : Type}

theorem BehindStmts.expr {old new : Token} (h : BehindStmts old new) : BehindExpr old new := by
  rcases h with rfl | ⟨-, rfl | rfl⟩
  · exact .inl rfl
  · exact .inr rfl
  · exact .inr rfl

theorem BehindStmts.ne {old new token : Token} (h : BehindStmts old new) (hold : old ≠ token)
    (hdedent : token ≠ .dedent) (heof : token ≠ .eof) : new ≠ token := by
  rcases h with rfl | ⟨-, rfl | rfl⟩
  · exact hold
  · exact hdedent.symm
  · exact heof.symm

theorem lineEnd_reads (s : Stmt) : Reads (lineEnd s) EndsBranch [⟨.newline, 0⟩] s := fun _ _ _ => rfl

theorem lineEnd_decided (s : Stmt) (hts : Lined ts) :
    Decided (lineEnd s) BehindStmts (fun _ new => new = .newline) EndsBranch ts := by
  obtain ⟨⟨token, line⟩, rest, rfl⟩ := hts.exists_cons
  have hblock (he : token = .eof ∨ token = .dedent) :
      Decided (lineEnd s) BehindStmts (fun _ new => new = .newline) EndsBranch
        (⟨token, line⟩ :: rest) := by
    have hread : lineEnd s (⟨token, line⟩ :: rest) = .ok (s, ⟨token, line⟩ :: rest) := by
      rcases he with rfl | rfl <;> rfl
    refine ⟨fun x r h => ?_, fun e h => (by rw [hread] at h; cases h)⟩
    rw [hread] at h
    cases h
    refine ⟨[], rfl, List.forall_mem_nil _, fun t' tail hnext => ?_⟩
    have hend : t'.token = .eof ∨ t'.token = .dedent := by
      rcases hnext with heq | ⟨-, heq | heq⟩
      · exact heq ▸ he
      · exact .inr heq
      · exact .inl heq
    rw [List.nil_append, lineEnd, peek]
    rcases hend with he | he <;> rw [he]
  cases token with
  | newline =>
    refine ⟨fun x r h => ?_, fun e h => (by cases h)⟩
    cases h
    exact ⟨[⟨.newline, line⟩], rfl, List.forall_mem_singleton.mpr (by simp), fun _ _ _ => rfl⟩
  | eof => exact hblock (.inl rfl)
  | dedent => exact hblock (.inr rfl)
  | _ =>
    exact .fails (e := .parse line .noLineEnd) rfl (fun _ => rfl) (lineEnd_reads s)
      (fun _ _ _ => rfl)

/-- A token that must stand at the front of the stream, and a reader of what is behind it. -/
def behind (token : Token) (fault : ParseFault) (R : Reader α) : Reader α := fun ts =>
  (expect token fault ts).bind R

theorem behind_eq {token : Token} (h : t.token = token) (fault : ParseFault) (R : Reader α)
    (ts : List Lexeme) : behind token fault R (t :: ts) = R ts := by
  rw [behind, expect, peek, if_pos h]
  rfl

theorem behind_reads {R : Reader α} {ends : Token → Prop} {more : List Lexeme} {x : α}
    (h : R.Reads ends more x) (token : Token) (fault : ParseFault) :
    (behind token fault R).Reads ends (⟨token, 0⟩ :: more) x :=
  fun t tail ht => (behind_eq rfl fault R (more ++ t :: tail)).trans (h t tail ht)

theorem behind_decided {token : Token} {fault : ParseFault} {R : Reader α}
    {next : Token → Token → Prop} {ends : Token → Prop} {more : List Lexeme} {x : α}
    (hts : Lined ts) (htoken : token ≠ .eof)
    (hR : ∀ t rest, ts = t :: rest → t.token = token →
      ∃ starts, R.Decided next starts ends rest)
    (hmore : R.Reads ends more x) :
    (behind token fault R).Decided next (fun _ new => new = token) ends ts := by
  obtain ⟨t, rest, rfl⟩ := hts.exists_cons
  by_cases ht : t.token = token
  · obtain ⟨starts, hrest⟩ := hR t rest rfl ht
    exact hrest.cons (ht ▸ htoken) (behind_eq ht fault R)
  · refine .fails (e := .parse t.line fault) rfl (fun ts => ?_) (behind_reads hmore token fault)
      (fun _ _ _ => rfl)
    rw [behind, expect, peek, if_neg ht]
    rfl

/-! Statements without blocks. -/

def queryText (line : Nat) (name : String) : Reader Stmt := fun ts =>
  match peek ts with
  | .str text =>
    match Query.read text.toList with
    | some query => lineEnd (.ask name query) ts.tail
    | none => .error (.unknownQuery line text)
  | _ => fail line .noQuery

theorem queryText_reads (line : Nat) (name : String) :
    (queryText line name).Reads EndsBranch [⟨.str "target", 0⟩, ⟨.newline, 0⟩] (.ask name .target) := by
  intro t tail _
  have htarget : Query.read "target".toList = some .target := by decide +kernel
  change (match Query.read "target".toList with
    | some query => lineEnd (.ask name query) (⟨.newline, 0⟩ :: t :: tail)
    | none => .error (.unknownQuery line "target")) = _
  rw [htarget]
  rfl

theorem queryText_decided {name : String} (hts : Lined (t :: ts)) (ht : t.token ≠ .newline)
    (heof : t.token ≠ .eof) :
    (queryText t.line name).Decided BehindStmts Unplaced EndsBranch ts := by
  obtain ⟨q, rest, rfl⟩ := (hts.tail heof).exists_cons
  have hline := hts.line_eq ht
  have hstop {e : ScriptError} (he : e.line? = some t.line)
      (here : ∀ ts, queryText t.line name (q :: ts) = .error e) :
      (queryText t.line name).Decided BehindStmts Unplaced EndsBranch (q :: rest) :=
    .fails (hline ▸ he) here (queryText_reads _ _) (fun _ _ _ => trivial)
  obtain ⟨token, line⟩ := q
  cases token with
  | str text =>
    cases hquery : Query.read text.toList with
    | some query =>
      refine (lineEnd_decided (.ask name query) ((hts.tail heof).tail nofun)).cons nofun fun ts => ?_
      rw [queryText, peek]
      dsimp only
      rw [hquery]
      rfl
    | none =>
      refine hstop (e := .unknownQuery t.line text) rfl fun ts => ?_
      rw [queryText, peek]
      dsimp only
      rw [hquery]
  | _ => exact hstop (e := .parse t.line .noQuery) rfl fun ts => rfl

theorem exprLine_decided (make : Expr → Stmt) (hts : Lined ts) :
    Decided (andThen expression fun e => lineEnd (make e)) BehindStmts Unplaced EndsBranch ts := by
  refine (expression_decided hts.ended).andThen
    (fun e used rest h => lineEnd_decided (make e) (h.lined hts))
    (fun _ => .inl rfl) (fun _ _ => BehindStmts.expr)
    (fun old new h => ⟨.inr (h ▸ rfl), trivial⟩)
    fun e => ⟨_, _, lineEnd_reads (make e), fun _ _ _ => rfl⟩

theorem assignment_from {line : Nat} {name : String} {v w : Lexeme} (hv : v.token = .ident name)
    (hw : w.token = .fromWord) (ts : List Lexeme) : assignment line (v :: w :: ts) =
      behind .gameWord .noGame (behind .colon .noColonAfterGame (queryText line name)) ts := by
  have hpeek (t : Lexeme) (us : List Lexeme) : peek (t :: us) = t.token := rfl
  unfold assignment behind
  simp only [hpeek, hv, hw, List.tail_cons]
  refine bind_congr_ok fun us _ => bind_congr_ok fun us' _ => ?_
  unfold queryText
  cases peek us' with
  | str text => cases hread : Query.read text.toList <;> simp only [hread]
  | _ => rfl

theorem assignment_decided (hts : Lined (t :: ts)) (ht : t.token = .setWord) :
    Decided (assignment t.line) BehindStmts Unplaced EndsBranch ts := by
  have hvars := hts.tail (by rw [ht]; nofun)
  obtain ⟨v, rest, rfl⟩ := hvars.exists_cons
  have hv := hts.line_eq (by rw [ht]; nofun)
  obtain ⟨token, line⟩ := v
  cases token with
  | ident name =>
    have hsources := hvars.tail nofun
    obtain ⟨w, rest, rfl⟩ := hsources.exists_cons
    have hw := hvars.line_eq nofun
    -- the reader behind the name
    let source : Reader Stmt := fun ts => assignment t.line (⟨.ident name, line⟩ :: ts)
    suffices hsource : source.Decided BehindStmts Unplaced EndsBranch (w :: rest) from
      hsource.cons nofun fun _ => rfl
    obtain ⟨token, line'⟩ := w
    cases token with
    | assign =>
      exact (exprLine_decided (.assign name) (hsources.tail nofun)).cons nofun fun _ => rfl
    | fromWord =>
      have hwords := hsources.tail nofun
      have hreads := queryText_reads t.line name
      have hgame : (behind .gameWord .noGame (behind .colon .noColonAfterGame
          (queryText t.line name))).Decided BehindStmts (fun _ new => new = .gameWord) EndsBranch
          rest := by
        refine behind_decided hwords nofun (fun g rest hg htoken => ⟨fun _ new => new = .colon, ?_⟩) (behind_reads hreads _ _)
        subst hg
        refine behind_decided (hwords.tail (by rw [htoken]; nofun)) nofun
          (fun c rest hc hcolon => ⟨Unplaced, ?_⟩) hreads
        subst hc
        have hlines : c.line = t.line := by
          rw [(hwords.line_eq (by rw [htoken]; nofun)), hsources.line_eq nofun]
          exact hw.trans hv
        rw [← hlines]
        exact queryText_decided (hwords.tail (by rw [htoken]; nofun)) (by rw [hcolon]; nofun)
          (by rw [hcolon]; nofun)
      exact hgame.cons nofun (assignment_from rfl rfl)
    | _ =>
      have hreads : source.Reads EndsBranch [⟨.assign, 0⟩, ⟨.number "0", 0⟩, ⟨.newline, 0⟩]
          (.assign name (.number "0")) := fun _ _ _ => rfl
      exact .fails (e := .parse t.line .noAssignment) (congrArg some (hw.trans hv).symm)
        (fun _ => rfl) hreads (fun _ _ _ => trivial)
  | _ =>
    have hreads : Reads (assignment t.line) EndsBranch
        [⟨.ident "x", 0⟩, ⟨.assign, 0⟩, ⟨.number "0", 0⟩, ⟨.newline, 0⟩]
        (.assign "x" (.number "0")) := fun _ _ _ => rfl
    exact .fails (e := .parse t.line .noVariable) (congrArg some hv.symm) (fun _ => rfl) hreads
      (fun _ _ _ => trivial)

/-! Statements with blocks. -/

theorem readBlock_behind : readBlock =
    behind .colon .noColon (behind .newline .noNewLine (behind .indent .noBlock readStmts)) := by
  funext ts
  rw [readBlock_eq, andThen, opening, openBlock, behind]
  cases expect .colon .noColon ts with
  | error e => rfl
  | ok ts =>
    change _ = behind .newline .noNewLine (behind .indent .noBlock readStmts) ts
    rw [behind]
    dsimp only [bind, Except.bind]
    cases expect .newline .noNewLine ts with
    | error e => rfl
    | ok ts =>
      dsimp only
      rw [behind]
      cases expect .indent .noBlock ts <;> rfl

structure BlocksDecided (ts : List Lexeme) : Prop where
  block : readBlock.Decided BehindStmts (fun _ new => new = .colon) EndsBranch ts
  stmts : readStmts.Decided BehindStmts BehindStmts EndsBranch ts
  elifs : readElifs.Decided BehindStmts Nowhere EndsBranch ts

theorem readStmts_reads : readStmts.Reads EndsBranch [⟨.dedent, 0⟩] [] :=
  fun _ _ _ => readStmts_dedent rfl _

def emptyBlock : List Lexeme := [⟨.colon, 0⟩, ⟨.newline, 0⟩, ⟨.indent, 0⟩, ⟨.dedent, 0⟩]

theorem readBlock_reads : readBlock.Reads EndsBranch emptyBlock [] := by
  rw [readBlock_behind]
  exact behind_reads (behind_reads (behind_reads readStmts_reads _ _) _ _) _ _

theorem readElifs_reads : readElifs.Reads EndsBranch [] [] := fun _ _ h => readElifs_none h.1

theorem readElse_reads (condition : Expr) (body : List Stmt) (elifs : List (Expr × List Stmt)) :
    (readElse condition body elifs).Reads EndsBranch [] (.branch condition body elifs none) :=
  fun _ _ h => if_neg h.2

theorem readElse_decided {condition : Expr} {body : List Stmt} {elifs : List (Expr × List Stmt)}
    (hts : Lined ts) (h : ∀ t rest, ts = t :: rest → t.token = .elseWord →
      readBlock.Decided BehindStmts (fun _ new => new = .colon) EndsBranch rest) :
    (readElse condition body elifs).Decided BehindStmts Nowhere EndsBranch ts := by
  obtain ⟨t, rest, rfl⟩ := hts.exists_cons
  by_cases ht : t.token = .elseWord
  · exact ((h t rest rfl ht).map _).cons (by rw [ht]; nofun) fun _ => if_pos ht
  · have hread : readElse condition body elifs (t :: rest) = .ok (_, t :: rest) := if_neg ht
    refine ⟨fun x r hx => ?_, fun e he => (by rw [hread] at he; cases he)⟩
    rw [hread] at hx
    cases hx
    exact ⟨[], rfl, List.forall_mem_nil _, fun t' tail hnext => if_neg (hnext.ne ht nofun nofun)⟩

variable {n : Nat}

theorem branch_decided (ih : ∀ us : List Lexeme, us.length < n → Lined us → BlocksDecided us)
    (hts : Lined ts) (hn : ts.length < n) (condition : Expr) :
    Decided (readBlock.andThen fun body => readElifs.andThen fun elifs =>
      readElse condition body elifs) BehindStmts (fun _ new => new = .colon) EndsBranch ts := by
  refine (ih ts hn hts).block.andThen (fun body used rest h => ?_) (fun _ => .inl rfl)
    (fun _ _ h => h) (fun _ _ h => False.elim h)
    fun body => ⟨_, _, readElifs_reads.andThen (readElse_reads _ _ _) (fun _ _ h => h), fun _ _ h => h⟩
  have hrest : rest.length < n := Nat.lt_of_le_of_lt h.length_le hn
  refine (ih rest hrest (h.lined hts)).elifs.andThen (fun elifs used after h' => ?_)
    (fun _ => .inl rfl) (fun _ _ h => h) (fun _ _ h => False.elim h)
    fun elifs => ⟨_, _, readElse_reads _ _ _, fun _ _ h => h⟩
  refine readElse_decided (h'.lined (h.lined hts)) fun t last heq ht => ?_
  subst heq
  have hlength := h'.length_le
  rw [List.length_cons] at hlength
  exact (ih last (by omega) ((h'.lined (h.lined hts)).tail (by rw [ht]; nofun))).block

def stmtAfter (t : Lexeme) : Reader Stmt := fun ts => readStmt (t :: ts)

theorem stmtAfter_decided (ih : ∀ us : List Lexeme, us.length < n → Lined us → BlocksDecided us)
    (hts : Lined (t :: ts)) (hn : ts.length < n) (ht : t.token.opensStmt = true) :
    (stmtAfter t).Decided BehindStmts Unplaced EndsBranch ts := by
  have heof : t.token ≠ .eof := fun he => by rw [he] at ht; cases ht
  have htail := hts.tail heof
  obtain ⟨token, line⟩ := t
  cases token with
  | yieldWord =>
    have hstep : stmtAfter ⟨.yieldWord, line⟩ = _ := funext (readStmt_yield rfl)
    rw [hstep]
    exact exprLine_decided (.yield line) htail
  | logWord =>
    have hstep : stmtAfter ⟨.logWord, line⟩ = _ := funext (readStmt_log rfl)
    rw [hstep]
    exact exprLine_decided .log htail
  | setWord =>
    have hstep : stmtAfter ⟨.setWord, line⟩ = _ := funext (readStmt_set rfl)
    rw [hstep]
    exact assignment_decided hts rfl
  | ifWord =>
    have hstep : stmtAfter ⟨.ifWord, line⟩ = _ := funext (readStmt_if rfl)
    rw [hstep]
    exact (expression_decided htail.ended).andThen
      (fun condition used rest h =>
        branch_decided ih (h.lined htail) (Nat.lt_of_le_of_lt h.length_le hn) condition)
      (fun _ => .inl rfl) (fun _ _ => BehindStmts.expr) (fun _ _ h => ⟨.inr (h ▸ rfl), trivial⟩)
      fun condition => ⟨_, _, readBlock_reads.andThen
        (readElifs_reads.andThen (readElse_reads _ _ _) fun _ _ h => h) (fun _ _ h => h),
        fun _ _ _ => rfl⟩
  | repeatWord =>
    have hstep : stmtAfter ⟨.repeatWord, line⟩ = _ := funext (readStmt_repeat rfl)
    rw [hstep]
    exact (expression_decided htail.ended).andThen
      (fun count used rest h =>
        (ih rest (Nat.lt_of_le_of_lt h.length_le hn) (h.lined htail)).block.map _)
      (fun _ => .inl rfl) (fun _ _ => BehindStmts.expr) (fun _ _ h => ⟨.inr (h ▸ rfl), trivial⟩)
      fun count => ⟨_, _, readBlock_reads.map _, fun _ _ _ => rfl⟩
  | _ => cases ht

theorem readStmts_eq (ht : t.token.opensStmt = true) (ts : List Lexeme) :
    readStmts (t :: ts) = (stmtAfter t).andThen (fun s => readStmts.map (s :: ·)) ts :=
  readStmts_next (by obtain ⟨token, line⟩ := t; cases token <;> first | rfl | cases ht) ts

/-- A token that neither begins a statement nor ends a block. -/
theorem readStmts_other (ht : t.token.opensStmt = false) (hbegins : t.token.beginsStmt = true)
    (ts : List Lexeme) : readStmts (t :: ts) = fail t.line (.unexpectedToken t.token) := by
  rw [readStmts_next hbegins, andThen_error (readStmt_other ht ts)]
  rfl

theorem readStmts_decided (ih : ∀ us : List Lexeme, us.length < n → Lined us → BlocksDecided us)
    (hts : Lined ts) (hn : ts.length ≤ n) :
    readStmts.Decided BehindStmts BehindStmts EndsBranch ts := by
  obtain ⟨t, rest, rfl⟩ := hts.exists_cons
  rw [List.length_cons] at hn
  have other (ht : t.token.opensStmt = false) (hbegins : t.token.beginsStmt = true) :
      readStmts.Decided BehindStmts BehindStmts EndsBranch (t :: rest) := by
    refine .fails (e := .parse t.line (.unexpectedToken t.token)) rfl (readStmts_other ht hbegins)
      readStmts_reads fun _ _ _ => .inr ⟨fun he => ?_, .inl rfl⟩
    rw [he] at hbegins
    cases hbegins
  have opened (ht : t.token.opensStmt = true) (heof : t.token ≠ .eof) :
      readStmts.Decided BehindStmts BehindStmts EndsBranch (t :: rest) := by
    have hrest := (stmtAfter_decided ih hts hn ht).andThen
      (fun s used after h => ((ih after (Nat.lt_of_le_of_lt h.length_le hn)
        (h.lined (hts.tail heof))).stmts.map (s :: ·)))
      (fun _ => .inl rfl) (fun _ _ h => h) (fun _ _ h => ⟨h, trivial⟩)
      fun s => ⟨_, _, readStmts_reads.map _, fun _ _ _ => ⟨nofun, nofun⟩⟩
    exact hrest.cons heof (readStmts_eq ht)
  obtain ⟨token, line⟩ := t
  cases token with
  | dedent =>
    refine ⟨fun x r h => ?_, fun e h => (by rw [readStmts_dedent rfl] at h; cases h)⟩
    rw [readStmts_dedent rfl] at h
    cases h
    exact ⟨[⟨.dedent, line⟩], rfl, List.forall_mem_singleton.mpr nofun,
      fun t' tail _ => readStmts_dedent rfl _⟩
  | eof =>
    refine ⟨fun x r h => ?_, fun e h => (by rw [readStmts_eof rfl] at h; cases h)⟩
    rw [readStmts_eof rfl] at h
    cases h
    refine ⟨[], rfl, List.forall_mem_nil _, fun t' tail hnext => readStmts_eof ?_ _⟩
    exact hnext.elim id fun h => absurd rfl h.1
  | newline =>
    exact (ih rest hn (hts.tail nofun)).stmts.cons nofun (readStmts_newline rfl)
  | yieldWord | logWord | setWord | ifWord | repeatWord => exact opened rfl nofun
  | _ => exact other rfl rfl

theorem readElifs_decided (ih : ∀ us : List Lexeme, us.length < n → Lined us → BlocksDecided us)
    (hts : Lined ts) (hn : ts.length ≤ n) :
    readElifs.Decided BehindStmts Nowhere EndsBranch ts := by
  obtain ⟨t, rest, rfl⟩ := hts.exists_cons
  rw [List.length_cons] at hn
  by_cases ht : t.token = .elifWord
  · have htail := hts.tail (by rw [ht]; nofun)
    suffices hrest : Decided (andThen expression fun condition => readBlock.andThen fun body =>
        readElifs.map ((condition, body) :: ·)) BehindStmts Unplaced EndsBranch rest from
      hrest.cons (by rw [ht]; nofun) (readElifs_elif ht)
    refine (expression_decided htail.ended).andThen (fun condition used after h => ?_)
      (fun _ => .inl rfl) (fun _ _ => BehindStmts.expr)
      (fun old new (h : new = .colon) => ⟨.inr (h ▸ rfl), trivial⟩)
      fun condition => ⟨_, _, readBlock_reads.andThen (readElifs_reads.map _) (fun _ _ h => h),
        fun _ _ _ => rfl⟩
    have hafter := Nat.lt_of_le_of_lt h.length_le hn
    refine (ih after hafter (h.lined htail)).block.andThen (fun body used last h' => ?_)
      (fun _ => .inl rfl) (fun _ _ h => h) (fun _ _ h => False.elim h)
      fun body => ⟨_, _, readElifs_reads.map _, fun _ _ h => h⟩
    exact (ih last (Nat.lt_of_le_of_lt h'.length_le hafter) (h'.lined (h.lined htail))).elifs.map _
  · have hread : readElifs (t :: rest) = .ok ([], t :: rest) := readElifs_none ht
    refine ⟨fun x r hx => ?_, fun e he => (by rw [hread] at he; cases he)⟩
    rw [hread] at hx
    cases hx
    exact ⟨[], rfl, List.forall_mem_nil _,
      fun t' tail hnext => readElifs_none (hnext.ne ht nofun nofun)⟩

/-- The induction is on the length of the stream: a block takes the layout that opens it, and a
statement its first word. -/
theorem blocksDecided (hts : Lined ts) : BlocksDecided ts := by
  generalize hn : ts.length = n
  induction n using Nat.strongRecOn generalizing ts with
  | ind n ih =>
    have ih : ∀ us : List Lexeme, us.length < n → Lined us → BlocksDecided us :=
      fun us hlength hus => ih us.length hlength hus rfl
    refine ⟨?_, readStmts_decided ih hts hn.le, readElifs_decided ih hts hn.le⟩
    rw [readBlock_behind]
    refine behind_decided hts nofun (fun c after hc hcolon => ⟨fun _ new => new = .newline, ?_⟩)
      (behind_reads (behind_reads readStmts_reads _ _) _ _)
    subst hc
    have hafter := hts.tail (by rw [hcolon]; nofun)
    refine behind_decided hafter nofun (fun l after hl hnewline => ⟨fun _ new => new = .indent, ?_⟩)
      (behind_reads readStmts_reads _ _)
    subst hl
    have hafter := hafter.tail (by rw [hnewline]; nofun)
    refine behind_decided hafter nofun (fun i after hi hindent => ⟨BehindStmts, ?_⟩)
      readStmts_reads
    subst hi
    simp only [List.length_cons] at hn
    exact readStmts_decided ih (hafter.tail (by rw [hindent]; nofun)) (by omega)

/-! Scripts. -/

/-- The token that the error `e` is about: no stream with it behind `before` is read, and some
stream that begins with `before` is. -/
structure Offends (before : List Lexeme) (t : Lexeme) (e : ScriptError) : Prop where
  line : e.line? = some t.line
  here : ∀ tail, Program.ofLexemes (before ++ t :: tail) = .error e
  passable : ∃ more program, Program.ofLexemes (before ++ more) = .ok program

variable {e : ScriptError}

theorem opensStmt_begins (ht : t.token.opensStmt = true) :
    t.token.beginsStmt = true ∧ t.token ≠ .indent := by
  obtain ⟨token, line⟩ := t
  cases token <;> first | exact absurd ht Bool.false_ne_true | exact ⟨rfl, Token.noConfusion⟩

theorem readScript_stmt (ht : t.token.opensStmt = true) {s : Stmt} (h : stmtAfter t ts = .ok (s, rest)) :
    readScript (t :: ts) = (readScript rest).map (s :: ·) := by
  rw [readScript_next (opensStmt_begins ht).1 (opensStmt_begins ht).2]
  change (stmtAfter t ts).bind _ = _
  rw [h]
  rfl

theorem readScript_fails (ht : t.token.opensStmt = true) (h : stmtAfter t ts = .error e) :
    readScript (t :: ts) = .error e := by
  rw [readScript_next (opensStmt_begins ht).1 (opensStmt_begins ht).2]
  change (stmtAfter t ts).bind _ = _
  rw [h]
  rfl

theorem readScript_other (ht : t.token.opensStmt = false) (hbegins : t.token.beginsStmt = true)
    (hindent : t.token ≠ .indent) (ts : List Lexeme) :
    readScript (t :: ts) = fail t.line (.unexpectedToken t.token) := by
  rw [readScript_next hbegins hindent, readStmt_other ht]
  rfl

/-- A script fails with `e` at the token `t`. If no token was taken before it, a script may go on
with another one there. -/
structure Halts (before : List Lexeme) (t : Lexeme) (e : ScriptError) : Prop where
  line : e.line? = some t.line
  here : ∀ tail, readScript (before ++ t :: tail) = .error e
  passable : ∃ m more program, readScript (before ++ m :: more) = .ok program ∧
    (before = [] → BehindStmts t.token m.token)

theorem Halts.of_stops {before : List Lexeme} {t' : Lexeme} (ht : t.token.opensStmt = true)
    (h : Reader.Stops (stmtAfter t) Unplaced EndsBranch before t' e) : Halts (t :: before) t' e := by
  obtain ⟨more, s, hreads, -⟩ := h.passable
  have hread := hreads ⟨.eof, 0⟩ [] ⟨nofun, nofun⟩
  obtain ⟨m, more', hmore⟩ : ∃ m more', more ++ [⟨.eof, 0⟩] = m :: more' :=
    List.exists_cons_of_ne_nil (by simp)
  refine ⟨h.line, fun tail => readScript_fails ht (h.here tail), m, more', [s], ?_, nofun⟩
  rw [← hmore, List.cons_append, ← List.append_assoc, readScript_stmt ht hread, readScript_eof rfl]
  rfl

theorem Halts.of_takes {used before : List Lexeme} {t' : Lexeme} {s : Stmt}
    (ht : t.token.opensStmt = true)
    (h : Reader.Takes (stmtAfter t) BehindStmts ts used (before ++ t' :: rest) s)
    (hhalts : Halts before t' e) : Halts (t :: (used ++ before)) t' e := by
  obtain ⟨hline, here, m, more, program, hread, hm⟩ := hhalts
  have again {us : List Lexeme} (hne : us ≠ [])
      (hpeek : BehindStmts (peek (before ++ t' :: rest)) (peek us)) :
      readScript (t :: (used ++ us)) = (readScript us).map (s :: ·) :=
    readScript_stmt ht (h.again_of_peek hne hpeek)
  refine ⟨hline, fun tail => ?_, m, more, s :: program, ?_, nofun⟩
  · rw [List.cons_append, List.append_assoc, again (by simp) ?_, here]
    · rfl
    · cases before <;> exact .inl rfl
  · rw [List.cons_append, List.append_assoc, again (by simp) ?_, hread]
    · rfl
    · cases before with
      | nil => exact hm rfl
      | cons first before => exact .inl rfl

/-- The induction is on the length of the stream, one statement or empty line at a time. -/
theorem readScript_halts (hts : Lined ts) (h : readScript ts = .error e) :
    ∃ before t rest, ts = before ++ t :: rest ∧ Halts before t e := by
  generalize hn : ts.length = n
  induction n using Nat.strongRecOn generalizing ts with
  | ind n ih =>
    obtain ⟨t, ts, rfl⟩ := hts.exists_cons
    rw [List.length_cons] at hn
    have first (heof : t.token ≠ .eof) {fault : ParseFault}
        (here : ∀ ts, readScript (t :: ts) = fail t.line fault) :
        ∃ before t' rest, t :: ts = before ++ t' :: rest ∧ Halts before t' e := by
      rw [here] at h
      cases h
      exact ⟨[], t, ts, rfl, rfl, here, ⟨.eof, 0⟩, [], [], readScript_eof rfl [],
        fun _ => .inr ⟨heof, .inr rfl⟩⟩
    have stmt (ht : t.token.opensStmt = true) (heof : t.token ≠ .eof) :
        ∃ before t' rest, t :: ts = before ++ t' :: rest ∧ Halts before t' e := by
      have hdecided := stmtAfter_decided (fun us _ hus => blocksDecided hus) hts
        (Nat.lt_succ_self _) ht
      cases hstmt : stmtAfter t ts with
      | error e' =>
        rw [readScript_fails ht hstmt] at h
        cases h
        obtain ⟨before, t', rest, rfl, hstops⟩ := hdecided.stops _ hstmt
        exact ⟨t :: before, t', rest, rfl, Halts.of_stops ht hstops⟩
      | ok found =>
        obtain ⟨s, after⟩ := found
        rw [readScript_stmt ht hstmt] at h
        obtain ⟨used, htakes⟩ := hdecided.takes s after hstmt
        have hfailed : readScript after = .error e := by
          cases hafter : readScript after with
          | error e' => rw [hafter] at h; cases h; rfl
          | ok program => rw [hafter] at h; cases h
        have hlength := htakes.length_le
        obtain ⟨before, t', rest, rfl, hhalts⟩ :=
          ih after.length (by omega) (htakes.lined (hts.tail heof)) hfailed rfl
        refine ⟨t :: (used ++ before), t', rest, ?_, Halts.of_takes ht htakes hhalts⟩
        rw [htakes.split, List.cons_append, List.append_assoc]
    obtain ⟨token, line⟩ := t
    cases token with
    | eof =>
      rw [readScript_eof rfl] at h
      cases h
    | newline =>
      rw [readScript_newline rfl] at h
      obtain ⟨before, t', rest, rfl, hline, here, m, more, program, hread, -⟩ :=
        ih ts.length (by omega) (hts.tail nofun) h rfl
      exact ⟨⟨.newline, line⟩ :: before, t', rest, rfl, hline,
        fun tail => (readScript_newline rfl _).trans (here tail), m, more, program,
        (readScript_newline rfl _).trans hread, nofun⟩
    | indent => exact first nofun (readScript_layout (.inl rfl))
    | dedent => exact first nofun (readScript_layout (.inr rfl))
    | yieldWord | logWord | setWord | ifWord | repeatWord => exact stmt rfl nofun
    | _ => exact first nofun (readScript_other rfl rfl nofun)

theorem exists_offends (hts : Lined ts) (h : Program.ofLexemes ts = .error e) :
    ∃ before t rest, ts = before ++ t :: rest ∧ Offends before t e := by
  rw [ofLexemes_eq] at h
  obtain ⟨before, t, rest, hsplit, hline, here, m, more, program, hread, -⟩ := readScript_halts hts h
  exact ⟨before, t, rest, hsplit, hline, fun tail => (ofLexemes_eq _).trans (here tail),
    m :: more, program, (ofLexemes_eq _).trans hread⟩

end MacroEngine.Script
