import MacroEngine.Proofs.WrittenScripts
import MacroEngine.Proofs.StepReading

/-! Programs that were read can be written and read again. The lexer only gives tokens that can be
written, and it opens no block without a line in it, so no block of a program is empty. -/
namespace MacroEngine.Script
open Text

/-! Expressions keep the tokens that they were read from. -/

def Token.isLexed (t : Token) : Bool :=
  t.isProper || t = .newline || t = .indent || t = .dedent || t = .eof

def Pending.isProper : Pending → Bool
  | .left side _ => side.isProper
  | .minus | .paren => true

variable {stack below : List Pending} {v w e : Expr} {ts rest : List Lexeme} {op : Operator}

theorem negate_isProper (hstack : ∀ p ∈ stack, p.isProper = true) (hv : v.isProper = true) :
    (∀ p ∈ (negate stack v).1, p.isProper = true) ∧ (negate stack v).2.isProper = true := by
  induction stack generalizing v with
  | nil => exact ⟨nofun, hv⟩
  | cons p stack ih =>
    cases p with
    | minus =>
      exact ih (List.forall_mem_cons.mp hstack).2 (Bool.and_eq_true_iff.mpr ⟨by decide, hv⟩)
    | left _ _ => exact ⟨hstack, hv⟩
    | paren => exact ⟨hstack, hv⟩

theorem close_isProper (hstack : ∀ p ∈ stack, p.isProper = true) (hv : v.isProper = true) :
    (∀ p ∈ (close stack v).1, p.isProper = true) ∧ (close stack v).2.isProper = true := by
  induction stack generalizing v with
  | nil => exact ⟨nofun, hv⟩
  | cons p stack ih =>
    obtain ⟨hp, hrest⟩ := List.forall_mem_cons.mp hstack
    cases p with
    | left side op => exact ih hrest (Bool.and_eq_true_iff.mpr ⟨hp, hv⟩)
    | minus => exact ⟨hstack, hv⟩
    | paren => exact ⟨hstack, hv⟩

theorem shift_isProper (hstack : ∀ p ∈ stack, p.isProper = true) (hv : v.isProper = true)
    (h : shift op stack v = some below) : ∀ p ∈ below, p.isProper = true := by
  induction stack generalizing v with
  | nil =>
    cases h
    exact List.forall_mem_singleton.mpr hv
  | cons p stack ih =>
    obtain ⟨hp, hrest⟩ := List.forall_mem_cons.mp hstack
    cases p with
    | left side op' =>
      have htaken : (Expr.binary side op' v).isProper = true := Bool.and_eq_true_iff.mpr ⟨hp, hv⟩
      rw [shift] at h
      split at h
      · exact ih hrest htaken h
      · split at h
        · split at h
          · cases h
          · exact ih hrest htaken h
        · cases h
          exact List.forall_mem_cons.mpr ⟨hv, hstack⟩
    | minus | paren =>
      cases h
      exact List.forall_mem_cons.mpr ⟨hv, hstack⟩

theorem settled_isProper (hstack : ∀ p ∈ stack, p.isProper = true) (hv : v.isProper = true) :
    (∀ p ∈ (settled stack v).1, p.isProper = true) ∧ (settled stack v).2.isProper = true :=
  have hnegated := negate_isProper hstack hv
  close_isProper hnegated.1 hnegated.2

theorem shifted_isProper {t : Token} (hstack : ∀ p ∈ stack, p.isProper = true)
    (hv : v.isProper = true) (h : shifted t stack v = some below) :
    ∀ p ∈ below, p.isProper = true := by
  obtain ⟨op, -, hshift⟩ := Option.bind_eq_some_iff.mp h
  have hnegated := negate_isProper hstack hv
  exact shift_isProper hnegated.1 hnegated.2 hshift

theorem operand_isProper (ts : List Lexeme) (hts : ∀ t ∈ ts, t.token.isLexed = true) :
    (∀ stack e rest, (∀ p ∈ stack, p.isProper = true) → operand stack ts = .ok (e, rest) →
      e.isProper = true) ∧
    ∀ stack v e rest, (∀ p ∈ stack, p.isProper = true) → v.isProper = true →
      operator stack v ts = .ok (e, rest) → e.isProper = true := by
  induction ts with
  | nil =>
    refine ⟨fun stack e rest _ h => (by cases h), fun stack v e rest hstack hv h => ?_⟩
    have hsettled := (settled_isProper hstack hv).2
    rw [operator_nil] at h
    split at h
    · rename_i w heq
      cases h
      rwa [heq] at hsettled
    · cases h
  | cons t ts ih =>
    obtain ⟨ht, hts⟩ := List.forall_mem_cons.mp hts
    obtain ⟨ihOperand, ihOperator⟩ := ih hts
    constructor
    · intro stack e rest hstack h
      obtain ⟨token, line⟩ := t
      cases token with
      | minus => exact ihOperand _ _ _ (List.forall_mem_cons.mpr ⟨rfl, hstack⟩) h
      | openParen => exact ihOperand _ _ _ (List.forall_mem_cons.mpr ⟨rfl, hstack⟩) h
      | number n =>
        have hv : (Token.number n).isProper = true := by simpa [Token.isLexed] using ht
        exact ihOperator _ (.number n) _ _ hstack hv h
      | str s =>
        have hv : (Token.str s).isProper = true := by simpa [Token.isLexed] using ht
        exact ihOperator _ (.str s) _ _ hstack hv h
      | ident name =>
        have hv : (Token.ident name).isProper = true := by simpa [Token.isLexed] using ht
        exact ihOperator _ (.var name) _ _ hstack hv h
      | _ => cases h
    · intro stack v e rest hstack hv h
      obtain ⟨hsettled, hvalue⟩ := settled_isProper hstack hv
      rw [operator_cons] at h
      split at h
      · rename_i below hshift
        exact ihOperand _ _ _ (shifted_isProper hstack hv hshift) h
      · split at h
        · rename_i below w heq
          rw [heq] at hsettled hvalue
          split at h
          · exact ihOperator _ _ _ _ (List.forall_mem_cons.mp hsettled).2 hvalue h
          · cases h
        · rename_i heq
          rw [heq] at hvalue
          cases h
          exact hvalue

theorem expression_isProper (hts : ∀ t ∈ ts, t.token.isLexed = true)
    (h : expression ts = .ok (e, rest)) : e.isProper = true :=
  (operand_isProper ts hts).1 [] e rest nofun h

/-! Statements that were read can be written. -/

def Filled : List Lexeme → Prop
  | [] => True
  | t :: ts => (t.token = .indent → (peek ts).beginsStmt = true) ∧ Filled ts

structure Lexed (ts : List Lexeme) : Prop where
  tokens : ∀ t ∈ ts, t.token.isLexed = true
  filled : Filled ts

theorem Filled.of_append {used : List Lexeme} (h : Filled (used ++ rest)) : Filled rest := by
  induction used with
  | nil => exact h
  | cons t used ih => exact ih h.2

theorem Lexed.suffix (h : Lexed ts) (hrest : rest <:+ ts) : Lexed rest := by
  obtain ⟨used, rfl⟩ := hrest
  exact ⟨fun t ht => h.tokens t (List.mem_append_right _ ht), h.filled.of_append⟩

theorem Lexed.tail (h : Lexed ts) : Lexed ts.tail := h.suffix (List.tail_suffix ts)

theorem Lexed.isLexed_peek {t : Token} (h : Lexed ts) (hpeek : peek ts = t) (ht : t ≠ .eof) :
    t.isLexed = true := by
  cases ts with
  | nil => exact absurd hpeek.symm ht
  | cons first ts => exact hpeek ▸ h.tokens first List.mem_cons_self

theorem Lexed.value (h : Lexed ts) (hexpr : expression ts = .ok (e, rest)) :
    e.isProper = true ∧ Lexed rest := by
  obtain ⟨used, -, htook⟩ := expression_took hexpr
  exact ⟨expression_isProper h.tokens hexpr, h.suffix ⟨used, htook.split.symm⟩⟩

theorem Lexed.behind_indent (h : Lexed ts) (hpeek : peek ts = .indent) :
    (peek ts.tail).beginsStmt = true := by
  cases ts with
  | nil => cases hpeek
  | cons t ts => exact h.filled.1 hpeek

theorem mem_of_cutAtBlank {cs after : List Char} (h : (cutAtBlank cs).2 = some after) {c : Char}
    (hc : c ∈ after) : c ∈ cs := by
  unfold cutAtBlank at h
  split at h
  · cases h
  · rename_i word blank rest hcut
    cases h
    rw [← firstWord_append cs, hcut]
    exact List.mem_append_right _ (List.mem_cons_of_mem _ hc)

theorem fitsQuotes_of_subset {cs ds : List Char} (h : Token.fitsQuotes cs = true)
    (hsub : ∀ c ∈ ds, c ∈ cs) : Token.fitsQuotes ds = true := by
  obtain ⟨hbreak, hquote⟩ : '\n' ∉ cs ∧ ('"' ∉ cs ∨ '\'' ∉ cs) := by
    simpa [Token.fitsQuotes] using h
  have hout {c : Char} (hc : c ∉ cs) : c ∉ ds := fun hm => hc (hsub c hm)
  simpa [Token.fitsQuotes] using And.intro (hout hbreak) (hquote.imp hout hout)

theorem Query.isProper_of_read {cs : List Char} {q : Query} (hcs : Token.fitsQuotes cs = true)
    (h : Query.read cs = some q) : q.isProper = true := by
  unfold Query.read at h
  have hmem : ∀ c ∈ trim ((cutAtBlank (trim cs)).2.getD []), c ∈ cs := by
    intro c hc
    have hafter := mem_trim hc
    cases hrest : (cutAtBlank (trim cs)).2 with
    | none =>
      rw [hrest] at hafter
      cases hafter
    | some after =>
      rw [hrest] at hafter
      exact mem_trim (mem_of_cutAtBlank hrest hafter)
  have hnamed {make : String → Query} (hmake : ∀ name, isQueryName name = true → (make name).isProper = true)
      (h : (if (trim ((cutAtBlank (trim cs)).2.getD [])).isEmpty then none
        else some (make (String.ofList (trim ((cutAtBlank (trim cs)).2.getD []))))) = some q) :
      q.isProper = true := by
    split at h
    · cases h
    · rename_i hsome
      cases h
      refine hmake _ ?_
      simp only [isQueryName, String.toList_ofList, Bool.and_eq_true, Bool.not_eq_true',
        decide_eq_true_eq]
      exact ⟨⟨Bool.eq_false_iff.mpr hsome, trim_trim _⟩, fitsQuotes_of_subset hcs hmem⟩
  have hbare {query : Query} {empty : Bool} (hquery : query.isProper = true)
      (h : (if empty then some query else none) = some q) : q.isProper = true := by
    split at h
    · cases h
      exact hquery
    · cases h
  dsimp only at h
  split at h
  · exact hnamed (fun _ => id) h
  · exact hnamed (fun _ => id) h
  · exact hnamed (fun _ => id) h
  · exact hbare rfl h
  · exact hbare rfl h
  · exact hbare rfl h
  · exact hbare rfl h
  · cases h

def Item.isProper : Item → Bool
  | .stmt s => s.isProper
  | .block body => !body.isEmpty && allProper body
  | .stmts body => allProper body
  | .elifs blocks => elifsProper blocks
  | .script program => allProper program

theorem Read.ne_nil {body : List Stmt} (h : Read (.stmts body) ts rest)
    (hpeek : (peek ts).beginsStmt = true) : body.isEmpty = false := by
  cases h with
  | dedent he | «end» he | emptyLine he _ =>
    rw [he] at hpeek
    cases hpeek
  | next _ _ _ => rfl

theorem assignment_isProper {line : Nat} {s : Stmt} (hts : Lexed ts)
    (h : assignment line ts = .ok (s, rest)) : s.isProper = true := by
  obtain ⟨name, hname, ⟨value, after, -, hexpr, hend⟩ | ⟨text, query, -, -, -, htext, hquery, hend⟩⟩ :=
    assignment_ok h
  all_goals
    have hident : (Token.ident name).isProper = true := by
      simpa [Token.isLexed] using hts.isLexed_peek hname nofun
  · obtain ⟨rfl, -⟩ := lineEnd_ok hend
    exact Bool.and_eq_true_iff.mpr ⟨hident, (hts.tail.tail.value hexpr).1⟩
  · obtain ⟨rfl, -⟩ := lineEnd_ok hend
    have hlexed := hts.tail.tail.tail.tail.isLexed_peek htext nofun
    have hstr : (Token.str text).isProper = true := by simpa [Token.isLexed] using hlexed
    exact Bool.and_eq_true_iff.mpr ⟨hident, Query.isProper_of_read hstr hquery⟩

theorem Read.isProper {item : Item} (h : Read item ts rest) (hts : Lexed ts) :
    item.isProper = true := by
  induction h with
  | yield _ hexpr hend | log _ hexpr hend =>
    obtain ⟨rfl, -⟩ := lineEnd_ok hend
    exact (hts.tail.value hexpr).1
  | set _ hassign => exact assignment_isProper hts.tail hassign
  | branch _ hexpr hbody helifs _ ihBody ihElifs =>
    obtain ⟨hcondition, hrest⟩ := hts.tail.value hexpr
    have hmore := hrest.suffix hbody.suffix
    simp only [Item.isProper, Stmt.isProper, Bool.and_eq_true] at ihBody ⊢
    exact ⟨⟨⟨hcondition, (ihBody hrest).1⟩, (ihBody hrest).2⟩, ihElifs hmore⟩
  | branchElse _ hexpr hbody helifs _ hotherwise ihBody ihElifs ihOtherwise =>
    obtain ⟨hcondition, hrest⟩ := hts.tail.value hexpr
    have hmore := hrest.suffix hbody.suffix
    have hlast := (hmore.suffix helifs.suffix).tail
    simp only [Item.isProper, Stmt.isProper, Bool.and_eq_true] at ihBody ihOtherwise ⊢
    exact ⟨⟨⟨⟨⟨hcondition, (ihBody hrest).1⟩, (ihBody hrest).2⟩, ihElifs hmore⟩,
      (ihOtherwise hlast).1⟩, (ihOtherwise hlast).2⟩
  | repeated _ hexpr hbody ihBody =>
    obtain ⟨hcount, hrest⟩ := hts.tail.value hexpr
    simp only [Item.isProper, Stmt.isProper, Bool.and_eq_true] at ihBody ⊢
    exact ⟨⟨hcount, (ihBody hrest).1⟩, (ihBody hrest).2⟩
  | block hopen hstmts ihStmts =>
    obtain ⟨-, -, hindent, rfl⟩ := openBlock_ok hopen
    simp only [Item.isProper, Bool.and_eq_true, Bool.not_eq_true']
    exact ⟨hstmts.ne_nil (hts.tail.tail.behind_indent hindent), ihStmts hts.tail.tail.tail⟩
  | dedent _ | «end» _ | noElif _ | scriptEnd _ => rfl
  | emptyLine _ _ ih | scriptLine _ _ ih => exact ih hts.tail
  | next _ hstmt _ ihStmt ihRest | scriptNext _ _ hstmt _ ihStmt ihRest =>
    exact Bool.and_eq_true_iff.mpr ⟨ihStmt hts, ihRest (hts.suffix hstmt.suffix)⟩
  | elif _ hexpr hbody _ ihBody ihElifs =>
    obtain ⟨hcondition, hrest⟩ := hts.tail.value hexpr
    simp only [Item.isProper, elifsProper, Bool.and_eq_true] at ihBody ⊢
    exact ⟨⟨⟨hcondition, (ihBody hrest).1⟩, (ihBody hrest).2⟩, ihElifs (hrest.suffix hbody.suffix)⟩

/-! What the lexer gives. -/

theorem ofWord_cases (word : List Char) :
    (Token.ofWord word).keyword ≠ [] ∨ Token.ofWord word = .ident (String.ofList word) := by
  unfold Token.ofWord
  split <;> first | exact .inr rfl | exact .inl (by decide)

theorem isProper_ofWord {word : List Char} (h : isWord word = true) :
    (Token.ofWord word).isProper = true := by
  rcases ofWord_cases word with hkeyword | hident
  · cases ht : Token.ofWord word <;> first | rfl | (rw [ht] at hkeyword; exact absurd rfl hkeyword)
  · rw [hident]
    simp [Token.isProper, Token.isName, h, hident]

theorem isProper_of_piece {piece : List Char} {t : Token} (h : Piece piece (some t))
    (hline : '\n' ∉ piece) : t.isProper = true := by
  generalize hsome : some t = token at h
  cases h with
  | blank _ => cases hsome
  | symbol hsymbol =>
    cases hsome
    cases t <;> first | rfl | exact absurd rfl hsymbol
  | @quoted q body hquote hbody =>
    cases hsome
    have hbreak : '\n' ∉ body := fun hm =>
      hline (List.mem_cons_of_mem _ (List.mem_append_left _ hm))
    obtain rfl | rfl : q = '"' ∨ q = '\'' := by simpa [isQuote] using hquote
    · simp [Token.isProper, Token.fitsQuotes, hbreak, hbody]
    · simp [Token.isProper, Token.fitsQuotes, hbreak, hbody]
  | number hnumeral =>
    cases hsome
    simpa [Token.isProper] using hnumeral
  | word hword =>
    cases hsome
    exact isProper_ofWord hword

theorem isProper_of_pieces {cs : List Char} {tokens : List Token} (h : Pieces cs tokens)
    (hline : '\n' ∉ cs) : ∀ t ∈ tokens, t.isProper = true := by
  induction h with
  | nil => exact List.forall_mem_nil _
  | @cons piece rest token tokens hpiece _ ih =>
    rw [List.mem_append, not_or] at hline
    cases token with
    | none => exact ih hline.2
    | some t => exact List.forall_mem_cons.mpr ⟨isProper_of_piece hpiece hline.1, ih hline.2⟩

theorem pieces_ne_nil {cs : List Char} {tokens : List Token} {c : Char} (h : Pieces cs tokens)
    (hc : cs.head? = some c) (hblank : isBlank c = false) : tokens ≠ [] := by
  cases h with
  | nil => cases hc
  | @cons piece rest token tokens hpiece _ =>
    cases hpiece with
    | blank hb =>
      rw [Option.some.inj hc] at hb
      rw [hb] at hblank
      cases hblank
    | _ => exact List.cons_ne_nil _ _

theorem closeTo_tokens {depth : Nat} {depths depths' : Depths} {layout : List Token}
    (h : relayout.closeTo depth depths = some (layout, depths')) : ∀ t ∈ layout, t = .dedent := by
  induction depths generalizing layout with
  | nil =>
    rw [relayout.closeTo] at h
    split at h
    · cases h
      exact List.forall_mem_nil _
    · cases h
  | cons top outer ih =>
    rw [relayout.closeTo] at h
    split at h
    · obtain ⟨⟨more, open_⟩, hmore, he⟩ := Option.map_eq_some_iff.mp h
      cases he
      exact List.forall_mem_cons.mpr ⟨rfl, ih hmore⟩
    · split at h
      · cases h
        exact List.forall_mem_nil _
      · cases h

theorem relayout_tokens {depth : Nat} {depths depths' : Depths} {layout : List Token}
    (h : relayout depth depths = some (layout, depths')) :
    layout = [.indent] ∨ ∀ t ∈ layout, t = .dedent := by
  cases depths with
  | nil =>
    rw [relayout] at h
    split at h
    · cases h
      exact .inr (List.forall_mem_nil _)
    · cases h
      exact .inl rfl
  | cons top outer =>
    rw [relayout] at h
    split at h
    · cases h
      exact .inl rfl
    · split at h
      · cases h
        exact .inr (List.forall_mem_nil _)
      · exact .inr (closeTo_tokens h)

theorem Lexed.append {used : List Lexeme} (h : Lexed rest)
    (hused : ∀ t ∈ used, t.token.isLexed = true ∧ t.token ≠ .indent) : Lexed (used ++ rest) := by
  refine ⟨List.forall_mem_append.mpr ⟨fun t ht => (hused t ht).1, h.tokens⟩, ?_⟩
  induction used with
  | nil => exact h.filled
  | cons t used ih =>
    obtain ⟨ht, hused⟩ := List.forall_mem_cons.mp hused
    exact ⟨fun he => absurd he ht.2, ih hused⟩

theorem isLexed_of_isProper {t : Token} (h : t.isProper = true) :
    t.isLexed = true ∧ t ≠ .indent ∧ t.beginsStmt = true := by
  cases t with
  | newline | indent | dedent | eof => cases h
  | _ => exact ⟨by simp [Token.isLexed, h], nofun, rfl⟩

theorem Lexed.line {n : Nat} {layout tokens : List Token} (h : Lexed rest)
    (hlayout : layout = [.indent] ∨ ∀ t ∈ layout, t = .dedent) (hne : tokens ≠ [])
    (htokens : ∀ t ∈ tokens, t.isProper = true) :
    Lexed ((layout ++ tokens ++ [Token.newline]).map (⟨·, n⟩) ++ rest) := by
  have hbody : Lexed ((tokens ++ [Token.newline]).map (⟨·, n⟩) ++ rest) := by
    refine h.append fun l hl => ?_
    obtain ⟨t, ht, rfl⟩ := List.mem_map.mp hl
    rcases List.mem_append.mp ht with ht | ht
    · exact ⟨(isLexed_of_isProper (htokens t ht)).1, (isLexed_of_isProper (htokens t ht)).2.1⟩
    · rw [List.mem_singleton.mp ht]
      exact ⟨rfl, nofun⟩
  rw [List.append_assoc, List.map_append, List.append_assoc]
  rcases hlayout with rfl | hdedents
  · refine ⟨List.forall_mem_cons.mpr ⟨rfl, hbody.tokens⟩, fun _ => ?_, hbody.filled⟩
    obtain ⟨t, tokens, rfl⟩ := List.exists_cons_of_ne_nil hne
    exact (isLexed_of_isProper (htokens t List.mem_cons_self)).2.2
  · refine hbody.append fun l hl => ?_
    obtain ⟨t, ht, rfl⟩ := List.mem_map.mp hl
    rw [hdedents t ht]
    exact ⟨rfl, nofun⟩

theorem mem_of_mem_cutComment {c : Char} {quote : Option Char} {cs : List Char}
    (h : c ∈ cutComment quote cs) : c ∈ cs := by
  induction cs generalizing quote with
  | nil => cases h
  | cons d cs ih =>
    have hkept {quote : Option Char} (h : c ∈ d :: cutComment quote cs) : c ∈ d :: cs :=
      (List.mem_cons.mp h).elim (fun he => he ▸ List.mem_cons_self)
        fun hm => List.mem_cons_of_mem _ (ih hm)
    cases quote with
    | some q => exact hkept h
    | none =>
      rw [cutComment] at h
      split at h
      · cases h
      · exact hkept h

theorem lexed_of_lexemesFrom {ls : List (Nat × List Char)} {depths : Depths} {last : Nat}
    (h : lexemesFrom depths last ls = .ok ts) (hls : ∀ l ∈ ls, '\n' ∉ l.2) : Lexed ts := by
  induction ls generalizing depths last ts with
  | nil =>
    cases h
    have hend : Lexed [⟨.eof, last⟩] := ⟨List.forall_mem_singleton.mpr rfl, nofun, trivial⟩
    refine hend.append fun l hl => ?_
    obtain ⟨d, -, rfl⟩ := List.mem_map.mp hl
    exact ⟨rfl, nofun⟩
  | cons line ls ih =>
    obtain ⟨n, raw⟩ := line
    obtain ⟨hline, hls⟩ := List.forall_mem_cons.mp hls
    rw [lexemesFrom] at h
    split at h
    · exact ih h hls
    · rename_i body hbody
      split at h
      · rename_i layout depths' hlayout
        obtain ⟨tokens, htokens, h⟩ := bind_eq_ok.mp h
        obtain ⟨more, hmore, h⟩ := bind_eq_ok.mp h
        cases h
        have hpieces := pieces_of_lineTokens (mapError_eq_ok.mp htokens)
        have hbreak : '\n' ∉ trim (cutComment none raw) := fun hm =>
          hline (mem_of_mem_cutComment (mem_trim hm))
        obtain ⟨c, cs, hcons⟩ := List.exists_cons_of_ne_nil hbody
        have hhead : (trim (cutComment none raw)).head? = some c := by rw [hcons]; rfl
        exact (ih hmore hls).line (relayout_tokens hlayout)
          (pieces_ne_nil hpieces hhead (isBlank_of_head?_trim hhead))
          (isProper_of_pieces hpieces hbreak)
      · cases h

/-! The round trip. -/

theorem mem_numbered {n : Nat} {ls : List (List Char)} {l : Nat × List Char}
    (h : l ∈ numbered n ls) : l.2 ∈ ls := by
  induction ls generalizing n with
  | nil => cases h
  | cons first ls ih =>
    rcases List.mem_cons.mp h with rfl | h
    · exact List.mem_cons_self
    · exact List.mem_cons_of_mem _ (ih h)

theorem isProper_of_read {source : List Char} {program : Program}
    (h : Program.read source = .ok program) : allProper program = true := by
  obtain ⟨ts, hts, h⟩ := bind_eq_ok.mp h
  obtain ⟨rest, hread⟩ := read_of_topLevel h
  exact hread.isProper (lexed_of_lexemesFrom hts fun l hl => not_mem_of_mem_lines (mem_numbered hl))

/-- Reading the text of a program gives the program again, but for its line numbers: for every
program that some text was read as, and for every program that can be written. -/
theorem read_program_text :
    (∀ source program, Program.read source = .ok program →
      (Program.read (Program.text program)).map allUnlined = .ok (allUnlined program)) ∧
    ∀ program, allProper program = true →
      (Program.read (Program.text program)).map allUnlined = .ok (allUnlined program) := by
  have hproper : ∀ program, allProper program = true →
      (Program.read (Program.text program)).map allUnlined = .ok (allUnlined program) := by
    intro program h
    obtain ⟨program', hread, hsame⟩ := read_of_isProper h
    rw [hread]
    exact congrArg Except.ok hsame
  exact ⟨fun source program h => hproper program (isProper_of_read h), hproper⟩

def uneven : List Char :=
  unlines (["set n = -2 *(3 + (x))  # note", "IF n >= 1.50 and (a == b) == c:", "  repeat 1 - (2 - 3):",
    "      yield 'say \"#\"'", "", "  log (n)", "elif -n - -1 > 0:", "       set q FROM Game: \" status Well Fed\"",
    "Else:", " log \"it's\""].map String.toList)

def unevenWritten : List Char :=
  unlines (["set n = (0 - 2) * (3 + x)", "if n >= 1.50 and (a == b) == c:",
    "    repeat 1 - (2 - 3):", "        yield 'say \"#\"'", "    log n", "elif 0 - n - (0 - 1) > 0:",
    "    set q from game: \"status Well Fed\"", "else:", "    log \"it's\""].map String.toList)

def unnumbered : Program :=
  [.branch (.binary (.binary (.var "a") .lt (.number "07")) .or (.str "")) [.ask "t" .target]
    [(.str "x", [.repeated 9 (.var "n") [.yield 0 (.str "'")]])] (some [.log (.number "1.0")])]

theorem read_program_text_uneven :
    (∃ program, Program.read uneven = .ok program ∧ Program.text program = unevenWritten ∧
      (Program.read (Program.text program)).map allUnlined = .ok (allUnlined program)) ∧
    allProper unnumbered = true ∧
      (Program.read (Program.text unnumbered)).map allUnlined = .ok (allUnlined unnumbered) := by
  have hread : ∃ program, Program.read uneven = .ok program ∧ Program.text program = unevenWritten :=
    Routine.exists_ok (by decide +kernel)
  obtain ⟨program, hread, htext⟩ := hread
  have hproper : allProper unnumbered = true := by decide +kernel
  exact ⟨⟨program, hread, htext, read_program_text.1 uneven program hread⟩, hproper,
    read_program_text.2 unnumbered hproper⟩

end MacroEngine.Script
