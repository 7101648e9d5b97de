import MacroEngine.Proofs.Readers

/-! Reading an expression. It takes operands, operators and parentheses only, and it ends in front
of any other token. One that cannot go on at a token could have been ended there. -/
namespace MacroEngine.Script

def Token.isPart : Token → Bool
  | .str _ | .ident _ | .number _ | .openParen | .closeParen => true
  | t => (Operator.ofToken? t).isSome

/-- Which token may stand behind an expression that `old` stands behind. -/
def BehindExpr (old new : Token) : Prop := new = old ∨ Operator.ofToken? new = none

/-- No demand on the token in place of another. -/
def Unplaced (_ _ : Token) : Prop := True

variable {stack below : List Pending} {v w e : Expr} {t : Lexeme} {ts rest used : List Lexeme}

theorem Token.isPart_of_operator {t : Token} {op : Operator} (h : Operator.ofToken? t = some op) :
    t.isPart = true := by
  cases t <;> first | rfl | cases h

theorem length_negate_le (stack : List Pending) (v : Expr) :
    (negate stack v).1.length ≤ stack.length := by
  induction stack generalizing v with
  | nil => exact Nat.le_refl _
  | cons p stack ih =>
    cases p with
    | minus => exact Nat.le_succ_of_le (ih _)
    | left _ _ => exact Nat.le_refl _
    | paren => exact Nat.le_refl _

theorem length_close_le (stack : List Pending) (v : Expr) :
    (close stack v).1.length ≤ stack.length := by
  induction stack generalizing v with
  | nil => exact Nat.le_refl _
  | cons p stack ih =>
    cases p with
    | left side op => exact Nat.le_succ_of_le (ih _)
    | minus => exact Nat.le_refl _
    | paren => exact Nat.le_refl _

/-- The operand `v` with all that takes it as its right side, back to the innermost parenthesis. -/
def settled (stack : List Pending) (v : Expr) : List Pending × Expr :=
  close (negate stack v).1 (negate stack v).2

/-- What is still pending when the operator `t` has taken its left side. -/
def shifted (t : Token) (stack : List Pending) (v : Expr) : Option (List Pending) :=
  (Operator.ofToken? t).bind fun op => shift op (negate stack v).1 (negate stack v).2

theorem length_settled_le (stack : List Pending) (v : Expr) :
    (settled stack v).1.length ≤ stack.length :=
  Nat.le_trans (length_close_le _ _) (length_negate_le _ _)

theorem shifted_of_none {t : Token} (h : Operator.ofToken? t = none) (stack : List Pending)
    (v : Expr) : shifted t stack v = none := by
  rw [shifted, h]
  rfl

theorem operator_nil (stack : List Pending) (v : Expr) :
    operator stack v [] =
      match settled stack v with
      | ([], v) => .ok (v, [])
      | _ => fail 0 .noCloseParen := by
  rw [operator]
  rfl

theorem operator_cons (stack : List Pending) (v : Expr) (t : Lexeme) (rest : List Lexeme) :
    operator stack v (t :: rest) =
      match shifted t.token stack v with
      | some stack => operand stack rest
      | none =>
        match settled stack v with
        | (.paren :: stack, v) =>
          if t.token = .closeParen then operator stack v rest else fail t.line .noCloseParen
        | (_, v) => .ok (v, t :: rest) := by
  rw [operator]
  rfl

theorem operator_shift (h : shifted t.token stack v = some below) :
    operator stack v (t :: rest) = operand below rest := by
  rw [operator_cons, h]

theorem operator_paren (h : settled stack v = (.paren :: below, w)) (ht : t.token = .closeParen) :
    operator stack v (t :: rest) = operator below w rest := by
  rw [operator_cons, shifted_of_none (by rw [ht]; rfl), h]
  exact if_pos ht

theorem operator_end (hshift : shifted t.token stack v = none)
    (h : ∀ below, (settled stack v).1 ≠ .paren :: below) :
    operator stack v (t :: rest) = .ok ((settled stack v).2, t :: rest) := by
  rw [operator_cons, hshift]
  generalize settled stack v = after at h
  obtain ⟨below, w⟩ := after
  dsimp only
  split
  · rename_i below' w' heq
    exact absurd (congrArg Prod.fst heq) (h _)
  · rename_i heq
    cases heq
    rfl

theorem operator_unclosed (hshift : shifted t.token stack v = none)
    (h : settled stack v = (.paren :: below, w)) (ht : t.token ≠ .closeParen) :
    operator stack v (t :: rest) = fail t.line .noCloseParen := by
  rw [operator_cons, hshift, h]
  exact if_neg ht

/-! What one token does where an operand is awaited, and where one is complete. -/

inductive AtOperand (stack : List Pending) (t : Lexeme) : Prop
  | pending (p : Pending) (part : t.token.isPart = true)
      (step : ∀ ts, operand stack (t :: ts) = operand (p :: stack) ts)
  | value (v : Expr) (part : t.token.isPart = true)
      (step : ∀ ts, operand stack (t :: ts) = operator stack v ts)
  | noValue (step : ∀ ts, operand stack (t :: ts) = fail t.line (.noValue t.token))

theorem atOperand (stack : List Pending) (t : Lexeme) : AtOperand stack t := by
  obtain ⟨token, line⟩ := t
  cases token with
  | minus => exact .pending .minus rfl fun _ => rfl
  | openParen => exact .pending .paren rfl fun _ => rfl
  | number n => exact .value (.number n) rfl fun _ => rfl
  | str s => exact .value (.str s) rfl fun _ => rfl
  | ident name => exact .value (.var name) rfl fun _ => rfl
  | _ => exact .noValue fun _ => rfl

inductive AtOperator (stack : List Pending) (v : Expr) (t : Lexeme) : Prop
  | shifts (below : List Pending) (part : t.token.isPart = true)
      (step : ∀ ts, operator stack v (t :: ts) = operand below ts)
  | closes (below : List Pending) (w : Expr) (part : t.token.isPart = true)
      (step : ∀ ts, operator stack v (t :: ts) = operator below w ts)
  | unclosed (step : ∀ ts, operator stack v (t :: ts) = fail t.line .noCloseParen)
  | ends (w : Expr) (step : ∀ t' tail, BehindExpr t.token t'.token →
      operator stack v (t' :: tail) = .ok (w, t' :: tail))

theorem atOperator (stack : List Pending) (v : Expr) (t : Lexeme) : AtOperator stack v t := by
  cases hshift : shifted t.token stack v with
  | some below =>
    obtain ⟨op, hop, -⟩ := Option.bind_eq_some_iff.mp hshift
    exact .shifts below (Token.isPart_of_operator hop) fun _ => operator_shift hshift
  | none =>
    by_cases hparen : ∃ below, (settled stack v).1 = .paren :: below
    · obtain ⟨below, hbelow⟩ := hparen
      have hsettled : settled stack v = (.paren :: below, (settled stack v).2) := by rw [← hbelow]
      by_cases ht : t.token = .closeParen
      · exact .closes below _ (by rw [ht]; rfl) fun _ => operator_paren hsettled ht
      · exact .unclosed fun _ => operator_unclosed hshift hsettled ht
    · refine .ends (settled stack v).2 fun t' tail hnext =>
        operator_end ?_ fun below he => hparen ⟨below, he⟩
      rcases hnext with he | hend
      · rw [he]
        exact hshift
      · exact shifted_of_none hend _ _

structure Took (P : Reader Expr) (ts used rest : List Lexeme) (e : Expr) : Prop where
  split : ts = used ++ rest
  parts : ∀ t ∈ used, t.token.isPart = true
  again : ∀ t tail, BehindExpr (peek rest) t.token → P (used ++ t :: tail) = .ok (e, t :: tail)

theorem Took.cons {P Q : Reader Expr} (h : Took Q ts used rest e) (ht : t.token.isPart = true)
    (hstep : ∀ ts, P (t :: ts) = Q ts) : Took P (t :: ts) (t :: used) rest e where
  split := by rw [h.split, List.cons_append]
  parts := List.forall_mem_cons.mpr ⟨ht, h.parts⟩
  again := fun t' tail hnext => by rw [List.cons_append, hstep, h.again t' tail hnext]

theorem operand_took (ts : List Lexeme) :
    (∀ stack e rest, operand stack ts = .ok (e, rest) →
      ∃ used, used ≠ [] ∧ Took (operand stack) ts used rest e) ∧
    ∀ stack v e rest, operator stack v ts = .ok (e, rest) →
      ∃ used, Took (operator stack v) ts used rest e := by
  induction ts with
  | nil =>
    refine ⟨fun stack e rest h => (by cases h), fun stack v e rest h => ?_⟩
    rw [operator_nil] at h
    split at h
    · rename_i w hsettled
      cases h
      refine ⟨[], rfl, by simp, fun t tail hnext => ?_⟩
      have hend : Operator.ofToken? t.token = none := hnext.elim (fun he => by rw [he]; rfl) id
      rw [List.nil_append, operator_end (shifted_of_none hend _ _) (by simp [hsettled]), hsettled]
    · cases h
  | cons t ts ih =>
    obtain ⟨ihOperand, ihOperator⟩ := ih
    constructor
    · intro stack e rest h
      cases atOperand stack t with
      | pending p hpart hstep =>
        obtain ⟨used, -, htook⟩ := ihOperand _ _ _ ((hstep ts).symm.trans h)
        exact ⟨t :: used, List.cons_ne_nil _ _, htook.cons hpart hstep⟩
      | value v hpart hstep =>
        obtain ⟨used, htook⟩ := ihOperator _ _ _ _ ((hstep ts).symm.trans h)
        exact ⟨t :: used, List.cons_ne_nil _ _, htook.cons hpart hstep⟩
      | noValue hstep => cases (hstep ts).symm.trans h
    · intro stack v e rest h
      cases atOperator stack v t with
      | shifts below hpart hstep =>
        obtain ⟨used, -, htook⟩ := ihOperand _ _ _ ((hstep ts).symm.trans h)
        exact ⟨t :: used, htook.cons hpart hstep⟩
      | closes below w hpart hstep =>
        obtain ⟨used, htook⟩ := ihOperator _ _ _ _ ((hstep ts).symm.trans h)
        exact ⟨t :: used, htook.cons hpart hstep⟩
      | unclosed hstep => cases (hstep ts).symm.trans h
      | ends w hstep =>
        cases (hstep t ts (.inl rfl)).symm.trans h
        exact ⟨[], rfl, by simp, hstep⟩

theorem expression_took (h : expression ts = .ok (e, rest)) :
    ∃ used, used ≠ [] ∧ Took expression ts used rest e :=
  (operand_took ts).1 [] e rest h

/-! Where an expression fails. -/

/-- After a complete operand, closing the parentheses is enough. -/
theorem exists_closing (stack : List Pending) (v : Expr) : ∃ closing e,
    Reader.Reads (operator stack v) (Operator.ofToken? · = none) closing e := by
  generalize hn : stack.length = n
  induction n using Nat.strongRecOn generalizing stack v with
  | ind n ih =>
    by_cases hparen : ∃ below, (settled stack v).1 = .paren :: below
    · obtain ⟨below, hbelow⟩ := hparen
      have hshorter : below.length < n := by
        have hlength := length_settled_le stack v
        rw [hbelow, hn] at hlength
        exact hlength
      obtain ⟨closing, e, hreads⟩ := ih _ hshorter below (settled stack v).2 rfl
      refine ⟨⟨.closeParen, 0⟩ :: closing, e, fun t tail ht => ?_⟩
      rw [List.cons_append, operator_paren (by rw [← hbelow]) rfl]
      exact hreads t tail ht
    · refine ⟨[], (settled stack v).2, fun t tail ht => ?_⟩
      exact operator_end (shifted_of_none ht _ _) fun below he => hparen ⟨below, he⟩

/-- The reader fails with `e` at one of the tokens of the stream. -/
def Stopped (P : Reader Expr) (ts : List Lexeme) (e : ScriptError) : Prop :=
  ∃ before t rest, ts = before ++ t :: rest ∧
    P.Stops Unplaced (Operator.ofToken? · = none) before t e

theorem operand_stops (ts : List Lexeme) (hend : Ended ts) :
    (∀ stack e, operand stack ts = .error e → Stopped (operand stack) ts e) ∧
    ∀ stack v e, operator stack v ts = .error e → Stopped (operator stack v) ts e := by
  induction ts with
  | nil =>
    obtain ⟨t, hm, -⟩ := hend
    cases hm
  | cons t ts ih =>
    -- a token that was taken is not the end of the stream
    have further {P Q : Reader Expr} {e : ScriptError} (hpart : t.token.isPart = true)
        (hstep : ∀ ts, P (t :: ts) = Q ts) (hfailed : P (t :: ts) = .error e)
        (hrest : Ended ts → Q ts = .error e → Stopped Q ts e) : Stopped P (t :: ts) e := by
      have hmore : Ended ts := hend.tail fun he => by rw [he] at hpart; cases hpart
      obtain ⟨before, t', rest, rfl, hstops⟩ := hrest hmore ((hstep ts).symm.trans hfailed)
      exact ⟨t :: before, t', rest, rfl, hstops.cons hstep⟩
    constructor
    · intro stack e h
      cases atOperand stack t with
      | pending p hpart hstep => exact further hpart hstep h fun hend => (ih hend).1 _ _
      | value v hpart hstep => exact further hpart hstep h fun hend => (ih hend).2 _ _ _
      | noValue hstep =>
        obtain ⟨closing, x, hreads⟩ := exists_closing stack (.number "0")
        cases (hstep ts).symm.trans h
        exact ⟨[], t, ts, rfl, rfl, hstep, ⟨.number "0", 0⟩ :: closing, x, hreads,
          fun _ _ _ _ => trivial⟩
    · intro stack v e h
      cases atOperator stack v t with
      | shifts below hpart hstep => exact further hpart hstep h fun hend => (ih hend).1 _ _
      | closes below w hpart hstep => exact further hpart hstep h fun hend => (ih hend).2 _ _ _
      | unclosed hstep =>
        obtain ⟨closing, x, hreads⟩ := exists_closing stack v
        cases (hstep ts).symm.trans h
        exact ⟨[], t, ts, rfl, rfl, hstep, closing, x, hreads, fun _ _ _ _ => trivial⟩
      | ends w hstep => cases (hstep t ts (.inl rfl)).symm.trans h

theorem expression_decided (hend : Ended ts) :
    Reader.Decided expression BehindExpr Unplaced (Operator.ofToken? · = none) ts where
  takes := fun e rest h => by
    obtain ⟨used, -, htook⟩ := expression_took h
    refine ⟨used, htook.split, fun t hm he => ?_, htook.again⟩
    have hpart := htook.parts t hm
    rw [he] at hpart
    cases hpart
  stops := (operand_stops ts hend).1 []

end MacroEngine.Script
