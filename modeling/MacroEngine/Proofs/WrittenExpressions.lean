import MacroEngine.Proofs.Expressions

/-! Expressions as tokens, with parentheses only where the grammar needs them, and their reading. An
operator that repeats to the left needs none around its left side when that binds as tightly as the
operator itself; a comparison does. -/
namespace MacroEngine.Script

def Operator.token : Operator → Token
  | .add => .plus
  | .sub => .minus
  | .mul => .star
  | .div => .slash
  | .mod => .percent
  | .gt => .greater
  | .lt => .less
  | .ge => .greaterEqual
  | .le => .lessEqual
  | .eq => .equals
  | .ne => .notEquals
  | .and => .andWord
  | .or => .orWord

def Operator.leftLevel (op : Operator) : Nat := if op.isComparison then op.level + 1 else op.level

/-- The tokens of an expression in a place where what binds less tightly than `level` needs
parentheses. -/
def Expr.tokens (level : Nat) : Expr → List Token
  | .str s => [.str s]
  | .number digits => [.number digits]
  | .var name => [.ident name]
  | .binary left op right =>
    let bare := left.tokens op.leftLevel ++ op.token :: right.tokens (op.level + 1)
    if op.level < level then .openParen :: (bare ++ [.closeParen]) else bare

theorem ofToken?_token (op : Operator) : Operator.ofToken? op.token = some op := by
  cases op <;> rfl

theorem level_le_leftLevel (op : Operator) : op.level ≤ op.leftLevel := by
  unfold Operator.leftLevel
  split
  · exact Nat.le_succ _
  · exact Nat.le_refl _

def Below (level : Nat) : List Pending → Prop
  | .left _ op :: _ => op.level < level
  | .minus :: _ => False
  | .paren :: _ | [] => True

/-- Does a token take no operand away from an expression that binds as tightly as `level`? -/
def Bounded (level : Nat) (t : Token) : Prop :=
  ∀ op, Operator.ofToken? t = some op →
    op.level < level ∨ op.level = level ∧ op.isComparison = false

variable {level level' : Nat} {stack : List Pending} {left right v : Expr} {op : Operator} {t : Token}
  {us rest : List Lexeme}

theorem Below.mono (h : Below level stack) (hle : level ≤ level') : Below level' stack := by
  cases stack with
  | nil => trivial
  | cons p stack =>
    cases p with
    | left side op => exact Nat.lt_of_lt_of_le h hle
    | minus => exact h
    | paren => trivial

theorem Below.negate (h : Below level stack) (v : Expr) : negate stack v = (stack, v) := by
  cases stack with
  | nil => rfl
  | cons p stack =>
    cases p with
    | left side op => rfl
    | minus => exact h.elim
    | paren => rfl

/-- An operator goes on from the operand in front of it. -/
theorem Below.shifted (h : Below op.level stack) (v : Expr) :
    shifted op.token stack v = some (.left v op :: stack) := by
  rw [Script.shifted, ofToken?_token, h.negate]
  cases stack with
  | nil => rfl
  | cons p stack =>
    cases p with
    | left side op' =>
      have hlt : op'.level < op.level := h
      simp [shift, Nat.not_lt_of_gt hlt, Nat.ne_of_gt hlt]
    | minus => exact h.elim
    | paren => rfl

theorem Below.settled (h : Below level stack) (left right : Expr) (op : Operator) :
    settled (.left left op :: stack) right = settled stack (.binary left op right) := by
  rw [Script.settled, Script.settled, h.negate]
  rfl

theorem Below.shifted_bounded (h : Below level stack) (left right : Expr)
    (hnext : Bounded op.level t) :
    Script.shifted t (.left left op :: stack) right =
      Script.shifted t stack (.binary left op right) := by
  rw [Script.shifted, Script.shifted, h.negate]
  cases hop : Operator.ofToken? t with
  | none => rfl
  | some next =>
    change shift next (.left left op :: stack) right = shift next stack (.binary left op right)
    rcases hnext next hop with hlt | ⟨heq, hrepeats⟩
    · simp [shift, hlt]
    · simp [shift, heq, hrepeats]

/-- A token that binds no more tightly than an operator ends its right side. -/
theorem operator_reduce (h : Below level stack) (left right : Expr)
    (hnext : ∀ t ∈ rest.head?, Bounded op.level t.token) :
    operator (.left left op :: stack) right rest = operator stack (.binary left op right) rest := by
  cases rest with
  | nil => rw [operator_nil, operator_nil, h.settled]
  | cons t rest =>
    rw [operator_cons, operator_cons, h.shifted_bounded left right (hnext t rfl), h.settled]

theorem Bounded.of_none (h : Operator.ofToken? t = none) : Bounded level t := by
  intro op hop
  rw [h] at hop
  cases hop

theorem bounded_leftLevel (op : Operator) : Bounded op.leftLevel op.token := by
  intro op' hop
  rw [ofToken?_token] at hop
  obtain rfl := Option.some.inj hop
  unfold Operator.leftLevel
  split
  · exact .inl (Nat.lt_succ_self _)
  · rename_i hrepeats
    exact .inr ⟨rfl, Bool.eq_false_iff.mpr hrepeats⟩

theorem Bounded.mono (h : Bounded level t) (hle : level ≤ level') : Bounded level' t := by
  intro op hop
  rcases h op hop with hlt | ⟨heq, hrepeats⟩
  · exact .inl (Nat.lt_of_lt_of_le hlt hle)
  · rcases Nat.eq_or_lt_of_le hle with rfl | hlt
    · exact .inr ⟨heq, hrepeats⟩
    · exact .inl (heq ▸ hlt)

/-- The tokens of an expression are read as the expression, whatever waits for it. -/
theorem operand_tokens (e : Expr) : ∀ (level : Nat) (stack : List Pending) (us rest : List Lexeme),
    us.map Lexeme.token = e.tokens level → Below level stack →
    (∀ t ∈ rest.head?, Bounded level t.token) →
    operand stack (us ++ rest) = operator stack e rest := by
  induction e with
  | str s | number digits | var name =>
    intro level stack us rest hus _ _
    obtain ⟨u, us, rfl, hu, hus⟩ := List.map_eq_cons_iff.mp hus
    obtain rfl := List.map_eq_nil_iff.mp hus
    rw [List.singleton_append, operand, hu]
  | binary left op right ihLeft ihRight =>
    -- without parentheses, where the operator binds tightly enough
    have bare (level : Nat) (stack : List Pending) (us rest : List Lexeme)
        (hus : us.map Lexeme.token =
          left.tokens op.leftLevel ++ op.token :: right.tokens (op.level + 1))
        (hle : level ≤ op.level) (hbelow : Below level stack)
        (hnext : ∀ t ∈ rest.head?, Bounded level t.token) :
        operand stack (us ++ rest) = operator stack (.binary left op right) rest := by
      obtain ⟨ls, us, rfl, hls, hus⟩ := List.map_eq_append_iff.mp hus
      obtain ⟨o, rs, rfl, ho, hrs⟩ := List.map_eq_cons_iff.mp hus
      have hbelowOp := hbelow.mono hle
      have hbelowRight : Below (op.level + 1) (.left left op :: stack) := Nat.lt_succ_self op.level
      have hboundedOp : ∀ t ∈ (o :: rs ++ rest).head?, Bounded op.leftLevel t.token := by
        rintro _ ⟨⟩
        rw [ho]
        exact bounded_leftLevel op
      rw [List.append_assoc,
        ihLeft op.leftLevel stack ls _ hls (hbelowOp.mono (level_le_leftLevel op)) hboundedOp,
        List.cons_append, operator_shift (by rw [ho]; exact hbelowOp.shifted left),
        ihRight (op.level + 1) _ rs rest hrs hbelowRight fun t ht =>
          (hnext t ht).mono (Nat.le_succ_of_le hle)]
      exact operator_reduce hbelow left right fun t ht => (hnext t ht).mono hle
    intro level stack us rest hus hbelow hnext
    rw [Expr.tokens] at hus
    split at hus
    · obtain ⟨o, us, rfl, ho, hus⟩ := List.map_eq_cons_iff.mp hus
      obtain ⟨ls, cs, rfl, hls, hcs⟩ := List.map_eq_append_iff.mp hus
      obtain ⟨c, cs, rfl, hc, hcs⟩ := List.map_eq_cons_iff.mp hcs
      obtain rfl := List.map_eq_nil_iff.mp hcs
      have hclose : ∀ t ∈ ([c] ++ rest).head?, Bounded 0 t.token := by
        rintro _ ⟨⟩
        rw [hc]
        exact .of_none rfl
      rw [List.cons_append, operand, ho, List.append_assoc]
      dsimp only
      rw [bare 0 (.paren :: stack) ls _ hls (Nat.zero_le _) trivial hclose, List.singleton_append]
      exact operator_paren rfl hc
    · exact bare level stack us rest hus (Nat.le_of_not_lt ‹_›) hbelow hnext

theorem expression_tokens {e : Expr} {more : List Token} (h : us.map Lexeme.token = e.tokens 0 ++ more)
    (hmore : ∃ t ts, more = t :: ts ∧ Operator.ofToken? t = none) :
    ∃ rest, expression us = .ok (e, rest) ∧ rest.map Lexeme.token = more := by
  obtain ⟨used, rest, rfl, hused, hrest⟩ := List.map_eq_append_iff.mp h
  obtain ⟨token, tokens, rfl, hend⟩ := hmore
  obtain ⟨t, rest, rfl, ht, htokens⟩ := List.map_eq_cons_iff.mp hrest
  refine ⟨t :: rest, ?_, hrest⟩
  have hbounded : ∀ t' ∈ (t :: rest).head?, Bounded 0 t'.token := by
    rintro _ ⟨⟩
    rw [ht]
    exact .of_none hend
  rw [expression, operand_tokens e 0 [] used _ hused trivial hbounded]
  exact operator_end (shifted_of_none (ht ▸ hend) _ _) nofun

end MacroEngine.Script
