import MacroEngine.Proofs.WrittenScripts

/-! Reading tokens without their line numbers. Numbers are passed on to statements and to errors and
decide nothing: a stream that has lost them is read as the same statements, or with the same error,
without theirs. -/
namespace MacroEngine.Script

def Lexeme.unlined (t : Lexeme) : Lexeme := { t with line := 0 }

def ScriptError.unlined : ScriptError → ScriptError
  | .lex _ fault => .lex 0 fault
  | .parse _ fault => .parse 0 fault
  | .undefinedVariable name => .undefinedVariable name
  | .unknownQuery _ query => .unknownQuery 0 query
  | .badRepeatCount _ value => .badRepeatCount 0 value
  | .runtime fault => .runtime fault

/-- A result with its line numbers left out: of its value by `f`, or of its error. -/
def erased {α β : Type} (f : α → β) (r : Except ScriptError α) : Except ScriptError β :=
  (r.mapError ScriptError.unlined).map f

def unlinedRest {α β : Type} (f : α → β) (found : α × List Lexeme) : β × List Lexeme :=
  (f found.1, found.2.map Lexeme.unlined)

section Erasing

variable {α α' β β' : Type} {f : α → α'} {g : β → β'} {r : Except ScriptError α}

/-- What goes on alike behind a result without line numbers ends alike. -/
theorem erased_bind {F : α → Except ScriptError β} {G : α' → Except ScriptError β'}
    (h : ∀ a, G (f a) = erased g (F a)) : (erased f r >>= G) = erased g (r >>= F) := by
  cases r with
  | error e => rfl
  | ok a => exact h a

theorem erased_andThen {r : Except ScriptError (α × List Lexeme)}
    {F : α × List Lexeme → Except ScriptError β} {G : α' × List Lexeme → Except ScriptError β'}
    (h : ∀ a rest, G (f a, rest.map Lexeme.unlined) = erased g (F (a, rest))) :
    (erased (unlinedRest f) r >>= G) = erased g (r >>= F) :=
  erased_bind fun (a, rest) => h a rest

theorem erased_fail (line : Nat) (fault : ParseFault) :
    erased f (fail line fault) = fail 0 fault := rfl

end Erasing

variable {stack : List Pending} {v : Expr} {t : Lexeme} {ts : List Lexeme}

theorem peek_unlined (ts : List Lexeme) : peek (ts.map Lexeme.unlined) = peek ts := by
  cases ts <;> rfl

theorem lineOf_unlined (ts : List Lexeme) : lineOf (ts.map Lexeme.unlined) = 0 := by
  cases ts <;> rfl

theorem tail_unlined (ts : List Lexeme) :
    (ts.map Lexeme.unlined).tail = ts.tail.map Lexeme.unlined := by
  cases ts <;> rfl

/-! Expressions. -/

theorem operand_unlined (ts : List Lexeme) :
    (∀ stack, operand stack (ts.map Lexeme.unlined) = erased (unlinedRest id) (operand stack ts)) ∧
    ∀ stack v, operator stack v (ts.map Lexeme.unlined) =
      erased (unlinedRest id) (operator stack v ts) := by
  induction ts with
  | nil =>
    refine ⟨fun stack => rfl, fun stack v => ?_⟩
    rw [List.map_nil, operator_nil]
    split <;> rfl
  | cons t ts ih =>
    obtain ⟨ihOperand, ihOperator⟩ := ih
    refine ⟨fun stack => ?_, fun stack v => ?_⟩
    · obtain ⟨token, line⟩ := t
      cases token with
      | minus | openParen => exact ihOperand _
      | number n | str s | ident name => exact ihOperator _ _
      | _ => rfl
    · have htoken : t.unlined.token = t.token := rfl
      rw [List.map_cons]
      cases hshift : shifted t.token stack v with
      | some below =>
        rw [operator_shift hshift, operator_shift (htoken ▸ hshift)]
        exact ihOperand below
      | none =>
        rw [operator_cons, operator_cons, htoken, hshift]
        obtain ⟨below, w⟩ := settled stack v
        cases below with
        | nil => rfl
        | cons p below =>
          cases p with
          | left side op | minus => rfl
          | paren =>
            change (if t.token = .closeParen then _ else _) =
              erased _ (if t.token = .closeParen then _ else _)
            split
            · exact ihOperator below w
            · rfl

theorem expression_unlined (ts : List Lexeme) :
    expression (ts.map Lexeme.unlined) = erased (unlinedRest id) (expression ts) :=
  (operand_unlined ts).1 []

/-! Statements. -/

theorem expect_unlined (token : Token) (fault : ParseFault) (ts : List Lexeme) :
    expect token fault (ts.map Lexeme.unlined) =
      erased (List.map Lexeme.unlined) (expect token fault ts) := by
  rw [expect, expect, peek_unlined, lineOf_unlined, tail_unlined]
  split <;> rfl

theorem lineEnd_unlined (s : Stmt) (ts : List Lexeme) :
    lineEnd s.unlined (ts.map Lexeme.unlined) =
      erased (unlinedRest Stmt.unlined) (lineEnd s ts) := by
  rw [lineEnd, lineEnd, peek_unlined, lineOf_unlined, tail_unlined]
  split <;> rfl

theorem openBlock_unlined (ts : List Lexeme) :
    openBlock (ts.map Lexeme.unlined) = erased (List.map Lexeme.unlined) (openBlock ts) := by
  rw [openBlock, expect_unlined]
  refine erased_bind fun ts => ?_
  rw [expect_unlined]
  exact erased_bind fun ts => expect_unlined _ _ ts

theorem assignment_unlined (line : Nat) (ts : List Lexeme) :
    assignment 0 (ts.map Lexeme.unlined) =
      erased (unlinedRest Stmt.unlined) (assignment line ts) := by
  unfold assignment
  simp only [peek_unlined, tail_unlined]
  split
  · split
    · rw [expression_unlined]
      exact erased_andThen fun value rest => lineEnd_unlined (.assign _ value) rest
    · rw [expect_unlined]
      refine erased_bind fun rest => ?_
      rw [expect_unlined]
      refine erased_bind fun rest => ?_
      simp only [peek_unlined, tail_unlined]
      split
      · split
        · exact lineEnd_unlined (.ask _ _) _
        · rfl
      · rfl
    · rfl
  · rfl

theorem readers_unlined (fuel : Nat) :
    (∀ ts, statement fuel (ts.map Lexeme.unlined) =
      erased (unlinedRest Stmt.unlined) (statement fuel ts)) ∧
    (∀ ts, block fuel (ts.map Lexeme.unlined) = erased (unlinedRest allUnlined) (block fuel ts)) ∧
    (∀ ts, blockRest fuel (ts.map Lexeme.unlined) =
      erased (unlinedRest allUnlined) (blockRest fuel ts)) ∧
    ∀ ts, elifBlocks fuel (ts.map Lexeme.unlined) =
      erased (unlinedRest elifsUnlined) (elifBlocks fuel ts) := by
  induction fuel with
  | zero =>
    have hline := lineOf_unlined
    refine ⟨fun ts => ?_, fun ts => ?_, fun ts => ?_, fun ts => ?_⟩
    · rw [statement, statement, hline, erased_fail]
    · rw [block, block, hline, erased_fail]
    · rw [blockRest, blockRest, hline, erased_fail]
    · rw [elifBlocks, elifBlocks, hline, erased_fail]
  | succ fuel ih =>
    obtain ⟨ihStatement, ihBlock, ihRest, ihElifs⟩ := ih
    refine ⟨fun ts => ?_, fun ts => ?_, fun ts => ?_, fun ts => ?_⟩
    · rw [statement, statement, peek_unlined, lineOf_unlined, tail_unlined]
      split
      · rw [expression_unlined]
        exact erased_andThen fun command rest => lineEnd_unlined (.yield (lineOf ts) command) rest
      · rw [expression_unlined]
        exact erased_andThen fun message rest => lineEnd_unlined (.log message) rest
      · exact assignment_unlined _ _
      · rw [expression_unlined]
        refine erased_andThen fun condition rest => ?_
        dsimp only
        rw [ihBlock]
        refine erased_andThen fun body rest => ?_
        dsimp only
        rw [ihElifs]
        refine erased_andThen fun elifs rest => ?_
        dsimp only
        have helse := peek_unlined rest
        by_cases hword : peek rest = .elseWord
        · rw [if_pos hword, if_pos (helse.trans hword), tail_unlined, ihBlock]
          exact erased_andThen fun otherwise rest => rfl
        · rw [if_neg hword, if_neg fun h => hword (helse.symm.trans h)]
          rfl
      · rw [expression_unlined]
        refine erased_andThen fun count rest => ?_
        dsimp only
        rw [ihBlock]
        exact erased_andThen fun body rest => rfl
      · rfl
    · rw [block, block, openBlock_unlined]
      exact erased_bind fun rest => ihRest rest
    · rw [blockRest, blockRest, peek_unlined, tail_unlined]
      split
      · rfl
      · rfl
      · exact ihRest _
      · rw [ihStatement]
        refine erased_andThen fun s rest => ?_
        dsimp only
        rw [ihRest]
        exact erased_andThen fun body rest => rfl
    · rw [elifBlocks, elifBlocks, peek_unlined, tail_unlined]
      split
      · rw [expression_unlined]
        refine erased_andThen fun condition rest => ?_
        dsimp only
        rw [ihBlock]
        refine erased_andThen fun body rest => ?_
        dsimp only
        rw [ihElifs]
        exact erased_andThen fun elifs rest => rfl
      · rfl

theorem topLevel_unlined (fuel : Nat) (ts : List Lexeme) :
    topLevel fuel (ts.map Lexeme.unlined) = erased allUnlined (topLevel fuel ts) := by
  induction fuel generalizing ts with
  | zero => rw [topLevel, topLevel, lineOf_unlined, erased_fail]
  | succ fuel ih =>
    rw [topLevel, topLevel, peek_unlined, lineOf_unlined, tail_unlined]
    split
    · rfl
    · exact ih _
    · rfl
    · rfl
    · rw [(readers_unlined fuel).1]
      refine erased_andThen fun s rest => ?_
      dsimp only
      rw [ih]
      exact erased_bind fun program => rfl

/-- Line numbers are not read. -/
theorem ofLexemes_unlined (ts : List Lexeme) :
    Program.ofLexemes (ts.map Lexeme.unlined) = erased allUnlined (Program.ofLexemes ts) := by
  rw [Program.ofLexemes, Program.ofLexemes, List.length_map, topLevel_unlined]

end MacroEngine.Script
