import MacroEngine.Script.Process

/-! Programs one after another. A process goes on with its continuation just where the statements
before it end, so a program runs like its statements in turn, a branch like the block that is
chosen, and a loop like its block over and over. -/
namespace MacroEngine.Script

variable {σ ε : Type} {host : Host σ ε} {vars : Variables} {s : σ}

/-- What follows an outcome, unless it is a failure. -/
def Outcome.andThen (o : Outcome σ ε) (next : Variables → σ → Outcome σ ε) : Outcome σ ε :=
  match o.failure with
  | none => next o.vars o.state
  | some _ => o

theorem Outcome.andThen_assoc (o : Outcome σ ε) (f g : Variables → σ → Outcome σ ε) :
    (o.andThen f).andThen g = o.andThen fun vars s => (f vars s).andThen g := by
  obtain ⟨state, vars, failure⟩ := o
  cases failure <;> rfl

theorem Outcome.andThen_congr (o : Outcome σ ε) {f g : Variables → σ → Outcome σ ε}
    (h : ∀ vars s, f vars s = g vars s) : o.andThen f = o.andThen g :=
  congrArg o.andThen (funext fun vars => funext fun s => h vars s)

theorem Process.run_yielded (command : String) (vars : Variables) (resume : Unit → Process) (s : σ) :
    (Process.yielded command vars resume).run host s =
      match host.yield s command with
      | (t, some error) => ⟨t, vars, some (.host error)⟩
      | (t, none) => (resume ()).run host t := rfl

/-- A piece of a program goes on with whatever follows, where it ends. -/
def GoesOn (host : Host σ ε) (piece : (Variables → Process) → Process) : Prop :=
  ∀ k s, (piece k).run host s =
    ((piece .done).run host s).andThen fun vars s => (k vars).run host s

namespace GoesOn

theorem withValue {e : Expr} {f : String → (Variables → Process) → Process}
    (h : ∀ value, GoesOn host (f value)) :
    GoesOn host fun k => Process.withValue vars e fun value => f value k := by
  intro k s
  dsimp only [Process.withValue]
  cases eval vars e with
  | error error => rfl
  | ok value => exact h value k s

theorem ite {c : Bool} {f g : (Variables → Process) → Process} (hf : GoesOn host f)
    (hg : GoesOn host g) : GoesOn host fun k => if c then f k else g k := by
  cases c with
  | true => exact hf
  | false => exact hg

theorem passes {body : Variables → (Variables → Process) → Process}
    (h : ∀ vars, GoesOn host (body vars)) (n : Nat) (vars : Variables) :
    GoesOn host fun k => Process.passes body k n vars := by
  induction n generalizing vars with
  | zero => exact fun k s => rfl
  | succ n ih =>
    intro k s
    change (body vars fun vars => Process.passes body k n vars).run host s =
      ((body vars fun vars => Process.passes body .done n vars).run host s).andThen _
    rw [h vars, h vars (fun vars => Process.passes body .done n vars), Outcome.andThen_assoc]
    exact Outcome.andThen_congr _ fun vars s => ih vars k s

end GoesOn

open Process in
mutual
theorem goesOn_exec : (stmt : Stmt) → ∀ vars, GoesOn host (exec stmt vars)
  | .yield line command, vars => .withValue fun command k s => by
    rw [run_yielded, run_yielded]
    obtain ⟨t, failure⟩ := host.yield s command
    cases failure <;> rfl
  | .log message, vars => .withValue fun message k s => rfl
  | .assign name value, vars => .withValue fun value k s => rfl
  | .ask name query, vars => fun k s => rfl
  | .branch condition body elifs none, vars =>
    have hlast : ∀ vars, GoesOn host fun k => k vars := fun vars k s => rfl
    .withValue fun value => .ite (goesOn_execAll body vars) (goesOn_execElifs elifs vars hlast)
  | .branch condition body elifs (some otherwise), vars =>
    .withValue fun value => .ite (goesOn_execAll body vars)
      (goesOn_execElifs elifs vars (goesOn_execAll otherwise))
  | .repeated line count body, vars => .withValue fun value => by
    cases repeatCount? value with
    | none => exact fun k s => rfl
    | some n => exact .passes (goesOn_execAll body) n vars
theorem goesOn_execAll : (body : List Stmt) → ∀ vars, GoesOn host (execAll body vars)
  | [], vars => fun k s => rfl
  | stmt :: rest, vars => fun k s => by
    have hstmt : GoesOn host (exec stmt vars) := goesOn_exec stmt vars
    have hrest : ∀ vars, GoesOn host (execAll rest vars) := goesOn_execAll rest
    rw [execAll, execAll, hstmt, hstmt fun vars => execAll rest vars .done, Outcome.andThen_assoc]
    exact Outcome.andThen_congr _ fun vars s => hrest vars k s
theorem goesOn_execElifs : (elifs : List (Expr × List Stmt)) → ∀ vars
    {piece : Variables → (Variables → Process) → Process}, (∀ vars, GoesOn host (piece vars)) →
      GoesOn host fun k => execElifs elifs vars (fun vars => piece vars k) k
  | [], vars, _, hpiece => hpiece vars
  | (_, body) :: rest, vars, _, hpiece =>
    .withValue fun _ => .ite (goesOn_execAll body vars) (goesOn_execElifs rest vars hpiece)
end

namespace Program

/-! What each kind of statement does, and then the rest of the program. -/

theorem run_cons (host : Host σ ε) (stmt : Stmt) (rest : Program) (vars : Variables) (s : σ) :
    Program.run host (stmt :: rest) vars s =
      (Program.run host [stmt] vars s).andThen (Program.run host rest) :=
  goesOn_exec stmt vars _ s

theorem run_append (host : Host σ ε) (p q : Program) (vars : Variables) (s : σ) :
    Program.run host (p ++ q) vars s = (Program.run host p vars s).andThen (Program.run host q) := by
  induction p generalizing vars s with
  | nil => rfl
  | cons stmt p ih =>
    rw [List.cons_append, run_cons, run_cons host stmt p, Outcome.andThen_assoc]
    exact Outcome.andThen_congr _ fun vars s => ih vars s

def withValue (vars : Variables) (s : σ) (e : Expr) (next : String → Outcome σ ε) : Outcome σ ε :=
  match eval vars e with
  | .ok value => next value
  | .error error => ⟨s, vars, some (.script error)⟩

theorem withValue_ok {e : Expr} {text : String} (h : eval vars e = .ok text)
    (next : String → Outcome σ ε) : withValue vars s e next = next text := by
  rw [withValue, h]

theorem withValue_error {e : Expr} {error : ScriptError} (h : eval vars e = .error error)
    (next : String → Outcome σ ε) : withValue vars s e next = ⟨s, vars, some (.script error)⟩ := by
  rw [withValue, h]

theorem withValue_congr {e : Expr} {f g : String → Outcome σ ε} (h : ∀ value, f value = g value) :
    withValue vars s e f = withValue vars s e g :=
  congrArg (withValue vars s e) (funext h)

theorem run_withValue {e : Expr} {k : String → Process} {next : String → Outcome σ ε}
    (h : ∀ value, (k value).run host s = next value) :
    (Process.withValue vars e k).run host s = withValue vars s e next := by
  rw [Process.withValue, withValue]
  cases eval vars e with
  | error error => rfl
  | ok value => exact h value

theorem run_yield (line : Nat) (command : Expr) :
    Program.run host [.yield line command] vars s = withValue vars s command fun command =>
      ⟨(host.yield s command).1, vars, (host.yield s command).2.map .host⟩ := by
  refine run_withValue fun command => ?_
  rw [Process.run_yielded]
  obtain ⟨t, failure⟩ := host.yield s command
  cases failure <;> rfl

theorem run_log (message : Expr) :
    Program.run host [.log message] vars s = withValue vars s message fun message =>
      ⟨host.log s message, vars, none⟩ :=
  run_withValue fun _ => rfl

theorem run_assign (name : String) (value : Expr) :
    Program.run host [.assign name value] vars s = withValue vars s value fun value =>
      ⟨s, vars.set name (Text.trimmed value), none⟩ :=
  run_withValue fun _ => rfl

theorem run_ask (name : String) (query : Query) : Program.run host [.ask name query] vars s =
    ⟨(host.query s query).2, vars.set name (host.query s query).1, none⟩ := rfl

/-- The statements behind the conditions that do not hold: what is left of a chain, as a branch of
its own, and the last block in the end. -/
def elseOf : List (Expr × List Stmt) → Option (List Stmt) → Program
  | [], otherwise => otherwise.getD []
  | (condition, body) :: rest, otherwise => [.branch condition body rest otherwise]

theorem run_branch (condition : Expr) (body : List Stmt) (elifs : List (Expr × List Stmt))
    (otherwise : Option (List Stmt)) :
    Program.run host [.branch condition body elifs otherwise] vars s =
      withValue vars s condition fun value =>
        Program.run host (if truthy value then body else elseOf elifs otherwise) vars s := by
  cases otherwise with
  | none | some otherwise =>
    refine run_withValue fun value => ?_
    cases elifs <;> cases truthy value <;> rfl

theorem run_passes (body : Program) (n : Nat) :
    (Process.passes (Process.execAll body) .done n vars).run host s =
      Program.run host (List.replicate n body).flatten vars s := by
  induction n generalizing vars s with
  | zero => rfl
  | succ n ih =>
    rw [List.replicate_succ, List.flatten_cons, run_append]
    refine (goesOn_execAll body vars _ s).trans ?_
    exact Outcome.andThen_congr _ fun vars s => ih

theorem run_repeated (line : Nat) (count : Expr) (body : List Stmt) :
    Program.run host [.repeated line count body] vars s = withValue vars s count fun value =>
      match repeatCount? value with
      | some n => Program.run host (List.replicate n body).flatten vars s
      | none => ⟨s, vars, some (.script (.badRepeatCount line value))⟩ := by
  refine run_withValue fun value => ?_
  cases repeatCount? value with
  | none => rfl
  | some n => exact run_passes body n

end Program
end MacroEngine.Script
