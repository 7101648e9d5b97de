import MacroEngine.Script.Value

/-! What a program does, as the exchange it has with its host: it yields command lines, logs
messages and asks the game, one after the other, and goes on once the host lets it. -/
namespace MacroEngine.Script

inductive Process where
  | done (vars : Variables)
  | failed (error : ScriptError) (vars : Variables)
  | yielded (command : String) (vars : Variables) (resume : Unit → Process)
  | logged (message : String) (resume : Unit → Process)
  | asked (query : Query) (resume : String → Process)
  /-- Nothing to exchange; the next pass of a loop begins. -/
  | looped (resume : Unit → Process)

namespace Process

def passes (body : Variables → (Variables → Process) → Process) (k : Variables → Process) :
    Nat → Variables → Process
  | 0, vars => k vars
  | n + 1, vars => .looped fun _ => body vars fun vars => passes body k n vars

def withValue (vars : Variables) (e : Expr) (k : String → Process) : Process :=
  match eval vars e with
  | .ok value => k value
  | .error error => .failed error vars

mutual
def exec : Stmt → Variables → (Variables → Process) → Process
  | .yield _ command, vars, k =>
    withValue vars command fun command => .yielded command vars fun _ => k vars
  | .log message, vars, k => withValue vars message fun message => .logged message fun _ => k vars
  | .assign name value, vars, k =>
    withValue vars value fun value => k (vars.set name (Text.trimmed value))
  | .ask name query, vars, k => .asked query fun answer => k (vars.set name answer)
  | .branch condition body elifs none, vars, k =>
    withValue vars condition fun value =>
      if truthy value then execAll body vars k else execElifs elifs vars k k
  | .branch condition body elifs (some otherwise), vars, k =>
    withValue vars condition fun value =>
      if truthy value then execAll body vars k
      else execElifs elifs vars (fun vars => execAll otherwise vars k) k
  | .repeated line count body, vars, k =>
    withValue vars count fun value =>
      match repeatCount? value with
      | some n => passes (execAll body) k n vars
      | none => .failed (.badRepeatCount line value) vars
def execAll : List Stmt → Variables → (Variables → Process) → Process
  | [], vars, k => k vars
  | stmt :: rest, vars, k => exec stmt vars fun vars => execAll rest vars k
def execElifs : List (Expr × List Stmt) → Variables → (Variables → Process) →
    (Variables → Process) → Process
  | [], vars, otherwise, _ => otherwise vars
  | (condition, body) :: rest, vars, otherwise, k =>
    withValue vars condition fun value =>
      if truthy value then execAll body vars k else execElifs rest vars otherwise k
end

def ofProgram (program : Program) (vars : Variables) : Process := execAll program vars .done

end Process

/-- A host with state `σ`; a yield may fail with `ε`. -/
structure Host (σ ε : Type) where
  yield : σ → String → σ × Option ε
  log : σ → String → σ
  query : σ → Query → String × σ

inductive Failure (ε : Type) where
  | script (error : ScriptError)
  | host (error : ε)

structure Outcome (σ ε : Type) where
  state : σ
  vars : Variables
  failure : Option (Failure ε)

def Process.run (host : Host σ ε) : Process → σ → Outcome σ ε
  | .done vars, s => ⟨s, vars, none⟩
  | .failed error vars, s => ⟨s, vars, some (.script error)⟩
  | .yielded command vars resume, s =>
    match host.yield s command with
    | (s, some error) => ⟨s, vars, some (.host error)⟩
    | (s, none) => run host (resume ()) s
  | .logged message resume, s => run host (resume ()) (host.log s message)
  | .asked query resume, s =>
    let (answer, s) := host.query s query
    run host (resume answer) s
  | .looped resume, s => run host (resume ()) s

def Program.run (host : Host σ ε) (program : Program) (vars : Variables) (s : σ) : Outcome σ ε :=
  (Process.ofProgram program vars).run host s

end MacroEngine.Script
