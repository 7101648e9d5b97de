import MacroEngine.Proofs.Expansions

/-! Programs statement by statement. A point of a run is what is left of the program, the variables
and the host; a step takes the first statement away, puts the chosen block or the passes of a loop
in its place, and exchanges something with the host. A run goes from point to point to one that it
does not get beyond. -/
namespace MacroEngine.Script
open Text Number

variable {σ ε : Type} {host : Host σ ε}

inductive Happening where
  | yielded (command : String)
  | logged (message : String)
  | asked (query : Query) (answer : String)
  deriving DecidableEq, Repr

namespace Happening

def yielded? : Happening → Option String
  | .yielded command => some command
  | _ => none

def yields (record : List Happening) : List String := record.filterMap yielded?

end Happening

def Host.recorded (host : Host σ ε) : Host (σ × List Happening) ε where
  yield s command :=
    (((host.yield s.1 command).1, s.2 ++ [.yielded command]), (host.yield s.1 command).2)
  log s message := (host.log s.1 message, s.2 ++ [.logged message])
  query s query :=
    ((host.query s.1 query).1, (host.query s.1 query).2, s.2 ++ [.asked query (host.query s.1 query).1])

theorem Host.recorded_yield (host : Host σ ε) {s t : σ} {record : List Happening} {command : String}
    {failure : Option ε} (h : host.yield s command = (t, failure)) :
    host.recorded.yield (s, record) command = ((t, record ++ [.yielded command]), failure) := by
  simp only [recorded, h]

theorem Host.recorded_query (host : Host σ ε) {s t : σ} {record : List Happening} {query : Query}
    {answer : String} (h : host.query s query = (answer, t)) :
    host.recorded.query (s, record) query = (answer, t, record ++ [.asked query answer]) := by
  simp only [recorded, h]

structure Point (σ : Type) where
  rest : Program
  vars : Variables
  state : σ

def Point.run (host : Host σ ε) (a : Point σ) (record : List Happening) :
    Outcome (σ × List Happening) ε :=
  Program.run host.recorded a.rest a.vars (a.state, record)

inductive Proceeds (host : Host σ ε) : Point σ → List Happening → Point σ → Prop where
  | yield {line command text rest vars s t} : eval vars command = .ok text →
      host.yield s text = (t, none) →
      Proceeds host ⟨.yield line command :: rest, vars, s⟩ [.yielded text] ⟨rest, vars, t⟩
  | log {message text rest vars s} : eval vars message = .ok text →
      Proceeds host ⟨.log message :: rest, vars, s⟩ [.logged text] ⟨rest, vars, host.log s text⟩
  | assign {name value text rest vars s} : eval vars value = .ok text →
      Proceeds host ⟨.assign name value :: rest, vars, s⟩ []
        ⟨rest, vars.set name (Text.trimmed text), s⟩
  | ask {name query answer rest vars s t} : host.query s query = (answer, t) →
      Proceeds host ⟨.ask name query :: rest, vars, s⟩ [.asked query answer]
        ⟨rest, vars.set name answer, t⟩
  | holds {condition text body elifs otherwise rest vars s} : eval vars condition = .ok text →
      truthy text = true → Proceeds host ⟨.branch condition body elifs otherwise :: rest, vars, s⟩ []
        ⟨body ++ rest, vars, s⟩
  | fails {condition text body elifs otherwise rest vars s} : eval vars condition = .ok text →
      truthy text = false → Proceeds host ⟨.branch condition body elifs otherwise :: rest, vars, s⟩ []
        ⟨Program.elseOf elifs otherwise ++ rest, vars, s⟩
  | repeated {line count text n body rest vars s} : eval vars count = .ok text →
      repeatCount? text = some n → Proceeds host ⟨.repeated line count body :: rest, vars, s⟩ []
        ⟨(List.replicate n body).flatten ++ rest, vars, s⟩

def Stmt.valued? : Stmt → Option Expr
  | .yield _ e | .log e | .assign _ e | .branch e .. | .repeated _ e _ => some e
  | .ask .. => none

/-- A point that a run does not get beyond, what is still exchanged there, and how it ends. -/
inductive Ceases (host : Host σ ε) : Point σ → List Happening → Outcome σ ε → Prop where
  | done {vars s} : Ceases host ⟨[], vars, s⟩ [] ⟨s, vars, none⟩
  | faulty {stmt e rest vars s error} : Stmt.valued? stmt = some e → eval vars e = .error error →
      Ceases host ⟨stmt :: rest, vars, s⟩ [] ⟨s, vars, some (.script error)⟩
  | uncounted {line count text body rest vars s} : eval vars count = .ok text →
      repeatCount? text = none → Ceases host ⟨.repeated line count body :: rest, vars, s⟩ []
        ⟨s, vars, some (.script (.badRepeatCount line text))⟩
  | refused {line command text rest vars s t error} : eval vars command = .ok text →
      host.yield s text = (t, some error) →
      Ceases host ⟨.yield line command :: rest, vars, s⟩ [.yielded text] ⟨t, vars, some (.host error)⟩

inductive Reaches (host : Host σ ε) : Point σ → List Happening → Point σ → Prop where
  | here (a : Point σ) : Reaches host a [] a
  | step {a b c first later} : Proceeds host a first b → Reaches host b later c →
      Reaches host a (first ++ later) c

/-! The outcome from a point is the outcome from each later one. -/

variable {vars : Variables} {s : σ}

theorem Point.run_cons (stmt : Stmt) (rest : Program) (record : List Happening) :
    Point.run host ⟨stmt :: rest, vars, s⟩ record =
      (Program.run host.recorded [stmt] vars (s, record)).andThen (Program.run host.recorded rest) :=
  Program.run_cons _ stmt rest vars _

theorem run_faulty {stmt : Stmt} {e : Expr} {error : ScriptError} (hvalued : stmt.valued? = some e)
    (h : eval vars e = .error error) :
    Program.run host [stmt] vars s = ⟨s, vars, some (.script error)⟩ := by
  cases stmt <;> cases hvalued
  case yield line => rw [Program.run_yield, Program.withValue_error h]
  case log => rw [Program.run_log, Program.withValue_error h]
  case assign name => rw [Program.run_assign, Program.withValue_error h]
  case branch body elifs otherwise => rw [Program.run_branch, Program.withValue_error h]
  case repeated line body => rw [Program.run_repeated, Program.withValue_error h]

open Program in
/-- A step changes nothing about the outcome, and what is exchanged in it is on record. -/
theorem Proceeds.run {a b : Point σ} {first : List Happening} (h : Proceeds host a first b)
    (record : List Happening) : a.run host record = b.run host (record ++ first) := by
  cases h with
  | yield hvalue hyield =>
    rw [Point.run_cons, run_yield, withValue_ok hvalue, host.recorded_yield hyield]
    rfl
  | log hvalue =>
    rw [Point.run_cons, run_log, withValue_ok hvalue]
    rfl
  | assign hvalue =>
    rw [Point.run_cons, run_assign, withValue_ok hvalue, List.append_nil]
    rfl
  | ask hquery =>
    rw [Point.run_cons, run_ask, host.recorded_query hquery]
    rfl
  | holds hvalue hholds =>
    rw [Point.run_cons, run_branch, withValue_ok hvalue, if_pos hholds, List.append_nil]
    exact (run_append _ _ _ _ _).symm
  | fails hvalue hfails =>
    rw [Point.run_cons, run_branch, withValue_ok hvalue, hfails, List.append_nil]
    exact (run_append _ _ _ _ _).symm
  | repeated hvalue hcount =>
    rw [Point.run_cons, run_repeated, withValue_ok hvalue, hcount, List.append_nil]
    exact (run_append _ _ _ _ _).symm

theorem Reaches.run {a b : Point σ} {before : List Happening} (h : Reaches host a before b)
    (record : List Happening) : a.run host record = b.run host (record ++ before) := by
  induction h generalizing record with
  | here a => rw [List.append_nil]
  | step hfirst _ ih => rw [hfirst.run, ih, List.append_assoc]

open Program in
theorem Ceases.run {a : Point σ} {last : List Happening} {o : Outcome σ ε} (h : Ceases host a last o)
    (record : List Happening) :
    a.run host record = ⟨(o.state, record ++ last), o.vars, o.failure⟩ := by
  cases h with
  | done => rw [List.append_nil]; rfl
  | faulty hvalued hvalue => rw [Point.run_cons, run_faulty hvalued hvalue, List.append_nil]; rfl
  | uncounted hvalue hcount =>
    rw [Point.run_cons, run_repeated, withValue_ok hvalue, hcount, List.append_nil]
    rfl
  | refused hvalue hyield =>
    rw [Point.run_cons, run_yield, withValue_ok hvalue, host.recorded_yield hyield]
    rfl

/-! Every run comes to a point that it does not get beyond. -/

def Concludes (host : Host σ ε) (a : Point σ) : Prop :=
  ∃ before b last o, Reaches host a before b ∧ Ceases host b last o

theorem Ceases.concludes {a : Point σ} {last : List Happening} {o : Outcome σ ε}
    (h : Ceases host a last o) : Concludes host a :=
  ⟨[], a, last, o, .here a, h⟩

theorem Proceeds.concludes {a b : Point σ} {first : List Happening} (h : Proceeds host a first b)
    (hb : Concludes host b) : Concludes host a := by
  obtain ⟨before, c, last, o, hreaches, hceases⟩ := hb
  exact ⟨first ++ before, c, last, o, .step h hreaches, hceases⟩

/-- A run of a program comes to its end, from any variables and host. -/
def AlwaysConcludes (host : Host σ ε) (p : Program) : Prop :=
  ∀ vars s, Concludes host ⟨p, vars, s⟩

namespace AlwaysConcludes

variable {body rest : Program}

/-- A statement whose value is an error is where a run ends. -/
theorem of_value {stmt : Stmt} {e : Expr} (hvalued : stmt.valued? = some e)
    (h : ∀ vars s text, eval vars e = .ok text → Concludes host ⟨stmt :: rest, vars, s⟩) :
    AlwaysConcludes host (stmt :: rest) := by
  intro vars s
  cases hvalue : eval vars e with
  | error error => exact (Ceases.faulty hvalued hvalue).concludes
  | ok text => exact h vars s text hvalue

theorem branch {elifs : List (Expr × List Stmt)} {otherwise : Option (List Stmt)}
    (condition : Expr) (hbody : AlwaysConcludes host (body ++ rest))
    (helse : AlwaysConcludes host (Program.elseOf elifs otherwise ++ rest)) :
    AlwaysConcludes host (.branch condition body elifs otherwise :: rest) := by
  refine of_value rfl fun vars s text hvalue => ?_
  cases htruth : truthy text with
  | true => exact (Proceeds.holds hvalue htruth).concludes (hbody vars s)
  | false => exact (Proceeds.fails hvalue htruth).concludes (helse vars s)

theorem copies (hbody : ∀ rest, AlwaysConcludes host rest → AlwaysConcludes host (body ++ rest))
    (hrest : AlwaysConcludes host rest) (n : Nat) :
    AlwaysConcludes host ((List.replicate n body).flatten ++ rest) := by
  induction n with
  | zero => exact hrest
  | succ n ih =>
    rw [List.replicate_succ, List.flatten_cons, List.append_assoc]
    exact hbody _ ih

theorem repeated (line : Nat) (count : Expr)
    (hbody : ∀ rest, AlwaysConcludes host rest → AlwaysConcludes host (body ++ rest))
    (hrest : AlwaysConcludes host rest) :
    AlwaysConcludes host (.repeated line count body :: rest) := by
  refine of_value rfl fun vars s text hvalue => ?_
  cases hcount : repeatCount? text with
  | none => exact (Ceases.uncounted hvalue hcount).concludes
  | some n => exact (Proceeds.repeated hvalue hcount).concludes (copies hbody hrest n vars s)

end AlwaysConcludes

-- What follows a statement is kept general, as the passes of a loop follow one another.
mutual
theorem concludes_stmt : (stmt : Stmt) → ∀ rest, AlwaysConcludes host rest →
    AlwaysConcludes host (stmt :: rest)
  | .yield line command, rest, hrest => .of_value rfl fun vars s text hvalue => by
    rcases hyield : host.yield s text with ⟨t, _ | error⟩
    · exact (Proceeds.yield hvalue hyield).concludes (hrest vars t)
    · exact (Ceases.refused hvalue hyield).concludes
  | .log message, rest, hrest => .of_value rfl fun _ _ _ hvalue =>
    (Proceeds.log hvalue).concludes (hrest _ _)
  | .assign name value, rest, hrest => .of_value rfl fun _ _ _ hvalue =>
    (Proceeds.assign hvalue).concludes (hrest _ _)
  | .ask name query, rest, hrest => fun vars s => (Proceeds.ask rfl).concludes (hrest _ _)
  | .branch condition body elifs none, rest, hrest =>
    .branch condition (concludes_block body rest hrest)
      (concludes_else elifs none rest hrest hrest)
  | .branch condition body elifs (some otherwise), rest, hrest =>
    .branch condition (concludes_block body rest hrest)
      (concludes_else elifs (some otherwise) rest hrest (concludes_block otherwise rest hrest))
  | .repeated line count body, rest, hrest => .repeated line count (concludes_block body) hrest
theorem concludes_block : (body : List Stmt) → ∀ rest, AlwaysConcludes host rest →
    AlwaysConcludes host (body ++ rest)
  | [], _, hrest => hrest
  | stmt :: body, rest, hrest => concludes_stmt stmt _ (concludes_block body rest hrest)
theorem concludes_else : (elifs : List (Expr × List Stmt)) → ∀ otherwise rest,
    AlwaysConcludes host rest → AlwaysConcludes host (otherwise.getD [] ++ rest) →
    AlwaysConcludes host (Program.elseOf elifs otherwise ++ rest)
  | [], _, _, _, hotherwise => hotherwise
  | (condition, body) :: elifs, otherwise, rest, hrest, hotherwise =>
    .branch condition (concludes_block body rest hrest)
      (concludes_else elifs otherwise rest hrest hotherwise)
end

theorem concludes (host : Host σ ε) (a : Point σ) : Concludes host a := by
  have hdone : AlwaysConcludes host [] := fun vars s => Ceases.done.concludes
  have hall := concludes_block a.rest [] hdone a.vars a.state
  rwa [List.append_nil] at hall

/-! Yields that the host refuses. -/

/-- From a point on, the host refuses the `j`th command line, with this record and the variables of
that moment. -/
def RefusedAt (host : Host σ ε) (j : Nat) (a : Point σ) (record : List Happening)
    (vars : Variables) (t : σ) (error : ε) : Prop :=
  ∃ before line command rest s text,
    Reaches host a before ⟨.yield line command :: rest, vars, s⟩ ∧
    (Happening.yields before).length + 1 = j ∧
    eval vars command = .ok text ∧ host.yield s text = (t, some error) ∧
    record = before ++ [.yielded text]

theorem length_yields_append_yielded (before : List Happening) (text : String) :
    (Happening.yields (before ++ [.yielded text])).length =
      (Happening.yields before).length + 1 := by
  rw [Happening.yields, List.filterMap_append, List.length_append]
  rfl

/-- A run ends with an error of the host just where the host refuses a command line. -/
theorem refused_iff (a : Point σ) (j : Nat) (record : List Happening) (vars : Variables) (t : σ)
    (error : ε) : (a.run host [] = ⟨(t, record), vars, some (.host error)⟩ ∧
      (Happening.yields record).length = j) ↔ RefusedAt host j a record vars t error := by
  constructor
  · rintro ⟨hrun, hcount⟩
    obtain ⟨before, b, last, o, hreaches, hceases⟩ := concludes host a
    rw [hreaches.run, hceases.run] at hrun
    cases hceases with
    | done | faulty | uncounted => cases hrun
    | @refused line command text rest vars s t error hvalue hyield =>
      cases hrun
      rw [List.nil_append, length_yields_append_yielded] at hcount
      exact ⟨before, line, command, rest, s, text, hreaches, hcount, hvalue, hyield, rfl⟩
  · rintro ⟨before, line, command, rest, s, text, hreaches, hcount, hvalue, hyield, rfl⟩
    have hceases : Ceases host ⟨.yield line command :: rest, vars, s⟩ _ _ := .refused hvalue hyield
    refine ⟨?_, (length_yields_append_yielded before text).trans hcount⟩
    rw [hreaches.run, hceases.run]
    rfl

/-! The record is beside the run. -/

def Outcome.unrecorded (o : Outcome (σ × List Happening) ε) : Outcome σ ε :=
  ⟨o.state.1, o.vars, o.failure⟩

theorem Process.run_unrecorded (process : Process) (s : σ) (record : List Happening) :
    (process.run host.recorded (s, record)).unrecorded = process.run host s := by
  induction process generalizing s record with
  | done | failed => rfl
  | yielded command vars resume ih =>
    rcases hyield : host.yield s command with ⟨t, _ | error⟩
    · rw [run_yielded, run_yielded, hyield, host.recorded_yield hyield]
      exact ih () t _
    · rw [run_yielded, run_yielded, hyield, host.recorded_yield hyield]
      rfl
  | logged message resume ih => exact ih () _ _
  | asked query resume ih => exact ih _ _ _
  | looped resume ih => exact ih () _ _

/-- A loop with a literal count is so many copies of its block, and a chain of conditions is
branches in the last blocks of others: wherever they are spelled out, the record, the variables, the
host and the error stay the same. Where the host refuses a command line, the record ends with it and
the variables are those of that moment. -/
theorem control_flow_spelled_out (host : Host σ ε) (p : Program) (vars : Variables) (s : σ) :
    (∀ whole places k, whole ≠ [] → (∀ c ∈ whole, isAsciiDigit c = true) →
      (∀ c ∈ places, isAsciiDigit c = true) →
      ofDigits (whole ++ places) = k * tenTo places.length → k ≤ 2 ^ 53 →
      Literal (String.ofList (whole ++ if places = [] then [] else '.' :: places)) k) ∧
    (Program.run host.recorded p vars (s, [])).unrecorded = Program.run host p vars s ∧
    (∀ q, Relation.ReflTransGen Expands p q →
      Program.run host.recorded q vars (s, []) = Program.run host.recorded p vars (s, [])) ∧
    ∀ j record vars' t error,
      (Program.run host.recorded p vars (s, []) = ⟨(t, record), vars', some (.host error)⟩ ∧
        (Happening.yields record).length = j) ↔
      RefusedAt host j ⟨p, vars, s⟩ record vars' t error := by
  refine ⟨?_, Process.run_unrecorded (Process.ofProgram p vars) s [], ?_, ?_⟩
  · intro whole places k hne hwhole hplaces hvalue hk
    exact literal_of_digits hne hwhole hplaces hvalue hk
  · intro q hexpands
    exact (same_of_expanded hexpands host.recorded vars (s, [])).symm
  · intro j record vars' t error
    exact refused_iff ⟨p, vars, s⟩ j record vars' t error

/-- A loop of two passes and a chain, with a host that refuses the second command line. -/
theorem control_flow_spelled_out_loop :
    let host : Host Nat String :=
      ⟨fun n _ => (n + 1, if n = 1 then some "busy" else none), fun n _ => n, fun n _ => ("", n)⟩
    let body : Program := [.yield 2 (.str "a"), .assign "x" (.str "b")]
    let chain : Stmt := .branch (.var "x") [] [(.str "y", [.log (.str "c")])] none
    let nested : Stmt := .branch (.var "x") [] [] (some [.branch (.str "y") [.log (.str "c")] [] none])
    let p : Program := [.repeated 1 (.number "2") body, chain]
    Literal "2" 2 ∧
    Program.run host.recorded (body ++ body ++ [nested]) .empty (0, []) =
      Program.run host.recorded p .empty (0, []) ∧
    Program.run host.recorded p .empty (0, []) =
      ⟨(2, [.yielded "a", .yielded "a"]), ⟨[("x", "b")]⟩, some (.host "busy")⟩ := by
  intro host body chain nested p
  obtain ⟨hliteral, -, hsame, hrefused⟩ := control_flow_spelled_out host p .empty 0
  have htwo : Literal "2" 2 :=
    hliteral ['2'] [] 2 (by decide) (List.forall_mem_singleton.mpr (by decide))
      (List.forall_mem_nil _) (by decide) (by decide)
  have hcopies : Expands p (body ++ body ++ [chain]) := Expands.copies htwo (by decide)
  have hnested : Expands (body ++ body ++ [chain]) (body ++ body ++ [nested]) :=
    .behind _ (.behind _ (.behind _ (.behind _ .nested)))
  have hexpands : Relation.ReflTransGen Expands p (body ++ body ++ [nested]) :=
    .tail (.single hcopies) hnested
  refine ⟨htwo, hsame (body ++ body ++ [nested]) hexpands, ?_⟩
  have htwice : repeatCount? "2" = some 2 := htwo.repeatCount? (by decide)
  have hloop : Proceeds host ⟨p, .empty, 0⟩ [] ⟨body ++ body ++ [chain], .empty, 0⟩ :=
    .repeated rfl htwice
  have hset : Variables.empty.set "x" (Text.trimmed "b") = ⟨[("x", "b")]⟩ := by decide
  have hpass : Reaches host ⟨body ++ body ++ [chain], .empty, 0⟩ [.yielded "a"]
      ⟨body ++ [chain], ⟨[("x", "b")]⟩, 1⟩ :=
    hset ▸ .step (.yield rfl rfl) (.step (.assign rfl) (.here _))
  exact ((hrefused 2 _ _ _ _).mpr
    ⟨_, _, _, _, _, _, .step hloop hpass, rfl, rfl, rfl, rfl⟩).1

end MacroEngine.Script
