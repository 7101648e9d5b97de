import MacroEngine.Proofs.DecimalNotation
import MacroEngine.Proofs.Sequencing
import Mathlib.Logic.Relation

/-! Loops and chains of branches spelled out. A loop whose count is a literal is so many copies of
its block, and a chain of conditions is a branch inside the last block of another. Wherever in a
program they stand, the program does the same when they are replaced. -/
namespace MacroEngine.Script
open Text Number

/-! Counts. -/

def Literal (text : String) (k : Nat) : Prop := numberOf text = some (.ofNat k)

theorem toNat?_ofNat {k : Nat} (hk : k ≤ 2 ^ 53) : (Binary64.ofNat k).toNat? = some k := by
  have hlimit : 2 * Binary64.runLength = 2 ^ 53 := by decide
  rcases Nat.lt_or_eq_of_le hk with hlt | rfl
  · obtain ⟨rank, hrank, hunits⟩ := Binary64.whole_exact (hlimit ▸ hlt)
    have hvalue : Binary64.ofNat k = .finite false rank := hrank
    rw [hvalue, Binary64.toNat?, hunits, Nat.mul_mod_left, if_pos ⟨rfl, .inl rfl⟩,
      Nat.mul_div_cancel _ Binary64.unitsPerOne_pos]
  · decide +kernel

theorem Literal.repeatCount? {text : String} {k : Nat} (h : Literal text k) (hk : k ≤ 2 ^ 53) :
    repeatCount? text = some k := by
  have hmax : k ≤ max64 := Nat.le_trans hk (by decide)
  rw [Script.repeatCount?, h, Option.bind_some, toNat?_ofNat hk, Option.map_some,
    Nat.min_eq_right hmax]

/-- Digits whose value is a whole number are read as that number, with a point in them or not. -/
theorem literal_of_digits {whole places : List Char} {k : Nat} (hne : whole ≠ [])
    (hwhole : ∀ c ∈ whole, isAsciiDigit c = true) (hplaces : ∀ c ∈ places, isAsciiDigit c = true)
    (hvalue : ofDigits (whole ++ places) = k * tenTo places.length) (hk : k ≤ 2 ^ 53) :
    Literal (String.ofList (whole ++ if places = [] then [] else '.' :: places)) k := by
  have hcs : places = [] ∧ whole ++ (if places = [] then [] else '.' :: places) = whole ∨
      places ≠ [] ∧ whole ++ (if places = [] then [] else '.' :: places) = whole ++ '.' :: places := by
    by_cases hnil : places = []
    · exact .inl ⟨hnil, by rw [if_pos hnil, List.append_nil]⟩
    · exact .inr ⟨hnil, by rw [if_neg hnil]⟩
  have hread := Binary64.ofText?_digits hne hwhole hplaces hcs
  have hblank : ∀ c ∈ whole ++ (if places = [] then [] else '.' :: places), isBlank c = false := by
    intro c hc
    rcases List.mem_append.mp hc with hc | hc
    · exact isBlank_of_isAsciiDigit (hwhole c hc)
    · split at hc
      · cases hc
      · rcases List.mem_cons.mp hc with rfl | hc
        · decide
        · exact isBlank_of_isAsciiDigit (hplaces c hc)
  have hcount : digitCount k ≤ 17 :=
    digitCount_le_of_lt (by decide) (Nat.lt_of_le_of_lt hk (by decide))
  have hround : Decimal.round false ⟨ofDigits (whole ++ places), -places.length⟩ = .ofNat k := by
    rw [hvalue, Decimal.round_shift, Int.add_left_neg]
    exact Decimal.round_nat (Nat.le_trans hcount (by decide))
  rw [Literal, numberOf, String.toList_ofList, trim_of_no_blanks hblank, hread, hround]

/-! Chains. -/

/-- A chain of conditions, each in the last block of the one before. -/
def nestedElse : List (Expr × List Stmt) → Option (List Stmt) → Option (List Stmt)
  | [], otherwise => otherwise
  | (condition, body) :: rest, otherwise =>
    some [.branch condition body [] (nestedElse rest otherwise)]

variable {σ ε : Type} {host : Host σ ε} {p q : Program} {a b : Stmt}

/-- One program does on a host what another one does. -/
def Same (host : Host σ ε) (p q : Program) : Prop :=
  ∀ vars s, Program.run host p vars s = Program.run host q vars s

namespace Same

theorem append (hp : Same host p q) {p' q' : Program} (hq : Same host p' q') :
    Same host (p ++ p') (q ++ q') := by
  intro vars s
  rw [Program.run_append, Program.run_append, hp]
  exact Outcome.andThen_congr _ hq

theorem head (h : Same host [a] [b]) (rest : Program) : Same host (a :: rest) (b :: rest) :=
  h.append fun _ _ => rfl

theorem replicate (h : Same host p q) (n : Nat) :
    Same host (List.replicate n p).flatten (List.replicate n q).flatten := by
  induction n with
  | zero => exact fun _ _ => rfl
  | succ n ih =>
    rw [List.replicate_succ, List.replicate_succ, List.flatten_cons, List.flatten_cons]
    exact h.append ih

theorem repeated (h : Same host p q) (line : Nat) (count : Expr) :
    Same host [.repeated line count p] [.repeated line count q] := by
  intro vars s
  rw [Program.run_repeated, Program.run_repeated]
  refine Program.withValue_congr fun value => ?_
  cases Script.repeatCount? value with
  | none => rfl
  | some n => exact h.replicate n vars s

theorem branch {condition : Expr} {body body' : List Stmt} {elifs elifs' : List (Expr × List Stmt)}
    {otherwise otherwise' : Option (List Stmt)} (hbody : Same host body body')
    (helse : Same host (Program.elseOf elifs otherwise) (Program.elseOf elifs' otherwise')) :
    Same host [.branch condition body elifs otherwise]
      [.branch condition body' elifs' otherwise'] := by
  intro vars s
  rw [Program.run_branch, Program.run_branch]
  refine Program.withValue_congr fun value => ?_
  cases truthy value with
  | true => exact hbody vars s
  | false => exact helse vars s

theorem elif (h : Same host p q) (condition guard : Expr) (body : List Stmt)
    (earlier later : List (Expr × List Stmt)) (otherwise : Option (List Stmt)) :
    Same host [.branch condition body (earlier ++ (guard, p) :: later) otherwise]
      [.branch condition body (earlier ++ (guard, q) :: later) otherwise] := by
  induction earlier generalizing condition body with
  | nil => exact branch (fun _ _ => rfl) (branch h fun _ _ => rfl)
  | cons first earlier ih => exact branch (fun _ _ => rfl) (ih first.1 first.2)

theorem otherwise (h : Same host p q) (condition : Expr) (body : List Stmt)
    (elifs : List (Expr × List Stmt)) :
    Same host [.branch condition body elifs (some p)] [.branch condition body elifs (some q)] := by
  induction elifs generalizing condition body with
  | nil => exact branch (fun _ _ => rfl) h
  | cons first elifs ih => exact branch (fun _ _ => rfl) (ih first.1 first.2)

theorem nested (condition : Expr) (body : List Stmt) (elifs : List (Expr × List Stmt))
    (otherwise : Option (List Stmt)) : Same host [.branch condition body elifs otherwise]
      [.branch condition body [] (nestedElse elifs otherwise)] := by
  induction elifs generalizing condition body with
  | nil => exact fun _ _ => rfl
  | cons first elifs ih => exact branch (fun _ _ => rfl) (ih first.1 first.2)

theorem copies {text : String} {k : Nat} (h : Literal text k) (hk : k ≤ 2 ^ 53) (line : Nat)
    (body : List Stmt) :
    Same host [.repeated line (.number text) body] (List.replicate k body).flatten := by
  intro vars s
  have hvalue : eval vars (.number text) = .ok text := rfl
  rw [Program.run_repeated, Program.withValue_ok hvalue, h.repeatCount? hk]

end Same

/-- A loop or a chain is spelled out, somewhere in a program. -/
inductive Expands : Program → Program → Prop where
  | copies {line : Nat} {text : String} {k : Nat} {body rest : List Stmt} :
      Literal text k → k ≤ 2 ^ 53 → Expands (.repeated line (.number text) body :: rest)
        ((List.replicate k body).flatten ++ rest)
  | nested {condition : Expr} {body : List Stmt} {elifs : List (Expr × List Stmt)}
      {otherwise : Option (List Stmt)} {rest : List Stmt} :
      Expands (.branch condition body elifs otherwise :: rest)
        (.branch condition body [] (nestedElse elifs otherwise) :: rest)
  | behind {p q : Program} (s : Stmt) : Expands p q → Expands (s :: p) (s :: q)
  | body {condition : Expr} {p q : Program} {elifs : List (Expr × List Stmt)}
      {otherwise : Option (List Stmt)} {rest : List Stmt} : Expands p q →
      Expands (.branch condition p elifs otherwise :: rest)
        (.branch condition q elifs otherwise :: rest)
  | elif {condition guard : Expr} {body : List Stmt} {p q : Program}
      {earlier later : List (Expr × List Stmt)} {otherwise : Option (List Stmt)}
      {rest : List Stmt} : Expands p q →
      Expands (.branch condition body (earlier ++ (guard, p) :: later) otherwise :: rest)
        (.branch condition body (earlier ++ (guard, q) :: later) otherwise :: rest)
  | otherwise {condition : Expr} {body : List Stmt} {elifs : List (Expr × List Stmt)}
      {p q : Program} {rest : List Stmt} : Expands p q →
      Expands (.branch condition body elifs (some p) :: rest)
        (.branch condition body elifs (some q) :: rest)
  | loop {line : Nat} {count : Expr} {p q : Program} {rest : List Stmt} : Expands p q →
      Expands (.repeated line count p :: rest) (.repeated line count q :: rest)

theorem Expands.same (h : Expands p q) (host : Host σ ε) : Same host p q := by
  induction h with
  | copies hliteral hk => exact (Same.copies hliteral hk _ _).append fun _ _ => rfl
  | nested => exact (Same.nested _ _ _ _).head _
  | behind s _ ih =>
    have hfirst : Same host [s] [s] := fun _ _ => rfl
    exact hfirst.append ih
  | body _ ih => exact (Same.branch ih fun _ _ => rfl).head _
  | elif _ ih => exact (ih.elif _ _ _ _ _ _).head _
  | otherwise _ ih => exact (ih.otherwise _ _ _).head _
  | loop _ ih => exact (ih.repeated _ _).head _

theorem same_of_expanded (h : Relation.ReflTransGen Expands p q) (host : Host σ ε) :
    Same host p q := by
  induction h with
  | refl => exact fun _ _ => rfl
  | tail _ hstep ih => exact fun vars s => (ih vars s).trans (hstep.same host vars s)

end MacroEngine.Script
