import Mathlib.Data.List.Chain
import MacroEngine.Script.Grammar

/-! Readers of tokens: how far the tokens at the front of a stream decide what a reader gives. When
it succeeds, the tokens that it took, and the kind of the one behind them; when it fails, the tokens
up to one that it does not get past, in front of which it could have gone on to a value. -/
namespace MacroEngine.Script

/-- Takes tokens from the front of a stream; gives a value and what is left. -/
abbrev Reader (α : Type) := List Lexeme → Except ScriptError (α × List Lexeme)

def ScriptError.line? : ScriptError → Option Nat
  | .lex line _ | .parse line _ | .unknownQuery line _ | .badRepeatCount line _ => some line
  | .undefinedVariable _ | .runtime _ => none

def Ended (ts : List Lexeme) : Prop := ∃ t ∈ ts, t.token = .eof

theorem Ended.tail {t : Lexeme} {ts : List Lexeme} (h : Ended (t :: ts)) (ht : t.token ≠ .eof) :
    Ended ts := by
  obtain ⟨t', hm, he⟩ := h
  rcases List.mem_cons.mp hm with rfl | hm
  · exact absurd he ht
  · exact ⟨t', hm, he⟩

/-- A stream that ends, with a new line number behind a line end only. -/
structure Lined (ts : List Lexeme) : Prop where
  ended : Ended ts
  chained : ts.IsChain fun a b => a.token = .newline ∨ a.line = b.line

theorem Lined.tail {t : Lexeme} {ts : List Lexeme} (h : Lined (t :: ts)) (ht : t.token ≠ .eof) :
    Lined ts := ⟨h.ended.tail ht, h.chained.tail⟩

theorem Lined.suffix {used rest : List Lexeme} (h : Lined (used ++ rest))
    (hused : ∀ t ∈ used, t.token ≠ .eof) : Lined rest := by
  induction used with
  | nil => exact h
  | cons t used ih =>
    obtain ⟨ht, hused⟩ := List.forall_mem_cons.mp hused
    exact ih (h.tail ht) hused

theorem Lined.exists_cons {ts : List Lexeme} (h : Lined ts) : ∃ t rest, ts = t :: rest := by
  obtain ⟨t, hm, -⟩ := h.ended
  exact List.exists_cons_of_ne_nil (List.ne_nil_of_mem hm)

/-- The token behind one that ends no line is on the same line. -/
theorem Lined.line_eq {a b : Lexeme} {ts : List Lexeme} (h : Lined (a :: b :: ts))
    (ha : a.token ≠ .newline) : b.line = a.line :=
  ((List.isChain_cons_cons.mp h.chained).1.resolve_left ha).symm

variable {α β : Type}

namespace Reader

def andThen (P : Reader α) (F : α → Reader β) : Reader β := fun ts => do
  let (x, rest) ← P ts
  F x rest

def map (f : α → β) (P : Reader α) : Reader β := fun ts => do
  let (x, rest) ← P ts
  pure (f x, rest)

/-- `used` is read as `x` in front of every token that may end it. -/
def Reads (P : Reader α) (ends : Token → Prop) (used : List Lexeme) (x : α) : Prop :=
  ∀ t tail, ends t.token → P (used ++ t :: tail) = .ok (x, t :: tail)

/-- The reader takes `used` as `x`, also when a token that may be `next` stands in place of the one
behind it. -/
structure Takes (P : Reader α) (next : Token → Token → Prop) (ts used rest : List Lexeme) (x : α) :
    Prop where
  split : ts = used ++ rest
  inner : ∀ t ∈ used, t.token ≠ .eof
  again : ∀ t tail, next (peek rest) t.token → P (used ++ t :: tail) = .ok (x, t :: tail)

/-- The reader fails with `e` at the token `t`, however the stream goes on. Other tokens in its
place lead to a value; `starts` says which they may begin with if nothing was taken before. -/
structure Stops (P : Reader α) (starts : Token → Token → Prop) (ends : Token → Prop)
    (before : List Lexeme) (t : Lexeme) (e : ScriptError) : Prop where
  line : e.line? = some t.line
  here : ∀ tail, P (before ++ t :: tail) = .error e
  passable : ∃ more x, P.Reads ends (before ++ more) x ∧
    (before = [] → ∀ t' tail, ends t'.token → starts t.token (peek (more ++ t' :: tail)))

structure Decided (P : Reader α) (next starts : Token → Token → Prop) (ends : Token → Prop)
    (ts : List Lexeme) : Prop where
  takes : ∀ x rest, P ts = .ok (x, rest) → ∃ used, P.Takes next ts used rest x
  stops : ∀ e, P ts = .error e →
    ∃ before t rest, ts = before ++ t :: rest ∧ P.Stops starts ends before t e

variable {P : Reader α} {F : α → Reader β} {next nextP starts startsF : Token → Token → Prop}
  {ends endsP : Token → Prop} {ts used before rest : List Lexeme} {x : α} {y : β} {t : Lexeme}
  {e : ScriptError}

theorem andThen_ok (h : P ts = .ok (x, rest)) : P.andThen F ts = F x rest := by
  rw [andThen, h]
  rfl

theorem map_ok {f : α → β} (h : P ts = .ok (x, rest)) : P.map f ts = .ok (f x, rest) := by
  rw [map, h]
  rfl

theorem andThen_error (h : P ts = .error e) : P.andThen F ts = .error e := by
  rw [andThen, h]
  rfl

theorem Reads.andThen {more : List Lexeme} (hP : P.Reads endsP used x)
    (hF : (F x).Reads ends more y)
    (hends : ∀ t tail, ends t.token → endsP (peek (more ++ t :: tail))) :
    (P.andThen F).Reads ends (used ++ more) y := by
  intro t tail ht
  have hfirst := hends t tail ht
  have hread := hF t tail ht
  rw [List.append_assoc]
  generalize hus : more ++ t :: tail = us at hfirst hread
  obtain ⟨t', tail', rfl⟩ : ∃ t' tail', us = t' :: tail' :=
    List.exists_cons_of_ne_nil (hus ▸ by simp)
  rw [andThen_ok (hP t' tail' hfirst), hread]

theorem Reads.map (h : P.Reads ends used x) (f : α → β) : (P.map f).Reads ends used (f x) :=
  fun t tail ht => map_ok (h t tail ht)

theorem Takes.lined (h : P.Takes next ts used rest x) (hts : Lined ts) : Lined rest :=
  Lined.suffix (h.split ▸ hts) h.inner

theorem Takes.length_le (h : P.Takes next ts used rest x) : rest.length ≤ ts.length := by
  rw [h.split, List.length_append]
  omega

/-- A reader takes the same again in front of a stream that begins with the same kind of token. -/
theorem Takes.again_of_peek (h : P.Takes next ts used rest x) {us : List Lexeme} (hne : us ≠ [])
    (hnext : next (peek rest) (peek us)) : P (used ++ us) = .ok (x, us) := by
  obtain ⟨t, tail, rfl⟩ := List.exists_cons_of_ne_nil hne
  exact h.again t tail hnext

theorem Stops.cons {Q : Reader α} {starts' : Token → Token → Prop} {first : Lexeme}
    (h : Q.Stops starts ends before t e) (hstep : ∀ ts, P (first :: ts) = Q ts) :
    P.Stops starts' ends (first :: before) t e where
  line := h.line
  here := fun tail => (hstep _).trans (h.here tail)
  passable := by
    obtain ⟨more, x, hreads, -⟩ := h.passable
    exact ⟨more, x, fun t tail ht => (hstep _).trans (hreads t tail ht), fun he => nomatch he⟩

theorem Decided.cons {Q : Reader α} {starts' : Token → Token → Prop} {first : Lexeme}
    (h : Q.Decided next starts ends ts) (hfirst : first.token ≠ .eof)
    (hstep : ∀ ts, P (first :: ts) = Q ts) : P.Decided next starts' ends (first :: ts) where
  takes := fun x rest hx => by
    obtain ⟨used, htakes⟩ := h.takes x rest ((hstep ts).symm.trans hx)
    exact ⟨first :: used, by rw [htakes.split, List.cons_append],
      List.forall_mem_cons.mpr ⟨hfirst, htakes.inner⟩,
      fun t tail ht => (hstep _).trans (htakes.again t tail ht)⟩
  stops := fun e he => by
    obtain ⟨before, t, rest, rfl, hstops⟩ := h.stops e ((hstep ts).symm.trans he)
    exact ⟨first :: before, t, rest, rfl, hstops.cons hstep⟩

theorem Decided.fails (hline : e.line? = some t.line) (here : ∀ ts, P (t :: ts) = .error e)
    {more : List Lexeme} (hmore : P.Reads ends more x)
    (hstarts : ∀ t' tail, ends t'.token → starts t.token (peek (more ++ t' :: tail))) :
    P.Decided next starts ends (t :: ts) where
  takes := fun x rest hx => by rw [here] at hx; cases hx
  stops := fun e' he => by
    rw [here] at he
    cases he
    exact ⟨[], t, ts, rfl, hline, here, more, x, hmore, fun _ => hstarts⟩

theorem Decided.map (h : P.Decided next starts ends ts) (f : α → β) :
    (P.map f).Decided next starts ends ts where
  takes := fun y rest hy => by
    rw [Reader.map] at hy
    cases hx : P ts with
    | error e => rw [hx] at hy; cases hy
    | ok found =>
      rw [hx] at hy
      cases hy
      obtain ⟨used, htakes⟩ := h.takes _ _ hx
      exact ⟨used, htakes.split, htakes.inner, fun t tail ht => map_ok (htakes.again t tail ht)⟩
  stops := fun e he => by
    rw [Reader.map] at he
    cases hx : P ts with
    | ok found => rw [hx] at he; cases he
    | error fault =>
      rw [hx] at he
      cases he
      obtain ⟨before, t, rest, hts, hline, here, more, x, hreads, hstarts⟩ := h.stops _ hx
      refine ⟨before, t, rest, hts, hline, fun tail => ?_, more, f x, hreads.map f, hstarts⟩
      rw [Reader.map, here]
      rfl

/-- Two readers in a row. Whatever the second one may start with leaves to the first one what it
took, and the second one can always be completed behind the first. -/
theorem Decided.andThen (hP : P.Decided nextP starts endsP ts)
    (hF : ∀ x used rest, P.Takes nextP ts used rest x → (F x).Decided next startsF ends rest)
    (hsame : ∀ t, nextP t t) (hnext : ∀ old new, next old new → nextP old new)
    (hstarts : ∀ old new, startsF old new → nextP old new ∧ starts old new)
    (hmore : ∀ x, ∃ more y, (F x).Reads ends more y ∧
      ∀ t tail, ends t.token → endsP (peek (more ++ t :: tail))) :
    (P.andThen F).Decided next starts ends ts where
  takes := fun y rest hy => by
    cases hx : P ts with
    | error e => rw [andThen_error hx] at hy; cases hy
    | ok found =>
      obtain ⟨x, middle⟩ := found
      rw [andThen_ok hx] at hy
      obtain ⟨used, hP⟩ := hP.takes _ _ hx
      obtain ⟨used', hF⟩ := (hF x used middle hP).takes _ _ hy
      refine ⟨used ++ used', by rw [hP.split, hF.split, List.append_assoc],
        List.forall_mem_append.mpr ⟨hP.inner, hF.inner⟩, fun t tail ht => ?_⟩
      have hfirst : nextP (peek middle) (peek (used' ++ t :: tail)) := by
        rw [hF.split]
        cases used' with
        | nil => exact hnext _ _ ht
        | cons first used' => exact hsame _
      rw [List.append_assoc, andThen_ok (hP.again_of_peek (by simp) hfirst), hF.again t tail ht]
  stops := fun e he => by
    cases hx : P ts with
    | error fault =>
      rw [andThen_error hx] at he
      cases he
      obtain ⟨before, t, rest, hts, hline, here, more, x, hreads, hfirst⟩ := hP.stops _ hx
      obtain ⟨more', y, hreads', hends⟩ := hmore x
      refine ⟨before, t, rest, hts, hline, fun tail => andThen_error (here tail), more ++ more', y,
        ?_, fun hnil t' tail ht => ?_⟩
      · rw [← List.append_assoc]
        exact hreads.andThen hreads' hends
      · have hlast := hends t' tail ht
        rw [List.append_assoc]
        generalize hus : more' ++ t' :: tail = us at hlast
        obtain ⟨t'', tail', rfl⟩ : ∃ t'' tail', us = t'' :: tail' :=
          List.exists_cons_of_ne_nil (hus ▸ by simp)
        exact hfirst hnil t'' tail' hlast
    | ok found =>
      obtain ⟨x, middle⟩ := found
      rw [andThen_ok hx] at he
      obtain ⟨used, hP⟩ := hP.takes _ _ hx
      obtain ⟨before, t, rest, hmiddle, hline, here, more, y, hreads, hfirst⟩ :=
        (hF x used middle hP).stops _ he
      have hpeek {us : List Lexeme} (hnil : before = [] → startsF t.token (peek us)) :
          nextP (peek middle) (peek (before ++ us)) := by
        rw [hmiddle]
        cases before with
        | nil => exact (hstarts _ _ (hnil rfl)).1
        | cons first before => exact hsame _
      refine ⟨used ++ before, t, rest, by rw [hP.split, hmiddle, List.append_assoc], hline,
        fun tail => ?_, more, y, fun t' tail ht => ?_, fun hnil t' tail ht => ?_⟩
      · have hfirst : nextP (peek middle) (peek (before ++ t :: tail)) := by
          rw [hmiddle]
          cases before <;> exact hsame _
        rw [List.append_assoc, andThen_ok (hP.again_of_peek (by simp) hfirst), here]
      · rw [List.append_assoc, List.append_assoc, andThen_ok (hP.again_of_peek (by simp)
          (hpeek fun hnil => hfirst hnil t' tail ht)), ← List.append_assoc]
        exact hreads t' tail ht
      · exact (hstarts _ _ (hfirst (List.append_eq_nil_iff.mp hnil).2 t' tail ht)).2

end Reader
end MacroEngine.Script
