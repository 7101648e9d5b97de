import MacroEngine.Proofs.LineNumbers
import MacroEngine.Proofs.Remarks

/-! The stream of tokens that a script is lexed into. The depth of a line opens one block or closes
some that are open, a line that does either holds a statement, and behind the last line all blocks
are closed. So the stream is balanced, no block is empty, and lines are numbered upwards. -/
namespace MacroEngine.Script
open Text

namespace Token

/-- What may stand right in front of what: the edge of a block stands behind the end of a line or
another edge, and a block does not begin with an end. -/
structure Precedes (a b : Token) : Prop where
  edge : b = .indent ∨ b = .dedent → a = .newline ∨ a = .indent ∨ a = .dedent
  opening : a = .indent → b ≠ .newline ∧ b ≠ .dedent ∧ b ≠ .eof

/-- How many blocks are open behind a token; nothing when it closes one that is not open. -/
def blocks? : Nat → Token → Option Nat
  | opened, .indent => some (opened + 1)
  | 0, .dedent => none
  | opened + 1, .dedent => some opened
  | opened, _ => some opened

end Token

def blocksAfter? (opened : Nat) (tokens : List Token) : Option Nat :=
  tokens.foldlM Token.blocks? opened

/-- The stream ends, and ends once; its blocks are nested, closed and not empty; and its lines are
in order and no more than `count`. -/
structure WellFormed (count : Nat) (ts : List Lexeme) : Prop where
  ended : ∃ used line, ts = used ++ [⟨.eof, line⟩] ∧ ∀ t ∈ used, t.token ≠ .eof
  chained : (ts.map Lexeme.token).IsChain Token.Precedes
  nested : ∀ used, used <+: ts.map Lexeme.token → used.count .dedent ≤ used.count .indent
  balanced : (ts.map Lexeme.token).count .indent = (ts.map Lexeme.token).count .dedent
  ordered : (ts.map Lexeme.line).Pairwise (· ≤ ·)
  bounded : ∀ t ∈ ts, t.line ≤ count

variable {raw cs : List Char} {depths depths' : Depths} {depth opened left last n : Nat}
  {t : Token} {layout body tokens more : List Token} {ts : List Lexeme}

/-! Tokens in a row. -/

theorem precedes_of_proper (h : t.isLayout = false) (a : Token) : a.Precedes t := by
  constructor
  · rintro (rfl | rfl) <;> cases h
  · rintro -
    refine ⟨?_, ?_, ?_⟩ <;> (rintro rfl; cases h)

theorem precedes_newline (h : t ≠ .indent) : t.Precedes .newline :=
  ⟨fun he => (by rcases he with he | he <;> cases he), fun he => absurd he h⟩

theorem precedes_behind (h : t = .newline ∨ t = .dedent) (b : Token) : t.Precedes b := by
  rcases h with rfl | rfl
  · exact ⟨fun _ => .inl rfl, nofun⟩
  · exact ⟨fun _ => .inr (.inr rfl), nofun⟩

/-- What a line holds, and its end, in front of other lines. -/
theorem isChain_body (h : ∀ t ∈ body, t.isLayout = false) (hmore : more.IsChain Token.Precedes) :
    (body ++ .newline :: more).IsChain Token.Precedes := by
  induction body with
  | nil => exact List.isChain_cons.mpr ⟨fun b _ => precedes_behind (.inl rfl) b, hmore⟩
  | cons t body ih =>
    obtain ⟨ht, hbody⟩ := List.forall_mem_cons.mp h
    refine List.isChain_cons.mpr ⟨fun b hb => ?_, ih hbody⟩
    cases body with
    | nil =>
      cases hb
      exact precedes_newline fun he => (by rw [he] at ht; cases ht)
    | cons t' body =>
      cases hb
      exact precedes_of_proper (hbody _ List.mem_cons_self) t

theorem isChain_dedents (k : Nat) (h : more.IsChain Token.Precedes) :
    (List.replicate k Token.dedent ++ more).IsChain Token.Precedes := by
  induction k with
  | zero => exact h
  | succ k ih => exact List.isChain_cons.mpr ⟨fun b _ => precedes_behind (.inr rfl) b, ih⟩

/-! Open blocks. -/

theorem blocksAfter?_append (opened : Nat) (tokens more : List Token) :
    blocksAfter? opened (tokens ++ more) =
      (blocksAfter? opened tokens).bind fun left => blocksAfter? left more :=
  List.foldlM_append

theorem blocksAfter?_dedents (left k : Nat) :
    blocksAfter? (left + k) (List.replicate k .dedent) = some left := by
  induction k with
  | zero => rfl
  | succ k ih => exact ih

theorem blocks?_of_proper (h : t.isLayout = false) (opened : Nat) :
    t.blocks? opened = some opened := by
  cases t <;> first | (cases opened <;> rfl) | cases h

theorem blocksAfter?_of_proper (h : ∀ t ∈ body, t.isLayout = false) (opened : Nat) :
    blocksAfter? opened body = some opened := by
  induction body with
  | nil => rfl
  | cons t body ih =>
    obtain ⟨ht, hbody⟩ := List.forall_mem_cons.mp h
    rw [blocksAfter?, List.foldlM_cons, blocks?_of_proper ht]
    exact ih hbody

theorem count_of_blocks? (h : t.blocks? opened = some left) :
    opened + [t].count .indent = left + [t].count .dedent := by
  cases t with
  | indent =>
    cases h
    rfl
  | dedent =>
    cases opened with
    | zero => cases h
    | succ opened =>
      cases h
      rfl
  | _ => cases opened <;> (cases h; rfl)

theorem count_of_blocksAfter? (h : blocksAfter? opened tokens = some left) :
    opened + tokens.count .indent = left + tokens.count .dedent := by
  induction tokens generalizing opened with
  | nil =>
    cases h
    rfl
  | cons t tokens ih =>
    obtain ⟨behind, hstep, h⟩ := Option.bind_eq_some_iff.mp h
    have htoken := count_of_blocks? hstep
    have hmore := ih h
    rw [← List.singleton_append, List.count_append, List.count_append]
    omega

/-! One line. -/

inductive Relaid (opened : Nat) : List Token → Nat → Prop where
  | opens : Relaid opened [.indent] (opened + 1)
  | closes {left : Nat} (k : Nat) : opened = left + k →
      Relaid opened (List.replicate k .dedent) left

theorem relaid_closeTo (h : relayout.closeTo depth depths = some (layout, depths')) :
    Relaid depths.length layout depths'.length := by
  have hcloses : ∃ k, layout = List.replicate k .dedent ∧ depths.length = depths'.length + k := by
    induction depths generalizing layout with
    | nil =>
      rw [relayout.closeTo] at h
      split at h
      · cases h
        exact ⟨0, rfl, rfl⟩
      · cases h
    | cons top outer ih =>
      rw [relayout.closeTo] at h
      split at h
      · obtain ⟨⟨more, open_⟩, hmore, he⟩ := Option.map_eq_some_iff.mp h
        cases he
        obtain ⟨k, rfl, hk⟩ := ih hmore
        exact ⟨k + 1, rfl, by rw [List.length_cons, hk, Nat.add_assoc]⟩
      · split at h
        · cases h
          exact ⟨0, rfl, rfl⟩
        · cases h
  obtain ⟨k, rfl, hk⟩ := hcloses
  exact .closes k hk

theorem relaid (h : relayout depth depths = some (layout, depths')) :
    Relaid depths.length layout depths'.length := by
  cases depths with
  | nil =>
    rw [relayout] at h
    split at h
    · cases h
      exact .closes 0 rfl
    · cases h
      exact .opens
  | cons top outer =>
    rw [relayout] at h
    split at h
    · cases h
      exact .opens
    · split at h
      · cases h
        exact .closes 0 rfl
      · exact relaid_closeTo h

inductive Adds (opened : Nat) : List Token → Nat → Prop where
  | nothing : Adds opened [] opened
  | statement {layout body : List Token} {left : Nat} : Relaid opened layout left → body ≠ [] →
      (∀ t ∈ body, t.isLayout = false) → Adds opened (layout ++ body ++ [.newline]) left

theorem adds_of_lexLine (h : lexLine depths raw = .ok (tokens, depths')) :
    Adds depths.length tokens depths'.length := by
  unfold lexLine at h
  split at h
  · cases h
    exact .nothing
  · rename_i body hbody
    split at h
    · cases h
    · rename_i layout depths' hlayout
      obtain ⟨held, hheld, he⟩ := map_eq_ok.mp h
      cases he
      have hpieces := pieces_of_lineTokens hheld
      obtain ⟨c, rest, hcons⟩ := List.exists_cons_of_ne_nil hbody
      have hhead : (trim (cutComment none raw)).head? = some c := by rw [hcons]; rfl
      exact .statement (relaid hlayout) (pieces_ne_nil hpieces hhead (isBlank_of_head?_trim hhead))
        (isLayout_of_pieces hpieces)

theorem Adds.isChain (h : Adds opened tokens left) (hmore : more.IsChain Token.Precedes) :
    (tokens ++ more).IsChain Token.Precedes := by
  cases h with
  | nothing => exact hmore
  | @statement layout body _ hlayout hne hproper =>
    have hbody := isChain_body hproper hmore
    rw [List.append_assoc, List.append_assoc, List.singleton_append]
    cases hlayout with
    | opens =>
      obtain ⟨t, body, rfl⟩ := List.exists_cons_of_ne_nil hne
      refine List.isChain_cons.mpr ⟨?_, hbody⟩
      rintro b ⟨⟩
      exact precedes_of_proper (hproper t List.mem_cons_self) .indent
    | closes k => exact isChain_dedents k hbody

theorem Adds.blocks (h : Adds opened tokens left) : blocksAfter? opened tokens = some left := by
  cases h with
  | nothing => rfl
  | @statement layout body _ hlayout _ hproper =>
    have hline : blocksAfter? opened layout = some left := by
      cases hlayout with
      | opens => rfl
      | closes k hk => rw [hk, blocksAfter?_dedents]
    rw [blocksAfter?_append, blocksAfter?_append, hline]
    change (blocksAfter? left body).bind _ = _
    rw [blocksAfter?_of_proper hproper]
    cases left <;> rfl

/-! All lines. -/

/-- Behind some open blocks the stream closes all of them, and all that it opens. -/
theorem laid_of_lexemesFrom {ls : List (Nat × List Char)} (h : lexemesFrom depths last ls = .ok ts) :
    (ts.map Lexeme.token).IsChain Token.Precedes ∧
      blocksAfter? depths.length (ts.map Lexeme.token) = some 0 := by
  induction ls generalizing depths last ts with
  | nil =>
    cases h
    have hclosing : List.map Lexeme.token ((depths.map fun _ => ⟨.dedent, last⟩) ++ [⟨.eof, last⟩]) =
        List.replicate depths.length .dedent ++ [.eof] := by
      simp [List.map_const']
    rw [hclosing]
    refine ⟨isChain_dedents _ (List.isChain_singleton _), ?_⟩
    have hdedents := blocksAfter?_dedents 0 depths.length
    rw [Nat.zero_add] at hdedents
    rw [blocksAfter?_append, hdedents]
    rfl
  | cons line ls ih =>
    obtain ⟨n, raw⟩ := line
    rw [lexemesFrom_cons] at h
    obtain ⟨⟨added, depths'⟩, hadded, h⟩ := bind_eq_ok.mp h
    obtain ⟨more, hmore, rfl⟩ := map_eq_ok.mp h
    have hadds := adds_of_lexLine (mapError_eq_ok.mp hadded)
    obtain ⟨hchain, hblocks⟩ := ih hmore
    have htokens : (added.map (⟨·, n⟩ : Token → Lexeme) ++ more).map Lexeme.token =
        added ++ more.map Lexeme.token := by
      simp [Function.comp_def]
    rw [htokens]
    refine ⟨hadds.isChain hchain, ?_⟩
    rw [blocksAfter?_append, hadds.blocks]
    exact hblocks

/-- The end of the stream is on the last line, as are the ends of the blocks that are open there. -/
theorem lines_of_lexemesFrom {ls : List (List Char)}
    (h : lexemesFrom depths n (numbered (n + 1) ls) = .ok ts) :
    (ts.map Lexeme.line).Pairwise (· ≤ ·) ∧ ∀ t ∈ ts, n ≤ t.line ∧ t.line ≤ n + ls.length := by
  induction ls generalizing depths n ts with
  | nil =>
    cases h
    have hline : ∀ t ∈ (depths.map fun _ => (⟨.dedent, n⟩ : Lexeme)) ++ [⟨.eof, n⟩], t.line = n :=
      fun t ht => (mem_closing ht).1
    refine ⟨List.pairwise_map.mpr (List.pairwise_of_forall_mem_list fun a ha b hb => ?_),
      fun t ht => ?_⟩
    · exact Nat.le_of_eq ((hline a ha).trans (hline b hb).symm)
    · rw [hline t ht]
      exact ⟨Nat.le_refl n, Nat.le_add_right n _⟩
  | cons raw ls ih =>
    rw [numbered, lexemesFrom_cons] at h
    obtain ⟨⟨added, depths'⟩, -, h⟩ := bind_eq_ok.mp h
    obtain ⟨more, hmore, rfl⟩ := map_eq_ok.mp h
    obtain ⟨hordered, hbounds⟩ := ih hmore
    have hadded : ∀ t ∈ added.map (⟨·, n + 1⟩ : Token → Lexeme), t.line = n + 1 := by
      intro t ht
      obtain ⟨token, -, rfl⟩ := List.mem_map.mp ht
      rfl
    refine ⟨?_, fun t ht => ?_⟩
    · rw [List.map_append]
      refine List.pairwise_append.mpr ⟨?_, hordered, ?_⟩
      · exact List.pairwise_map.mpr (List.pairwise_of_forall_mem_list fun a ha b hb =>
          Nat.le_of_eq ((hadded a ha).trans (hadded b hb).symm))
      · intro a ha b hb
        obtain ⟨t, ht, rfl⟩ := List.mem_map.mp ha
        obtain ⟨t', ht', rfl⟩ := List.mem_map.mp hb
        rw [hadded t ht]
        exact (hbounds t' ht').1
    · rw [List.length_cons]
      rcases List.mem_append.mp ht with ht | ht
      · rw [hadded t ht]
        omega
      · have hle := hbounds t ht
        omega

/-- Every script that can be lexed gives a well formed stream. -/
theorem lexemes_wellFormed (h : lexemes cs = .ok ts) : WellFormed (lines cs).length ts := by
  obtain ⟨hchain, hblocks⟩ := laid_of_lexemesFrom h
  obtain ⟨hordered, hbounds⟩ := lines_of_lexemesFrom (n := 0) h
  have hbalanced := count_of_blocksAfter? hblocks
  refine ⟨(lined_of_lexemesFrom h).2, hchain, fun used hused => ?_, by simpa using hbalanced,
    hordered, fun t ht => by simpa using (hbounds t ht).2⟩
  obtain ⟨rest, hrest⟩ := hused
  rw [← hrest, blocksAfter?_append] at hblocks
  obtain ⟨left, hleft, -⟩ := Option.bind_eq_some_iff.mp hblocks
  have hcounts := count_of_blocksAfter? hleft
  rw [List.length_nil] at hcounts
  omega

def stepped : List Char :=
  unlines (["repeat 2:  # twice", "  if ready:", "     log 'x'", "", "else:", " yield '/bow'"].map
    String.toList)

theorem lexemes_wellFormed_stepped : ∃ ts, lexemes stepped = .ok ts ∧
    (ts.map Lexeme.token).count .indent = 3 ∧ (ts.map Lexeme.line).getLast? = some 6 ∧
    WellFormed 6 ts := by
  have hlexed : ∃ ts, lexemes stepped = .ok ts ∧ (ts.map Lexeme.token).count .indent = 3 ∧
      (ts.map Lexeme.line).getLast? = some 6 := Routine.exists_ok (by decide +kernel)
  have hlines : (lines stepped).length = 6 := by decide +kernel
  obtain ⟨ts, hts, hindents, hlast⟩ := hlexed
  have hformed := lexemes_wellFormed hts
  rw [hlines] at hformed
  exact ⟨ts, hts, hindents, hlast, hformed⟩

end MacroEngine.Script
