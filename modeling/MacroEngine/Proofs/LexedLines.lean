import MacroEngine.Proofs.Squeezing
import MacroEngine.Script.Lexer

/-! A line of a script as the pieces that it is lexed into: blanks, and texts that are a token each.
A token that is written, with nothing after it that could belong to it, is lexed as that token. -/
namespace MacroEngine
namespace Text

def blankChars : List Char :=
  [' ', '\t', '\n', '\x0b', '\x0c', '\r', '\u0085', '\u00a0', '\u1680', '\u2000', '\u2001', '\u2002',
    '\u2003', '\u2004', '\u2005', '\u2006', '\u2007', '\u2008', '\u2009', '\u200a', '\u2028', '\u2029',
    '\u202f', '\u205f', '\u3000']

theorem isBlank_iff_mem {c : Char} : isBlank c = true ↔ c ∈ blankChars := by
  simp only [isBlank, blankChars, Char.le_def, Char.ext_iff, UInt32.le_iff_toNat_le, ← UInt32.toNat_inj,
    List.mem_cons, List.not_mem_nil, Bool.or_eq_true, Bool.and_eq_true, decide_eq_true_eq]
  simp
  omega

end Text

namespace Script
open Text

def isQuote (c : Char) : Bool := c = '"' || c = '\''

def isNumeral (cs : List Char) : Bool :=
  !(cs.takeWhile isAsciiDigit).isEmpty &&
    match cs.dropWhile isAsciiDigit with
    | [] => true
    | c :: places => c = '.' && !places.isEmpty && places.all isAsciiDigit

def isWord : List Char → Bool
  | [] => false
  | c :: cs => (isLetter c || c = '_') && cs.all isWordChar

namespace Token

/-- The characters of a token that is always written with them. -/
def symbol : Token → List Char
  | .colon => [':']
  | .equals => ['=', '=']
  | .notEquals => ['!', '=']
  | .assign => ['=']
  | .plus => ['+']
  | .minus => ['-']
  | .star => ['*']
  | .slash => ['/']
  | .percent => ['%']
  | .greater => ['>']
  | .less => ['<']
  | .greaterEqual => ['>', '=']
  | .lessEqual => ['<', '=']
  | .openParen => ['(']
  | .closeParen => [')']
  | _ => []

def keyword : Token → List Char
  | .yieldWord => "yield".toList
  | .logWord => "log".toList
  | .setWord => "set".toList
  | .fromWord => "from".toList
  | .gameWord => "game".toList
  | .ifWord => "if".toList
  | .elifWord => "elif".toList
  | .elseWord => "else".toList
  | .repeatWord => "repeat".toList
  | .andWord => "and".toList
  | .orWord => "or".toList
  | _ => []

end Token

/-- A text that is lexed as one token, or as a blank. -/
inductive Piece : List Char → Option Token → Prop where
  | blank {c : Char} : isBlank c = true → Piece [c] none
  | symbol {t : Token} : t.symbol ≠ [] → Piece t.symbol (some t)
  | quoted {q : Char} {body : List Char} : isQuote q = true → q ∉ body →
      Piece (q :: (body ++ [q])) (some (.str (String.ofList body)))
  | number {cs : List Char} : isNumeral cs = true → Piece cs (some (.number (String.ofList cs)))
  | word {cs : List Char} : isWord cs = true → Piece cs (some (.ofWord cs))

inductive Pieces : List Char → List Token → Prop where
  | nil : Pieces [] []
  | cons {piece rest : List Char} {token : Option Token} {tokens : List Token} :
      Piece piece token → Pieces rest tokens → Pieces (piece ++ rest) (token.toList ++ tokens)

/-! What the characters of words and numbers are not. -/

theorem isBlank_of_isWordChar {c : Char} (h : isWordChar c = true) : isBlank c = false := by
  have hnone : ∀ c ∈ blankChars, isWordChar c = false := forall_mem_of_all (by decide +kernel)
  by_contra hb
  rw [hnone c (isBlank_iff_mem.mp (by simpa using hb))] at h
  cases h

theorem ne_of_isAsciiLetter {c d : Char} (h : isAsciiLetter c = true)
    (hd : isAsciiLetter d = false) : c ≠ d := by
  rintro rfl
  rw [hd] at h
  cases h

theorem isLetter_of_isAsciiLetter {c : Char} (h : isAsciiLetter c = true) : isLetter c = true := by
  have hlow : c.toNat < 128 := by
    have hrange := h
    simp only [isAsciiLetter, Bool.or_eq_true, Bool.and_eq_true, decide_eq_true_eq, Char.le_def,
      UInt32.le_iff_toNat_le] at hrange
    change _ ≤ c.toNat ∧ c.toNat ≤ _ ∨ _ ≤ c.toNat ∧ c.toNat ≤ _ at hrange
    simp at hrange
    omega
  rw [isLetter, if_pos hlow, h]

theorem isWordChar_of_isLetter {c : Char} (h : isLetter c = true) : isWordChar c = true := by
  unfold isLetter at h
  unfold isWordChar isLetterOrNumeral
  split <;> simp_all

theorem isWordChar_of_head {c : Char} {cs : List Char} (h : isWord (c :: cs) = true) :
    isWordChar c = true := by
  obtain ⟨hhead, -⟩ : (isLetter c = true ∨ c = '_') ∧ ∀ d ∈ cs, isWordChar d = true := by
    simpa [isWord] using h
  rcases hhead with hletter | rfl
  · exact isWordChar_of_isLetter hletter
  · decide

theorem isWordChar_of_mem {c : Char} {cs : List Char} (h : isWord cs = true) (hc : c ∈ cs) :
    isWordChar c = true := by
  cases cs with
  | nil => cases h
  | cons d cs =>
    obtain ⟨-, htail⟩ : (isLetter d = true ∨ d = '_') ∧ ∀ c ∈ cs, isWordChar c = true := by
      simpa [isWord] using h
    rcases List.mem_cons.mp hc with rfl | hc
    · exact isWordChar_of_head h
    · exact htail c hc

theorem isWordChar_of_isAsciiDigit {c : Char} (h : isAsciiDigit c = true) : isWordChar c = true := by
  have hlow : c.toNat < 128 := by
    unfold isAsciiDigit at h
    simp only [Bool.and_eq_true, decide_eq_true_eq, Char.le_def, UInt32.le_iff_toNat_le] at h
    exact Nat.lt_of_le_of_lt h.2 (by decide)
  simp [isWordChar, isLetterOrNumeral, hlow, h]

theorem isAsciiDigit_of_isAsciiLetter {c : Char} (h : isAsciiLetter c = true) :
    isAsciiDigit c = false := by
  by_contra hd
  simp [isAsciiLetter, isAsciiDigit, Char.le_def, UInt32.le_iff_toNat_le] at h hd
  omega

theorem isAsciiDigit_of_isLetter {c : Char} (h : isLetter c = true) : isAsciiDigit c = false := by
  unfold isLetter at h
  split at h
  · exact isAsciiDigit_of_isAsciiLetter h
  · rename_i hhigh
    by_contra hd
    simp [isAsciiDigit, Char.le_def, UInt32.le_iff_toNat_le] at hd
    exact hhigh (Nat.lt_of_le_of_lt hd.2 (by decide))

theorem ne_of_isWordChar {c d : Char} (h : isWordChar c = true) (hd : isWordChar d = false) :
    c ≠ d := by
  rintro rfl
  rw [hd] at h
  cases h

theorem isQuote_of_isWordChar {c : Char} (h : isWordChar c = true) : isQuote c = false := by
  simp [isQuote, ne_of_isWordChar h (d := '"') (by decide), ne_of_isWordChar h (d := '\'') (by decide)]

theorem isQuote_of_isBlank {c : Char} (h : isBlank c = true) : isQuote c = false := by
  by_contra hquote
  obtain rfl | rfl : c = '"' ∨ c = '\'' := by simpa [isQuote, or_iff_not_imp_left] using hquote
  · revert h
    decide
  · revert h
    decide

theorem isNumeral_iff {cs : List Char} : isNumeral cs = true ↔
    ∃ whole places, whole ≠ [] ∧ (∀ c ∈ whole, isAsciiDigit c = true) ∧
      (∀ c ∈ places, isAsciiDigit c = true) ∧
      (places = [] ∧ cs = whole ∨ places ≠ [] ∧ cs = whole ++ '.' :: places) := by
  have hpoint : isAsciiDigit '.' = false := by decide
  constructor
  · intro h
    obtain ⟨hne, hrest⟩ := Bool.and_eq_true_iff.mp h
    refine ⟨cs.takeWhile isAsciiDigit, (cs.dropWhile isAsciiDigit).tail, by simpa using hne,
      fun c hc => List.mem_takeWhile_imp hc, ?_⟩
    have happend := List.takeWhile_append_dropWhile (p := isAsciiDigit) (l := cs)
    cases hdrop : cs.dropWhile isAsciiDigit with
    | nil =>
      rw [hdrop, List.append_nil] at happend
      exact ⟨by simp, .inl ⟨rfl, happend.symm⟩⟩
    | cons c places =>
      rw [hdrop] at hrest happend
      obtain ⟨⟨rfl, hplaces⟩, hall⟩ : (c = '.' ∧ places ≠ []) ∧
          ∀ c ∈ places, isAsciiDigit c = true := by simpa using hrest
      exact ⟨hall, .inr ⟨hplaces, happend.symm⟩⟩
  · rintro ⟨whole, places, hne, hwhole, hplaces, ⟨rfl, rfl⟩ | ⟨hsome, rfl⟩⟩
    · simp [isNumeral, List.takeWhile_eq_self_iff.mpr hwhole, List.dropWhile_eq_nil_iff.mpr hwhole,
        hne]
    · simp [isNumeral, List.takeWhile_append_of_pos hwhole, List.dropWhile_append_of_pos hwhole,
        hpoint, hne, hsome]
      exact hplaces

theorem digit_or_point_of_mem {c : Char} {cs : List Char} (h : isNumeral cs = true) (hc : c ∈ cs) :
    isAsciiDigit c = true ∨ c = '.' := by
  obtain ⟨whole, places, -, hwhole, hplaces, ⟨-, rfl⟩ | ⟨-, rfl⟩⟩ := isNumeral_iff.mp h
  · exact .inl (hwhole c hc)
  · rcases List.mem_append.mp hc with hc | hc
    · exact .inl (hwhole c hc)
    · exact (List.mem_cons.mp hc).elim .inr fun hc => .inl (hplaces c hc)

/-- The characters that are a token each, or begin one that is not a word. -/
def signs : List Char := [':', '=', '>', '<', '+', '-', '*', '/', '%', '(', ')']

theorem not_sign_of_isWordChar {c : Char} (h : isWordChar c = true) : c ∉ signs := by
  have hnone : ∀ d ∈ signs, isWordChar d = false := forall_mem_of_all (by decide)
  intro hm
  rw [hnone c hm] at h
  cases h

theorem tokenAt_of_not_sign {raw cs : List Char} {c : Char} (h : c ∉ signs) : tokenAt raw c cs =
    if c = '!' ∧ cs.head? = some '=' then .ok (some .notEquals, 1)
    else if c = '"' ∨ c = '\'' then
      if cs.contains c then
        .ok (some (.str (String.ofList (cs.takeWhile (· ≠ c)))), (cs.takeWhile (· ≠ c)).length + 1)
      else .error (.missingQuote (String.ofList raw))
    else if isAsciiDigit c then
      .ok (some (.number (String.ofList (numberAt (c :: cs)))), (numberAt (c :: cs)).length - 1)
    else if isLetter c ∨ c = '_' then
      .ok (some (.ofWord (c :: cs.takeWhile isWordChar)), (cs.takeWhile isWordChar).length)
    else if isBlank c then .ok (none, 0)
    else .error (.unexpectedChar c) := by
  unfold tokenAt
  dsimp only
  split
  case h_12 => simp only [List.length_cons, Nat.add_sub_cancel]
  all_goals exact absurd (by decide) h

/-! Lexing gives the pieces of a line. -/

variable {raw cs rest : List Char} {c : Char} {token : Option Token} {tokens : List Token} {k : Nat}

theorem exists_numberAt (h : isAsciiDigit c = true) (cs : List Char) :
    ∃ n, numberAt (c :: cs) = c :: cs.take n ∧ n ≤ cs.length ∧ isNumeral (c :: cs.take n) = true := by
  have hprefix : numberAt (c :: cs) <+: c :: cs ∧ isNumeral (numberAt (c :: cs)) = true := by
    unfold numberAt
    have happend := List.takeWhile_append_dropWhile (p := isAsciiDigit) (l := c :: cs)
    have hwhole : ∀ d ∈ (c :: cs).takeWhile isAsciiDigit, isAsciiDigit d = true :=
      fun d hd => List.mem_takeWhile_imp hd
    have hne : (c :: cs).takeWhile isAsciiDigit ≠ [] := by simp [h]
    have hbare := isNumeral_iff.mpr ⟨_, [], hne, hwhole, by simp, .inl ⟨rfl, rfl⟩⟩
    dsimp only
    split
    · rename_i places hdrop
      rw [hdrop] at happend
      split
      · exact ⟨⟨_, happend⟩, hbare⟩
      · rename_i hsome
        have hplaces : ∀ d ∈ places.takeWhile isAsciiDigit, isAsciiDigit d = true :=
          fun d hd => List.mem_takeWhile_imp hd
        refine ⟨⟨places.dropWhile isAsciiDigit, ?_⟩, isNumeral_iff.mpr ⟨_, _, hne, hwhole, hplaces,
          .inr ⟨by simpa using hsome, rfl⟩⟩⟩
        rw [List.append_assoc, List.cons_append, List.takeWhile_append_dropWhile, happend]
    · exact ⟨⟨_, happend⟩, hbare⟩
  obtain ⟨⟨after, hafter⟩, hnumeral⟩ := hprefix
  cases hnumber : numberAt (c :: cs) with
  | nil =>
    rw [hnumber] at hnumeral
    cases hnumeral
  | cons d digits =>
    rw [hnumber] at hafter hnumeral
    obtain ⟨rfl, rfl⟩ := List.cons.inj hafter
    exact ⟨digits.length, by simp, by simp, by simpa using hnumeral⟩

theorem exists_body (hc : c ∈ cs) :
    ∃ body after, cs = body ++ c :: after ∧ c ∉ body ∧ cs.takeWhile (· ≠ c) = body := by
  refine ⟨cs.takeWhile (· ≠ c), (cs.dropWhile (· ≠ c)).tail, ?_, fun hm => ?_, rfl⟩
  · have happend := List.takeWhile_append_dropWhile (p := (· ≠ c)) (l := cs)
    cases hdrop : cs.dropWhile (· ≠ c) with
    | nil =>
      have hall := List.dropWhile_eq_nil_iff.mp hdrop c hc
      simp at hall
    | cons d after =>
      have hnot := List.head?_dropWhile_not (fun x => decide (x ≠ c)) cs
      rw [hdrop] at happend hnot
      obtain rfl : d = c := by simpa using hnot
      exact happend.symm
  · simpa using List.mem_takeWhile_imp hm

theorem piece_of_quoted (hquote : isQuote c = true) (hc : c ∈ cs) :
    Piece (c :: cs.take ((cs.takeWhile (· ≠ c)).length + 1))
        (some (.str (String.ofList (cs.takeWhile (· ≠ c))))) ∧
      (cs.takeWhile (· ≠ c)).length + 1 ≤ cs.length := by
  obtain ⟨body, after, rfl, hbody, htake⟩ := exists_body hc
  rw [htake]
  have hpiece : (body ++ c :: after).take (body.length + 1) = body ++ [c] := by
    simp [List.take_append, List.take_of_length_le (Nat.le_succ _)]
  rw [hpiece]
  exact ⟨.quoted hquote hbody, by simp⟩

theorem piece_of_letter (hc : isLetter c = true ∨ c = '_') (cs : List Char) :
    Piece (c :: cs.take (cs.takeWhile isWordChar).length)
        (some (.ofWord (c :: cs.takeWhile isWordChar))) ∧
      (cs.takeWhile isWordChar).length ≤ cs.length := by
  have htake : cs.take (cs.takeWhile isWordChar).length = cs.takeWhile isWordChar :=
    (List.prefix_iff_eq_take.mp (List.takeWhile_prefix _)).symm
  rw [htake]
  refine ⟨.word ?_, (List.takeWhile_sublist _).length_le⟩
  simp only [isWord, Bool.and_eq_true, Bool.or_eq_true, decide_eq_true_eq, List.all_eq_true]
  exact ⟨hc, fun d hd => List.mem_takeWhile_imp hd⟩

/-- What the token at the start of a text is, and which characters belong to it. -/
theorem piece_of_tokenAt (h : tokenAt raw c cs = .ok (token, k)) :
    Piece (c :: cs.take k) token ∧ k ≤ cs.length := by
  have single : ∀ t : Token, t.symbol = [c] → (some t, 0) = (token, k) →
      Piece (c :: cs.take k) token ∧ k ≤ cs.length := by
    rintro t ht ⟨⟩
    exact ⟨by simpa [ht] using Piece.symbol (t := t) (by simp [ht]), Nat.zero_le _⟩
  have double : ∀ t : Token, t.symbol = [c, '='] → cs.head? = some '=' → (some t, 1) = (token, k) →
      Piece (c :: cs.take k) token ∧ k ≤ cs.length := by
    rintro t ht hhead ⟨⟩
    obtain ⟨cs, rfl⟩ : ∃ tail, cs = '=' :: tail := by
      cases cs with
      | nil => cases hhead
      | cons d cs => exact ⟨cs, by rw [Option.some.inj hhead]⟩
    exact ⟨by simpa [ht] using Piece.symbol (t := t) (by simp [ht]), by simp⟩
  have either : ∀ short long : Token, short.symbol = [c] → long.symbol = [c, '='] →
      (if cs.head? = some '=' then (some long, 1) else (some short, 0)) = (token, k) →
      Piece (c :: cs.take k) token ∧ k ≤ cs.length := by
    intro short long hshort hlong he
    split at he
    · exact double long hlong ‹_› he
    · exact single short hshort he
  unfold tokenAt at h
  dsimp only at h
  split at h
  · exact single .colon rfl (Except.ok.inj h)
  · exact either .assign .equals rfl rfl (Except.ok.inj h)
  · exact either .greater .greaterEqual rfl rfl (Except.ok.inj h)
  · exact either .less .lessEqual rfl rfl (Except.ok.inj h)
  · exact single .plus rfl (Except.ok.inj h)
  · exact single .minus rfl (Except.ok.inj h)
  · exact single .star rfl (Except.ok.inj h)
  · exact single .slash rfl (Except.ok.inj h)
  · exact single .percent rfl (Except.ok.inj h)
  · exact single .openParen rfl (Except.ok.inj h)
  · exact single .closeParen rfl (Except.ok.inj h)
  · split at h
    · rename_i hbang
      obtain ⟨rfl, hhead⟩ := hbang
      exact double .notEquals rfl hhead (Except.ok.inj h)
    split at h
    · rename_i hquote
      split at h
      · rename_i hmem
        cases h
        exact piece_of_quoted (by simpa [isQuote] using hquote) (by simpa using hmem)
      · cases h
    split at h
    · rename_i hdigit
      obtain ⟨n, hnumber, hle, hnumeral⟩ := exists_numberAt hdigit cs
      rw [hnumber] at h
      cases h
      simpa [hle] using Piece.number hnumeral
    split at h
    · rename_i hletter
      cases h
      rw [List.length_cons, Nat.add_sub_cancel]
      exact piece_of_letter hletter cs
    split at h
    · rename_i hblank
      cases h
      exact ⟨.blank hblank, Nat.zero_le _⟩
    · cases h

theorem lineTokens_skip (raw : List Char) (k : Nat) (cs : List Char) :
    lineTokens raw k cs = lineTokens raw 0 (cs.drop k) := by
  induction cs generalizing k with
  | nil => cases k <;> rfl
  | cons c cs ih =>
    cases k with
    | zero => rfl
    | succ k => exact ih k

theorem lineTokens_cons (raw : List Char) (c : Char) (cs : List Char) :
    lineTokens raw 0 (c :: cs) = (tokenAt raw c cs).bind fun (token, k) =>
      (lineTokens raw 0 (cs.drop k)).map fun tokens => token.toList ++ tokens := by
  rw [lineTokens]
  cases tokenAt raw c cs with
  | error fault => rfl
  | ok read =>
    obtain ⟨token, k⟩ := read
    change (lineTokens raw k cs).bind _ = _
    rw [lineTokens_skip]
    rfl

/-- The tokens of a text are those of its pieces. -/
theorem pieces_of_lineTokens (h : lineTokens raw 0 cs = .ok tokens) : Pieces cs tokens := by
  generalize hn : cs.length = n
  induction n using Nat.strongRecOn generalizing cs tokens with
  | ind n ih =>
    cases cs with
    | nil =>
      cases h
      exact .nil
    | cons c cs =>
      rw [lineTokens_cons] at h
      obtain ⟨⟨token, k⟩, htoken, h⟩ := bind_eq_ok.mp h
      obtain ⟨more, hmore, rfl⟩ := map_eq_ok.mp h
      obtain ⟨hpiece, hk⟩ := piece_of_tokenAt htoken
      have hrest := ih (cs.drop k).length (by rw [← hn, List.length_drop, List.length_cons]; omega)
        hmore rfl
      have hcons := Pieces.cons hpiece hrest
      rwa [List.cons_append, List.take_append_drop] at hcons

end Script
end MacroEngine
