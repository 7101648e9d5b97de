import MacroEngine.Library.Cache
import MacroEngine.Proofs.TagWriting

/-! A library with its cache, seen from outside. It answers as a plain map does that keeps the first
entry given for a key and reads its text each time it is asked for: what was read before is what
would be read again, as an entry never changes once it is there. -/
namespace MacroEngine
open Text

/-! Something that is called again and again, and has a state of its own between calls. -/

section Calls

variable {call answer : Type} {σ τ : Type*}

def answers (answered : σ → call → answer × σ) : σ → List call → List answer
  | _, [] => []
  | s, c :: calls => (answered s c).1 :: answers answered (answered s c).2 calls

def afterCalls (answered : σ → call → answer × σ) (s : σ) (calls : List call) : σ :=
  calls.foldl (fun s c => (answered s c).2) s

theorem afterCalls_append (answered : σ → call → answer × σ) (s : σ) (calls more : List call) :
    afterCalls answered s (calls ++ more) =
      afterCalls answered (afterCalls answered s calls) more :=
  List.foldl_append

/-- Two states give the same answers if each call is answered alike and leaves two such states. -/
structure Simulates (f : σ → call → answer × σ) (g : τ → call → answer × τ)
    (agrees : σ → τ → Prop) : Prop where
  same : ∀ s t c, agrees s t → (f s c).1 = (g t c).1
  keeps : ∀ s t c, agrees s t → agrees (f s c).2 (g t c).2

variable {f : σ → call → answer × σ} {g : τ → call → answer × τ} {agrees : σ → τ → Prop}

theorem Simulates.answers_eq (h : Simulates f g agrees) (calls : List call) :
    ∀ {s t}, agrees s t → answers f s calls = answers g t calls := by
  induction calls with
  | nil => exact fun _ => rfl
  | cons c calls ih =>
    intro s t hst
    rw [answers, answers, h.same s t c hst, ih (h.keeps s t c hst)]

theorem Simulates.afterCalls (h : Simulates f g agrees) (calls : List call) :
    ∀ {s t}, agrees s t → agrees (afterCalls f s calls) (afterCalls g t calls) := by
  induction calls with
  | nil => exact id
  | cons c calls ih => exact fun hst => ih (h.keeps _ _ c hst)

end Calls

inductive LibraryCall where
  | insert (name : String) (kind : MacroKind) (text : String)
  | get (name : String)
  | native (name : String)
  | craftLoop (name : String) (count : Option Nat) (layout : CraftLayout)
  | names
  | contains (name : String)

inductive LibraryAnswer where
  | inserted (result : Except LibraryError Unit)
  | source (result : Except LibraryError Source)
  | routine (result : Except LibraryError Routine)
  | names (names : List String)
  | found (found : Bool)

def LibraryCall.offer? (key : String) : LibraryCall → Option Entry
  | .insert name kind text => if nameKey name = key then some ⟨trimmed name, kind, text⟩ else none
  | _ => none

def firstOffer? (key : String) (calls : List LibraryCall) : Option Entry :=
  calls.findSome? (LibraryCall.offer? key)

def Entry.craftLoop (entry : Entry) (count : Option Nat) (layout : CraftLayout) :
    Except LibraryError Routine := do
  if entry.kind ≠ .native then throw (.notNative entry.name)
  let text ← (MacroEngine.craftLoop entry.text.toList count layout).mapError (.craftLoop entry.name)
  (Routine.ofSource (String.ofList text)).mapError (.parse entry.name)

def CachedLibrary.answered (c : CachedLibrary) : LibraryCall → LibraryAnswer × CachedLibrary
  | .insert name kind text =>
    match c.insert name kind text with
    | .ok c => (.inserted (.ok ()), c)
    | .error e => (.inserted (.error e), c)
  | .get name => (.source (c.get name).1, (c.get name).2)
  | .native name => (.routine (c.native name).1, (c.native name).2)
  | .craftLoop name count layout => (.routine (c.library.craftLoop name count layout), c)
  | .names => (.names c.library.names, c)
  | .contains name => (.found (c.library.contains name), c)

/-- Entries by the key of their name, in a plain map. -/
abbrev Catalogue := Std.TreeMap String Entry

namespace Catalogue

def entry (m : Catalogue) (name : String) : Except LibraryError Entry :=
  match m[nameKey name]? with
  | some entry => .ok entry
  | none => .error (.notFound name)

/-- The plain map as it answers calls. Only an insertion under a new key changes it, and it reads
the text of an entry at each call that needs it. -/
def answered (m : Catalogue) : LibraryCall → LibraryAnswer × Catalogue
  | .insert name kind text =>
    match m[nameKey name]? with
    | some _ => (.inserted (.error (.duplicate name)), m)
    | none => (.inserted (.ok ()), m.insert (nameKey name) ⟨trimmed name, kind, text⟩)
  | .get name => (.source ((m.entry name).bind Entry.read), m)
  | .native name =>
    (.routine ((m.entry name).bind fun entry => entry.read.bind (Source.native? name)), m)
  | .craftLoop name count layout =>
    (.routine ((m.entry name).bind fun entry => entry.craftLoop count layout), m)
  | .names => (.names (m.toList.map fun e => e.2.name), m)
  | .contains name => (.found m[nameKey name]?.isSome, m)

variable {m : Catalogue} {c : CachedLibrary} {key : String} {entry : Entry}

theorem getElem?_insert (m : Catalogue) (key other : String) (entry : Entry) :
    (m.insert key entry)[other]? = if key = other then some entry else m[other]? := by
  rw [Std.TreeMap.getElem?_insert]
  simp only [Std.compare_eq_iff_eq]

/-- Only an accepted insertion changes the map. -/
theorem answered_cases (m : Catalogue) (call : LibraryCall) :
    (∃ name kind text, call = .insert name kind text ∧ m[nameKey name]? = none ∧
      m.answered call =
        (.inserted (.ok ()), m.insert (nameKey name) ⟨trimmed name, kind, text⟩)) ∨
    (m.answered call).2 = m ∧ ∀ key, m[key]? = none → call.offer? key = none := by
  cases call with
  | insert name kind text =>
    rw [answered]
    cases hm : m[nameKey name]? with
    | none => exact .inl ⟨name, kind, text, rfl, hm, rfl⟩
    | some entry =>
      refine .inr ⟨rfl, fun key hkey => ?_⟩
      rw [LibraryCall.offer?, if_neg]
      rintro rfl
      rw [hm] at hkey
      cases hkey
  | get | native | craftLoop | names | contains => exact .inr ⟨rfl, fun _ _ => rfl⟩

theorem firstOffer?_cons (key : String) (call : LibraryCall) (calls : List LibraryCall) :
    firstOffer? key (call :: calls) = (call.offer? key).or (firstOffer? key calls) := by
  rw [firstOffer?, List.findSome?_cons]
  cases call.offer? key <;> rfl

/-- What is kept for a key is never replaced, and else it is what is offered first. -/
theorem getElem?_after (calls : List LibraryCall) : ∀ (m : Catalogue) (key : String),
    (afterCalls answered m calls)[key]? = m[key]?.or (firstOffer? key calls) := by
  induction calls with
  | nil => exact fun m key => Option.or_none.symm
  | cons call calls ih =>
    intro m key
    have hafter : afterCalls answered m (call :: calls) =
        afterCalls answered (m.answered call).2 calls := rfl
    rw [hafter, ih, firstOffer?_cons]
    rcases m.answered_cases call with ⟨name, kind, text, rfl, hnone, hanswered⟩ | ⟨hkept, hoffer⟩
    · rw [hanswered, getElem?_insert, LibraryCall.offer?]
      by_cases hkey : nameKey name = key
      · subst hkey
        simp [hnone]
      · simp [hkey]
    · rw [hkept]
      cases hm : m[key]? with
      | some entry => rfl
      | none => rw [hoffer key hm, Option.none_or, Option.none_or]

end Catalogue

theorem Library.mem_names {lib : Library} {name : String} :
    name ∈ lib.names ↔ ∃ entry ∈ lib.entries, entry.name = name := by
  rw [names, (List.mergeSort_perm _ _).mem_iff, List.mem_map]

theorem not_decide_lt_iff {a b : String} : (!decide (b < a)) = true ↔ a ≤ b := by
  rw [Bool.not_eq_true', decide_eq_false_iff_not, String.not_lt]

theorem nameKey_trimmed (name : String) : nameKey (trimmed name) = nameKey name := by
  simp [nameKey, trimmed, trim_trim]

/-- A library with its cache and a plain map hold the same entries, and what the cache has is what
their texts read as. -/
structure Agrees (c : CachedLibrary) (m : Catalogue) : Prop where
  entries : ∀ key, m[key]? = c.library.entries.find? fun e => nameKey e.name = key
  trimmed : ∀ e ∈ c.library.entries, trimmed e.name = e.name
  distinct : (c.library.entries.map fun e => nameKey e.name).Nodup
  sources : ∀ key source, c.sources.lookup key = some source →
    ∃ entry, m[key]? = some entry ∧ entry.read = .ok source

namespace Agrees

variable {c : CachedLibrary} {m : Catalogue} {key : String} {entry other : Entry}

theorem empty : Agrees .empty ∅ where
  entries := fun _ => Std.TreeMap.getElem?_emptyc
  trimmed := nofun
  distinct := List.nodup_nil
  sources := nofun

theorem find?_eq (h : Agrees c m) (name : String) : c.library.find? name = m[nameKey name]? :=
  (h.entries (nameKey name)).symm

theorem contains_eq (h : Agrees c m) (name : String) :
    c.library.contains name = m[nameKey name]?.isSome := by
  rw [Library.contains, h.find?_eq]

theorem entry_eq (h : Agrees c m) (name : String) : c.library.entry name = m.entry name := by
  cases hm : m[nameKey name]? <;> simp only [Library.entry, Catalogue.entry, h.find?_eq, hm]

/-- What was read before is what would be read again, and what is read may be kept. -/
theorem get (h : Agrees c m) (name : String) :
    (c.get name).1 = (m.entry name).bind Entry.read ∧ Agrees (c.get name).2 m := by
  unfold CachedLibrary.get
  cases hkept : c.sources.lookup (nameKey name) with
  | some source =>
    obtain ⟨entry, hentry, hread⟩ := h.sources _ _ hkept
    refine ⟨?_, h⟩
    rw [Catalogue.entry, hentry]
    exact hread.symm
  | none =>
    have hget : c.library.get name = (m.entry name).bind Entry.read := by
      rw [← h.entry_eq]
      rfl
    rw [hget]
    cases hread : (m.entry name).bind Entry.read with
    | error e => exact ⟨rfl, h⟩
    | ok source =>
      refine ⟨rfl, h.entries, h.trimmed, h.distinct, fun key other hother => ?_⟩
      rw [List.lookup_cons] at hother
      split at hother
      · rename_i hkey
        cases hother
        obtain ⟨entry, hentry, hread⟩ := bind_eq_ok.mp hread
        refine ⟨entry, ?_, hread⟩
        rw [Catalogue.entry, ← beq_iff_eq.mp hkey] at hentry
        split at hentry
        · cases hentry
          assumption
        · cases hentry
      · exact h.sources key other hother

theorem native (h : Agrees c m) (name : String) :
    (c.native name).1 =
        (m.entry name).bind (fun entry => entry.read.bind (Source.native? name)) ∧
      Agrees (c.native name).2 m := by
  obtain ⟨hget, hkeeps⟩ := h.get name
  have hbind : (m.entry name).bind (fun entry => entry.read.bind (Source.native? name)) =
      ((m.entry name).bind Entry.read).bind (Source.native? name) := by
    cases m.entry name <;> rfl
  rw [hbind, ← hget, CachedLibrary.native]
  generalize c.get name = got at hkeeps
  obtain ⟨result, c'⟩ := got
  cases result <;> exact ⟨rfl, hkeeps⟩

theorem craftLoop_eq (h : Agrees c m) (name : String) (count : Option Nat) (layout : CraftLayout) :
    c.library.craftLoop name count layout =
      (m.entry name).bind fun entry => entry.craftLoop count layout := by
  rw [← h.entry_eq]
  rfl

theorem insert (h : Agrees c m) (hnone : m[nameKey name]? = none) (kind : MacroKind)
    (text : String) :
    Agrees { c with library := ⟨c.library.entries ++ [⟨Text.trimmed name, kind, text⟩]⟩ }
      (m.insert (nameKey name) ⟨Text.trimmed name, kind, text⟩) where
  entries := by
    intro key
    rw [Catalogue.getElem?_insert, List.find?_append, ← h.entries]
    by_cases hkey : nameKey name = key
    · subst hkey
      simp [hnone, nameKey_trimmed]
    · simp [hkey, nameKey_trimmed]
  trimmed := by
    intro e he
    rcases List.mem_append.mp he with he | he
    · exact h.trimmed e he
    · rw [List.mem_singleton.mp he]
      simp [Text.trimmed, trim_trim]
  distinct := by
    rw [List.map_append, List.map_singleton, nameKey_trimmed]
    refine List.nodup_append.mpr ⟨h.distinct, List.nodup_singleton _, ?_⟩
    intro key hkey other hother heq
    rw [List.mem_singleton.mp hother] at heq
    obtain ⟨e, he, rfl⟩ := List.mem_map.mp hkey
    rw [h.entries] at hnone
    exact List.find?_eq_none.mp hnone e he (decide_eq_true heq)
  sources := by
    intro key source hsource
    obtain ⟨entry, hentry, hread⟩ := h.sources key source hsource
    refine ⟨entry, ?_, hread⟩
    rw [Catalogue.getElem?_insert, if_neg, hentry]
    rintro rfl
    rw [hnone] at hentry
    cases hentry

theorem eq_of_key (h : Agrees c m) (hentry : entry ∈ c.library.entries)
    (hother : other ∈ c.library.entries) (hkey : nameKey entry.name = nameKey other.name) :
    entry = other :=
  List.inj_on_of_nodup_map h.distinct hentry hother hkey

theorem getElem?_iff (h : Agrees c m) :
    m[key]? = some entry ↔ entry ∈ c.library.entries ∧ nameKey entry.name = key := by
  rw [h.entries]
  constructor
  · intro hfind
    exact ⟨List.mem_of_find?_eq_some hfind, by simpa using List.find?_some hfind⟩
  · rintro ⟨hmem, rfl⟩
    cases hfind : c.library.entries.find? fun e => nameKey e.name = nameKey entry.name with
    | none => simpa using List.find?_eq_none.mp hfind entry hmem
    | some other =>
      have hkey : nameKey other.name = nameKey entry.name := by simpa using List.find?_some hfind
      exact congrArg some (h.eq_of_key (List.mem_of_find?_eq_some hfind) hmem hkey)

theorem mem_toList_iff (h : Agrees c m) (e : String × Entry) :
    e ∈ m.toList ↔ e.2 ∈ c.library.entries ∧ nameKey e.2.name = e.1 := by
  obtain ⟨key, entry⟩ := e
  rw [Std.TreeMap.mem_toList_iff_getElem?_eq_some, h.getElem?_iff]

theorem lowered_name (h : Agrees c m) (hmem : entry ∈ c.library.entries) :
    lowered entry.name = nameKey entry.name := by
  rw [nameKey, h.trimmed entry hmem]

theorem ascending (h : Agrees c m) :
    (m.toList.map fun e => e.2.name).Pairwise fun a b => lowered a < lowered b := by
  rw [List.pairwise_map]
  refine (Std.TreeMap.ordered_keys_toList (t := m)).imp_of_mem fun {a b} ha hb hlt => ?_
  obtain ⟨hamem, hakey⟩ := (h.mem_toList_iff a).mp ha
  obtain ⟨hbmem, hbkey⟩ := (h.mem_toList_iff b).mp hb
  rw [h.lowered_name hamem, h.lowered_name hbmem, hakey, hbkey]
  exact compareOfLessAndEq_eq_lt.mp hlt

theorem perm_entries (h : Agrees c m) : (m.toList.map Prod.snd).Perm c.library.entries := by
  have hnames : ((m.toList.map Prod.snd).map Entry.name).Nodup := by
    rw [List.map_map]
    refine h.ascending.imp fun hlt heq => ?_
    rw [heq] at hlt
    exact String.lt_irrefl _ hlt
  refine (List.perm_ext_iff_of_nodup hnames.of_map h.distinct.of_map).mpr fun entry => ?_
  constructor
  · intro hm
    obtain ⟨e, he, rfl⟩ := List.mem_map.mp hm
    exact ((h.mem_toList_iff e).mp he).1
  · intro hm
    exact List.mem_map.mpr ⟨(nameKey entry.name, entry), (h.mem_toList_iff _).mpr ⟨hm, rfl⟩, rfl⟩

/-- Sorting the names of the library gives the order of the plain map. -/
theorem names_eq (h : Agrees c m) : c.library.names = m.toList.map fun e => e.2.name := by
  have hsorted : c.library.names.Pairwise fun a b => lowered a ≤ lowered b := by
    have hsort : c.library.names.Pairwise fun a b => (!decide (lowered b < lowered a)) = true := by
      refine List.pairwise_mergeSort (fun a b d hab hbd => ?_) (fun a b => ?_) _
      · rw [not_decide_lt_iff] at hab hbd ⊢
        exact String.le_trans hab hbd
      · rw [Bool.or_eq_true, not_decide_lt_iff, not_decide_lt_iff]
        exact String.le_total (lowered a) (lowered b)
    exact hsort.imp not_decide_lt_iff.mp
  have hperm : c.library.names.Perm (m.toList.map fun e => e.2.name) := by
    have hentries := h.perm_entries.map Entry.name
    rw [List.map_map] at hentries
    exact (List.mergeSort_perm _ _).trans hentries.symm
  refine List.Perm.eq_of_pairwise (fun a b ha hb hab hba => ?_) hsorted
    (h.ascending.imp Std.le_of_lt) hperm
  obtain ⟨entry, hentry, rfl⟩ := Library.mem_names.mp ha
  obtain ⟨other, hother, rfl⟩ := Library.mem_names.mp (hperm.mem_iff.mpr hb)
  have hkey := String.le_antisymm hab hba
  rw [h.lowered_name hentry, h.lowered_name hother] at hkey
  rw [h.eq_of_key hentry hother hkey]

/-- Each call is answered as the plain map answers it, and both hold the same afterwards. -/
theorem simulates : Simulates CachedLibrary.answered Catalogue.answered Agrees where
  same := by
    intro c m call h
    cases call with
    | insert name kind text =>
      rw [CachedLibrary.answered, Catalogue.answered, CachedLibrary.insert, Library.insert,
        h.contains_eq]
      cases m[nameKey name]? <;> rfl
    | get name => exact congrArg LibraryAnswer.source (h.get name).1
    | native name => exact congrArg LibraryAnswer.routine (h.native name).1
    | craftLoop name count layout =>
      exact congrArg LibraryAnswer.routine (h.craftLoop_eq name count layout)
    | names => exact congrArg LibraryAnswer.names h.names_eq
    | contains name => exact congrArg LibraryAnswer.found (h.contains_eq name)
  keeps := by
    intro c m call h
    cases call with
    | insert name kind text =>
      rw [CachedLibrary.answered, Catalogue.answered, CachedLibrary.insert, Library.insert,
        h.contains_eq]
      cases hm : m[nameKey name]? with
      | some entry => exact h
      | none => exact h.insert hm kind text
    | get name => exact (h.get name).2
    | native name => exact (h.native name).2
    | craftLoop | names | contains => exact h

end Agrees

/-- The cache cannot be noticed. A library answers any calls as a plain map that keeps, for each
key, the entry that is offered first, and reads it anew whenever it is asked for. A call that is not
an accepted insertion leaves no trace in later answers. The names are those of the entries, as they
were given up to blanks at their ends, in strictly ascending order of their lower case. -/
theorem cache_invisible (calls : List LibraryCall) :
    answers CachedLibrary.answered .empty calls = answers Catalogue.answered ∅ calls ∧
    (∀ key, (afterCalls Catalogue.answered ∅ calls)[key]? = firstOffer? key calls) ∧
    (∀ call later, ((afterCalls CachedLibrary.answered .empty calls).answered call).1 =
        .inserted (.ok ()) ∨
      answers CachedLibrary.answered (afterCalls CachedLibrary.answered .empty (calls ++ [call]))
          later =
        answers CachedLibrary.answered (afterCalls CachedLibrary.answered .empty calls) later) ∧
    ∃ names, ((afterCalls CachedLibrary.answered .empty calls).answered .names).1 = .names names ∧
      names.Pairwise (fun a b => lowered a < lowered b) ∧
      ∀ name, name ∈ names ↔
        ∃ key entry, firstOffer? key calls = some entry ∧ entry.name = name := by
  have hsame := Agrees.simulates
  have hafter := hsame.afterCalls calls Agrees.empty
  have hkept : ∀ key, (afterCalls Catalogue.answered ∅ calls)[key]? = firstOffer? key calls := by
    intro key
    rw [Catalogue.getElem?_after, Std.TreeMap.getElem?_emptyc, Option.none_or]
  refine ⟨hsame.answers_eq calls Agrees.empty, hkept, fun call later => ?_,
    (afterCalls CachedLibrary.answered .empty calls).library.names, rfl, ?_, fun name => ?_⟩
  · rw [hsame.same _ _ call hafter, afterCalls_append]
    rcases (afterCalls Catalogue.answered ∅ calls).answered_cases call with
      ⟨name, kind, text, -, -, hanswered⟩ | ⟨hunchanged, -⟩
    · exact .inl (by rw [hanswered])
    · right
      have hnext := hsame.keeps _ _ call hafter
      rw [hunchanged] at hnext
      exact (hsame.answers_eq later hnext).trans (hsame.answers_eq later hafter).symm
  · rw [hafter.names_eq]
    exact hafter.ascending
  · simp only [← hkept, hafter.getElem?_iff, Library.mem_names]
    constructor
    · rintro ⟨entry, hentry, rfl⟩
      exact ⟨_, entry, ⟨hentry, rfl⟩, rfl⟩
    · rintro ⟨_, entry, ⟨hentry, -⟩, rfl⟩
      exact ⟨entry, hentry, rfl⟩

end MacroEngine
