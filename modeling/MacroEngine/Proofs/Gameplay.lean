import MacroEngine.Game.Simulation

/-! A simulated game as it is played: it gets calls, its world is changed from outside, and time
passes. A call is refused and nothing changes, or it is taken and leaves one entry; the trace holds
the latest of all entries, as many as it has room for. -/
namespace MacroEngine

namespace Trace

variable {t : Trace α} {limit : Option Nat} {history : List α}

/-- The trace holds the latest entries of a history, as many as the limit allows. -/
structure Latest (t : Trace α) (limit : Option Nat) (history : List α) : Prop where
  bound : t.limit = limit
  size : t.size = t.toList.length
  suffix : t.toList <:+ history
  length : t.toList.length = limit.elim history.length (min · history.length)

theorem latest_empty (limit : Option Nat) : (empty limit : Trace α).Latest limit [] where
  bound := rfl
  size := rfl
  suffix := List.suffix_refl []
  length := by cases limit <;> simp [empty, toList]

/-- Without any room nothing is put in; in a full trace the oldest entry makes room. -/
theorem push_cases (t : Trace α) (entry : α) :
    (t.limit = some 0 ∧ t.push entry = t) ∨
    (∃ limit, t.limit = some limit ∧ 0 < limit ∧ limit ≤ t.size ∧
      t.push entry = t.dropOldest.append entry) ∨
    ((∀ limit, t.limit = some limit → t.size < limit) ∧ t.push entry = t.append entry) := by
  unfold push isFull
  cases t.limit with
  | none => exact .inr (.inr ⟨nofun, by simp⟩)
  | some limit =>
    rcases Nat.eq_zero_or_pos limit with rfl | hpos
    · exact .inl ⟨rfl, if_pos rfl⟩
    · have hne : some limit ≠ some 0 := by simp; omega
      by_cases hfull : limit ≤ t.size
      · exact .inr (.inl ⟨limit, rfl, hpos, hfull, by simp [hne, hfull]⟩)
      · refine .inr (.inr ⟨fun _ h => ?_, by simp [hne, hfull]⟩)
        cases h
        omega

theorem Latest.push (h : t.Latest limit history) (entry : α) :
    (t.push entry).Latest limit (history ++ [entry]) := by
  obtain ⟨rfl, hsize, hsuffix, hlength⟩ := h
  have hlater : ∀ {kept : List α}, kept <:+ history → kept ++ [entry] <:+ history ++ [entry] := by
    rintro kept ⟨older, rfl⟩
    exact ⟨older, (List.append_assoc older kept [entry]).symm⟩
  rcases push_cases t entry with ⟨hlimit, hpush⟩ | ⟨limit, hlimit, hpos, hfull, hpush⟩ |
    ⟨hroom, hpush⟩
  · have hnil : t.toList = [] := by simpa [hlimit] using hlength
    rw [hpush]
    refine ⟨rfl, hsize, ?_, ?_⟩
    · rw [hnil]
      exact List.nil_suffix
    · simp [hnil, hlimit]
  · have hkept : (t.dropOldest.append entry).toList = t.toList.tail ++ [entry] := by
      rw [toList_append, toList_dropOldest]
    rw [hpush]
    refine ⟨limit_dropOldest t, ?_, ?_, ?_⟩
    · rw [hkept, append, size_dropOldest, hsize]
      simp
    · rw [hkept]
      exact hlater ((List.tail_suffix _).trans hsuffix)
    · rw [hkept]
      simp only [hlimit, Option.elim_some, List.length_append, List.length_tail,
        List.length_singleton] at hlength ⊢
      omega
  · rw [hpush]
    refine ⟨rfl, ?_, ?_, ?_⟩
    · rw [toList_append, append, hsize]
      simp
    · rw [toList_append]
      exact hlater hsuffix
    · rw [toList_append, List.length_append, List.length_append, hlength]
      cases hlimit : t.limit with
      | none => rfl
      | some limit =>
        have hlt := hroom limit hlimit
        simp only [hlimit, Option.elim_some, List.length_singleton] at hlength ⊢
        omega

end Trace

/-! The answers to calls can be told apart by what they give, if they give anything. -/

theorem ok_of_toOption {x : Except ε α} {a : α} (h : x.toOption = some a) : x = .ok a := by
  cases x with
  | error => cases h
  | ok => exact congrArg Except.ok (Option.some.inj h)

theorem error_of_toOption {x : Except ε α} (h : x.toOption = none) : ∃ error, x = .error error := by
  cases x with
  | error error => exact ⟨error, rfl⟩
  | ok => cases h

inductive Call where
  /-- Any question that a view answers. -/
  | look
  | action (name : String)
  | order (order : Order)
  | echo (text : String)
  | notice (text : String)

def Client.answered (client : Client γ) (game : γ) (now : Moment) :
    Call → Except GameError (Option Ticket) × γ
  | .look => (.ok none, game)
  | .action name => ((client.issue game now name).1.map some, (client.issue game now name).2)
  | .order order =>
    ((client.perform game now order).1.map fun _ => none, (client.perform game now order).2)
  | .echo text => (.ok none, client.echo game now text)
  | .notice text => (.ok none, client.notify game now text)

namespace ItemStack

def count (stack : ItemStack) (hq : Bool) : UInt32 := if hq then stack.hq else stack.nq

def spend (stack : ItemStack) (hq : Bool) : ItemStack :=
  if hq then { stack with hq := stack.hq - 1 } else { stack with nq := stack.nq - 1 }

end ItemStack

def Call.deed? (world : World) : Call → Option Deed
  | .look => none
  | .action name => if World.known world.actions name then some (.action name) else none
  | .order (.recipe name) => if World.known world.recipes name then some (.recipe name) else none
  | .order (.item name hq) => (World.find? world.inventory name).bind fun stack =>
    if stack.usable ∧ stack.count hq ≠ 0 then some (.item name hq) else none
  | .order (.target name index list) =>
    (world.findTarget? name list).map fun found => .target found index
  | .order (.click button) => some (.click button)
  | .order (.keys mode keys) => some (.keys mode keys)
  | .order (.native line) => some (.native line)
  | .echo text => some (.echo text)
  | .notice text => some (.error text)

namespace Simulation

/-- A call is taken with a ticket and an entry; `t` is the game before the entry is made. -/
inductive Taken (s : Simulation) (now : Moment) :
    Call → Option Ticket → Deed → Simulation → Prop where
  | action {name} (known : World.known s.world.actions name = true) :
    Taken s now (.action name) (some s.nextTicket) (.action name)
      { s with
        issued := (s.nextTicket, now) ::
          s.issued.filter fun e => s.nextTicket - e.1 < liveTickets
        nextTicket := s.nextTicket + 1 }
  | recipe {name} (known : World.known s.world.recipes name = true) :
    Taken s now (.order (.recipe name)) none (.recipe name) s
  | item {name hq stack} (found : World.find? s.world.inventory name = some stack)
      (usable : stack.usable = true) (left : stack.count hq ≠ 0) :
    Taken s now (.order (.item name hq)) none (.item name hq)
      { s with world := { s.world with
          inventory := World.replace s.world.inventory name (stack.spend hq) } }
  | target {name index list found} (named : s.world.findTarget? name list = some found) :
    Taken s now (.order (.target name index list)) none (.target found index)
      { s with world := { s.world with target := some found } }
  | click {button} : Taken s now (.order (.click button)) none (.click button) s
  | keys {mode keys} : Taken s now (.order (.keys mode keys)) none (.keys mode keys) s
  | native {line} : Taken s now (.order (.native line)) none (.native line) s
  | echo {text} : Taken s now (.echo text) none (.echo text) s
  | notice {text} : Taken s now (.notice text) none (.error text) s

variable {s t : Simulation} {now : Moment} {call : Call} {ticket : Option Ticket} {deed : Deed}

theorem Taken.trace (h : Taken s now call ticket deed t) : t.trace = s.trace := by
  cases h <;> rfl

theorem Taken.deed? (h : Taken s now call ticket deed t) : call.deed? s.world = some deed := by
  cases h with
  | action known | recipe known => exact if_pos known
  | item found usable left => simp [Call.deed?, found, usable, left]
  | target named => simp [Call.deed?, named]
  | click | keys | native | echo | notice => rfl

theorem answered_order (s : Simulation) (now : Moment) (order : Order) :
    client.answered s now (.order order) =
      ((s.perform order).1.map fun _ => none, (s.perform order).2) := rfl

theorem answered_item (s : Simulation) (now : Moment) (name : String) (hq : Bool) :
    ((Call.order (.item name hq)).deed? s.world = none ∧
      ∃ error, client.answered s now (.order (.item name hq)) = (.error error, s)) ∨
    ∃ ticket deed t, Taken s now (.order (.item name hq)) ticket deed t ∧
      client.answered s now (.order (.item name hq)) = (.ok ticket, t.record deed) := by
  rw [answered_order, perform, useItem]
  cases found : World.find? s.world.inventory name with
  | none => exact .inl ⟨by simp [Call.deed?, found], _, rfl⟩
  | some stack =>
    cases usable : stack.usable with
    | false =>
      refine .inl ⟨by simp [Call.deed?, found, usable], .notAvailable ("item " ++ name), ?_⟩
      simp only [usable, Bool.not_false, if_true]
      rfl
    | true =>
      have hrefuses : ¬ (!stack.usable) = true := by simp [usable]
      have hcount : (if hq then stack.hq else stack.nq) = stack.count hq := rfl
      by_cases left : stack.count hq = 0
      · refine .inl ⟨by simp [Call.deed?, found, left],
          .notFound ("item " ++ name ++ if hq then " (hq)" else ""), ?_⟩
        simp only [if_neg hrefuses, hcount, if_pos left]
        rfl
      · refine .inr ⟨_, _, _, .item found usable left, ?_⟩
        simp only [if_neg hrefuses, hcount, if_neg left]
        rfl

/-- A look changes nothing. Any other call is refused as a whole or taken as a whole. -/
theorem answered_cases (s : Simulation) (now : Moment) (call : Call) :
    (call = .look ∧ client.answered s now call = (.ok none, s)) ∨
    (call.deed? s.world = none ∧ ∃ error, client.answered s now call = (.error error, s)) ∨
    ∃ ticket deed t, Taken s now call ticket deed t ∧
      client.answered s now call = (.ok ticket, t.record deed) := by
  cases call with
  | look => exact .inl ⟨rfl, rfl⟩
  | action name =>
    have hanswered : client.answered s now (.action name) =
      ((s.issue now name).1.map some, (s.issue now name).2) := rfl
    rw [hanswered, issue]
    by_cases known : World.known s.world.actions name = true
    · rw [if_pos known]
      exact .inr (.inr ⟨_, _, _, .action known, rfl⟩)
    · rw [if_neg known]
      exact .inr (.inl ⟨if_neg known, _, rfl⟩)
  | order order =>
    refine .inr ?_
    cases order with
    | recipe name =>
      rw [answered_order, perform]
      by_cases known : World.known s.world.recipes name = true
      · rw [if_pos known]
        exact .inr ⟨_, _, _, .recipe known, rfl⟩
      · rw [if_neg known]
        exact .inl ⟨if_neg known, _, rfl⟩
    | item name hq => exact answered_item s now name hq
    | target name index list =>
      rw [answered_order, perform]
      cases named : s.world.findTarget? name list with
      | none => exact .inl ⟨by simp [Call.deed?, named], _, rfl⟩
      | some found => exact .inr ⟨_, _, _, .target named, rfl⟩
    | click button => exact .inr ⟨_, _, _, .click, rfl⟩
    | keys mode keys => exact .inr ⟨_, _, _, .keys, rfl⟩
    | native line => exact .inr ⟨_, _, _, .native, rfl⟩
  | echo text => exact .inr (.inr ⟨_, _, _, .echo, rfl⟩)
  | notice text => exact .inr (.inr ⟨_, _, _, .notice, rfl⟩)

end Simulation

structure Gameplay where
  now : Moment
  game : Simulation

inductive Happening where
  | call (call : Call)
  /-- The world is replaced from outside. -/
  | update (world : World)
  | pass (span : Nat)

namespace Gameplay

def start (begun : Moment) (world : World) (limit : Option Nat) : Gameplay :=
  ⟨begun, .ofWorld world limit⟩

def answered (p : Gameplay) (call : Call) : Except GameError (Option Ticket) × Simulation :=
  Simulation.client.answered p.game p.now call

def step (p : Gameplay) : Happening → Gameplay
  | .call call => { p with game := (p.answered call).2 }
  | .update world => { p with game := { p.game with world := world } }
  | .pass span => { p with now := p.now + span }

def after (p : Gameplay) (history : List Happening) : Gameplay := history.foldl step p

/-- What is told of each happening, one after the other. -/
def told (tell : Gameplay → Happening → List α) : Gameplay → List Happening → List α
  | _, [] => []
  | p, h :: history => tell p h ++ told tell (p.step h) history

def entered (p : Gameplay) : Happening → List Deed
  | .call call => (call.deed? p.game.world).toList
  | .update _ | .pass _ => []

def entries (p : Gameplay) (history : List Happening) : List Deed := told entered p history

variable {p : Gameplay} {limit : Option Nat} {tell : Gameplay → Happening → List α}

theorem told_append (before after : List Happening) :
    told tell p (before ++ after) = told tell p before ++ told tell (p.after before) after := by
  induction before generalizing p with
  | nil => rfl
  | cons h before ih => rw [List.cons_append, told, told, ih, List.append_assoc]; rfl

/-- What each happening keeps of a game and what was told of it, a history keeps. -/
theorem told_keeps (inv : Gameplay → List α → Prop) (history : List Happening) :
    ∀ {p log}, (∀ p log, ∀ h ∈ history, inv p log → inv (p.step h) (log ++ tell p h)) →
      inv p log → inv (p.after history) (log ++ told tell p history) := by
  induction history with
  | nil =>
    intro p log _ hinv
    rw [told, List.append_nil]
    exact hinv
  | cons h history ih =>
    intro p log hstep hinv
    rw [told, ← List.append_assoc]
    exact ih (fun p log h hmem => hstep p log h (List.mem_cons_of_mem _ hmem))
      (hstep p log h List.mem_cons_self hinv)

/-- Whatever happens, the trace holds the latest of the entries. -/
theorem latest_step (p : Gameplay) (entries : List Deed) (h : Happening)
    (hlatest : p.game.trace.Latest limit entries) :
    (p.step h).game.trace.Latest limit (entries ++ p.entered h) := by
  cases h with
  | update | pass =>
    rw [entered, List.append_nil]
    exact hlatest
  | call call =>
    change (p.answered call).2.trace.Latest limit (entries ++ (call.deed? p.game.world).toList)
    rcases Simulation.answered_cases p.game p.now call with ⟨rfl, hanswered⟩ |
      ⟨hvain, error, hanswered⟩ | ⟨ticket, deed, t, htaken, hanswered⟩
    · rw [answered, hanswered, Call.deed?, Option.toList_none, List.append_nil]
      exact hlatest
    · rw [answered, hanswered, hvain, Option.toList_none, List.append_nil]
      exact hlatest
    · rw [answered, hanswered, htaken.deed?, Option.toList_some, Simulation.record, htaken.trace]
      exact hlatest.push deed

/-- What is refused leaves no entry, and what is taken leaves one. -/
theorem entered_call (p : Gameplay) (call : Call) :
    (∀ error, (p.answered call).1 = .error error →
      p.entered (.call call) = [] ∧ (p.answered call).2 = p.game) ∧
    (∀ ticket, (p.answered call).1 = .ok ticket → call ≠ .look → ∃ deed,
      p.entered (.call call) = [deed] ∧ call.deed? p.game.world = some deed) := by
  rcases Simulation.answered_cases p.game p.now call with ⟨rfl, hanswered⟩ |
    ⟨hvain, error, hanswered⟩ | ⟨ticket, deed, t, htaken, hanswered⟩
  · constructor
    · intro error herror
      rw [answered, hanswered] at herror
      cases herror
    · intro ticket _ hlook
      exact absurd rfl hlook
  · constructor
    · intro error' _
      rw [answered, hanswered, entered, hvain]
      exact ⟨rfl, rfl⟩
    · intro ticket hok
      rw [answered, hanswered] at hok
      cases hok
  · constructor
    · intro error herror
      rw [answered, hanswered] at herror
      cases herror
    · intro _ _ _
      exact ⟨deed, by rw [entered, htaken.deed?]; rfl, htaken.deed?⟩

/-- Calls are refused or taken as a whole. A refusal changes nothing at all, what is taken leaves
one entry unless it is but a look, and the trace holds the latest of all entries in their order, as
many of them as the limit allows. -/
theorem calls_recorded (begun : Moment) (world : World) (limit : Option Nat)
    (history : List Happening) :
    let p := (start begun world limit).after history
    let entries := (start begun world limit).entries history
    (∀ call error, (p.answered call).1 = .error error →
      (p.answered call).2 = p.game ∧
        (start begun world limit).entries (history ++ [.call call]) = entries) ∧
    (∀ call ticket, (p.answered call).1 = .ok ticket → call ≠ .look → ∃ deed,
      call.deed? p.game.world = some deed ∧
        (start begun world limit).entries (history ++ [.call call]) = entries ++ [deed]) ∧
    p.game.deeds <:+ entries ∧
    p.game.deeds.length = limit.elim entries.length (min · entries.length) := by
  intro p entries
  have hlonger : ∀ h, (start begun world limit).entries (history ++ [h]) =
      entries ++ p.entered h := by
    intro h
    rw [Gameplay.entries, told_append, told, told, List.append_nil]
    rfl
  have hempty : (start begun world limit).game.trace.Latest limit [] := Trace.latest_empty limit
  have hlatest : p.game.trace.Latest limit entries :=
    told_keeps (fun p entries => p.game.trace.Latest limit entries) history
      (fun p entries h _ => latest_step p entries h) hempty
  refine ⟨?_, ?_, hlatest.suffix, hlatest.length⟩
  · intro call error herror
    obtain ⟨hnone, hsame⟩ := (p.entered_call call).1 error herror
    rw [hlonger, hnone, List.append_nil]
    exact ⟨hsame, rfl⟩
  · intro call ticket hok hlook
    obtain ⟨deed, hone, hdeed⟩ := (p.entered_call call).2 ticket hok hlook
    exact ⟨deed, hdeed, by rw [hlonger, hone]⟩

def larder : World := { actions := ["Observe"], inventory := [("Stew", ⟨0, 1, true⟩)] }

def supper : List Happening :=
  [.call (.echo "first"), .call (.action "Hide"), .pass 300, .call (.order (.item " stew" true)),
    .call .look, .call (.order (.item "Stew" true)), .call (.action "observe")]

theorem calls_recorded_supper :
    let p := (start 0 larder (some 2)).after supper
    (∃ error, (p.answered (.action "Hide")).1 = .error error) ∧
    (p.answered (.action "Hide")).2 = p.game ∧
    (p.answered (.order (.click "Ok"))).1 = .ok none ∧
    (∃ deed, (start 0 larder (some 2)).entries (supper ++ [.call (.order (.click "Ok"))]) =
      (start 0 larder (some 2)).entries supper ++ [deed]) ∧
    ((start 0 larder (some 2)).entries supper).map Deed.text =
      ["echo first", "item  stew hq", "action observe"] ∧
    p.game.deeds.map Deed.text = ["item  stew hq", "action observe"] ∧
    p.game.deeds <:+ (start 0 larder (some 2)).entries supper := by
  intro p
  obtain ⟨hrefused, htaken, hsuffix, _⟩ := calls_recorded 0 larder (some 2) supper
  obtain ⟨error, herror⟩ : ∃ error, (p.answered (.action "Hide")).1 = .error error :=
    error_of_toOption (by decide +kernel)
  have hok : (p.answered (.order (.click "Ok"))).1 = .ok none :=
    ok_of_toOption (by decide +kernel)
  obtain ⟨deed, _, hone⟩ := htaken _ _ hok nofun
  exact ⟨⟨error, herror⟩, (hrefused _ _ herror).1, hok, ⟨deed, hone⟩, by decide +kernel,
    by decide +kernel, hsuffix⟩

end Gameplay
end MacroEngine
