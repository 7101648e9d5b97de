import MacroEngine.Proofs.Completion
import MacroEngine.Proofs.Exchanges

/-! The two sides of a bridge in whatever order they take their steps. The script yields a line
and then does nothing until the reply to that line; the other side takes the line, executes it and
replies. So the two alternate, and each line is executed once. -/
namespace MacroEngine
open Script

namespace Bridge

inductive Act where
  | noted (event : Event)
  | asked (query : Query)
  | idled
  | yielded (line : String)
  | begun (line : String)
  | replied (line : String) (reply : Option RunError)

namespace Act

def ofScript : Act → Bool
  | .begun _ | .replied .. => false
  | .noted _ | .asked _ | .idled | .yielded _ => true

def yielded? : Act → Option String
  | .yielded line => some line
  | _ => none

def begun? : Act → Option String
  | .begun line => some line
  | _ => none

def replied? : Act → Option (String × Option RunError)
  | .replied line reply => some (line, reply)
  | _ => none

end Act

def yields (record : List Act) : List String := record.filterMap Act.yielded?

def begins (record : List Act) : List String := record.filterMap Act.begun?

def replies (record : List Act) : List (String × Option RunError) := record.filterMap Act.replied?

def spoken (b : Bridge) : List Act :=
  match b.speaker with
  | .awaiting _ | .speaking (.ended _) => []
  | .speaking (.yielded line _) => [.yielded line]
  | .speaking (.noted event _) => [.noted event]
  | .speaking (.asked query _) => [.asked query]
  | .speaking (.idle _) => [.idled]

def served (f : Fiber) (b : Bridge) : List Act :=
  match b.serving, b.request with
  | none, none => []
  | none, some line =>
    match readLine line with
    | .error reply => [.begun line, .replied line reply]
    | .ok _ => [.begun line]
  | some line, _ =>
    match f.result? with
    | some result => [.replied line (replyTo result)]
    | none => []

inductive Turn where
  | script
  /-- The line is in the channel. -/
  | channel (line : String)
  | fiber (line : String)

inductive Stands (b : Bridge) : Turn → Prop where
  | script {dialogue} : b.speaker = .speaking dialogue → b.request = none → b.serving = none →
      Stands b .script
  | channel {next line} : b.speaker = .awaiting next → b.request = some line →
      b.serving = none → Stands b (.channel line)
  | fiber {next line} : b.speaker = .awaiting next → b.request = none →
      b.serving = some line → Stands b (.fiber line)

namespace Turn

def next? : Turn → Act → Option Turn
  | .script, .yielded line => some (.channel line)
  | .script, .noted _ | .script, .asked _ | .script, .idled => some .script
  | .channel line, .begun taken => if taken = line then some (.fiber line) else none
  | .fiber line, .replied served _ => if served = line then some .script else none
  | _, _ => none

def after? (turn : Turn) (record : List Act) : Option Turn := record.foldlM next? turn

/-- What is yielded and not begun. -/
def offered : Turn → List String
  | .channel line => [line]
  | .script | .fiber _ => []

/-- What is begun and not answered. -/
def taken : Turn → List String
  | .fiber line => [line]
  | .script | .channel _ => []

variable {turn turn' : Turn} {act : Act} {record : List Act} {line : String}

theorem after?_cons (turn : Turn) (act : Act) (record : List Act) :
    turn.after? (act :: record) = (turn.next? act).bind fun turn => turn.after? record := by
  simp [after?, List.foldlM_cons]

theorem after?_append (turn : Turn) (record record' : List Act) :
    turn.after? (record ++ record') = (turn.after? record).bind fun turn => turn.after? record' := by
  simp [after?, List.foldlM_append]

theorem script_of_next? (h : turn.next? act = some turn') (hact : act.ofScript = true) :
    turn = .script := by
  cases turn with
  | script => rfl
  | channel line | fiber line => cases act <;> simp_all [next?, Act.ofScript]

theorem balance_next (h : turn.next? act = some turn') :
    turn.offered ++ yields [act] = begins [act] ++ turn'.offered ∧
      turn.taken ++ begins [act] = (replies [act]).map Prod.fst ++ turn'.taken := by
  cases turn <;> cases act <;> simp only [next?, Option.some.injEq, reduceCtorEq,
    Option.ite_none_right_eq_some] at h
  case script.yielded | script.noted | script.asked | script.idled => subst h; exact ⟨rfl, rfl⟩
  case channel.begun | fiber.replied => obtain ⟨rfl, rfl⟩ := h; exact ⟨rfl, rfl⟩

/-- Lines pass from one side to the other and back; none is lost and none is made up. -/
theorem balance : ∀ {turn : Turn}, turn.after? record = some turn' →
    turn.offered ++ yields record = begins record ++ turn'.offered ∧
      turn.taken ++ begins record = (replies record).map Prod.fst ++ turn'.taken := by
  induction record with
  | nil =>
    intro turn h
    cases h
    simp [yields, begins, replies]
  | cons act rest ih =>
    intro turn h
    rw [after?_cons] at h
    obtain ⟨between, hnext, hrest⟩ := Option.bind_eq_some_iff.mp h
    obtain ⟨hyield, hbegin⟩ := balance_next hnext
    obtain ⟨hyields, hbegins⟩ := ih hrest
    have hsplit : yields (act :: rest) = yields [act] ++ yields rest ∧
        begins (act :: rest) = begins [act] ++ begins rest ∧
        replies (act :: rest) = replies [act] ++ replies rest :=
      ⟨List.filterMap_append (l := [act]), List.filterMap_append (l := [act]),
        List.filterMap_append (l := [act])⟩
    rw [hsplit.1, hsplit.2.1, hsplit.2.2, List.map_append]
    constructor
    · rw [← List.append_assoc, hyield, List.append_assoc, hyields, List.append_assoc]
    · rw [← List.append_assoc, hbegin, List.append_assoc, hbegins, List.append_assoc]

/-- A line that is pending stays so until it is answered, and so does the turn. -/
theorem pending : ∀ {turn : Turn}, turn = .channel line ∨ turn = .fiber line →
    turn.after? record = some turn' →
    (∃ reply, .replied line reply ∈ record) ∨
      (turn' = .channel line ∨ turn' = .fiber line) := by
  induction record with
  | nil =>
    intro turn hturn h
    cases h
    exact .inr hturn
  | cons act rest ih =>
    intro turn hturn h
    rw [after?_cons] at h
    obtain ⟨between, hnext, hrest⟩ := Option.bind_eq_some_iff.mp h
    rcases hturn with rfl | rfl <;> cases act <;> simp only [next?, Option.some.injEq,
      reduceCtorEq, Option.ite_none_right_eq_some] at hnext
    · obtain ⟨rfl, rfl⟩ := hnext
      exact (ih (.inr rfl) hrest).imp_left fun ⟨reply, hm⟩ => ⟨reply, .tail _ hm⟩
    · obtain ⟨rfl, rfl⟩ := hnext
      exact .inl ⟨_, .head _⟩

/-- Between a yield and what the script does next there is the reply to that line. -/
theorem silent {before middle after : List Act}
    (h : turn.after? (before ++ .yielded line :: middle ++ act :: after) = some turn')
    (hact : act.ofScript = true) : ∃ reply, .replied line reply ∈ middle := by
  rw [after?_append, after?_append] at h
  obtain ⟨between, hmiddle, hafter⟩ := Option.bind_eq_some_iff.mp h
  obtain ⟨first, _, hmiddle⟩ := Option.bind_eq_some_iff.mp hmiddle
  rw [after?_cons] at hmiddle hafter
  obtain ⟨yielded, hyield, hmiddle⟩ := Option.bind_eq_some_iff.mp hmiddle
  obtain ⟨_, hnext, _⟩ := Option.bind_eq_some_iff.mp hafter
  have hfirst := script_of_next? hyield rfl
  subst hfirst
  cases hyield
  refine (pending (.inl rfl) hmiddle).resolve_right ?_
  rw [script_of_next? hnext hact]
  simp

end Turn
variable {b b' : Bridge} {f f' : Fiber} {client : Client γ} {engine : Engine γ} {now : Moment}
  {game game' : γ} {name : String} {turn : Turn}

theorem Stands.speak (hb : b.Stands turn) (h : b.speak? client now game f = some (f', b')) :
    turn = .script ∧ ∃ turn', turn.after? b.spoken = some turn' ∧ b'.Stands turn' ∧
      ∀ line, turn' ≠ .fiber line := by
  cases hb with
  | channel hs | fiber hs => simp [speak?, hs] at h
  | @script dialogue hs hrequest hserving =>
    refine ⟨rfl, ?_⟩
    cases dialogue with
    | ended => simp [speak?, hs] at h
    | yielded line next =>
      simp only [speak?, hs, hrequest, Option.isNone_none, if_true, Option.some.injEq] at h
      cases h
      exact ⟨.channel line, by simp only [spoken, hs]; rfl, .channel rfl rfl hserving, by simp⟩
    | noted | asked | idle =>
      simp only [speak?, hs, Option.some.injEq] at h
      cases h
      exact ⟨.script, by simp only [spoken, hs]; rfl, .script rfl hrequest hserving, by simp⟩

inductive Service (engine : Engine γ) (now : Moment) (name : String) (game : γ) (f : Fiber)
    (b : Bridge) : Turn → List Act → γ × Fiber × Bridge → Prop where
  | answers {line next reply} : b.speaker = .awaiting next → readLine line = .error reply →
      Service engine now name game f b (.channel line) [.begun line, .replied line reply]
        (game, f, ⟨.speaking (next reply), none, none⟩)
  | takes {line next step} : b.speaker = .awaiting next → readLine line = .ok step →
      Service engine now name game f b (.channel line) [.begun line]
        (game, f.load (.begin name ⟨[step]⟩ Controls.root), ⟨b.speaker, none, some line⟩)
  | plays {line next game' f'} : b.speaker = .awaiting next → f.result? = none →
      f.step? engine now game = some (game', f') →
      Service engine now name game f b (.fiber line) [] (game', f', b)
  | replies {line next result} : b.speaker = .awaiting next → f.result? = some result →
      Service engine now name game f b (.fiber line) [.replied line (replyTo result)]
        (game, f, ⟨.speaking (next (replyTo result)), none, none⟩)

theorem Stands.serve (hb : b.Stands turn)
    (h : b.serve? engine now name game f = some (game', f', b')) :
    Service engine now name game f b turn (b.served f) (game', f', b') := by
  cases hb with
  | script hs hrequest hserving => simp [serve?, hrequest, hserving] at h
  | @channel next line hs hrequest hserving =>
    unfold serve? at h
    unfold served
    simp only [hserving, hrequest, Bridge.reply, hs] at h ⊢
    cases hread : readLine line with
    | error reply =>
      simp only [hread, Option.some.injEq] at h
      cases h
      exact .answers hs hread
    | ok step =>
      simp only [hread, Option.some.injEq] at h
      cases h
      rw [← hs]
      exact .takes hs hread
  | @fiber next line hs hrequest hserving =>
    unfold serve? at h
    unfold served
    simp only [hserving, Bridge.reply, hs] at h ⊢
    cases hr : f.result? with
    | some result =>
      simp only [hr, Option.some.injEq] at h
      cases h
      rw [hrequest]
      exact .replies hs hr
    | none =>
      simp only [hr] at h
      obtain ⟨⟨game₁, f₁⟩, hf, he⟩ := Option.map_eq_some_iff.mp h
      cases he
      exact .plays hs hr hf

end Bridge

namespace Snapshot
open Bridge

/-- A step of either side of the bridge, which take theirs in any order, or something from outside;
and what is done by it. -/
inductive Exchange (engine : Engine γ) : Snapshot γ → List Act → Snapshot γ → Prop where
  | speaks {s b f b'} : s.run.bridge = some b →
      b.speak? engine.client s.now s.game s.run.fiber = some (f, b') →
      Exchange engine s b.spoken { s with run := { s.run with fiber := f, bridge := some b' } }
  | serves {s b game f b'} : s.run.bridge = some b →
      b.serve? engine s.now s.run.name s.game s.run.fiber = some (game, f, b') →
      Exchange engine s (b.served s.run.fiber)
        { s with game := game, run := { s.run with fiber := f, bridge := some b' } }
  | finishes {s b error} : s.run.bridge = some b → s.run.outcome = none → b.ended? = some error →
      Exchange engine s [] { s with run := s.run.finish s.now (s.run.scriptResult error) }
  | lapses {s now} : s.now ≤ now → Exchange engine s [] { s with now := now }
  | wishes {s} (w : Controls.Wish) : Exchange engine s [] { s with run := (s.run.grant w).2 }

inductive Exchanges (engine : Engine γ) (s : Snapshot γ) : List Act → Snapshot γ → Prop where
  | none : Exchanges engine s [] s
  | tail {record acts t u} : Exchanges engine s record t → Exchange engine t acts u →
      Exchanges engine s (record ++ acts) u

def scripted (now : Moment) (game : γ) (name : String) (program : Program) : Snapshot γ :=
  ⟨now, game, .ofDialogue name (.ofProgram program)⟩

def alone (s : Snapshot γ) (f : Fiber) : Snapshot γ := ⟨s.now, s.game, ⟨s.run.name, f, none, none⟩⟩

/-- The line was begun last of all, and the fiber executes it since, as a macro of one step. -/
def Executes (engine : Engine γ) (first : Snapshot γ) (record : List Act) (line : String)
    (step : Step) (s : Snapshot γ) : Prop :=
  ∃ before t, record = before ++ [.begun line] ∧ Exchanges engine first before t ∧
    Moves engine (fun _ => True)
      (t.alone (t.run.fiber.load (.begin t.run.name ⟨[step]⟩ Controls.root))) (s.alone s.run.fiber)

structure Takes (engine : Engine γ) (first : Snapshot γ) (record : List Act) (b : Bridge)
    (turn : Turn) (s : Snapshot γ) : Prop where
  bridge : s.run.bridge = some b
  stands : b.Stands turn
  turned : Turn.script.after? record = some turn
  executes : ∀ line, turn = .fiber line →
    ∃ step, Bridge.readLine line = .ok step ∧ Executes engine first record line step s

variable {engine : Engine γ} {first s t : Snapshot γ} {record acts : List Act} {b : Bridge}
  {turn : Turn} {line : String} {step : Step}

/-- Whoever plays on with the fiber, with the rest of the record as it was, executes the same line. -/
theorem Executes.move (h : Executes engine first record line step s)
    (hmove : Move engine (fun _ => True) (s.alone s.run.fiber) (t.alone t.run.fiber)) :
    Executes engine first (record ++ []) line step t := by
  obtain ⟨before, u, hrecord, hfirst, hmoves⟩ := h
  exact ⟨before, u, by rw [List.append_nil, hrecord], hfirst, hmoves.tail hmove⟩

theorem takes_service {game : γ} {f : Fiber} {b' : Bridge} (hfirst : Exchanges engine first record s)
    (h : Takes engine first record b turn s)
    (hserve : b.serve? engine s.now s.run.name s.game s.run.fiber = some (game, f, b')) :
    ∃ turn', Takes engine first (record ++ b.served s.run.fiber) b' turn'
      { s with game := game, run := { s.run with fiber := f, bridge := some b' } } := by
  have hservice := h.stands.serve hserve
  have hrecord : ∀ {turn'}, turn.after? (b.served s.run.fiber) = some turn' →
      Turn.script.after? (record ++ b.served s.run.fiber) = some turn' := by
    intro turn' hafter
    rw [Turn.after?_append, h.turned]
    exact hafter
  generalize b.served s.run.fiber = acts at hservice hrecord
  generalize hr : (game, f, b') = r at hservice
  cases hservice with
  | @answers line next reply hs hread =>
    cases hr
    refine ⟨.script, rfl, .script rfl rfl rfl, hrecord ?_, by simp⟩
    simp [Turn.next?, Turn.after?]
  | @takes line next step hs hread =>
    cases hr
    refine ⟨.fiber line, rfl, .fiber hs rfl rfl, hrecord ?_, ?_⟩
    · simp [Turn.next?, Turn.after?]
    · rintro _ ⟨⟩
      exact ⟨step, hread, record, s, rfl, hfirst, .refl⟩
  | @plays line next game' f' hs hresult hf =>
    cases hr
    refine ⟨.fiber line, rfl, h.stands, hrecord rfl, fun line' hline => ?_⟩
    obtain ⟨step, hread, hexecutes⟩ := h.executes line' hline
    refine ⟨step, hread, hexecutes.move ?_⟩
    refine .work (s.alone s.run.fiber) ?_
    simp only [alone, Run.step?, hresult, hf]
    rfl
  | @replies line next result hs hresult =>
    cases hr
    refine ⟨.script, rfl, .script rfl rfl rfl, hrecord ?_, by simp⟩
    simp [Turn.next?, Turn.after?]

theorem takes_exchange (hfirst : Exchanges engine first record s)
    (h : Takes engine first record b turn s) (hx : Exchange engine s acts t) :
    ∃ b' turn', Takes engine first (record ++ acts) b' turn' t := by
  cases hx with
  | @speaks b₁ f b' hb hspeak =>
    cases h.bridge.symm.trans hb
    obtain ⟨_, turn', hafter, hstands, hne⟩ := h.stands.speak hspeak
    refine ⟨b', turn', rfl, hstands, ?_, fun line hline => absurd hline (hne line)⟩
    rw [Turn.after?_append, h.turned]
    exact hafter
  | serves hb hserve =>
    cases h.bridge.symm.trans hb
    obtain ⟨turn', htakes⟩ := takes_service hfirst h hserve
    exact ⟨_, turn', htakes⟩
  | @finishes b₁ error hb ho hended =>
    cases h.bridge.symm.trans hb
    refine ⟨b, turn, h.bridge, h.stands, by rw [List.append_nil]; exact h.turned, fun line hline => ?_⟩
    subst hline
    cases h.stands with
    | fiber hs => simp [ended?, hs] at hended
  | @lapses now hle =>
    refine ⟨b, turn, h.bridge, h.stands, by rw [List.append_nil]; exact h.turned, fun line hline => ?_⟩
    obtain ⟨step, hread, hexecutes⟩ := h.executes line hline
    exact ⟨step, hread, hexecutes.move (.lapse _ now hle)⟩
  | wishes w =>
    refine ⟨b, turn, h.bridge, h.stands, by rw [List.append_nil]; exact h.turned, fun line hline => ?_⟩
    obtain ⟨step, hread, hexecutes⟩ := h.executes line hline
    exact ⟨step, hread, hexecutes.move (.wish _ (w := w) trivial)⟩

variable {now : Moment} {game : γ} {name : String} {program : Program}

theorem takes_exchanges (h : Exchanges engine (scripted now game name program) record s) :
    ∃ b turn, Takes engine (scripted now game name program) record b turn s := by
  induction h with
  | none => exact ⟨_, .script, rfl, .script rfl rfl rfl, rfl, by simp⟩
  | tail hfirst hx ih =>
    obtain ⟨b, turn, htakes⟩ := ih
    exact takes_exchange hfirst htakes hx

/-- The reply to a line is what the line is answered at once, or else how its execution ended. -/
def Replies (engine : Engine γ) (first : Snapshot γ) (record : List Act) (line : String)
    (reply : Option RunError) (s : Snapshot γ) : Prop :=
  Bridge.readLine line = .error reply ∨
    ∃ step result, Bridge.readLine line = .ok step ∧ Executes engine first record line step s ∧
      s.run.fiber.result? = some result ∧ reply = replyTo result

/-- While a line is unanswered the script waits with all it has still to do, and goes on with the
reply to that line. -/
theorem exchange_pending (h : Takes engine first record b turn s) (hturn : turn ≠ .script) :
    ∃ next line, b.speaker = .awaiting next ∧ turn.offered ++ turn.taken = [line] ∧
      ∀ acts t, Exchange engine s acts t → ∃ b', t.run.bridge = some b' ∧
        (b'.speaker = .awaiting next ∧ replies acts = [] ∨
          ∃ reply, b'.speaker = .speaking (next reply) ∧ replies acts = [(line, reply)] ∧
            Replies engine first record line reply s) := by
  obtain ⟨next, line, hs, hline⟩ : ∃ next line, b.speaker = .awaiting next ∧
      (turn = .channel line ∨ turn = .fiber line) := by
    cases h.stands with
    | script => exact absurd rfl hturn
    | channel hs => exact ⟨_, _, hs, .inl rfl⟩
    | fiber hs => exact ⟨_, _, hs, .inr rfl⟩
  refine ⟨next, line, hs, by rcases hline with rfl | rfl <;> rfl, fun acts t hx => ?_⟩
  cases hx with
  | speaks hb hspeak =>
    cases h.bridge.symm.trans hb
    exact absurd (h.stands.speak hspeak).1 hturn
  | finishes hb _ hended =>
    cases h.bridge.symm.trans hb
    simp [ended?, hs] at hended
  | lapses | wishes => exact ⟨b, h.bridge, .inl ⟨hs, rfl⟩⟩
  | @serves b₁ game f b' hb hserve =>
    cases h.bridge.symm.trans hb
    refine ⟨b', rfl, ?_⟩
    have hservice := h.stands.serve hserve
    generalize b.served s.run.fiber = acts at hservice
    generalize hr : (game, f, b') = r at hservice
    cases hservice with
    | @answers line' next' reply hs' hread =>
      cases hr
      cases hs.symm.trans hs'
      rcases hline with hline | hline
      · cases hline
        exact .inr ⟨reply, rfl, rfl, .inl hread⟩
      · cases hline
    | takes =>
      cases hr
      exact .inl ⟨hs, rfl⟩
    | plays =>
      cases hr
      exact .inl ⟨hs, rfl⟩
    | @replies line' next' result hs' hresult =>
      cases hr
      cases hs.symm.trans hs'
      rcases hline with hline | hline
      · cases hline
      · cases hline
        obtain ⟨step, hread, hexecutes⟩ := h.executes line rfl
        exact .inr ⟨_, rfl, rfl, .inr ⟨step, result, hread, hexecutes, hresult, rfl⟩⟩

theorem exchange_ended {error : Option RunError} (h : Takes engine first record b turn s)
    (hended : b.ended? = some error) : turn = .script ∧ ∀ acts t, Exchange engine s acts t →
      acts = [] ∧ t.run.bridge = some b ∧ t.game = s.game ∧
        t.run.fiber.steps = s.run.fiber.steps := by
  cases h.stands with
  | channel hs | fiber hs => simp [ended?, hs] at hended
  | @script dialogue hs hrequest hserving =>
    refine ⟨rfl, fun acts t hx => ?_⟩
    cases hx with
    | speaks hb hspeak =>
      cases h.bridge.symm.trans hb
      cases dialogue <;> simp [ended?, speak?, hs] at hended hspeak
    | serves hb hserve =>
      cases h.bridge.symm.trans hb
      simp [serve?, hrequest, hserving] at hserve
    | finishes | lapses | wishes => exact ⟨rfl, h.bridge, rfl, rfl⟩

def does (engine : Engine γ) (s : Snapshot γ) : List Act :=
  match s.run.outcome, s.run.bridge with
  | none, some b =>
    if b.ended?.isSome then []
    else match b.speak? engine.client s.now s.game s.run.fiber with
      | some _ => b.spoken
      | none => b.served s.run.fiber
  | _, _ => []

/-- A run of a script is an exchange in which the script takes its step whenever it can. -/
theorem exchange_work {game : γ} {run : Run} (hb : s.run.bridge = some b)
    (h : s.run.step? engine s.now s.game = some (game, run)) :
    Exchange engine s (s.does engine) { s with game := game, run := run } := by
  unfold Run.step? at h
  split at h
  · cases h
  · rename_i ho
    have ho : s.run.outcome = none := Option.not_isSome_iff_eq_none.mp ho
    simp only [hb] at h
    simp only [does, ho, hb]
    split at h
    · rename_i error hended
      cases h
      simp only [hended, Option.isSome_some, if_true]
      exact .finishes hb ho hended
    · rename_i hended
      simp only [hended, Option.isSome_none, Bool.false_eq_true, if_false]
      split at h
      · rename_i f b' hspeak
        cases h
        rw [hspeak]
        exact .speaks hb hspeak
      · rename_i hspeak
        obtain ⟨⟨game₁, f, b'⟩, hserve, he⟩ := Option.map_eq_some_iff.mp h
        cases he
        rw [hspeak]
        exact .serves hb hserve

theorem does_of_step?_none (h : s.run.step? engine s.now s.game = none) : s.does engine = [] := by
  unfold does
  split
  · rename_i b ho hb
    simp only [Run.step?, ho, hb, Option.isSome_none, Bool.false_eq_true, if_false] at h
    split at h
    · cases h
    · rename_i hended
      simp only [hended, Option.isSome_none, Bool.false_eq_true, if_false]
      split at h
      · cases h
      · rename_i hspeak
        rw [hspeak]
        have hserve := Option.map_eq_none_iff.mp h
        unfold serve? at hserve
        unfold served
        cases hserving : b.serving with
        | none =>
          cases hrequest : b.request with
          | none => rfl
          | some line =>
            simp only [hserving, hrequest] at hserve
            split at hserve <;> cases hserve
        | some line =>
          cases hr : s.run.fiber.result? with
          | none => rfl
          | some result => simp [hserving, hr] at hserve
  · rfl

theorem exchange_tick (engine : Engine γ) (hb : s.run.bridge = some b) :
    Exchange engine s (s.does engine) (s.tick engine) := by
  unfold tick
  split
  · rename_i hstep
    exact exchange_work hb hstep
  · rename_i hstep
    rw [does_of_step?_none hstep]
    split
    · exact .lapses (Nat.le_max_left _ _)
    · exact .lapses (Nat.le_refl s.now)

theorem bridge_exchange (h : Exchange engine s acts t) (hb : s.run.bridge.isSome) :
    t.run.bridge.isSome := by
  cases h with
  | speaks | serves => rfl
  | finishes | lapses | wishes => exact hb

theorem exchanges_after (engine : Engine γ) (hb : s.run.bridge.isSome) (n : Nat) :
    (s.after engine n).run.bridge.isSome ∧ Exchanges engine s
      ((List.range n).flatMap fun k => (s.after engine k).does engine) (s.after engine n) := by
  induction n with
  | zero => exact ⟨hb, .none⟩
  | succ n ih =>
    obtain ⟨hsome, hrecord⟩ := ih
    obtain ⟨b, hbridge⟩ := Option.isSome_iff_exists.mp hsome
    have htick := exchange_tick engine hbridge
    rw [after_succ, List.range_succ, List.flatMap_append, List.flatMap_singleton]
    exact ⟨bridge_exchange htick hsome, hrecord.tail htick⟩

/-- The two sides of a bridge alternate, in whatever order they take their steps and whatever is
asked of the run in between. The lines begun are the first of those yielded, those answered the
first of those begun, and at most one is unanswered. Between a yield and the next thing that the
script does there is the reply to that line, which is how its execution ended; and when the script
has ended nothing is executed any more. -/
theorem bridge_alternates (h : Exchanges engine (scripted now game name program) record s) :
    begins record <+: yields record ∧
    (replies record).map Prod.fst <+: begins record ∧
    (yields record).length ≤ (replies record).length + 1 ∧
    (∀ before line middle act after, record = before ++ .yielded line :: middle ++ act :: after →
      act.ofScript = true → ∃ reply, .replied line reply ∈ middle) ∧
    ∃ b, s.run.bridge = some b ∧
      ((replies record).map Prod.fst ≠ yields record → ∃ next line, b.speaker = .awaiting next ∧
        yields record = (replies record).map Prod.fst ++ [line] ∧
        ∀ acts t, Exchange engine s acts t → ∃ b', t.run.bridge = some b' ∧
          (b'.speaker = .awaiting next ∧ replies acts = [] ∨
            ∃ reply, b'.speaker = .speaking (next reply) ∧ replies acts = [(line, reply)] ∧
              Replies engine (scripted now game name program) record line reply s)) ∧
      ∀ error, b.ended? = some error → (replies record).map Prod.fst = yields record ∧
        ∀ acts t, Exchange engine s acts t → acts = [] ∧ t.run.bridge = some b ∧
          t.game = s.game ∧ t.run.fiber.steps = s.run.fiber.steps := by
  obtain ⟨b, turn, htakes⟩ := takes_exchanges h
  obtain ⟨hyields, hbegins⟩ := Turn.balance htakes.turned
  have hyields : yields record = begins record ++ turn.offered := hyields
  have hbegins : begins record = (replies record).map Prod.fst ++ turn.taken := hbegins
  have hall : yields record =
      (replies record).map Prod.fst ++ (turn.offered ++ turn.taken) := by
    rw [hyields, hbegins]
    cases turn <;> simp [Turn.offered, Turn.taken]
  refine ⟨⟨turn.offered, hyields.symm⟩, ⟨turn.taken, hbegins.symm⟩, ?_, ?_, b, htakes.bridge, ?_, ?_⟩
  · rw [hall]
    cases turn <;> simp [Turn.offered, Turn.taken]
  · rintro before line middle act after rfl hact
    exact Turn.silent htakes.turned hact
  · intro hne
    have hturn : turn ≠ .script := by
      rintro rfl
      exact hne (by rw [hall]; simp [Turn.offered, Turn.taken])
    obtain ⟨next, line, hs, hline, hnext⟩ := exchange_pending htakes hturn
    exact ⟨next, line, hs, by rw [hall, hline], hnext⟩
  · intro error hended
    obtain ⟨rfl, hstill⟩ := exchange_ended htakes hended
    exact ⟨by rw [hall]; simp [Turn.offered, Turn.taken], hstill⟩

def chatting : Program :=
  [.yield 1 (.str "/echo one"), .log (.str "said"), .yield 3 (.str "/echo two"),
    .log (.str "never")]

/-- The second line is under way, and the script waits before its last statement. -/
theorem bridge_alternates_chatting :
    let s := (scripted 0 () "m" chatting).after (.still .empty) 12
    ∃ record b next, Exchanges (.still .empty) (scripted 0 () "m" chatting) record s ∧
      yields record = ["/echo one", "/echo two"] ∧ replies record = [("/echo one", none)] ∧
      begins record <+: yields record ∧ s.run.bridge = some b ∧ b.speaker = .awaiting next := by
  intro s
  obtain ⟨_, hrecord⟩ := exchanges_after (.still .empty) (s := scripted 0 () "m" chatting) rfl 12
  have hyields : yields ((List.range 12).flatMap fun k =>
      ((scripted 0 () "m" chatting).after (.still .empty) k).does (.still .empty)) =
        ["/echo one", "/echo two"] := by decide +kernel
  have hreplies : replies ((List.range 12).flatMap fun k =>
      ((scripted 0 () "m" chatting).after (.still .empty) k).does (.still .empty)) =
        [("/echo one", none)] := by decide +kernel
  obtain ⟨hbegun, _, _, _, b, hb, hpending, _⟩ := bridge_alternates hrecord
  obtain ⟨next, line, hs, _, _⟩ := hpending (by rw [hyields, hreplies]; decide)
  exact ⟨_, b, next, hrecord, hyields, hreplies, hbegun, hb, hs⟩

end Snapshot
end MacroEngine
