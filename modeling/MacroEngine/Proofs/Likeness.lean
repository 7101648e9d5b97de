import MacroEngine.Run.Execution

/-! Steps that differ only in their line numbers. A line that a script yields is read as line one;
executed, it does what the same line does in a macro, and its errors name line one. -/
namespace MacroEngine

def RunError.onLine (line : Nat) : RunError → RunError
  | .parse error => .parse { error with line := line }
  | .modifier _ error => .modifier line error
  | .conditionTimeout _ what waited => .conditionTimeout line what waited
  | .retryExhausted _ action attempts last => .retryExhausted line action attempts last
  | .refused _ error => .refused line error
  | .unsupported _ command reason => .unsupported line command reason
  | .cycle chain => .cycle chain
  | .library error => .library error
  | .script error => .script error
  | .task text => .task text
  | .stopped => .stopped

/-- What an error of a macro is for a script that yields the lines: that of another macro is the
same, that of a yielded line is on line one. -/
def RunError.AsYielded (error error' : RunError) : Prop := error' = error ∨ error' = error.onLine 1

def NoticeAsYielded (text text' : String) : Prop :=
  text' = text ∨ ∃ error : RunError, text = error.message ∧ text' = (error.onLine 1).message

/-- The same step, read where it is or as a yielded line. -/
def Step.AsYielded (step step' : Step) : Prop := step' = step ∨ step' = { step with line := 1 }

namespace RunError

variable {error error' : RunError}

@[simp] theorem isSoft_onLine (error : RunError) (line : Nat) :
    (error.onLine line).isSoft = error.isSoft := by
  cases error <;> rfl

theorem AsYielded.isSoft (h : error.AsYielded error') : error'.isSoft = error.isSoft := by
  rcases h with rfl | rfl
  · rfl
  · exact isSoft_onLine error 1

theorem AsYielded.ne_stopped (h : error.AsYielded error') (hne : error ≠ .stopped) :
    error' ≠ .stopped := by
  rcases h with rfl | rfl
  · exact hne
  · cases error <;> simp_all [onLine]

theorem AsYielded.notice (h : error.AsYielded error') :
    NoticeAsYielded error.message error'.message := by
  rcases h with rfl | rfl
  · exact .inl rfl
  · exact .inr ⟨error, rfl, rfl⟩

end RunError

theorem Step.AsYielded.error {step step' : Step} (h : step.AsYielded step') (make : Nat → RunError)
    (hmake : (make step.line).onLine 1 = make 1) :
    (make step.line).AsYielded (make step'.line) := by
  rcases h with rfl | rfl
  · exact .inl rfl
  · exact .inr hmake.symm

namespace Activity

variable {q q' : Mark → Prop} {r r' : α → Prop} {a a' : Activity α}

/-- The same dealings, but for the lines that errors name. The marks satisfy `q`, and a value in
which they end satisfies `r`. -/
inductive Like (q : Mark → Prop) (r : α → Prop) : Activity α → Activity α → Prop where
  | done {value} : r value → Like q r (.done value) (.done value)
  | fail {site error error'} : error ≠ .stopped → error.AsYielded error' →
      Like q r (.fail site error) (.fail site error')
  | look {next next'} : (∀ view, Like q r (next view) (next' view)) →
      Like q r (.look next) (.look next')
  | issue {action next next'} : (∀ reply, Like q r (next reply) (next' reply)) →
      Like q r (.issue action next) (.issue action next')
  | perform {order next next'} : (∀ reply, Like q r (next reply) (next' reply)) →
      Like q r (.perform order next) (.perform order next')
  | echo {text next next'} : Like q r next next' → Like q r (.echo text next) (.echo text next')
  | mark {m next next'} : q m → Like q r next next' → Like q r (.mark m next) (.mark m next')
  | pause {span next next'} : Like q r next next' → Like q r (.pause span next) (.pause span next')
  | await {holds limit next next'} : (∀ met, Like q r (next met) (next' met)) →
      Like q r (.await holds limit next) (.await holds limit next')

theorem Like.bind {r : α → Prop} {r' : β → Prop} {a a' : Activity α} {f f' : α → Activity β}
    (h : a.Like q r a') (hf : ∀ value, r value → (f value).Like q r' (f' value)) :
    (a.bind f).Like q r' (a'.bind f') := by
  induction h with
  | done hr => exact hf _ hr
  | fail hne he => exact .fail hne he
  | look _ ih => exact .look ih
  | issue _ ih => exact .issue ih
  | perform _ ih => exact .perform ih
  | echo _ ih => exact .echo ih
  | mark hq _ ih => exact .mark hq ih
  | pause _ ih => exact .pause ih
  | await _ ih => exact .await ih

end Activity

def Flow.Onward : Flow → Prop
  | .next | .enter .. => True
  | .jump _ | .finish => False

namespace Execution
open Activity

variable {q : Mark → Prop} {r : Flow → Prop} {step step' : Step}

theorem like_attempt (action : String) (ackTimeout : Duration) (left : Nat) :
    ∀ used, (Retry.attempt action ackTimeout used left).Like q (fun _ => True)
      (Retry.attempt action ackTimeout used left) := by
  induction left with
  | zero => exact fun _ => .done trivial
  | succ left ih =>
    intro used
    refine .issue fun reply => ?_
    cases reply with
    | error => exact .done trivial
    | ok ticket =>
      refine .await fun met => ?_
      cases met with
      | true => exact .done trivial
      | false => exact ih (used + 1)

theorem like_issue (maxRetries : Nat) (ackTimeout : Duration) (action : String)
    (unconfirmed : Bool) :
    (Retry.issue maxRetries ackTimeout action unconfirmed).Like q (fun _ => True)
      (Retry.issue maxRetries ackTimeout action unconfirmed) := by
  unfold Retry.issue
  split
  · refine .issue fun reply => ?_
    cases reply <;> exact .done trivial
  · exact like_attempt action ackTimeout _ 0

theorem like_tell (wanted : Bool) (news : Option String) :
    (tell wanted news).Like q (fun _ => True) (tell wanted news) := by
  unfold tell
  split
  · exact .echo (.done trivial)
  · exact .done trivial

/-- Gates count where they are, and fail nowhere. -/
theorem like_gate (hq : ∀ m, q m) (hr : ∀ flow, r flow) (index count : Nat) (eff : Effective)
    (frames : List Frame) :
    (gate index count eff frames).Like q r (gate index count eff frames) := by
  refine .mark (hq _) (.mark (hq _) ((like_tell _ _).bind fun _ _ => .mark (hq _) ?_))
  change Like q r (if _ then _ else _) (if _ then _ else _)
  split
  · exact .pause (.done (hr _))
  · exact .done (hr _)

theorem like_loop (hq : ∀ m, q m) (hr : ∀ flow, r flow) (config : Config) (index : Nat)
    (count : LoopCount) (eff : Effective) (frames : List Frame) :
    (loop config index count eff frames).Like q r (loop config index count eff frames) := by
  refine .pause ?_
  by_cases hi : index = 0
  · simp only [hi, if_true]
    by_cases hz : count = .finite 0
    · simp only [hz, if_true]
      exact (like_tell _ _).bind fun _ _ => .done (hr _)
    · simp only [hz, if_false]
      exact .mark (hq _) (.done (hr _))
  · simp only [hi, if_false]
    exact .mark (hq _) (.mark (hq _) ((like_tell _ _).bind fun _ _ => .mark (hq _) (.done (hr _))))

section Lines
variable (hs : step.AsYielded step') (hr : ∀ flow, flow.Onward → r flow)
include hs hr

theorem like_act (config : Config) (eff : Effective) (name : String) :
    (act config step.line eff name).Like q r (act config step'.line eff name) := by
  refine .look fun view => ?_
  split
  · exact .done (hr _ trivial)
  · refine (like_issue _ _ _ _).bind fun outcome _ => ?_
    cases outcome with
    | refused error => exact .fail (by simp) (hs.error (fun line => .refused line error) rfl)
    | exhausted attempts last =>
      exact .fail (by simp) (hs.error (fun line => .retryExhausted line name attempts last) rfl)
    | success =>
      dsimp only
      split
      · exact .await fun _ => .done (hr _ trivial)
      · exact .pause (.done (hr _ trivial))

theorem like_orderly (site : GameError → Site) (wait : WaitSpan) (order : Order) :
    (orderly step.line site wait order).Like q r (orderly step'.line site wait order) := by
  refine .perform fun reply => ?_
  cases reply with
  | ok => exact .pause (.done (hr _ trivial))
  | error e => exact .fail (by simp) (hs.error (fun line => .refused line e) rfl)

theorem like_require (what : String) (eff : Effective) (holds : View → Bool) :
    ((demand step.line .requireTimeout what eff.maxWait holds).bind fun _ =>
      .pause eff.wait (.done .next)).Like q r
    ((demand step'.line .requireTimeout what eff.maxWait holds).bind fun _ =>
      .pause eff.wait (.done .next)) := by
  refine Like.bind (r := fun _ => True) (.await fun met => ?_) fun _ _ =>
    .pause (.done (hr _ trivial))
  cases met with
  | true => exact .done trivial
  | false =>
    exact .fail (by simp) (hs.error (fun line => .conditionTimeout line what eff.maxWait) rfl)

omit hs in
theorem like_check (hq : ∀ reason, q (.held reason)) (reason : String) (wait : WaitSpan)
    (trips : View → Bool) : (check reason wait trips).Like q r (check reason wait trips) := by
  refine .look fun view => ?_
  split
  · exact .mark (hq _) (.done (hr _ trivial))
  · exact .pause (.done (hr _ trivial))

theorem like_waitAddon (eff : Effective) (name : String) :
    (waitAddon step.line eff name).Like q r (waitAddon step'.line eff name) := by
  refine .await fun met => ?_
  cases met with
  | true => exact .pause (.done (hr _ trivial))
  | false =>
    exact .look fun view => .fail (by simp)
      (hs.error (fun line => .conditionTimeout line ("addon " ++ name) eff.maxWait) rfl)

omit hs in
theorem like_enter (library : Library) (chain : List String) (eff : Effective) (name : String) :
    (enter library chain eff name).Like q r (enter library chain eff name) := by
  unfold enter
  split
  · exact .fail (by simp) (.inl rfl)
  · split
    · exact .fail (by simp) (.inl rfl)
    · exact .done (hr _ trivial)

/-- Only loops and gates ask where they are in their macro. -/
theorem like_command (hq : ∀ reason, q (.held reason)) {index index' : Nat}
    (hb : step.command.isBoundary = true → index' = index ∧ (∀ m, q m) ∧ ∀ flow, r flow)
    (rules : Rules) (chain : List String) (frames : List Frame) (eff : Effective) :
    (command rules chain index frames step eff).Like q r
      (command rules chain index' frames step' eff) := by
  have hcommand : step'.command = step.command := by rcases hs with rfl | rfl <;> rfl
  have hargs : step'.rawArgs = step.rawArgs := by rcases hs with rfl | rfl <;> rfl
  unfold command
  rw [hcommand, hargs]
  cases hc : step.command with
  | craft count =>
    obtain ⟨rfl, hq, hr⟩ := hb (by rw [hc]; rfl)
    exact like_gate hq hr _ _ _ _
  | loop count =>
    obtain ⟨rfl, hq, hr⟩ := hb (by rw [hc]; rfl)
    exact like_loop hq hr _ _ _ _ _
  | runMacro name => exact like_enter hr _ _ _ _
  | action name => exact like_act hs hr _ _ _
  | click | recipe | item | send | hold | release | target | native =>
    exact like_orderly hs hr _ _ _
  | require | requireQuality | requireStats => exact like_require hs hr _ _ _
  | requireRepair | requireSpiritbond => exact like_check hr hq _ _ _
  | waitAddon name => exact like_waitAddon hs hr _ _
  | wait span => exact .pause (.done (hr _ trivial))
  | echo text => exact .echo (.pause (.done (hr _ trivial)))

theorem like_step (hq : ∀ reason, q (.held reason)) {index index' : Nat}
    (hb : step.command.isBoundary = true → index' = index ∧ (∀ m, q m) ∧ ∀ flow, r flow)
    (rules : Rules) (chain : List String) (frames : List Frame) :
    (Execution.step rules chain index frames step).Like q r
      (Execution.step rules chain index' frames step') := by
  have hresolve : ∀ names, resolve rules.config names step' = resolve rules.config names step := by
    rcases hs with rfl | rfl <;> exact fun _ => rfl
  have hmods : step'.modifiers = step.modifiers := by rcases hs with rfl | rfl <;> rfl
  refine .look fun view => ?_
  simp only [hmods, hresolve]
  split
  · rename_i error _
    exact .fail (by simp) (hs.error (fun line => .modifier line error) rfl)
  · exact like_command hs hr hq hb rules chain frames _

end Lines
end Execution
end MacroEngine
