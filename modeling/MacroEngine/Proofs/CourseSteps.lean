import MacroEngine.Run.Course

/-! What a small step of a course can be. A property of activities that goes over to whatever can
follow them holds of the rest of a course as long as that lasts. -/
namespace MacroEngine

theorem Wait.stopped_of_readiness {w : Wait} {state : RunState} {now : Moment}
    (h : w.readiness state now = .interrupted) : state = .stopped := by
  unfold readiness at h
  split at h
  · cases h
  · cases state with
    | stopped => rfl
    | _ => cases h

namespace Activity

variable {V : View → Prop} {frames frames' : List Frame} {n n' : Nat} {a b : Activity α}

/-- `b` can come right after `a`, with the frames and the number of crossings that there are then,
if no views but those of `V` are seen. -/
inductive Next (V : View → Prop) (frames : List Frame) (n : Nat) :
    Activity α → List Frame → Nat → Activity α → Prop where
  | look {next} (view : View) : V view → Next V frames n (.look next) frames n (next view)
  | issue {action next} (reply : Except GameError Ticket) :
      Next V frames n (.issue action next) frames n (next reply)
  | perform {order next} (reply : Except GameError Unit) :
      Next V frames n (.perform order next) frames n (next reply)
  | echo {text next} : Next V frames n (.echo text next) frames n next
  | crossed {next} : Next V frames n (.mark .crossed next) frames (n + 1) next
  | frames {frames' next} : Next V frames n (.mark (.frames frames') next) frames' n next
  | boundary {next} : Next V frames n (.mark .boundary next) frames n next
  | held {reason next} : Next V frames n (.mark (.held reason) next) frames n next
  | pause {span next} : Next V frames n (.pause span next) frames n next
  | await {holds limit next} (met : Bool) :
      Next V frames n (.await holds limit next) frames n (next met)

def Inherited (V : View → Prop) (P : List Frame → Nat → Activity α → Prop) : Prop :=
  ∀ {frames n a frames' n' b}, Next V frames n a frames' n' b → P frames n a → P frames' n' b

end Activity

namespace Course

variable {means : Means γ} {now : Moment} {s s' : Scene γ} {c c' : Course α}

inductive SmallStep (means : Means γ) (now : Moment) (s : Scene γ) :
    Course α → Scene γ → Course α → Prop where
  | cut {wait holds next} : wait.readiness s.control.state now = .interrupted →
      SmallStep means now s (.waiting wait holds next) s .interrupted
  | met {wait holds next} : wait.readiness s.control.state now = .due →
      wait.verdict means.poll now (holds (means.client.view s.game now)) = .met →
      SmallStep means now s (.waiting wait holds next) s (.doing (next true))
  | late {wait holds next} : wait.readiness s.control.state now = .due →
      wait.verdict means.poll now (holds (means.client.view s.game now)) = .late →
      SmallStep means now s (.waiting wait holds next) s (.doing (next false))
  | again {wait wait' holds next} : wait.readiness s.control.state now = .due →
      wait.verdict means.poll now (holds (means.client.view s.game now)) = .again wait' →
      SmallStep means now s (.waiting wait holds next) s (.waiting wait' holds next)
  | look {next} : SmallStep means now s (.doing (.look next)) s
      (.doing (next (means.client.view s.game now)))
  | issue {action next} : SmallStep means now s (.doing (.issue action next))
      ({ s with game := (means.client.issue s.game now action).2 }.log now (.issued action))
      (.doing (next (means.client.issue s.game now action).1))
  | perform {order next} : SmallStep means now s (.doing (.perform order next))
      ({ s with game := (means.client.perform s.game now order).2 }.log now (.performed order))
      (.doing (next (means.client.perform s.game now order).1))
  | echo {text next} : SmallStep means now s (.doing (.echo text next))
      ({ s with game := means.client.echo s.game now text }.log now (.echoed text)) (.doing next)
  | mark {m next} : SmallStep means now s (.doing (.mark m next)) (s.mark means.client now m)
      (.doing next)
  | passed {span next} : span.isZero = true →
      SmallStep means now s (.doing (.pause span next)) s (.doing next)
  | slept {span next} : span.isZero = false → SmallStep means now s (.doing (.pause span next))
      { s with draws := if span.isOpen then s.draws + 1 else s.draws }
      (.waiting (.start now (span.sample means.draw s.draws)) (fun _ => false) fun _ => next)
  | awaited {holds limit next} : SmallStep means now s (.doing (.await holds limit next)) s
      (.waiting (.start now limit) holds next)

theorem smallStep_of_step? (h : c.step? means now s = some (s', c')) :
    SmallStep means now s c s' c' := by
  cases c with
  | interrupted => cases h
  | waiting wait holds next =>
    simp only [step?] at h
    split at h
    · cases h
    · cases h
    · rename_i hready
      cases h
      exact .cut hready
    · rename_i hready
      split at h
      · rename_i hverdict
        cases h
        exact .met hready hverdict
      · rename_i hverdict
        cases h
        exact .late hready hverdict
      · rename_i hverdict
        cases h
        exact .again hready hverdict
  | doing a =>
    cases a with
    | done | fail => cases h
    | look => cases h; exact .look
    | issue => cases h; exact .issue
    | perform => cases h; exact .perform
    | echo => cases h; exact .echo
    | mark => cases h; exact .mark
    | await => cases h; exact .awaited
    | pause span next =>
      simp only [step?, proceed?] at h
      split at h
      · rename_i hz
        cases h
        exact .passed hz
      · rename_i hz
        cases h
        exact .slept (Bool.eq_false_iff.mpr hz)

/-- `P` holds of what the course still has to do; where it is cut short, `cut` holds. -/
def Lifts (cut : Prop) (P : List Frame → Nat → Activity α → Prop) (frames : List Frame) (n : Nat) :
    Course α → Prop
  | .doing a => P frames n a
  | .waiting _ _ next => ∀ met, P frames n (next met)
  | .interrupted => cut

theorem Lifts.step? {V : View → Prop} {P : List Frame → Nat → Activity α → Prop} {cut : Prop}
    (hP : Activity.Inherited V P) (hV : V (means.client.view s.game now))
    (hcut : s.control.state = .stopped → cut) (hc : c.Lifts cut P s.frames s.crossings)
    (h : c.step? means now s = some (s', c')) : c'.Lifts cut P s'.frames s'.crossings := by
  cases smallStep_of_step? h with
  | cut hready => exact hcut (Wait.stopped_of_readiness hready)
  | met | late => exact hc _
  | again => exact hc
  | look => exact hP (.look _ hV) hc
  | issue => exact hP (.issue _) hc
  | perform => exact hP (.perform _) hc
  | echo => exact hP .echo hc
  | @mark m next =>
    cases m with
    | crossed => exact hP .crossed hc
    | frames => exact hP .frames hc
    | boundary => exact hP .boundary hc
    | held => exact hP .held hc
  | passed => exact hP .pause hc
  | slept => exact fun _ => hP .pause hc
  | awaited => exact fun met => hP (.await met) hc

end Course
end MacroEngine
