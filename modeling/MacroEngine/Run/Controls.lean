import MacroEngine.Run.Lifecycle

/-! The lifecycles of the invocations of one run, each under a handle of its own, and the list in
which those under way are published, outermost first. Whoever controls a run goes by that list. -/
namespace MacroEngine

abbrev Handle := Nat

structure Published where
  name : String
  handle : Handle
  deriving DecidableEq, Repr

structure Controls where
  /-- Innermost first. -/
  live : List (Handle × Lifecycle)
  /-- Those of invocations that are over. -/
  retired : List (Handle × Lifecycle)
  nextHandle : Handle
  published : List Published
  deriving DecidableEq, Repr

namespace Controls

def root : Handle := 0

def start (name : String) : Controls :=
  ⟨[(root, .started)], [], root + 1, [⟨name, root⟩]⟩

def lifecycle (c : Controls) (h : Handle) : Lifecycle :=
  (c.live.lookup h).getD ((c.retired.lookup h).getD .fresh)

def state (c : Controls) (h : Handle) : RunState := (c.lifecycle h).state

def set (c : Controls) (h : Handle) (l : Lifecycle) : Controls :=
  { c with live := c.live.map fun e => if e.1 = h then (h, l) else e }

def request (c : Controls) (h : Handle) (r : Request) : Except Refusal RunState × Controls :=
  let (reply, l) := (c.lifecycle h).request r
  (reply, c.set h l)

def apply (c : Controls) (h : Handle) (r : Request) : Controls := (c.request h r).2

def enter (c : Controls) (name : String) : Controls :=
  { c with
    live := (c.nextHandle, .started) :: c.live
    nextHandle := c.nextHandle + 1
    published := c.published ++ [⟨name, c.nextHandle⟩] }

def retire (c : Controls) (h : Handle) : Controls :=
  { c with
    live := c.live.filter fun e => e.1 ≠ h
    retired := (h, (c.lifecycle h).apply .finish) :: c.retired
    published := c.published.filter fun p => p.handle ≠ h }

def innermost (c : Controls) : Handle := (c.published.getLast?.map Published.handle).getD root

def invocations (c : Controls) : List (String × RunState) :=
  c.published.map fun p => (p.name, c.state p.handle)

def onInnermost (c : Controls) (r : Request) : Except Refusal RunState × Controls :=
  c.request c.innermost r

def isPaused (state : RunState) : Bool :=
  decide (state = .pausedNow ∨ state = .pausedAtNextLoop)

/-- Resume each of some invocations that is paused; the last reply, if there is any. -/
def resumeEach (c : Controls) : List Handle → Option (Except Refusal RunState) × Controls
  | [] => (none, c)
  | h :: rest =>
    if isPaused (c.state h) then
      let (reply, c) := c.request h .resume
      let (last, c) := c.resumeEach rest
      (some (last.getD reply), c)
    else c.resumeEach rest

def resume (c : Controls) : Except Refusal RunState × Controls :=
  match c.resumeEach (c.published.map Published.handle) with
  | (some reply, c) => (reply, c)
  | (none, c) => c.onInnermost .resume

def stop (c : Controls) : Except Refusal RunState × Controls :=
  (c.published.reverse.foldl (fun c p => c.apply p.handle .stop) c).request root .stop

inductive Wish where
  | pause | pauseAtLoop | resume | stop | stopAtLoop | step
  deriving DecidableEq, Repr

def grant (c : Controls) : Wish → Except Refusal RunState × Controls
  | .pause => c.onInnermost .pause
  | .pauseAtLoop => c.onInnermost .pauseAtLoop
  | .resume => c.resume
  | .stop => c.stop
  | .stopAtLoop => c.onInnermost .stopAtLoop
  | .step => c.onInnermost .step

end Controls
end MacroEngine
