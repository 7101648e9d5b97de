import MacroEngine.Game.Simulation
import MacroEngine.Proofs.Likeness
import Mathlib.Data.List.Forall2

/-! Games to which it makes no difference which lines the notices name that they are given. The
simulated game is one: it puts notices on its trace and never looks at them. -/
namespace MacroEngine

/-- Two states of the game are the same if they differ in such lines at most. -/
structure Client.Blind (client : Client γ) where
  Same : γ → γ → Prop
  refl : ∀ game, Same game game
  view : ∀ {game game'} now, Same game game' → client.view game' now = client.view game now
  issue : ∀ {game game'} now action, Same game game' →
    (client.issue game' now action).1 = (client.issue game now action).1 ∧
      Same (client.issue game now action).2 (client.issue game' now action).2
  perform : ∀ {game game'} now order, Same game game' →
    (client.perform game' now order).1 = (client.perform game now order).1 ∧
      Same (client.perform game now order).2 (client.perform game' now order).2
  echo : ∀ {game game'} now text, Same game game' →
    Same (client.echo game now text) (client.echo game' now text)
  notify : ∀ {game game'} now {text text'}, Same game game' → NoticeAsYielded text text' →
    Same (client.notify game now text) (client.notify game' now text')

namespace Trace

variable {r : α → α → Prop} {t t' : Trace α} {entry entry' : α}

structure Alike (r : α → α → Prop) (t t' : Trace α) : Prop where
  limit : t'.limit = t.limit
  size : t'.size = t.size
  entries : List.Forall₂ r t.toList t'.toList

theorem Alike.append (h : t.Alike r t') (he : r entry entry') :
    (t.append entry).Alike r (t'.append entry') := by
  refine ⟨h.limit, congrArg (· + 1) h.size, ?_⟩
  rw [toList_append, toList_append]
  exact List.rel_append h.entries (.cons he .nil)

theorem Alike.dropOldest (h : t.Alike r t') : t.dropOldest.Alike r t'.dropOldest := by
  refine ⟨?_, ?_, ?_⟩
  · rw [limit_dropOldest, limit_dropOldest, h.limit]
  · rw [size_dropOldest, size_dropOldest, h.size]
  · rw [toList_dropOldest, toList_dropOldest]
    have hentries := h.entries
    generalize t.toList = entries, t'.toList = entries' at hentries
    cases hentries with
    | nil => exact .nil
    | cons _ hrest => exact hrest

theorem Alike.push (h : t.Alike r t') (he : r entry entry') :
    (t.push entry).Alike r (t'.push entry') := by
  have hfull : t'.isFull = t.isFull := by rw [isFull, isFull, h.limit, h.size]
  unfold Trace.push
  rw [h.limit, hfull]
  split
  · exact h
  · split
    · exact h.dropOldest.append he
    · exact h.append he

end Trace

def Deed.AsYielded (deed deed' : Deed) : Prop :=
  deed' = deed ∨
    ∃ text text', deed = .error text ∧ deed' = .error text' ∧ NoticeAsYielded text text'

namespace Simulation

variable {s s' : Simulation}

structure Alike (s s' : Simulation) : Prop where
  world : s'.world = s.world
  trace : s.trace.Alike Deed.AsYielded s'.trace
  issued : s'.issued = s.issued
  nextTicket : s'.nextTicket = s.nextTicket

theorem Alike.record (h : s.Alike s') {deed deed' : Deed} (hd : deed.AsYielded deed') :
    (s.record deed).Alike (s'.record deed') :=
  ⟨h.world, h.trace.push hd, h.issued, h.nextTicket⟩

theorem Alike.accept (h : s.Alike s') (deed : Deed) :
    (s'.accept deed).1 = (s.accept deed).1 ∧ (s.accept deed).2.Alike (s'.accept deed).2 :=
  ⟨rfl, h.record (.inl rfl)⟩

theorem Alike.setWorld (h : s.Alike s') (world : World) :
    ({ s with world := world } : Simulation).Alike { s' with world := world } :=
  ⟨rfl, h.trace, h.issued, h.nextTicket⟩

theorem Alike.useItem (h : s.Alike s') (name : String) (hq : Bool) :
    (s'.useItem name hq).1 = (s.useItem name hq).1 ∧
      (s.useItem name hq).2.Alike (s'.useItem name hq).2 := by
  unfold Simulation.useItem
  rw [h.world]
  cases World.find? s.world.inventory name with
  | none => exact ⟨rfl, h⟩
  | some stack =>
    dsimp only
    by_cases hu : stack.usable = true
    · by_cases hnone : (if hq then stack.hq else stack.nq) = 0
      · simp only [hu, hnone, if_true]
        exact ⟨rfl, h⟩
      · simp only [hu, hnone, if_false]
        exact (h.setWorld _).accept _
    · simp only [hu]
      exact ⟨rfl, h⟩

theorem Alike.perform (h : s.Alike s') (order : Order) :
    (s'.perform order).1 = (s.perform order).1 ∧
      (s.perform order).2.Alike (s'.perform order).2 := by
  cases order with
  | click | keys | native => exact h.accept _
  | item name hq => exact h.useItem name hq
  | recipe name =>
    simp only [Simulation.perform, h.world]
    split
    · exact h.accept _
    · exact ⟨rfl, h⟩
  | target name index list =>
    simp only [Simulation.perform, h.world]
    split
    · exact (h.setWorld _).accept _
    · exact ⟨rfl, h⟩

theorem Alike.issue (h : s.Alike s') (now : Moment) (action : String) :
    (s'.issue now action).1 = (s.issue now action).1 ∧
      (s.issue now action).2.Alike (s'.issue now action).2 := by
  unfold Simulation.issue
  rw [h.world, h.issued, h.nextTicket]
  split
  · exact ⟨rfl, rfl, h.trace.push (.inl rfl), rfl, rfl⟩
  · exact ⟨rfl, h⟩

theorem Alike.view (h : s.Alike s') (now : Moment) : s'.view now = s.view now := by
  unfold Simulation.view isAcknowledged
  simp only [h.world, h.issued]

def blind : client.Blind where
  Same := Alike
  refl _ := ⟨rfl, ⟨rfl, rfl, List.forall₂_same.mpr fun _ _ => .inl rfl⟩, rfl, rfl⟩
  view now h := h.view now
  issue now action h := h.issue now action
  perform _ order h := h.perform order
  echo _ _ h := h.record (.inl rfl)
  notify _ _ _ h ht := h.record (.inr ⟨_, _, rfl, rfl, ht⟩)

end Simulation
end MacroEngine
