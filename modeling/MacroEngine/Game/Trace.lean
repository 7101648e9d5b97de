/-! The latest entries of a history. Entries are kept in two lists, so that both the newest end
and the oldest are at hand. -/
namespace MacroEngine

/-- The last `limit` entries put in, or all of them without a limit. -/
structure Trace (α : Type) where
  limit : Option Nat
  size : Nat
  /-- Oldest first. -/
  front : List α
  /-- Newest first, all of them after those of `front`. -/
  back : List α

namespace Trace

def empty (limit : Option Nat) : Trace α := ⟨limit, 0, [], []⟩

def toList (t : Trace α) : List α := t.front ++ t.back.reverse

def append (t : Trace α) (entry : α) : Trace α :=
  { t with size := t.size + 1, back := entry :: t.back }

def dropOldest (t : Trace α) : Trace α :=
  match t.front with
  | _ :: front => { t with size := t.size - 1, front := front }
  | [] => { t with size := t.size - 1, front := t.back.reverse.tail, back := [] }

def isFull (t : Trace α) : Bool :=
  match t.limit with
  | none => false
  | some limit => limit ≤ t.size

def push (t : Trace α) (entry : α) : Trace α :=
  if t.limit = some 0 then t
  else if t.isFull then t.dropOldest.append entry else t.append entry

theorem toList_append (t : Trace α) (entry : α) :
    (t.append entry).toList = t.toList ++ [entry] := by
  simp [toList, append]

theorem limit_dropOldest (t : Trace α) : t.dropOldest.limit = t.limit := by
  unfold dropOldest
  cases t.front <;> rfl

theorem size_dropOldest (t : Trace α) : t.dropOldest.size = t.size - 1 := by
  unfold dropOldest
  cases t.front <;> rfl

theorem toList_dropOldest (t : Trace α) : t.dropOldest.toList = t.toList.tail := by
  unfold dropOldest toList
  cases h : t.front <;> simp

end Trace
end MacroEngine
