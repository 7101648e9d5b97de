import MacroEngine.Proofs.Gameplay
import Mathlib.Algebra.Group.Nat.Defs

/-! The stock of a simulated game. Of an item there are as many as before but for those that were
used, whatever else is asked of the game. Counts are kept in 32 bits, which their sum may not fit:
such an item is not counted at all. -/
namespace MacroEngine
open Number

namespace ItemStack

variable {stack : ItemStack} {hq : Bool}

theorem count_spend (h : stack.count hq ≠ 0) (quality : Bool) :
    ((stack.spend hq).count quality).toNat + (if quality = hq then 1 else 0) =
      (stack.count quality).toNat := by
  have hone : ∀ n : UInt32, n ≠ 0 → (n - 1).toNat + 1 = n.toNat := by
    intro n hn
    have hpos : 1 ≤ n := by
      rw [UInt32.le_iff_toNat_le]
      have hne : n.toNat ≠ 0 := fun hzero => hn (UInt32.toNat_inj.mp hzero)
      exact Nat.one_le_iff_ne_zero.mpr hne
    rw [UInt32.toNat_sub_of_le _ _ hpos]
    rw [UInt32.le_iff_toNat_le] at hpos
    exact Nat.sub_add_cancel hpos
  cases hq <;> cases quality <;> simp_all [count, spend]

end ItemStack

namespace World

variable {table : List (String × α)} {name other : String} {value : α}

theorem find?_congr (h : sameName name other = true) (table : List (String × α)) :
    find? table name = find? table other := by
  have hkey : nameKey name = nameKey other := of_decide_eq_true h
  unfold find? sameName
  rw [hkey]

theorem find?_cons (e : String × α) (table : List (String × α)) (name : String) :
    find? (e :: table) name = if sameName e.1 name then some e.2 else find? table name := by
  unfold find?
  rw [List.find?_cons]
  cases sameName e.1 name <;> rfl

theorem find?_replace (h : (find? table name).isSome = true) (value : α) :
    find? (replace table name value) name = some value := by
  induction table with
  | nil => cases h
  | cons e table ih =>
    rw [replace]
    rw [find?_cons] at h
    by_cases he : sameName e.1 name = true
    · rw [if_pos he, find?_cons, if_pos he]
    · rw [if_neg he] at h
      rw [if_neg he, find?_cons, if_neg he, ih h]

theorem find?_replace_of_ne (h : sameName name other = false) (table : List (String × α))
    (value : α) : find? (replace table name value) other = find? table other := by
  induction table with
  | nil => rfl
  | cons e table ih =>
    rw [replace]
    by_cases he : sameName e.1 name = true
    · have hkey : nameKey e.1 = nameKey name := of_decide_eq_true he
      have hother : sameName e.1 other = sameName name other := by rw [sameName, hkey]; rfl
      rw [if_pos he, find?_cons, find?_cons, hother, h]
      rfl
    · rw [if_neg he, find?_cons, find?_cons, ih]

def holding (w : World) (name : String) (hq : Bool) : Nat :=
  ((find? w.inventory name).map fun stack => (stack.count hq).toNat).getD 0

/-- An item that is used is one fewer of its quality; of all others there are as many as before. -/
theorem holding_spend {w : World} {item : String} {hq : Bool} {stack : ItemStack}
    (found : find? w.inventory item = some stack) (left : stack.count hq ≠ 0) (name : String)
    (quality : Bool) :
    w.holding name quality =
      holding { w with inventory := replace w.inventory item (stack.spend hq) } name quality +
        if sameName item name ∧ quality = hq then 1 else 0 := by
  unfold holding
  cases hsame : sameName item name with
  | true =>
    have hsome : (find? w.inventory item).isSome = true := by rw [found]; rfl
    rw [← find?_congr hsame, ← find?_congr hsame, found, find?_replace hsome]
    have hcount := ItemStack.count_spend left quality
    simp only [Option.map_some, Option.getD_some, true_and]
    exact hcount.symm
  | false =>
    rw [find?_replace_of_ne hsame]
    simp

def stock (w : World) (name : String) : Nat := w.holding name false + w.holding name true

theorem itemCount_all (w : World) (name : String) :
    w.itemCount name false = if w.stock name < 2 ^ 32 then some (w.stock name) else none := by
  unfold itemCount stock holding
  cases find? w.inventory name <;> rfl

theorem itemCount_hq (w : World) (name : String) :
    w.itemCount name true = some (w.holding name true) := by
  unfold itemCount holding
  cases find? w.inventory name <;> rfl

end World

def Call.item? : Call → Option (String × Bool)
  | .order (.item name hq) => some (name, hq)
  | _ => none

def times (name : String) (hq : Bool) (used : List (String × Bool)) : Nat :=
  used.countP fun use => sameName use.1 name ∧ hq = use.2

theorem times_append (name : String) (hq : Bool) (used more : List (String × Bool)) :
    times name hq (used ++ more) = times name hq used + times name hq more :=
  List.countP_append

theorem times_one (name : String) (hq : Bool) (use : String × Bool) :
    times name hq [use] = if sameName use.1 name ∧ hq = use.2 then 1 else 0 := by
  simp [times, List.countP_cons]

namespace Simulation

variable {s t : Simulation} {now : Moment} {call : Call} {ticket : Option Ticket} {deed : Deed}

/-- Only the use of an item takes anything from the stock. -/
theorem Taken.holding (h : Taken s now call ticket deed t) (name : String) (quality : Bool) :
    s.world.holding name quality =
      t.world.holding name quality + times name quality call.item?.toList := by
  cases h with
  | item found usable left =>
    rw [Call.item?, Option.toList_some, times_one]
    exact World.holding_spend found left name quality
  | action | recipe | target | click | keys | native | echo | notice => rfl

end Simulation

namespace Gameplay

def usedBy (p : Gameplay) : Happening → List (String × Bool)
  | .call call => if (p.answered call).1.isOk then call.item?.toList else []
  | .update _ | .pass _ => []

def uses (p : Gameplay) (name : String) (hq : Bool) (history : List Happening) : Nat :=
  times name hq (told usedBy p history)

def count (p : Gameplay) (name : String) (hq : Bool) : Option Nat :=
  (p.game.view p.now).itemCount name hq

variable {p : Gameplay} {name : String}

theorem holding_step (p : Gameplay) {h : Happening} (hkept : ∀ world, h ≠ .update world)
    (name : String) (hq : Bool) :
    p.game.world.holding name hq =
      (p.step h).game.world.holding name hq + times name hq (p.usedBy h) := by
  cases h with
  | update world => exact absurd rfl (hkept world)
  | pass span => rfl
  | call call =>
    change _ = (p.answered call).2.world.holding name hq + _
    rw [usedBy, answered]
    rcases Simulation.answered_cases p.game p.now call with ⟨rfl, hanswered⟩ |
      ⟨_, error, hanswered⟩ | ⟨ticket, deed, t, htaken, hanswered⟩
    · rw [hanswered]
      rfl
    · rw [hanswered]
      rfl
    · rw [hanswered]
      exact htaken.holding name hq

theorem holding_after (p : Gameplay) (history : List Happening)
    (hkept : ∀ world, .update world ∉ history) (name : String) (hq : Bool) :
    p.game.world.holding name hq =
      (p.after history).game.world.holding name hq + p.uses name hq history := by
  have hnone : p.game.world.holding name hq =
    p.game.world.holding name hq + times name hq [] := rfl
  refine told_keeps (fun q used => p.game.world.holding name hq =
    q.game.world.holding name hq + times name hq used) history ?_ hnone
  intro q used h hmem hsofar
  have hstep := holding_step q (fun world heq => hkept world (heq ▸ hmem)) name hq
  rw [hsofar, hstep, times_append]
  omega

theorem count_hq (p : Gameplay) (name : String) :
    p.count name true = some (p.game.world.holding name true) :=
  World.itemCount_hq p.game.world name

theorem count_all (p : Gameplay) (name : String) :
    p.count name false =
      if p.game.world.stock name < 2 ^ 32 then some (p.game.world.stock name) else none :=
  World.itemCount_all p.game.world name

/-- Conservation of items, as long as the world is not replaced. Of each quality of each item there
are as many as there were, but for those that were used. Those of high quality are always counted;
the sum of both qualities is, also as the answer to a query, exactly if 32 bits can hold it. If they
can hold it at first then there is a count before and after, which is less by the number of uses and
never less than those of high quality alone; without a use both counts are as they were. -/
theorem items_conserved (p : Gameplay) (history : List Happening)
    (hkept : ∀ world, .update world ∉ history) (name : String) :
    let q := p.after history
    let uses := p.uses name false history + p.uses name true history
    (∀ hq, p.game.world.holding name hq =
      q.game.world.holding name hq + p.uses name hq history) ∧
    q.count name true = some (q.game.world.holding name true) ∧
    (q.count name false =
      if q.game.world.stock name < 2 ^ 32 then some (q.game.world.stock name) else none) ∧
    (q.game.view q.now).answer (.item name) =
      (q.count name false).map (fun n => String.ofList (digits n)) ∧
    (p.game.world.stock name < 2 ^ 32 → ∃ before after,
      p.count name false = some before ∧ q.count name false = some after ∧
      before = after + uses ∧ q.game.world.holding name true ≤ after ∧
      (uses = 0 → ∀ hq, q.count name hq = p.count name hq)) := by
  intro q uses
  have hleft : ∀ hq, p.game.world.holding name hq =
      q.game.world.holding name hq + p.uses name hq history :=
    holding_after p history hkept name
  have hnq := hleft false
  have hhq := hleft true
  have hstock : p.game.world.stock name = q.game.world.stock name + uses := by
    unfold World.stock
    omega
  refine ⟨hleft, count_hq q name, count_all q name, rfl, fun hfits => ?_⟩
  have hbefore : p.count name false = some (p.game.world.stock name) := by
    rw [count_all, if_pos hfits]
  have hafter : q.count name false = some (q.game.world.stock name) := by
    rw [count_all, if_pos (by omega)]
  refine ⟨_, _, hbefore, hafter, hstock, Nat.le_add_left _ _, fun hnone hq => ?_⟩
  cases hq with
  | false =>
    rw [hbefore, hafter, hstock, hnone]
    rfl
  | true =>
    have hsame : q.game.world.holding name true = p.game.world.holding name true := by omega
    rw [count_hq, count_hq, hsame]

def apothecary : Gameplay :=
  start 0 { inventory := [("Tincture", ⟨2, 1, true⟩), ("Stew", ⟨1, 0, true⟩)] } none

def cure : List Happening :=
  [.call (.order (.item "tincture" true)), .call (.order (.item "Tincture" true)), .pass 100,
    .call (.order (.item " TINCTURE" false)), .call (.order (.item "Broth" false))]

theorem items_conserved_cure :
    (∀ world, .update world ∉ cure) ∧
    apothecary.game.world.stock "Tincture" < 2 ^ 32 ∧
    apothecary.game.world.stock "Stew" < 2 ^ 32 ∧
    apothecary.uses "Tincture" false cure + apothecary.uses "Tincture" true cure = 2 ∧
    apothecary.count "Tincture" false = some 3 ∧
    (apothecary.after cure).count "Tincture" false = some 1 ∧
    apothecary.uses "Stew" false cure + apothecary.uses "Stew" true cure = 0 ∧
    (apothecary.after cure).count "Stew" false = apothecary.count "Stew" false := by
  have hkept : ∀ world, .update world ∉ cure := by
    intro world
    simp [cure]
  have htincture : apothecary.game.world.stock "Tincture" < 2 ^ 32 := by decide +kernel
  have hstew : apothecary.game.world.stock "Stew" < 2 ^ 32 := by decide +kernel
  have htwice : apothecary.uses "Tincture" false cure +
      apothecary.uses "Tincture" true cure = 2 := by decide +kernel
  have hnone : apothecary.uses "Stew" false cure + apothecary.uses "Stew" true cure = 0 := by
    decide +kernel
  have hthree : apothecary.count "Tincture" false = some 3 := by decide +kernel
  obtain ⟨_, _, _, _, hcounted⟩ := items_conserved apothecary cure hkept "Tincture"
  obtain ⟨before, after, hbefore, hafter, hless, _⟩ := hcounted htincture
  obtain ⟨_, _, _, _, huntouched⟩ := items_conserved apothecary cure hkept "Stew"
  obtain ⟨_, _, _, _, _, _, hsame⟩ := huntouched hstew
  refine ⟨hkept, htincture, hstew, htwice, hthree, ?_, hnone, hsame hnone false⟩
  have heq : before = 3 := Option.some.inj (hbefore.symm.trans hthree)
  rw [htwice] at hless
  have hone : after = 1 := by omega
  rw [hafter, hone]

/-- A file with counts that 32 bits can hold, while they cannot hold the sum. -/
def hoardText : String :=
  "\x7b\"inventory\": \x7b\"Tincture\": \x7b\"nq\": 4294967295, \"hq\": 1, \"usable\": true\x7d\x7d\x7d"

/-- Such an item has no count until one of it is used. -/
theorem hoard_uncounted : ∃ world, World.ofText? hoardText = some world ∧
    (world.inventory.map fun e => nameKey e.1).Nodup ∧
    (start 0 world none).game.world.stock "Tincture" = 4294967296 ∧
    (start 0 world none).count "Tincture" false = none ∧
    (start 0 world none).count "Tincture" true = some 1 ∧
    (start 0 world none).uses "Tincture" false [.call (.order (.item "Tincture" false))] = 1 ∧
    ((start 0 world none).after [.call (.order (.item "Tincture" false))]).count
      "Tincture" false = some 4294967295 := by
  have hread : World.ofText? hoardText =
    some { inventory := [("Tincture", ⟨4294967295, 1, true⟩)] } := by decide +kernel
  refine ⟨_, hread, ?_, ?_, ?_, ?_, ?_, ?_⟩ <;> decide +kernel

end Gameplay
end MacroEngine
