import MacroEngine.Run.Controls

/-! Lifecycles by handle. A change under one handle leaves every other lifecycle as it was, so a
property of the lifecycles of a stack is kept as soon as each changed lifecycle keeps it. -/
namespace MacroEngine
namespace Controls

variable {c : Controls} {h k : Handle} {l : Lifecycle} {Q : Lifecycle → Prop} {hs : List Handle}

def Live (c : Controls) (h : Handle) : Prop := (c.live.lookup h).isSome

theorem lookup_cons_of_ne {i : Handle} (es : List (Handle × Lifecycle)) (hk : k ≠ i) :
    ((i, l) :: es).lookup k = es.lookup k := by
  rw [List.lookup_cons, beq_false_of_ne hk]

theorem lookup_replace (es : List (Handle × Lifecycle)) (h k : Handle) (l : Lifecycle) :
    (es.map fun e => if e.1 = h then (h, l) else e).lookup k =
      if k = h then (es.lookup k).map fun _ => l else es.lookup k := by
  induction es with
  | nil => simp
  | cons e es ih =>
    obtain ⟨i, m⟩ := e
    by_cases hi : i = h
    · subst hi
      by_cases hk : k = i
      · simp [hk]
      · simpa [lookup_cons_of_ne _ hk, hk] using ih
    · by_cases hk : k = i
      · simp [hk, hi]
      · simpa [lookup_cons_of_ne _ hk, hi] using ih

theorem lookup_removed (es : List (Handle × Lifecycle)) (hk : k ≠ h) :
    (es.filter fun e => e.1 ≠ h).lookup k = es.lookup k := by
  induction es with
  | nil => rfl
  | cons e es ih =>
    obtain ⟨i, m⟩ := e
    by_cases hi : i = h
    · subst hi
      simpa [lookup_cons_of_ne _ hk] using ih
    · by_cases hki : k = i
      · simp [hi, hki]
      · simpa [lookup_cons_of_ne _ hki, hi] using ih

theorem live_set : (c.set h l).Live k ↔ c.Live k := by
  unfold Live set
  rw [lookup_replace]
  split <;> simp

theorem lifecycle_set_self (hl : c.Live h) : (c.set h l).lifecycle h = l := by
  obtain ⟨m, hm⟩ := Option.isSome_iff_exists.mp hl
  simp [lifecycle, set, lookup_replace, hm]

theorem lifecycle_set_of_ne (hk : k ≠ h) : (c.set h l).lifecycle k = c.lifecycle k := by
  simp [lifecycle, set, lookup_replace, hk]

theorem live_enter (hl : c.Live k) : (c.enter name).Live k := by
  unfold Live enter
  rw [List.lookup_cons]
  split
  · rfl
  · exact hl

theorem live_enter_self : (c.enter name).Live c.nextHandle := by
  simp [Live, enter]

theorem lifecycle_enter_self : (c.enter name).lifecycle c.nextHandle = .started := by
  simp [lifecycle, enter]

theorem lifecycle_enter_of_ne (hk : k ≠ c.nextHandle) :
    (c.enter name).lifecycle k = c.lifecycle k := by
  simp [lifecycle, enter, lookup_cons_of_ne _ hk]

theorem live_retire (hk : k ≠ h) (hl : c.Live k) : (c.retire h).Live k := by
  unfold Live retire
  rwa [lookup_removed _ hk]

theorem lifecycle_retire_of_ne (hk : k ≠ h) : (c.retire h).lifecycle k = c.lifecycle k := by
  unfold lifecycle
  rw [retire, lookup_removed _ hk]
  rw [lookup_cons_of_ne _ hk]

/-- The handles of a stack, innermost first: each is live, was given out after those below it,
and has a lifecycle with the property. -/
structure Governs (Q : Lifecycle → Prop) (hs : List Handle) (c : Controls) : Prop where
  descending : hs.Pairwise (· > ·)
  given : ∀ h ∈ hs, h < c.nextHandle
  live : ∀ h ∈ hs, c.Live h
  holds : ∀ h ∈ hs, Q (c.lifecycle h)

theorem Governs.start (hq : Q .started) (name : String) : Governs Q [root] (start name) where
  descending := by simp
  given := by simp [Controls.start]
  live := by simp [Live, Controls.start]
  holds := by simpa [lifecycle, Controls.start] using hq

theorem Governs.set (hc : Governs Q hs c) (hq : h ∈ hs → Q l) : Governs Q hs (c.set h l) where
  descending := hc.descending
  given := hc.given
  live k hk := live_set.mpr (hc.live k hk)
  holds k hk := by
    by_cases he : k = h
    · subst he
      rw [lifecycle_set_self (hc.live k hk)]
      exact hq hk
    · rw [lifecycle_set_of_ne he]
      exact hc.holds k hk

theorem Governs.apply (hc : Governs Q hs c) (h : Handle) {r : Request}
    (hr : ∀ l, Q l → Q (l.apply r)) : Governs Q hs (c.apply h r) :=
  hc.set fun hm => hr _ (hc.holds h hm)

theorem Governs.enter (hc : Governs Q hs c) (hq : Q .started) (name : String) :
    Governs Q (c.nextHandle :: hs) (c.enter name) where
  descending := List.pairwise_cons.mpr ⟨hc.given, hc.descending⟩
  given k hk := by
    change k < c.nextHandle + 1
    rcases List.mem_cons.mp hk with rfl | hk
    · exact Nat.lt_succ_self _
    · exact Nat.lt_succ_of_lt (hc.given k hk)
  live k hk := by
    rcases List.mem_cons.mp hk with rfl | hk
    · exact live_enter_self
    · exact live_enter (hc.live k hk)
  holds k hk := by
    rcases List.mem_cons.mp hk with rfl | hk
    · rwa [lifecycle_enter_self]
    · rw [lifecycle_enter_of_ne (Nat.ne_of_lt (hc.given k hk))]
      exact hc.holds k hk

theorem Governs.retire (hc : Governs Q (h :: hs) c) : Governs Q hs (c.retire h) := by
  have hd := List.pairwise_cons.mp hc.descending
  have hne : ∀ k ∈ hs, k ≠ h := fun k hk => Nat.ne_of_lt (hd.1 k hk)
  exact {
    descending := hd.2
    given := fun k hk => hc.given k (List.mem_cons_of_mem h hk)
    live := fun k hk => live_retire (hne k hk) (hc.live k (List.mem_cons_of_mem h hk))
    holds := fun k hk => by
      rw [lifecycle_retire_of_ne (hne k hk)]
      exact hc.holds k (List.mem_cons_of_mem h hk) }

theorem Governs.empty (c : Controls) : Governs Q [] c := by
  constructor <;> simp

theorem Governs.resumeEach (hr : ∀ l, Q l → Q (l.apply .resume)) (ks : List Handle) :
    ∀ {c : Controls}, Governs Q hs c → Governs Q hs (c.resumeEach ks).2 := by
  induction ks with
  | nil => exact fun hc => hc
  | cons k ks ih =>
    intro c hc
    unfold Controls.resumeEach
    split
    · exact ih (hc.apply k hr)
    · exact ih hc

theorem Governs.resume (hc : Governs Q hs c) (hr : ∀ l, Q l → Q (l.apply .resume)) :
    Governs Q hs c.resume.2 := by
  have he := Governs.resumeEach hr (c.published.map Published.handle) hc
  unfold Controls.resume
  split
  · rename_i heq
    rwa [heq] at he
  · rename_i heq
    rw [heq] at he
    exact he.apply _ hr

/-- The request that a wish makes of each invocation it reaches. -/
def Wish.request : Wish → Request
  | .pause => .pause
  | .pauseAtLoop => .pauseAtLoop
  | .resume => .resume
  | .stop => .stop
  | .stopAtLoop => .stopAtLoop
  | .step => .step

theorem Governs.stop (hc : Governs Q hs c) (hr : ∀ l, Q l → Q (l.apply .stop)) :
    Governs Q hs c.stop.2 := by
  have hall : ∀ (ps : List Published) (c : Controls), Governs Q hs c →
      Governs Q hs (ps.foldl (fun c p => c.apply p.handle .stop) c) := by
    intro ps
    induction ps with
    | nil => exact fun _ hc => hc
    | cons p ps ih => exact fun c hc => ih _ (hc.apply p.handle hr)
  exact (hall _ c hc).apply root hr

/-- Whatever a wish reaches, it makes the same request of it. -/
theorem Governs.grant (hc : Governs Q hs c) {w : Wish} (hr : ∀ l, Q l → Q (l.apply w.request)) :
    Governs Q hs (c.grant w).2 := by
  cases w with
  | resume => exact hc.resume hr
  | stop => exact hc.stop hr
  | pause | pauseAtLoop | stopAtLoop | step => exact hc.apply c.innermost hr

theorem lifecycle_set_of_not_live (hl : ¬ c.Live h) : (c.set h l).lifecycle h = c.lifecycle h := by
  have hnone : c.live.lookup h = none := Option.not_isSome_iff_eq_none.mp hl
  simp [lifecycle, set, lookup_replace, hnone]

theorem holds_set (hq : Q (c.lifecycle k)) (hl : k = h → Q l) : Q ((c.set h l).lifecycle k) := by
  by_cases hk : k = h
  · subst hk
    by_cases hlive : c.Live k
    · rw [lifecycle_set_self hlive]
      exact hl rfl
    · rw [lifecycle_set_of_not_live hlive]
      exact hq
  · rw [lifecycle_set_of_ne hk]
    exact hq

/-- Nothing has changed but lifecycles of live handles with the property. -/
structure Tuned (P : Handle → Prop) (c c' : Controls) : Prop where
  published : c'.published = c.published
  nextHandle : c'.nextHandle = c.nextHandle
  live : ∀ k, c'.Live k ↔ c.Live k
  kept : ∀ k, ¬ (P k ∧ c.Live k) → c'.lifecycle k = c.lifecycle k

variable {c' c'' : Controls} {P : Handle → Prop}

theorem Tuned.refl (c : Controls) : Tuned P c c :=
  ⟨rfl, rfl, fun _ => Iff.rfl, fun _ _ => rfl⟩

theorem Tuned.trans (ht : Tuned P c c') (ht' : Tuned P c' c'') : Tuned P c c'' := by
  constructor
  · exact ht'.published.trans ht.published
  · exact ht'.nextHandle.trans ht.nextHandle
  · intro k
    exact (ht'.live k).trans (ht.live k)
  · intro k hk
    exact (ht'.kept k (by rwa [ht.live k])).trans (ht.kept k hk)

theorem tuned_set (hp : P h) (l : Lifecycle) : Tuned P c (c.set h l) := by
  constructor
  · rfl
  · rfl
  · intro k
    exact live_set
  · intro k hk
    by_cases he : k = h
    · subst he
      exact lifecycle_set_of_not_live fun hl => hk ⟨hp, hl⟩
    · exact lifecycle_set_of_ne he

theorem tuned_resumeEach (ks : List Handle) :
    ∀ c : Controls, Tuned (fun _ => True) c (c.resumeEach ks).2 := by
  induction ks with
  | nil => exact Tuned.refl
  | cons k ks ih =>
    intro c
    unfold resumeEach
    split
    · exact (tuned_set trivial _).trans (ih _)
    · exact ih c

theorem tuned_stopEach (ps : List Published) :
    ∀ c : Controls, Tuned (fun _ => True) c (ps.foldl (fun c p => c.apply p.handle .stop) c) := by
  induction ps with
  | nil => exact Tuned.refl
  | cons p ps ih =>
    intro c
    exact (tuned_set trivial _).trans (ih _)

theorem tuned_grant (c : Controls) (w : Wish) : Tuned (fun _ => True) c (c.grant w).2 := by
  cases w with
  | pause | pauseAtLoop | stopAtLoop | step => exact tuned_set trivial _
  | stop => exact (tuned_stopEach c.published.reverse c).trans (tuned_set trivial _)
  | resume =>
    have heach := tuned_resumeEach (c.published.map Published.handle) c
    change Tuned _ c c.resume.2
    unfold resume
    split <;> rename_i heq <;> rw [heq] at heach
    · exact heach
    · exact heach.trans (tuned_set trivial _)

theorem holds_grant {w : Wish} (hr : ∀ l, Q l → Q (l.apply w.request)) (hk : k < c.nextHandle)
    (hq : Q (c.lifecycle k)) : Q ((c.grant w).2.lifecycle k) := by
  by_cases hl : c.Live k
  · have hsingle : Governs Q [k] c := by
      constructor <;> simp [hk, hl, hq]
    exact (hsingle.grant hr).holds k (List.mem_singleton_self k)
  · rw [(tuned_grant c w).kept k fun hp => hl hp.2]
    exact hq

end Controls
end MacroEngine
