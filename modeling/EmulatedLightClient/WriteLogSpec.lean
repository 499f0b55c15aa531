import EmulatedLightClient.Memory

/-!
# What a write log does

`Pending base w` holds of a log opened on an allocator with contents `base`.
`view w` is what the allocator is going to hold after a commit. Requests change
the view the way they would change a heap; a commit makes the view real and
dropping the log brings `base` back.
-/

namespace Memory

namespace WriteLog

variable {A V : Type} [LawfulAllocator A V] {base : Ptr → Option V} {w : WriteLog A V}

def applyAll (heap : Ptr → Option V) (writes : List (Ptr × V)) : Ptr → Option V :=
  writes.foldl (fun heap (p, v) => Function.update heap p (some v)) heap

def view (w : WriteLog A V) (p : Ptr) : Option V :=
  if p ∈ w.freed then none else applyAll (cell w.alloc) w.writeLog p

structure Pending (base : Ptr → Option V) (w : WriteLog A V) : Prop where
  freed_nodup : w.freed.Nodup
  freed_live : ∀ p ∈ w.freed, (cell w.alloc p).isSome
  written_live : ∀ c ∈ w.writeLog, (cell w.alloc c.1).isSome
  allocated_nodup : w.allocated.Nodup
  allocated_live : ∀ p ∈ w.allocated, (cell w.alloc p).isSome
  allocated_fresh : ∀ p ∈ w.allocated, base p = none
  others : ∀ p, p ∉ w.allocated → cell w.alloc p = base p

theorem applyAll_append (heap : Ptr → Option V) (writes : List (Ptr × V)) (p : Ptr) (v : V) :
    applyAll heap (writes ++ [(p, v)]) = Function.update (applyAll heap writes) p (some v) := by
  simp [applyAll]

theorem applyAll_of_unwritten {heap : Ptr → Option V} {writes : List (Ptr × V)} {p : Ptr}
    (h : ∀ c ∈ writes, c.1 ≠ p) : applyAll heap writes p = heap p := by
  induction writes generalizing heap with
  | nil => rfl
  | cons c rest ih =>
    have hne : p ≠ c.1 := fun he => h c (by simp) he.symm
    change applyAll (Function.update heap c.1 (some c.2)) rest p = heap p
    rw [ih fun d hd => h d (by simp [hd]), Function.update_of_ne hne]

theorem applyAll_update {heap : Ptr → Option V} {writes : List (Ptr × V)} {p : Ptr}
    {o : Option V} (h : ∀ c ∈ writes, c.1 ≠ p) :
    applyAll (Function.update heap p o) writes = Function.update (applyAll heap writes) p o := by
  induction writes generalizing heap with
  | nil => rfl
  | cons c rest ih =>
    have hne : p ≠ c.1 := fun he => h c (by simp) he.symm
    change applyAll (Function.update (Function.update heap p o) c.1 (some c.2)) rest = _
    rw [Function.update_comm hne]
    exact ih fun d hd => h d (by simp [hd])

theorem applyAll_isSome {heap : Ptr → Option V} {writes : List (Ptr × V)} {p : Ptr}
    (h : (heap p).isSome) : (applyAll heap writes p).isSome := by
  induction writes generalizing heap with
  | nil => exact h
  | cons c rest ih =>
    change (applyAll (Function.update heap c.1 (some c.2)) rest p).isSome
    apply ih
    by_cases hp : p = c.1
    · simp [hp]
    · simpa [hp] using h

theorem applyAll_of_none {heap : Ptr → Option V} {writes : List (Ptr × V)}
    (hw : ∀ c ∈ writes, (heap c.1).isSome) {p : Ptr} (h : heap p = none) :
    applyAll heap writes p = none := by
  rw [applyAll_of_unwritten, h]
  intro c hc he
  have hs := hw c hc
  rw [he, h] at hs
  cases hs

theorem pending_new (a : A) : Pending (cell a) (new a) := by
  constructor <;> simp [new]

theorem view_new (a : A) : view (new a) = cell a := by
  funext p
  simp [view, new, applyAll]

/-- Reads bypass the log: what was in the allocator stays readable. -/
theorem Pending.get_base (h : Pending base w) {p : Ptr} {v : V} (hp : base p = some v) :
    Allocator.get w.alloc p = some v := by
  apply LawfulAllocator.get_of_cell
  rw [h.others p fun hm => by simp [h.allocated_fresh p hm] at hp]
  exact hp

theorem Pending.live_of_view (h : Pending base w) {p : Ptr} {v : V} (hv : w.view p = some v) :
    p ∉ w.freed ∧ (cell w.alloc p).isSome := by
  unfold view at hv
  split at hv
  · cases hv
  · rename_i hf
    refine ⟨hf, ?_⟩
    cases hc : cell w.alloc p with
    | some _ => rfl
    | none =>
      rw [applyAll_of_none h.written_live hc] at hv
      cases hv

theorem Pending.set (h : Pending base w) {p : Ptr} {v : V} (hp : w.view p = some v) (v' : V) :
    Pending base (w.set p v') ∧ (w.set p v').view = Function.update w.view p (some v') := by
  obtain ⟨hf, hl⟩ := h.live_of_view hp
  refine ⟨{ h with written_live := ?_ }, ?_⟩
  · intro c hc
    rcases List.mem_append.mp hc with hc | hc
    · exact h.written_live c hc
    · rw [List.mem_singleton.mp hc]
      exact hl
  · funext q
    simp only [view, WriteLog.set, applyAll_append]
    by_cases hq : q = p
    · subst hq
      simp [hf]
    · simp [hq, view]

theorem Pending.free (h : Pending base w) {p : Ptr} {v : V} (hp : w.view p = some v) :
    Pending base (w.free p) ∧ (w.free p).view = Function.update w.view p none := by
  obtain ⟨hf, hl⟩ := h.live_of_view hp
  refine ⟨{ h with freed_nodup := ?_, freed_live := ?_ }, ?_⟩
  · exact List.nodup_cons.mpr ⟨hf, h.freed_nodup⟩
  · intro q hq
    rcases List.mem_cons.mp hq with rfl | hq
    · exact hl
    · exact h.freed_live q hq
  · funext q
    by_cases hq : q = p
    · subst hq
      simp [view, WriteLog.free]
    · simp [view, WriteLog.free, hq]

/-- A request takes a block back from those to free, if there is one. -/
theorem Pending.reuse (h : Pending base w) {p : Ptr} {freed : List Ptr} (hfreed : w.freed = p :: freed)
    (v : V) :
    Pending base ({ w with freed := freed }.set p v) ∧ w.view p = none ∧
      ({ w with freed := freed }.set p v).view = Function.update w.view p (some v) := by
  have hnd := h.freed_nodup
  rw [hfreed, List.nodup_cons] at hnd
  have hl : (cell w.alloc p).isSome := h.freed_live p (by simp [hfreed])
  refine ⟨{ h with freed_nodup := hnd.2, freed_live := ?_, written_live := ?_ }, ?_, ?_⟩
  · intro q hq
    exact h.freed_live q (by rw [hfreed]; exact List.mem_cons_of_mem _ hq)
  · intro c hc
    rcases List.mem_append.mp hc with hc | hc
    · exact h.written_live c hc
    · rw [List.mem_singleton.mp hc]
      exact hl
  · simp [view, hfreed]
  · funext q
    simp only [view, WriteLog.set, applyAll_append]
    by_cases hq : q = p
    · subst hq
      simp [hnd.1]
    · simp [hq, view, hfreed]

/-- With no block to free the request goes to the allocator. -/
theorem Pending.grow (h : Pending base w) {p : Ptr} {v : V} {alloc : A} (hfreed : w.freed = [])
    (halloc : Allocator.alloc w.alloc v = (.ok p, alloc)) :
    Pending base { w with alloc, allocated := w.allocated ++ [p] } ∧ w.view p = none ∧
      view { w with alloc, allocated := w.allocated ++ [p] } = Function.update w.view p (some v) := by
  obtain ⟨hnone, hcell⟩ := LawfulAllocator.alloc_ok halloc
  have hkeep : ∀ q, (cell w.alloc q).isSome → (cell alloc q).isSome := by
    intro q hq
    rw [hcell]
    by_cases hqp : q = p
    · simp [hqp]
    · simpa [hqp] using hq
  have hnew : p ∉ w.allocated := fun hm => by
    have := h.allocated_live p hm
    simp [hnone] at this
  refine ⟨⟨h.freed_nodup, ?_, fun c hc => hkeep _ (h.written_live c hc), ?_, ?_, ?_, ?_⟩, ?_, ?_⟩
  · simp [hfreed]
  · exact List.nodup_append.mpr ⟨h.allocated_nodup, by simp, by
      intro a ha b hb he
      rw [List.mem_singleton.mp hb] at he
      exact hnew (he ▸ ha)⟩
  · intro q hq
    rcases List.mem_append.mp hq with hq | hq
    · exact hkeep q (h.allocated_live q hq)
    · rw [List.mem_singleton.mp hq, hcell]
      simp
  · intro q hq
    rcases List.mem_append.mp hq with hq | hq
    · exact h.allocated_fresh q hq
    · rw [List.mem_singleton.mp hq, ← h.others p hnew, hnone]
  · intro q hq
    have hq := List.mem_append.not.mp hq
    rw [not_or, List.mem_singleton] at hq
    rw [hcell, Function.update_of_ne hq.2, h.others q hq.1]
  · simp only [view, hfreed, List.not_mem_nil, if_false]
    exact applyAll_of_none h.written_live hnone
  · funext q
    have hun : ∀ c ∈ w.writeLog, c.1 ≠ p := by
      intro c hc he
      have := h.written_live c hc
      simp [he, hnone] at this
    simp only [view, hfreed, List.not_mem_nil, if_false, hcell, applyAll_update hun]
    by_cases hq : q = p
    · simp [hq]
    · simp [hq, view, hfreed]

/-- Only the contents of the allocator matter to a log. -/
theorem Pending.of_cell_eq (h : Pending base w) {alloc : A} (hcell : cell alloc = cell w.alloc) :
    Pending base { w with alloc } ∧ view { w with alloc } = w.view := by
  refine ⟨⟨h.freed_nodup, ?_, ?_, h.allocated_nodup, ?_, h.allocated_fresh, ?_⟩, ?_⟩
  · simpa only [hcell] using h.freed_live
  · simpa only [hcell] using h.written_live
  · simpa only [hcell] using h.allocated_live
  · simpa only [hcell] using h.others
  · funext q
    simp only [view, hcell]

/-- A successful request returns a block the view did not hold; a failed one
changes nothing. -/
theorem Pending.allocate (h : Pending base w) (v : V) :
    match w.allocate v with
    | (.ok p, w') => Pending base w' ∧ w.view p = none ∧
        w'.view = Function.update w.view p (some v)
    | (.error _, w') => Pending base w' ∧ w'.view = w.view := by
  unfold WriteLog.allocate
  cases hfreed : w.freed with
  | cons p freed => exact h.reuse hfreed v
  | nil =>
    simp only
    cases halloc : Allocator.alloc w.alloc v with
    | mk r alloc =>
      cases r with
      | ok p =>
        have hgrow := h.grow hfreed halloc
        rwa [hfreed] at hgrow
      | error e =>
        have hsame := h.of_cell_eq (LawfulAllocator.alloc_error halloc)
        rwa [hfreed] at hsame

/-- A log over an allocator which serves the request does not run out of memory. -/
theorem allocate_of_serves {n : Nat} (hs : Serves (n + 1) w.alloc) (v : V) :
    ∃ p w', w.allocate v = (.ok p, w') ∧ Serves n w'.alloc := by
  unfold WriteLog.allocate
  cases w.freed with
  | cons p freed => exact ⟨p, _, rfl, hs.mono (Nat.le_succ n)⟩
  | nil =>
    obtain ⟨p, a', halloc, hs'⟩ := hs v
    simp only [halloc]
    exact ⟨p, _, rfl, hs'⟩

theorem setAll_spec {a : A} {writes : List (Ptr × V)} (h : ∀ c ∈ writes, (cell a c.1).isSome) :
    ∃ a', setAll a writes = some a' ∧ cell a' = applyAll (cell a) writes := by
  induction writes generalizing a with
  | nil => exact ⟨a, rfl, rfl⟩
  | cons c rest ih =>
    obtain ⟨v, hv⟩ := Option.isSome_iff_exists.mp (h c (by simp))
    obtain ⟨a₁, hset, hcell⟩ := LawfulAllocator.set_of_cell c.2 hv
    have hrest : ∀ d ∈ rest, (cell a₁ d.1).isSome := by
      intro d hd
      rw [hcell]
      by_cases he : d.1 = c.1
      · simp [he]
      · simpa [he] using h d (by simp [hd])
    obtain ⟨a', hall, hc'⟩ := ih hrest
    refine ⟨a', ?_, ?_⟩
    · simp [setAll, hset, hall]
    · rw [hc', hcell]
      rfl

theorem freeAll_spec {a : A} {ptrs : List Ptr} (hnd : ptrs.Nodup)
    (h : ∀ p ∈ ptrs, (cell a p).isSome) :
    ∃ a', freeAll a ptrs = some a' ∧
      ∀ p, cell a' p = if p ∈ ptrs then none else cell a p := by
  induction ptrs generalizing a with
  | nil => exact ⟨a, rfl, by simp⟩
  | cons p rest ih =>
    obtain ⟨hp, hnd⟩ := List.nodup_cons.mp hnd
    obtain ⟨v, hv⟩ := Option.isSome_iff_exists.mp (h p (by simp))
    obtain ⟨a₁, hfree, hcell⟩ := LawfulAllocator.free_of_cell hv
    have hrest : ∀ q ∈ rest, (cell a₁ q).isSome := by
      intro q hq
      have hne : q ≠ p := fun he => hp (he ▸ hq)
      rw [hcell, Function.update_of_ne hne]
      exact h q (by simp [hq])
    obtain ⟨a', hall, hc'⟩ := ih hnd hrest
    refine ⟨a', by simp [freeAll, hfree, hall], ?_⟩
    intro q
    rw [hc', hcell]
    by_cases hq : q = p
    · subst hq
      simp
    · simp [hq]

/-- A commit makes the view real. -/
theorem Pending.commit (h : Pending base w) : ∃ a, w.commit = some a ∧ cell a = w.view := by
  obtain ⟨a₁, hset, hcell⟩ := setAll_spec h.written_live
  obtain ⟨a, hfree, hc⟩ := freeAll_spec (a := a₁) (List.nodup_reverse.mpr h.freed_nodup) (by
    intro p hp
    rw [hcell]
    exact applyAll_isSome (h.freed_live p (List.mem_reverse.mp hp)))
  refine ⟨a, by simp [WriteLog.commit, hset, hfree], ?_⟩
  funext p
  rw [hc, hcell]
  simp [view]

/-- Dropping the log leaves the allocator as it was found. -/
theorem Pending.drop (h : Pending base w) : ∃ a, w.drop = some a ∧ cell a = base := by
  obtain ⟨a, hfree, hc⟩ := freeAll_spec h.allocated_nodup h.allocated_live
  refine ⟨a, hfree, ?_⟩
  funext p
  rw [hc]
  split
  · rename_i hm
    exact (h.allocated_fresh p hm).symm
  · rename_i hm
    exact h.others p hm

end WriteLog

end Memory
