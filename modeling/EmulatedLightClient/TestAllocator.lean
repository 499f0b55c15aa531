import EmulatedLightClient.Memory

/-!
# The pool allocator

Blocks live in a pool which grows up to its capacity; released blocks other
than the last one of the pool wait in a list of free ones. The hash set of the
source is a list here: which free block is handed out first is not specified.
-/

namespace Memory

structure TestAllocator (V : Type) where
  count : Nat
  pool : List V
  freeList : List Ptr
  capacity : Nat
  within : pool.length ≤ capacity
  capacity_le : capacity ≤ Ptr.max - 1
  free_nodup : freeList.Nodup
  free_lt : ∀ p ∈ freeList, p.num.toNat - 1 < pool.length

namespace TestAllocator

variable {V : Type}

def new (capacity : Nat) : TestAllocator V where
  count := 0
  pool := []
  freeList := []
  capacity := min capacity (Ptr.max - 1)
  within := Nat.zero_le _
  capacity_le := Nat.min_le_right _ _
  free_nodup := List.nodup_nil
  free_lt := by simp

/-- Gets index in the memory pool for the given pointer. -/
def indexFromPtr (ptr : Ptr) : Nat := ptr.num.toNat - 1

/-- Converts index in the memory pool into a pointer. -/
def ptrFromIndex (index : Nat) (h : index < Ptr.max) : Ptr where
  num := BitVec.ofNat 32 (index + 1)
  nonzero := by
    intro he
    have := congrArg BitVec.toNat he
    simp only [BitVec.toNat_ofNat, Ptr.max] at *
    omega
  fits := by
    simp only [BitVec.toNat_ofNat, Ptr.max] at *
    omega

/-- Index of the block, unless it is not allocated. -/
def checkAllocated (a : TestAllocator V) (ptr : Ptr) : Option Nat :=
  if indexFromPtr ptr < a.pool.length ∧ ptr ∉ a.freeList then some (indexFromPtr ptr) else none

theorem lt_max_of_lt_capacity {a : TestAllocator V} {index : Nat} (h : index < a.capacity) :
    index < Ptr.max := by
  have := a.capacity_le
  omega

def alloc (a : TestAllocator V) (value : V) : Except OutOfMemory Ptr × TestAllocator V :=
  match h : a.freeList with
  | ptr :: rest =>
    (.ok ptr,
      { a with
        count := a.count + 1
        pool := a.pool.set (indexFromPtr ptr) value
        freeList := rest
        within := by simpa using a.within
        free_nodup := by have := a.free_nodup; rw [h, List.nodup_cons] at this; exact this.2
        free_lt := by
          intro p hp
          rw [List.length_set]
          exact a.free_lt p (by rw [h]; exact List.mem_cons_of_mem _ hp) })
  | [] =>
    if hlt : a.pool.length < a.capacity then
      (.ok (ptrFromIndex a.pool.length (lt_max_of_lt_capacity hlt)),
        { a with
          count := a.count + 1
          pool := a.pool ++ [value]
          within := by rw [List.length_append]; exact hlt
          free_lt := by simp [h] })
    else (.error .outOfMemory, a)

def get (a : TestAllocator V) (ptr : Ptr) : Option V :=
  (a.checkAllocated ptr).bind fun index => a.pool[index]?

def set (a : TestAllocator V) (ptr : Ptr) (value : V) : Option (TestAllocator V) :=
  (a.checkAllocated ptr).map fun index =>
    { a with
      pool := a.pool.set index value
      within := by simpa using a.within
      free_lt := by simpa using a.free_lt }

theorem num_inj {p q : Ptr} (h : indexFromPtr p = indexFromPtr q) : p = q := by
  have hp : p.num.toNat ≠ 0 := fun hz => p.nonzero (BitVec.eq_of_toNat_eq hz)
  have hq : q.num.toNat ≠ 0 := fun hz => q.nonzero (BitVec.eq_of_toNat_eq hz)
  obtain ⟨n, h1, h2⟩ := p
  obtain ⟨m, h3, h4⟩ := q
  have hnm : n = m := BitVec.eq_of_toNat_eq (by simp only [indexFromPtr] at *; omega)
  subst hnm
  rfl

def free (a : TestAllocator V) (ptr : Ptr) : Option (TestAllocator V) :=
  if h : indexFromPtr ptr < a.pool.length ∧ ptr ∉ a.freeList then
    if hlast : indexFromPtr ptr = a.pool.length - 1 then
      some
        { a with
          count := a.count - 1
          pool := a.pool.dropLast
          within := by have := a.within; simp; omega
          free_lt := by
            intro p hp
            have hlt := a.free_lt p hp
            have hne : indexFromPtr p ≠ indexFromPtr ptr := fun he => h.2 (num_inj he ▸ hp)
            simp only [indexFromPtr, List.length_dropLast] at *
            omega }
    else
      some
        { a with
          count := a.count - 1
          freeList := ptr :: a.freeList
          free_nodup := List.nodup_cons.mpr ⟨h.2, a.free_nodup⟩
          free_lt := by
            intro p hp
            rcases List.mem_cons.mp hp with rfl | hp
            · exact h.1
            · exact a.free_lt p hp }
  else none

instance : Allocator (TestAllocator V) V where
  alloc := alloc
  get := get
  set := set
  free := free

theorem get_eq_some {a : TestAllocator V} {p : Ptr} {v : V} :
    a.get p = some v ↔ p ∉ a.freeList ∧ a.pool[indexFromPtr p]? = some v := by
  unfold get checkAllocated
  by_cases h : indexFromPtr p < a.pool.length ∧ p ∉ a.freeList
  · simp [h]
  · rw [if_neg h]
    simp only [Option.bind_none, reduceCtorEq, false_iff, not_and]
    intro hp hv
    exact h ⟨(List.getElem?_eq_some_iff.mp hv).1, hp⟩

theorem checkAllocated_of_get {a : TestAllocator V} {p : Ptr} {v : V} (h : a.get p = some v) :
    indexFromPtr p < a.pool.length ∧ p ∉ a.freeList := by
  obtain ⟨hp, hv⟩ := get_eq_some.mp h
  exact ⟨(List.getElem?_eq_some_iff.mp hv).1, hp⟩

theorem update_iff {f : Ptr → Option V} {p q : Ptr} {o : Option V} {w : V} :
    Function.update f p o q = some w ↔ (q = p ∧ o = some w) ∨ (q ≠ p ∧ f q = some w) := by
  by_cases h : q = p
  · subst h
    simp
  · simp [h]

instance : LawfulAllocator (TestAllocator V) V where
  cell := get
  get_of_cell h := h
  alloc_ok := by
    intro a a' v p h
    change alloc a v = _ at h
    unfold alloc at h
    split at h
    · rename_i ptr rest hfree
      cases h
      have hlt := a.free_lt p (by rw [hfree]; exact List.mem_cons_self ..)
      have hnd := a.free_nodup
      rw [hfree, List.nodup_cons] at hnd
      refine ⟨?_, ?_⟩
      · cases hg : a.get p with
        | none => rfl
        | some w => exact absurd (by rw [hfree]; exact List.mem_cons_self ..) (get_eq_some.mp hg).1
      · funext q
        apply Option.ext
        intro w
        rw [get_eq_some, update_iff, get_eq_some]
        by_cases hq : q = p
        · subst hq
          simp [hnd.1, show indexFromPtr q < a.pool.length from hlt]
        · have hidx : indexFromPtr p ≠ indexFromPtr q := fun he => hq (num_inj he.symm)
          simp [hq, hidx, hfree]
    · rename_i hfree
      split at h
      · rename_i hlt
        cases h
        have hidx : indexFromPtr (ptrFromIndex a.pool.length (by have := a.capacity_le; omega)) =
            a.pool.length := by
          have := a.capacity_le
          simp only [indexFromPtr, ptrFromIndex, BitVec.toNat_ofNat, Ptr.max] at *
          omega
        refine ⟨?_, ?_⟩
        · cases hg : a.get (ptrFromIndex a.pool.length (by have := a.capacity_le; omega)) with
          | none => rfl
          | some w =>
            have := (checkAllocated_of_get hg).1
            omega
        · funext q
          apply Option.ext
          intro w
          rw [get_eq_some, update_iff, get_eq_some]
          by_cases hq : q = ptrFromIndex a.pool.length (by have := a.capacity_le; omega)
          · subst hq
            simp [hfree, hidx]
          · have hne : indexFromPtr q ≠ a.pool.length := fun he => hq (num_inj (he.trans hidx.symm))
            have happ : (a.pool ++ [v])[indexFromPtr q]? = a.pool[indexFromPtr q]? := by
              by_cases hl : indexFromPtr q < a.pool.length
              · rw [List.getElem?_append_left hl]
              · rw [List.getElem?_eq_none (by simp; omega), List.getElem?_eq_none (by omega)]
            simp [hq, happ]
      · cases h
  alloc_error := by
    intro a a' v e h
    change alloc a v = _ at h
    unfold alloc at h
    split at h
    · cases h
    · split at h
      · cases h
      · cases h
        rfl
  set_of_cell := by
    intro a p v v' h
    have hc := checkAllocated_of_get h
    refine ⟨_, by
      change set a p v' = some _
      unfold set checkAllocated
      rw [if_pos hc, Option.map_some], ?_⟩
    funext q
    apply Option.ext
    intro w
    rw [get_eq_some, update_iff, get_eq_some]
    by_cases hq : q = p
    · subst hq
      simp [hc.1, hc.2]
    · have hidx : indexFromPtr p ≠ indexFromPtr q := fun he => hq (num_inj he.symm)
      simp [hq, hidx]
  free_of_cell := by
    intro a p v h
    have hc := checkAllocated_of_get h
    change ∃ a', free a p = some a' ∧ _
    unfold free
    rw [dif_pos hc]
    split
    · rename_i hlast
      refine ⟨_, rfl, ?_⟩
      funext q
      apply Option.ext
      intro w
      rw [get_eq_some, update_iff, get_eq_some]
      by_cases hq : q = p
      · subst hq
        simp [hlast]
      · have hne : indexFromPtr q ≠ indexFromPtr p := fun he => hq (num_inj he)
        have hdrop : a.pool.dropLast[indexFromPtr q]? = a.pool[indexFromPtr q]? := by
          rw [List.getElem?_dropLast]
          split
          · rfl
          · rw [List.getElem?_eq_none (by omega)]
        simp [hq, hdrop]
    · refine ⟨_, rfl, ?_⟩
      funext q
      apply Option.ext
      intro w
      rw [get_eq_some, update_iff, get_eq_some]
      by_cases hq : q = p
      · simp [hq]
      · simp [hq]

theorem cell_new (capacity : Nat) (p : Ptr) :
    cell (new capacity : TestAllocator V) p = none := by
  cases hg : (new capacity : TestAllocator V).get p with
  | none => exact hg
  | some v => exact absurd (checkAllocated_of_get hg).1 (by simp [new])

theorem mem_pool_of_cell {a : TestAllocator V} {p : Ptr} {v : V} (h : cell a p = some v) :
    v ∈ a.pool :=
  List.mem_of_getElem? (get_eq_some.mp h).2

/-- Requests are served while there is room in the pool or the list of free blocks. -/
theorem serves_of_room {a : TestAllocator V} {n : Nat}
    (h : a.pool.length + n ≤ a.capacity + a.freeList.length) : Serves n a := by
  induction n generalizing a with
  | zero => trivial
  | succ n ih =>
    intro v
    change ∃ p a', a.alloc v = (.ok p, a') ∧ Serves n a'
    unfold alloc
    split
    · rename_i ptr rest hfree
      refine ⟨_, _, rfl, ih ?_⟩
      rw [hfree, List.length_cons] at h
      simp only [List.length_set]
      omega
    · rename_i hfree
      rw [hfree, List.length_nil] at h
      rw [dif_pos (by omega)]
      refine ⟨_, _, rfl, ih ?_⟩
      simp only [List.length_append, List.length_singleton]
      omega

end TestAllocator

end Memory
