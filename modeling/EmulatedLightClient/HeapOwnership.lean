import Mathlib.Algebra.Ring.Nat
import Mathlib.Data.Multiset.Basic
import Mathlib.Data.Multiset.Filter
import Mathlib.Data.Multiset.UnionInter
import Mathlib.Logic.Function.Basic
import Mathlib.Algebra.Order.Group.Multiset

/-!
# Ownership of heap cells

A heap maps addresses to contents. A multiset of cells owns the heap when it
lists every live cell exactly once; adding cells is separating conjunction, so
an operation on some cells leaves every other part of the sum alone.
-/

namespace HeapOwnership

universe u v
variable {P : Type u} {V : Type v} [DecidableEq P]

abbrev Cells (P : Type u) (V : Type v) := Multiset (P × V)

structure Owns (heap : P → Option V) (cells : Cells P V) : Prop where
  nodup : (cells.map Prod.fst).Nodup
  live : ∀ p v, heap p = some v ↔ (p, v) ∈ cells

variable {heap : P → Option V} {cells : Cells P V} {p : P} {v v' : V}

omit [DecidableEq P] in
theorem owns_zero_iff : Owns heap 0 ↔ ∀ p, heap p = none := by
  constructor
  · intro h p
    cases hp : heap p with
    | none => rfl
    | some v => simpa using (h.live p v).mp hp
  · intro h
    exact ⟨by simp, by simp [h]⟩

omit [DecidableEq P] in
theorem Owns.get (h : Owns heap cells) (hm : (p, v) ∈ cells) : heap p = some v :=
  (h.live p v).mpr hm

omit [DecidableEq P] in
theorem Owns.head (h : Owns heap ({(p, v)} + cells)) : heap p = some v :=
  h.get (Multiset.mem_add.mpr (Or.inl (Multiset.mem_singleton_self _)))

omit [DecidableEq P] in
theorem Owns.isSome_iff (h : Owns heap cells) : (heap p).isSome ↔ p ∈ cells.map Prod.fst := by
  rw [Option.isSome_iff_exists, Multiset.mem_map]
  constructor
  · rintro ⟨v, hv⟩
    exact ⟨(p, v), (h.live p v).mp hv, rfl⟩
  · rintro ⟨⟨q, v⟩, hm, rfl⟩
    exact ⟨v, h.get hm⟩

omit [DecidableEq P] in
theorem Owns.notMem (h : Owns heap ({(p, v)} + cells)) (w : V) : (p, w) ∉ cells := by
  intro hm
  have hn := h.nodup
  rw [Multiset.map_add, Multiset.map_singleton, Multiset.singleton_add, Multiset.nodup_cons] at hn
  exact hn.1 (Multiset.mem_map.mpr ⟨_, hm, rfl⟩)

/-- A fresh cell joins the owned ones. -/
theorem Owns.insert (h : Owns heap cells) (hp : heap p = none) :
    Owns (Function.update heap p (some v)) ({(p, v)} + cells) := by
  have hfresh : ∀ w, (p, w) ∉ cells := fun w hm => by simp [h.get hm] at hp
  refine ⟨?_, ?_⟩
  · rw [Multiset.map_add, Multiset.map_singleton, Multiset.singleton_add, Multiset.nodup_cons]
    refine ⟨?_, h.nodup⟩
    intro hm
    obtain ⟨⟨q, w⟩, hmem, rfl⟩ := Multiset.mem_map.mp hm
    exact hfresh w hmem
  · intro q w
    by_cases hq : q = p
    · subst hq
      simp [hfresh, eq_comm]
    · simp [hq, h.live]

/-- Removing a cell leaves the other ones owned. -/
theorem Owns.remove (h : Owns heap ({(p, v)} + cells)) :
    Owns (Function.update heap p none) cells := by
  refine ⟨?_, ?_⟩
  · have hn := h.nodup
    rw [Multiset.map_add, Multiset.map_singleton, Multiset.singleton_add,
      Multiset.nodup_cons] at hn
    exact hn.2
  · intro q w
    by_cases hq : q = p
    · subst hq
      simp [h.notMem w]
    · simp [hq, h.live]

theorem Owns.write (h : Owns heap ({(p, v)} + cells)) :
    Owns (Function.update heap p (some v')) ({(p, v')} + cells) := by
  have hr := h.remove.insert (p := p) (v := v') (by simp)
  rwa [Function.update_idem] at hr

end HeapOwnership
