import Mathlib.Algebra.BigOperators.Group.Finset.Basic

/-!
# Sums over partial maps

A partial map with finitely many entries, of which one is changed at a time.
-/

namespace PartialMaps

open Finset

variable {K α : Type} {F : Finset K} {g : K → Option α} {k : K} {o : Option α}

/-- The keys which have an entry. -/
def IsDomain (F : Finset K) (g : K → Option α) : Prop := ∀ k, k ∈ F ↔ (g k).isSome

def sumOver (F : Finset K) (g : K → Option α) (f : α → Nat) : Nat := ∑ k ∈ F, (g k).elim 0 f

theorem IsDomain.eq_none (h : IsDomain F g) (hk : k ∉ F) : g k = none := by
  rw [← Option.not_isSome_iff_eq_none]
  exact fun hsome => hk ((h k).mpr hsome)

variable [DecidableEq K]

/-- One entry apart from the others. -/
theorem IsDomain.sumOver_eq (h : IsDomain F g) (k : K) (f : α → Nat) :
    sumOver F g f = (g k).elim 0 f + sumOver (F.erase k) g f := by
  unfold sumOver
  by_cases hk : k ∈ F
  · exact (add_sum_erase F _ hk).symm
  · rw [h.eq_none hk, erase_eq_of_notMem hk]
    exact (Nat.zero_add _).symm

omit [DecidableEq K] in
theorem sumOver_congr {g' : K → Option α} {f : α → Nat} (h : ∀ k ∈ F, g' k = g k) :
    sumOver F g' f = sumOver F g f := by
  refine sum_congr rfl fun k hk => ?_
  rw [h k hk]

/-- Changing one entry moves every sum by what the entry counts for. -/
theorem IsDomain.update (h : IsDomain F g) (k : K) (o : Option α) :
    ∃ F', IsDomain F' (Function.update g k o) ∧
      ∀ f, sumOver F' (Function.update g k o) f + (g k).elim 0 f = sumOver F g f + o.elim 0 f := by
  have herase : ∀ F' : Finset K, F'.erase k = F.erase k → IsDomain F' (Function.update g k o) →
      ∀ f, sumOver F' (Function.update g k o) f + (g k).elim 0 f = sumOver F g f + o.elim 0 f := by
    intro F' heq hdomain f
    have hcongr : sumOver (F.erase k) (Function.update g k o) f = sumOver (F.erase k) g f :=
      sumOver_congr fun j hj => Function.update_of_ne (ne_of_mem_erase hj) ..
    rw [h.sumOver_eq k f, hdomain.sumOver_eq k f, heq, hcongr, Function.update_self]
    omega
  have hother : ∀ j, j ≠ k → (j ∈ F ↔ ((Function.update g k o) j).isSome) := by
    intro j hj
    rw [Function.update_of_ne hj]
    exact h j
  cases o with
  | none =>
    have hdomain : IsDomain (F.erase k) (Function.update g k none) := by
      intro j
      by_cases hj : j = k
      · subst hj
        simp
      · rw [mem_erase, ← hother j hj]
        exact and_iff_right hj
    exact ⟨F.erase k, hdomain, herase _ (erase_idem ..) hdomain⟩
  | some a =>
    have hdomain : IsDomain (insert k F) (Function.update g k (some a)) := by
      intro j
      by_cases hj : j = k
      · subst hj
        simp
      · rw [mem_insert, ← hother j hj]
        exact or_iff_right hj
    refine ⟨insert k F, hdomain, herase _ ?_ hdomain⟩
    rw [erase_insert_eq_erase]

end PartialMaps
