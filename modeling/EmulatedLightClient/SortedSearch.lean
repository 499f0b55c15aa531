import Mathlib.Algebra.Ring.Nat
import Mathlib.Order.Lattice
import Mathlib.Tactic.Common

/-!
# Binary search

The window narrows to the half in which the key must be. In a sorted list the key is
found if and only if it is there.
-/

namespace SortedSearch

universe u
variable {α : Type u} [LinearOrder α]

/-- The search in the window from `left` to `right`. Gives the position of the key or
else the one where it could be inserted. -/
def searchWindow (l : List α) (x : α) : (fuel left right : Nat) → Except Nat Nat
  | 0, left, _ => .error left
  | fuel + 1, left, right =>
    if left < right then
      let mid := left + (right - left) / 2
      match l[mid]? with
      | none => .error left
      | some y =>
        if y = x then .ok mid
        else if y < x then searchWindow l x fuel (mid + 1) right
        else searchWindow l x fuel left mid
    else .error left

def binarySearch (l : List α) (x : α) : Except Nat Nat := searchWindow l x l.length 0 l.length

variable {l : List α} {x : α}

/-- A position given is one of the key, sorted or not. -/
theorem searchWindow_ok {fuel left right i : Nat} (h : searchWindow l x fuel left right = .ok i) : l[i]? = some x := by
  induction fuel generalizing left right with
  | zero => cases h
  | succ fuel ih =>
    simp only [searchWindow] at h
    split at h
    · split at h
      · cases h
      · rename_i y hy
        split at h
        · rename_i heq
          cases h
          rw [hy, heq]
        · split at h
          · exact ih h
          · exact ih h
    · cases h

theorem searchWindow_isOk (hsorted : l.Pairwise (· ≤ ·)) {fuel left right i : Nat} (hx : l[i]? = some x)
    (hleft : left ≤ i) (hright : i < right) (hlength : right ≤ l.length) (hfuel : right - left ≤ fuel) :
    (searchWindow l x fuel left right).isOk := by
  induction fuel generalizing left right with
  | zero => omega
  | succ fuel ih =>
    have hmid : left + (right - left) / 2 < l.length := by omega
    have hi : i < l.length := by omega
    obtain rfl : l.get ⟨i, hi⟩ = x := by
      rw [List.getElem?_eq_getElem hi] at hx
      exact Option.some.inj hx
    have hle : ∀ j k (hj : j < l.length) (hk : k < l.length), j < k → l.get ⟨j, hj⟩ ≤ l.get ⟨k, hk⟩ :=
      fun j k hj hk hjk => List.pairwise_iff_getElem.mp hsorted j k hj hk hjk
    simp only [searchWindow, if_pos (Nat.lt_of_le_of_lt hleft hright), List.getElem?_eq_getElem hmid]
    split
    · rfl
    · rename_i hne
      split
      · rename_i hlt
        refine ih ?_ hright hlength (by omega)
        rcases Nat.lt_trichotomy i (left + (right - left) / 2) with hless | heq | hless
        · exact absurd (hle i _ hi hmid hless) (not_le.mpr hlt)
        · subst heq
          exact absurd rfl hne
        · exact hless
      · rename_i hnlt
        refine ih hleft ?_ (by omega) (by omega)
        rcases Nat.lt_trichotomy i (left + (right - left) / 2) with hless | heq | hless
        · exact hless
        · subst heq
          exact absurd rfl hne
        · exact absurd (lt_of_le_of_ne (hle _ i hmid hi hless) hne) hnlt

theorem binarySearch_isOk (hsorted : l.Pairwise (· ≤ ·)) : (binarySearch l x).isOk ↔ x ∈ l := by
  constructor
  · intro h
    cases hsearch : binarySearch l x with
    | ok i => exact List.mem_of_getElem? (searchWindow_ok hsearch)
    | error i =>
      rw [hsearch] at h
      cases h
  · intro h
    obtain ⟨i, hi, hx⟩ := List.getElem_of_mem h
    exact searchWindow_isOk hsorted (List.getElem?_eq_some_iff.mpr ⟨hi, hx⟩) (Nat.zero_le i) hi
      (Nat.le_refl _) (Nat.sub_le _ _)

end SortedSearch
