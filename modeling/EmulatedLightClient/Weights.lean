import Mathlib.Algebra.BigOperators.Group.Finset.Basic
import Mathlib.Algebra.Order.BigOperators.Group.Finset
import Mathlib.Algebra.Order.BigOperators.Group.List
import Mathlib.Algebra.Ring.Nat
import Mathlib.Data.List.InsertIdx

/-!
# Weights of positions in a list

Members of a list are picked by their positions. Positions which are all
different weigh no more than the whole list, so that two choices which together
weigh more have a position in common.
-/

namespace Weights

variable {α : Type}

/-- Weight of the member at a position, zero past the end. -/
def weightAt (weight : α → Nat) (l : List α) (i : Nat) : Nat := (l[i]?).elim 0 weight

theorem weightAt_eq {weight : α → Nat} {l : List α} {i : Nat} {a : α} (h : l[i]? = some a) :
    weightAt weight l i = weight a := by
  rw [weightAt, h]
  rfl

theorem sum_weightAt_range (weight : α → Nat) (l : List α) :
    ((List.range l.length).map (weightAt weight l)).sum = (l.map weight).sum := by
  congr 1
  refine List.ext_getElem (by simp) fun i _ hi => ?_
  have hi : i < l.length := by simpa using hi
  simp [weightAt, hi]

theorem sum_weightAt_le (weight : α → Nat) (l : List α) {is : List Nat} (h : is.Nodup) :
    (is.map (weightAt weight l)).sum ≤ (l.map weight).sum := by
  rw [← sum_weightAt_range weight l, ← List.sum_toFinset _ h, ← List.sum_toFinset _ List.nodup_range]
  rw [← Finset.sum_filter_add_sum_filter_not is.toFinset (· < l.length)]
  have hout : ∑ i ∈ is.toFinset.filter (¬ · < l.length), weightAt weight l i = 0 := by
    refine Finset.sum_eq_zero fun i hi => ?_
    rw [weightAt, List.getElem?_eq_none (not_lt.mp (Finset.mem_filter.mp hi).2)]
    rfl
  rw [hout, Nat.add_zero]
  refine Finset.sum_le_sum_of_subset fun i hi => ?_
  rw [List.mem_toFinset, List.mem_range]
  exact (Finset.mem_filter.mp hi).2

/-- Two choices which together weigh more than everything share a position. -/
theorem exists_common (weight : α → Nat) (l : List α) {is js : List Nat} (his : is.Nodup)
    (hjs : js.Nodup) (h : (l.map weight).sum <
      (is.map (weightAt weight l)).sum + (js.map (weightAt weight l)).sum) :
    ∃ i ∈ is, i ∈ js := by
  by_contra hnone
  have hdisjoint : (is ++ js).Nodup := by
    refine List.nodup_append.mpr ⟨his, hjs, ?_⟩
    rintro a ha b hb rfl
    exact hnone ⟨a, ha, hb⟩
  have hle := sum_weightAt_le weight l hdisjoint
  rw [List.map_append, List.sum_append] at hle
  omega

/-- Weight of the first `n` members. -/
def headWeight (weight : α → Nat) (n : Nat) (l : List α) : Nat := ((l.take n).map weight).sum

variable {weight : α → Nat} {l : List α} {i n : Nat} {a : α}

theorem headWeight_succ (weight : α → Nat) (n : Nat) (l : List α) :
    headWeight weight (n + 1) l = headWeight weight n l + weightAt weight l n := by
  unfold headWeight weightAt
  rw [List.take_add_one, List.map_append, List.sum_append]
  cases l[n]? with
  | none => rfl
  | some a => simp

/-- A new member comes into the head and pushes the last one out. -/
theorem headWeight_insertIdx (hi : i ≤ l.length) (h : i ≤ n) :
    headWeight weight (n + 1) (l.insertIdx i a) = weight a + headWeight weight n l := by
  induction l generalizing i n with
  | nil =>
    cases Nat.le_zero.mp hi
    simp [headWeight]
  | cons b l ih =>
    cases i with
    | zero => simp [headWeight]
    | succ i =>
      obtain ⟨n, rfl⟩ := Nat.exists_eq_add_one_of_ne_zero (Nat.ne_zero_of_lt h)
      have hrest := ih (Nat.le_of_succ_le_succ hi) (Nat.le_of_succ_le_succ h)
      simp only [headWeight, List.insertIdx_succ_cons, List.take_succ_cons, List.map_cons,
        List.sum_cons] at hrest ⊢
      omega

theorem headWeight_insertIdx_of_le (h : n ≤ i) :
    headWeight weight n (l.insertIdx i a) = headWeight weight n l := by
  rw [headWeight, List.take_insertIdx_eq_take_of_le _ _ _ _ h]
  rfl

/-- A member goes out of the head and the next one comes in. -/
theorem headWeight_eraseIdx (weight : α → Nat) (hi : l[i]? = some a) (h : i ≤ n) :
    headWeight weight (n + 1) l = weight a + headWeight weight n (l.eraseIdx i) := by
  obtain ⟨hlt, rfl⟩ := List.getElem?_eq_some_iff.mp hi
  have hle : i ≤ (l.eraseIdx i).length := by
    rw [List.length_eraseIdx_of_lt hlt]
    omega
  rw [← headWeight_insertIdx hle h, List.insertIdx_eraseIdx_getElem hlt]

theorem headWeight_eraseIdx_of_le (h : n ≤ i) :
    headWeight weight n (l.eraseIdx i) = headWeight weight n l := by
  rw [headWeight, List.take_eraseIdx_eq_take_of_le _ _ _ h]
  rfl

theorem weightAt_insertIdx (h : i ≤ n) :
    weightAt weight (l.insertIdx i a) (n + 1) = weightAt weight l n := by
  rw [weightAt, weightAt, List.getElem?_insertIdx_of_gt (Nat.lt_succ_of_le h)]
  rfl

/-- Weight of the members which have the property. -/
def weightOf (weight : α → Nat) (p : α → Prop) [DecidablePred p] (l : List α) : Nat := ((l.filter p).map weight).sum

theorem weightOf_eq (weight : α → Nat) (p : α → Prop) [DecidablePred p] (l : List α) :
    weightOf weight p l = (l.map fun a => if p a then weight a else 0).sum := by
  unfold weightOf
  induction l with
  | nil => rfl
  | cons a l ih =>
    by_cases ha : p a
    · simp [ha, ih]
    · simp [ha, ih]

/-- A choice of members which weighs more than those with the property has one without it. -/
theorem exists_without {p : α → Prop} [DecidablePred p] {is : List Nat} (his : is.Nodup)
    (h : weightOf weight p l < (is.map (weightAt weight l)).sum) : ∃ i ∈ is, ∃ a, l[i]? = some a ∧ ¬ p a := by
  by_contra hnone
  have hsame : is.map (weightAt weight l) = is.map (weightAt (fun a => if p a then weight a else 0) l) := by
    refine List.map_congr_left fun i hi => ?_
    cases hget : l[i]? with
    | none => rw [weightAt, weightAt, hget]; rfl
    | some a =>
      have ha : p a := not_not.mp fun hnot => hnone ⟨i, hi, a, hget, hnot⟩
      rw [weightAt_eq hget, weightAt_eq hget, if_pos ha]
  have hle := sum_weightAt_le (fun a => if p a then weight a else 0) l his
  rw [← hsame, ← weightOf_eq] at hle
  omega

end Weights
