import Mathlib.Algebra.Ring.Nat
import Mathlib.Tactic.Common

/-!
# Ranges of a buffer

A buffer is a list. Ranges are read with `slice` and written with `splice`; what is
written is read back, and ranges which do not overlap are not touched. Records of a
fixed size follow one another.
-/

namespace Buffers

universe u
variable {α : Type u}

/-- The range of `n` elements from `off` on, or what there is of it. -/
def slice (l : List α) (off n : Nat) : List α := (l.drop off).take n

/-- The buffer with the range from `off` on overwritten. -/
def splice (l : List α) (off : Nat) (s : List α) : List α := l.take off ++ s ++ l.drop (off + s.length)

variable {l s : List α} {off off' n : Nat}

theorem getElem?_slice (i : Nat) : (slice l off n)[i]? = if i < n then l[off + i]? else none := by
  rw [slice, List.getElem?_take, List.getElem?_drop]

theorem length_slice (h : off + n ≤ l.length) : (slice l off n).length = n := by
  rw [slice, List.length_take, List.length_drop]
  omega

theorem length_splice (h : off + s.length ≤ l.length) : (splice l off s).length = l.length := by
  simp only [splice, List.length_append, List.length_take, List.length_drop]
  omega

theorem getElem?_splice (h : off + s.length ≤ l.length) (i : Nat) :
    (splice l off s)[i]? = if off ≤ i ∧ i < off + s.length then s[i - off]? else l[i]? := by
  have hoff : (l.take off).length = off := by
    rw [List.length_take]
    omega
  rw [splice, List.append_assoc]
  by_cases hbefore : i < off
  · rw [List.getElem?_append_left (by omega), List.getElem?_take, if_pos hbefore, if_neg (by omega)]
  · rw [List.getElem?_append_right (by omega), hoff]
    by_cases hin : i < off + s.length
    · rw [List.getElem?_append_left (by omega), if_pos (by omega)]
    · rw [List.getElem?_append_right (by omega), List.getElem?_drop, if_neg (by omega)]
      congr 1
      omega

/-- What was written is read back. -/
theorem slice_splice_self (h : off + s.length ≤ l.length) (hn : s.length = n) : slice (splice l off s) off n = s := by
  refine List.ext_getElem? fun i => ?_
  rw [getElem?_slice, getElem?_splice h]
  by_cases hi : i < n
  · rw [if_pos hi, if_pos (by omega), Nat.add_sub_cancel_left]
  · rw [if_neg hi, List.getElem?_eq_none (by omega)]

/-- Other ranges are as they were. -/
theorem slice_splice_of_disjoint (h : off + s.length ≤ l.length)
    (hdisjoint : off' + n ≤ off ∨ off + s.length ≤ off') : slice (splice l off s) off' n = slice l off' n := by
  refine List.ext_getElem? fun i => ?_
  rw [getElem?_slice, getElem?_slice, getElem?_splice h]
  by_cases hi : i < n
  · rw [if_pos hi, if_pos hi, if_neg (by omega)]
  · rw [if_neg hi, if_neg hi]

/-- Writing what is there already. -/
theorem splice_slice_self (h : off + n ≤ l.length) : splice l off (slice l off n) = l := by
  have hlen := length_slice h
  refine List.ext_getElem? fun i => ?_
  rw [getElem?_splice (by omega), hlen]
  split
  · rename_i hi
    rw [getElem?_slice, if_pos (by omega)]
    congr 1
    omega
  · rfl

/-- A buffer which grows keeps its ranges. -/
theorem slice_append_left {t : List α} (h : off + n ≤ l.length) : slice (l ++ t) off n = slice l off n := by
  rw [slice, slice, List.drop_append_of_le_length (by omega), List.take_append_of_le_length]
  rw [List.length_drop]
  omega

theorem take_slice {k : Nat} (hk : k ≤ n) : (slice l off n).take k = slice l off k := by
  rw [slice, slice, List.take_take, Nat.min_eq_left hk]

theorem slice_append_mid {t : List α} (hoff : l.length = off) (hn : s.length = n) : slice (l ++ s ++ t) off n = s := by
  rw [slice, List.append_assoc, List.drop_left' hoff, List.take_left' hn]

theorem slice_append_right {t : List α} : slice (l ++ t) (l.length + off) n = slice t off n := by
  rw [slice, slice, ← List.drop_drop, List.drop_left]

theorem slice_slice {k : Nat} (h : off' + k ≤ n) : slice (slice l off n) off' k = slice l (off + off') k := by
  rw [slice, slice, slice, List.drop_take, List.take_take, List.drop_drop, Nat.min_eq_left (by omega)]

theorem slice_map {β : Type u} (f : α → β) : slice (l.map f) off n = (slice l off n).map f := by
  rw [slice, slice, List.map_take, List.map_drop]

/-- Overwriting what is between two parts with as much. -/
theorem splice_append_mid {s' t : List α} (hoff : l.length = off) (hs : s'.length = s.length) :
    splice (l ++ s ++ t) off s' = l ++ s' ++ t := by
  rw [splice, List.append_assoc l s t, List.take_left' hoff, ← List.drop_drop, List.drop_left' hoff,
    List.drop_left' hs.symm]

/-- The first `count` records of given size from `off` on. -/
def records (l : List α) (off size count : Nat) : List (List α) :=
  (List.range count).map fun i => slice l (off + size * i) size

variable {size count : Nat}

@[simp] theorem length_records : (records l off size count).length = count := by
  simp [records]

theorem records_succ : records l off size (count + 1) = records l off size count ++ [slice l (off + size * count) size] := by
  rw [records, List.range_succ, List.map_append]
  rfl

theorem take_records (k : Nat) : (records l off size count).take k = records l off size (min k count) := by
  rw [records, ← List.map_take, List.take_range]
  rfl

theorem length_of_mem_records (h : off + size * count ≤ l.length) : ∀ r ∈ records l off size count, r.length = size := by
  intro r hr
  obtain ⟨i, hi, rfl⟩ := List.mem_map.mp hr
  refine length_slice (Nat.le_trans ?_ h)
  have hle : size * (i + 1) ≤ size * count := Nat.mul_le_mul_left size (List.mem_range.mp hi)
  rw [Nat.mul_add] at hle
  omega

/-- The records depend only on the elements they are made of. -/
theorem records_congr {l' : List α}
    (h : ∀ i < count, slice l (off + size * i) size = slice l' (off + size * i) size) :
    records l off size count = records l' off size count :=
  List.map_congr_left fun i hi => h i (List.mem_range.mp hi)

theorem records_append_left {t : List α} (h : off + size * count ≤ l.length) :
    records (l ++ t) off size count = records l off size count := by
  refine records_congr fun i hi => slice_append_left (Nat.le_trans ?_ h)
  have hle : size * (i + 1) ≤ size * count := Nat.mul_le_mul_left size hi
  rw [Nat.mul_add] at hle
  omega

/-- Writing past the records or before them leaves them alone. -/
theorem records_splice_of_disjoint (h : off' + s.length ≤ l.length)
    (hdisjoint : off + size * count ≤ off' ∨ off' + s.length ≤ off) :
    records (splice l off' s) off size count = records l off size count := by
  refine records_congr fun i hi => slice_splice_of_disjoint h ?_
  have hle : size * (i + 1) ≤ size * count := Nat.mul_le_mul_left size hi
  rw [Nat.mul_add] at hle
  omega

theorem length_flatten {rs : List (List α)} (h : ∀ r ∈ rs, r.length = size) : rs.flatten.length = size * rs.length := by
  induction rs with
  | nil => simp
  | cons r rs ih =>
    obtain ⟨hr, hrs⟩ := List.forall_mem_cons.mp h
    rw [List.flatten_cons, List.length_append, ih hrs, hr, List.length_cons, Nat.mul_succ]
    omega

theorem slice_flatten {rs : List (List α)} (h : ∀ r ∈ rs, r.length = size) {i : Nat} {r : List α} (hi : rs[i]? = some r) :
    slice rs.flatten (size * i) size = r := by
  induction rs generalizing i with
  | nil => cases hi
  | cons r' rs ih =>
    obtain ⟨hr', hrs⟩ := List.forall_mem_cons.mp h
    cases i with
    | zero =>
      cases hi
      rw [List.flatten_cons, Nat.mul_zero, slice_append_left (by omega), slice, List.drop_zero, ← hr', List.take_length]
    | succ i =>
      rw [slice, List.flatten_cons, List.drop_append, List.drop_eq_nil_of_le (by rw [Nat.mul_succ]; omega),
        List.nil_append, hr', Nat.mul_succ, Nat.add_sub_cancel]
      exact ih hrs hi

theorem flatten_records (h : off + size * count ≤ l.length) : (records l off size count).flatten = slice l off (size * count) := by
  induction count with
  | zero => rfl
  | succ count ih =>
    rw [Nat.mul_succ] at h ⊢
    rw [records_succ, List.flatten_append, ih (by omega), List.flatten_singleton, slice, slice, slice, List.take_add,
      List.drop_drop]

theorem records_flatten {rs : List (List α)} (h : ∀ r ∈ rs, r.length = size) : records rs.flatten 0 size rs.length = rs := by
  refine List.ext_getElem? fun i => ?_
  by_cases hi : i < rs.length
  · rw [records, List.getElem?_map, List.getElem?_range hi, Option.map_some, Nat.zero_add,
      slice_flatten h (List.getElem?_eq_getElem hi), List.getElem?_eq_getElem hi]
  · rw [List.getElem?_eq_none (by rw [length_records]; omega), List.getElem?_eq_none (by omega)]

/-- Records written together are read back one by one. -/
theorem records_splice_self {rs : List (List α)} (hsize : ∀ r ∈ rs, r.length = size) (hcount : rs.length = count)
    (h : off + size * count ≤ l.length) : records (splice l off rs.flatten) off size count = rs := by
  have hlength : rs.flatten.length = size * count := by
    rw [length_flatten hsize, hcount]
  refine List.ext_getElem? fun i => ?_
  by_cases hi : i < count
  · obtain ⟨r, hr⟩ : ∃ r, rs[i]? = some r := ⟨_, List.getElem?_eq_getElem (by omega)⟩
    have hle : size * (i + 1) ≤ size * count := Nat.mul_le_mul_left size hi
    rw [Nat.mul_add] at hle
    rw [records, List.getElem?_map, List.getElem?_range hi, hr, Option.map_some, ← slice_flatten hsize hr]
    congr 1
    refine List.ext_getElem? fun j => ?_
    rw [getElem?_slice, getElem?_slice, getElem?_splice (by omega)]
    by_cases hj : j < size
    · rw [if_pos hj, if_pos hj, if_pos (by omega)]
      congr 1
      omega
    · rw [if_neg hj, if_neg hj]
  · rw [List.getElem?_eq_none (by simpa using hi), List.getElem?_eq_none (by omega)]

end Buffers
