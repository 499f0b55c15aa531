import Mathlib.Data.List.Nodup

/-!
# Maps kept as lists

A map is the list of its entries in no particular order, each key at most once. Maps of `linear_map` are documented to
be searched linearly, and a new key to be added at the end; hash maps are modelled in the same way. In what order entries
are after a removal is not documented, and what is said about a removal is about keys and their values only.
-/

namespace LinearMaps

variable {K V : Type} [DecidableEq K]

abbrev LinearMap (K V : Type) := List (K × V)

namespace LinearMap

def get (k : K) : LinearMap K V → Option V
  | [] => none
  | (j, v) :: m => if j = k then some v else get k m

/-- Changes the value of a key, which is added with a default value if it is new. -/
def upsert (k : K) (default : V) (f : V → V) : LinearMap K V → LinearMap K V
  | [] => [(k, f default)]
  | (j, v) :: m => if j = k then (j, f v) :: m else (j, v) :: upsert k default f m

/-- The others stay in order, while `linear_map` puts the last one where the removed one was. -/
def remove (k : K) : LinearMap K V → LinearMap K V
  | [] => []
  | (j, v) :: m => if j = k then m else (j, v) :: remove k m

def keys (m : LinearMap K V) : List K := m.map (·.1)

variable {m : LinearMap K V} {k j : K} {v default : V} {f : V → V}

@[simp]
theorem get_nil (k : K) : get k ([] : LinearMap K V) = none := rfl

theorem get_cons (k i : K) (w : V) (m : LinearMap K V) : get k ((i, w) :: m) = if i = k then some w else get k m := rfl

@[simp]
theorem upsert_nil (k : K) (default : V) (f : V → V) : upsert k default f [] = [(k, f default)] := rfl

theorem upsert_cons (k i : K) (default w : V) (f : V → V) (m : LinearMap K V) :
    upsert k default f ((i, w) :: m) = if i = k then (i, f w) :: m else (i, w) :: upsert k default f m := rfl

@[simp]
theorem remove_nil (k : K) : remove k ([] : LinearMap K V) = [] := rfl

theorem remove_cons (k i : K) (w : V) (m : LinearMap K V) :
    remove k ((i, w) :: m) = if i = k then m else (i, w) :: remove k m := rfl

theorem get_upsert : get j (upsert k default f m) = if j = k then some (f ((get k m).getD default)) else get j m := by
  induction m with
  | nil =>
    by_cases hj : j = k
    · subst hj
      simp [get_cons]
    · simp [get_cons, hj, Ne.symm hj]
  | cons e m ih =>
    obtain ⟨i, w⟩ := e
    by_cases hi : i = k
    · subst hi
      by_cases hj : j = i
      · subst hj
        simp [upsert_cons, get_cons]
      · simp [upsert_cons, get_cons, hj, Ne.symm hj]
    · rw [upsert_cons, if_neg hi, get_cons, ih]
      by_cases hj : j = k
      · subst hj
        rw [if_neg hi, if_pos rfl, if_pos rfl, get_cons, if_neg hi]
      · rw [if_neg hj, if_neg hj, get_cons]

theorem get_eq_none : get k m = none ↔ k ∉ keys m := by
  induction m with
  | nil => simp [keys]
  | cons e m ih =>
    obtain ⟨i, w⟩ := e
    by_cases hi : i = k
    · simp [get_cons, keys, hi]
    · rw [get_cons, if_neg hi, ih]
      rw [keys, keys, List.map_cons, List.mem_cons, not_or]
      exact (and_iff_right (Ne.symm hi)).symm

theorem mem_of_get (h : get k m = some v) : (k, v) ∈ m := by
  induction m with
  | nil => cases h
  | cons e m ih =>
    obtain ⟨i, w⟩ := e
    by_cases hi : i = k
    · subst hi
      rw [get_cons, if_pos rfl] at h
      cases h
      exact List.mem_cons_self
    · rw [get_cons, if_neg hi] at h
      exact List.mem_cons_of_mem _ (ih h)

theorem get_of_mem (hm : (keys m).Nodup) (h : (k, v) ∈ m) : get k m = some v := by
  induction m with
  | nil => cases h
  | cons e m ih =>
    obtain ⟨i, w⟩ := e
    obtain ⟨hnotMem, hnodup⟩ := List.nodup_cons.mp hm
    rcases List.mem_cons.mp h with heq | h
    · cases heq
      rw [get_cons, if_pos rfl]
    · have hi : i ≠ k := by
        rintro rfl
        exact hnotMem (List.mem_map.mpr ⟨_, h, rfl⟩)
      rw [get_cons, if_neg hi]
      exact ih hnodup h

theorem keys_remove_sublist : (keys (remove k m)).Sublist (keys m) := by
  induction m with
  | nil => exact List.Sublist.refl _
  | cons e m ih =>
    obtain ⟨i, w⟩ := e
    by_cases hi : i = k
    · rw [remove_cons, if_pos hi]
      exact List.sublist_cons_self ..
    · rw [remove_cons, if_neg hi]
      exact ih.cons_cons i

theorem get_remove (hm : (keys m).Nodup) : get j (remove k m) = if j = k then none else get j m := by
  induction m with
  | nil => simp
  | cons e m ih =>
    obtain ⟨i, w⟩ := e
    obtain ⟨hnotMem, hnodup⟩ := List.nodup_cons.mp hm
    by_cases hi : i = k
    · subst hi
      rw [remove_cons, if_pos rfl]
      by_cases hj : j = i
      · subst hj
        rw [if_pos rfl]
        exact get_eq_none.mpr hnotMem
      · rw [if_neg hj, get_cons, if_neg fun h => hj h.symm]
    · rw [remove_cons, if_neg hi, get_cons, ih hnodup]
      by_cases hj : j = k
      · subst hj
        rw [if_neg hi, if_pos rfl, if_pos rfl]
      · rw [if_neg hj, if_neg hj, get_cons]

theorem keys_upsert (h : k ∈ keys m) : keys (upsert k default f m) = keys m := by
  induction m with
  | nil => cases h
  | cons e m ih =>
    obtain ⟨i, w⟩ := e
    by_cases hi : i = k
    · rw [upsert_cons, if_pos hi]
      rfl
    · have hmem : k ∈ keys m := (List.mem_cons.mp h).resolve_left (Ne.symm hi)
      rw [upsert_cons, if_neg hi, keys, List.map_cons]
      exact congrArg (i :: ·) (ih hmem)

theorem keys_upsert_of_notMem (h : k ∉ keys m) : keys (upsert k default f m) = keys m ++ [k] := by
  induction m with
  | nil => rfl
  | cons e m ih =>
    obtain ⟨i, w⟩ := e
    obtain ⟨hi, hmem⟩ := not_or.mp (mt List.mem_cons.mpr h)
    rw [upsert_cons, if_neg (Ne.symm hi), keys, List.map_cons]
    exact congrArg (i :: ·) (ih hmem)

theorem nodup_keys_upsert (hm : (keys m).Nodup) : (keys (upsert k default f m)).Nodup := by
  by_cases hk : k ∈ keys m
  · rwa [keys_upsert hk]
  · rw [keys_upsert_of_notMem hk]
    exact List.nodup_append.mpr ⟨hm, List.nodup_singleton k, by
      rintro a ha b hb rfl
      exact hk (List.mem_singleton.mp hb ▸ ha)⟩

theorem get_append (hk : k ∉ keys m) : get j (m ++ [(k, v)]) = if j = k then some v else get j m := by
  induction m with
  | nil =>
    by_cases hj : j = k
    · simp [get_cons, hj]
    · simp [get_cons, hj, Ne.symm hj]
  | cons e m ih =>
    obtain ⟨i, w⟩ := e
    simp only [keys, List.map_cons, List.mem_cons, not_or] at hk
    rw [List.cons_append, get_cons, get_cons, ih hk.2]
    by_cases hi : i = j
    · subst hi
      rw [if_pos rfl, if_pos rfl, if_neg (Ne.symm hk.1)]
    · rw [if_neg hi, if_neg hi]

omit [DecidableEq K] in
theorem keys_set {idx : Nat} : keys (List.set m idx (k, v)) = (keys m).set idx k := by
  simp [keys, List.map_set]

/-- An entry is put in the place of another. -/
theorem get_set (hm : (keys m).Nodup) (hk : k ∉ keys m) {idx : Nat} {old : K} (hold : (keys m)[idx]? = some old) :
    get j (List.set m idx (k, v)) = if j = k then some v else if j = old then none else get j m := by
  induction m generalizing idx with
  | nil => simp [keys] at hold
  | cons e m ih =>
    obtain ⟨i, w⟩ := e
    obtain ⟨hnotMem, hrest⟩ := List.nodup_cons.mp hm
    simp only [keys, List.map_cons, List.mem_cons, not_or] at hk
    cases idx with
    | zero =>
      obtain rfl : i = old := Option.some.inj hold
      rw [List.set_cons_zero, get_cons, get_cons]
      by_cases hj : j = k
      · rw [if_pos hj.symm, if_pos hj]
      · rw [if_neg (Ne.symm hj), if_neg hj]
        by_cases hi : j = i
        · subst hi
          rw [if_pos rfl]
          exact get_eq_none.mpr hnotMem
        · rw [if_neg hi, if_neg (Ne.symm hi)]
    | succ idx =>
      have hold' : (keys m)[idx]? = some old := by simpa [keys] using hold
      have hne : i ≠ old := by
        rintro rfl
        exact hnotMem (List.mem_of_getElem? hold')
      rw [List.set_cons_succ, get_cons, get_cons, ih hrest hk.2 hold']
      by_cases hi : i = j
      · subst hi
        rw [if_pos rfl, if_pos rfl, if_neg (Ne.symm hk.1), if_neg hne]
      · rw [if_neg hi, if_neg hi]

end LinearMap

end LinearMaps
