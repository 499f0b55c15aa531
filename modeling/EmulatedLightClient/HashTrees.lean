import EmulatedLightClient.Buffers
import Mathlib.Data.List.Basic
import Mathlib.Data.List.Induction
import Mathlib.Data.List.InsertIdx
import Mathlib.Data.Set.Function

/-!
# Hash trees of given fanout

Nodes of a level are put together in chunks, and what is made of the chunks is the next level. A path
from a node upwards lists, level by level, the other nodes of its chunk.
-/

namespace HashTrees

open Buffers

universe u
variable {α : Type u}

def chunkCount (k n : Nat) : Nat := (n + k - 1) / k

/-- Pieces of `k` elements, the last of which may be shorter. -/
def chunks (k : Nat) (l : List α) : List (List α) :=
  (List.range (chunkCount k l.length)).map fun i => slice l (k * i) k

variable {k n i j : Nat} {l : List α}

theorem chunkCount_lt (hk : 1 < k) (hn : 1 < n) : chunkCount k n < n := by
  refine Nat.div_lt_of_lt_mul ?_
  obtain ⟨a, rfl⟩ := Nat.exists_eq_add_of_lt hk
  obtain ⟨b, rfl⟩ := Nat.exists_eq_add_of_lt hn
  simp only [Nat.add_mul, Nat.mul_add]
  omega

theorem lt_chunkCount (hk : 0 < k) : i < chunkCount k n ↔ k * i < n := by
  rw [chunkCount, Nat.lt_div_iff_mul_lt hk, Nat.mul_comm]
  omega

theorem chunkCount_le_one (hk : 0 < k) : chunkCount k n ≤ 1 ↔ n ≤ k := by
  have h := lt_chunkCount (i := 1) (n := n) hk
  rw [Nat.mul_one] at h
  omega

theorem chunkCount_pos (hk : 0 < k) : 0 < chunkCount k n ↔ 0 < n := by
  rw [lt_chunkCount hk, Nat.mul_zero]

/-- Chunks of chunks are chunks. -/
theorem chunkCount_chunkCount {m : Nat} (hk : 0 < k) (hm : 0 < m) :
    chunkCount k (chunkCount m n) = chunkCount (m * k) n := by
  refine eq_of_forall_lt_iff fun i => ?_
  rw [lt_chunkCount hk, lt_chunkCount hm, lt_chunkCount (Nat.mul_pos hm hk), Nat.mul_assoc]

theorem chunkCount_one : chunkCount 1 n = n := by
  rw [chunkCount, Nat.add_sub_cancel, Nat.div_one]

@[simp] theorem length_chunks : (chunks k l).length = chunkCount k l.length := by
  rw [chunks, List.length_map, List.length_range]

theorem getElem?_chunks : (chunks k l)[i]? = if i < chunkCount k l.length then some (slice l (k * i) k) else none := by
  rw [chunks, List.getElem?_map]
  split
  · rename_i h
    rw [List.getElem?_range h, Option.map_some]
  · rename_i h
    rw [List.getElem?_eq_none (by simpa using h), Option.map_none]

/-- The place of an element in its chunk. -/
theorem getElem?_slice_mod (hk : 0 < k) (i : Nat) : (slice l (k * (i / k)) k)[i % k]? = l[i]? := by
  rw [getElem?_slice, if_pos (Nat.mod_lt i hk), Nat.div_add_mod]

theorem div_lt_chunkCount (hk : 0 < k) (hi : i < n) : i / k < chunkCount k n := by
  rw [lt_chunkCount hk]
  exact (Nat.mul_div_le i k).trans_lt hi

theorem length_chunk (l : List α) (k i : Nat) : (slice l (k * i) k).length = min k (l.length - k * i) := by
  rw [slice, List.length_take, List.length_drop]

section

variable (k) (combine : List α → α)

def level (l : List α) : List α := (chunks k l).map combine

/-- Levels above given nodes until there is only one, or none. -/
def topmost : Nat → List α → List α
  | 0, l => l
  | fuel + 1, l => if 1 < l.length then topmost fuel (level k combine l) else l

end

variable {combine : List α → α}

@[simp] theorem length_level : (level k combine l).length = chunkCount k l.length := by
  rw [level, List.length_map, length_chunks]

theorem getElem?_level (h : i < chunkCount k l.length) :
    (level k combine l)[i]? = some (combine (slice l (k * i) k)) := by
  rw [level, List.getElem?_map, getElem?_chunks, if_pos h, Option.map_some]

theorem level_singleton (hk : 0 < k) (x : α) : level k combine [x] = [combine [x]] := by
  have hcount : chunkCount k 1 = 1 := by rw [chunkCount, Nat.add_sub_cancel_left, Nat.div_self hk]
  have htake : slice [x] 0 k = [x] := List.take_of_length_le (by rw [List.drop_zero]; exact hk)
  rw [level, chunks, List.length_singleton, hcount, List.range_one, List.map_singleton, List.map_singleton,
    Nat.mul_zero, htake]

theorem mem_level {x : α} (h : x ∈ level k combine l) :
    ∃ i, i < chunkCount k l.length ∧ combine (slice l (k * i) k) = x := by
  simpa [level, chunks] using h

theorem topmost_of_le_one {fuel : Nat} (h : l.length ≤ 1) : topmost k combine fuel l = l := by
  cases fuel with
  | zero => rfl
  | succ fuel => rw [topmost, if_neg (by omega)]

theorem topmost_of_lt {fuel : Nat} (h : 1 < l.length) :
    topmost k combine (fuel + 1) l = topmost k combine fuel (level k combine l) := by
  rw [topmost, if_pos h]

/-- As many steps as there are nodes are enough. -/
theorem topmost_stable (hk : 1 < k) {fuel fuel' : Nat} (h : l.length ≤ fuel) (h' : l.length ≤ fuel') :
    topmost k combine fuel l = topmost k combine fuel' l := by
  induction fuel generalizing l fuel' with
  | zero => rw [topmost_of_le_one (by omega), topmost_of_le_one (by omega)]
  | succ fuel ih =>
    rcases Nat.lt_or_ge 1 l.length with hlt | hle
    · have hshrinks := chunkCount_lt hk hlt
      obtain ⟨fuel', rfl⟩ : ∃ f, fuel' = f + 1 := ⟨fuel' - 1, by omega⟩
      rw [topmost_of_lt hlt, topmost_of_lt hlt]
      exact ih (by rw [length_level]; omega) (by rw [length_level]; omega)
    · rw [topmost_of_le_one hle, topmost_of_le_one hle]

theorem length_topmost (hk : 1 < k) (hne : l ≠ []) {fuel : Nat} (h : l.length ≤ fuel) :
    (topmost k combine fuel l).length = 1 := by
  induction fuel generalizing l with
  | zero => exact absurd (List.length_eq_zero_iff.mp (by omega)) hne
  | succ fuel ih =>
    rcases Nat.lt_or_ge 1 l.length with hlt | hle
    · have hshrinks := chunkCount_lt hk hlt
      have hpos := (chunkCount_pos (k := k) (n := l.length) (by omega)).mpr (by omega)
      rw [topmost_of_lt hlt]
      refine ih ?_ (by rw [length_level]; omega)
      rw [← List.length_pos_iff, length_level]
      exact hpos
    · rw [topmost_of_le_one hle]
      have := List.length_pos_iff.mpr hne
      omega

section

variable (combine)

/-- The node above, given the place among its siblings. -/
def parent (x : α) (step : Nat × List α) : α := combine (step.2.take step.1 ++ x :: step.2.drop step.1)

def climb (steps : List (Nat × List α)) (x : α) : α := steps.foldl (parent combine) x

end

section

variable (k) (combine)

/-- The way from a node to the topmost level. -/
def pathUp : Nat → List α → Nat → List (Nat × List α)
  | 0, _, _ => []
  | fuel + 1, l, i =>
    if 1 < l.length then
      (i % k, (slice l (k * (i / k)) k).eraseIdx (i % k)) :: pathUp fuel (level k combine l) (i / k)
    else []

end

theorem climb_concat (steps : List (Nat × List α)) (step : Nat × List α) (x : α) :
    climb combine (steps ++ [step]) x = parent combine (climb combine steps x) step := by
  rw [climb, List.foldl_append]
  rfl

/-- A node put back among its siblings makes its chunk. -/
theorem parent_eraseIdx {chunk : List α} {x : α} (h : chunk[i]? = some x) :
    parent combine x (i, chunk.eraseIdx i) = combine chunk := by
  obtain ⟨hlt, rfl⟩ := List.getElem?_eq_some_iff.mp h
  have htake : (chunk.eraseIdx i).take i = chunk.take i := List.take_eraseIdx_eq_take_of_le _ _ _ le_rfl
  have hdrop : (chunk.eraseIdx i).drop i = chunk.drop (i + 1) := by
    rw [List.eraseIdx_eq_take_drop_succ, List.drop_append_of_le_length (by rw [List.length_take]; omega),
      List.drop_eq_nil_of_le (by rw [List.length_take]; omega), List.nil_append]
  simp only [parent, htake, hdrop, List.getElem_cons_drop, List.take_append_drop]

/-- The step from a node to the level above. -/
theorem parent_level (hk : 0 < k) {x : α} (h : l[i]? = some x) :
    (level k combine l)[i / k]? = some (parent combine x (i % k, (slice l (k * (i / k)) k).eraseIdx (i % k))) := by
  obtain ⟨hlt, -⟩ := List.getElem?_eq_some_iff.mp h
  rw [getElem?_level (div_lt_chunkCount hk hlt), parent_eraseIdx (by rw [getElem?_slice_mod hk, h])]

variable (combine) in
/-- The path from a node leads to the one at the top. -/
theorem climb_pathUp (hk : 1 < k) {x : α} (h : l[i]? = some x) {fuel : Nat} (hfuel : l.length ≤ fuel) :
    topmost k combine fuel l = [climb combine (pathUp k combine fuel l i) x] := by
  induction fuel generalizing l i x with
  | zero =>
    obtain ⟨hlt, -⟩ := List.getElem?_eq_some_iff.mp h
    omega
  | succ fuel ih =>
    rw [topmost, pathUp]
    split
    · rename_i hlt
      have hshrinks := chunkCount_lt hk hlt
      rw [ih (parent_level (by omega) h) (by rw [length_level]; omega)]
      rfl
    · rename_i hle
      obtain ⟨hlt, rfl⟩ := List.getElem?_eq_some_iff.mp h
      obtain ⟨y, rfl⟩ := List.length_eq_one_iff.mp (by omega : l.length = 1)
      obtain rfl : i = 0 := by simpa using hlt
      rfl

/-- At each level with more than one node, the chunk of the given one has others in it. -/
def HasSiblings (k n i : Nat) : Prop :=
  ∀ j, 1 < chunkCount (k ^ j) n → chunkCount (k ^ j) n ≠ k * (i / k ^ (j + 1)) + 1

theorem hasSiblings_of_le_one (hk : 0 < k) (hn : n ≤ 1) : HasSiblings k n i := by
  intro j hj
  have hpow : 0 < k ^ j := Nat.pow_pos hk
  have hle := (chunkCount_le_one (n := n) hpow).mpr (by omega)
  omega

theorem hasSiblings_iff (hk : 0 < k) :
    HasSiblings k n i ↔ (1 < n → n ≠ k * (i / k) + 1) ∧ HasSiblings k (chunkCount k n) (i / k) := by
  have hup : ∀ j, chunkCount (k ^ j) (chunkCount k n) = chunkCount (k ^ (j + 1)) n := by
    intro j
    rw [chunkCount_chunkCount (Nat.pow_pos hk) hk, Nat.pow_succ']
  have hdiv : ∀ j, i / k / k ^ j = i / k ^ (j + 1) := by
    intro j
    rw [Nat.div_div_eq_div_mul, Nat.pow_succ']
  constructor
  · intro h
    constructor
    · have h0 := h 0
      rwa [Nat.pow_zero, chunkCount_one, Nat.zero_add, Nat.pow_one] at h0
    · intro j
      rw [hup, hdiv]
      exact h (j + 1)
  · rintro ⟨h0, habove⟩ j
    cases j with
    | zero => rwa [Nat.pow_zero, chunkCount_one, Nat.zero_add, Nat.pow_one]
    | succ j =>
      have hj := habove j
      rwa [hup, hdiv] at hj

theorem eraseIdx_chunk_eq_nil_iff (hk : 0 < k) (hi : i < l.length) :
    (slice l (k * (i / k)) k).eraseIdx (i % k) = [] ↔ k = 1 ∨ l.length = k * (i / k) + 1 := by
  have hdiv := Nat.div_add_mod i k
  have hmod := Nat.mod_lt i hk
  have hlength := length_chunk l k (i / k)
  rw [← List.length_eq_zero_iff, List.length_eraseIdx_of_lt (by omega), hlength]
  omega

variable (combine) in
/-- A path has siblings at each step exactly if its start has at each level. -/
theorem pathUp_ne_nil_iff (hk : 1 < k) {fuel : Nat} (hi : i < l.length) (hfuel : l.length ≤ fuel) :
    (∀ step ∈ pathUp k combine fuel l i, step.2 ≠ []) ↔ HasSiblings k l.length i := by
  induction fuel generalizing l i with
  | zero => omega
  | succ fuel ih =>
    rw [pathUp]
    split
    · rename_i hlt
      have hshrinks := chunkCount_lt hk hlt
      have hcount : (level k combine l).length = chunkCount k l.length := length_level
      rw [List.forall_mem_cons, hasSiblings_iff (by omega), ← hcount,
        ih (by rw [length_level]; exact div_lt_chunkCount (by omega) hi) (by rw [length_level]; omega), Ne,
        eraseIdx_chunk_eq_nil_iff (by omega) hi]
      refine and_congr_left fun _ => ?_
      omega
    · rename_i hle
      exact iff_of_true nofun (hasSiblings_of_le_one (by omega) (by omega))

section

variable (combine)

/-- What is combined along a path. -/
def pathInputs : List (Nat × List α) → α → List (List α)
  | [], _ => []
  | step :: steps, x => (step.2.take step.1 ++ x :: step.2.drop step.1) :: pathInputs steps (parent combine x step)

variable (k)

/-- What is combined to make the levels above. -/
def topmostInputs : Nat → List α → List (List α)
  | 0, _ => []
  | fuel + 1, l => if 1 < l.length then chunks k l ++ topmostInputs fuel (level k combine l) else []

end

theorem pathInputs_append (steps steps' : List (Nat × List α)) (x : α) :
    pathInputs combine (steps ++ steps') x =
      pathInputs combine steps x ++ pathInputs combine steps' (climb combine steps x) := by
  induction steps generalizing x with
  | nil => rfl
  | cons s steps ih =>
    rw [List.cons_append, pathInputs, pathInputs, ih]
    rfl

section

variable {S : Set (List α)} {x : α} {steps : List (Nat × List α)}

/-- Where a path ends at what is not made from anything, it has no steps. -/
theorem start_of_climb {y : α} (hsteps : ∀ c ∈ pathInputs combine steps x, c ∈ S) (hy : ∀ c ∈ S, combine c ≠ y)
    (h : climb combine steps x = y) : x = y := by
  rcases List.eq_nil_or_concat steps with rfl | ⟨before, step, rfl⟩
  · exact h
  · rw [List.concat_eq_append] at h hsteps
    rw [climb_concat] at h
    rw [pathInputs_append] at hsteps
    exact absurd h (hy _ (hsteps _ (List.mem_append_right _ List.mem_cons_self)))

/-- Where different inputs make different nodes, a path into a level whose start is not made from
anything comes from the level below. -/
theorem climb_mem_below (hinj : Set.InjOn combine S) (hchunks : ∀ c ∈ chunks k l, c ∈ S)
    (hsteps : ∀ c ∈ pathInputs combine steps x, c ∈ S) (hx : ∀ c ∈ S, combine c ≠ x)
    (h : climb combine steps x ∈ level k combine l) :
    ∃ before step, steps = before ++ [step] ∧ climb combine before x ∈ l := by
  obtain ⟨i, hi, hmade⟩ := mem_level h
  have hchunk := hchunks _ (List.mem_map.mpr ⟨i, List.mem_range.mpr hi, rfl⟩)
  rcases List.eq_nil_or_concat steps with rfl | ⟨before, step, rfl⟩
  · exact absurd hmade (hx _ hchunk)
  · rw [List.concat_eq_append] at hmade hsteps ⊢
    rw [climb_concat, parent] at hmade
    rw [pathInputs_append] at hsteps
    have hinput := hsteps _ (List.mem_append_right _ List.mem_cons_self)
    have hsame := hinj hchunk hinput hmade
    refine ⟨before, step, rfl, ?_⟩
    have hmem : climb combine before x ∈ slice l (k * i) k := by
      rw [hsame]
      simp
    exact List.mem_of_mem_drop (List.mem_of_mem_take hmem)

theorem climb_mem_of_topmost (hinj : Set.InjOn combine S) (hx : ∀ c ∈ S, combine c ≠ x) {fuel : Nat}
    (hlevels : ∀ c ∈ topmostInputs k combine fuel l, c ∈ S) (hsteps : ∀ c ∈ pathInputs combine steps x, c ∈ S)
    (h : climb combine steps x ∈ topmost k combine fuel l) :
    ∃ before after, steps = before ++ after ∧ climb combine before x ∈ l := by
  induction fuel generalizing l steps with
  | zero => exact ⟨steps, [], (List.append_nil _).symm, h⟩
  | succ fuel ih =>
    rw [topmost] at h
    rw [topmostInputs] at hlevels
    split at h
    · rename_i hlt
      rw [if_pos hlt] at hlevels
      obtain ⟨before, after, rfl, hbefore⟩ := ih (fun c hc => hlevels c (List.mem_append_right _ hc)) hsteps h
      have hprefix : ∀ c ∈ pathInputs combine before x, c ∈ S := by
        intro c hc
        rw [pathInputs_append] at hsteps
        exact hsteps c (List.mem_append_left _ hc)
      obtain ⟨before', step, rfl, hmem⟩ :=
        climb_mem_below hinj (fun c hc => hlevels c (List.mem_append_left _ hc)) hprefix hx hbefore
      exact ⟨before', [step] ++ after, by simp, hmem⟩
    · exact ⟨steps, [], (List.append_nil _).symm, h⟩

/-- A path to the top from what is not made of anything starts at one of the nodes at the bottom. -/
theorem mem_of_climb (hinj : Set.InjOn combine S) (hx : ∀ c ∈ S, combine c ≠ x) (hl : ∀ y ∈ l, ∀ c ∈ S, combine c ≠ y)
    {fuel : Nat} (hchunks : ∀ c ∈ chunks k l, c ∈ S) (hlevels : ∀ c ∈ topmostInputs k combine fuel (level k combine l), c ∈ S)
    (hsteps : ∀ c ∈ pathInputs combine steps x, c ∈ S)
    (h : climb combine steps x ∈ topmost k combine fuel (level k combine l)) : x ∈ l := by
  obtain ⟨before, after, rfl, hbefore⟩ := climb_mem_of_topmost hinj hx hlevels hsteps h
  rw [pathInputs_append] at hsteps
  have hinputs := fun c hc => hsteps c (List.mem_append_left _ hc)
  obtain ⟨start, step, rfl, hstart⟩ := climb_mem_below hinj hchunks hinputs hx hbefore
  rw [pathInputs_append] at hinputs
  rw [start_of_climb (fun c hc => hinputs c (List.mem_append_left _ hc)) (hl _ hstart) rfl]
  exact hstart

end

end HashTrees
