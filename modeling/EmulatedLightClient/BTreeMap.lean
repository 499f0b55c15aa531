import Mathlib.Algebra.Ring.Nat
import Mathlib.Data.List.Nodup
import Mathlib.Order.Lattice

/-!
# Ordered maps

A map is a list of entries with strictly increasing keys. Lookups are reduced to
membership of entries, which is what every operation is stated about.
-/

structure BTreeMap (K V : Type) [LinearOrder K] where
  entries : List (K × V)
  sorted : entries.Pairwise fun a b => a.1 < b.1

namespace BTreeMap

variable {K V : Type} [LinearOrder K]

def empty : BTreeMap K V := ⟨[], List.Pairwise.nil⟩

def get (m : BTreeMap K V) (k : K) : Option V := (m.entries.find? (·.1 = k)).map (·.2)

theorem insert_sorted {entries : List (K × V)} (h : entries.Pairwise fun a b => a.1 < b.1)
    (k : K) (v : V) :
    (entries.filter (·.1 < k) ++ (k, v) :: entries.filter (k < ·.1)).Pairwise
      fun a b => a.1 < b.1 := by
  have hbelow : ∀ {a : K × V}, a ∈ entries.filter (·.1 < k) → a.1 < k := by
    intro a ha
    exact of_decide_eq_true (List.mem_filter.mp ha).2
  have habove : ∀ {b : K × V}, b ∈ entries.filter (k < ·.1) → k < b.1 := by
    intro b hb
    exact of_decide_eq_true (List.mem_filter.mp hb).2
  refine List.pairwise_append.mpr ⟨h.filter _, List.pairwise_cons.mpr ⟨?_, h.filter _⟩, ?_⟩
  · intro b hb
    exact habove hb
  · intro a ha b hb
    rcases List.mem_cons.mp hb with rfl | hb
    · exact hbelow ha
    · exact (hbelow ha).trans (habove hb)

def insert (m : BTreeMap K V) (k : K) (v : V) : BTreeMap K V :=
  ⟨m.entries.filter (·.1 < k) ++ (k, v) :: m.entries.filter (k < ·.1), insert_sorted m.sorted k v⟩

def remove (m : BTreeMap K V) (k : K) : BTreeMap K V :=
  ⟨m.entries.filter (·.1 ≠ k), m.sorted.filter _⟩

/-- The last entry with a key below the given one. -/
def lastBelow (m : BTreeMap K V) (k : K) : Option (K × V) := (m.entries.filter (·.1 < k)).getLast?

/-- The first entry with a key no less than the given one. -/
def firstFrom (m : BTreeMap K V) (k : K) : Option (K × V) := (m.entries.filter (k ≤ ·.1)).head?

def firstKeyValue (m : BTreeMap K V) : Option (K × V) := m.entries.head?

variable {m : BTreeMap K V} {k k' : K} {v v' : V}

/-- There is one entry for a key. -/
theorem eq_of_mem (h : (k, v) ∈ m.entries) (h' : (k, v') ∈ m.entries) : v = v' := by
  have hnodup : (m.entries.map Prod.fst).Nodup :=
    List.pairwise_map.mpr (m.sorted.imp fun hlt => hlt.ne)
  cases List.inj_on_of_nodup_map hnodup h h' rfl
  rfl

theorem get_eq_some : m.get k = some v ↔ (k, v) ∈ m.entries := by
  unfold get
  constructor
  · intro h
    obtain ⟨⟨k', v'⟩, hfind, rfl⟩ := Option.map_eq_some_iff.mp h
    have hk : k' = k := by simpa using List.find?_some hfind
    cases hk
    exact List.mem_of_find?_eq_some hfind
  · intro h
    cases hfind : m.entries.find? (·.1 = k) with
    | none => simpa using List.find?_eq_none.mp hfind (k, v) h
    | some e =>
      obtain ⟨k', v'⟩ := e
      have hk : k' = k := by simpa using List.find?_some hfind
      cases hk
      rw [Option.map_some, eq_of_mem (List.mem_of_find?_eq_some hfind) h]

theorem get_eq_none : m.get k = none ↔ ∀ v, (k, v) ∉ m.entries := by
  rw [Option.eq_none_iff_forall_ne_some]
  simp only [ne_eq, get_eq_some]

theorem mem_insert {e : K × V} :
    e ∈ (m.insert k v).entries ↔ e = (k, v) ∨ (e.1 ≠ k ∧ e ∈ m.entries) := by
  simp only [insert, List.mem_append, List.mem_cons, List.mem_filter, decide_eq_true_eq]
  constructor
  · rintro (⟨hmem, hlt⟩ | rfl | ⟨hmem, hlt⟩)
    · exact Or.inr ⟨hlt.ne, hmem⟩
    · exact Or.inl rfl
    · exact Or.inr ⟨hlt.ne', hmem⟩
  · rintro (rfl | ⟨hne, hmem⟩)
    · exact Or.inr (Or.inl rfl)
    · rcases hne.lt_or_gt with hlt | hlt
      · exact Or.inl ⟨hmem, hlt⟩
      · exact Or.inr (Or.inr ⟨hmem, hlt⟩)

theorem get_insert :
    (m.insert k v).get k' = some v' ↔ (k' = k ∧ v' = v) ∨ (k' ≠ k ∧ m.get k' = some v') := by
  rw [get_eq_some, mem_insert, get_eq_some, Prod.mk.injEq]

theorem get_remove : (m.remove k).get k' = some v ↔ k' ≠ k ∧ m.get k' = some v := by
  rw [get_eq_some, get_eq_some, remove, List.mem_filter, decide_eq_true_eq, and_comm]

theorem get_firstKeyValue (h : m.firstKeyValue = some (k, v)) : m.get k = some v :=
  get_eq_some.mpr (List.mem_of_head? h)

theorem lastBelow_eq_none (h : m.lastBelow k = none) (hk : k' < k) : m.get k' = none := by
  have hnil := List.getLast?_eq_none_iff.mp h
  refine get_eq_none.mpr fun v hmem => ?_
  have hin : (k', v) ∈ m.entries.filter (·.1 < k) :=
    List.mem_filter.mpr ⟨hmem, decide_eq_true hk⟩
  rw [hnil] at hin
  cases hin

theorem firstFrom_eq_none (h : m.firstFrom k = none) (hk : k ≤ k') : m.get k' = none := by
  have hnil := List.head?_eq_none_iff.mp h
  refine get_eq_none.mpr fun v hmem => ?_
  have hin : (k', v) ∈ m.entries.filter (k ≤ ·.1) :=
    List.mem_filter.mpr ⟨hmem, decide_eq_true hk⟩
  rw [hnil] at hin
  cases hin

theorem lastBelow_eq_some (h : m.lastBelow k = some (k', v)) :
    k' < k ∧ m.get k' = some v ∧ ∀ j, k' < j → j < k → m.get j = none := by
  obtain ⟨init, hinit⟩ := List.getLast?_eq_some_iff.mp h
  have hmem : (k', v) ∈ m.entries.filter (·.1 < k) := by simp [hinit]
  obtain ⟨hin, hlt⟩ := List.mem_filter.mp hmem
  refine ⟨of_decide_eq_true hlt, get_eq_some.mpr hin, fun j hj hjk => ?_⟩
  refine get_eq_none.mpr fun w hw => ?_
  have hw' : (j, w) ∈ m.entries.filter (·.1 < k) :=
    List.mem_filter.mpr ⟨hw, decide_eq_true hjk⟩
  rw [hinit, List.mem_append, List.mem_singleton] at hw'
  have hsorted := m.sorted.filter (·.1 < k)
  rw [hinit] at hsorted
  rcases hw' with hw' | heq
  · exact absurd ((List.pairwise_append.mp hsorted).2.2 _ hw' _ (List.mem_singleton.mpr rfl)) hj.asymm
  · cases heq
    exact lt_irrefl _ hj

theorem firstFrom_eq_some (h : m.firstFrom k = some (k', v)) :
    k ≤ k' ∧ m.get k' = some v ∧ ∀ j, k ≤ j → j < k' → m.get j = none := by
  obtain ⟨rest, hrest⟩ := List.head?_eq_some_iff.mp h
  have hmem : (k', v) ∈ m.entries.filter (k ≤ ·.1) := by simp [hrest]
  obtain ⟨hin, hle⟩ := List.mem_filter.mp hmem
  refine ⟨of_decide_eq_true hle, get_eq_some.mpr hin, fun j hj hjk => ?_⟩
  refine get_eq_none.mpr fun w hw => ?_
  have hw' : (j, w) ∈ m.entries.filter (k ≤ ·.1) :=
    List.mem_filter.mpr ⟨hw, decide_eq_true hj⟩
  rw [hrest, List.mem_cons] at hw'
  have hsorted := m.sorted.filter (k ≤ ·.1)
  rw [hrest] at hsorted
  rcases hw' with heq | hw'
  · cases heq
    exact lt_irrefl _ hjk
  · exact absurd ((List.pairwise_cons.mp hsorted).1 _ hw') hjk.asymm

end BTreeMap
