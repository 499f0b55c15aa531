import EmulatedLightClient.ListPrefix
import Mathlib.Logic.Function.Basic

/-!
# Partial maps on bit strings

The two ways in which a binary trie puts partial maps together: all keys start
with a given string, or the first bit of the key chooses between two maps.
Point updates commute with both.
-/

namespace BitMaps

open ListPrefix

universe u
variable {α : Type u} {f g l r : List Bool → Option α} {p q k : List Bool} {x : Option α}

/-- The map whose keys are those of `f` with `p` in front. -/
def under (p : List Bool) (f : List Bool → Option α) (k : List Bool) : Option α :=
  if p <+: k then f (k.drop p.length) else none

/-- The map in which the first bit of a key picks one of two maps. -/
def fork (l r : List Bool → Option α) : List Bool → Option α
  | [] => none
  | false :: k => l k
  | true :: k => r k

@[simp] theorem under_append_self (p k : List Bool) (f : List Bool → Option α) :
    under p f (p ++ k) = f k := by
  simp [under]

theorem under_eq_none (h : ¬ p <+: k) : under p f k = none := if_neg h

theorem under_eq_some {a : α} :
    under p f k = some a ↔ ∃ rest, k = p ++ rest ∧ f rest = some a := by
  constructor
  · intro h
    unfold under at h
    split at h
    · rename_i hp
      exact ⟨_, (List.prefix_iff_eq_append.mp hp).symm, h⟩
    · cases h
  · rintro ⟨rest, rfl, h⟩
    rwa [under_append_self]

@[simp] theorem under_nil (f : List Bool → Option α) : under [] f = f := by
  funext k
  simp [under]

theorem under_append (p q : List Bool) (f : List Bool → Option α) :
    under (p ++ q) f = under p (under q f) := by
  funext k
  apply Option.ext
  intro a
  simp only [under_eq_some]
  constructor
  · rintro ⟨rest, rfl, h⟩
    exact ⟨q ++ rest, by simp, rest, rfl, h⟩
  · rintro ⟨-, rfl, rest, rfl, h⟩
    exact ⟨rest, by simp, h⟩

@[simp] theorem under_none (p : List Bool) : under p (fun _ => none : List Bool → Option α) =
    fun _ => none := by
  funext k
  simp [under]

theorem under_cons (b : Bool) (p : List Bool) (f : List Bool → Option α) :
    under (b :: p) f =
      if b then fork (fun _ => none) (under p f) else fork (under p f) fun _ => none := by
  funext k
  cases k with
  | nil => cases b <;> simp [under, fork]
  | cons c k => cases b <;> cases c <;> simp [under, fork]

theorem under_update (p k : List Bool) (f : List Bool → Option α) (x : Option α) :
    under p (Function.update f k x) = Function.update (under p f) (p ++ k) x := by
  funext k'
  by_cases hp : p <+: k'
  · obtain ⟨rest, rfl⟩ := hp
    by_cases hk : rest = k
    · simp [hk]
    · simp [hk]
  · have hne : k' ≠ p ++ k := fun he => hp (he ▸ List.prefix_append p k)
    rw [under_eq_none hp, Function.update_of_ne hne, under_eq_none hp]

theorem fork_update_left (k : List Bool) (x : Option α) :
    fork (Function.update l k x) r = Function.update (fork l r) (false :: k) x := by
  funext k'
  match k' with
  | [] => simp [fork]
  | true :: k' => simp [fork]
  | false :: k' =>
    by_cases hk : k' = k
    · simp [fork, hk]
    · simp [fork, hk]

theorem fork_update_right (k : List Bool) (x : Option α) :
    fork l (Function.update r k x) = Function.update (fork l r) (true :: k) x := by
  funext k'
  match k' with
  | [] => simp [fork]
  | false :: k' => simp [fork]
  | true :: k' =>
    by_cases hk : k' = k
    · simp [fork, hk]
    · simp [fork, hk]

theorem fork_eq_some {a : α} :
    fork l r k = some a ↔ ∃ bit rest, k = bit :: rest ∧ (if bit then r else l) rest = some a := by
  constructor
  · intro h
    match k with
    | [] => cases h
    | false :: k => exact ⟨false, k, rfl, h⟩
    | true :: k => exact ⟨true, k, rfl, h⟩
  · rintro ⟨bit, rest, rfl, h⟩
    cases bit
    · exact h
    · exact h

/-- A map with a single key. -/
theorem under_single (p : List Bool) (a : α) :
    under p (Function.update (fun _ => none) [] (some a)) =
      Function.update (fun _ => none) p (some a) := by
  rw [under_update, under_none, List.append_nil]

theorem under_map {β : Type u} (g : α → β) (p : List Bool) (f : List Bool → Option α) :
    under p (fun k => (f k).map g) = fun k => (under p f k).map g := by
  funext k
  unfold under
  split <;> rfl

theorem fork_map {β : Type u} (g : α → β) (l r : List Bool → Option α) :
    fork (fun k => (l k).map g) (fun k => (r k).map g) = fun k => (fork l r k).map g := by
  funext k
  match k with
  | [] => rfl
  | false :: k => rfl
  | true :: k => rfl

theorem under_injective (p : List Bool) :
    Function.Injective (under p : (List Bool → Option α) → List Bool → Option α) := by
  intro f g h
  funext k
  have := congrFun h (p ++ k)
  rwa [under_append_self, under_append_self] at this

theorem fork_inj {l' r' : List Bool → Option α} (h : fork l r = fork l' r') : l = l' ∧ r = r' :=
  ⟨funext fun k => congrFun h (false :: k), funext fun k => congrFun h (true :: k)⟩

/-- No key of the map is a proper prefix of another one. -/
def PrefixFree (f : List Bool → Option α) : Prop :=
  ∀ ⦃k k' : List Bool⦄ ⦃a b : α⦄, f k = some a → f k' = some b → k <+: k' → k = k'

theorem prefixFree_under (h : PrefixFree f) (p : List Bool) : PrefixFree (under p f) := by
  intro k k' a b hk hk' hpre
  obtain ⟨rest, rfl, hrest⟩ := under_eq_some.mp hk
  obtain ⟨rest', rfl, hrest'⟩ := under_eq_some.mp hk'
  rw [h hrest hrest' ((List.prefix_append_right_inj p).mp hpre)]

theorem prefixFree_fork (hl : PrefixFree l) (hr : PrefixFree r) : PrefixFree (fork l r) := by
  intro k k' a b hk hk' hpre
  obtain ⟨bit, rest, rfl, hrest⟩ := fork_eq_some.mp hk
  obtain ⟨bit', rest', rfl, hrest'⟩ := fork_eq_some.mp hk'
  obtain ⟨rfl, htail⟩ := List.cons_prefix_cons.mp hpre
  cases bit with
  | false => rw [hl hrest hrest' htail]
  | true => rw [hr hrest hrest' htail]

/-- Another key of the map is a prefix of `k`, or `k` is a prefix of it. -/
def Conflicts (f : List Bool → Option α) (k : List Bool) : Prop :=
  ∃ k' a, f k' = some a ∧ k' ≠ k ∧ (k <+: k' ∨ k' <+: k)

theorem Conflicts.under (h : Conflicts f k) (p : List Bool) :
    Conflicts (BitMaps.under p f) (p ++ k) := by
  obtain ⟨k', a, hk', hne, hpre⟩ := h
  refine ⟨p ++ k', a, by rwa [under_append_self], by simpa using hne, ?_⟩
  simpa [List.prefix_append_right_inj] using hpre

theorem Conflicts.left (h : Conflicts l k) : Conflicts (fork l r) (false :: k) := by
  obtain ⟨k', a, hk', hne, hpre⟩ := h
  exact ⟨false :: k', a, hk', by simpa using hne, by simpa using hpre⟩

theorem Conflicts.right (h : Conflicts r k) : Conflicts (fork l r) (true :: k) := by
  obtain ⟨k', a, hk', hne, hpre⟩ := h
  exact ⟨true :: k', a, hk', by simpa using hne, by simpa using hpre⟩

/-- Keys of a prefix-free map do not conflict with it. -/
theorem PrefixFree.not_conflicts (h : PrefixFree f) {a : α} (hk : f k = some a) :
    ¬ Conflicts f k := by
  rintro ⟨k', b, hk', hne, hpre | hpre⟩
  · exact hne (h hk hk' hpre).symm
  · exact hne (h hk' hk hpre)

end BitMaps
