import EmulatedLightClient.BitMaps
import Mathlib.Data.Bool.Basic

/-!
# Listings of partial maps on bit strings

A listing has the keys of a map in lexicographic order, each with its value.
One entry without a value may stand for everything at the keys which start with
its own. Listings are put together the way the maps are.
-/

namespace BitMaps

universe u v
variable {α : Type u} {β : Type v} {f l r : List Bool → Option α} {p q k k' : List Bool} {a : α}

/-- The strings part at a bit which only the second one has set. -/
def Before (k k' : List Bool) : Prop :=
  ∃ p rest rest', k = p ++ false :: rest ∧ k' = p ++ true :: rest'

theorem before_cons (k k' : List Bool) : Before (false :: k) (true :: k') := ⟨[], k, k', rfl, rfl⟩

theorem Before.append (h : Before k k') (p : List Bool) : Before (p ++ k) (p ++ k') := by
  obtain ⟨q, rest, rest', rfl, rfl⟩ := h
  exact ⟨p ++ q, rest, rest', (List.append_assoc ..).symm, (List.append_assoc ..).symm⟩

theorem Before.lt (h : Before k k') : k < k' := by
  obtain ⟨p, rest, rest', rfl, rfl⟩ := h
  exact List.append_left_lt (List.Lex.rel Bool.false_lt_true)

/-- Strings which part have no common extension. -/
theorem Before.not_both (h : Before k k') (hk : k <+: q) (hk' : k' <+: q) : False := by
  obtain ⟨p, rest, rest', rfl, rfl⟩ := h
  obtain ⟨tail, rfl⟩ := hk
  rw [List.append_assoc, List.prefix_append_right_inj, List.cons_append,
    List.cons_prefix_cons] at hk'
  cases hk'.1

theorem Before.not_prefix (h : Before k k') : ¬ k <+: k' ∧ ¬ k' <+: k :=
  ⟨fun hp => h.not_both hp List.prefix_rfl, fun hp => h.not_both List.prefix_rfl hp⟩

/-- In an ordered list at most one entry has a key which starts a given string. -/
theorem eq_of_prefix {es : List β} {key : β → List Bool}
    (h : es.Pairwise fun e e' => Before (key e) (key e')) {e e' : β} (he : e ∈ es) (he' : e' ∈ es)
    (hk : key e <+: k) (hk' : key e' <+: k) : e = e' := by
  have hall : es.Pairwise fun e e' => key e <+: k → key e' <+: k → e = e' :=
    h.imp fun hb h₁ h₂ => absurd h₂ (hb.not_both h₁)
  exact List.Pairwise.forall_of_forall_of_flip (fun _ _ _ _ => rfl) hall
    (hall.imp fun heq h₁ h₂ => (heq h₂ h₁).symm) he he' hk hk'

def below (k : List Bool) (f : List Bool → Option α) (rest : List Bool) : Option α := f (k ++ rest)

@[simp] theorem below_nil (f : List Bool → Option α) : below [] f = f := rfl

theorem below_under (p k : List Bool) (f : List Bool → Option α) :
    below (p ++ k) (under p f) = below k f := by
  funext rest
  rw [below, List.append_assoc, under_append_self]
  rfl

theorem below_under_longer (k p : List Bool) (f : List Bool → Option α) :
    below k (under (k ++ p) f) = under p f := by
  rw [under_append]
  funext rest
  rw [below, under_append_self]

theorem below_under_none (h : ¬ p <+: k) (h' : ¬ k <+: p) :
    below k (under p f) = fun _ => none := by
  funext rest
  apply under_eq_none
  intro hp
  rcases Nat.le_total p.length k.length with hlen | hlen
  · exact h (List.prefix_of_prefix_length_le hp (List.prefix_append k rest) hlen)
  · exact h' (List.prefix_of_prefix_length_le (List.prefix_append k rest) hp hlen)

theorem below_single (hk : k ≠ []) (x : Option α) :
    below k (Function.update (fun _ => none) [] x) = fun _ => none := by
  funext rest
  rw [below, Function.update_of_ne]
  simp [hk]

abbrev Listing (α : Type u) := List (List Bool × Option α)

/-- The listing with `p` in front of its keys. -/
def Listing.under (p : List Bool) (es : Listing α) : Listing α := es.map fun e => (p ++ e.1, e.2)

theorem Listing.under_under (p q : List Bool) (es : Listing α) :
    under p (under q es) = under (p ++ q) es := by
  simp [under, Function.comp_def]

@[simp] theorem Listing.under_nil (es : Listing α) : under [] es = es := by
  simp [under]

theorem Listing.mem_under {es : Listing α} {e : List Bool × Option α} :
    e ∈ under p es ↔ ∃ k, (k, e.2) ∈ es ∧ e.1 = p ++ k := by
  obtain ⟨k, x⟩ := e
  simp only [under, List.mem_map, Prod.mk.injEq]
  constructor
  · rintro ⟨⟨k', x'⟩, he, rfl, rfl⟩
    exact ⟨k', he, rfl⟩
  · rintro ⟨k', he, rfl⟩
    exact ⟨(k', x), he, rfl, rfl⟩

/-- The entries are ordered and no key starts another one, the values listed are
those of the map, every key of the map is listed or starts with an entry which
has no value, and values not listed for the latter reason are `Hidden`. -/
structure Lists (Hidden : α → Prop) (es : Listing α) (f : List Bool → Option α) : Prop where
  ordered : es.Pairwise fun e e' => Before e.1 e'.1
  sound : ∀ k a, (k, some a) ∈ es → f k = some a
  covers : ∀ k a, f k = some a → (k, some a) ∈ es ∨ ∃ p, (p, none) ∈ es ∧ p <+: k
  hidden : ∀ p k a, (p, none) ∈ es → p <+: k → f k = some a → Hidden a

variable {Hidden : α → Prop} {es es' : Listing α}

theorem lists_none : Lists Hidden [] (fun _ => none) where
  ordered := List.Pairwise.nil
  sound _ _ h := absurd h List.not_mem_nil
  covers _ _ h := absurd h.symm (Option.some_ne_none _)
  hidden _ _ _ h := absurd h List.not_mem_nil

theorem lists_single (a : α) :
    Lists Hidden [([], some a)] (Function.update (fun _ => none) [] (some a)) where
  ordered := List.pairwise_singleton _ _
  sound k a' h := by
    cases List.mem_singleton.mp h
    exact Function.update_self ..
  covers k a' h := by
    by_cases hk : k = []
    · subst hk
      rw [Function.update_self] at h
      rw [h]
      exact Or.inl (List.mem_singleton_self _)
    · rw [Function.update_of_ne hk] at h
      cases h
  hidden p k a' h := by
    cases List.mem_singleton.mp h

/-- One entry stands for a map all of whose values may be hidden. -/
theorem lists_hidden (h : ∀ k a, f k = some a → Hidden a) : Lists Hidden [([], none)] f where
  ordered := List.pairwise_singleton _ _
  sound k a he := by
    cases List.mem_singleton.mp he
  covers k _ _ := Or.inr ⟨[], List.mem_singleton_self _, List.nil_prefix⟩
  hidden _ k a _ _ hk := h k a hk

theorem Lists.under (h : Lists Hidden es f) (p : List Bool) :
    Lists Hidden (es.under p) (under p f) where
  ordered := List.pairwise_map.mpr (h.ordered.imp fun hb => hb.append p)
  sound k a he := by
    obtain ⟨rest, hmem, rfl⟩ := Listing.mem_under.mp he
    rw [under_append_self]
    exact h.sound rest a hmem
  covers k a hk := by
    obtain ⟨rest, rfl, hrest⟩ := under_eq_some.mp hk
    rcases h.covers rest a hrest with hmem | ⟨q, hmem, hq⟩
    · exact Or.inl (Listing.mem_under.mpr ⟨rest, hmem, rfl⟩)
    · exact Or.inr ⟨p ++ q, Listing.mem_under.mpr ⟨q, hmem, rfl⟩,
        (List.prefix_append_right_inj p).mpr hq⟩
  hidden q k a he hq hk := by
    obtain ⟨rest, rfl, hrest⟩ := under_eq_some.mp hk
    obtain ⟨q, hmem, rfl⟩ := Listing.mem_under.mp he
    exact h.hidden q rest a hmem ((List.prefix_append_right_inj p).mp hq) hrest

/-- The entries of a fork come from the side their first bit says. -/
theorem mem_fork {e : List Bool × Option α} :
    e ∈ Listing.under [false] es ++ Listing.under [true] es' ↔
      ∃ bit k, e.1 = bit :: k ∧ (k, e.2) ∈ if bit then es' else es := by
  rw [List.mem_append, Listing.mem_under, Listing.mem_under]
  constructor
  · rintro (⟨k, he, hk⟩ | ⟨k, he, hk⟩)
    · exact ⟨false, k, hk, he⟩
    · exact ⟨true, k, hk, he⟩
  · rintro ⟨bit, k, hk, he⟩
    cases bit with
    | false => exact Or.inl ⟨k, he, hk⟩
    | true => exact Or.inr ⟨k, he, hk⟩

theorem Lists.fork (hl : Lists Hidden es l) (hr : Lists Hidden es' r) :
    Lists Hidden (Listing.under [false] es ++ Listing.under [true] es') (fork l r) := by
  have hside : ∀ bit : Bool, Lists Hidden (if bit then es' else es) (if bit then r else l) := by
    intro bit
    cases bit
    · exact hl
    · exact hr
  refine ⟨?_, ?_, ?_, ?_⟩
  · refine List.pairwise_append.mpr ⟨(hl.under [false]).ordered, (hr.under [true]).ordered, ?_⟩
    intro e he e' he'
    obtain ⟨k, -, hk⟩ := Listing.mem_under.mp he
    obtain ⟨k', -, hk'⟩ := Listing.mem_under.mp he'
    rw [hk, hk']
    exact before_cons k k'
  · intro k a he
    obtain ⟨bit, rest, rfl, hmem⟩ := mem_fork.mp he
    exact fork_eq_some.mpr ⟨bit, rest, rfl, (hside bit).sound rest a hmem⟩
  · intro k a hk
    obtain ⟨bit, rest, rfl, hrest⟩ := fork_eq_some.mp hk
    rcases (hside bit).covers rest a hrest with hmem | ⟨q, hmem, hq⟩
    · exact Or.inl (mem_fork.mpr ⟨bit, rest, rfl, hmem⟩)
    · exact Or.inr ⟨bit :: q, mem_fork.mpr ⟨bit, q, rfl, hmem⟩, List.cons_prefix_cons.mpr ⟨rfl, hq⟩⟩
  · intro p k a he hp hk
    obtain ⟨bit, rest, rfl, hrest⟩ := fork_eq_some.mp hk
    obtain ⟨bit', q, rfl, hmem⟩ := mem_fork.mp he
    obtain ⟨rfl, hq⟩ := List.cons_prefix_cons.mp hp
    exact (hside bit').hidden q rest a hmem hq hrest

end BitMaps
