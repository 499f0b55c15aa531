import EmulatedLightClient.Listings
import EmulatedLightClient.TreeInvariant

/-!
# Listing a tree

The entries of a tree, and of what it has below a key, in the order of a walk
from left to right. Where a branch has been pruned nothing but its sealing is
left to list.
-/

namespace SealableTrie

open ByteBits Bits Nodes ListPrefix BitMaps

namespace Tree

variable {t : Tree} {d : Nat}

def entries : Tree → Listing (CryptoHash × Bool)
  | value isSealed hash => [([], some (hash, isSealed))]
  | pruned _ _ => [([], none)]
  | branch left right => left.entries.under [false] ++ right.entries.under [true]
  | ext key child => child.entries.under key

/-- The entries at keys which start with the given one, without it. -/
def subtrie : Tree → List Bool → Listing (CryptoHash × Bool)
  | value isSealed hash, key => if key = [] then [([], some (hash, isSealed))] else []
  | pruned _ _, _ => [([], none)]
  | branch left right, [] => left.entries.under [false] ++ right.entries.under [true]
  | branch left _, false :: key => left.subtrie key
  | branch _ right, true :: key => right.subtrie key
  | ext extKey child, key =>
    if extKey <+: key then child.subtrie (key.drop extKey.length)
    else if key <+: extKey then child.entries.under (extKey.drop key.length)
    else []

theorem subtrie_nil (hwf : t.WF d) : t.subtrie [] = t.entries := by
  cases t with
  | value s h => rfl
  | pruned l r => rfl
  | branch l r => rfl
  | ext extKey child =>
    have hne : ¬ extKey <+: [] := fun hp => hwf.1 (List.prefix_nil.mp hp)
    rw [subtrie, if_neg hne, if_pos List.nil_prefix]
    rfl

/-- The flag of a sealed binding. -/
def Sealed (x : CryptoHash × Bool) : Prop := x.2 = true

theorem lists_pruned {l r : Tree} (hwf : (pruned l r).WF d) (key : List Bool) :
    Lists Sealed [([], none)] (below key (pruned l r).lookup) :=
  lists_hidden fun _ _ hk => lookup_of_isSealed hwf rfl hk

theorem entries_lists (hwf : t.WF d) : Lists Sealed t.entries t.lookup := by
  induction t generalizing d with
  | value s h => exact lists_single (h, s)
  | pruned l r => exact lists_pruned hwf []
  | branch l r ihl ihr => exact (ihl hwf.1).fork (ihr hwf.2)
  | ext extKey child ih => exact (ih hwf.2.2).under extKey

theorem subtrie_lists (hwf : t.WF d) (key : List Bool) :
    Lists Sealed (t.subtrie key) (below key t.lookup) := by
  induction t generalizing d key with
  | value s h =>
    by_cases hk : key = []
    · subst hk
      exact lists_single (h, s)
    · rw [subtrie, if_neg hk, lookup, below_single hk]
      exact lists_none
  | pruned l r => exact lists_pruned hwf key
  | branch l r ihl ihr =>
    rcases key with _ | ⟨_ | _, key⟩
    · exact entries_lists hwf
    · exact ihl hwf.1 key
    · exact ihr hwf.2 key
  | ext extKey child ih =>
    rw [subtrie, lookup]
    split
    · rename_i hp
      obtain ⟨rest, rfl⟩ := hp
      rw [List.drop_left, below_under]
      exact ih hwf.2.2 rest
    · rename_i hno
      split
      · rename_i hp
        obtain ⟨rest, rfl⟩ := hp
        rw [List.drop_left, below_under_longer]
        exact (entries_lists hwf.2.2).under rest
      · rename_i hno'
        rw [below_under_none hno hno']
        exact lists_none

end Tree

end SealableTrie
