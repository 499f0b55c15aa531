import EmulatedLightClient.TreeSealing
import EmulatedLightClient.TrieRefinement
import Mathlib.Data.Set.Function

/-!
# Nodes which have been hashed

Every node of the tree of a trie, those which sealing has removed included, was
stored in the trie at some point of its run. This is what makes assumptions on
the byte strings which have been hashed cover the whole tree.
-/

namespace SealableTrie

open ByteBits Bits Nodes Memory ListPrefix BitMaps FailingState HeapOwnership TrieProof

variable (digest : List Byte → CryptoHash) (S : Set (List Byte))

namespace Tree

/-- What is hashed for every node of the tree, met at depth `d`, is in the set. -/
def Hashed : Nat → Tree → Prop
  | _, value _ _ => True
  | d, pruned left right =>
    branchPreimage (left.parts digest (d + 1)) (right.parts digest (d + 1)) ∈ S ∧
      left.Hashed (d + 1) ∧ right.Hashed (d + 1)
  | d, branch left right =>
    branchPreimage (left.parts digest (d + 1)) (right.parts digest (d + 1)) ∈ S ∧
      left.Hashed (d + 1) ∧ right.Hashed (d + 1)
  | d, ext key child =>
    extPreimage (U3.wrap d) key (child.parts digest (d + key.length)) ∈ S ∧
      child.Hashed (d + key.length)

/-- The same for the nodes which are not stored any more. -/
def PrunedHashed : Nat → Tree → Prop
  | _, value _ _ => True
  | d, pruned left right => (pruned left right).Hashed digest S d
  | d, branch left right => left.PrunedHashed (d + 1) ∧ right.PrunedHashed (d + 1)
  | d, ext key child => child.PrunedHashed (d + key.length)

variable {digest S} {t t' : Tree} {d : Nat} {key : List Bool} {v : CryptoHash}

theorem Hashed.prunedHashed (h : t.Hashed digest S d) : t.PrunedHashed digest S d := by
  induction t generalizing d with
  | value s h₀ => trivial
  | pruned l r => exact h
  | branch l r ihl ihr => exact ⟨ihl h.2.1, ihr h.2.2⟩
  | ext key child ih => exact ih h.2

theorem MoreSealed.hashed (hm : MoreSealed t t') (h : t.Hashed digest S d) :
    t'.Hashed digest S d := by
  induction hm generalizing d with
  | value _ => trivial
  | pruned hl hr ihl ihr =>
    exact ⟨by rw [hl.parts_eq, hr.parts_eq]; exact h.1, ihl h.2.1, ihr h.2.2⟩
  | branch hl hr ihl ihr =>
    exact ⟨by rw [hl.parts_eq, hr.parts_eq]; exact h.1, ihl h.2.1, ihr h.2.2⟩
  | prune hl hr ihl ihr =>
    exact ⟨by rw [hl.parts_eq, hr.parts_eq]; exact h.1, ihl h.2.1, ihr h.2.2⟩
  | ext hc ih => exact ⟨by rw [hc.parts_eq]; exact h.1, ih h.2⟩

theorem chain_prunedHashed {bits : List Bool} (h : t.PrunedHashed digest S (d + bits.length)) :
    (chain d bits t).PrunedHashed digest S d := by
  induction bits, t using chain.induct d with
  | case1 t =>
    rw [chain, dif_pos rfl]
    exact h
  | case2 bits t hne _ ih =>
    rw [chain, dif_neg hne]
    apply ih
    have hlt := cutAt_lt (d % 8) (Nat.pos_iff_ne_zero.mp (List.length_pos_iff.mpr hne))
    simp only [PrunedHashed, List.length_take, List.length_drop]
    rwa [show d + min (cutAt (d % 8) bits.length) bits.length +
      (bits.length - cutAt (d % 8) bits.length) = d + bits.length by omega]

theorem prepend_prunedHashed (h : t.PrunedHashed digest S (d + key.length)) :
    (prepend key t).PrunedHashed digest S d := by
  cases key with
  | nil => exact h
  | cons bit key => exact h

theorem join_prunedHashed {bit : Bool} {this other : Tree}
    (h : this.PrunedHashed digest S (d + 1)) (ho : other.PrunedHashed digest S (d + 1)) :
    (join bit this other).PrunedHashed digest S d := by
  cases bit
  · exact ⟨h, ho⟩
  · exact ⟨ho, h⟩

theorem set_prunedHashed (hh : t.PrunedHashed digest S d) (h : t.set v d key = .ok t') :
    t'.PrunedHashed digest S d := by
  induction t generalizing d key t' with
  | value s h₀ =>
    unfold set at h
    split at h
    · cases h
    · split at h
      · cases h
      · cases h
        trivial
  | pruned l r => cases h
  | branch l r ihl ihr =>
    rcases key with _ | ⟨_ | _, key⟩
    · cases h
    · obtain ⟨l', hl, rfl⟩ := map_eq_ok h
      exact ⟨ihl hh.1 hl, hh.2⟩
    · obtain ⟨r', hr, rfl⟩ := map_eq_ok h
      exact ⟨hh.1, ihr hh.2 hr⟩
  | ext extKey child ih =>
    unfold set at h
    split at h
    · cases h
    · simp only at h
      split at h
      · obtain ⟨c, hc, rfl⟩ := map_eq_ok h
        exact ih (d := d + extKey.length) hh hc
      · rename_i theirs suffix he
        split at h
        · cases h
        · rename_i our rest hk
          cases h
          have hlen := congrArg List.length (split_keys hk he).2.1
          simp only [List.length_append, List.length_cons] at hlen
          refine prepend_prunedHashed (join_prunedHashed (chain_prunedHashed trivial)
            (prepend_prunedHashed ?_))
          have hh' : child.PrunedHashed digest S (d + extKey.length) := hh
          rwa [show d + extKey.length =
            d + (commonPrefix key extKey).length + 1 + suffix.length by omega] at hh'

def Action.PrunedHashed (digest : List Byte → CryptoHash) (S : Set (List Byte)) (d : Nat) :
    Action → Prop
  | drop => True
  | ext key child => child.PrunedHashed digest S (d + key.length)
  | ref tree => tree.PrunedHashed digest S d

theorem Action.toTree_prunedHashed {a : Action} (h : a.PrunedHashed digest S d)
    (ht : a.toTree d = some t) : t.PrunedHashed digest S d := by
  cases a with
  | drop => cases ht
  | ext key child =>
    cases ht
    exact chain_prunedHashed h
  | ref tree =>
    cases ht
    exact h

theorem leftOver_prunedHashed {bit : Bool} (h : t.PrunedHashed digest S (d + 1)) :
    (leftOver bit t).PrunedHashed digest S d := by
  cases t with
  | ext key child =>
    have h' : child.PrunedHashed digest S (d + 1 + key.length) := h
    rwa [show d + 1 + key.length = d + (bit :: key).length by rw [List.length_cons]; omega] at h'
  | value s h₀ => exact h
  | pruned l r => exact h
  | branch l r => exact h

theorem Action.inBranch_prunedHashed {bit : Bool} {other : Tree} {a : Action}
    (ha : a.PrunedHashed digest S (d + 1)) (ho : other.PrunedHashed digest S (d + 1)) :
    (a.inBranch d bit other).PrunedHashed digest S d := by
  unfold Action.inBranch
  cases ht : a.toTree (d + 1) with
  | some child => exact join_prunedHashed (toTree_prunedHashed ha ht) ho
  | none => exact leftOver_prunedHashed ho

theorem Action.extend_prunedHashed {extKey : List Bool} {a : Action}
    (h : a.PrunedHashed digest S (d + extKey.length)) :
    (a.extend extKey).PrunedHashed digest S d := by
  cases a with
  | drop => trivial
  | ext suffix child =>
    have h' : child.PrunedHashed digest S (d + extKey.length + suffix.length) := h
    rwa [Nat.add_assoc, ← List.length_append] at h'
  | ref tree => exact h

theorem del_prunedHashed {a : Action} (hh : t.PrunedHashed digest S d)
    (h : t.del d key = .ok a) : a.PrunedHashed digest S d := by
  induction t generalizing d key a with
  | value s h₀ =>
    unfold del at h
    split at h
    · cases h
    · split at h
      · cases h
        trivial
      · cases h
  | pruned l r => cases h
  | branch l r ihl ihr =>
    rcases key with _ | ⟨_ | _, key⟩
    · cases h
    · obtain ⟨a', ha, rfl⟩ := map_eq_ok h
      exact Action.inBranch_prunedHashed (ihl hh.1 ha) hh.2
    · obtain ⟨a', ha, rfl⟩ := map_eq_ok h
      exact Action.inBranch_prunedHashed (ihr hh.2 ha) hh.1
  | ext extKey child ih =>
    unfold del at h
    split at h
    · obtain ⟨a', ha, rfl⟩ := map_eq_ok h
      exact Action.extend_prunedHashed (ih (d := d + extKey.length) hh ha)
    · cases h

end Tree

variable {digest S} {A : Type} [LawfulAllocator A RawNode] {s : State A} {root root' : Root}

/-- The byte string is what is hashed for some node stored in the trie. -/
def Trie.Stores (t : Trie A) (b : List Byte) : Prop :=
  ∃ p raw, cell t.alloc p = some raw ∧ Decodes raw b

/-- The tries a call leaves behind, one for each half of `setAndSeal`. -/
def Call.tries (digest : List Byte → CryptoHash) (t : Trie A) : Call → List (Trie A)
  | setAndSeal key v => [(t.set digest key v).2, (t.setAndSeal digest key v).2]
  | c => [(c.make digest t).2]

/-- All tries in the course of the calls. -/
def State.visited (digest : List Byte → CryptoHash) (s : State A) : List Call → List (Trie A)
  | [] => []
  | c :: calls => c.tries digest s.trie ++ State.visited digest (s.step digest c) calls

theorem State.visited_append (s : State A) (calls more : List Call) :
    s.visited digest (calls ++ more) = s.visited digest calls ++ (s.run digest calls).visited digest more := by
  induction calls generalizing s with
  | nil => rfl
  | cons c calls ih =>
    rw [List.cons_append, State.visited, State.visited, ih, List.append_assoc]
    rfl

theorem Rep.hashed {d : Nat} {ref : Ref} {t : Tree} {cells : NodeCells} {trie : Trie A}
    (h : Rep digest d ref t cells) (hbase : InBase (cell trie.alloc) cells)
    (hS : ∀ b, trie.Stores b → b ∈ S) (hp : t.PrunedHashed digest S d) : t.Hashed digest S d := by
  induction h with
  | value => trivial
  | pruned _ => exact hp
  | @branch d p hash lref rref l r lcells rcells hhash hl hr ihl ihr =>
    refine ⟨hS _ ⟨p, _, hbase.head, ?_⟩, ihl hbase.right.left hp.1, ihr hbase.right.right hp.2⟩
    rw [← hl.parts_eq, ← hr.parts_eq]
    exact decodes_branch lref rref
  | @ext d p hash key cref c ccells hhash ho hc ih =>
    refine ⟨hS _ ⟨p, _, hbase.head, ?_⟩, ih hbase.right hp⟩
    rw [← hc.parts_eq, ← ho]
    exact decodes_extension key cref

def Root.Hashed (digest : List Byte → CryptoHash) (S : Set (List Byte)) : Root → Prop
  | none => True
  | some tree => tree.Hashed digest S 0

def Root.PrunedHashed (digest : List Byte → CryptoHash) (S : Set (List Byte)) : Root → Prop
  | none => True
  | some tree => tree.PrunedHashed digest S 0

theorem TrieRep.hashed {t : Trie A} (h : TrieRep digest t root) (hS : ∀ b, t.Stores b → b ∈ S)
    (hp : root.PrunedHashed digest S) : root.Hashed digest S := by
  cases root with
  | none => trivial
  | some tree =>
    obtain ⟨cells, hrep, -, hown⟩ := h
    exact hrep.hashed (Owns.inBase hown) hS hp

theorem Root.set_prunedHashed {key : List Bool} {v : CryptoHash} {tree : Tree}
    (hh : root.Hashed digest S) (h : root.set v key = .ok tree) :
    Root.PrunedHashed digest S (some tree) := by
  cases root with
  | none =>
    simp only [Root.set] at h
    split at h
    · cases h
    · cases h
      exact Tree.chain_prunedHashed trivial
  | some t₀ => exact Tree.set_prunedHashed (Tree.Hashed.prunedHashed hh) h

theorem Root.del_prunedHashed {key : List Bool} (hh : root.Hashed digest S)
    (h : root.del key = .ok root') : root'.PrunedHashed digest S := by
  cases root with
  | none => cases h
  | some t₀ =>
    obtain ⟨a, ha, rfl⟩ := map_eq_ok h
    have hap := Tree.del_prunedHashed (Tree.Hashed.prunedHashed hh) ha
    cases ht : a.toTree 0 with
    | none => trivial
    | some tree => exact Tree.Action.toTree_prunedHashed hap ht

theorem Root.sealKey_hashed {key : List Bool} {tree : Tree} (hh : root.Hashed digest S)
    (h : root.sealKey key = .ok tree) : tree.Hashed digest S 0 := by
  cases root with
  | none => cases h
  | some t₀ => exact (Tree.sealKey_moreSealed h).hashed hh

theorem State.step_hashed (hd : ∀ b, digest b ≠ emptyTrieRoot) (h : s.Holds digest root)
    (hh : root.Hashed digest S) {c : Call}
    (hS : ∀ t ∈ c.tries digest s.trie, ∀ b, t.Stores b → b ∈ S) :
    ∃ root', (s.step digest c).Holds digest root' ∧ root'.Hashed digest S := by
  have hdone := Call.make_done hd h c
  unfold State.step
  cases hm : c.make digest s.trie with
  | mk r t' =>
    rw [hm] at hdone
    cases r with
    | error e => exact ⟨root, h.unchanged hdone.1, hh⟩
    | ok found =>
      obtain ⟨⟨root', hstep, hk, hholds⟩, -⟩ := hdone
      refine ⟨root', hholds, ?_⟩
      cases hstep with
      | set hset =>
        refine hholds.rep.hashed (hS t' ?_) (Root.set_prunedHashed hh hset)
        simp only [Call.tries, hm, List.mem_singleton]
      | del hdel =>
        refine hholds.rep.hashed (hS t' ?_) (Root.del_prunedHashed hh hdel)
        simp only [Call.tries, hm, List.mem_singleton]
      | missing _ => exact hh
      | sealValue hseal => exact Root.sealKey_hashed hh hseal
      | @setAndSeal key v mid tree hset hseal =>
        have hspec := setAndSeal_spec (v := v) hd h.rep hk
        cases hr : s.trie.setAndSeal digest key v with
        | mk r t'' =>
          rw [show Call.target (.setAndSeal key v) = key from rfl, hr] at hspec
          cases r with
          | error e =>
            rw [Call.make_setAndSeal hr] at hm
            cases hm
          | ok u =>
            obtain ⟨midTrie, mid', tree', hset', hmid, hrep, -, -⟩ := hspec
            rw [hset] at hset'
            cases hset'
            have hmidH : Root.Hashed digest S (some mid) := by
              refine hrep.hashed (hS midTrie ?_) (Root.set_prunedHashed hh hset)
              simp only [Call.tries, hmid, List.mem_cons, true_or]
            exact Root.sealKey_hashed hmidH hseal

theorem State.run_hashed (hd : ∀ b, digest b ≠ emptyTrieRoot) (h : s.Holds digest root)
    (hh : root.Hashed digest S) {calls : List Call}
    (hS : ∀ t ∈ s.visited digest calls, ∀ b, t.Stores b → b ∈ S) :
    ∃ root', (s.run digest calls).Holds digest root' ∧ root'.Hashed digest S := by
  induction calls generalizing s root with
  | nil => exact ⟨root, h, hh⟩
  | cons c calls ih =>
    obtain ⟨root', h', hh'⟩ := State.step_hashed hd h hh fun t ht =>
      hS t (List.mem_append_left _ ht)
    exact ih h' hh' fun t ht => hS t (List.mem_append_right _ ht)

end SealableTrie
