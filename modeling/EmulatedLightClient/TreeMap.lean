import EmulatedLightClient.Tree

/-!
# Tree operations as updates of a map

Each operation which succeeds changes the binding of its key and no other, and
keeps trees well-formed.
-/

namespace SealableTrie

open ByteBits Bits Nodes ListPrefix BitMaps FailingState

namespace Tree

variable {t t' : Tree} {d : Nat} {key : List Bool} {v h : CryptoHash}

@[simp] theorem lookup_prepend (key : List Bool) (t : Tree) :
    (prepend key t).lookup = under key t.lookup := by
  cases key with
  | nil => rw [under_nil]; rfl
  | cons bit key => rfl

@[simp] theorem lookup_chain (d : Nat) (bits : List Bool) (t : Tree) :
    (chain d bits t).lookup = under bits t.lookup := by
  induction bits, t using chain.induct d with
  | case1 t => rw [chain, dif_pos rfl, under_nil]
  | case2 bits t h _ ih =>
    rw [chain, dif_neg h, ih, lookup, ← under_append, List.take_append_drop]

theorem lookup_join (bit : Bool) (this other : Tree) :
    (join bit this other).lookup =
      if bit then fork other.lookup this.lookup else fork this.lookup other.lookup := by
  cases bit <;> rfl

theorem lookup_sealJoin (bit : Bool) (this other : Tree) :
    (sealJoin bit this other).lookup = (join bit this other).lookup := by
  unfold sealJoin join
  split <;> cases bit <;> rfl

theorem Action.lookup_toTree (d : Nat) (a : Action) :
    a.lookup = (a.toTree d).elim (fun _ => none) Tree.lookup := by
  cases a with
  | drop => rfl
  | ext key child => exact (lookup_chain d key child).symm
  | ref t => rfl

theorem lookup_leftOver (bit : Bool) (t : Tree) :
    (leftOver bit t).lookup = under [bit] t.lookup := by
  cases t with
  | ext key child =>
    change under (bit :: key) child.lookup = under [bit] (under key child.lookup)
    rw [← under_append, List.singleton_append]
  | value s h => rfl
  | pruned l r => rfl
  | branch l r => rfl

theorem Action.lookup_extend (key : List Bool) (a : Action) :
    (a.extend key).lookup = under key a.lookup := by
  cases a with
  | drop => exact (under_none key).symm
  | ext suffix child => exact under_append key suffix child.lookup
  | ref t => rfl

theorem Action.lookup_inBranch (d : Nat) (bit : Bool) (other : Tree) (a : Action) :
    (a.inBranch d bit other).lookup =
      if bit then fork other.lookup a.lookup else fork a.lookup other.lookup := by
  rw [a.lookup_toTree (d + 1)]
  unfold Action.inBranch
  cases a.toTree (d + 1) with
  | some child => exact lookup_join bit child other
  | none =>
    simp only [lookup_leftOver, under_cons, under_nil, Option.elim]
    cases bit <;> rfl

/-- The two keys of a split extension part right after their common prefix. -/
theorem split_keys {key extKey : List Bool} {our theirs : Bool} {rest suffix : List Bool}
    (hk : key.drop (commonPrefix key extKey).length = our :: rest)
    (he : extKey.drop (commonPrefix key extKey).length = theirs :: suffix) :
    key = commonPrefix key extKey ++ our :: rest ∧
      extKey = commonPrefix key extKey ++ theirs :: suffix ∧ theirs = !our := by
  refine ⟨?_, ?_, ?_⟩
  · rw [← hk, commonPrefix_append_left]
  · rw [← he, commonPrefix_append_right]
  · have := commonPrefix_parts key extKey hk he
    cases our <;> cases theirs <;> simp_all

theorem matched_key {key extKey : List Bool}
    (he : extKey.drop (commonPrefix key extKey).length = []) :
    commonPrefix key extKey = extKey := by
  have := commonPrefix_append_right key extKey
  rwa [he, List.append_nil] at this

theorem set_ext_matched {c : Tree} {extKey : List Bool} (hne : key ≠ [])
    (hm : commonPrefix key extKey = extKey) :
    (ext extKey c).set v d key =
      (c.set v (d + extKey.length) (key.drop extKey.length)).map (ext extKey) := by
  conv_lhs => unfold set
  simp only [if_neg hne, hm, List.drop_length]

theorem set_ext_split {c : Tree} {extKey rest suffix : List Bool} {our theirs : Bool}
    (hk : key.drop (commonPrefix key extKey).length = our :: rest)
    (he : extKey.drop (commonPrefix key extKey).length = theirs :: suffix) :
    (ext extKey c).set v d key = .ok (prepend (commonPrefix key extKey)
      (join our (chain (d + (commonPrefix key extKey).length + 1) rest (value false v))
        (prepend suffix c))) := by
  have hne : key ≠ [] := by
    rintro rfl
    rw [List.drop_nil] at hk
    cases hk
  conv_lhs => unfold set
  simp only [if_neg hne, he, hk]

theorem set_ext_short {c : Tree} {extKey suffix : List Bool} {theirs : Bool} (hne : key ≠ [])
    (hk : key.drop (commonPrefix key extKey).length = [])
    (he : extKey.drop (commonPrefix key extKey).length = theirs :: suffix) :
    (ext extKey c).set v d key = .error .badKeyPrefix := by
  conv_lhs => unfold set
  simp only [if_neg hne, he, hk]

theorem set_lookup (h : t.set v d key = .ok t') :
    t'.lookup = Function.update t.lookup key (some (v, false)) := by
  induction t generalizing d key t' with
  | value s h₀ =>
    unfold set at h
    split at h
    · cases h
    · rename_i hk
      split at h
      · cases h
      · cases h
        rw [not_not.mp hk]
        simp [lookup]
  | pruned l r => cases h
  | branch l r ihl ihr =>
    rcases key with _ | ⟨_ | _, key⟩
    · cases h
    · obtain ⟨l', hl, rfl⟩ := map_eq_ok h
      simp only [lookup, ihl hl, fork_update_left]
    · obtain ⟨r', hr, rfl⟩ := map_eq_ok h
      simp only [lookup, ihr hr, fork_update_right]
  | ext extKey child ih =>
    unfold set at h
    split at h
    · cases h
    · simp only at h
      split at h
      · rename_i he
        obtain ⟨c, hc, rfl⟩ := map_eq_ok h
        have hm := matched_key he
        have hkey := commonPrefix_append_left key extKey
        rw [hm] at hc hkey
        simp only [lookup, ih hc, under_update, hkey]
      · rename_i theirs suffix he
        split at h
        · cases h
        · rename_i our rest hk
          cases h
          obtain ⟨h1, h2, h3⟩ := split_keys hk he
          generalize commonPrefix key extKey = p at h1 h2
          subst h1 h2 h3
          rw [lookup_prepend, lookup_join, lookup_chain, lookup_prepend]
          simp only [lookup, under_single, under_append, ← under_update, under_cons]
          cases our with
          | false => simp [fork_update_left]
          | true => simp [fork_update_right]

theorem del_lookup {a : Action} (h : t.del d key = .ok a) :
    a.lookup = Function.update t.lookup key none := by
  induction t generalizing d key a with
  | value s h₀ =>
    unfold del at h
    split at h
    · cases h
    · split at h
      · rename_i hk
        cases h
        simp [Action.lookup, lookup, hk]
      · cases h
  | pruned l r => cases h
  | branch l r ihl ihr =>
    rcases key with _ | ⟨_ | _, key⟩
    · cases h
    · obtain ⟨a', ha, rfl⟩ := map_eq_ok h
      simp only [lookup, Action.lookup_inBranch, ihl ha, fork_update_left]
      rfl
    · obtain ⟨a', ha, rfl⟩ := map_eq_ok h
      simp only [lookup, Action.lookup_inBranch, ihr ha, fork_update_right, if_true]
  | ext extKey child ih =>
    unfold del at h
    split at h
    · rename_i hp
      obtain ⟨a', ha, rfl⟩ := map_eq_ok h
      rw [Action.lookup_extend, ih ha, under_update, lookup, List.prefix_iff_eq_append.mp hp]
    · cases h

theorem sealKey_lookup (h : t.sealKey key = .ok t') :
    ∃ v, t.lookup key = some (v, false) ∧
      t'.lookup = Function.update t.lookup key (some (v, true)) := by
  induction t generalizing key t' with
  | value s h₀ =>
    unfold sealKey at h
    split at h
    · cases h
    · rename_i hs
      split at h
      · rename_i hk
        cases h
        refine ⟨h₀, ?_, ?_⟩
        · simp [lookup, hk, hs]
        · simp [lookup, hk]
      · cases h
  | pruned l r => cases h
  | branch l r ihl ihr =>
    rcases key with _ | ⟨_ | _, key⟩
    · cases h
    · obtain ⟨l', hl, rfl⟩ := map_eq_ok h
      obtain ⟨v, hv, hl'⟩ := ihl hl
      refine ⟨v, hv, ?_⟩
      simp only [lookup, lookup_sealJoin, lookup_join, hl', fork_update_left]
      rfl
    · obtain ⟨r', hr, rfl⟩ := map_eq_ok h
      obtain ⟨v, hv, hr'⟩ := ihr hr
      refine ⟨v, hv, ?_⟩
      simp only [lookup, lookup_sealJoin, lookup_join, hr', fork_update_right, if_true]
  | ext extKey child ih =>
    unfold sealKey at h
    split at h
    · rename_i hp
      obtain ⟨c, hc, rfl⟩ := map_eq_ok h
      obtain ⟨v, hv, hc'⟩ := ih hc
      have hkey := List.prefix_iff_eq_append.mp hp
      refine ⟨v, ?_, ?_⟩
      · rw [lookup, ← hkey, under_append_self, hv]
      · rw [lookup, hc', under_update, lookup, hkey]
    · cases h

end Tree

end SealableTrie
