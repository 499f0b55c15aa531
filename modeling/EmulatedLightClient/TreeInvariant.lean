import EmulatedLightClient.TreeMap

/-!
# Well-formed trees

All operations keep trees well-formed. A well-formed tree binds some key, all
of its keys are byte strings, and everything below a sealed reference is sealed.
-/

namespace SealableTrie

open ByteBits Bits Nodes ListPrefix BitMaps FailingState

namespace Tree

variable {t t' : Tree} {d : Nat} {key : List Bool} {v : CryptoHash}

theorem chain_wf {bits : List Bool} (h : t.WF (d + bits.length)) : (chain d bits t).WF d := by
  induction bits, t using chain.induct d with
  | case1 t =>
    rw [chain, dif_pos rfl]
    exact h
  | case2 bits t hne _ ih =>
    rw [chain, dif_neg hne]
    apply ih
    have hpos := List.length_pos_iff.mpr hne
    have hlt := cutAt_lt (d % 8) (Nat.pos_iff_ne_zero.mp hpos)
    refine ⟨?_, ?_, ?_⟩
    · simpa using hlt
    · simp only [List.length_take, List.length_drop, cutAt, maxBits] at *
      omega
    · simp only [List.length_take, List.length_drop]
      rw [show d + min (cutAt (d % 8) bits.length) bits.length +
        (bits.length - cutAt (d % 8) bits.length) = d + bits.length by omega]
      exact h

theorem prepend_wf (hfits : d % 8 + key.length ≤ maxBits) (h : t.WF (d + key.length)) :
    (prepend key t).WF d := by
  cases key with
  | nil => exact h
  | cons bit key => exact ⟨by simp, hfits, h⟩

theorem join_wf {bit : Bool} {this other : Tree} (h : this.WF (d + 1)) (ho : other.WF (d + 1)) :
    (join bit this other).WF d := by
  cases bit
  · exact ⟨h, ho⟩
  · exact ⟨ho, h⟩

theorem set_wf (hwf : t.WF d) (hbyte : 8 ∣ d + key.length) (hmax : d + key.length ≤ maxKey)
    (h : t.set v d key = .ok t') : t'.WF d := by
  induction t generalizing d key t' with
  | value s h₀ =>
    unfold set at h
    split at h
    · cases h
    · split at h
      · cases h
      · cases h
        exact hwf
  | pruned l r => cases h
  | branch l r ihl ihr =>
    rcases key with _ | ⟨_ | _, key⟩
    · cases h
    · obtain ⟨l', hl, rfl⟩ := map_eq_ok h
      rw [List.length_cons] at hbyte hmax
      exact ⟨ihl hwf.1 (by omega) (by omega) hl, hwf.2⟩
    · obtain ⟨r', hr, rfl⟩ := map_eq_ok h
      rw [List.length_cons] at hbyte hmax
      exact ⟨hwf.1, ihr hwf.2 (by omega) (by omega) hr⟩
  | ext extKey child ih =>
    obtain ⟨hne, hfits, hchild⟩ := hwf
    unfold set at h
    split at h
    · cases h
    · simp only at h
      split at h
      · rename_i he
        obtain ⟨c, hc, rfl⟩ := map_eq_ok h
        have hkey := congrArg List.length (commonPrefix_append_left key extKey)
        rw [matched_key he, List.length_append] at hkey
        rw [matched_key he] at hc
        exact ⟨hne, hfits, ih hchild (by omega) (by omega) hc⟩
      · rename_i theirs suffix he
        split at h
        · cases h
        · rename_i our rest hk
          cases h
          obtain ⟨h1, h2, -⟩ := split_keys hk he
          have hlen1 := congrArg List.length h1
          have hlen2 := congrArg List.length h2
          simp only [List.length_append, List.length_cons] at hlen1 hlen2
          have hvalue : (value false v).WF
              (d + (commonPrefix key extKey).length + 1 + rest.length) := by
            rw [show d + (commonPrefix key extKey).length + 1 + rest.length = d + key.length by
              omega]
            exact ⟨hbyte, hmax⟩
          refine prepend_wf (by omega) (join_wf (chain_wf hvalue) (prepend_wf (by omega) ?_))
          rwa [show d + (commonPrefix key extKey).length + 1 + suffix.length = d + extKey.length by
            omega]

def Action.WF (d : Nat) : Action → Prop
  | drop => True
  | ext key child => key ≠ [] ∧ child.WF (d + key.length)
  | ref tree => tree.WF d

theorem Action.toTree_wf {a : Action} (h : a.WF d) (ht : a.toTree d = some t) : t.WF d := by
  cases a with
  | drop => cases ht
  | ext key child =>
    cases ht
    exact chain_wf h.2
  | ref tree =>
    cases ht
    exact h

theorem leftOver_wf {bit : Bool} (h : t.WF (d + 1)) : (leftOver bit t).WF d := by
  cases t with
  | ext key child =>
    refine ⟨by simp, ?_⟩
    rw [List.length_cons, show d + (key.length + 1) = d + 1 + key.length by omega]
    exact h.2.2
  | value s h₀ => exact ⟨by simp, h⟩
  | pruned l r => exact ⟨by simp, h⟩
  | branch l r => exact ⟨by simp, h⟩

theorem Action.inBranch_wf {bit : Bool} {other : Tree} {a : Action} (ha : a.WF (d + 1))
    (ho : other.WF (d + 1)) : (a.inBranch d bit other).WF d := by
  unfold Action.inBranch
  cases ht : a.toTree (d + 1) with
  | some child => exact join_wf (toTree_wf ha ht) ho
  | none => exact leftOver_wf ho

theorem Action.extend_wf {extKey : List Bool} {a : Action} (hne : extKey ≠ [])
    (h : a.WF (d + extKey.length)) : (a.extend extKey).WF d := by
  cases a with
  | drop => trivial
  | ext suffix child =>
    refine ⟨by simp [hne], ?_⟩
    rw [List.length_append, ← Nat.add_assoc]
    exact h.2
  | ref tree => exact ⟨hne, h⟩

theorem del_wf {a : Action} (hwf : t.WF d) (h : t.del d key = .ok a) : a.WF d := by
  induction t generalizing d key a with
  | value s h₀ =>
    unfold del at h
    split at h
    · cases h
    · split at h
      · cases h
        trivial
      · cases h
  | pruned l r => cases h
  | branch l r ihl ihr =>
    rcases key with _ | ⟨_ | _, key⟩
    · cases h
    · obtain ⟨a', ha, rfl⟩ := map_eq_ok h
      exact Action.inBranch_wf (ihl hwf.1 ha) hwf.2
    · obtain ⟨a', ha, rfl⟩ := map_eq_ok h
      exact Action.inBranch_wf (ihr hwf.2 ha) hwf.1
  | ext extKey child ih =>
    unfold del at h
    split at h
    · obtain ⟨a', ha, rfl⟩ := map_eq_ok h
      exact Action.extend_wf hwf.1 (ih hwf.2.2 ha)
    · cases h

theorem sealJoin_wf {bit : Bool} {this other : Tree} (h : this.WF (d + 1))
    (ho : other.WF (d + 1)) : (sealJoin bit this other).WF d := by
  unfold sealJoin
  split
  · rename_i hs
    obtain ⟨h1, h2⟩ := Bool.and_eq_true_iff.mp hs
    cases bit
    · exact ⟨h, ho, h1, h2⟩
    · exact ⟨ho, h, h2, h1⟩
  · exact join_wf h ho

theorem sealKey_wf (hwf : t.WF d) (h : t.sealKey key = .ok t') : t'.WF d := by
  induction t generalizing d key t' with
  | value s h₀ =>
    unfold sealKey at h
    split at h
    · cases h
    · split at h
      · cases h
        exact hwf
      · cases h
  | pruned l r => cases h
  | branch l r ihl ihr =>
    rcases key with _ | ⟨_ | _, key⟩
    · cases h
    · obtain ⟨l', hl, rfl⟩ := map_eq_ok h
      exact sealJoin_wf (ihl hwf.1 hl) hwf.2
    · obtain ⟨r', hr, rfl⟩ := map_eq_ok h
      exact sealJoin_wf (ihr hwf.2 hr) hwf.1
  | ext extKey child ih =>
    unfold sealKey at h
    split at h
    · obtain ⟨c, hc, rfl⟩ := map_eq_ok h
      exact ⟨hwf.1, hwf.2.1, ih hwf.2.2 hc⟩
    · cases h

theorem lookup_value {s : Bool} {h : CryptoHash} {x : CryptoHash × Bool} :
    (value s h).lookup key = some x ↔ key = [] ∧ x = (h, s) := by
  by_cases hk : key = []
  · simp [lookup, hk, eq_comm]
  · simp [lookup, hk]

theorem lookup_length (hwf : t.WF d) {x : CryptoHash × Bool} (h : t.lookup key = some x) :
    8 ∣ d + key.length ∧ d + key.length ≤ maxKey := by
  induction t generalizing d key with
  | value s h₀ =>
    rw [(lookup_value.mp h).1]
    exact hwf
  | pruned l r ihl ihr =>
    obtain ⟨bit, rest, rfl, h⟩ := fork_eq_some.mp h
    rw [List.length_cons, show d + (rest.length + 1) = d + 1 + rest.length by omega]
    cases bit
    · exact ihl hwf.1 h
    · exact ihr hwf.2.1 h
  | branch l r ihl ihr =>
    obtain ⟨bit, rest, rfl, h⟩ := fork_eq_some.mp h
    rw [List.length_cons, show d + (rest.length + 1) = d + 1 + rest.length by omega]
    cases bit
    · exact ihl hwf.1 h
    · exact ihr hwf.2 h
  | ext extKey child ih =>
    obtain ⟨rest, rfl, hrest⟩ := under_eq_some.mp h
    rw [List.length_append, ← Nat.add_assoc]
    exact ih hwf.2.2 hrest

theorem exists_lookup (t : Tree) : ∃ key x, t.lookup key = some x := by
  induction t with
  | value s h => exact ⟨[], (h, s), by simp [lookup]⟩
  | pruned l r ihl _ =>
    obtain ⟨key, x, h⟩ := ihl
    exact ⟨false :: key, x, h⟩
  | branch l r ihl _ =>
    obtain ⟨key, x, h⟩ := ihl
    exact ⟨false :: key, x, h⟩
  | ext extKey child ih =>
    obtain ⟨key, x, h⟩ := ih
    exact ⟨extKey ++ key, x, by rwa [lookup, under_append_self]⟩

theorem lookup_of_isSealed (hwf : t.WF d) (hs : t.isSealed = true) {h : CryptoHash} {s : Bool}
    (hl : t.lookup key = some (h, s)) : s = true := by
  induction t generalizing d key with
  | value s₀ h₀ =>
    obtain ⟨-, he⟩ := lookup_value.mp hl
    cases he
    exact hs
  | pruned l r ihl ihr =>
    obtain ⟨bit, rest, rfl, hl⟩ := fork_eq_some.mp hl
    cases bit
    · exact ihl hwf.1 hwf.2.2.1 hl
    · exact ihr hwf.2.1 hwf.2.2.2 hl
  | branch l r => cases hs
  | ext extKey child => cases hs

/-- Some key goes on from `p` and all which do are sealed. -/
def SealedBelow (t : Tree) (p : List Bool) : Prop :=
  (∃ k x, t.lookup (p ++ k) = some x) ∧
    ∀ k h s, t.lookup (p ++ k) = some (h, s) → s = true

theorem sealedBelow_nil (hwf : t.WF d) (hs : t.isSealed = true) : t.SealedBelow [] :=
  ⟨exists_lookup t, fun _ _ _ hl => lookup_of_isSealed hwf hs hl⟩

theorem SealedBelow.ext {p extKey : List Bool} (h : t.SealedBelow p) :
    (Tree.ext extKey t).SealedBelow (extKey ++ p) := by
  obtain ⟨⟨k, x, hk⟩, hall⟩ := h
  refine ⟨⟨k, x, by rwa [lookup, List.append_assoc, under_append_self]⟩, ?_⟩
  intro k h s hl
  rw [lookup, List.append_assoc, under_append_self] at hl
  exact hall k h s hl

theorem SealedBelow.left {p : List Bool} {r : Tree} (h : t.SealedBelow p) :
    (branch t r).SealedBelow (false :: p) := h

theorem SealedBelow.right {p : List Bool} {l : Tree} (h : t.SealedBelow p) :
    (branch l t).SealedBelow (true :: p) := h

/-- Keys with a sealed prefix are not bound to an unsealed value. -/
theorem SealedBelow.lookup_ne {p : List Bool} (h : t.SealedBelow p) (hp : p <+: key)
    (hash : CryptoHash) : t.lookup key ≠ some (hash, false) := by
  obtain ⟨rest, rfl⟩ := hp
  intro hl
  have := h.2 rest hash false hl
  cases this

theorem get_ok (hwf : t.WF d) {o : Option CryptoHash} (h : t.get key = .ok o) :
    t.lookup key = o.map (·, false) := by
  induction t generalizing d key with
  | value s h₀ =>
    unfold get at h
    split at h
    · cases h
    · rename_i hs
      split at h
      · rename_i hk
        cases h
        simp [lookup, hk, hs]
      · rename_i hk
        cases h
        simp [lookup, hk]
  | pruned l r => cases h
  | branch l r ihl ihr =>
    rcases key with _ | ⟨_ | _, key⟩
    · cases h
      rfl
    · exact ihl hwf.1 h
    · exact ihr hwf.2 h
  | ext extKey child ih =>
    unfold get at h
    split at h
    · rename_i hp
      obtain ⟨rest, rfl⟩ := hp
      rw [List.drop_left] at h
      rw [lookup, under_append_self]
      exact ih hwf.2.2 h
    · rename_i hp
      cases h
      exact under_eq_none hp

/-- Where an operation was refused because it met something sealed. -/
def MeetsSealed (t : Tree) (key : List Bool) : Prop := ∃ p, p <+: key ∧ t.SealedBelow p

theorem MeetsSealed.left {r : Tree} (h : t.MeetsSealed key) :
    (branch t r).MeetsSealed (false :: key) := by
  obtain ⟨p, hp, hs⟩ := h
  exact ⟨false :: p, List.cons_prefix_cons.mpr ⟨rfl, hp⟩, hs.left⟩

theorem MeetsSealed.right {l : Tree} (h : t.MeetsSealed key) :
    (branch l t).MeetsSealed (true :: key) := by
  obtain ⟨p, hp, hs⟩ := h
  exact ⟨true :: p, List.cons_prefix_cons.mpr ⟨rfl, hp⟩, hs.right⟩

theorem MeetsSealed.ext {extKey : List Bool} (hp : extKey <+: key)
    (h : t.MeetsSealed (key.drop extKey.length)) : (Tree.ext extKey t).MeetsSealed key := by
  obtain ⟨p, hpre, hs⟩ := h
  refine ⟨extKey ++ p, ?_, hs.ext⟩
  rw [← List.prefix_iff_eq_append.mp hp]
  exact (List.prefix_append_right_inj extKey).mpr hpre

theorem meetsSealed_of_isSealed (hwf : t.WF d) (hs : t.isSealed = true) : t.MeetsSealed key :=
  ⟨[], List.nil_prefix, sealedBelow_nil hwf hs⟩

theorem MeetsSealed.lookup_ne (h : t.MeetsSealed key) (hash : CryptoHash) :
    t.lookup key ≠ some (hash, false) := by
  obtain ⟨p, hp, hs⟩ := h
  exact hs.lookup_ne hp hash

theorem get_error (hwf : t.WF d) {e : Error} (h : t.get key = .error e) :
    e = .sealed ∧ t.MeetsSealed key := by
  induction t generalizing d key with
  | value s h₀ =>
    unfold get at h
    split at h
    · rename_i hs
      cases h
      exact ⟨rfl, meetsSealed_of_isSealed hwf hs⟩
    · split at h <;> cases h
  | pruned l r =>
    cases h
    exact ⟨rfl, meetsSealed_of_isSealed hwf rfl⟩
  | branch l r ihl ihr =>
    rcases key with _ | ⟨_ | _, key⟩
    · cases h
    · exact ⟨(ihl hwf.1 h).1, (ihl hwf.1 h).2.left⟩
    · exact ⟨(ihr hwf.2 h).1, (ihr hwf.2 h).2.right⟩
  | ext extKey child ih =>
    unfold get at h
    split at h
    · rename_i hp
      exact ⟨(ih hwf.2.2 h).1, (ih hwf.2.2 h).2.ext hp⟩
    · cases h

theorem del_error (hwf : t.WF d) {e : Error} (h : t.del d key = .error e) :
    (e = .sealed ∧ t.MeetsSealed key) ∨ (e = .notFound ∧ t.lookup key = none) := by
  induction t generalizing d key with
  | value s h₀ =>
    unfold del at h
    split at h
    · rename_i hs
      cases h
      exact Or.inl ⟨rfl, meetsSealed_of_isSealed hwf hs⟩
    · split at h
      · cases h
      · rename_i hk
        cases h
        exact Or.inr ⟨rfl, by simp [lookup, hk]⟩
  | pruned l r =>
    cases h
    exact Or.inl ⟨rfl, meetsSealed_of_isSealed hwf rfl⟩
  | branch l r ihl ihr =>
    rcases key with _ | ⟨_ | _, key⟩
    · cases h
      exact Or.inr ⟨rfl, rfl⟩
    · rcases ihl hwf.1 (map_eq_error h) with ⟨he, hm⟩ | ⟨he, hl⟩
      · exact Or.inl ⟨he, hm.left⟩
      · exact Or.inr ⟨he, hl⟩
    · rcases ihr hwf.2 (map_eq_error h) with ⟨he, hm⟩ | ⟨he, hl⟩
      · exact Or.inl ⟨he, hm.right⟩
      · exact Or.inr ⟨he, hl⟩
  | ext extKey child ih =>
    unfold del at h
    split at h
    · rename_i hp
      rcases ih hwf.2.2 (map_eq_error h) with ⟨he, hm⟩ | ⟨he, hl⟩
      · exact Or.inl ⟨he, hm.ext hp⟩
      · refine Or.inr ⟨he, ?_⟩
        rw [lookup, ← List.prefix_iff_eq_append.mp hp, under_append_self, hl]
    · rename_i hp
      cases h
      exact Or.inr ⟨rfl, under_eq_none hp⟩

/-- Sealing and deleting are refused for the same reasons. -/
theorem del_eq_error {e : Error} (h : t.sealKey key = .error e) (d : Nat) :
    t.del d key = .error e := by
  induction t generalizing d key with
  | value s h₀ =>
    unfold sealKey at h
    unfold del
    split at h
    · rename_i hs
      cases h
      rw [if_pos hs]
    · rename_i hs
      split at h
      · cases h
      · rename_i hk
        cases h
        rw [if_neg hs, if_neg hk]
  | pruned l r =>
    cases h
    rfl
  | branch l r ihl ihr =>
    rcases key with _ | ⟨_ | _, key⟩
    · cases h
      rfl
    · simp only [del, ihl (map_eq_error h) (d + 1), Except.map]
    · simp only [del, ihr (map_eq_error h) (d + 1), Except.map]
  | ext extKey child ih =>
    unfold sealKey at h
    unfold del
    split at h
    · rename_i hp
      rw [if_pos hp, ih (map_eq_error h) (d + extKey.length)]
      rfl
    · rename_i hp
      cases h
      rw [if_neg hp]

theorem sealKey_error (hwf : t.WF d) {e : Error} (h : t.sealKey key = .error e) :
    (e = .sealed ∧ t.MeetsSealed key) ∨ (e = .notFound ∧ t.lookup key = none) :=
  del_error hwf (del_eq_error h d)

end Tree

end SealableTrie
