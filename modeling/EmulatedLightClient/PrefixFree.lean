import EmulatedLightClient.TrieRefinement

/-!
# Keys of a trie are prefix free

No key of a reachable trie is a proper prefix of another one. Setting a value is
refused with `BadKeyPrefix` exactly for keys which would break this.
-/

namespace SealableTrie

open ByteBits Bits Nodes Memory ListPrefix BitMaps FailingState HeapOwnership TrieProof

namespace Tree

variable {t t' : Tree} {d : Nat} {key : List Bool} {v : CryptoHash}

theorem lookup_prefixFree (t : Tree) : PrefixFree t.lookup := by
  induction t with
  | value s h =>
    intro k k' a b hk hk' _
    rw [(lookup_value.mp hk).1, (lookup_value.mp hk').1]
  | pruned l r ihl ihr => exact prefixFree_fork ihl ihr
  | branch l r ihl ihr => exact prefixFree_fork ihl ihr
  | ext key child ih => exact prefixFree_under ih key

theorem set_not_conflicts (h : t.set v d key = .ok t') : ¬ Conflicts t.lookup key := by
  have hl := set_lookup h
  rintro ⟨k, x, hk, hne, hpre⟩
  refine t'.lookup_prefixFree.not_conflicts (k := key) (a := (v, false)) ?_ ⟨k, x, ?_, hne, hpre⟩
  · rw [hl, Function.update_self]
  · rw [hl, Function.update_of_ne hne, hk]

/-- Proper prefixes of the key of an extension conflict with all keys below. -/
theorem conflicts_of_shorter {extKey : List Bool} {child : Tree} (hpre : key <+: extKey)
    (hne : key ≠ extKey) : Conflicts (ext extKey child).lookup key := by
  obtain ⟨k, x, hk⟩ := exists_lookup child
  refine ⟨extKey ++ k, x, by rwa [lookup, under_append_self], ?_, Or.inl ?_⟩
  · rintro rfl
    exact hne (hpre.eq_of_length_le (by simp))
  · exact hpre.trans (List.prefix_append extKey k)

/-- A value is refused where the path of the key is sealed, and for keys which conflict. -/
theorem set_refused (hwf : t.WF d) {e : Error} (h : t.set v d key = .error e) :
    (e = .sealed ∧ t.get key = .error .sealed) ∨ (e = .badKeyPrefix ∧ Conflicts t.lookup key) := by
  induction t generalizing d key with
  | value s h₀ =>
    simp only [set] at h
    split at h
    · rename_i hk
      cases h
      refine Or.inr ⟨rfl, [], (h₀, s), by simp [lookup], Ne.symm hk, Or.inr List.nil_prefix⟩
    · split at h
      · rename_i hs
        cases h
        exact Or.inl ⟨rfl, by rw [get, if_pos hs]⟩
      · cases h
  | pruned l r =>
    cases h
    exact Or.inl ⟨rfl, rfl⟩
  | branch l r ihl ihr =>
    rcases key with _ | ⟨_ | _, key⟩
    · cases h
      obtain ⟨k, x, hk⟩ := exists_lookup (branch l r)
      refine Or.inr ⟨rfl, k, x, hk, ?_, Or.inl List.nil_prefix⟩
      rintro rfl
      cases hk
    · rcases ihl hwf.1 (map_eq_error h) with hsealed | ⟨he, hc⟩
      · exact Or.inl hsealed
      · exact Or.inr ⟨he, hc.left⟩
    · rcases ihr hwf.2 (map_eq_error h) with hsealed | ⟨he, hc⟩
      · exact Or.inl hsealed
      · exact Or.inr ⟨he, hc.right⟩
  | ext extKey child ih =>
    by_cases hne : key = []
    · subst hne
      cases h
      exact Or.inr ⟨rfl, conflicts_of_shorter List.nil_prefix (Ne.symm hwf.1)⟩
    unfold set at h
    rw [if_neg hne] at h
    simp only at h
    split at h
    · rename_i he
      have hm := matched_key he
      have hkey := commonPrefix_append_left key extKey
      rw [hm] at h hkey
      have hp : extKey <+: key := ⟨_, hkey⟩
      rcases ih hwf.2.2 (map_eq_error h) with ⟨he, hsealed⟩ | ⟨he, hc⟩
      · exact Or.inl ⟨he, by rw [get, if_pos hp, hsealed]⟩
      · have := hc.under extKey
        rw [hkey] at this
        exact Or.inr ⟨he, this⟩
    · rename_i theirs suffix he
      split at h
      · rename_i hk
        cases h
        have hkey := commonPrefix_append_left key extKey
        rw [hk, List.append_nil] at hkey
        refine Or.inr ⟨rfl, conflicts_of_shorter (hkey ▸ commonPrefix_right key extKey) ?_⟩
        rintro rfl
        rw [hkey, List.drop_length] at he
        cases he
      · cases h

end Tree

variable {digest : List Byte → CryptoHash} {A : Type} [LawfulAllocator A RawNode]
  {root : Root} {key : List Byte} {v : CryptoHash} {s : State A}

/-- The key is a proper prefix of a bound key or a bound key is one of it. -/
def BadPrefix (m : Bindings) (key : List Byte) : Prop :=
  ∃ k, (m k).isSome ∧ k ≠ key ∧ (key <+: k ∨ k <+: key)

theorem badPrefix_iff {m : Bindings} (hwf : root.WF) (hm : ∀ k, m k = root.lookup (bitsOf k)) :
    BadPrefix m key ↔ Conflicts root.lookup (bitsOf key) := by
  constructor
  · rintro ⟨k, hk, hne, hpre⟩
    obtain ⟨x, hx⟩ := Option.isSome_iff_exists.mp hk
    refine ⟨bitsOf k, x, by rw [← hm, hx], fun he => hne (bitsOf_injective he), ?_⟩
    rwa [prefix_bitsOf_iff, prefix_bitsOf_iff]
  · rintro ⟨bits, x, hx, hne, hpre⟩
    cases root with
    | none => cases hx
    | some tree =>
      have hlen := (Tree.lookup_length hwf hx).1
      rw [Nat.zero_add] at hlen
      obtain ⟨k, rfl⟩ := exists_bitsOf hlen
      refine ⟨k, by rw [hm, hx]; rfl, fun he => hne (congrArg bitsOf he), ?_⟩
      rwa [prefix_bitsOf_iff, prefix_bitsOf_iff] at hpre

theorem Root.set_refused {key : List Bool} (hwf : root.WF) {e : Error} (h : root.set v key = .error e) :
    (e = .emptyKey ∧ root = none ∧ key = []) ∨ (e = .sealed ∧ root.get key = .error .sealed) ∨
      (e = .badKeyPrefix ∧ Conflicts root.lookup key) := by
  cases root with
  | none =>
    simp only [Root.set] at h
    split at h
    · rename_i hk
      cases h
      exact Or.inl ⟨rfl, rfl, hk⟩
    · cases h
  | some tree => exact Or.inr (Tree.set_refused hwf h)

theorem Root.set_not_conflicts {key : List Bool} {tree : Tree} (h : root.set v key = .ok tree) :
    ¬ Conflicts root.lookup key := by
  cases root with
  | none =>
    rintro ⟨k, x, hk, -⟩
    cases hk
  | some t₀ => exact Tree.set_not_conflicts h

/-- Also where something is sealed, keys are refused with `badKeyPrefix` only if they conflict. -/
theorem badPrefix_of_set (hd : ∀ b, digest b ≠ emptyTrieRoot) (h : s.Holds digest root)
    (hk : key.length ≤ maxKeyBytes) (hset : (s.trie.set digest key v).1 = .error (.err .badKeyPrefix)) :
    BadPrefix s.bindings key := by
  have hspec := set_spec (v := v) hd h.rep hk
  cases hres : s.trie.set digest key v with
  | mk r t' =>
    rw [hres] at hspec hset
    simp only at hset
    subst hset
    obtain ⟨-, ⟨he, -⟩ | ⟨err, he, herr⟩⟩ := hspec
    · cases he
    · cases he
      rcases Root.set_refused h.rep.wf herr with ⟨he, -⟩ | ⟨he, -⟩ | ⟨-, hc⟩
      · cases he
      · cases he
      · exact (badPrefix_iff h.rep.wf h.bindings).mpr hc

/-- What `set` returns for a key on whose path nothing is sealed. -/
theorem set_outcome (hd : ∀ b, digest b ≠ emptyTrieRoot) (h : s.Holds digest root)
    (hk : key.length ≤ maxKeyBytes) (hget : s.trie.get digest key ≠ .error (.err .sealed)) :
    ((s.trie.set digest key v).1 = .error (.err .badKeyPrefix) ∧ BadPrefix s.bindings key) ∨
      ((s.trie.set digest key v).1 = .error (.err .emptyKey) ∧ root = none ∧ key = []) ∨
      ((∃ tree, root.set v (bitsOf key) = .ok tree) ∧ ((s.trie.set digest key v).1 = .ok () ∨
        (s.trie.set digest key v).1 = .error (.err .outOfMemory) ∧
          ¬ Serves (setBudget key) s.trie.alloc)) := by
  have hwf := h.rep.wf
  have hok : ∃ o, root.get (bitsOf key) = .ok o := by
    rw [get_spec hd h.rep hk] at hget
    cases hg : root.get (bitsOf key) with
    | ok o => exact ⟨o, rfl⟩
    | error e =>
      cases root with
      | none => cases hg
      | some tree =>
        rw [hg, (Tree.get_error hwf hg).1] at hget
        exact absurd rfl hget
  obtain ⟨o, ho⟩ := hok
  have hspec := set_spec (v := v) hd h.rep hk
  cases hset : s.trie.set digest key v with
  | mk r t' =>
    rw [hset] at hspec
    cases r with
    | ok u =>
      obtain ⟨tree, htree, -⟩ := hspec
      exact Or.inr (Or.inr ⟨⟨tree, htree⟩, Or.inl rfl⟩)
    | error e =>
      obtain ⟨-, ⟨rfl, hs, tree, htree⟩ | ⟨err, rfl, herr⟩⟩ := hspec
      · exact Or.inr (Or.inr ⟨⟨tree, htree⟩, Or.inr ⟨rfl, hs⟩⟩)
      · rcases Root.set_refused hwf herr with ⟨rfl, hroot, hnil⟩ | ⟨-, hsealed⟩ | ⟨rfl, hc⟩
        · have hkey : key = [] := bitsOf_injective hnil
          exact Or.inr (Or.inl ⟨rfl, hroot, hkey⟩)
        · rw [ho] at hsealed
          cases hsealed
        · exact Or.inl ⟨rfl, (badPrefix_iff hwf h.bindings).mpr hc⟩

/-- A trie which is not empty binds a key other than the empty one. -/
theorem badPrefix_nil {tree : Tree} (h : s.Holds digest (some tree)) :
    BadPrefix s.bindings [] := by
  refine (badPrefix_iff h.rep.wf h.bindings).mpr ?_
  obtain ⟨cells, hrep, hwf, -⟩ := h.rep
  obtain ⟨k, x, hx⟩ := tree.exists_lookup
  refine ⟨k, x, hx, ?_, Or.inl List.nil_prefix⟩
  rintro rfl
  have hnv := hrep.ne_value
  cases tree with
  | value sealed hash => exact hnv _ _ rfl
  | pruned l r => cases hx
  | branch l r => cases hx
  | ext extKey child =>
    obtain ⟨rest, hnil, -⟩ := under_eq_some.mp hx
    exact hwf.1 (List.append_eq_nil_iff.mp hnil.symm).1

/-- No two bound keys of a reachable trie are proper prefixes of each other, and
where nothing on the path of a key is sealed `set` fails with `badKeyPrefix`
exactly when the key would break this. Otherwise it succeeds, given memory, for
all keys but the empty one and those which are too long. -/
theorem set_badKeyPrefix_iff (hd : ∀ b, digest b ≠ emptyTrieRoot) (hs : Reachable digest s) :
    (∀ k k', (s.bindings k).isSome → (s.bindings k').isSome → k <+: k' → k = k') ∧
      (∀ (key : List Byte) (v : CryptoHash), key.length ≤ maxKeyBytes →
        s.trie.get digest key ≠ .error (.err .sealed) →
        ((s.trie.set digest key v).1 = .error (.err .badKeyPrefix) ↔
          BadPrefix s.bindings key) ∧
        (¬ BadPrefix s.bindings key → key ≠ [] → Serves (setBudget key) s.trie.alloc →
          (s.trie.set digest key v).1 = .ok ()) ∧
        (¬ BadPrefix s.bindings key → key = [] →
          (s.trie.set digest key v).1 = .error (.err .emptyKey))) ∧
      ∀ (key : List Byte) (v : CryptoHash), maxKeyBytes < key.length →
        (s.trie.set digest key v).1 = .error (.err .keyTooLong) := by
  obtain ⟨root, hholds⟩ := hs.holds hd
  refine ⟨?_, ?_, ?_⟩
  · intro k k' hk hk' hpre
    obtain ⟨x, hx⟩ := Option.isSome_iff_exists.mp hk
    obtain ⟨x', hx'⟩ := Option.isSome_iff_exists.mp hk'
    rw [hholds.bindings] at hx hx'
    cases root with
    | none => cases hx
    | some tree => exact bitsOf_injective (tree.lookup_prefixFree hx hx' (prefix_bitsOf_iff.mpr hpre))
  · intro key v hk hget
    rcases set_outcome (v := v) hd hholds hk hget with ⟨hres, hbad⟩ | ⟨hres, hroot, hnil⟩ |
      ⟨⟨tree, htree⟩, hres⟩
    · exact ⟨iff_of_true hres hbad, fun hn => absurd hbad hn, fun hn => absurd hbad hn⟩
    · subst hroot
      have hbad : ¬ BadPrefix s.bindings key := by
        rintro ⟨k, hk', -⟩
        rw [hholds.bindings] at hk'
        cases hk'
      refine ⟨iff_of_false ?_ hbad, fun _ hne => absurd hnil hne, fun _ _ => hres⟩
      rw [hres]
      simp
    · have hbad : ¬ BadPrefix s.bindings key := fun hb =>
        Root.set_not_conflicts htree ((badPrefix_iff hholds.rep.wf hholds.bindings).mp hb)
      refine ⟨iff_of_false ?_ hbad, ?_, ?_⟩
      · rcases hres with hres | ⟨hres, -⟩ <;> simp [hres]
      · intro _ _ hserves
        rcases hres with hres | ⟨-, hno⟩
        · exact hres
        · exact absurd hserves hno
      · rintro - rfl
        cases root with
        | none => cases htree
        | some tree₀ => exact absurd (badPrefix_nil hholds) hbad
  · intro key v hk
    rw [Trie.set, sliceOf_too_long hk]

/-- Of the keys in the sample trie only `b` may be set again; `bc` has it as a
proper prefix. -/
theorem set_badKeyPrefix_sample :
    BadPrefix sampleState.bindings [0x62#8, 0x63#8] ∧
      (sampleState.trie.set sampleDigest [0x62#8, 0x63#8] (sampleValue 3#8)).1 =
        .error (.err .badKeyPrefix) ∧
      (sampleState.trie.set sampleDigest [0x62#8] (sampleValue 3#8)).1 = .ok () :=
  have hreach : Reachable sampleDigest sampleState := Reachable.intro sampleAlloc_empty _
  have hbad : BadPrefix sampleState.bindings [0x62#8, 0x63#8] :=
    ⟨[0x62#8], by decide +kernel, by decide, Or.inr ⟨[0x63#8], rfl⟩⟩
  have hgood : ¬ BadPrefix sampleState.bindings [0x62#8] := by
    rintro ⟨k, hk, hne, hpre | hpre⟩
    · exact hne ((set_badKeyPrefix_iff sampleDigest_ne hreach).1 _ k (by decide +kernel) hk hpre).symm
    · exact hne ((set_badKeyPrefix_iff sampleDigest_ne hreach).1 k _ hk (by decide +kernel) hpre)
  ⟨hbad,
    ((set_badKeyPrefix_iff sampleDigest_ne hreach).2.1 [0x62#8, 0x63#8] (sampleValue 3#8)
      (by decide) (by decide +kernel)).1.mpr hbad,
    ((set_badKeyPrefix_iff sampleDigest_ne hreach).2.1 [0x62#8] (sampleValue 3#8)
      (by decide) (by decide +kernel)).2.1 hgood (by decide)
        (TestAllocator.serves_of_room (by decide +kernel))⟩

/-- The empty key is refused by an empty trie, in which it has no conflict. -/
theorem set_empty_key_refused :
    Reachable sampleDigest (State.empty sampleAlloc) ∧
      (State.empty sampleAlloc).trie.get sampleDigest [] ≠ .error (.err .sealed) ∧
      ¬ BadPrefix (State.empty sampleAlloc).bindings [] ∧
      Serves (setBudget []) (State.empty sampleAlloc).trie.alloc ∧
      ((State.empty sampleAlloc).trie.set sampleDigest [] (sampleValue 1#8)).1 ≠ .ok () :=
  ⟨Reachable.intro sampleAlloc_empty [], by decide, fun ⟨_, hk, _⟩ => (by cases hk),
    TestAllocator.serves_of_room (by decide +kernel), by decide +kernel⟩

end SealableTrie
