import EmulatedLightClient.TrieRefinement

/-!
# Proofs made by the trie are valid

The trie walks down while it builds a proof and the verifier climbs up; the two
meet in every shape a lookup can end in.
-/

namespace SealableTrie

open ByteBits Bits Nodes Memory ListPrefix FailingState HeapOwnership TrieProof

variable {digest : List Byte → CryptoHash} {A : Type} [LawfulAllocator A RawNode]
  {t : Trie A} {key : List Byte} {s : State A}

/-- A proof is made whenever the lookup succeeds, for what the lookup returns. -/
theorem prove_spec (hd : ∀ b, digest b ≠ emptyTrieRoot) {tree : Tree}
    (h : TrieRep digest t (some tree)) (hk : key.length ≤ maxKeyBytes) :
    match tree.get (bitsOf key) with
    | .error e => t.prove digest key = .error (.err e)
    | .ok value => ∃ proof, t.prove digest key = .ok (value, proof) ∧
        Climbs digest 0 tree (bitsOf key) value proof proof.items := by
  have hfound := getImpl_spec hd h hk true
  unfold Found at hfound
  unfold Trie.prove
  cases hg : tree.get (bitsOf key) with
  | error e =>
    rw [hg] at hfound
    simp only [hfound]
  | ok value =>
    rw [hg] at hfound
    obtain ⟨proof, its, hres, hitems, hclimb⟩ := hfound
    refine ⟨proof, by simp only [hres], ?_⟩
    rw [hitems, Builder.new, List.reverse_nil, List.append_nil]
    exact hclimb

omit [LawfulAllocator A RawNode] in
theorem verify_of_climbs {tree : Tree} {cells : NodeCells} {value : Option CryptoHash}
    {proof : Proof} (hd : ∀ b, digest b ≠ emptyTrieRoot)
    (hrep : Rep digest 0 (.node ⟨t.rootPtr, t.rootHash⟩) tree cells)
    (hk : key.length ≤ maxKeyBytes)
    (hclimb : Climbs digest 0 tree (bitsOf key) value proof proof.items) :
    proof.verify digest t.rootHash key value = true := by
  have hlen : key.length * 8 < 2 ^ 16 := by
    simp only [maxKeyBytes] at hk
    omega
  obtain ⟨slice, hslice, ho, hb⟩ := Slice.fromBytes_spec hlen
  obtain ⟨s₁, want, s', hstart, hc, -, hnil⟩ := hclimb slice [] ho (by rw [hb]; rfl) rfl
  have hroot : ownedRef (tree.parts digest 0) = OwnedRef.node t.rootHash := by
    rw [← hrep.parts_eq]
    rfl
  rw [hroot] at hc
  exact (verify_iff (hrep.hash_ne hd)).mpr ⟨slice, s₁, want, s', hslice, hstart, hc, hnil⟩

/-- What is proved about a key is what a lookup returns. -/
theorem get_of_prove (hd : ∀ b, digest b ≠ emptyTrieRoot) (hs : Reachable digest s)
    (hk : key.length ≤ maxKeyBytes) {value : Option CryptoHash} {proof : Proof}
    (h : s.trie.prove digest key = .ok (value, proof)) : s.trie.get digest key = .ok value := by
  obtain ⟨root, hholds⟩ := hs.holds hd
  have hget := get_spec hd hholds.rep hk
  cases root with
  | none =>
    obtain ⟨slice, hslice, -⟩ := sliceOf_spec hk
    have hhash : s.trie.rootHash = emptyTrieRoot := hholds.rep.2.1
    simp only [Trie.prove, Trie.getImpl, hslice, hhash, if_true, Except.ok.injEq,
      Prod.mk.injEq] at h
    rw [← h.1]
    exact hget
  | some tree =>
    have hspec := prove_spec hd hholds.rep hk
    rw [Root.get] at hget
    cases hg : tree.get (bitsOf key) with
    | error e =>
      rw [hg, h] at hspec
      cases hspec
    | ok value' =>
      rw [hg] at hspec hget
      obtain ⟨proof', hprove, -⟩ := hspec
      rw [h] at hprove
      cases hprove
      exact hget

/-- A proof is made of everything that can be looked up. -/
theorem prove_of_get (hd : ∀ b, digest b ≠ emptyTrieRoot) {s : State A} (hs : Reachable digest s) {key : List Byte}
    (hk : key.length ≤ maxKeyBytes) {value : Option CryptoHash} (h : s.trie.get digest key = .ok value) :
    ∃ proof, s.trie.prove digest key = .ok (value, proof) := by
  obtain ⟨root, hholds⟩ := hs.holds hd
  have hget := get_spec hd hholds.rep hk
  rw [h] at hget
  cases root with
  | none =>
    obtain ⟨slice, hslice, -⟩ := sliceOf_spec hk
    have hhash : s.trie.rootHash = emptyTrieRoot := hholds.rep.2.1
    cases hget
    refine ⟨Proof.emptyTrie, ?_⟩
    simp only [Trie.prove, Trie.getImpl, hslice, hhash, if_true]
  | some tree =>
    have hspec := prove_spec hd hholds.rep hk
    rw [Root.get] at hget
    cases hg : tree.get (bitsOf key) with
    | error e =>
      rw [hg] at hget
      cases hget
    | ok value' =>
      rw [hg] at hspec hget
      cases hget
      obtain ⟨proof, hprove, -⟩ := hspec
      exact ⟨proof, hprove⟩

/-- The proof is accepted under the root hash of the trie. -/
theorem verify_of_prove (hd : ∀ b, digest b ≠ emptyTrieRoot) (hs : Reachable digest s)
    (hk : key.length ≤ maxKeyBytes) {value : Option CryptoHash} {proof : Proof}
    (h : s.trie.prove digest key = .ok (value, proof)) :
    proof.verify digest s.trie.rootHash key value = true := by
  obtain ⟨root, hholds⟩ := hs.holds hd
  cases root with
  | none =>
    obtain ⟨slice, hslice, -⟩ := sliceOf_spec hk
    have hhash : s.trie.rootHash = emptyTrieRoot := hholds.rep.2.1
    simp only [Trie.prove, Trie.getImpl, hslice, hhash, if_true, Except.ok.injEq,
      Prod.mk.injEq] at h
    obtain ⟨rfl, rfl⟩ := h
    rw [hhash]
    rfl
  | some tree =>
    have hspec := prove_spec hd hholds.rep hk
    cases hg : tree.get (bitsOf key) with
    | error e =>
      rw [hg, h] at hspec
      cases hspec
    | ok value' =>
      rw [hg] at hspec
      obtain ⟨proof', hprove, hclimb⟩ := hspec
      rw [h] at hprove
      cases hprove
      obtain ⟨cells, hrep, -⟩ := hholds.rep
      exact verify_of_climbs hd hrep hk hclimb

/-- Whatever a reachable trie proves about a key is what a lookup returns, and
the proof is accepted under the root hash of the trie. -/
theorem prove_verifies (hd : ∀ b, digest b ≠ emptyTrieRoot) (hs : Reachable digest s)
    (hk : key.length ≤ maxKeyBytes) {value : Option CryptoHash} {proof : Proof}
    (h : s.trie.prove digest key = .ok (value, proof)) :
    s.trie.get digest key = .ok value ∧
      proof.verify digest s.trie.rootHash key value = true :=
  ⟨get_of_prove hd hs hk h, verify_of_prove hd hs hk h⟩

/-- The proof of the value at `b`, leaf first. -/
def sampleProof : Proof :=
  .positive ⟨[.extension ⟨1, by decide, by decide⟩,
    .branch ⟨false, hashOf 0xbf369592ec8bf72d774127c77bdb2484e2105256b5281be8b49c08353a65092c⟩,
    .extension ⟨6, by decide, by decide⟩]⟩

theorem prove_verifies_sample :
    sampleState.trie.prove sampleDigest [0x62#8] = .ok (some (sampleValue 2#8), sampleProof) ∧
      sampleState.trie.get sampleDigest [0x62#8] = .ok (some (sampleValue 2#8)) ∧
      sampleProof.verify sampleDigest sampleState.trie.rootHash [0x62#8]
        (some (sampleValue 2#8)) = true :=
  have hprove : sampleState.trie.prove sampleDigest [0x62#8] =
      .ok (some (sampleValue 2#8), sampleProof) := by decide +kernel
  ⟨hprove, prove_verifies sampleDigest_ne (Reachable.intro sampleAlloc_empty _) (by decide) hprove⟩

end SealableTrie
