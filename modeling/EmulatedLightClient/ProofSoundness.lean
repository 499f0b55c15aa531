import EmulatedLightClient.HashedNodes
import EmulatedLightClient.ProofCompleteness

/-!
# Accepted proofs tell the truth

Whatever proof is accepted under the root hash of a reachable trie, what it
claims about the key is what the map holds. As long as no two of the byte
strings which have been hashed collide, a climb which ends at the root can only
have gone through the nodes of the trie.
-/

namespace Bits.Slice

theorem popBack_inv {s s' : Slice} {bit : Bool} (h : s.popBack = some (bit, s')) :
    s.bits = s'.bits ++ [bit] := by
  rcases List.eq_nil_or_concat s.bits with hnil | ⟨bs, b, hb⟩
  · rw [popBack_of_nil hnil] at h
    cases h
  · rw [List.concat_eq_append] at hb
    obtain ⟨s₁, hpop, hbits, -⟩ := popBack_of_concat hb
    rw [hpop] at h
    cases h
    rw [hbits, hb]

theorem popBackSlice_inv {s tail s' : Slice} {n : Nat} (h : s.popBackSlice n = some (tail, s')) :
    s.bits = s'.bits ++ tail.bits ∧ tail.bits.length = n ∧
      tail.offset.val = (s.offset.val + s'.bits.length) % 8 := by
  by_cases hn : n ≤ s.length
  · obtain ⟨t₁, s₁, hpop, hbits, ho, htb, hto⟩ := popBackSlice_spec hn
    rw [hpop] at h
    cases h
    have hlen : s'.bits.length = s.length - n := by
      rw [hbits, List.length_take, length_bits]
      omega
    refine ⟨by rw [hbits, htb, List.take_append_drop], ?_, by rw [hto, hlen]⟩
    rw [htb, List.length_drop, length_bits]
    omega
  · rw [popBackSlice_none (by omega)] at h
    cases h

end Bits.Slice

namespace SealableTrie

open ByteBits Bits Nodes Memory ListPrefix BitMaps FailingState HeapOwnership TrieProof

variable {digest : List Byte → CryptoHash} {S : Set (List Byte)} {t u : Tree} {d : Nat}
  {path : List Bool}

/-- The node of the tree chooses between two subtrees by the next bit. -/
def Tree.Forks (t l r : Tree) : Prop := t = .pruned l r ∨ t = .branch l r

/-- The subtree which is reached along the path. -/
inductive Tree.Sub (t : Tree) : List Bool → Tree → Prop
  | root : Tree.Sub t [] t
  | side {path : List Bool} {u l r : Tree} (h : Tree.Sub t path u) (hu : u.Forks l r)
      (bit : Bool) : Tree.Sub t (path ++ [bit]) (if bit then r else l)
  | ext {path key : List Bool} {c : Tree} (h : Tree.Sub t path (.ext key c)) :
    Tree.Sub t (path ++ key) c

namespace Tree

theorem Forks.lookup {l r : Tree} (h : t.Forks l r) : t.lookup = fork l.lookup r.lookup := by
  rcases h with rfl | rfl <;> rfl

theorem Sub.lookup (h : t.Sub path u) (rest : List Bool) :
    t.lookup (path ++ rest) = u.lookup rest := by
  induction h generalizing rest with
  | root => rfl
  | @side path u l r _ hu bit ih =>
    rw [List.append_assoc, ih, hu.lookup]
    cases bit <;> rfl
  | @ext path key c _ ih =>
    rw [List.append_assoc, ih, Tree.lookup, under_append_self]

theorem Sub.wf (h : t.Sub path u) (hwf : t.WF 0) : u.WF path.length := by
  induction h with
  | root => exact hwf
  | @side path u l r _ hu bit ih =>
    rw [List.length_append, List.length_singleton]
    rcases hu with rfl | rfl
    · cases bit
      · exact ih.1
      · exact ih.2.1
    · cases bit
      · exact ih.1
      · exact ih.2
  | ext _ ih =>
    rw [List.length_append]
    exact ih.2.2

theorem Sub.hashed (h : t.Sub path u) (hh : t.Hashed digest S 0) :
    u.Hashed digest S path.length := by
  induction h with
  | root => exact hh
  | @side path u l r _ hu bit ih =>
    rw [List.length_append, List.length_singleton]
    rcases hu with rfl | rfl
    · cases bit
      · exact ih.2.1
      · exact ih.2.2
    · cases bit
      · exact ih.2.1
      · exact ih.2.2
  | ext _ ih =>
    rw [List.length_append]
    exact ih.2

theorem WF.num_lt {key : List Bool} {c : Tree} (h : (Tree.ext key c).WF d) :
    ExtKey.num (U3.wrap d) key.length < 2 ^ 12 := by
  have hfits := h.2.1
  have := (U3.wrap d).isLt
  simp only [ExtKey.num, maxBits] at *
  omega

/-- The node whose reference has the hash of a branch is one, with the same
references. -/
theorem forks_of_hash (hinj : Set.InjOn digest S) (hh : u.Hashed digest S d) (hwf : u.WF d)
    {left right : Bool × CryptoHash} (hin : branchPreimage left right ∈ S)
    (h : u.parts digest d = (false, digest (branchPreimage left right))) :
    ∃ l r, u.Forks l r ∧ l.parts digest (d + 1) = left ∧ r.parts digest (d + 1) = right := by
  obtain ⟨hkind, hhash⟩ := Prod.ext_iff.mp h
  cases u with
  | value s h₀ => cases hkind
  | pruned l r =>
    obtain ⟨hl, hr⟩ := branchPreimage_inj (hinj hh.1 hin hhash)
    exact ⟨l, r, Or.inl rfl, hl, hr⟩
  | branch l r =>
    obtain ⟨hl, hr⟩ := branchPreimage_inj (hinj hh.1 hin hhash)
    exact ⟨l, r, Or.inr rfl, hl, hr⟩
  | ext key c => exact absurd (hinj hh.1 hin hhash).symm (branchPreimage_ne_extPreimage hwf.num_lt)

/-- The same for extensions. -/
theorem ext_of_hash (hinj : Set.InjOn digest S) (hh : u.Hashed digest S d) (hwf : u.WF d)
    {key : ExtKey} {child : Bool × CryptoHash} (hin : extPreimage key.offset key.bits child ∈ S)
    (h : u.parts digest d = (false, digest (extPreimage key.offset key.bits child))) :
    ∃ c, u = .ext key.bits c ∧ key.offset = U3.wrap d ∧
      c.parts digest (d + key.bits.length) = child := by
  obtain ⟨hkind, hhash⟩ := Prod.ext_iff.mp h
  cases u with
  | value s h₀ => cases hkind
  | pruned l r =>
    exact absurd (hinj hh.1 hin hhash) (branchPreimage_ne_extPreimage key.num_lt)
  | branch l r =>
    exact absurd (hinj hh.1 hin hhash) (branchPreimage_ne_extPreimage key.num_lt)
  | ext bits c =>
    obtain ⟨ho, rfl, hc⟩ := extPreimage_inj hwf.num_lt key.num_lt (hinj hh.1 hin hhash)
    exact ⟨c, rfl, ho.symm, hc⟩

end Tree

/-- There is a subtree at the path which the reference stands for. -/
def RefersTo (digest : List Byte → CryptoHash) (t : Tree) (path : List Bool) (want : OwnedRef) :
    Prop :=
  ∃ u, t.Sub path u ∧ u.parts digest path.length = (want.isValue, want.hash)

theorem item_sound (hinj : Set.InjOn digest S) (hh : t.Hashed digest S 0) (hwf : t.WF 0)
    {s s₁ : Slice} {want : OwnedRef} {item : Item} {node : Node Unit Unit}
    (hitem : itemNode s want item = some (s₁, node)) (hin : node.preimage ∈ S)
    (h : RefersTo digest t s₁.bits (OwnedRef.toNode digest node)) :
    RefersTo digest t s.bits want := by
  obtain ⟨u, hsub, hparts⟩ := h
  have huh := hsub.hashed hh
  have huw := hsub.wf hwf
  cases item with
  | branch child =>
    simp only [itemNode, Option.map_eq_some_iff, Prod.exists, Prod.mk.injEq] at hitem
    obtain ⟨bit, s', hpop, rfl, rfl⟩ := hitem
    rw [Slice.popBack_inv hpop]
    cases bit with
    | false =>
      simp only [Bool.false_eq_true, if_false, preimage_branch] at hin hparts
      obtain ⟨l, r, hu, hl, -⟩ := Tree.forks_of_hash hinj huh huw hin hparts
      refine ⟨l, hsub.side hu false, ?_⟩
      rw [List.length_append, List.length_singleton, hl, parts_toReference]
    | true =>
      simp only [if_true, preimage_branch] at hin hparts
      obtain ⟨l, r, hu, -, hr⟩ := Tree.forks_of_hash hinj huh huw hin hparts
      refine ⟨r, hsub.side hu true, ?_⟩
      rw [List.length_append, List.length_singleton, hr, parts_toReference]
  | extension length =>
    simp only [itemNode, Option.bind_eq_some_iff, Option.map_eq_some_iff, Prod.exists,
      Prod.mk.injEq] at hitem
    obtain ⟨suffix, s', hpop, key, hkey, rfl, rfl⟩ := hitem
    obtain ⟨hbits, -⟩ := Slice.popBackSlice_inv hpop
    have hslice : key.slice = suffix := by
      unfold ExtKey.tryFrom at hkey
      split at hkey
      · cases hkey
      · split at hkey
        · cases hkey
        · cases hkey
          rfl
    have hkb : key.bits = suffix.bits := congrArg Slice.bits hslice
    rw [preimage_extension] at hin
    rw [OwnedRef.toNode, Node.hash, preimage_extension] at hparts
    obtain ⟨c, rfl, -, hc⟩ := Tree.ext_of_hash hinj huh huw hin hparts
    refine ⟨c, ?_, ?_⟩
    · rw [hbits, ← hkb]
      exact hsub.ext
    · rw [hbits, ← hkb, List.length_append, hc, parts_toReference]

theorem climb_sound (hinj : Set.InjOn digest S) (hh : t.Hashed digest S 0) (hwf : t.WF 0)
    {items : List Item} {s s' : Slice} {want : OwnedRef} {root : CryptoHash}
    (hroot : t.parts digest 0 = (false, root))
    (hclimb : climb digest s want items = some (s', OwnedRef.node root)) (hnil : s'.bits = [])
    (hin : ∀ b ∈ climbHashed digest s want items, b ∈ S) : RefersTo digest t s.bits want := by
  induction items generalizing s want with
  | nil =>
    simp only [climb, Option.some.injEq, Prod.mk.injEq] at hclimb
    obtain ⟨rfl, rfl⟩ := hclimb
    rw [hnil]
    exact ⟨t, .root, hroot⟩
  | cons item items ih =>
    simp only [climb] at hclimb
    cases hi : itemNode s want item with
    | none =>
      rw [hi] at hclimb
      cases hclimb
    | some r =>
      obtain ⟨s₁, node⟩ := r
      rw [hi] at hclimb
      simp only [climbHashed, hi] at hin
      have hrest := ih hclimb fun b hb => hin b (List.mem_cons_of_mem _ hb)
      exact item_sound hinj hh hwf hi (hin _ (List.mem_cons_self ..)) hrest

theorem RefersTo.value {hash : CryptoHash} (h : RefersTo digest t path (OwnedRef.value hash)) :
    ∃ sealed, t.Sub path (.value sealed hash) := by
  obtain ⟨u, hsub, hparts⟩ := h
  obtain ⟨hkind, hhash⟩ := Prod.ext_iff.mp hparts
  cases u with
  | value sealed h₀ =>
    cases hhash
    exact ⟨sealed, hsub⟩
  | pruned l r => cases hkind
  | branch l r => cases hkind
  | ext key c => cases hkind

theorem actual_sound (hinj : Set.InjOn digest S) (hh : t.Hashed digest S 0) (hwf : t.WF 0)
    {s s₁ : Slice} {want : OwnedRef} {actual : Actual} (ho : s.offset = 0)
    (hact : actualReference digest s actual = some (s₁, want))
    (hin : ∀ r ∈ actualNode s actual, r.2.preimage ∈ S)
    (h : RefersTo digest t s₁.bits want) : t.lookup s.bits = none := by
  cases actual with
  | branch left right =>
    simp only [actualReference, actualNode, Option.map_some, Option.some.injEq,
      Prod.mk.injEq] at hact
    obtain ⟨rfl, rfl⟩ := hact
    obtain ⟨u, hsub, hparts⟩ := h
    have hin := hin _ rfl
    simp only [preimage_branch] at hin hparts
    obtain ⟨l, r, hu, -, -⟩ := Tree.forks_of_hash hinj (hsub.hashed hh) (hsub.wf hwf) hin hparts
    rw [← List.append_nil s.bits, hsub.lookup, hu.lookup]
    rfl
  | extension left keyBuf child =>
    simp only [actualReference, Option.map_eq_some_iff, Prod.exists, Prod.mk.injEq] at hact
    obtain ⟨s₂, node, hnode, rfl, rfl⟩ := hact
    have hin := hin _ hnode
    simp only [actualNode, Option.bind_eq_some_iff, Prod.exists] at hnode
    obtain ⟨suffix, s₃, hpop, key, hdec, hif⟩ := hnode
    split at hif
    · cases hif
    · rename_i hstarts
      simp only [Option.some.injEq, Prod.mk.injEq] at hif
      obtain ⟨rfl, rfl⟩ := hif
      obtain ⟨hbits, -, hoff⟩ := Slice.popBackSlice_inv hpop
      obtain ⟨u, hsub, hparts⟩ := h
      rw [preimage_extension] at hin
      rw [OwnedRef.toNode, Node.hash, preimage_extension] at hparts
      obtain ⟨c, rfl, hko, -⟩ :=
        Tree.ext_of_hash hinj (hsub.hashed hh) (hsub.wf hwf) hin hparts
      rw [hbits, hsub.lookup]
      apply under_eq_none
      intro hpre
      apply hstarts
      rw [Slice.startsWith_iff]
      refine ⟨?_, hpre⟩
      rw [show key.slice.offset = key.offset from rfl, hko]
      apply offset_wrap
      rw [hoff, ho, Fin.val_zero, Nat.zero_add]
  | lookupKeyLeft len hash =>
    simp only [actualReference, Option.map_eq_some_iff, Prod.exists, Prod.mk.injEq] at hact
    obtain ⟨suffix, s₂, hpop, rfl, rfl⟩ := hact
    obtain ⟨hbits, hlen, -⟩ := Slice.popBackSlice_inv hpop
    obtain ⟨sealed, hsub⟩ := h.value
    rw [hbits, hsub.lookup]
    have hne : suffix.bits ≠ [] := by
      intro hnil
      rw [hnil] at hlen
      exact len.nonzero hlen.symm
    simp [Tree.lookup, hne]

theorem verify_tree (hinj : Set.InjOn digest S) (hh : t.Hashed digest S 0) (hwf : t.WF 0)
    {root : CryptoHash} (hparts : t.parts digest 0 = (false, root))
    (hroot : root ≠ CryptoHash.default) {proof : Proof} {key : List Byte}
    {value : Option CryptoHash} (hin : ∀ b ∈ proof.hashed digest key value, b ∈ S)
    (hv : proof.verify digest root key value = true) :
    (t.lookup (bitsOf key)).map Prod.fst = value := by
  obtain ⟨s, s₁, want, s', hs, hstart, hclimb, hnil⟩ := (verify_iff hroot).mp hv
  have hkey : s.offset = 0 ∧ s.bits = bitsOf key := by
    by_cases hlen : key.length * 8 < 2 ^ 16
    · obtain ⟨s₀, hs₀, ho, hb⟩ := Slice.fromBytes_spec hlen
      rw [hs] at hs₀
      cases hs₀
      exact ⟨ho, hb⟩
    · rw [Slice.fromBytes, dif_neg hlen] at hs
      cases hs
  simp only [Proof.hashed, hs, hstart, List.mem_append] at hin
  have hrefers := climb_sound hinj hh hwf hparts hclimb hnil fun b hb => hin b (Or.inr hb)
  rw [← hkey.2]
  cases proof with
  | positive p =>
    cases value with
    | none => cases hstart
    | some hash =>
      simp only [Proof.start, Option.some.injEq, Prod.mk.injEq] at hstart
      obtain ⟨rfl, rfl⟩ := hstart
      obtain ⟨sealed, hsub⟩ := hrefers.value
      rw [← List.append_nil s.bits, hsub.lookup]
      simp [Tree.lookup]
  | negative p =>
    cases value with
    | some hash => cases hstart
    | none =>
      obtain ⟨actual, items⟩ := p
      simp only [Proof.start, Option.bind_eq_some_iff] at hstart
      obtain ⟨actual, rfl, hact⟩ := hstart
      rw [actual_sound hinj hh hwf hkey.1 hact ?_ hrefers]
      · rfl
      · intro r hr
        refine hin _ (Or.inl ?_)
        rw [Option.mem_def] at hr
        simp [hr]

section

variable {A : Type} [LawfulAllocator A RawNode]

/-- What the map binds the key to, whether or not it is sealed. -/
def Bindings.valueOf (m : Bindings) (key : List Byte) : Option CryptoHash :=
  (m key).map Prod.fst

theorem verify_bindings (hd : ∀ b, digest b ≠ emptyTrieRoot) (hinj : Set.InjOn digest S) {a : A}
    (hempty : ∀ p, cell a p = none) {calls : List Call}
    (hS : ∀ t ∈ (State.empty a).visited digest calls, ∀ b, t.Stores b → b ∈ S) {key : List Byte}
    {proof : Proof} {value : Option CryptoHash} (hin : ∀ b ∈ proof.hashed digest key value, b ∈ S)
    (hv : proof.verify digest ((State.empty a).run digest calls).trie.rootHash key value = true) :
    ((State.empty a).run digest calls).bindings.valueOf key = value := by
  obtain ⟨root, h, hh⟩ := State.run_hashed (S := S) hd (State.empty_holds hempty) trivial hS
  rw [Bindings.valueOf, h.bindings]
  cases root with
  | none =>
    rw [h.rep.2.1] at hv
    cases proof with
    | positive p => cases value <;> cases hv
    | negative p =>
      cases value with
      | none => rfl
      | some hash => cases hv
  | some tree =>
    obtain ⟨cells, hrep, hwf, -⟩ := h.rep
    exact verify_tree hinj hh hwf hrep.parts_eq.symm (hrep.hash_ne hd) hin hv

/-- If the digests of the nodes stored in the course of a run and of the byte
strings hashed by the verifier do not collide, every proof accepted under the root
hash of the trie says what the map holds. No two proofs contradict each other. -/
theorem verify_sound (hd : ∀ b, digest b ≠ emptyTrieRoot) (hinj : Set.InjOn digest S) {a : A}
    (hempty : ∀ p, cell a p = none) (calls : List Call)
    (hS : ∀ t ∈ (State.empty a).visited digest calls, ∀ b, t.Stores b → b ∈ S)
    (key : List Byte) :
    (∀ (proof : Proof) (value : Option CryptoHash),
      (∀ b ∈ proof.hashed digest key value, b ∈ S) →
      proof.verify digest ((State.empty a).run digest calls).trie.rootHash key value = true →
      ((State.empty a).run digest calls).bindings.valueOf key = value) ∧
    ∀ (proof proof' : Proof) (value value' : Option CryptoHash),
      (∀ b ∈ proof.hashed digest key value, b ∈ S) →
      (∀ b ∈ proof'.hashed digest key value', b ∈ S) →
      proof.verify digest ((State.empty a).run digest calls).trie.rootHash key value = true →
      proof'.verify digest ((State.empty a).run digest calls).trie.rootHash key value' = true →
      value = value' := by
  refine ⟨fun proof value => verify_bindings hd hinj hempty hS, ?_⟩
  intro proof proof' value value' hin hin' hv hv'
  have hvalue := verify_bindings hd hinj hempty hS hin hv
  have hvalue' := verify_bindings hd hinj hempty hS hin' hv'
  exact hvalue.symm.trans hvalue'

end

/-- What is hashed for the nodes of the sample trie. -/
def sampleHashed : List (List Byte) := sampleNodes.map Prod.fst

def storesOnly (nodes : List (List Byte)) (t : Trie (TestAllocator RawNode)) : Bool :=
  t.alloc.pool.all fun raw =>
    match raw.decode with
    | .ok node => nodes.contains node.preimage
    | .error _ => true

theorem mem_of_storesOnly {nodes : List (List Byte)} {t : Trie (TestAllocator RawNode)}
    (h : storesOnly nodes t = true) {b : List Byte} (hb : t.Stores b) : b ∈ nodes := by
  obtain ⟨p, raw, hcell, node, hdec, rfl⟩ := hb
  have := List.all_eq_true.mp h raw (TestAllocator.mem_pool_of_cell hcell)
  rw [hdec] at this
  simpa using this

theorem verify_sound_sample :
    sampleProof.verify sampleDigest sampleState.trie.rootHash [0x62#8]
        (some (sampleValue 2#8)) = true ∧
      sampleState.bindings.valueOf [0x62#8] = some (sampleValue 2#8) := by
  have hv : sampleProof.verify sampleDigest sampleState.trie.rootHash [0x62#8]
      (some (sampleValue 2#8)) = true := by decide +kernel
  have hinj : Set.InjOn sampleDigest {b | b ∈ sampleHashed} := tableDigest_injOn (by decide)
  have hS : ∀ t ∈ (State.empty sampleAlloc).visited sampleDigest sampleCalls,
      storesOnly sampleHashed t = true := by decide +kernel
  refine ⟨hv, (verify_sound sampleDigest_ne hinj sampleAlloc_empty sampleCalls
    (fun t ht b hb => mem_of_storesOnly (hS t ht) hb) [0x62#8]).1 sampleProof _ ?_ hv⟩
  decide

end SealableTrie
