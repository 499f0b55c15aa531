import EmulatedLightClient.IbcCompleteness
import EmulatedLightClient.RelayedChain

/-!
# What is proven to a client was so

The contract which runs the chain keeps a trie, and a block commits to what the trie held when the block was generated.
Clients check proofs against the blocks which have been relayed to them. What they take for proven was in the trie, and
what the trie held and could still be read can be proven to them.
-/

namespace CfGuest

open Bits ByteBits FailingState GuestChain MachineInts Memory Nodes Readers SealableTrie TrieIds TrieProof

section

variable {digest : List Byte → CryptoHash} {DecodeError : Type}
  {decodeU64 : List Byte → Except DecodeError (Fin (2 ^ 64))} {info : PathInfo} {packetCommitment : Bool}
  {value : Option (List Byte)} {hash : Option CryptoHash} {ending : List Byte}

/-- What the proof ends with is told by the hash. -/
theorem ValueHashOf.ending_eq (h : ValueHashOf digest decodeU64 info packetCommitment value hash ending) :
    ending = sequencesTail hash info.seqKind := by
  unfold ValueHashOf at h
  split at h
  · rw [h]
    rfl
  · unfold HashOf at h
    split at h
    · rename_i hkind
      obtain ⟨seq, a, b, -, ha, hb, rfl, rfl⟩ := h
      rw [hkind]
      exact (otherSequences_sequencesHash (length_beBytes 8 _) ha hb).symm
    · rename_i hkind _
      rw [h.2, hkind]
      rfl
    · rename_i hkind _
      rw [h.2, hkind]
      rfl
  · exact h.elim

end

section

variable {A : Type} [LawfulAllocator A RawNode] (digest : List Byte → CryptoHash) (a : A)

/-- Root of the trie after the calls. -/
def rootAfter (calls : List SealableTrie.Call) : CryptoHash := ((State.empty a).run digest calls).trie.rootHash

/-- The trie binds the key of the path to what stands for the value, or to nothing if there is no value. -/
def Binds {DecodeError : Type} (decodeU64 : List Byte → Except DecodeError (Fin (2 ^ 64)))
    (calls : List SealableTrie.Call) (path : Path) (value : Option (List Byte)) : Prop :=
  ∃ info ending, PathInfo.tryFrom path = .ok info ∧
    ValueHashOf digest decodeU64 info (isPacketCommitment path) value
      (((State.empty a).run digest calls).bindings.valueOf info.key) ending

end

/-- The trie of the contract, as what has been called on it, and the chain with its clients. For every block it is
recorded what had been called on the trie when the block was generated. -/
structure World (ι PK Sig Ctx : Type) where
  calls : List SealableTrie.Call
  generated : List (BlockHeader × List SealableTrie.Call)
  relayed : Relayed ι PK Sig Ctx

/-- The block was generated when just those calls had been made, and commits to the trie they had made. -/
structure Snapshot {A ι PK Sig Ctx : Type} [LawfulAllocator A RawNode] (digest : List Byte → CryptoHash) (a : A)
    (w : World ι PK Sig Ctx) (b : BlockHeader) (before : List SealableTrie.Call) : Prop where
  generated : (b, before) ∈ w.generated
  earlier : before <+: w.calls
  stateRoot : b.stateRoot = rootAfter digest a before

section

variable {PK Sig ε Ctx AnyState A : Type} [LawfulContext Ctx AnyState] [PubKey PK] [LawfulAllocator A RawNode]
  (digest : List Byte → CryptoHash) (codec : KeyCodec PK Sig) (W : Proto.Wire ε) (verifier : Verifier PK Sig)
  (honest : PK → Prop) (genesis : BlockHeader) (genesisEpoch : Epoch PK) (a : A)

/-- Blocks are generated with the root which the trie has at the moment. -/
inductive WorldStep (E : Type) [OfUpdateCandidateError E] {ι : Type} (w w' : World ι PK Sig Ctx) : Prop
  | trie (c : SealableTrie.Call) (hcalls : w'.calls = w.calls ++ [c]) (hgenerated : w'.generated = w.generated)
      (hrelayed : w'.relayed = w.relayed)
  | call (c : GuestChain.Call PK Sig E) (hroot : ∀ r ∈ ChainRun.stateRootOf c, r = rootAfter digest a w.calls)
      (hcalls : w'.calls = w.calls) (hchain : w.relayed.chain.step digest verifier c = some w'.relayed.chain)
      (hclients : w'.relayed.clients = w.relayed.clients) (added : List BlockHeader)
      (hadded : w'.relayed.chain.blocks genesis = w.relayed.chain.blocks genesis ++ added)
      (hgenerated : w'.generated = w.generated ++ added.map (·, w.calls))
  | move (i : ι) (hcalls : w'.calls = w.calls) (hgenerated : w'.generated = w.generated)
      (hchain : w'.relayed.chain = w.relayed.chain)
      (hothers : ∀ j, j ≠ i → w'.relayed.clients j = w.relayed.clients j)
      (hmove : ClientMove digest codec W verifier honest genesis genesisEpoch w.relayed.chain (w.relayed.clients i)
        (w'.relayed.clients i))

end

section

variable {PK Sig ε Ctx AnyState A ι E : Type} [LawfulContext Ctx AnyState] [PubKey PK] [LawfulAllocator A RawNode]
  [OfUpdateCandidateError E] {digest : List Byte → CryptoHash} {codec : KeyCodec PK Sig} {W : Proto.Wire ε}
  {verifier : Verifier PK Sig} {honest : PK → Prop} {genesis : BlockHeader} {genesisEpoch : Epoch PK} {a : A}
  {w w' w₀ : World ι PK Sig Ctx}

theorem WorldStep.relayed (h : WorldStep digest codec W verifier honest genesis genesisEpoch a E w w') :
    w'.relayed = w.relayed ∨ RelayStep digest codec W verifier honest genesis genesisEpoch E w.relayed w'.relayed := by
  cases h with
  | trie c hcalls hgenerated hrelayed => exact Or.inl hrelayed
  | call c hroot hcalls hchain hclients added hadded hgenerated => exact Or.inr (.call c hchain hclients)
  | move i hcalls hgenerated hchain hothers hmove => exact Or.inr (.move i hchain hothers hmove)

/-- To clients the trie makes no difference. -/
theorem relayed_of_run
    (hrun : Relation.ReflTransGen (WorldStep digest codec W verifier honest genesis genesisEpoch a E) w₀ w) :
    Relation.ReflTransGen (RelayStep digest codec W verifier honest genesis genesisEpoch E) w₀.relayed w.relayed := by
  induction hrun with
  | refl => exact .refl
  | tail _ hstep ih =>
    rcases hstep.relayed with heq | hrelay
    · rw [heq]
      exact ih
    · exact ih.tail hrelay

variable (digest genesis a) in
/-- Every block is recorded with the moment of the trie which it commits to. -/
structure Committed (w : World ι PK Sig Ctx) : Prop where
  blocks : w.generated.map Prod.fst = w.relayed.chain.blocks genesis
  moments : ∀ g ∈ w.generated, g.2 <+: w.calls ∧ g.1.stateRoot = rootAfter digest a g.2

omit [LawfulContext Ctx AnyState] [PubKey PK] in
theorem Committed.snapshot (h : Committed digest genesis a w) {b : BlockHeader} {before : List SealableTrie.Call}
    (hb : (b, before) ∈ w.generated) : Snapshot digest a w b before := by
  obtain ⟨hbefore, hroot⟩ := h.moments (b, before) hb
  exact ⟨hb, hbefore, hroot⟩

omit [LawfulContext Ctx AnyState] [PubKey PK] in
theorem Committed.exists_snapshot (h : Committed digest genesis a w) {b : BlockHeader}
    (hb : b ∈ w.relayed.chain.blocks genesis) : ∃ before, Snapshot digest a w b before := by
  rw [← h.blocks] at hb
  obtain ⟨⟨_, before⟩, hg, rfl⟩ := List.mem_map.mp hb
  exact ⟨before, h.snapshot hg⟩

theorem Committed.step (hstep : WorldStep digest codec W verifier honest genesis genesisEpoch a E w w')
    (h : Committed digest genesis a w) : Committed digest genesis a w' := by
  cases hstep with
  | trie c hcalls hgenerated hrelayed =>
    refine ⟨by rw [hgenerated, hrelayed, h.blocks], fun g hg => ?_⟩
    rw [hgenerated] at hg
    obtain ⟨hbefore, hroot⟩ := h.moments g hg
    rw [hcalls]
    exact ⟨hbefore.trans (List.prefix_append _ _), hroot⟩
  | call c hroot hcalls hchain hclients added hadded hgenerated =>
    have hextends : ChainRun.Extends genesis genesisEpoch (ChainRun.stateRootOf c) w.relayed.chain w'.relayed.chain :=
      ChainRun.step_extends hchain
    obtain ⟨added', hadded', hroots⟩ := hextends.added
    obtain rfl := List.append_cancel_left (hadded.symm.trans hadded')
    have hfirst : (added.map (·, w.calls)).map Prod.fst = added := by
      rw [List.map_map]
      exact List.map_id added
    refine ⟨by rw [hgenerated, List.map_append, h.blocks, hadded, hfirst], fun g hg => ?_⟩
    rw [hcalls]
    rw [hgenerated] at hg
    rcases List.mem_append.mp hg with hg | hg
    · exact h.moments g hg
    · obtain ⟨b, hb, rfl⟩ := List.mem_map.mp hg
      exact ⟨List.prefix_refl _, hroot _ (hroots b hb)⟩
  | move i hcalls hgenerated hchain hothers hmove =>
    refine ⟨by rw [hgenerated, hchain, h.blocks], fun g hg => ?_⟩
    rw [hgenerated] at hg
    rw [hcalls]
    exact h.moments g hg

theorem Committed.run
    (hrun : Relation.ReflTransGen (WorldStep digest codec W verifier honest genesis genesisEpoch a E) w₀ w)
    (h : Committed digest genesis a w₀) : Committed digest genesis a w := by
  induction hrun with
  | refl => exact h
  | tail _ hstep ih => exact ih.step hstep

variable (digest genesis a) in
/-- Hashes of blocks and of nodes of the trie are among those which do not collide. -/
structure Hashed (S : Set (List Byte)) (w : World ι PK Sig Ctx) : Prop where
  blocks : ∀ b ∈ w.relayed.chain.blocks genesis, b.serialize ∈ S
  nodes : ∀ t ∈ (State.empty a).visited digest w.calls, ∀ bytes, t.Stores bytes → bytes ∈ S

omit [LawfulContext Ctx AnyState] [PubKey PK] in
theorem Hashed.nodes_before {S : Set (List Byte)} (h : Hashed digest genesis a S w) {before : List SealableTrie.Call}
    (hbefore : before <+: w.calls) : ∀ t ∈ (State.empty a).visited digest before, ∀ bytes, t.Stores bytes → bytes ∈ S := by
  obtain ⟨after, hafter⟩ := hbefore
  intro t ht
  refine h.nodes t ?_
  rw [← hafter, State.visited_append]
  exact List.mem_append_left _ ht

variable {DecodeError : Type} {decodeU64 : List Byte → Except DecodeError (Fin (2 ^ 64))}

omit [PubKey PK] in
/-- Bytes accepted under the hash of a block say what the trie held at the block. -/
theorem binds_of_accepted {S : Set (List Byte)} (hd : ∀ b, digest b ≠ emptyTrieRoot) (hinj : Set.InjOn digest S)
    (hempty : ∀ p, cell a p = none) (hhashed : Hashed digest genesis a S w) {b : BlockHeader}
    (hb : b ∈ w.relayed.chain.blocks genesis) {before : List SealableTrie.Call} (hsnapshot : Snapshot digest a w b before)
    {commitmentPrefix proof : List Byte} {path : Path} {value : Option (List Byte)}
    (hin : ∀ bytes ∈ verifyHashed digest decodeU64 true proof (b.calcHash digest).bytes path value, bytes ∈ S)
    (h : verifyForBlock digest decodeU64 commitmentPrefix proof (b.calcHash digest).bytes path value = .ok ()) :
    Binds digest a decodeU64 before path value := by
  obtain ⟨-, o, hblock, hroot⟩ := verifyImpl_eq_ok.mp h
  obtain ⟨header, hheader⟩ := Option.isSome_iff_exists.mp hblock
  rw [← hblock, ← hroot] at hin
  have hopened := o.root_eq
  rw [hheader] at hopened
  obtain ⟨hstate, hhash⟩ := getRoot_some.mp hopened
  -- The header in the proof has the hash of the block.
  have hbytes := hinj (o.header_mem hin hheader) (hhashed.blocks b hb) (hhash.trans (CryptoHash.eq_of_bytes hroot))
  obtain rfl := blockHeader_inj hbytes
  have hv := o.verified
  rw [hstate, hsnapshot.stateRoot] at hv
  have hbinds := verify_bindings hd hinj hempty (hhashed.nodes_before hsnapshot.earlier) (o.nodes_mem hin) hv
  refine ⟨o.info, o.ending, o.info_eq, ?_⟩
  rw [hbinds]
  exact o.hash_eq

omit [LawfulContext Ctx AnyState] [PubKey PK] in
/-- Whatever is proven can be written. -/
theorem serialize_of_prove (hd : ∀ b, digest b ≠ emptyTrieRoot) {s : State A} (hs : Reachable digest s) {path : Path}
    {info : PathInfo} (hinfo : PathInfo.tryFrom path = .ok info) {value : Option CryptoHash} {proof : Proof}
    (h : s.trie.prove digest info.key = .ok (value, proof)) : proof.serialize = some proof.layout := by
  have hk : info.key.length ≤ maxKeyBytes := (key_length_le hinfo).trans (by decide)
  rcases serialize_of_verify hinfo (verify_of_prove hd hs hk h) with hserialize | ⟨hroot, -⟩
  · exact hserialize
  · obtain ⟨slice, hslice, -⟩ := sliceOf_spec hk
    have hempty : s.trie.rootHash = emptyTrieRoot := hroot
    simp only [Trie.prove, Trie.getImpl, hslice, hempty, if_true, Except.ok.injEq, Prod.mk.injEq] at h
    rw [← h.2]
    rfl

omit [LawfulContext Ctx AnyState] [PubKey PK] in
theorem generate_of_prove {b : BlockHeader} {t : Trie A} (hroot : b.stateRoot = t.rootHash) {path : Path} {info : PathInfo}
    (hinfo : PathInfo.tryFrom path = .ok info) {value : Option CryptoHash} {proof : Proof}
    (hprove : t.prove digest info.key = .ok (value, proof)) (hserialize : proof.serialize = some proof.layout) :
    ∃ p, generateForBlock digest b t path = .ok p ∧ p.value = value ∧ p.root = b.calcHash digest := by
  have hgetRoot : getRoot digest (some b) t.rootHash = .ok (b.calcHash digest) := getRoot_some.mpr ⟨hroot.symm, rfl⟩
  refine ⟨⟨b.serialize ++ proof.layout ++ sequencesTail value info.seqKind, b.calcHash digest, value⟩, ?_, rfl, rfl⟩
  simp only [generateForBlock, generateImpl, hgetRoot, hinfo, hprove, serialiseProof, hserialize, Option.map_some, okOr,
    Option.elim_some, Except.mapError, bind, Except.bind]
  rfl

omit [PubKey PK] in
/-- Of what can be looked up a proof is made which is accepted under the hash of the block. -/
theorem accepted_of_binds {S : Set (List Byte)} (hd : ∀ b, digest b ≠ emptyTrieRoot) (hinj : Set.InjOn digest S)
    (hempty : ∀ p, cell a p = none) (hhashed : Hashed digest genesis a S w) {b : BlockHeader}
    {before : List SealableTrie.Call} (hsnapshot : Snapshot digest a w b before) {path : Path} {info : PathInfo}
    (hinfo : PathInfo.tryFrom path = .ok info) {found : Option CryptoHash}
    (hget : ((State.empty a).run digest before).trie.get digest info.key = .ok found) :
    ∃ p, generateForBlock digest b ((State.empty a).run digest before).trie path = .ok p ∧
      ∀ value, Binds digest a decodeU64 before path value →
        verifyForBlock digest decodeU64 [] p.proof (b.calcHash digest).bytes path value = .ok () := by
  have hreach : Reachable digest ((State.empty a).run digest before) := Reachable.intro hempty before
  have hk : info.key.length ≤ maxKeyBytes := (key_length_le hinfo).trans (by decide)
  obtain ⟨proof, hprove⟩ := prove_of_get hd hreach hk hget
  obtain ⟨p, hgenerate, -, hroot⟩ :=
    generate_of_prove hsnapshot.stateRoot hinfo hprove (serialize_of_prove hd hreach hinfo hprove)
  obtain ⟨info', hinfo', hvalue, haccepts⟩ :=
    acceptsExactly decodeU64 hd hinj hempty (hhashed.nodes_before hsnapshot.earlier) hgenerate
  refine ⟨p, hgenerate, ?_⟩
  rintro value ⟨info'', ending, hinfo'', hbinds⟩
  obtain rfl := Except.ok.inj (hinfo'.symm.trans hinfo'')
  rw [hvalue] at hbinds
  have hending := hbinds.ending_eq
  rw [hending] at hbinds
  rw [← hroot]
  exact (haccepts value).1 hbinds

/-- What a client stores is the consensus state of a block, and it is known what the trie was when the block was
generated. -/
theorem stored_is_snapshot (hsound : Sound digest verifier genesis genesisEpoch w.relayed)
    (hcommitted : Committed digest genesis a w) {i : ι} {h : IbcHeight} {any : AnyState} {state : ConsensusState}
    (hs : stored (w.relayed.clients i) h = some any) (hstate : CommonContext.tryInto Ctx any = .ok state) :
    ∃ b ∈ w.relayed.chain.blocks genesis, h.revisionHeight = b.blockHeight.val ∧
      state.blockHash = (b.calcHash digest).bytes ∧ ∃ before, Snapshot digest a w b before := by
  obtain ⟨state', hstate', -, b, hb, hheight, rfl⟩ := (hsound.clients i).states h any hs
  cases hstate.symm.trans hstate'
  exact ⟨b, hb, hheight, rfl, hcommitted.exists_snapshot hb⟩

section

variable [DecidablePred honest] {config : Config} {blockHeight : BlockHeight} {hostHeight : HostHeight}
  {timestampNs : NonZeroU64} {m : ChainManager PK} {calls₀ : List SealableTrie.Call} {clients : ι → Ctx}
  {S : Set (List Byte)} {i : ι} {h : IbcHeight} {any : AnyState} {state : ConsensusState}

theorem sound_of_run (hpk : Reader.Reads codec.readPubKey (fun _ => True) PubKey.serialize)
    (hnew : ChainManager.new digest config
      (Block.generateGenesis digest blockHeight hostHeight timestampNs (rootAfter digest a calls₀) genesisEpoch) =
        some (.ok m))
    (hgenesis : genesis =
      (Block.generateGenesis digest blockHeight hostHeight timestampNs (rootAfter digest a calls₀) genesisEpoch).header)
    (hopened : ∀ i, Opened digest genesis (clients i))
    (hrun : Relation.ReflTransGen (WorldStep digest codec W verifier honest genesis genesisEpoch a E)
      ⟨calls₀, [(genesis, calls₀)], ⟨ChainRun.start m, clients⟩⟩ w)
    (hshort : ∀ e ∈ w.relayed.chain.epochs genesisEpoch, e.corruptStake honest < e.quorumStake.get) :
    Sound digest verifier genesis genesisEpoch w.relayed ∧ Committed digest genesis a w := by
  have hcommitment : genesis.nextEpochCommitment = some (genesisEpoch.calcCommitment digest) := by
    rw [hgenesis]
    rfl
  have hstart : Inv digest verifier genesis genesisEpoch (ChainRun.start m) := hgenesis ▸ Inv.start hnew
  have hpending : m.pendingBlock = none := (ChainManager.new_ok hnew).2.2.2.2.1
  refine ⟨Sound.run hpk hcommitment (relayed_of_run hrun) hshort ⟨hstart, fun i => (hopened i).faithful hcommitment⟩,
    Committed.run hrun ⟨?_, fun g hg => ?_⟩⟩
  · simp only [ChainRun.blocks, ChainRun.start, hpending]
    rfl
  · cases List.mem_singleton.mp hg
    refine ⟨List.prefix_refl _, ?_⟩
    rw [hgenesis]
    rfl

/-- Whatever is proven to a client of an honest chain was so on the chain: the trie held the value, or nothing, at the
path when the block was generated whose consensus state the client has. -/
theorem proven_was_held (hpk : Reader.Reads codec.readPubKey (fun _ => True) PubKey.serialize)
    (hnew : ChainManager.new digest config
      (Block.generateGenesis digest blockHeight hostHeight timestampNs (rootAfter digest a calls₀) genesisEpoch) =
        some (.ok m))
    (hgenesis : genesis =
      (Block.generateGenesis digest blockHeight hostHeight timestampNs (rootAfter digest a calls₀) genesisEpoch).header)
    (hopened : ∀ i, Opened digest genesis (clients i))
    (hrun : Relation.ReflTransGen (WorldStep digest codec W verifier honest genesis genesisEpoch a E)
      ⟨calls₀, [(genesis, calls₀)], ⟨ChainRun.start m, clients⟩⟩ w)
    (hshort : ∀ e ∈ w.relayed.chain.epochs genesisEpoch, e.corruptStake honest < e.quorumStake.get)
    (hd : ∀ b, digest b ≠ emptyTrieRoot) (hinj : Set.InjOn digest S) (hempty : ∀ p, cell a p = none)
    (hhashed : Hashed digest genesis a S w) (hs : stored (w.relayed.clients i) h = some any)
    (hstate : CommonContext.tryInto Ctx any = .ok state) :
    ∃ b ∈ w.relayed.chain.blocks genesis, h.revisionHeight = b.blockHeight.val ∧
      (∃ before, Snapshot digest a w b before) ∧ ∀ before, Snapshot digest a w b before →
      ∀ commitmentPrefix proof path,
        (∀ value, (∀ bytes ∈ verifyHashed digest decodeU64 true proof state.blockHash path (some value), bytes ∈ S) →
          ClientState.verifyMembership digest decodeU64 commitmentPrefix proof state.blockHash path value = .ok () →
          Binds digest a decodeU64 before path (some value)) ∧
        ((∀ bytes ∈ verifyHashed digest decodeU64 true proof state.blockHash path none, bytes ∈ S) →
          ClientState.verifyNonMembership digest decodeU64 commitmentPrefix proof state.blockHash path = .ok () →
          Binds digest a decodeU64 before path none) := by
  obtain ⟨hsound, hcommitted⟩ := sound_of_run hpk hnew hgenesis hopened hrun hshort
  obtain ⟨b, hb, hheight, hhash, hgenerated⟩ := stored_is_snapshot hsound hcommitted hs hstate
  rw [hhash]
  refine ⟨b, hb, hheight, hgenerated, fun before hsnapshot commitmentPrefix proof path => ⟨?_, ?_⟩⟩
  · intro value hin hok
    exact binds_of_accepted hd hinj hempty hhashed hb hsnapshot hin (mapError_ok hok)
  · intro hin hok
    exact binds_of_accepted hd hinj hempty hhashed hb hsnapshot hin (mapError_ok hok)

/-- Whatever the trie could still look up when a block was generated can be proven to every client which has the consensus
state of the block. -/
theorem held_is_provable (hpk : Reader.Reads codec.readPubKey (fun _ => True) PubKey.serialize)
    (hnew : ChainManager.new digest config
      (Block.generateGenesis digest blockHeight hostHeight timestampNs (rootAfter digest a calls₀) genesisEpoch) =
        some (.ok m))
    (hgenesis : genesis =
      (Block.generateGenesis digest blockHeight hostHeight timestampNs (rootAfter digest a calls₀) genesisEpoch).header)
    (hopened : ∀ i, Opened digest genesis (clients i))
    (hrun : Relation.ReflTransGen (WorldStep digest codec W verifier honest genesis genesisEpoch a E)
      ⟨calls₀, [(genesis, calls₀)], ⟨ChainRun.start m, clients⟩⟩ w)
    (hshort : ∀ e ∈ w.relayed.chain.epochs genesisEpoch, e.corruptStake honest < e.quorumStake.get)
    (hd : ∀ b, digest b ≠ emptyTrieRoot) (hinj : Set.InjOn digest S) (hempty : ∀ p, cell a p = none)
    (hhashed : Hashed digest genesis a S w) (hs : stored (w.relayed.clients i) h = some any)
    (hstate : CommonContext.tryInto Ctx any = .ok state) :
    ∃ b ∈ w.relayed.chain.blocks genesis, h.revisionHeight = b.blockHeight.val ∧
      (∃ before, Snapshot digest a w b before) ∧ ∀ before, Snapshot digest a w b before →
      ∀ path info found, PathInfo.tryFrom path = .ok info →
        ((State.empty a).run digest before).trie.get digest info.key = .ok found →
        ∃ p, generateForBlock digest b ((State.empty a).run digest before).trie path = .ok p ∧
          ∀ commitmentPrefix,
            (∀ value, Binds digest a decodeU64 before path (some value) →
              ClientState.verifyMembership digest decodeU64 commitmentPrefix p.proof state.blockHash path value = .ok ()) ∧
            (Binds digest a decodeU64 before path none →
              ClientState.verifyNonMembership digest decodeU64 commitmentPrefix p.proof state.blockHash path = .ok ()) := by
  obtain ⟨hsound, hcommitted⟩ := sound_of_run hpk hnew hgenesis hopened hrun hshort
  obtain ⟨b, hb, hheight, hhash, hgenerated⟩ := stored_is_snapshot hsound hcommitted hs hstate
  rw [hhash]
  refine ⟨b, hb, hheight, hgenerated, fun before hsnapshot path info found hinfo hget => ?_⟩
  obtain ⟨p, hgenerate, haccepted⟩ := accepted_of_binds hd hinj hempty hhashed hsnapshot hinfo hget
  refine ⟨p, hgenerate, fun commitmentPrefix => ⟨?_, ?_⟩⟩
  · intro value hbinds
    rw [ClientState.verifyMembership, haccepted (some value) hbinds]
    rfl
  · intro hbinds
    rw [ClientState.verifyNonMembership, haccepted none hbinds]
    rfl

end

end

def worldGenesisHash : CryptoHash := hashOf 0x5d7d795fed2c3de6867426ab45ea3a782e8f9ea64a39a3861e5d83f71c20396f

/-- A block which is due because the last one is old; the root is the same. -/
def worldBlock : BlockHeader where
  prevBlockHash := worldGenesisHash
  blockHeight := Height.clamp 2
  hostHeight := Height.clamp 46
  timestampNs := NonZero.clamp 1024
  stateRoot := channelRoot
  epochId := worldGenesisHash
  nextEpochCommitment := none

/-- The trie of the channel, its blocks and their epoch. -/
def worldTable : List (List Byte × CryptoHash) :=
  (sampleEpoch.serialize, hashOf 86) :: (worldBlock.serialize, hashOf 87) :: channelTable

def worldDigest : List Byte → CryptoHash := tableDigest worldTable

def worldHashed : List (List Byte) := worldTable.map Prod.fst

/-- Sealing the value does not change the root. -/
def worldCalls : List SealableTrie.Call := channelCalls ++ [.sealValue sampleSequences.key]

def worldGenesis : Block MockPubKey :=
  Block.generateGenesis worldDigest (Height.clamp 1) (Height.clamp 42) (NonZero.clamp 24) channelRoot sampleEpoch

def worldCall : GuestChain.Call MockPubKey MockSignature UpdateCandidateError :=
  .generateNext (Height.clamp 46) (NonZero.clamp 1024) channelRoot

def worldRun : Option (ChainRun MockPubKey MockSignature) :=
  match ChainManager.new worldDigest sampleConfig worldGenesis with
  | some (.ok m) => (ChainRun.start m).step worldDigest MockSignature.verify worldCall
  | _ => none

/-- What the table has, the genesis block, and what the chain comes to. -/
theorem worldRun_evaluates :
    ((∀ node ∈ worldTable, node.2 ≠ emptyTrieRoot) ∧ (worldTable.map Prod.snd).Nodup) ∧
    (worldGenesis.header = channelHeader channelRoot ∧ worldGenesis.header.calcHash worldDigest = worldGenesisHash) ∧
    worldRun.map (fun s => (s.blocks worldGenesis.header, s.epochs sampleEpoch)) =
      some ([worldGenesis.header, worldBlock], [sampleEpoch]) ∧
    (∀ b ∈ [worldGenesis.header, worldBlock], b.serialize ∈ worldHashed) ∧
    ∀ e ∈ [sampleEpoch], e.corruptStake sampleHonest < e.quorumStake.get := by
  decide +kernel

theorem worldDigest_ne (b : List Byte) : worldDigest b ≠ emptyTrieRoot := tableDigest_ne worldRun_evaluates.1.1 b

theorem worldDigest_injOn : Set.InjOn worldDigest {b | b ∈ worldHashed} := tableDigest_injOn worldRun_evaluates.1.2

theorem worldGenesis_header : worldGenesis.header = channelHeader channelRoot ∧
    worldGenesis.header.calcHash worldDigest = worldGenesisHash := worldRun_evaluates.2.1

theorem worldBlocks_hashed : ∀ b ∈ [worldGenesis.header, worldBlock], b.serialize ∈ worldHashed :=
  worldRun_evaluates.2.2.2.1

def worldState : ConsensusState := ConsensusState.new worldGenesisHash (NonZero.clamp 24)

theorem worldState_decodes (state : ConsensusState) : CommonContext.tryInto TestContext state = .ok state := rfl

/-- A client with the consensus state of the genesis block. -/
def worldClient : TestContext where
  clientState := ClientState.new worldGenesisHash (Height.clamp 1) 1000 (hashOf 86) none false
  states := BTreeMap.empty.insert ⟨1, 1, sampleHeight_nonzero⟩ worldState

theorem worldClient_client : clientState worldClient =
    ClientState.new worldGenesisHash (Height.clamp 1) 1000 (hashOf 86) none false := rfl

theorem worldClient_opened : Opened worldDigest worldGenesis.header worldClient := by
  refine ⟨⟨?_, ?_, ?_, ?_⟩, ?_, ?_⟩
  · rw [worldClient_client, worldGenesis_header.2, ClientState.new]
  · rw [worldClient_client, worldGenesis_header.1]
    rfl
  · rw [worldClient_client, worldGenesis_header.1]
    rfl
  · intro h s hs
    rw [worldGenesis_header.2]
    rcases BTreeMap.get_insert.mp hs with ⟨rfl, rfl⟩ | ⟨-, hs⟩
    · refine ⟨rfl, ?_, worldState_decodes worldState⟩
      rw [worldGenesis_header.1]
      rfl
    · cases hs
  · rw [worldClient_client]
    rfl
  · rw [worldClient_client]
    rfl

/-- The header of the block, which the first two validators signed. -/
def worldRelayed : Header MockPubKey MockSignature :=
  let fp := MockSignature.shortFp (Fingerprint.new worldDigest worldGenesisHash worldBlock).bytes
  Header.new worldDigest worldGenesisHash worldBlock sampleEpoch [(0, ⟨fp, 1⟩), (1, ⟨fp, 2⟩)]

def worldNext : ConsensusState := ConsensusState.new (hashOf 87) (NonZero.clamp 1024)

theorem worldHeight_nonzero : 2 ≠ 0 := by decide

/-- What the client keeps after the header was relayed to it. -/
def KeepsBoth (ctx : TestContext) : Prop :=
  stored ctx ⟨1, 1, sampleHeight_nonzero⟩ = some worldState ∧ stored ctx ⟨1, 2, worldHeight_nonzero⟩ = some worldNext

/-- The header has a message, the client verifies it and does not take it for misbehaviour, and keeps its state. -/
theorem worldRelayed_evaluates :
    ((worldRelayed.toProto mockCodec).isSome = true ∧
      (worldRelayed.signatures.map (signatureToProto mockCodec)).mapM (signatureFromProto mockCodec) =
        some worldRelayed.signatures) ∧
    (worldClient.clientState.verifyHeader MockSignature.verify worldRelayed = .ok () ∧
      ClientState.doCheckForMisbehaviour worldClient (.header worldRelayed) = .ok false) ∧
    KeepsBoth ((worldClient.clientState.doUpdateState worldRelayed).run worldClient).2 := by
  unfold KeepsBoth
  decide

theorem worldAny_read : Header.tryFromAny worldDigest mockCodec (mockWire worldRelayed) sampleAny = .ok worldRelayed :=
  mockWire_read (Header.new_derived _ _ _ _ _) worldRelayed_evaluates.1.1 worldRelayed_evaluates.1.2

/-- The header may be relayed once the block is one of the chain. -/
theorem worldAny_relayable {chain : ChainRun MockPubKey MockSignature}
    (hblocks : chain.blocks worldGenesis.header = [worldGenesis.header, worldBlock])
    (hepochs : chain.epochs sampleEpoch = [sampleEpoch]) :
    Relayable worldDigest mockCodec (mockWire worldRelayed) MockSignature.verify sampleHonest worldGenesis.header
      sampleEpoch chain sampleAny := by
  have hmem : worldBlock ∈ [worldGenesis.header, worldBlock] := List.mem_cons_of_mem _ List.mem_cons_self
  refine relayable_of_block worldAny_read (hblocks ▸ hmem) ?_ (fun b hb => ?_) (fun e he => ?_)
  · rw [worldGenesis_header.2]
    rfl
  · rw [hblocks] at hb
    exact worldDigest_injOn (worldBlocks_hashed worldBlock hmem) (worldBlocks_hashed b hb)
  · rw [hepochs, List.mem_singleton] at he
    rw [he]
    exact fun _ => rfl

theorem worldClient_moves {chain : ChainRun MockPubKey MockSignature}
    (hblocks : chain.blocks worldGenesis.header = [worldGenesis.header, worldBlock])
    (hepochs : chain.epochs sampleEpoch = [sampleEpoch]) :
    ∃ updated, KeepsBoth updated ∧ ClientMove worldDigest mockCodec (mockWire worldRelayed) MockSignature.verify
      sampleHonest worldGenesis.header sampleEpoch chain worldClient updated := by
  obtain ⟨-, ⟨hverify, hcheck⟩, happlied⟩ := worldRelayed_evaluates
  have hread := ClientMessage.tryFromAny_header worldAny_read
  rcases hrun : (worldClient.clientState.updateState worldDigest mockCodec (mockWire worldRelayed) sampleAny).run worldClient
    with ⟨r, updated⟩
  refine ⟨updated, ?_, .update sampleAny r (worldAny_relayable hblocks hepochs) ?_ ?_ hrun⟩
  · rw [ClientState.updateState, worldAny_read] at hrun
    rw [← (Prod.mk.inj hrun).2]
    exact happlied
  · rw [ClientState.verifyClientMessage, hread]
    exact congrArg (Except.mapError HandlerError.context) hverify
  · rw [ClientState.checkForMisbehaviour, hread]
    exact congrArg (Except.mapError HandlerError.context) hcheck

/-- What the trie comes to, before and after the value is sealed. -/
theorem worldTrie : rootAfter worldDigest sampleAlloc channelCalls = channelRoot ∧
    rootAfter worldDigest sampleAlloc worldCalls = channelRoot ∧
    ((State.empty sampleAlloc).run worldDigest channelCalls).bindings.valueOf sampleSequences.key = some channelTriple ∧
    ((State.empty sampleAlloc).run worldDigest channelCalls).trie.get worldDigest sampleSequences.key =
      .ok (some channelTriple) ∧
    ∀ t ∈ (State.empty sampleAlloc).visited worldDigest worldCalls, storesOnly worldHashed t = true := by
  decide +kernel

theorem worldGenesis_eq : worldGenesis = Block.generateGenesis worldDigest (Height.clamp 1) (Height.clamp 42)
    (NonZero.clamp 24) (rootAfter worldDigest sampleAlloc channelCalls) sampleEpoch := by
  rw [worldTrie.1, worldGenesis]

/-- The value is sealed, a block is generated and its header is relayed to the client. -/
theorem world_run : ∃ m chain updated,
    ChainManager.new worldDigest sampleConfig (Block.generateGenesis worldDigest (Height.clamp 1) (Height.clamp 42)
      (NonZero.clamp 24) (rootAfter worldDigest sampleAlloc channelCalls) sampleEpoch) = some (.ok m) ∧
    chain.blocks worldGenesis.header = [worldGenesis.header, worldBlock] ∧ chain.epochs sampleEpoch = [sampleEpoch] ∧
    KeepsBoth updated ∧
    Relation.ReflTransGen (WorldStep worldDigest mockCodec (mockWire worldRelayed) MockSignature.verify sampleHonest
      worldGenesis.header sampleEpoch sampleAlloc UpdateCandidateError)
      (⟨channelCalls, [(worldGenesis.header, channelCalls)], ⟨ChainRun.start m, fun _ => worldClient⟩⟩ :
        World Unit MockPubKey MockSignature TestContext)
      ⟨worldCalls, [(worldGenesis.header, channelCalls), (worldBlock, worldCalls)], ⟨chain, fun _ => updated⟩⟩ := by
  obtain ⟨chain, hchain, hends⟩ := Option.map_eq_some_iff.mp worldRun_evaluates.2.2.1
  obtain ⟨hblocks, hepochs⟩ := Prod.mk.inj hends
  unfold worldRun at hchain
  split at hchain
  · rename_i m hnew
    have hstart : (ChainRun.start m : ChainRun MockPubKey MockSignature).blocks worldGenesis.header =
        [worldGenesis.header] := by
      have hpending : m.pendingBlock = none := (ChainManager.new_ok hnew).2.2.2.2.1
      simp only [ChainRun.blocks, ChainRun.start, hpending]
      rfl
    have hroot : ∀ r ∈ ChainRun.stateRootOf worldCall, r = rootAfter worldDigest sampleAlloc worldCalls := by
      intro r hr
      rw [worldTrie.2.1]
      exact (Option.some.inj hr).symm
    have hadded : chain.blocks worldGenesis.header =
        (ChainRun.start m : ChainRun MockPubKey MockSignature).blocks worldGenesis.header ++ [worldBlock] := by
      rw [hblocks, hstart]
      rfl
    obtain ⟨updated, hkeeps, hmove⟩ := worldClient_moves hblocks hepochs
    refine ⟨m, chain, updated, worldGenesis_eq ▸ hnew, hblocks, hepochs, hkeeps, ?_⟩
    have hsealed : Relation.ReflTransGen (WorldStep worldDigest mockCodec (mockWire worldRelayed) MockSignature.verify
        sampleHonest worldGenesis.header sampleEpoch sampleAlloc UpdateCandidateError)
        (⟨channelCalls, [(worldGenesis.header, channelCalls)], ⟨ChainRun.start m, fun _ => worldClient⟩⟩ :
          World Unit MockPubKey MockSignature TestContext)
        ⟨worldCalls, [(worldGenesis.header, channelCalls)], ⟨ChainRun.start m, fun _ => worldClient⟩⟩ :=
      .single (.trie (.sealValue sampleSequences.key) rfl rfl rfl)
    have hgenerated := hsealed.tail
      (c := ⟨worldCalls, [(worldGenesis.header, channelCalls), (worldBlock, worldCalls)], ⟨chain, fun _ => worldClient⟩⟩)
      (.call worldCall hroot rfl hchain rfl [worldBlock] hadded rfl)
    exact hgenerated.tail (.move () rfl rfl rfl (fun _ hne => absurd rfl hne) hmove)
  · cases hchain

theorem world_hashed {chain : ChainRun MockPubKey MockSignature} {clients : Unit → TestContext}
    {generated : List (BlockHeader × List SealableTrie.Call)}
    (hblocks : chain.blocks worldGenesis.header = [worldGenesis.header, worldBlock]) :
    Hashed worldDigest worldGenesis.header sampleAlloc {b | b ∈ worldHashed}
      (⟨worldCalls, generated, ⟨chain, clients⟩⟩ : World Unit MockPubKey MockSignature TestContext) :=
  ⟨fun b hb => worldBlocks_hashed b (hblocks ▸ hb), fun t ht _ hbytes => mem_of_storesOnly (worldTrie.2.2.2.2 t ht) hbytes⟩

/-- The proof under the hash of the block that the fourth packet is the next one to be received. -/
def worldProof : List Byte :=
  worldBlock.serialize ++ [0x01#8, 0x00#8, 0x20#8, 0x70#8] ++ beBytes 8 7 ++ beBytes 8 5

theorem worldProof_accepted :
    (∀ bytes ∈ verifyHashed worldDigest decodeSmall true worldProof worldNext.blockHash (samplePath .seqRecv)
      (some [0x08#8, 0x04#8]), bytes ∈ worldHashed) ∧
    verifyForBlock worldDigest decodeSmall [] worldProof worldNext.blockHash (samplePath .seqRecv) (some [0x08#8, 0x04#8]) =
      .ok () := by
  decide +kernel

/-- The block which is relayed was generated after the value had been sealed. The proof under its hash is accepted and
tells the truth. -/
theorem proven_was_held_sample :
    ClientState.verifyMembership worldDigest decodeSmall [] worldProof worldNext.blockHash (samplePath .seqRecv)
        [0x08#8, 0x04#8] = .ok () ∧
      Binds worldDigest sampleAlloc decodeSmall worldCalls (samplePath .seqRecv) (some [0x08#8, 0x04#8]) := by
  obtain ⟨m, chain, updated, hnew, hblocks, hepochs, hkeeps, hrun⟩ := world_run
  obtain ⟨hin, hverify⟩ := worldProof_accepted
  have haccepted := congrArg (Except.mapError VerifyError.toCommitmentError) hverify
  obtain ⟨b, hb, hheight, ⟨before, hsnapshot⟩, htruth⟩ := proven_was_held mockCodec_reads hnew
    (congrArg Block.header worldGenesis_eq)
    (fun _ => worldClient_opened) hrun (hepochs ▸ worldRun_evaluates.2.2.2.2) worldDigest_ne worldDigest_injOn sampleAlloc_empty
    (world_hashed hblocks) (i := ()) hkeeps.2 (worldState_decodes worldNext)
  have hbefore : before = worldCalls := by
    rcases List.mem_cons.mp hsnapshot.generated with heq | hmem
    · cases heq
      cases hheight
    · cases List.mem_singleton.mp hmem
      rfl
  rw [hbefore] at hsnapshot
  exact ⟨haccepted, (htruth worldCalls hsnapshot [] worldProof (samplePath .seqRecv)).1 _ hin haccepted⟩

theorem channel_binds : Binds worldDigest sampleAlloc decodeSmall channelCalls (samplePath .seqRecv) (some [0x08#8, 0x04#8]) := by
  refine ⟨_, beBytes 8 7 ++ beBytes 8 5, samplePath_seqRecv, ?_⟩
  rw [worldTrie.2.2.1]
  exact ⟨u64 4, beBytes 8 7, beBytes 8 5, rfl, rfl, rfl, rfl, rfl⟩

/-- By the end of the run the value is sealed, with no change of the root. What the trie could look up when the first
block was generated is still proven to the client. -/
theorem held_is_provable_sample :
    ∃ p, generateForBlock worldDigest worldGenesis.header ((State.empty sampleAlloc).run worldDigest channelCalls).trie
        (samplePath .seqRecv) = .ok p ∧
      ClientState.verifyMembership worldDigest decodeSmall [] p.proof worldState.blockHash (samplePath .seqRecv)
        [0x08#8, 0x04#8] = .ok () := by
  obtain ⟨m, chain, updated, hnew, hblocks, hepochs, hkeeps, hrun⟩ := world_run
  obtain ⟨b, hb, hheight, ⟨before, hsnapshot⟩, hprovable⟩ := held_is_provable mockCodec_reads hnew
    (congrArg Block.header worldGenesis_eq)
    (fun _ => worldClient_opened) hrun (hepochs ▸ worldRun_evaluates.2.2.2.2) worldDigest_ne worldDigest_injOn sampleAlloc_empty
    (world_hashed hblocks) (i := ()) hkeeps.1 (worldState_decodes worldState)
  have hfirst : b = worldGenesis.header ∧ before = channelCalls := by
    rcases List.mem_cons.mp hsnapshot.generated with heq | hmem
    · exact Prod.mk.inj heq
    · cases List.mem_singleton.mp hmem
      cases hheight
  obtain ⟨rfl, rfl⟩ := hfirst
  obtain ⟨p, hgenerate, haccepted⟩ := hprovable channelCalls hsnapshot (samplePath .seqRecv) _ _ samplePath_seqRecv
    worldTrie.2.2.2.1
  exact ⟨p, hgenerate, (haccepted []).1 _ channel_binds⟩

end CfGuest
