import EmulatedLightClient.HeaderCodec
import EmulatedLightClient.HeaderVerification

/-!
# Blocks of an honest chain

A manager has no more than one block pending, so that all blocks it has generated are one chain, whether or not
the last of them is final. As long as in each epoch those who sign anything else are short of the quorum, a client
which trusts epochs of the chain accepts blocks of the chain only.
-/

namespace GuestChain

open ByteBits MachineInts Nodes Weights

variable {PK Sig E : Type} [PubKey PK] [OfUpdateCandidateError E]

theorem BlockHeader.generateNext_stateRoot {digest : List Byte → CryptoHash} {h : BlockHeader} {hostHeight : HostHeight}
    {timestampNs : NonZeroU64} {stateRoot : CryptoHash} {nextEpoch : Option (Epoch PK)} {b : Block PK}
    (hb : h.generateNext digest hostHeight timestampNs stateRoot nextEpoch = some (.ok b)) :
    b.header.stateRoot = stateRoot := by
  unfold BlockHeader.generateNext at hb
  split at hb
  · cases hb
  split at hb
  · cases hb
  obtain ⟨blockHeight, -, hb⟩ := Option.bind_eq_some_iff.mp hb
  cases hb
  rfl

namespace ChainRun

/-- Headers of the genesis block, of the finalised blocks and of the pending one. -/
def blocks (genesis : BlockHeader) (s : ChainRun PK Sig) : List BlockHeader :=
  headers genesis s.finalised ++ (s.manager.pendingBlock.map (·.nextBlock.header)).toList

/-- Epochs which those blocks define. -/
def epochs (genesisEpoch : Epoch PK) (s : ChainRun PK Sig) : List (Epoch PK) :=
  genesisEpoch :: s.finalised.map (·.nextEpoch) ++ (s.manager.pendingBlock.bind (·.nextBlock.nextEpoch)).toList

variable {digest : List Byte → CryptoHash} {verifier : Verifier PK Sig} {genesis : BlockHeader}
  {genesisEpoch : Epoch PK} {s s' : ChainRun PK Sig}

omit [PubKey PK] in
theorem genesis_mem_blocks (genesis : BlockHeader) (s : ChainRun PK Sig) : genesis ∈ s.blocks genesis :=
  List.mem_append_left _ List.mem_cons_self

omit [PubKey PK] in
theorem genesisEpoch_mem_epochs (genesisEpoch : Epoch PK) (s : ChainRun PK Sig) : genesisEpoch ∈ s.epochs genesisEpoch :=
  List.mem_append_left _ List.mem_cons_self

/-- Nothing is taken away, and blocks which are added commit to the given root of the state. -/
structure Extends (genesis : BlockHeader) (genesisEpoch : Epoch PK) (stateRoot : Option CryptoHash)
    (s s' : ChainRun PK Sig) : Prop where
  added : ∃ added, s'.blocks genesis = s.blocks genesis ++ added ∧ ∀ b ∈ added, stateRoot = some b.stateRoot
  epochs : s.epochs genesisEpoch ⊆ s'.epochs genesisEpoch

omit [PubKey PK] in
theorem Extends.blocks {stateRoot : Option CryptoHash} (h : Extends genesis genesisEpoch stateRoot s s') :
    s.blocks genesis ⊆ s'.blocks genesis := by
  obtain ⟨added, hadded, -⟩ := h.added
  rw [hadded]
  exact List.subset_append_left _ _

omit [PubKey PK] in
theorem Extends.of_eq {stateRoot : Option CryptoHash} (hblocks : s'.blocks genesis = s.blocks genesis)
    (hepochs : s.epochs genesisEpoch ⊆ s'.epochs genesisEpoch) : Extends genesis genesisEpoch stateRoot s s' :=
  ⟨⟨[], hblocks.trans (List.append_nil _).symm, nofun⟩, hepochs⟩

omit [PubKey PK] in
theorem Extends.of_manager {stateRoot : Option CryptoHash} {manager : ChainManager PK}
    (h : manager.pendingBlock = s.manager.pendingBlock) :
    Extends genesis genesisEpoch stateRoot s { s with manager } := by
  refine .of_eq ?_ ?_
  · simp only [ChainRun.blocks, h]
  · simp only [ChainRun.epochs, h]
    exact fun _ he => he

theorem Extends.recordGenerated {hostHeight : HostHeight} {hostTimestamp : NonZeroU64} {stateRoot : CryptoHash}
    {r : Except GenerateError Unit} {m' : ChainManager PK}
    (hm : s.manager.generateNext digest hostHeight hostTimestamp stateRoot = some (r, m')) :
    Extends genesis genesisEpoch (some stateRoot) s (s.recordGenerated (r, m')) := by
  obtain ⟨e, rfl, rfl⟩ | ⟨block, rfl, hnone, -, hblock, rfl⟩ := ChainManager.generateNext_cases hm
  · exact .of_manager rfl
  · refine ⟨⟨[block.header], ?_, ?_⟩, ?_⟩
    · simp only [ChainRun.blocks, ChainRun.recordGenerated, hnone, Option.map_none, Option.toList_none, List.append_nil,
        Option.map_some, Option.toList_some]
    · intro b hb
      cases List.mem_singleton.mp hb
      exact congrArg some (BlockHeader.generateNext_stateRoot hblock).symm
    · simp only [ChainRun.epochs, ChainRun.recordGenerated, hnone, Option.bind_none, Option.toList_none,
        List.append_nil]
      exact List.subset_append_left _ _

omit [PubKey PK] in
theorem Extends.finalise {stateRoot : Option CryptoHash} {p : PendingBlock PK} (hp : s.manager.pendingBlock = some p)
    (signatures : List (PK × Sig)) (collected : List (PK × Sig)) :
    Extends genesis genesisEpoch stateRoot s
      { s with
        manager := s.manager.finalise p.nextBlock
        collected
        finalised := s.finalised ++
          [{ header := (s.manager.finalise p.nextBlock).header
             epoch := s.manager.nextEpoch
             signatures
             nextEpoch := (s.manager.finalise p.nextBlock).nextEpoch }] } := by
  refine .of_eq ?_ ?_
  · simp only [ChainRun.blocks, headers_concat, ChainManager.finalise_header, ChainManager.finalise_pendingBlock, hp,
      Option.map_some, Option.toList_some, Option.map_none, Option.toList_none, List.append_nil]
  · simp only [ChainRun.epochs, ChainManager.finalise_pendingBlock, ChainManager.finalise_nextEpoch, hp, Option.bind_some,
      Option.bind_none, Option.toList_none, List.append_nil, List.map_append, List.map_cons, List.map_nil]
    intro e he
    rcases List.mem_append.mp he with he | he
    · rcases List.mem_cons.mp he with rfl | he
      · exact List.mem_cons_self
      · exact List.mem_cons_of_mem _ (List.mem_append_left _ he)
    · rw [Option.mem_toList.mp he, Option.getD_some]
      exact List.mem_cons_of_mem _ (List.mem_append_right _ (List.mem_singleton_self e))

theorem Extends.recordSignature {stateRoot : Option CryptoHash} {pk : PK} {sig : Sig}
    {r : Except AddSignatureError AddSignatureEffect} {m' : ChainManager PK}
    (hm : s.manager.addSignature pk sig verifier = some (r, m')) :
    Extends genesis genesisEpoch stateRoot s (s.recordSignature pk sig (r, m')) := by
  obtain ⟨hr, rfl⟩ | ⟨p, v, hp, -, -, -, ⟨rfl, rfl⟩ | ⟨rfl, -, rfl⟩⟩ := ChainManager.addSignature_cases hm
  · obtain rfl | ⟨e, rfl⟩ := hr
    · exact .of_manager rfl
    · exact .of_manager rfl
  · refine .of_eq ?_ ?_
    · simp only [ChainRun.blocks, ChainRun.recordSignature, hp, Option.map_some]
    · simp only [ChainRun.epochs, ChainRun.recordSignature, hp, Option.bind_some]
      exact fun _ he => he
  · exact .finalise hp _ _

/-- Root of the state which the call gives. -/
def stateRootOf : Call PK Sig E → Option CryptoHash
  | .generateNext _ _ stateRoot => some stateRoot
  | _ => none

/-- Whatever a call does, blocks stay where they are. -/
theorem step_extends {c : Call PK Sig E} (h : s.step digest verifier c = some s') :
    Extends genesis genesisEpoch (stateRootOf c) s s' := by
  cases c with
  | generateNext hostHeight hostTimestamp stateRoot =>
    obtain ⟨⟨r, m'⟩, hm, rfl⟩ := Option.map_eq_some_iff.mp h
    exact .recordGenerated hm
  | addSignature pk sig =>
    obtain ⟨⟨r, m'⟩, hm, rfl⟩ := Option.map_eq_some_iff.mp h
    exact .recordSignature hm
  | updateCandidate pk newStakeFn =>
    obtain ⟨⟨r, m'⟩, hm, rfl⟩ := Option.map_eq_some_iff.mp h
    obtain ⟨config, candidates, rfl⟩ := ChainManager.updateCandidate_reconfigured hm
    exact .of_manager rfl
  | updateConfig payload =>
    obtain ⟨⟨r, m'⟩, hm, rfl⟩ := Option.map_eq_some_iff.mp h
    obtain ⟨config, candidates, rfl⟩ := ChainManager.updateConfig_reconfigured hm
    exact .of_manager rfl

end ChainRun

section

variable {digest : List Byte → CryptoHash} {verifier : Verifier PK Sig} {genesis : BlockHeader}
  {genesisEpoch : Epoch PK} {s : ChainRun PK Sig}

theorem Inv.blocks_linked (h : Inv digest verifier genesis genesisEpoch s) :
    (s.blocks genesis).IsChain (BlockHeader.Follows digest) := by
  unfold ChainRun.blocks
  cases hp : s.manager.pendingBlock with
  | none =>
    simp only [Option.map_none, Option.toList_none, List.append_nil]
    exact h.linked
  | some p =>
    refine List.isChain_append.mpr ⟨h.linked, List.isChain_singleton _, ?_⟩
    intro x hx y hy
    cases h.last.symm.trans hx
    cases hy
    exact (h.pending p hp).follows

theorem EpochPath.passes {e e' : Epoch PK} {fs : List (Finalised PK Sig)} (h : EpochPath digest e fs e') :
    ∀ f ∈ fs, f.Passes digest := by
  induction fs generalizing e with
  | nil => exact nofun
  | cons g fs ih =>
    intro f hf
    rcases List.mem_cons.mp hf with rfl | hf
    · exact h.2.1
    · exact ih h.2.2 f hf

/-- Commitments in blocks of the chain are commitments to epochs of the chain. -/
theorem Inv.commitment_mem (h : Inv digest verifier genesis genesisEpoch s)
    (hgenesis : genesis.nextEpochCommitment = some (genesisEpoch.calcCommitment digest)) {b : BlockHeader}
    (hb : b ∈ s.blocks genesis) {commitment : CryptoHash} (hcommitment : b.nextEpochCommitment = some commitment) :
    ∃ e ∈ s.epochs genesisEpoch, e.calcCommitment digest = commitment := by
  rcases List.mem_append.mp hb with hb | hb
  · rcases List.mem_cons.mp hb with rfl | hb
    · exact ⟨genesisEpoch, s.genesisEpoch_mem_epochs genesisEpoch, Option.some.inj (hgenesis.symm.trans hcommitment)⟩
    · obtain ⟨f, hf, rfl⟩ := List.mem_map.mp hb
      refine ⟨f.nextEpoch, List.mem_append_left _ (List.mem_cons_of_mem _ (List.mem_map_of_mem hf)), ?_⟩
      rcases h.path.passes f hf with ⟨hnone, -⟩ | hsome
      · cases hnone.symm.trans hcommitment
      · exact Option.some.inj (hsome.symm.trans hcommitment)
  · obtain ⟨p, hp, rfl⟩ := Option.map_eq_some_iff.mp (Option.mem_toList.mp hb)
    rw [(h.pending p hp).commitment] at hcommitment
    obtain ⟨e, he, hcalc⟩ := Option.map_eq_some_iff.mp hcommitment
    refine ⟨e, List.mem_append_right _ (Option.mem_toList.mpr ?_), hcalc⟩
    rw [hp]
    exact he

/-- The block is below the other one and older. -/
structure BlockHeader.Precedes (a b : BlockHeader) : Prop where
  blockHeight : a.blockHeight < b.blockHeight
  timestampNs : a.timestampNs < b.timestampNs

instance BlockHeader.precedesTrans : Trans BlockHeader.Precedes BlockHeader.Precedes BlockHeader.Precedes where
  trans h h' := ⟨h.blockHeight.trans h'.blockHeight, h.timestampNs.trans h'.timestampNs⟩

theorem BlockHeader.Follows.precedes {a b : BlockHeader} (h : BlockHeader.Follows digest a b) : a.Precedes b := by
  refine ⟨?_, h.timestampNs⟩
  rw [Height.lt_iff, h.blockHeight]
  exact Nat.lt_succ_self _

/-- Of two blocks of a chain one precedes the other, in height and in time. -/
theorem precedes_trichotomy {bs : List BlockHeader} (hbs : bs.IsChain (BlockHeader.Follows digest)) {a b : BlockHeader}
    (ha : a ∈ bs) (hb : b ∈ bs) : a = b ∨ a.Precedes b ∨ b.Precedes a := by
  have hpairs : bs.Pairwise BlockHeader.Precedes := (hbs.imp fun a b h => h.precedes).pairwise
  have hsymm : Std.Symm fun a b : BlockHeader => a = b ∨ a.Precedes b ∨ b.Precedes a := by
    refine ⟨fun a b h => ?_⟩
    rcases h with rfl | h | h
    · exact Or.inl rfl
    · exact Or.inr (Or.inr h)
    · exact Or.inr (Or.inl h)
  have hrelated : bs.Pairwise fun a b => a = b ∨ a.Precedes b ∨ b.Precedes a := hpairs.imp fun h => Or.inr (Or.inl h)
  have hself : ∀ x ∈ bs, x = x ∨ x.Precedes x ∨ x.Precedes x := fun x _ => Or.inl rfl
  exact List.Pairwise.forall_of_forall (R := fun a b => a = b ∨ a.Precedes b ∨ b.Precedes a) hself hrelated ha hb

end

/-- Stake of the validators who are not honest. -/
def Epoch.corruptStake {PK : Type} (honest : PK → Prop) [DecidablePred honest] (e : Epoch PK) : Nat :=
  weightOf (·.stake.get) (fun v => ¬ honest v.pubkey) e.validators

end GuestChain

namespace CfGuest

open ByteBits MachineInts Nodes GuestChain Weights

variable {PK Sig : Type} {digest : List Byte → CryptoHash} {verifier : Verifier PK Sig} {honest : PK → Prop}

/-- The rest are short of the quorum, so a quorum has an honest validator in it. -/
theorem QuorumSigned.honest_signer [DecidablePred honest] {fp : Fingerprint} {epoch : Epoch PK}
    {signatures : List (Fin (2 ^ 16) × Sig)} (h : QuorumSigned verifier fp epoch signatures)
    (hshort : epoch.corruptStake honest < epoch.quorumStake.get) :
    ∃ s ∈ signatures, ∃ v, epoch.validators[s.1.val]? = some v ∧ honest v.pubkey ∧
      verifier fp.bytes v.pubkey s.2 = true := by
  have hnodup : (signatures.map fun s => s.1.val).Nodup := by
    have hmap := h.distinct.map Fin.val_injective
    rwa [List.map_map] at hmap
  have hweight : epoch.corruptStake honest <
      ((signatures.map fun s => s.1.val).map (weightAt (·.stake.get) epoch.validators)).sum := by
    rw [List.map_map]
    exact hshort.trans_le h.quorum
  obtain ⟨i, hi, v, hv, hhonest⟩ := exists_without hnodup hweight
  obtain ⟨s, hs, rfl⟩ := List.mem_map.mp hi
  obtain ⟨w, hw, hverify⟩ := h.valid s hs
  cases hv.symm.trans hw
  exact ⟨s, hs, v, hv, not_not.mp hhonest, hverify⟩

variable [PubKey PK]

variable (digest verifier honest) in
/-- What the client relies on hashes and signatures for: no other values have the hashes of blocks and epochs of the
chain and the honest sign blocks of the chain only. -/
structure Unforged (genesisHash : CryptoHash) (blocks : List BlockHeader) (epochs : List (Epoch PK))
    (header : Header PK Sig) : Prop where
  block : ∀ b ∈ blocks, digest header.blockHeader.serialize = digest b.serialize →
    header.blockHeader.serialize = b.serialize
  epoch : ∀ e ∈ epochs, digest header.epoch.serialize = digest e.serialize → header.epoch.serialize = e.serialize
  signatures : ∀ s ∈ header.signatures, ∀ v, header.epoch.validators[s.1.val]? = some v → honest v.pubkey →
    verifier header.fingerprint.bytes v.pubkey s.2 = true →
    ∃ b ∈ blocks, header.fingerprint = Fingerprint.new digest genesisHash b

theorem fingerprint_inj {genesisHash genesisHash' : CryptoHash} {height height' : BlockHeight} {hash hash' : CryptoHash}
    (h : Fingerprint.fromHash genesisHash height hash = Fingerprint.fromHash genesisHash' height' hash') :
    genesisHash = genesisHash' ∧ hash = hash' := by
  have hbytes := congrArg Fingerprint.bytes h
  simp only [Fingerprint.fromHash, List.append_assoc] at hbytes
  obtain ⟨hgenesis, hrest⟩ := List.append_inj hbytes (by rw [genesisHash.size, genesisHash'.size])
  obtain ⟨-, hhash⟩ := List.append_inj hrest (by simp)
  exact ⟨CryptoHash.eq_of_bytes hgenesis, CryptoHash.eq_of_bytes hhash⟩

theorem blockHeader_inj {a b : BlockHeader} (h : a.serialize = b.serialize) : a = b :=
  (readHeader_reads.write_append_inj trivial trivial (congrArg (· ++ ([] : List Byte)) h)).1

/-- A client whose epochs are epochs of the chain accepts headers of blocks of the chain only. -/
theorem accepted_is_block [DecidablePred honest] {genesisHash : CryptoHash} {blocks : List BlockHeader}
    {epochs : List (Epoch PK)} {c : ClientState} {header : Header PK Sig}
    (hpk : SelfDelimiting (PubKey.serialize : PK → List Byte))
    (hshort : ∀ e ∈ epochs, e.corruptStake honest < e.quorumStake.get)
    (hcurrent : ∃ e ∈ epochs, e.calcCommitment digest = c.epochCommitment)
    (hprevious : ∃ e ∈ epochs, e.calcCommitment digest = c.prevEpochCommitment)
    (hderived : header.Derived digest) (hunforged : Unforged digest verifier honest genesisHash blocks epochs header)
    (hok : c.verifyHeader verifier header = .ok ()) :
    header.genesisHash = c.genesisHash ∧ header.blockHeader ∈ blocks ∧
      header.blockHash = header.blockHeader.calcHash digest := by
  obtain ⟨hgenesis, hcommitment, counted, hcounted, hsigned⟩ := verifyHeader_ok.mp hok
  have hepoch : ∃ e ∈ epochs, e.calcCommitment digest = header.epochCommitment := by
    rcases hcommitment with h | h
    · rwa [h]
    · rwa [h]
  obtain ⟨e, he, hcalc⟩ := hepoch
  rw [hderived.epochCommitment] at hcalc
  obtain ⟨hvalidators, hquorum⟩ := Epoch.eq_of_serialize hpk (hunforged.epoch e he hcalc.symm)
  have hminority : header.epoch.corruptStake honest < header.epoch.quorumStake.get := by
    have hless := hshort e he
    rwa [Epoch.corruptStake, ← hvalidators, ← hquorum] at hless
  obtain ⟨s, hs, v, hv, hhonest, hverify⟩ := hsigned.honest_signer hminority
  obtain ⟨b, hb, hfp⟩ := hunforged.signatures s (hcounted.subset hs) v hv hhonest hverify
  obtain ⟨-, hhash⟩ := fingerprint_inj hfp
  rw [hderived.blockHash] at hhash
  obtain rfl := blockHeader_inj (hunforged.block b hb hhash)
  exact ⟨hgenesis, hb, hderived.blockHash⟩

end CfGuest
