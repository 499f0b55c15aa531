import EmulatedLightClient.ClientFollows

/-!
# Headers of the previous epoch

The client keeps commitment of the previous epoch to verify past states. It does
not compare heights when it looks at the commitment, so validators of that epoch
may still sign blocks above everything the client knows.
-/

namespace CfGuest

open ByteBits MachineInts Nodes GuestChain FailingState FailingState.Op
open SealableTrie (hashOf tableDigest)

section

variable {PK Sig Ctx AnyState : Type} [PubKey PK] [LawfulContext Ctx AnyState]
  (digest : List Byte → CryptoHash) (verifier : Verifier PK Sig)

/-- Whatever moves the client forward is signed by the current epoch. -/
def OnlyCurrentExtends (ctx : Ctx) : Prop :=
  ∀ (header : Header PK Sig) (heights : List IbcHeight) (ctx' : Ctx), header.Derived digest →
    (clientState ctx).verifyHeader verifier header = .ok () →
    ((clientState ctx).doUpdateState header).run ctx = (.ok heights, ctx') →
    (clientState ctx).latestHeight < header.blockHeader.blockHeight →
    header.epochCommitment = (clientState ctx).epochCommitment

/-- A quorum of an epoch with the given commitment signed a block above the height. -/
def SignedAbove (genesisHash commitment : CryptoHash) (height : BlockHeight) : Prop :=
  ∃ (epoch : Epoch PK) (block : BlockHeader) (signatures : List (Fin (2 ^ 16) × Sig)),
    epoch.calcCommitment digest = commitment ∧ height < block.blockHeight ∧
    QuorumSigned verifier (Fingerprint.new digest genesisHash block) epoch signatures

variable {digest verifier} {ctx : Ctx}

omit [PubKey PK] in
theorem doUpdateState_ok (hdecodes : Decodes ctx) (header : Header PK Sig)
    (hpos : header.blockHeader.blockHeight.val ≠ 0) :
    ∃ heights ctx', ((clientState ctx).doUpdateState header).run ctx = (.ok heights, ctx') := by
  have hends := (clientState ctx).doUpdateState_ends header ctx
  rcases hrun : ((clientState ctx).doUpdateState header).run ctx with ⟨r, ctx'⟩
  cases r with
  | ok heights => exact ⟨heights, ctx', rfl⟩
  | error e =>
    obtain ⟨-, hzero | hundecoded⟩ := hends.of_error hrun
    · exact absurd hzero hpos
    · exact absurd hdecodes hundecoded

/-- Nothing in the client stops the previous epoch: it is kept out if and only if it never
signs above the latest height or is the current epoch itself. -/
theorem onlyCurrentExtends_iff (hdecodes : Decodes ctx) :
    OnlyCurrentExtends digest verifier ctx ↔
      (clientState ctx).prevEpochCommitment = (clientState ctx).epochCommitment ∨
      ¬ SignedAbove digest verifier (clientState ctx).genesisHash
        (clientState ctx).prevEpochCommitment (clientState ctx).latestHeight := by
  constructor
  · intro h
    by_contra hneither
    obtain ⟨hne, hsigned⟩ := not_or.mp hneither
    obtain ⟨epoch, block, signatures, hcommitment, hlt, hquorum⟩ := not_not.mp hsigned
    have hpos : block.blockHeight.val ≠ 0 := by
      have := Height.lt_iff.mp hlt
      omega
    let header := Header.new digest (clientState ctx).genesisHash block epoch signatures
    obtain ⟨heights, ctx', hrun⟩ := doUpdateState_ok hdecodes header hpos
    have hok : (clientState ctx).verifyHeader verifier header = .ok () :=
      verifyHeader_ok.mpr ⟨rfl, Or.inr hcommitment, signatures, List.prefix_refl _, hquorum⟩
    have hcurrent := h header heights ctx' (Header.new_derived _ _ _ _ _) hok hrun hlt
    exact hne (hcommitment.symm.trans hcurrent)
  · intro h header heights ctx' hderived hok _ hlt
    obtain ⟨hgenesis, hcurrent | hprevious, counted, -, hquorum⟩ := verifyHeader_ok.mp hok
    · exact hcurrent
    · rcases h with hsame | hunsigned
      · exact hprevious.trans hsame
      · refine absurd ⟨header.epoch, header.blockHeader, counted, ?_, hlt, ?_⟩ hunsigned
        · exact hderived.epochCommitment.symm.trans hprevious
        · rw [Header.fingerprint, hgenesis, hderived.blockHash] at hquorum
          exact hquorum

end

/-- A client created from the genesis block has one epoch only. -/
theorem onlyCurrentExtends_sample :
    OnlyCurrentExtends sampleDigest MockSignature.verify sampleContext :=
  (onlyCurrentExtends_iff sampleContext_created.decodes).mpr (Or.inl rfl)

/-- A block after the epoch has changed which gives it back to the first one. -/
def sampleReturn : BlockHeader where
  prevBlockHash := hashOf 0x6c827ae91f7b4f7c3fbc2a68cd6f82e4f5cb77b9759235f75de1ec3a51463cce
  blockHeight := Height.clamp 5
  hostHeight := Height.clamp 35
  timestampNs := NonZero.clamp 8
  stateRoot := sampleRoot 4#8
  epochId := hashOf 0x78bbee5652abf70904fc5c6a1bfe5fd5e64d17868f4cd0cd1d473a2fc4a8a52f
  nextEpochCommitment := some (sampleEpoch.calcCommitment sampleDigest)

def returnDigest : List Byte → CryptoHash :=
  tableDigest ((sampleReturn.serialize,
    hashOf 0xe9b92c2b6f4981733e18e4c65e9f1ddb38e2fa3d163d4a5f534e9e811fc1c7e0) :: sampleHashes)

/-- The client has seen the last block of the first epoch. Two validators of that epoch sign
the block, the client accepts it, sees no misbehaviour and trusts the first epoch again. -/
theorem previous_epoch_extends :
    let last := sampleHeader sampleDigest sampleEpochEnd sampleEpoch [(2, 3), (1, 2)]
    let ctx := ((sampleContext.clientState.doUpdateState last).run sampleContext).2
    let header := sampleHeader returnDigest sampleReturn sampleEpoch [(0, 1), (1, 2)]
    let after := ((ctx.clientState.doUpdateState header).run ctx).2
    ctx.clientState.verifyHeader MockSignature.verify header = .ok () ∧
      ClientState.doCheckForMisbehaviour ctx (.header header) = .ok false ∧
      ctx.clientState.latestHeight < header.blockHeader.blockHeight ∧
      header.epochCommitment ≠ ctx.clientState.epochCommitment ∧
      after.clientState.latestHeight = header.blockHeader.blockHeight ∧
      after.clientState.epochCommitment = header.epochCommitment ∧
      ¬ OnlyCurrentExtends returnDigest MockSignature.verify ctx := by
  intro last ctx header after
  have hok : ctx.clientState.verifyHeader MockSignature.verify header = .ok () := by
    decide
  have hlt : ctx.clientState.latestHeight < header.blockHeader.blockHeight := by
    decide
  have hne : header.epochCommitment ≠ ctx.clientState.epochCommitment := by
    decide
  refine ⟨hok, by decide, hlt, hne, by decide, by decide, fun h => hne ?_⟩
  obtain ⟨heights, hheights⟩ :
      ∃ heights, ((ctx.clientState.doUpdateState header).run ctx).1 =
        .ok heights := ⟨[⟨1, 5, by decide⟩], by decide⟩
  exact h header heights after (Header.new_derived _ _ _ _ _) hok (Prod.ext hheights rfl) hlt

end CfGuest
