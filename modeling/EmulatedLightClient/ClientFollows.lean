import EmulatedLightClient.ClientRun

/-!
# A client follows the chain

Blocks which a chain manager finalises are submitted in order, all those which
end an epoch and any of the others. The client accepts every one of them and
stays in step with epochs of the manager.
-/

namespace CfGuest

open ByteBits MachineInts Nodes GuestChain FailingState FailingState.Op Weights

variable {PK Sig E : Type} [PubKey PK] [OfUpdateCandidateError E]

/-- Position of the validator with given key. -/
def position (epoch : Epoch PK) (pk : PK) : Nat := epoch.validators.findIdx fun v => v.pubkey = pk

/-- Signatures of the block the way a client gets them: in whatever order, each with
position of the validator in the epoch. -/
def Carries (f : Finalised PK Sig) (signatures : List (Fin (2 ^ 16) × Sig)) : Prop :=
  (signatures.map fun s => (s.1.val, s.2)).Perm
    (f.signatures.map fun c => (position f.epoch c.1, c.2))

theorem getElem?_position {epoch : Epoch PK} {pk : PK} {v : Validator PK}
    (h : epoch.validator pk = some v) :
    epoch.validators[position epoch pk]? = some v ∧ v.pubkey = pk := by
  have hfind : epoch.validators.find? (fun v => v.pubkey = pk) = some v := h
  refine ⟨?_, by simpa using List.find?_some hfind⟩
  rw [position, ← List.find?_eq_getElem?_findIdx]
  exact hfind

section

variable {digest : List Byte → CryptoHash} {verifier : Verifier PK Sig} {genesisHash : CryptoHash}
  {f : Finalised PK Sig} {signatures : List (Fin (2 ^ 16) × Sig)}

theorem positions_nodup (h : SignedBy digest verifier genesisHash f.header f.epoch f.signatures) :
    (f.signatures.map fun c => position f.epoch c.1).Nodup := by
  have hinj : ∀ c ∈ f.signatures, ∀ c' ∈ f.signatures,
      position f.epoch c.1 = position f.epoch c'.1 → c.1 = c'.1 := by
    intro c hc c' hc' heq
    obtain ⟨v, hv⟩ := Option.isSome_iff_exists.mp (h.known c hc)
    obtain ⟨v', hv'⟩ := Option.isSome_iff_exists.mp (h.known c' hc')
    obtain ⟨hget, hpk⟩ := getElem?_position hv
    obtain ⟨hget', hpk'⟩ := getElem?_position hv'
    rw [heq, hget'] at hget
    cases hget
    exact hpk.symm.trans hpk'
  refine List.pairwise_map.mpr ((List.pairwise_map.mp h.distinct).imp_of_mem ?_)
  intro c c' hc hc' hne heq
  exact hne (hinj c hc c' hc' heq)

theorem Carries.quorumSigned (h : Carries f signatures)
    (hf : f.ByQuorum digest verifier genesisHash) :
    QuorumSigned verifier (Fingerprint.new digest genesisHash f.header) f.epoch signatures := by
  have hpositions := h.map Prod.fst
  have hstakes := (hpositions.map (weightAt (·.stake.get) f.epoch.validators)).sum_eq
  simp only [List.map_map, Function.comp_def] at hpositions hstakes
  refine ⟨?_, ?_, ?_⟩
  · have hnodup := hpositions.nodup_iff.mpr (positions_nodup hf.signed)
    rw [show (fun s : Fin (2 ^ 16) × Sig => s.1.val) = Fin.val ∘ Prod.fst from rfl,
      ← List.map_map] at hnodup
    exact hnodup.of_map
  · intro s hs
    have hmem := h.mem_iff.mp (List.mem_map.mpr ⟨s, hs, rfl⟩)
    obtain ⟨c, hc, heq⟩ := List.mem_map.mp hmem
    obtain ⟨hidx, hsig⟩ := Prod.mk.inj heq
    obtain ⟨v, hv⟩ := Option.isSome_iff_exists.mp (hf.signed.known c hc)
    obtain ⟨hget, hpk⟩ := getElem?_position hv
    refine ⟨v, hidx ▸ hget, ?_⟩
    have hvalid := hf.signed.valid c hc
    rw [hpk, ← hsig]
    exact hvalid
  · have hstake : f.signatures.map (fun c =>
        weightAt (·.stake.get) f.epoch.validators (position f.epoch c.1)) =
          f.signatures.map fun c => f.epoch.stakeOf c.1 := by
      refine List.map_congr_left fun c hc => ?_
      obtain ⟨v, hv⟩ := Option.isSome_iff_exists.mp (hf.signed.known c hc)
      rw [weightAt_eq (getElem?_position hv).1, Epoch.stakeOf_eq hv]
    rw [hstakes, hstake]
    exact hf.quorum

end

theorem IbcHeight.new_of_pos {n h : Nat} (hpos : 0 < h) :
    IbcHeight.new n h = .ok ⟨n, h, hpos.ne'⟩ := by
  rw [IbcHeight.new, dif_neg hpos.ne']

theorem IbcHeight.lt_of_revisionHeight {a b : IbcHeight} (hnum : a.revisionNumber = b.revisionNumber)
    (h : a.revisionHeight < b.revisionHeight) : a < b := by
  show a.key < b.key
  rw [key, key, Prod.Lex.toLex_lt_toLex]
  exact Or.inr ⟨hnum, h⟩

section

variable {Ctx AnyState : Type} [LawfulContext Ctx AnyState] {ctx ctx' : Ctx}

omit [PubKey PK] in
/-- Nothing is wrong with a header newer than everything stored. -/
theorem checkForMisbehaviour_newest {header : Header PK Sig} {height : IbcHeight}
    (hheight : IbcHeight.new 1 header.blockHeader.blockHeight.val = .ok height)
    (hall : ∀ h s, stored ctx h = some s → h < height ∧
      ∃ state, CommonContext.tryInto Ctx s = .ok state ∧
        state.timestampNs < header.blockHeader.timestampNs) :
    ClientState.checkForMisbehaviourInHeader ctx header = .ok false := by
  have hnone : stored ctx height = none := by
    by_contra hsome
    obtain ⟨s, hs⟩ := Option.ne_none_iff_exists'.mp hsome
    exact lt_irrefl _ (hall height s hs).1
  obtain ⟨prev, next, hnb, hprev, hnext⟩ := LawfulContext.neighbourhood_of_none hnone
  have hnext : next = none := by
    cases next with
    | none => rfl
    | some s =>
      obtain ⟨h, hlt, hs, -⟩ := hnext
      exact absurd (hall h s hs).1 hlt.asymm
  unfold ClientState.checkForMisbehaviourInHeader
  rw [hheight]
  simp only [bind, Except.bind, hnb, hnext, getTimestampNs, Option.map_none]
  cases prev with
  | none => rfl
  | some s =>
    obtain ⟨h, -, hs, -⟩ := hprev
    obtain ⟨-, state, hstate, hlt⟩ := hall h s hs
    simp only [Option.map_some, hstate, Option.any_some, not_le.mpr (NonZero.lt_iff.mp hlt),
      decide_false]
    rfl

/-- The client knows nothing newer than the block and trusts the epoch after it. -/
structure Synced (digest : List Byte → CryptoHash) (genesisHash : CryptoHash) (ctx : Ctx)
    (last : BlockHeader) (epoch : Epoch PK) : Prop where
  genesis : (clientState ctx).genesisHash = genesisHash
  latest : (clientState ctx).latestHeight ≤ last.blockHeight
  epoch : (clientState ctx).epochCommitment = epoch.calcCommitment digest
  states : ∀ h s, stored ctx h = some s → h.revisionNumber = 1 ∧
    h.revisionHeight ≤ last.blockHeight.val ∧
    ∃ state, CommonContext.tryInto Ctx s = .ok state ∧ state.timestampNs ≤ last.timestampNs

variable {digest : List Byte → CryptoHash} {verifier : Verifier PK Sig} {genesisHash : CryptoHash}
  {last : BlockHeader} {epoch : Epoch PK} {f : Finalised PK Sig}

theorem Synced.kept (h : Synced digest genesisHash ctx last epoch) (hkept : Kept ctx ctx') :
    Synced digest genesisHash ctx' last epoch := by
  obtain ⟨hgenesis, hlatest, hepoch, hstates⟩ := h
  rw [← hkept.client] at hgenesis hlatest hepoch
  exact ⟨hgenesis, hlatest, hepoch, fun k s hs => hstates k s (hkept.states k s hs)⟩

theorem Synced.decodes (h : Synced digest genesisHash ctx last epoch) : Decodes ctx := by
  intro k s hs
  obtain ⟨-, -, state, hstate, -⟩ := h.states k s hs
  exact ⟨state, hstate⟩

/-- A block which does not end its epoch may be left out. -/
theorem Synced.skip (h : Synced digest genesisHash ctx last f.epoch)
    (hfollows : BlockHeader.Follows digest last f.header) (hpasses : f.Passes digest)
    (hnone : f.header.nextEpochCommitment = none) :
    Synced digest genesisHash ctx f.header f.nextEpoch := by
  have hheight := hfollows.blockHeight
  refine ⟨h.genesis, h.latest.trans ?_, ?_, ?_⟩
  · rw [Height.le_iff]
    omega
  · rcases hpasses with ⟨-, hsame⟩ | hsome
    · rw [hsame]
      exact h.epoch
    · cases hnone.symm.trans hsome
  · intro k s hs
    obtain ⟨hnum, hle, state, hstate, htime⟩ := h.states k s hs
    exact ⟨hnum, by omega, state, hstate, htime.trans hfollows.timestampNs.le⟩

omit [PubKey PK] in
theorem withHeader_of_lt {c : ClientState} {header : Header PK Sig}
    (h : c.latestHeight < header.blockHeader.blockHeight) :
    (c.withHeader header).latestHeight = header.blockHeader.blockHeight ∧
      (c.withHeader header).genesisHash = c.genesisHash ∧
      (c.withHeader header).epochCommitment =
        header.blockHeader.nextEpochCommitment.getD c.epochCommitment := by
  unfold ClientState.withHeader
  rw [if_pos h]
  cases header.blockHeader.nextEpochCommitment with
  | none => exact ⟨rfl, rfl, rfl⟩
  | some next => exact ⟨rfl, rfl, rfl⟩

theorem Synced.applied {header : Header PK Sig} {height : IbcHeight}
    (h : Synced digest genesisHash ctx last f.epoch) (hheader : header.blockHeader = f.header)
    (hfollows : BlockHeader.Follows digest last f.header) (hpasses : f.Passes digest)
    (hheight : IbcHeight.new 1 f.header.blockHeight.val = .ok height)
    (happlied : Applied (clientState ctx) header height ctx ctx') :
    (clientState ctx').latestHeight = f.header.blockHeight ∧
      Synced digest genesisHash ctx' f.header f.nextEpoch := by
  have hnext := hfollows.blockHeight
  have hlt : (clientState ctx).latestHeight < header.blockHeader.blockHeight := by
    have := Height.le_iff.mp h.latest
    rw [hheader, Height.lt_iff]
    omega
  obtain ⟨hlatest, hgenesis, hepoch⟩ := withHeader_of_lt hlt
  rw [← happlied.client, hheader] at hlatest hepoch
  rw [← happlied.client] at hgenesis
  refine ⟨hlatest, hgenesis.trans h.genesis, hlatest.le, ?_, ?_⟩
  · rw [hepoch]
    rcases hpasses with ⟨hnone, hsame⟩ | hsome
    · rw [hnone, hsame]
      exact h.epoch
    · rw [hsome]
      rfl
  · intro k s hs
    rcases happlied.states k s hs with ⟨rfl, rfl⟩ | ⟨-, hold⟩
    · rw [IbcHeight.new_of_pos (by omega)] at hheight
      cases hheight
      refine ⟨rfl, le_rfl, _, LawfulContext.tryInto_of _, ?_⟩
      rw [← hheader]
      exact le_rfl
    · obtain ⟨hnum, hle, state, hstate, htime⟩ := h.states k s hold
      exact ⟨hnum, by omega, state, hstate, htime.trans hfollows.timestampNs.le⟩

variable (digest verifier genesisHash) in
/-- Each block in turn is accepted and brings the client to its height and to the epoch
the manager has after it. Time may pass before a block is submitted. -/
def Tracks (ctx : Ctx) : List (Finalised PK Sig) → Prop
  | [] => True
  | f :: fs => ∀ ctx₁ signatures, Kept ctx ctx₁ → Carries f signatures →
      let header := Header.new digest genesisHash f.header f.epoch signatures
      (clientState ctx₁).verifyHeader verifier header = .ok () ∧
      ClientState.doCheckForMisbehaviour ctx₁ (.header header) = .ok false ∧
      ∃ heights ctx₂, ((clientState ctx₁).doUpdateState header).run ctx₁ = (.ok heights, ctx₂) ∧
        (clientState ctx₂).epochCommitment = f.nextEpoch.calcCommitment digest ∧
        (clientState ctx₂).latestHeight = f.header.blockHeight ∧
        Tracks ctx₂ fs

theorem Synced.update (h : Synced digest genesisHash ctx last f.epoch)
    (signatures : List (Fin (2 ^ 16) × Sig))
    (hfollows : BlockHeader.Follows digest last f.header) (hpasses : f.Passes digest) :
    let header := Header.new digest genesisHash f.header f.epoch signatures
    ClientState.doCheckForMisbehaviour ctx (.header header) = .ok false ∧
      ∃ heights ctx', ((clientState ctx).doUpdateState header).run ctx = (.ok heights, ctx') ∧
        (clientState ctx').latestHeight = f.header.blockHeight ∧
        Synced digest genesisHash ctx' f.header f.nextEpoch := by
  intro header
  have hnext := hfollows.blockHeight
  have hpos : 0 < f.header.blockHeight.val := by omega
  have hheight := IbcHeight.new_of_pos (n := 1) hpos
  have hall : ∀ k s, stored ctx k = some s →
      k < ⟨1, f.header.blockHeight.val, hpos.ne'⟩ ∧
        ∃ state, CommonContext.tryInto Ctx s = .ok state ∧
          state.timestampNs < header.blockHeader.timestampNs := by
    intro k s hs
    obtain ⟨hnum, hle, state, hstate, htime⟩ := h.states k s hs
    refine ⟨IbcHeight.lt_of_revisionHeight hnum ?_, state, hstate,
      htime.trans_lt hfollows.timestampNs⟩
    show k.revisionHeight < f.header.blockHeight.val
    omega
  refine ⟨checkForMisbehaviour_newest hheight hall, ?_⟩
  have hends := (clientState ctx).doUpdateState_ends header ctx
  rcases hrun : ((clientState ctx).doUpdateState header).run ctx with ⟨r, ctx'⟩
  cases r with
  | error e =>
    obtain ⟨-, hzero | hdecodes⟩ := hends.of_error hrun
    · exact absurd hzero hpos.ne'
    · exact absurd h.decodes hdecodes
  | ok heights =>
    obtain ⟨height, hheight', -, ⟨hstored, -⟩ | happlied⟩ := hends.of_ok hrun
    · obtain ⟨s, hs⟩ := Option.ne_none_iff_exists'.mp hstored
      cases hheight.symm.trans hheight'
      exact absurd (hall _ s hs).1 (lt_irrefl _)
    · exact ⟨heights, ctx', rfl, h.applied rfl hfollows hpasses hheight' happlied⟩

theorem Synced.tracks {fs : List (Finalised PK Sig)} {epoch' : Epoch PK}
    {submit : Finalised PK Sig → Bool} (h : Synced digest genesisHash ctx last epoch)
    (hlinked : (last :: fs.map (·.header)).IsChain (BlockHeader.Follows digest))
    (hpath : EpochPath digest epoch fs epoch')
    (hquorums : ∀ f ∈ fs, f.ByQuorum digest verifier genesisHash)
    (hsubmit : ∀ f ∈ fs, f.header.nextEpochCommitment.isSome → submit f = true) :
    Tracks digest verifier genesisHash ctx (fs.filter submit) := by
  induction fs generalizing ctx last epoch with
  | nil => trivial
  | cons f fs ih =>
    obtain ⟨rfl, hpasses, hpath⟩ := hpath
    obtain ⟨hfollows, hlinked⟩ := List.isChain_cons_cons.mp hlinked
    have hquorums' := fun g hg => hquorums g (List.mem_cons_of_mem f hg)
    have hsubmit' := fun g hg => hsubmit g (List.mem_cons_of_mem f hg)
    rw [List.filter_cons]
    split
    · intro ctx₁ signatures hkept hcarries
      have hsynced := h.kept hkept
      obtain ⟨hcheck, heights, ctx₂, hrun, hlatest, hafter⟩ :=
        hsynced.update signatures hfollows hpasses
      refine ⟨?_, hcheck, heights, ctx₂, hrun, hafter.epoch, hlatest,
        ih hafter hlinked hpath hquorums' hsubmit'⟩
      refine verifyHeader_ok.mpr ⟨hsynced.genesis.symm, Or.inl hsynced.epoch.symm, signatures,
        List.prefix_refl _, ?_⟩
      exact hcarries.quorumSigned (hquorums f List.mem_cons_self)
    · rename_i hskipped
      refine ih (h.skip hfollows hpasses ?_) hlinked hpath hquorums' hsubmit'
      by_contra hsome
      exact hskipped (hsubmit f List.mem_cons_self (Option.isSome_iff_ne_none.mpr hsome))

variable (digest) in
/-- A client created from the genesis block. It stores at most the consensus state of the
block. -/
structure Initialised (genesis : BlockHeader) (ctx : Ctx) : Prop where
  genesisHash : (clientState ctx).genesisHash = genesis.calcHash digest
  latestHeight : (clientState ctx).latestHeight = genesis.blockHeight
  epochCommitment : genesis.nextEpochCommitment = some (clientState ctx).epochCommitment
  states : ∀ h s, stored ctx h = some s → h.revisionNumber = 1 ∧
    h.revisionHeight = genesis.blockHeight.val ∧
    CommonContext.tryInto Ctx s =
      .ok (ConsensusState.new (genesis.calcHash digest) genesis.timestampNs)

/-- Whatever the run of the manager, a client created from its genesis accepts all blocks
it is given and keeps up with epochs. -/
theorem client_tracks_chain {config : Config} {blockHeight : BlockHeight} {hostHeight : HostHeight}
    {timestampNs : NonZeroU64} {stateRoot : CryptoHash} {m : ChainManager PK}
    (calls : List (Call PK Sig E)) {s : ChainRun PK Sig}
    (hnew : ChainManager.new digest config
      (Block.generateGenesis digest blockHeight hostHeight timestampNs stateRoot epoch) =
        some (.ok m))
    (hrun : ChainRun.run digest verifier m calls = some s)
    (hinit : Initialised digest
      (Block.generateGenesis digest blockHeight hostHeight timestampNs stateRoot epoch).header ctx)
    (submit : Finalised PK Sig → Bool)
    (hsubmit : ∀ f ∈ s.finalised, f.header.nextEpochCommitment.isSome → submit f = true) :
    Tracks digest verifier
      ((Block.generateGenesis digest blockHeight hostHeight timestampNs stateRoot
        epoch).header.calcHash digest) ctx (s.finalised.filter submit) := by
  have hinv := Inv.run hnew hrun
  refine Synced.tracks ?_ hinv.linked hinv.path hinv.quorums hsubmit
  refine ⟨hinit.genesisHash, hinit.latestHeight.le, ?_, ?_⟩
  · exact (Option.some.inj hinit.epochCommitment).symm
  · intro k state hs
    obtain ⟨hnum, hheight, hstate⟩ := hinit.states k state hs
    exact ⟨hnum, hheight.le, _, hstate, le_rfl⟩

end

theorem sampleGenesis_hash : sampleGenesis.header.calcHash sampleDigest = sampleGenesisHash := by
  decide

theorem sampleContext_initialised : Initialised sampleDigest sampleGenesis.header sampleContext := by
  refine ⟨sampleGenesis_hash.symm, rfl, rfl, ?_⟩
  intro h s hs
  rcases BTreeMap.get_insert.mp hs with ⟨rfl, rfl⟩ | ⟨-, hs⟩
  · refine ⟨rfl, rfl, ?_⟩
    rw [sampleGenesis_hash]
    rfl
  · cases hs

/-- Only the block which ends the epoch is submitted. -/
theorem client_tracks_chain_sample :
    ∃ s f signatures, sampleRun = some s ∧
      s.finalised.filter (·.header.nextEpochCommitment.isSome) = [f] ∧ Carries f signatures ∧
      Tracks sampleDigest MockSignature.verify (sampleGenesis.header.calcHash sampleDigest)
        sampleContext [f] := by
  have hsome : sampleRun.isSome = true := by decide +kernel
  obtain ⟨s, hs⟩ := Option.isSome_iff_exists.mp hsome
  obtain ⟨m, hnew, hrun⟩ := sampleRun_manager hs
  have hends : (sampleRun.map fun s =>
      (s.finalised.filter (·.header.nextEpochCommitment.isSome)).map fun f =>
        f.signatures.map fun c => (position f.epoch c.1, c.2)) =
      some [[(2, ⟨(0x01ca52fe, 3, 0x78bbee56), 3⟩), (1, ⟨(0x01ca52fe, 3, 0x78bbee56), 2⟩)]] := by
    decide +kernel
  rw [hs, Option.map_some, Option.some.injEq] at hends
  obtain ⟨f, hf, hsignatures⟩ := List.map_eq_singleton_iff.mp hends
  refine ⟨s, f, [(2, ⟨(0x01ca52fe, 3, 0x78bbee56), 3⟩), (1, ⟨(0x01ca52fe, 3, 0x78bbee56), 2⟩)], hs,
    hf, ?_, ?_⟩
  · rw [Carries, hsignatures]
    exact List.Perm.refl _
  · rw [← hf]
    exact client_tracks_chain sampleCalls hnew hrun sampleContext_initialised _ fun _ _ h => h

end CfGuest
