import EmulatedLightClient.ChainRun
import EmulatedLightClient.TrieRefinement

/-!
# Invariant of the guest chain

What the manager keeps at every moment of a run, pending blocks and signatures
collected so far included, and what follows from it for the finalised blocks.
-/

namespace GuestChain

open ByteBits MachineInts Nodes FailingState
open SealableTrie (hashOf tableDigest)

variable {PK Sig E : Type} [PubKey PK] [OfUpdateCandidateError E]

section

variable (digest : List Byte → CryptoHash)

/-- Either the epoch goes on or the block carries the commitment of the next one. -/
def Finalised.Passes (f : Finalised PK Sig) : Prop :=
  (f.header.nextEpochCommitment = none ∧ f.nextEpoch = f.epoch) ∨
    f.header.nextEpochCommitment = some (f.nextEpoch.calcCommitment digest)

/-- Each block belongs to the epoch which the manager had after the previous one. -/
def EpochPath : Epoch PK → List (Finalised PK Sig) → Epoch PK → Prop
  | e, [], e' => e = e'
  | e, f :: fs, e' => f.epoch = e ∧ f.Passes digest ∧ EpochPath f.nextEpoch fs e'

end

variable {digest : List Byte → CryptoHash} {verifier : Verifier PK Sig}

theorem EpochPath.concat {e : Epoch PK} {fs : List (Finalised PK Sig)} {f : Finalised PK Sig}
    (h : EpochPath digest e fs f.epoch) (hf : f.Passes digest) :
    EpochPath digest e (fs ++ [f]) f.nextEpoch := by
  induction fs generalizing e with
  | nil => exact ⟨h.symm, hf, rfl⟩
  | cons g fs ih => exact ⟨h.1, h.2.1, ih h.2.2⟩

omit [PubKey PK] in
theorem ChainRun.headers_concat (genesis : BlockHeader) (fs : List (Finalised PK Sig))
    (f : Finalised PK Sig) :
    ChainRun.headers genesis (fs ++ [f]) = ChainRun.headers genesis fs ++ [f.header] := by
  simp [ChainRun.headers]

theorem Epoch.stakeOf_eq {e : Epoch PK} {pk : PK} {v : Validator PK}
    (h : e.validator pk = some v) : e.stakeOf pk = v.stake.get := by
  rw [Epoch.stakeOf, h]
  rfl

theorem signedStake_concat (e : Epoch PK) (signatures : List (PK × Sig)) (s : PK × Sig) :
    signedStake e (signatures ++ [s]) = signedStake e signatures + e.stakeOf s.1 := by
  simp [signedStake]

theorem SignedBy.concat {genesisHash : CryptoHash} {header : BlockHeader} {epoch : Epoch PK}
    {signatures : List (PK × Sig)} {pk : PK} {sig : Sig}
    (h : SignedBy digest verifier genesisHash header epoch signatures)
    (hnew : pk ∉ signatures.map Prod.fst) (hknown : (epoch.validator pk).isSome)
    (hvalid : (Fingerprint.new digest genesisHash header).verify pk sig verifier = true) :
    SignedBy digest verifier genesisHash header epoch (signatures ++ [(pk, sig)]) := by
  constructor
  · rw [List.map_append, List.nodup_append]
    refine ⟨h.distinct, List.nodup_singleton _, ?_⟩
    rintro a ha b hb rfl
    rw [List.map_singleton, List.mem_singleton] at hb
    subst hb
    exact hnew ha
  · intro s hs
    rcases List.mem_append.mp hs with hs | hs
    · exact h.known s hs
    · cases List.mem_singleton.mp hs
      exact hknown
  · intro s hs
    rcases List.mem_append.mp hs with hs | hs
    · exact h.valid s hs
    · cases List.mem_singleton.mp hs
      exact hvalid

theorem length_pushConsensusState {states : List LocalConsensusState} (header : BlockHeader)
    (h : states.length ≤ maxConsensusStates) :
    (ChainManager.pushConsensusState digest states header).length ≤ maxConsensusStates := by
  unfold ChainManager.pushConsensusState
  split
  · simp only [List.length_append, List.length_tail, List.length_singleton]
    simp only [maxConsensusStates] at *
    omega
  · simp only [List.length_append, List.length_singleton]
    omega

theorem getLast_pushConsensusState (digest : List Byte → CryptoHash)
    (states : List LocalConsensusState) (header : BlockHeader) :
    ∃ state, (ChainManager.pushConsensusState digest states header).getLast? = some state ∧
      state.Describes digest header := by
  refine ⟨_, List.getLast?_concat, ?_⟩
  constructor <;> rfl

theorem isChain_pushConsensusState {states : List LocalConsensusState} {header : BlockHeader}
    (h : states.IsChain fun a b => b.height.val = a.height.val + 1)
    (hlast : ∀ state ∈ states.getLast?, header.blockHeight.val = state.height.val + 1) :
    (ChainManager.pushConsensusState digest states header).IsChain
      fun a b => b.height.val = a.height.val + 1 := by
  unfold ChainManager.pushConsensusState
  refine List.isChain_append.mpr ⟨?_, List.isChain_singleton _, ?_⟩
  · split
    · exact h.tail
    · exact h
  · intro x hx y hy
    cases hy
    refine hlast x ?_
    split at hx
    · rcases states with _ | ⟨a, _ | ⟨b, states⟩⟩
      · cases hx
      · cases hx
      · simpa using hx
    · exact hx

omit [PubKey PK] in
theorem ChainManager.generates_majority (m : ChainManager PK) (hostHeight : HostHeight) :
    ∀ e ∈ m.maybeGenerateNextEpoch hostHeight, e.Majority := by
  intro e he
  obtain ⟨hle, hlt⟩ := ChainManager.maybeGenerateNextEpoch_quorum he
  rw [e.total_eq] at hle hlt
  exact ⟨hle, hlt⟩

/-- What holds while the block waits for signatures. -/
structure Awaits (digest : List Byte → CryptoHash) (verifier : Verifier PK Sig)
    (s : ChainRun PK Sig) (p : PendingBlock PK) : Prop where
  follows : BlockHeader.Follows digest s.manager.header p.nextBlock.header
  epochId : p.nextBlock.header.epochId = s.manager.header.followingEpochId digest
  commitment : p.nextBlock.header.nextEpochCommitment =
    p.nextBlock.nextEpoch.map (Epoch.calcCommitment digest)
  fingerprint : p.fingerprint = Fingerprint.new digest s.manager.genesis p.nextBlock.header
  signers : p.signers = (s.collected.map Prod.fst).toFinset
  signingStake : p.signingStake = signedStake s.manager.nextEpoch s.collected
  signed : SignedBy digest verifier s.manager.genesis p.nextBlock.header s.manager.nextEpoch
    s.collected

/-- The epoch of the next block was defined in `definedIn`. -/
structure DefinedIn (digest : List Byte → CryptoHash) (headers : List BlockHeader)
    (m : ChainManager PK) (definedIn : BlockHeader) : Prop where
  last : lastDefining headers = some definedIn
  epochId : m.header.followingEpochId digest = definedIn.calcHash digest
  commitment : definedIn.nextEpochCommitment = some (m.nextEpoch.calcCommitment digest)

structure Inv (digest : List Byte → CryptoHash) (verifier : Verifier PK Sig)
    (genesis : BlockHeader) (genesisEpoch : Epoch PK) (s : ChainRun PK Sig) : Prop where
  genesis_eq : s.manager.genesis = genesis.calcHash digest
  linked : (ChainRun.headers genesis s.finalised).IsChain (BlockHeader.Follows digest)
  last : (ChainRun.headers genesis s.finalised).getLast? = some s.manager.header
  defined : ∃ definedIn, DefinedIn digest (ChainRun.headers genesis s.finalised) s.manager definedIn
  epochs : ∀ before f after, s.finalised = before ++ f :: after →
    ∃ definedIn, f.Belongs digest (ChainRun.headers genesis before) definedIn
  quorums : ∀ f ∈ s.finalised, f.ByQuorum digest verifier (genesis.calcHash digest)
  path : EpochPath digest genesisEpoch s.finalised s.manager.nextEpoch
  pending : ∀ p, s.manager.pendingBlock = some p → Awaits digest verifier s p
  generated : ∀ b ∈ s.generated, ∀ e ∈ b.nextEpoch, e.Majority
  states_length : s.manager.consensusStates.length ≤ maxConsensusStates
  states_contiguous :
    s.manager.consensusStates.IsChain fun a b => b.height.val = a.height.val + 1
  states_head : ∀ state ∈ s.manager.consensusStates.getLast?,
    state.Describes digest s.manager.head.2
  states_nonempty : s.generated ≠ [] → s.manager.consensusStates ≠ []

namespace Inv

variable {genesis : BlockHeader} {genesisEpoch : Epoch PK} {s s' : ChainRun PK Sig}
  {m m' : ChainManager PK}

theorem reconfigured (h : Inv digest verifier genesis genesisEpoch s)
    (hm : ChainManager.Reconfigured s.manager m') :
    Inv digest verifier genesis genesisEpoch { s with manager := m' } := by
  obtain ⟨config, candidates, rfl⟩ := hm
  exact
    { genesis_eq := h.genesis_eq
      linked := h.linked
      last := h.last
      defined := by
        obtain ⟨definedIn, hd⟩ := h.defined
        exact ⟨definedIn, hd.last, hd.epochId, hd.commitment⟩
      epochs := h.epochs
      quorums := h.quorums
      path := h.path
      pending := by
        intro p hp
        obtain ⟨h₁, h₂, h₃, h₄, h₅, h₆, h₇⟩ := h.pending p hp
        exact ⟨h₁, h₂, h₃, h₄, h₅, h₆, h₇⟩
      generated := h.generated
      states_length := h.states_length
      states_contiguous := h.states_contiguous
      states_head := h.states_head
      states_nonempty := h.states_nonempty }

theorem recordGenerated (h : Inv digest verifier genesis genesisEpoch s) {hostHeight : HostHeight}
    {hostTimestamp : NonZeroU64} {stateRoot : CryptoHash} {r : Except GenerateError Unit}
    (hm : s.manager.generateNext digest hostHeight hostTimestamp stateRoot = some (r, m')) :
    Inv digest verifier genesis genesisEpoch (s.recordGenerated (r, m')) := by
  obtain ⟨e, rfl, rfl⟩ | ⟨block, rfl, hnone, hepoch, hblock, rfl⟩ :=
    ChainManager.generateNext_cases hm
  · exact h
  obtain ⟨hfollows, hid, -, hcommit⟩ := BlockHeader.generateNext_ok hblock
  have hhead : s.manager.head.2 = s.manager.header := by rw [ChainManager.head, hnone]
  obtain ⟨state, hlast, hstate⟩ :=
    getLast_pushConsensusState digest s.manager.consensusStates block.header
  exact
    { genesis_eq := h.genesis_eq
      linked := h.linked
      last := h.last
      defined := by
        obtain ⟨definedIn, hd⟩ := h.defined
        exact ⟨definedIn, hd.last, hd.epochId, hd.commitment⟩
      epochs := h.epochs
      quorums := h.quorums
      path := h.path
      pending := by
        rintro p hp
        cases hp
        exact
          { follows := hfollows
            epochId := hid
            commitment := hcommit
            fingerprint := rfl
            signers := rfl
            signingStake := rfl
            signed := ⟨List.nodup_nil, by simp [ChainRun.recordGenerated],
              by simp [ChainRun.recordGenerated]⟩ }
      generated := by
        intro b hb
        rcases List.mem_append.mp hb with hb | hb
        · exact h.generated b hb
        · cases List.mem_singleton.mp hb
          rw [← hepoch]
          exact s.manager.generates_majority hostHeight
      states_length := length_pushConsensusState _ h.states_length
      states_contiguous := by
        refine isChain_pushConsensusState h.states_contiguous ?_
        intro state hs
        rw [(h.states_head state hs).height, hhead]
        exact hfollows.blockHeight
      states_head := by
        intro state' hs
        cases hlast.symm.trans hs
        exact hstate
      states_nonempty := by
        intro _ hnil
        rw [show (ChainManager.pushConsensusState digest s.manager.consensusStates block.header) = []
          from hnil] at hlast
        cases hlast }

/-- One more signature of the pending block. -/
theorem signed (h : Inv digest verifier genesis genesisEpoch s) {p : PendingBlock PK}
    (hp : s.manager.pendingBlock = some p) {pk : PK} {sig : Sig} {v : Validator PK}
    (hv : s.manager.nextEpoch.validator pk = some v)
    (hverify : p.fingerprint.verify pk sig verifier = true) (hnew : pk ∉ p.signers) :
    SignedBy digest verifier s.manager.genesis p.nextBlock.header s.manager.nextEpoch
        (s.collected ++ [(pk, sig)]) ∧
      p.signingStake + v.stake.get =
        signedStake s.manager.nextEpoch (s.collected ++ [(pk, sig)]) := by
  have ha := h.pending p hp
  rw [ha.fingerprint] at hverify
  rw [ha.signers, List.mem_toFinset] at hnew
  refine ⟨ha.signed.concat hnew (hv ▸ rfl) hverify, ?_⟩
  rw [signedStake_concat, Epoch.stakeOf_eq hv, ha.signingStake]

theorem noQuorumYet (h : Inv digest verifier genesis genesisEpoch s) {p : PendingBlock PK}
    (hp : s.manager.pendingBlock = some p) {pk : PK} {sig : Sig} {stake : Nat}
    (hsigned : SignedBy digest verifier s.manager.genesis p.nextBlock.header s.manager.nextEpoch
      (s.collected ++ [(pk, sig)]))
    (hstake : stake = signedStake s.manager.nextEpoch (s.collected ++ [(pk, sig)])) :
    Inv digest verifier genesis genesisEpoch
      { s with
        manager :=
          { s.manager with
            pendingBlock := some { p with signers := insert pk p.signers, signingStake := stake } }
        collected := s.collected ++ [(pk, sig)] } := by
  have ha := h.pending p hp
  have hhead : s.manager.head.2 = p.nextBlock.header := by rw [ChainManager.head, hp]
  exact
    { genesis_eq := h.genesis_eq
      linked := h.linked
      last := h.last
      defined := by
        obtain ⟨definedIn, hd⟩ := h.defined
        exact ⟨definedIn, hd.last, hd.epochId, hd.commitment⟩
      epochs := h.epochs
      quorums := h.quorums
      path := h.path
      pending := by
        rintro q hq
        cases hq
        exact
          { follows := ha.follows
            epochId := ha.epochId
            commitment := ha.commitment
            fingerprint := ha.fingerprint
            signers := by
              ext a
              rw [ha.signers, Finset.mem_insert, List.mem_toFinset, List.mem_toFinset, List.map_append, List.mem_append,
                List.map_singleton, List.mem_singleton]
              exact or_comm
            signingStake := hstake
            signed := hsigned }
      generated := h.generated
      states_length := h.states_length
      states_contiguous := h.states_contiguous
      states_head := by
        intro state hs
        have hd := h.states_head state hs
        rw [hhead] at hd
        exact hd
      states_nonempty := h.states_nonempty }

theorem defined_finalise (h : Inv digest verifier genesis genesisEpoch s) {p : PendingBlock PK}
    (ha : Awaits digest verifier s p) :
    ∃ definedIn, DefinedIn digest
      (ChainRun.headers genesis s.finalised ++ [p.nextBlock.header])
      (s.manager.finalise p.nextBlock) definedIn := by
  obtain ⟨definedIn, hd⟩ := h.defined
  have hcommit := ha.commitment
  cases hnext : p.nextBlock.nextEpoch with
  | none =>
    rw [hnext] at hcommit
    refine ⟨definedIn, ?_, ?_, ?_⟩
    · rw [lastDefining_append, hcommit]
      exact hd.last
    · rw [ChainManager.finalise_header, BlockHeader.followingEpochId, hcommit]
      exact ha.epochId.trans hd.epochId
    · rw [ChainManager.finalise_nextEpoch, hnext]
      exact hd.commitment
  | some epoch =>
    rw [hnext] at hcommit
    refine ⟨p.nextBlock.header, ?_, ?_, ?_⟩
    · rw [lastDefining_append, hcommit]
      rfl
    · rw [ChainManager.finalise_header, BlockHeader.followingEpochId, hcommit]
      rfl
    · rw [ChainManager.finalise_nextEpoch, hnext]
      exact hcommit

theorem passes_finalise {p : PendingBlock PK} (ha : Awaits digest verifier s p)
    (signatures : List (PK × Sig)) :
    Finalised.Passes digest
      { header := (s.manager.finalise p.nextBlock).header
        epoch := s.manager.nextEpoch
        signatures
        nextEpoch := (s.manager.finalise p.nextBlock).nextEpoch } := by
  have hcommit := ha.commitment
  unfold Finalised.Passes
  simp only [ChainManager.finalise_header, ChainManager.finalise_nextEpoch]
  cases hnext : p.nextBlock.nextEpoch with
  | none =>
    rw [hnext] at hcommit
    exact Or.inl ⟨hcommit, rfl⟩
  | some epoch =>
    rw [hnext] at hcommit
    exact Or.inr hcommit

theorem epochs_finalise (h : Inv digest verifier genesis genesisEpoch s) {p : PendingBlock PK}
    (ha : Awaits digest verifier s p) {f : Finalised PK Sig} (hheader : f.header = p.nextBlock.header)
    (hepoch : f.epoch = s.manager.nextEpoch) (before : List (Finalised PK Sig))
    (g : Finalised PK Sig) (after : List (Finalised PK Sig))
    (hsplit : s.finalised ++ [f] = before ++ g :: after) :
    ∃ definedIn, g.Belongs digest (ChainRun.headers genesis before) definedIn := by
  rcases List.eq_nil_or_concat after with rfl | ⟨after, last, rfl⟩
  · obtain ⟨hbefore, hg⟩ := List.append_inj' hsplit rfl
    cases hg
    obtain ⟨definedIn, hd⟩ := h.defined
    refine ⟨definedIn, ?_, ?_, ?_⟩
    · rw [← hbefore]
      exact hd.last
    · rw [hheader, ha.epochId]
      exact hd.epochId
    · rw [hepoch]
      exact hd.commitment
  · rw [List.concat_eq_append, ← List.cons_append, ← List.append_assoc] at hsplit
    exact h.epochs before g after (List.append_inj' hsplit rfl).1

theorem gotQuorum (h : Inv digest verifier genesis genesisEpoch s) {p : PendingBlock PK}
    (hp : s.manager.pendingBlock = some p) {signatures : List (PK × Sig)}
    (hsigned : SignedBy digest verifier s.manager.genesis p.nextBlock.header s.manager.nextEpoch
      signatures)
    (hquorum : s.manager.nextEpoch.quorumStake.get ≤ signedStake s.manager.nextEpoch signatures) :
    Inv digest verifier genesis genesisEpoch
      { s with
        manager := s.manager.finalise p.nextBlock
        collected := []
        finalised := s.finalised ++
          [{ header := (s.manager.finalise p.nextBlock).header
             epoch := s.manager.nextEpoch
             signatures
             nextEpoch := (s.manager.finalise p.nextBlock).nextEpoch }] } := by
  have ha := h.pending p hp
  have hhead : s.manager.head.2 = p.nextBlock.header := by rw [ChainManager.head, hp]
  exact
    { genesis_eq := by
        rw [ChainManager.finalise_genesis]
        exact h.genesis_eq
      linked := by
        rw [ChainRun.headers_concat]
        refine List.isChain_append.mpr ⟨h.linked, List.isChain_singleton _, ?_⟩
        intro x hx y hy
        cases h.last.symm.trans hx
        cases hy
        rw [ChainManager.finalise_header]
        exact ha.follows
      last := by
        rw [ChainRun.headers_concat]
        exact List.getLast?_concat
      defined := by
        rw [ChainRun.headers_concat, ChainManager.finalise_header]
        exact h.defined_finalise ha
      epochs := h.epochs_finalise ha (ChainManager.finalise_header _ _) rfl
      quorums := by
        intro f hf
        rcases List.mem_append.mp hf with hf | hf
        · exact h.quorums f hf
        · cases List.mem_singleton.mp hf
          rw [← h.genesis_eq]
          refine ⟨?_, hquorum⟩
          rw [ChainManager.finalise_header]
          exact hsigned
      path := h.path.concat (passes_finalise ha signatures)
      pending := by
        intro q hq
        rw [ChainManager.finalise_pendingBlock] at hq
        cases hq
      generated := h.generated
      states_length := by
        rw [ChainManager.finalise_consensusStates]
        exact h.states_length
      states_contiguous := by
        rw [ChainManager.finalise_consensusStates]
        exact h.states_contiguous
      states_head := by
        intro state hs
        rw [ChainManager.finalise_consensusStates] at hs
        have hd := h.states_head state hs
        rw [ChainManager.head, ChainManager.finalise_pendingBlock, ChainManager.finalise_header]
        rw [hhead] at hd
        exact hd
      states_nonempty := by
        rw [ChainManager.finalise_consensusStates]
        exact h.states_nonempty }

theorem recordSignature (h : Inv digest verifier genesis genesisEpoch s) {pk : PK} {sig : Sig}
    {r : Except AddSignatureError AddSignatureEffect}
    (hm : s.manager.addSignature pk sig verifier = some (r, m')) :
    Inv digest verifier genesis genesisEpoch (s.recordSignature pk sig (r, m')) := by
  obtain ⟨rfl | ⟨e, rfl⟩, rfl⟩ | ⟨p, v, hp, hv, hverify, hnew, hr⟩ :=
    ChainManager.addSignature_cases hm
  · exact h
  · exact h
  obtain ⟨hsigned, hstake⟩ := h.signed hp hv hverify hnew
  rcases hr with ⟨rfl, rfl⟩ | ⟨rfl, hquorum, rfl⟩
  · exact h.noQuorumYet hp hsigned hstake
  · exact h.gotQuorum hp hsigned (hstake ▸ hquorum)

theorem step (h : Inv digest verifier genesis genesisEpoch s) (c : Call PK Sig E)
    (hs : s.step digest verifier c = some s') : Inv digest verifier genesis genesisEpoch s' := by
  cases c with
  | generateNext hostHeight hostTimestamp stateRoot =>
    obtain ⟨⟨r, m'⟩, hm, rfl⟩ := Option.map_eq_some_iff.mp hs
    exact h.recordGenerated hm
  | addSignature pk sig =>
    obtain ⟨⟨r, m'⟩, hm, rfl⟩ := Option.map_eq_some_iff.mp hs
    exact h.recordSignature hm
  | updateCandidate pk newStakeFn =>
    obtain ⟨⟨r, m'⟩, hm, rfl⟩ := Option.map_eq_some_iff.mp hs
    exact h.reconfigured (ChainManager.updateCandidate_reconfigured hm)
  | updateConfig payload =>
    obtain ⟨⟨r, m'⟩, hm, rfl⟩ := Option.map_eq_some_iff.mp hs
    exact h.reconfigured (ChainManager.updateConfig_reconfigured hm)

end Inv

section

variable {config : Config} {blockHeight : BlockHeight} {hostHeight : HostHeight}
  {timestampNs : NonZeroU64} {stateRoot : CryptoHash} {epoch : Epoch PK} {m : ChainManager PK}

theorem ChainManager.new_ok {genesis : Block PK}
    (h : ChainManager.new digest config genesis = some (.ok m)) :
    m.config = config ∧ m.genesis = genesis.header.calcHash digest ∧ m.header = genesis.header ∧
      genesis.nextEpoch = some m.nextEpoch ∧ m.pendingBlock = none ∧ m.consensusStates = [] ∧
      Candidates.new config.maxValidators m.nextEpoch.validators = some m.candidates := by
  unfold ChainManager.new at h
  split at h
  · split at h
    · cases h
    · rename_i nextEpoch hnext
      obtain ⟨candidates, hcandidates, h⟩ := Option.bind_eq_some_iff.mp h
      cases h
      exact ⟨rfl, rfl, rfl, hnext, rfl, rfl, hcandidates⟩
  · cases h

theorem Inv.start
    (h : ChainManager.new digest config
      (Block.generateGenesis digest blockHeight hostHeight timestampNs stateRoot epoch) =
        some (.ok m)) :
    Inv digest verifier
      (Block.generateGenesis digest blockHeight hostHeight timestampNs stateRoot epoch).header epoch
      (ChainRun.start m) := by
  obtain ⟨-, hgenesis, hheader, hepoch, hpending, hstates, -⟩ := ChainManager.new_ok h
  cases hepoch
  exact
    { genesis_eq := hgenesis
      linked := List.isChain_singleton _
      last := congrArg some hheader.symm
      defined := by
        refine ⟨m.header, ?_, ?_, ?_⟩
        · rw [hheader]
          rfl
        · change m.header.followingEpochId digest = m.header.calcHash digest
          rw [hheader]
          rfl
        · rw [hheader]
          rfl
      epochs := by
        intro before f after hsplit
        cases before <;> cases hsplit
      quorums := by
        intro f hf
        cases hf
      path := rfl
      pending := by
        intro p hp
        cases hpending.symm.trans hp
      generated := by
        intro b hb
        cases hb
      states_length := by
        show m.consensusStates.length ≤ _
        rw [hstates]
        exact Nat.zero_le _
      states_contiguous := by
        show m.consensusStates.IsChain _
        rw [hstates]
        exact List.isChain_nil
      states_head := by
        intro state hs
        rw [show (ChainRun.start m : ChainRun PK Sig).manager.consensusStates = [] from hstates] at hs
        cases hs
      states_nonempty := by
        intro hne
        exact absurd rfl hne }

theorem Inv.run {calls : List (Call PK Sig E)} {s : ChainRun PK Sig}
    (hnew : ChainManager.new digest config
      (Block.generateGenesis digest blockHeight hostHeight timestampNs stateRoot epoch) =
        some (.ok m))
    (hrun : ChainRun.run digest verifier m calls = some s) :
    Inv digest verifier
      (Block.generateGenesis digest blockHeight hostHeight timestampNs stateRoot epoch).header epoch
      s :=
  foldlM_invariant (fun _ c _ h hs => h.step c hs) (Inv.start hnew) hrun

/-- Whatever the calls, the chain which a manager builds from a genesis block is linked,
epochs follow one another and consensus states describe its newest blocks. -/
theorem run_chainInvariant (calls : List (Call PK Sig E)) {s : ChainRun PK Sig}
    (hnew : ChainManager.new digest config
      (Block.generateGenesis digest blockHeight hostHeight timestampNs stateRoot epoch) =
        some (.ok m))
    (hrun : ChainRun.run digest verifier m calls = some s) :
    ChainInvariant digest verifier
      (Block.generateGenesis digest blockHeight hostHeight timestampNs stateRoot epoch).header s := by
  have h := Inv.run hnew hrun
  exact
    { linked := h.linked
      epochs := h.epochs
      quorums := h.quorums
      generated := h.generated
      generates := fun hostHeight => s.manager.generates_majority hostHeight
      states_length := h.states_length
      states_contiguous := h.states_contiguous
      states_last := by
        intro hne
        obtain ⟨state, hstate⟩ :=
          Option.ne_none_iff_exists'.mp (mt List.getLast?_eq_none_iff.mp (h.states_nonempty hne))
        exact ⟨state, hstate, h.states_head state hstate⟩ }

end

def sampleValidator (pk : MockPubKey) (stake : Nat) : Validator MockPubKey := ⟨pk, NonZero.clamp stake⟩

theorem sampleEpoch_total :
    (NonZero.clamp 6 : NonZeroU128).get =
      totalOf [sampleValidator 1 2, sampleValidator 2 2, sampleValidator 3 2] := by decide

theorem sampleEpoch_quorum : (NonZero.clamp 4 : NonZeroU128) ≤ NonZero.clamp 6 := by decide

def sampleEpoch : Epoch MockPubKey where
  validators := [sampleValidator 1 2, sampleValidator 2 2, sampleValidator 3 2]
  quorumStake := NonZero.clamp 4
  totalStake := NonZero.clamp 6
  total_eq := sampleEpoch_total
  quorum_le := sampleEpoch_quorum

def sampleConfig : Config where
  minValidators := NonZero.clamp 1
  maxValidators := NonZero.clamp 3
  minValidatorStake := NonZero.clamp 1
  minTotalStake := NonZero.clamp 1
  minQuorumStake := NonZero.clamp 1
  minBlockLength := Delta.clamp 4
  maxBlockAgeNs := 1000
  minEpochLength := Delta.clamp 8

theorem sampleRoot_size (b : Byte) :
    (List.replicate 8 [0#8, 0#8, 0#8, b]).flatten.length = 32 := by simp

def sampleRoot (b : Byte) : CryptoHash :=
  ⟨(List.replicate 8 [0#8, 0#8, 0#8, b]).flatten, sampleRoot_size b⟩

/-- SHA-256 of two epochs and of five blocks in a row, of which the first and the
third define the epochs. -/
def sampleHashes : List (List Byte × CryptoHash) :=
  let c₁ := hashOf 0xb8bd23d28303af4e8c1e395c4d8abd9433e40fbb33b1ac47db0e72433a41dde6
  let c₃ := hashOf 0x587c2cdac432574e6f449645300c6eb8fc18c3f30fe93e2624b7e2b59681ad61
  let h₁ := hashOf 0x01ca52fefbff33b06f017f02bd792032c3999451cb68e0990e2cae035bcdd93e
  let h₂ := hashOf 0xb017f741a1e27ca31903ec3dac1d9a839add872741199808123c75b2a6865e27
  let h₃ := hashOf 0x78bbee5652abf70904fc5c6a1bfe5fd5e64d17868f4cd0cd1d473a2fc4a8a52f
  let h₄ := hashOf 0x6c827ae91f7b4f7c3fbc2a68cd6f82e4f5cb77b9759235f75de1ec3a51463cce
  let h₅ := hashOf 0x49ece5a1b574db07172577dedb5a871776d22085d37c11a74e365d6696b2c485
  let header := fun prev height host time root id commitment => BlockHeader.serialize
    ⟨prev, Height.clamp height, Height.clamp host, NonZero.clamp time, root, id, commitment⟩
  let epoch := fun stakes quorum => 0#8 :: leBytes 4 3 ++
    (stakes.flatMap fun stake : MockPubKey × Nat => (sampleValidator stake.1 stake.2).serialize) ++
    leBytes 16 quorum
  [(epoch [(1, 2), (2, 2), (3, 2)] 4, c₁), (epoch [(1, 2), (2, 2), (3, 1)] 3, c₃),
    (header CryptoHash.default 1 1 1 CryptoHash.default CryptoHash.default (some c₁), h₁),
    (header h₁ 2 5 2 (sampleRoot 1#8) h₁ none, h₂),
    (header h₂ 3 15 4 (sampleRoot 1#8) h₁ (some c₃), h₃),
    (header h₃ 4 25 6 (sampleRoot 2#8) h₃ none, h₄),
    (header h₄ 5 35 8 (sampleRoot 3#8) h₃ none, h₅)]

def sampleDigest : List Byte → CryptoHash := tableDigest sampleHashes

def sampleGenesis : Block MockPubKey :=
  Block.generateGenesis sampleDigest (Height.clamp 1) (Height.clamp 1) (NonZero.clamp 1)
    CryptoHash.default sampleEpoch

instance sampleError : OfUpdateCandidateError UpdateCandidateError := ⟨id⟩

/-- Signature of the block of given height and first bytes of its hash. -/
def sampleSign (pk : MockPubKey) (height hash : Nat) :
    Call MockPubKey MockSignature UpdateCandidateError :=
  .addSignature pk ⟨(0x01ca52fe, height, hash), pk⟩

def sampleGenerate (host time : Nat) (root : Byte) :
    Call MockPubKey MockSignature UpdateCandidateError :=
  .generateNext (Height.clamp host) (NonZero.clamp time) (sampleRoot root)

def sampleCalls : List (Call MockPubKey MockSignature UpdateCandidateError) :=
  [sampleGenerate 5 2 1#8, sampleSign 1 2 0xb017f741, sampleSign 1 2 0xb017f741,
    sampleSign 2 2 0xb017f741, .updateCandidate 3 fun _ => .ok 1,
    sampleGenerate 15 4 1#8, sampleSign 3 3 0x78bbee56, sampleSign 2 3 0x78bbee56,
    sampleGenerate 25 6 2#8, sampleSign 3 4 0x6c827ae9, sampleSign 1 4 0x6c827ae9,
    sampleGenerate 35 8 3#8]

def sampleRun : Option (ChainRun MockPubKey MockSignature) :=
  match ChainManager.new sampleDigest sampleConfig sampleGenesis with
  | some (.ok m) => ChainRun.run sampleDigest MockSignature.verify m sampleCalls
  | _ => none

theorem sampleRun_manager {s : ChainRun MockPubKey MockSignature} (h : sampleRun = some s) :
    ∃ m, ChainManager.new sampleDigest sampleConfig sampleGenesis = some (.ok m) ∧
      ChainRun.run sampleDigest MockSignature.verify m sampleCalls = some s := by
  unfold sampleRun at h
  split at h
  · rename_i m hnew
    exact ⟨m, hnew, h⟩
  · cases h

/-- Four blocks, the second of which changes the epoch; the last one is pending. -/
theorem run_chainInvariant_sample :
    ∃ s, sampleRun = some s ∧ s.finalised.length = 3 ∧ s.generated.length = 4 ∧
      ChainInvariant sampleDigest MockSignature.verify sampleGenesis.header s := by
  have hcount : sampleRun.map (fun s => (s.finalised.length, s.generated.length)) = some (3, 4) := by
    decide +kernel
  obtain ⟨s, hs, hcount⟩ := Option.map_eq_some_iff.mp hcount
  obtain ⟨m, hnew, hrun⟩ := sampleRun_manager hs
  obtain ⟨hfinalised, hgenerated⟩ := Prod.mk.inj hcount
  exact ⟨s, hs, hfinalised, hgenerated, run_chainInvariant sampleCalls hnew hrun⟩

end GuestChain
