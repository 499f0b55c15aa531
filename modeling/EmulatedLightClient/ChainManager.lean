import EmulatedLightClient.Candidates
import Mathlib.Data.Finset.Insert

/-!
# The chain manager

The manager holds the last finalised block header, the epoch of the next block
and, between generating a block and reaching quorum, the pending block. Methods
give a result together with the manager they leave; the missing value is a panic.
-/

namespace GuestChain

open ByteBits MachineInts Nodes

def maxConsensusStates : Nat := 20

structure LocalConsensusState where
  height : BlockHeight
  timestamp : NonZeroU64
  blockhash : List Byte

/-- Pending block waiting for signatures. -/
structure PendingBlock (PK : Type) where
  nextBlock : Block PK
  fingerprint : Fingerprint
  signers : Finset PK
  signingStake : Nat

structure ChainManager (PK : Type) where
  config : Config
  genesis : CryptoHash
  header : BlockHeader
  nextEpoch : Epoch PK
  pendingBlock : Option (PendingBlock PK)
  epochHeight : HostHeight
  candidates : Candidates PK
  consensusStates : List LocalConsensusState

inductive BadGenesis where
  | badGenesis
  deriving DecidableEq

inductive GenerateError where
  | hasPendingBlock
  | blockTooYoung
  | unchangedState
  | inner (err : Block.GenerateError)
  deriving DecidableEq

inductive AddSignatureError where
  | noPendingBlock
  | badSignature
  | badValidator
  deriving DecidableEq

inductive AddSignatureEffect where
  | noQuorumYet
  | gotQuorum
  | duplicate
  deriving DecidableEq

namespace ChainManager

variable {PK Sig : Type} [PubKey PK] (digest : List Byte → CryptoHash)

def new (config : Config) (genesis : Block PK) : Option (Except BadGenesis (ChainManager PK)) :=
  if genesis.header.isGenesis then
    match genesis.nextEpoch with
    | none => some (.error .badGenesis)
    | some nextEpoch => do
      let candidates ← Candidates.new config.maxValidators nextEpoch.validators
      return .ok
        { config
          genesis := genesis.header.calcHash digest
          header := genesis.header
          nextEpoch
          pendingBlock := none
          epochHeight := genesis.header.hostHeight
          candidates
          consensusStates := [] }
  else some (.error .badGenesis)

/-- The head of the chain and whether it has been finalised. -/
def head (m : ChainManager PK) : Bool × BlockHeader :=
  match m.pendingBlock with
  | none => (true, m.header)
  | some pending => (false, pending.nextBlock.header)

def updateConfig (m : ChainManager PK) (payload : UpdateConfig) :
    Option (Except UpdateConfigError Unit × ChainManager PK) :=
  match m.config.update m.candidates.headStake m.nextEpoch.validators.length payload with
  | .error e => some (.error e, m)
  | .ok config =>
    match payload.maxValidators with
    | none => some (.ok (), { m with config })
    | some maxValidators => do
      let candidates ← m.candidates.updateMaxValidators maxValidators
      return (.ok (), { m with config, candidates })

theorem half_lt (total : NonZeroU128) : total.get / 2 + 1 < 2 ^ 128 := by
  have := total.lt
  omega

/-- Quorum of an epoch with given total stake. -/
def quorum (config : Config) (total : NonZeroU128) : NonZeroU128 :=
  min (max ⟨total.get / 2 + 1, Nat.succ_pos _, half_lt total⟩ config.minQuorumStake) total

def maybeGenerateNextEpoch (m : ChainManager PK) (hostHeight : HostHeight) : Option (Epoch PK) :=
  if hostHeight.checkDeltaFrom m.epochHeight m.config.minEpochLength then
    m.candidates.maybeGetHead.bind fun validators => Epoch.newWith validators (quorum m.config)
  else none

/-- Verifies whether new block can be generated and returns the epoch it should define. -/
def validateGenerateNext (m : ChainManager PK) (hostHeight : HostHeight)
    (hostTimestamp : NonZeroU64) (stateRoot : CryptoHash) :
    Except GenerateError (Option (Epoch PK)) :=
  if m.pendingBlock.isSome then .error .hasPendingBlock
  else if !hostHeight.checkDeltaFrom m.header.hostHeight m.config.minBlockLength then
    .error .blockTooYoung
  else
    let nextEpoch := m.maybeGenerateNextEpoch hostHeight
    let age := hostTimestamp.get - m.header.timestampNs.get
    if nextEpoch.isNone ∧ stateRoot = m.header.stateRoot ∧ age < m.config.maxBlockAgeNs then
      .error .unchangedState
    else .ok nextEpoch

def pushConsensusState (states : List LocalConsensusState) (header : BlockHeader) :
    List LocalConsensusState :=
  (if states.length = maxConsensusStates then states.tail else states) ++
    [{ height := header.blockHeight
       timestamp := header.timestampNs
       blockhash := (header.calcHash digest).bytes }]

/-- Generates a new block and sets it as pending. -/
def generateNext (m : ChainManager PK) (hostHeight : HostHeight) (hostTimestamp : NonZeroU64)
    (stateRoot : CryptoHash) : Option (Except GenerateError Unit × ChainManager PK) :=
  match m.validateGenerateNext hostHeight hostTimestamp stateRoot with
  | .error e => some (.error e, m)
  | .ok nextEpoch => do
    match ← m.header.generateNext digest hostHeight hostTimestamp stateRoot nextEpoch with
    | .error e => return (.error (.inner e), m)
    | .ok nextBlock =>
      return (.ok (),
        { m with
          consensusStates := pushConsensusState digest m.consensusStates nextBlock.header
          pendingBlock := some
            { nextBlock
              fingerprint := Fingerprint.new digest m.genesis nextBlock.header
              signers := ∅
              signingStake := 0 }
          candidates := if nextEpoch.isSome then m.candidates.clearChangedFlag else m.candidates })

/-- The pending block becomes the last finalised one. -/
def finalise (m : ChainManager PK) (block : Block PK) : ChainManager PK :=
  let m := { m with pendingBlock := none, header := block.header }
  match block.nextEpoch with
  | none => m
  | some epoch => { m with nextEpoch := epoch, epochHeight := block.header.hostHeight }

section

variable (m : ChainManager PK) (block : Block PK)

omit [PubKey PK]

@[simp] theorem finalise_header : (m.finalise block).header = block.header := by
  unfold finalise
  cases block.nextEpoch <;> rfl

@[simp] theorem finalise_genesis : (m.finalise block).genesis = m.genesis := by
  unfold finalise
  cases block.nextEpoch <;> rfl

@[simp] theorem finalise_pendingBlock : (m.finalise block).pendingBlock = none := by
  unfold finalise
  cases block.nextEpoch <;> rfl

@[simp] theorem finalise_nextEpoch :
    (m.finalise block).nextEpoch = block.nextEpoch.getD m.nextEpoch := by
  unfold finalise
  cases block.nextEpoch <;> rfl

@[simp] theorem finalise_config : (m.finalise block).config = m.config := by
  unfold finalise
  cases block.nextEpoch <;> rfl

@[simp] theorem finalise_candidates : (m.finalise block).candidates = m.candidates := by
  unfold finalise
  cases block.nextEpoch <;> rfl

@[simp] theorem finalise_consensusStates :
    (m.finalise block).consensusStates = m.consensusStates := by
  unfold finalise
  cases block.nextEpoch <;> rfl

end

/-- Adds a signature to pending block. -/
def addSignature (m : ChainManager PK) (pubkey : PK) (signature : Sig)
    (verifier : Verifier PK Sig) :
    Option (Except AddSignatureError AddSignatureEffect × ChainManager PK) :=
  match m.pendingBlock with
  | none => some (.error .noPendingBlock, m)
  | some pending =>
    match m.nextEpoch.validator pubkey with
    | none => some (.error .badValidator, m)
    | some validator =>
      if !pending.fingerprint.verify pubkey signature verifier then some (.error .badSignature, m)
      else if pubkey ∈ pending.signers then some (.ok .duplicate, m)
      else do
        let signingStake ← checkedAdd 128 pending.signingStake validator.stake.get
        if signingStake < m.nextEpoch.quorumStake.get then
          return (.ok .noQuorumYet,
            { m with
              pendingBlock := some
                { pending with signers := insert pubkey pending.signers, signingStake } })
        else
          return (.ok .gotQuorum, m.finalise pending.nextBlock)

def updateCandidate {E : Type} [OfUpdateCandidateError E] (m : ChainManager PK) (pubkey : PK)
    (newStakeFn : Option (Candidate PK) → Except E (Fin (2 ^ 128))) :
    Option (Except E Unit × ChainManager PK) := do
  let (res, candidates) ← m.candidates.update m.config pubkey newStakeFn
  return (res, { m with candidates })

variable {digest} {m m' : ChainManager PK}

theorem quorum_get (config : Config) (total : NonZeroU128) :
    (quorum config total).get =
      min (max (total.get / 2 + 1) config.minQuorumStake.get) total.get := by
  rw [quorum, NonZero.get_min, NonZero.get_max]

omit [PubKey PK] in
/-- An epoch the manager generates takes more than half of its stake to sign. -/
theorem maybeGenerateNextEpoch_quorum {hostHeight : HostHeight} {e : Epoch PK}
    (h : m.maybeGenerateNextEpoch hostHeight = some e) :
    e.quorumStake.get ≤ e.totalStake.get ∧ e.totalStake.get < 2 * e.quorumStake.get := by
  unfold maybeGenerateNextEpoch at h
  split at h
  · obtain ⟨validators, -, hnew⟩ := Option.bind_eq_some_iff.mp h
    obtain ⟨-, hquorum⟩ := Epoch.newWith_eq_some hnew
    have hpos := e.totalStake.pos
    rw [hquorum, quorum_get]
    omega
  · cases h

omit [PubKey PK] in
theorem validateGenerateNext_ok {hostHeight : HostHeight} {hostTimestamp : NonZeroU64}
    {stateRoot : CryptoHash} {nextEpoch : Option (Epoch PK)}
    (h : m.validateGenerateNext hostHeight hostTimestamp stateRoot = .ok nextEpoch) :
    m.pendingBlock = none ∧ m.maybeGenerateNextEpoch hostHeight = nextEpoch := by
  unfold validateGenerateNext at h
  split at h
  · cases h
  · rename_i hpending
    split at h
    · cases h
    · simp only at h
      split at h
      · cases h
      · exact ⟨Option.not_isSome_iff_eq_none.mp hpending, Except.ok.inj h⟩

/-- A call either fails and changes nothing or makes a new block pending. -/
theorem generateNext_cases {hostHeight : HostHeight} {hostTimestamp : NonZeroU64}
    {stateRoot : CryptoHash} {r : Except GenerateError Unit}
    (h : m.generateNext digest hostHeight hostTimestamp stateRoot = some (r, m')) :
    (∃ e, r = .error e ∧ m' = m) ∨
    ∃ block, r = .ok () ∧ m.pendingBlock = none ∧
      m.maybeGenerateNextEpoch hostHeight = block.nextEpoch ∧
      m.header.generateNext digest hostHeight hostTimestamp stateRoot block.nextEpoch =
        some (.ok block) ∧
      m' =
        { m with
          consensusStates := pushConsensusState digest m.consensusStates block.header
          pendingBlock := some
            { nextBlock := block
              fingerprint := Fingerprint.new digest m.genesis block.header
              signers := ∅
              signingStake := 0 }
          candidates :=
            if block.nextEpoch.isSome then m.candidates.clearChangedFlag else m.candidates } := by
  unfold generateNext at h
  cases hvalid : m.validateGenerateNext hostHeight hostTimestamp stateRoot with
  | error e =>
    rw [hvalid] at h
    cases h
    exact Or.inl ⟨e, rfl, rfl⟩
  | ok nextEpoch =>
    obtain ⟨hpending, hepoch⟩ := validateGenerateNext_ok hvalid
    rw [hvalid] at h
    obtain ⟨res, hres, h⟩ := Option.bind_eq_some_iff.mp h
    cases res with
    | error e =>
      cases h
      exact Or.inl ⟨.inner e, rfl, rfl⟩
    | ok block =>
      obtain ⟨-, -, hblock, -⟩ := BlockHeader.generateNext_ok hres
      cases h
      subst hblock
      exact Or.inr ⟨block, rfl, hpending, hepoch, hres, rfl⟩

/-- A signature either changes nothing or is a new valid one of a validator of the
epoch, which may be enough to finalise the block. -/
theorem addSignature_cases {pubkey : PK} {signature : Sig} {verifier : Verifier PK Sig}
    {r : Except AddSignatureError AddSignatureEffect}
    (h : m.addSignature pubkey signature verifier = some (r, m')) :
    ((r = .ok .duplicate ∨ ∃ e, r = .error e) ∧ m' = m) ∨
    ∃ pending validator, m.pendingBlock = some pending ∧
      m.nextEpoch.validator pubkey = some validator ∧
      pending.fingerprint.verify pubkey signature verifier = true ∧ pubkey ∉ pending.signers ∧
      ((r = .ok .noQuorumYet ∧
          m' =
            { m with
              pendingBlock := some
                { pending with
                  signers := insert pubkey pending.signers
                  signingStake := pending.signingStake + validator.stake.get } }) ∨
        (r = .ok .gotQuorum ∧
          m.nextEpoch.quorumStake.get ≤ pending.signingStake + validator.stake.get ∧
          m' = m.finalise pending.nextBlock)) := by
  unfold addSignature at h
  cases hpending : m.pendingBlock with
  | none =>
    rw [hpending] at h
    cases h
    exact Or.inl ⟨Or.inr ⟨_, rfl⟩, rfl⟩
  | some pending =>
    rw [hpending] at h
    simp only at h
    cases hvalidator : m.nextEpoch.validator pubkey with
    | none =>
      rw [hvalidator] at h
      cases h
      exact Or.inl ⟨Or.inr ⟨_, rfl⟩, rfl⟩
    | some validator =>
      rw [hvalidator] at h
      simp only at h
      split at h
      · cases h
        exact Or.inl ⟨Or.inr ⟨_, rfl⟩, rfl⟩
      · rename_i hverify
        split at h
        · cases h
          exact Or.inl ⟨Or.inl rfl, rfl⟩
        · rename_i hsigner
          obtain ⟨stake, hstake, h⟩ := Option.bind_eq_some_iff.mp h
          obtain ⟨-, rfl⟩ := checkedAdd_eq_some.mp hstake
          refine Or.inr ⟨pending, validator, rfl, rfl, by simpa using hverify, hsigner, ?_⟩
          split at h
          · cases h
            exact Or.inl ⟨rfl, rfl⟩
          · rename_i hquorum
            cases h
            exact Or.inr ⟨rfl, not_lt.mp hquorum, rfl⟩

/-- Changes of the configuration and of the candidates only. -/
def Reconfigured (m m' : ChainManager PK) : Prop :=
  ∃ config candidates, m' = { m with config, candidates }

omit [PubKey PK] in
theorem updateConfig_reconfigured {payload : UpdateConfig} {r : Except UpdateConfigError Unit}
    (h : m.updateConfig payload = some (r, m')) : Reconfigured m m' := by
  unfold updateConfig at h
  split at h
  · cases h
    exact ⟨_, _, rfl⟩
  · split at h
    · cases h
      exact ⟨_, _, rfl⟩
    · obtain ⟨candidates, -, h⟩ := Option.bind_eq_some_iff.mp h
      cases h
      exact ⟨_, _, rfl⟩

theorem updateCandidate_reconfigured {E : Type} [OfUpdateCandidateError E] {pubkey : PK}
    {newStakeFn : Option (Candidate PK) → Except E (Fin (2 ^ 128))} {r : Except E Unit}
    (h : m.updateCandidate pubkey newStakeFn = some (r, m')) : Reconfigured m m' := by
  obtain ⟨⟨res, candidates⟩, -, h⟩ := Option.bind_eq_some_iff.mp h
  cases h
  exact ⟨_, _, rfl⟩

end ChainManager

end GuestChain
