import EmulatedLightClient.ChainManager
import EmulatedLightClient.FailingState
import Mathlib.Data.List.Chain

/-!
# Runs of the chain manager

A run is a sequence of calls which do not panic. Along with the manager it
records what the calls report: blocks which were generated, signatures accepted
for the pending block and finalised blocks, with epochs from before and after.
-/

namespace GuestChain

open ByteBits MachineInts Nodes FailingState

/-- A block finalised in a run. `epoch` is the epoch the manager collected
signatures from, `nextEpoch` the one it has afterwards. -/
structure Finalised (PK Sig : Type) where
  header : BlockHeader
  epoch : Epoch PK
  signatures : List (PK × Sig)
  nextEpoch : Epoch PK

/-- Calls which change the manager. -/
inductive Call (PK Sig E : Type) where
  | generateNext (hostHeight : HostHeight) (hostTimestamp : NonZeroU64) (stateRoot : CryptoHash)
  | addSignature (pubkey : PK) (signature : Sig)
  | updateCandidate (pubkey : PK) (newStakeFn : Option (Candidate PK) → Except E (Fin (2 ^ 128)))
  | updateConfig (payload : UpdateConfig)

structure ChainRun (PK Sig : Type) where
  manager : ChainManager PK
  generated : List (Block PK)
  collected : List (PK × Sig)
  finalised : List (Finalised PK Sig)

namespace ChainRun

variable {PK Sig E : Type} [PubKey PK] [OfUpdateCandidateError E]

def start (manager : ChainManager PK) : ChainRun PK Sig :=
  { manager, generated := [], collected := [], finalised := [] }

def recordGenerated (s : ChainRun PK Sig) :
    Except GenerateError Unit × ChainManager PK → ChainRun PK Sig
  | (.error _, manager) => { s with manager }
  | (.ok (), manager) =>
    { s with
      manager
      generated := s.generated ++ (manager.pendingBlock.map (·.nextBlock)).toList
      collected := [] }

def recordSignature (s : ChainRun PK Sig) (pubkey : PK) (signature : Sig) :
    Except AddSignatureError AddSignatureEffect × ChainManager PK → ChainRun PK Sig
  | (.ok .noQuorumYet, manager) =>
    { s with manager, collected := s.collected ++ [(pubkey, signature)] }
  | (.ok .gotQuorum, manager) =>
    { s with
      manager
      collected := []
      finalised := s.finalised ++
        [{ header := manager.header
           epoch := s.manager.nextEpoch
           signatures := s.collected ++ [(pubkey, signature)]
           nextEpoch := manager.nextEpoch }] }
  | (_, manager) => { s with manager }

def step (digest : List Byte → CryptoHash) (verifier : Verifier PK Sig) (s : ChainRun PK Sig) :
    Call PK Sig E → Option (ChainRun PK Sig)
  | .generateNext hostHeight hostTimestamp stateRoot =>
    (s.manager.generateNext digest hostHeight hostTimestamp stateRoot).map s.recordGenerated
  | .addSignature pubkey signature =>
    (s.manager.addSignature pubkey signature verifier).map (s.recordSignature pubkey signature)
  | .updateCandidate pubkey newStakeFn =>
    (s.manager.updateCandidate pubkey newStakeFn).map fun (_, manager) => { s with manager }
  | .updateConfig payload =>
    (s.manager.updateConfig payload).map fun (_, manager) => { s with manager }

/-- The run of given calls on a manager which was just created. -/
def run (digest : List Byte → CryptoHash) (verifier : Verifier PK Sig) (manager : ChainManager PK)
    (calls : List (Call PK Sig E)) : Option (ChainRun PK Sig) :=
  calls.foldlM (step digest verifier) (start manager)

/-- Headers of the genesis block and of all finalised blocks, oldest first. -/
def headers (genesis : BlockHeader) (finalised : List (Finalised PK Sig)) : List BlockHeader :=
  genesis :: finalised.map (·.header)

end ChainRun

/-- Stake of the validator with given key, zero if there is none. -/
def Epoch.stakeOf {PK : Type} [DecidableEq PK] (e : Epoch PK) (pk : PK) : Nat :=
  (e.validator pk).elim 0 (·.stake.get)

/-- The most recent block which carries a commitment of the next epoch. -/
def lastDefining (headers : List BlockHeader) : Option BlockHeader :=
  (headers.filter (·.nextEpochCommitment.isSome)).getLast?

theorem lastDefining_append (hs : List BlockHeader) (h : BlockHeader) :
    lastDefining (hs ++ [h]) =
      if h.nextEpochCommitment.isSome then some h else lastDefining hs := by
  unfold lastDefining
  cases hc : h.nextEpochCommitment.isSome with
  | true => simp [List.filter_append, hc]
  | false => simp [List.filter_append, hc]

section

variable {PK Sig : Type} [PubKey PK] (digest : List Byte → CryptoHash) (verifier : Verifier PK Sig)
  (genesisHash : CryptoHash)

/-- Distinct validators of the epoch made the signatures and all of them are valid. -/
structure SignedBy (header : BlockHeader) (epoch : Epoch PK) (signatures : List (PK × Sig)) :
    Prop where
  distinct : (signatures.map Prod.fst).Nodup
  known : ∀ s ∈ signatures, (epoch.validator s.1).isSome
  valid : ∀ s ∈ signatures,
    (Fingerprint.new digest genesisHash header).verify s.1 s.2 verifier = true

def signedStake (epoch : Epoch PK) (signatures : List (PK × Sig)) : Nat :=
  (signatures.map fun s => epoch.stakeOf s.1).sum

structure Finalised.ByQuorum (f : Finalised PK Sig) : Prop where
  signed : SignedBy digest verifier genesisHash f.header f.epoch f.signatures
  quorum : f.epoch.quorumStake.get ≤ signedStake f.epoch f.signatures

/-- The block belongs to the epoch which the last commitment before it promised. -/
structure Finalised.Belongs (earlier : List BlockHeader) (f : Finalised PK Sig)
    (definedIn : BlockHeader) : Prop where
  last : lastDefining earlier = some definedIn
  epochId : f.header.epochId = definedIn.calcHash digest
  commitment : definedIn.nextEpochCommitment = some (f.epoch.calcCommitment digest)

structure LocalConsensusState.Describes (state : LocalConsensusState) (header : BlockHeader) :
    Prop where
  height : state.height = header.blockHeight
  timestamp : state.timestamp = header.timestampNs
  blockhash : state.blockhash = (header.calcHash digest).bytes

/-- No block is signed without more than half of the stake. -/
structure Epoch.Majority (e : Epoch PK) : Prop where
  quorum_le : e.quorumStake.get ≤ totalOf e.validators
  half_lt : totalOf e.validators < 2 * e.quorumStake.get

/-- Everything that holds of the chain a manager has built. -/
structure ChainInvariant (genesis : BlockHeader) (s : ChainRun PK Sig) : Prop where
  linked : (ChainRun.headers genesis s.finalised).IsChain (BlockHeader.Follows digest)
  epochs : ∀ before f after, s.finalised = before ++ f :: after →
    ∃ definedIn, f.Belongs digest (ChainRun.headers genesis before) definedIn
  quorums : ∀ f ∈ s.finalised, f.ByQuorum digest verifier (genesis.calcHash digest)
  generated : ∀ b ∈ s.generated, ∀ e ∈ b.nextEpoch, e.Majority
  generates : ∀ hostHeight, ∀ e ∈ s.manager.maybeGenerateNextEpoch hostHeight, e.Majority
  states_length : s.manager.consensusStates.length ≤ maxConsensusStates
  states_contiguous :
    s.manager.consensusStates.IsChain fun a b => b.height.val = a.height.val + 1
  states_last : s.generated ≠ [] → ∃ state, s.manager.consensusStates.getLast? = some state ∧
    state.Describes digest s.manager.head.2

end

end GuestChain
