import EmulatedLightClient.FailingState
import EmulatedLightClient.GuestBlock
import Mathlib.Data.Prod.Lex

/-!
# The light client of the guest chain

A client follows the chain by its block headers. It keeps commitments of two
epochs and, in the context it runs in, a consensus state for each header. The
context is seen under the identifier of the one client.
-/

namespace CfGuest

open ByteBits MachineInts Nodes GuestChain FailingState

structure Header (PK Sig : Type) where
  genesisHash : CryptoHash
  blockHash : CryptoHash
  blockHeader : BlockHeader
  epochCommitment : CryptoHash
  epoch : Epoch PK
  signatures : List (Fin (2 ^ 16) × Sig)

/-- Constructs a new header calculating derived properties. -/
def Header.new {PK Sig : Type} [PubKey PK] (digest : List Byte → CryptoHash)
    (genesisHash : CryptoHash) (blockHeader : BlockHeader) (epoch : Epoch PK)
    (signatures : List (Fin (2 ^ 16) × Sig)) : Header PK Sig where
  genesisHash := genesisHash
  blockHash := blockHeader.calcHash digest
  blockHeader := blockHeader
  epochCommitment := epoch.calcCommitment digest
  epoch := epoch
  signatures := signatures

structure Misbehaviour (PK Sig : Type) where
  header1 : Header PK Sig
  header2 : Header PK Sig

inductive ClientMessage (PK Sig : Type) where
  | header (header : Header PK Sig)
  | misbehaviour (misbehaviour : Misbehaviour PK Sig)

/-- The root is the block hash as a vector of bytes. -/
structure ConsensusState where
  blockHash : List Byte
  timestampNs : NonZeroU64
  deriving DecidableEq

namespace ConsensusState

def new (blockHash : CryptoHash) (timestampNs : NonZeroU64) : ConsensusState :=
  ⟨blockHash.bytes, timestampNs⟩

def ofHeader {PK Sig : Type} (header : Header PK Sig) : ConsensusState :=
  ⟨header.blockHash.bytes, header.blockHeader.timestampNs⟩

end ConsensusState

structure ClientState where
  genesisHash : CryptoHash
  latestHeight : BlockHeight
  trustingPeriodNs : Nat
  epochCommitment : CryptoHash
  prevEpochCommitment : CryptoHash
  isFrozen : Bool

namespace ClientState

def new (genesisHash : CryptoHash) (latestHeight : BlockHeight) (trustingPeriodNs : Nat)
    (epochCommitment : CryptoHash) (prevEpochCommitment : Option CryptoHash) (isFrozen : Bool) :
    ClientState where
  genesisHash := genesisHash
  latestHeight := latestHeight
  trustingPeriodNs := trustingPeriodNs
  epochCommitment := epochCommitment
  prevEpochCommitment := prevEpochCommitment.getD epochCommitment
  isFrozen := isFrozen

def withHeader {PK Sig : Type} (c : ClientState) (header : Header PK Sig) : ClientState :=
  if c.latestHeight < header.blockHeader.blockHeight then
    let c := { c with latestHeight := header.blockHeader.blockHeight }
    match header.blockHeader.nextEpochCommitment with
    | none => c
    | some next => { c with prevEpochCommitment := c.epochCommitment, epochCommitment := next }
  else c

def frozen (c : ClientState) : ClientState := { c with isFrozen := true }

end ClientState

/-- Height on a chain of given revision; heights start from one. -/
structure IbcHeight where
  revisionNumber : Nat
  revisionHeight : Nat
  nonzero : revisionHeight ≠ 0

namespace IbcHeight

def key (h : IbcHeight) : Nat ×ₗ Nat := toLex (h.revisionNumber, h.revisionHeight)

theorem key_injective : Function.Injective key := by
  rintro ⟨n, h, _⟩ ⟨n', h', _⟩ he
  cases he
  rfl

instance linearOrder : LinearOrder IbcHeight := LinearOrder.lift' key key_injective

end IbcHeight

inductive ClientError where
  | invalidHeight
  | consensusStateNotFound (height : IbcHeight)
  | other (description : String)
  deriving DecidableEq

def IbcHeight.new (revisionNumber revisionHeight : Nat) : Except ClientError IbcHeight :=
  if h : revisionHeight = 0 then .error .invalidHeight
  else .ok ⟨revisionNumber, revisionHeight, h⟩

/-- The element at a height or else the elements immediately before and after it. -/
inductive Neighbourhood (T : Type) where
  | this (state : T)
  | neighbours (prev next : Option T)

/-- Context allowing accessing consensus states, which are kept in a form which
converts from and to `ConsensusState`. Timestamps are in nanoseconds. -/
class CommonContext (Ctx : Type) (AnyState : outParam Type) where
  tryInto : AnyState → Except String ConsensusState
  ofConsensusState : ConsensusState → AnyState
  hostMetadata : Ctx → Except ClientError (Nat × IbcHeight)
  setClientState : ClientState → Op ClientError Ctx Unit
  consensusState : Ctx → IbcHeight → Except ClientError AnyState
  consensusStateNeighbourhood : Ctx → IbcHeight → Except ClientError (Neighbourhood AnyState)
  storeConsensusStateAndMetadata : IbcHeight → AnyState → Nat → IbcHeight → Op ClientError Ctx Unit
  deleteConsensusStateAndMetadata : IbcHeight → Op ClientError Ctx Unit
  earliestConsensusState : Ctx → Except ClientError (Option (IbcHeight × AnyState))

def error (msg : String) : ClientError := .other msg

section

variable {PK Sig : Type} (verifier : Verifier PK Sig)

/-- Goes through signatures until quorum is reached. Each validator which signed
is taken out of the list. -/
def verifySignatures (fp : Fingerprint) :
    Nat → List (Option (Validator PK)) → List (Fin (2 ^ 16) × Sig) → Except String Unit
  | _, _, [] => .error "Quorum not reached"
  | quorumLeft, validators, (idx, sig) :: signatures =>
    match validators[idx.val]? with
    | none => .error "Validator index out of bounds"
    | some none => .error "Duplicate signature"
    | some (some validator) =>
      if !verifier fp.bytes validator.pubkey sig then .error "Bad signature"
      else if quorumLeft - validator.stake.get = 0 then .ok ()
      else
        verifySignatures fp (quorumLeft - validator.stake.get) (validators.set idx.val none)
          signatures

namespace ClientState

def verifyHeader (c : ClientState) (header : Header PK Sig) : Except ClientError Unit :=
  if header.genesisHash ≠ c.genesisHash then .error (error "Unexpected genesis hash")
  else if header.epochCommitment ≠ c.epochCommitment ∧
      header.epochCommitment ≠ c.prevEpochCommitment then
    .error (error "Unexpected epoch")
  else
    let fp := Fingerprint.fromHash header.genesisHash header.blockHeader.blockHeight header.blockHash
    (verifySignatures verifier fp header.epoch.quorumStake.get (header.epoch.validators.map some)
      header.signatures).mapError error

def verifyMisbehaviour (c : ClientState) (misbehaviour : Misbehaviour PK Sig) :
    Except ClientError Unit :=
  if misbehaviour.header1.genesisHash ≠ misbehaviour.header2.genesisHash then
    .error (error "Headers belong to different blockchains")
  else do
    c.verifyHeader verifier misbehaviour.header1
    c.verifyHeader verifier misbehaviour.header2

def doVerifyClientMessage (c : ClientState) : ClientMessage PK Sig → Except ClientError Unit
  | .header header => c.verifyHeader verifier header
  | .misbehaviour misbehaviour => c.verifyMisbehaviour verifier misbehaviour

end ClientState

end

section

variable {PK Sig Ctx AnyState : Type} [CommonContext Ctx AnyState]

def getTimestampNs (state : Option AnyState) (tryInto : AnyState → Except String ConsensusState) :
    Except ClientError (Option Nat) :=
  match state.map tryInto with
  | none => .ok none
  | some (.ok state) => .ok (some state.timestampNs.get)
  | some (.error err) => .error (error err)

namespace ClientState

open CommonContext

/-- Timestamps must be strictly increasing with height and nothing may be at odds
with a consensus state which is already there. -/
def checkForMisbehaviourInHeader (ctx : Ctx) (header : Header PK Sig) : Except ClientError Bool := do
  let height ← IbcHeight.new 1 header.blockHeader.blockHeight.val
  match ← consensusStateNeighbourhood ctx height with
  | .this state =>
    let existingState ← (tryInto Ctx state).mapError error
    return existingState ≠ ConsensusState.ofHeader header
  | .neighbours prev next =>
    let headerTimeNs := header.blockHeader.timestampNs.get
    if (← getTimestampNs prev (tryInto Ctx)).any fun prevTimeNs => headerTimeNs ≤ prevTimeNs then
      return true
    return (← getTimestampNs next (tryInto Ctx)).any fun nextTimeNs => nextTimeNs ≤ headerTimeNs

def checkForMisbehaviourInMisbehaviour (misbehaviour : Misbehaviour PK Sig) : Bool :=
  let block1 := misbehaviour.header1.blockHeader
  let block2 := misbehaviour.header2.blockHeader
  if block1.blockHeight = block2.blockHeight then
    misbehaviour.header1.blockHash ≠ misbehaviour.header2.blockHash
  else
    compare block1.blockHeight block2.blockHeight ≠ compare block1.timestampNs block2.timestampNs

def doCheckForMisbehaviour (ctx : Ctx) : ClientMessage PK Sig → Except ClientError Bool
  | .header header => checkForMisbehaviourInHeader ctx header
  | .misbehaviour misbehaviour => .ok (checkForMisbehaviourInMisbehaviour misbehaviour)

def consensusHasExpired (c : ClientState) (consensus : ConsensusState) (hostTimestamp : Nat) : Bool :=
  min (consensus.timestampNs.get + c.trustingPeriodNs) (2 ^ 64 - 1) ≤ hostTimestamp

def pruneOldestConsensusState (c : ClientState) (hostTimestamp : Nat) : Op ClientError Ctx Unit := do
  let ctx ← Op.read
  match ← Op.lift (earliestConsensusState ctx) with
  | none => pure ()
  | some (height, state) =>
    let state ← Op.lift ((tryInto Ctx state).mapError error)
    if c.consensusHasExpired state hostTimestamp then
      deleteConsensusStateAndMetadata height

def doUpdateState (c : ClientState) (header : Header PK Sig) : Op ClientError Ctx (List IbcHeight) := do
  let headerHeight ← Op.lift (IbcHeight.new 1 header.blockHeader.blockHeight.val)
  let (hostTimestamp, hostHeight) ← Op.lift (hostMetadata (← Op.read))
  c.pruneOldestConsensusState hostTimestamp
  match consensusState (← Op.read) headerHeight with
  | .ok _ => pure ()
  | .error _ =>
    setClientState (c.withHeader header)
    storeConsensusStateAndMetadata headerHeight
      (ofConsensusState Ctx (ConsensusState.ofHeader header)) hostTimestamp hostHeight
  return [headerHeight]

end ClientState

end

end CfGuest
