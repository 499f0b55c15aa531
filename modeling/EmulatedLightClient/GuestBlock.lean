import EmulatedLightClient.MachineInts
import EmulatedLightClient.Nodes
import Mathlib.Order.Fin.Basic

/-!
# Blocks and epochs of the guest chain

A block is identified by the hash of its serialised header, an epoch by the hash
of the block which defines it. What a block promises about the next epoch is the
hash of the serialised epoch.
-/

namespace GuestChain

open ByteBits MachineInts Nodes

abbrev NonZeroU16 := NonZero 16
abbrev NonZeroU64 := NonZero 64
abbrev NonZeroU128 := NonZero 128

/-- Block height, of the chain given by the tag. -/
structure Height (T : Type) where
  val : Nat
  lt : val < 2 ^ 64

structure Delta (T : Type) where
  val : Nat
  lt : val < 2 ^ 64

namespace Height

inductive Host

inductive Block

variable {T : Type}

theorem val_injective : Function.Injective (val (T := T)) := by
  rintro ⟨a, _⟩ ⟨b, _⟩ h
  cases h
  rfl

instance linearOrder : LinearOrder (Height T) := LinearOrder.lift' val val_injective

theorem clamp_lt (n : Nat) : min n (2 ^ 64 - 1) < 2 ^ 64 := by
  omega

/-- The height closest to `n`. -/
def clamp (n : Nat) : Height T := ⟨min n (2 ^ 64 - 1), clamp_lt n⟩

theorem lt_iff {a b : Height T} : a < b ↔ a.val < b.val := Iff.rfl

theorem le_iff {a b : Height T} : a ≤ b ↔ a.val ≤ b.val := Iff.rfl

/-- The next height; the source panics after the greatest one. -/
def next (h : Height T) : Option (Height T) :=
  if lt : h.val + 1 < 2 ^ 64 then some ⟨h.val + 1, lt⟩ else none

theorem next_val {h h' : Height T} (he : h.next = some h') : h'.val = h.val + 1 := by
  unfold next at he
  split at he
  · cases he
    rfl
  · cases he

def checkedSub (h rhs : Height T) : Option (Delta T) :=
  if rhs.val ≤ h.val then some ⟨h.val - rhs.val, Nat.lt_of_le_of_lt (Nat.sub_le _ _) h.lt⟩ else none

/-- Checks whether delta between two heights is at least `min`. -/
def checkDeltaFrom (h pastHeight : Height T) (min : Delta T) : Bool :=
  (h.checkedSub pastHeight).any fun age => min.val ≤ age.val

end Height

abbrev HostHeight := Height Height.Host
abbrev HostDelta := Delta Height.Host
abbrev BlockHeight := Height Height.Block

def Delta.clamp {T : Type} (n : Nat) : Delta T := ⟨min n (2 ^ 64 - 1), Height.clamp_lt n⟩

class PubKey (PK : Type) extends LinearOrder PK where
  serialize : PK → List Byte

/-- Function verifying a signature of a message. -/
abbrev Verifier (PK Sig : Type) := List Byte → PK → Sig → Bool

structure Validator (PK : Type) where
  pubkey : PK
  stake : NonZeroU128
  deriving DecidableEq

/-- The version is a zero byte at the beginning of everything serialised. -/
def Validator.serialize {PK : Type} [PubKey PK] (v : Validator PK) : List Byte :=
  0#8 :: PubKey.serialize v.pubkey ++ leBytes 16 v.stake.get

def totalOf {PK : Type} (validators : List (Validator PK)) : Nat :=
  (validators.map (·.stake.get)).sum

/-- An epoch: total stake is the sum of stakes of its validators and quorum is
no more than that. -/
structure Epoch (PK : Type) where
  validators : List (Validator PK)
  quorumStake : NonZeroU128
  totalStake : NonZeroU128
  total_eq : totalStake.get = totalOf validators
  quorum_le : quorumStake ≤ totalStake
  deriving DecidableEq

namespace Epoch

variable {PK : Type}

def sumStake (validators : List (Validator PK)) : Option Nat :=
  (validators.map (·.stake.get)).foldlM (checkedAdd 128) 0

theorem sumStake_eq_some {validators : List (Validator PK)} {total : Nat}
    (h : sumStake validators = some total) : total < 2 ^ 128 ∧ total = totalOf validators := by
  obtain ⟨hlt, heq⟩ := (foldlM_checkedAdd_eq_some (by decide)).mp h
  rw [Nat.zero_add] at hlt heq
  exact ⟨heq ▸ hlt, heq.symm⟩

/-- Creates a new epoch with function determining quorum. -/
def newWith (validators : List (Validator PK)) (quorumStake : NonZeroU128 → NonZeroU128) :
    Option (Epoch PK) :=
  match h : sumStake validators with
  | none => none
  | some total =>
    if hpos : 0 < total then
      let totalStake : NonZeroU128 := ⟨total, hpos, (sumStake_eq_some h).1⟩
      if hle : quorumStake totalStake ≤ totalStake then
        some
          { validators, quorumStake := quorumStake totalStake, totalStake
            total_eq := (sumStake_eq_some h).2
            quorum_le := hle }
      else none
    else none

def new (validators : List (Validator PK)) (quorumStake : NonZeroU128) : Option (Epoch PK) :=
  newWith validators fun _ => quorumStake

theorem newWith_eq_some {validators : List (Validator PK)}
    {quorumStake : NonZeroU128 → NonZeroU128} {e : Epoch PK}
    (h : newWith validators quorumStake = some e) :
    e.validators = validators ∧ e.quorumStake = quorumStake e.totalStake := by
  unfold newWith at h
  split at h
  · cases h
  · split at h
    · simp only at h
      split at h
      · cases h
        exact ⟨rfl, rfl⟩
      · cases h
    · cases h

/-- Finds a validator by their public key. -/
def validator [DecidableEq PK] (e : Epoch PK) (pk : PK) : Option (Validator PK) :=
  e.validators.find? fun v => v.pubkey = pk

def serialize [PubKey PK] (e : Epoch PK) : List Byte :=
  0#8 :: leBytes 4 e.validators.length ++ e.validators.flatMap Validator.serialize ++
    leBytes 16 e.quorumStake.get

/-- Calculates commitment (i.e. hash) of the epoch. -/
def calcCommitment [PubKey PK] (digest : List Byte → CryptoHash) (e : Epoch PK) : CryptoHash :=
  digest e.serialize

end Epoch

structure BlockHeader where
  prevBlockHash : CryptoHash
  blockHeight : BlockHeight
  hostHeight : HostHeight
  timestampNs : NonZeroU64
  stateRoot : CryptoHash
  epochId : CryptoHash
  nextEpochCommitment : Option CryptoHash
  deriving DecidableEq

structure Block (PK : Type) where
  header : BlockHeader
  nextEpoch : Option (Epoch PK)
  deriving DecidableEq

namespace Block

inductive GenerateError where
  | badHostHeight
  | badHostTimestamp
  deriving DecidableEq

end Block

namespace BlockHeader

def generateGenesis (blockHeight : BlockHeight) (hostHeight : HostHeight) (timestampNs : NonZeroU64)
    (stateRoot nextEpochCommitment : CryptoHash) : BlockHeader where
  prevBlockHash := CryptoHash.default
  blockHeight := blockHeight
  hostHeight := hostHeight
  timestampNs := timestampNs
  stateRoot := stateRoot
  epochId := CryptoHash.default
  nextEpochCommitment := some nextEpochCommitment

def isGenesis (h : BlockHeader) : Bool :=
  h.prevBlockHash = CryptoHash.default && h.epochId = CryptoHash.default

def serialize (h : BlockHeader) : List Byte :=
  0#8 :: h.prevBlockHash.bytes ++ leBytes 8 h.blockHeight.val ++ leBytes 8 h.hostHeight.val ++
    leBytes 8 h.timestampNs.get ++ h.stateRoot.bytes ++ h.epochId.bytes ++
    match h.nextEpochCommitment with
    | none => [0#8]
    | some commitment => 1#8 :: commitment.bytes

variable (digest : List Byte → CryptoHash)

/-- Calculates hash of the block. -/
def calcHash (h : BlockHeader) : CryptoHash := digest h.serialize

/-- Epoch of the block after `h`: the one `h` defines or else its own. -/
def followingEpochId (h : BlockHeader) : CryptoHash :=
  match h.nextEpochCommitment.isSome with
  | false => h.epochId
  | true => h.calcHash digest

/-- Constructs next block; the missing value is a panic. -/
def generateNext {PK : Type} [PubKey PK] (h : BlockHeader) (hostHeight : HostHeight)
    (timestampNs : NonZeroU64) (stateRoot : CryptoHash) (nextEpoch : Option (Epoch PK)) :
    Option (Except Block.GenerateError (Block PK)) :=
  if hostHeight ≤ h.hostHeight then some (.error .badHostHeight)
  else if timestampNs ≤ h.timestampNs then some (.error .badHostTimestamp)
  else do
    let blockHeight ← h.blockHeight.next
    return .ok
      { header :=
          { prevBlockHash := h.calcHash digest
            blockHeight
            hostHeight
            timestampNs
            stateRoot
            epochId := h.followingEpochId digest
            nextEpochCommitment := nextEpoch.map (Epoch.calcCommitment digest) }
        nextEpoch }

/-- What `generateNext` verifies and computes about two blocks in a row. -/
structure Follows (prev h : BlockHeader) : Prop where
  prevBlockHash : h.prevBlockHash = prev.calcHash digest
  blockHeight : h.blockHeight.val = prev.blockHeight.val + 1
  hostHeight : prev.hostHeight < h.hostHeight
  timestampNs : prev.timestampNs < h.timestampNs

variable {digest}

theorem generateNext_ok {PK : Type} [PubKey PK] {h : BlockHeader} {hostHeight : HostHeight}
    {timestampNs : NonZeroU64} {stateRoot : CryptoHash} {nextEpoch : Option (Epoch PK)}
    {b : Block PK}
    (hb : h.generateNext digest hostHeight timestampNs stateRoot nextEpoch = some (.ok b)) :
    Follows digest h b.header ∧ b.header.epochId = h.followingEpochId digest ∧
      b.nextEpoch = nextEpoch ∧
      b.header.nextEpochCommitment = nextEpoch.map (Epoch.calcCommitment digest) := by
  unfold generateNext at hb
  split at hb
  · cases hb
  · rename_i hhost
    split at hb
    · cases hb
    · rename_i htime
      cases hnext : h.blockHeight.next with
      | none =>
        rw [hnext] at hb
        cases hb
      | some blockHeight =>
        rw [hnext] at hb
        cases hb
        exact ⟨⟨rfl, Height.next_val hnext, not_le.mp hhost, not_le.mp htime⟩, rfl, rfl, rfl⟩

/-- The new block is of the host's block and commits to the state. -/
theorem generateNext_host {PK : Type} [PubKey PK] {h : BlockHeader} {hostHeight : HostHeight}
    {timestampNs : NonZeroU64} {stateRoot : CryptoHash} {nextEpoch : Option (Epoch PK)}
    {b : Block PK}
    (hb : h.generateNext digest hostHeight timestampNs stateRoot nextEpoch = some (.ok b)) :
    b.header.hostHeight = hostHeight ∧ b.header.stateRoot = stateRoot := by
  unfold generateNext at hb
  split at hb
  · cases hb
  · split at hb
    · cases hb
    · obtain ⟨blockHeight, -, hb⟩ := Option.bind_eq_some_iff.mp hb
      cases hb
      exact ⟨rfl, rfl⟩

end BlockHeader

/-- Constructs a new genesis block. -/
def Block.generateGenesis {PK : Type} [PubKey PK] (digest : List Byte → CryptoHash)
    (blockHeight : BlockHeight) (hostHeight : HostHeight) (timestampNs : NonZeroU64)
    (stateRoot : CryptoHash) (nextEpoch : Epoch PK) : Block PK where
  header := BlockHeader.generateGenesis blockHeight hostHeight timestampNs stateRoot
    (nextEpoch.calcCommitment digest)
  nextEpoch := some nextEpoch

/-- What validators sign: genesis hash, block height and block hash. -/
structure Fingerprint where
  bytes : List Byte
  size : bytes.length = 72

namespace Fingerprint

theorem bytes_eq_iff (fp fp' : Fingerprint) : fp.bytes = fp'.bytes ↔ fp = fp' := by
  constructor
  · intro h
    cases fp
    cases fp'
    cases h
    rfl
  · exact congrArg bytes

instance decidableEq : DecidableEq Fingerprint := fun fp fp' =>
  decidable_of_iff (fp.bytes = fp'.bytes) (bytes_eq_iff fp fp')

theorem fromHash_size (genesisHash : CryptoHash) (blockHeight : BlockHeight)
    (blockHash : CryptoHash) :
    (genesisHash.bytes ++ leBytes 8 blockHeight.val ++ blockHash.bytes).length = 72 := by
  simp [genesisHash.size, blockHash.size]

def fromHash (genesisHash : CryptoHash) (blockHeight : BlockHeight) (blockHash : CryptoHash) :
    Fingerprint :=
  ⟨genesisHash.bytes ++ leBytes 8 blockHeight.val ++ blockHash.bytes,
    fromHash_size genesisHash blockHeight blockHash⟩

def new (digest : List Byte → CryptoHash) (genesisHash : CryptoHash) (header : BlockHeader) :
    Fingerprint :=
  fromHash genesisHash header.blockHeight (header.calcHash digest)

def verify {PK Sig : Type} (fp : Fingerprint) (pubkey : PK) (signature : Sig)
    (verifier : Verifier PK Sig) : Bool :=
  verifier fp.bytes pubkey signature

/-- Parses the fingerprint extracting genesis hash, block height and block hash. -/
def parse (bytes : List Byte) : List Byte × Nat × List Byte :=
  (bytes.take 32, ofLeBytes ((bytes.drop 32).take 8), bytes.drop 40)

end Fingerprint

abbrev MockPubKey := Fin (2 ^ 32)

instance MockPubKey.pubKey : PubKey MockPubKey :=
  { (inferInstance : LinearOrder MockPubKey) with serialize := fun pk => leBytes 4 pk.val }

structure MockSignature where
  fingerprint : Nat × Nat × Nat
  signer : MockPubKey
  deriving DecidableEq

namespace MockSignature

/-- First four bytes of the genesis hash, the height and first four of the block hash. -/
def shortFp (message : List Byte) : Nat × Nat × Nat :=
  let (genesis, height, hash) := Fingerprint.parse message
  (ofLeBytes (genesis.take 4).reverse, height, ofLeBytes (hash.take 4).reverse)

def verify : Verifier MockPubKey MockSignature := fun message pubkey signature =>
  signature.fingerprint = shortFp message && signature.signer = pubkey

end MockSignature

end GuestChain
