import EmulatedLightClient.FailingState
import EmulatedLightClient.LinearMaps
import EmulatedLightClient.Nodes
import EmulatedLightClient.TrieIds
import Mathlib.Data.Option.Basic

/-!
# The store of the IBC host

Connections, channels, sequences and clients are kept in the private storage, with
a hash of each in the trie; commitments, receipts and acknowledgements only in the
trie. The trie is taken as a map from keys to hashes.
-/

namespace SolanaIbc.Storage

open AsciiText ByteBits FailingState LinearMaps MachineInts Nodes TrieIds

/-- Values with their borsh encoding, which is kept, and their protobuf encoding,
which is hashed. -/
class Codec (T : Type) where
  toVec : T → Option (List Byte)
  tryFromSlice : List Byte → Option T
  encodeVec : T → List Byte
  tryFromSlice_toVec : ∀ v bytes, toVec v = some bytes → tryFromSlice bytes = some v

theorem head?_of_singleton (b : Byte) (bytes : List Byte) (h : some [b] = some bytes) : bytes.head? = some b := by
  cases Option.some.inj h
  rfl

/-- A byte is its own encoding. -/
instance byteCodec : Codec Byte := ⟨fun b => some [b], List.head?, fun b => [b], head?_of_singleton⟩

inductive ContextError where
  | clientStateNotFound (clientId : List Byte)
  | consensusStateNotFound (clientId : List Byte) (height : IbcHeight)
  | invalidHeight
  | connectionNotFound (connectionId : List Byte)
  | channelNotFound (portId channelId : List Byte)
  | missingNextSeq (kind : SequenceKind) (portId channelId : List Byte)
  | packetCommitmentNotFound (sequence : Fin (2 ^ 64))
  | packetReceiptNotFound (sequence : Fin (2 ^ 64))
  | packetAcknowledgementNotFound (sequence : Fin (2 ^ 64))
  /-- A value which borsh cannot encode or decode. -/
  | clientSpecific
  /-- The chain is not initialised. -/
  | other
  | panic
deriving DecidableEq

def orError {α : Type} (x : Option α) (e : ContextError) : Except ContextError α := x.elim (.error e) .ok

theorem orError_ok {α : Type} {x : Option α} {e : ContextError} {a : α} : orError x e = .ok a ↔ x = some a := by
  cases x with
  | none => simp [orError]
  | some b => simp [orError]

structure SequenceTriple where
  sequences : SequenceKind → Option (NonZero 64)

namespace SequenceTriple

def default : SequenceTriple := ⟨fun _ => none⟩

def get (t : SequenceTriple) (idx : SequenceKind) : Option Nat := (t.sequences idx).map (·.get)

/-- Setting a sequence to zero removes it. -/
def set (t : SequenceTriple) (idx : SequenceKind) (seq : Fin (2 ^ 64)) : SequenceTriple :=
  ⟨Function.update t.sequences idx (NonZero.new seq)⟩

def bytes (t : SequenceTriple) (idx : SequenceKind) : List Byte := beBytes 8 ((t.get idx).getD 0)

theorem length_toHash (t : SequenceTriple) :
    (t.bytes .send ++ t.bytes .recv ++ t.bytes .ack ++ List.replicate 8 0#8).length = 32 := by
  simp [bytes]

def toHash (t : SequenceTriple) : CryptoHash :=
  ⟨t.bytes .send ++ t.bytes .recv ++ t.bytes .ack ++ List.replicate 8 0#8, length_toHash t⟩

end SequenceTriple

/-- A serialised channel end, empty until it is set, and the sequences. -/
structure PortChannelStore where
  channelEnd : List Byte
  nextSequence : SequenceTriple

def PortChannelStore.default : PortChannelStore := ⟨[], .default⟩

/-- Processed time, processed height and the serialised state. -/
structure ClientConsensusState where
  bytes : List Byte

section

variable {S : Type} [Codec S]

def ClientConsensusState.new (processedTime : NonZero 64) (processedHeight : Fin (2 ^ 64)) (state : S) :
    Option ClientConsensusState :=
  (Codec.toVec state).map fun serialised =>
    ⟨leBytes 8 processedTime.get ++ leBytes 8 processedHeight.val ++ serialised⟩

variable (S) in
def ClientConsensusState.state (s : ClientConsensusState) : Option S := Codec.tryFromSlice (s.bytes.drop 16)

end

structure ClientStore where
  clientId : List Byte
  consensusStates : LinearMap IbcHeight ClientConsensusState

structure PrivateStorage where
  clients : List ClientStore
  connections : List (List Byte)
  portChannel : LinearMap PortChannelPK PortChannelStore

structure IbcStorage where
  priv : PrivateStorage
  provable : List Byte → Option CryptoHash

namespace IbcStorage

def setProvable (s : IbcStorage) (key : List Byte) (value : Option CryptoHash) : IbcStorage :=
  { s with provable := Function.update s.provable key value }

variable (digest : List Byte → CryptoHash)

section

variable {C E : Type} [Codec C] [Codec E] (s : IbcStorage)

/-- A connection is replaced or is the next one. -/
def putConnection (connections : List (List Byte)) (index : Nat) (serialised : List Byte) :
    Option (List (List Byte)) :=
  if index < connections.length then some (connections.set index serialised)
  else if index = connections.length then some (connections ++ [serialised])
  else none

def storeConnection (connectionId : List Byte) (connectionEnd : C) : Except ContextError IbcStorage := do
  let connection ← orError (ConnectionIdx.tryFrom connectionId) (.connectionNotFound connectionId)
  let serialised ← orError (Codec.toVec connectionEnd) .clientSpecific
  let hash := digest (Codec.encodeVec connectionEnd)
  let connections ← orError (putConnection s.priv.connections connection.val serialised)
    (.connectionNotFound connectionId)
  let s := { s with priv := { s.priv with connections } }
  return s.setProvable (TrieKey.forConnection connection) (some hash)

variable (C) in
def connectionEnd (connectionId : List Byte) : Except ContextError C := do
  let idx ← orError (ConnectionIdx.tryFrom connectionId) (.connectionNotFound connectionId)
  let serialised ← orError s.priv.connections[idx.val]? (.connectionNotFound connectionId)
  orError (Codec.tryFromSlice serialised) .clientSpecific

def portChannelPK (portId channelId : List Byte) : Except ContextError PortChannelPK :=
  orError (PortChannelPK.tryFrom portId channelId) (.channelNotFound portId channelId)

def storeChannel (portId channelId : List Byte) (channelEnd : E) : Except ContextError IbcStorage := do
  let portChannel ← portChannelPK portId channelId
  let hash := digest (Codec.encodeVec channelEnd)
  let serialised ← orError (Codec.toVec channelEnd) .clientSpecific
  let portChannels := s.priv.portChannel.upsert portChannel .default fun store =>
    { store with channelEnd := serialised }
  let s := { s with priv := { s.priv with portChannel := portChannels } }
  return s.setProvable (TrieKey.forChannelEnd portChannel) (some hash)

variable (E) in
def channelEnd (portId channelId : List Byte) : Except ContextError E := do
  let key ← portChannelPK portId channelId
  let store ← orError (s.priv.portChannel.get key) (.channelNotFound portId channelId)
  if store.channelEnd.isEmpty then .error (.channelNotFound portId channelId)
  else orError (Codec.tryFromSlice store.channelEnd) .clientSpecific

def storeNextSequence (kind : SequenceKind) (portId channelId : List Byte) (seq : Fin (2 ^ 64)) :
    Except ContextError IbcStorage := do
  let key ← portChannelPK portId channelId
  let triple := ((s.priv.portChannel.get key).getD .default).nextSequence.set kind seq
  let portChannel := s.priv.portChannel.upsert key .default fun store => { store with nextSequence := triple }
  let s := { s with priv := { s.priv with portChannel } }
  return s.setProvable (TrieKey.forNextSequence key) (some triple.toHash)

def getNextSequence (kind : SequenceKind) (portId channelId : List Byte) : Except ContextError Nat := do
  let key ← portChannelPK portId channelId
  orError ((s.priv.portChannel.get key).bind fun store => store.nextSequence.get kind)
    (.missingNextSeq kind portId channelId)

def packetKey (tag : Tag) (portId channelId : List Byte) (sequence : Fin (2 ^ 64)) :
    Except ContextError (List Byte) :=
  orError (TrieKey.tryForSequencePath tag portId channelId sequence) (.channelNotFound portId channelId)

def storeCommitment (tag : Tag) (portId channelId : List Byte) (sequence : Fin (2 ^ 64))
    (commitment : CryptoHash) : Except ContextError IbcStorage := do
  let key ← packetKey tag portId channelId sequence
  return s.setProvable key (some commitment)

def deleteCommitment (tag : Tag) (portId channelId : List Byte) (sequence : Fin (2 ^ 64)) :
    Except ContextError IbcStorage := do
  let key ← packetKey tag portId channelId sequence
  return s.setProvable key none

def storePacketCommitment (portId channelId : List Byte) (sequence : Fin (2 ^ 64)) (commitment : CryptoHash) :
    Except ContextError IbcStorage :=
  s.storeCommitment .commitment portId channelId sequence commitment

def deletePacketCommitment (portId channelId : List Byte) (sequence : Fin (2 ^ 64)) :
    Except ContextError IbcStorage :=
  s.deleteCommitment .commitment portId channelId sequence

/-- A receipt is the hash which is all zeros. -/
def storePacketReceipt (portId channelId : List Byte) (sequence : Fin (2 ^ 64)) :
    Except ContextError IbcStorage :=
  s.storeCommitment .receipt portId channelId sequence CryptoHash.default

def storePacketAcknowledgement (portId channelId : List Byte) (sequence : Fin (2 ^ 64))
    (commitment : CryptoHash) : Except ContextError IbcStorage :=
  s.storeCommitment .ack portId channelId sequence commitment

def deletePacketAcknowledgement (portId channelId : List Byte) (sequence : Fin (2 ^ 64)) :
    Except ContextError IbcStorage :=
  s.deleteCommitment .ack portId channelId sequence

def getPacketCommitment (portId channelId : List Byte) (sequence : Fin (2 ^ 64)) :
    Except ContextError CryptoHash := do
  let key ← packetKey .commitment portId channelId sequence
  orError (s.provable key) (.packetCommitmentNotFound sequence)

def getPacketReceipt (portId channelId : List Byte) (sequence : Fin (2 ^ 64)) : Except ContextError Unit := do
  let key ← packetKey .receipt portId channelId sequence
  if s.provable key = some CryptoHash.default then .ok () else .error (.packetReceiptNotFound sequence)

def getPacketAcknowledgement (portId channelId : List Byte) (sequence : Fin (2 ^ 64)) :
    Except ContextError CryptoHash := do
  let key ← packetKey .ack portId channelId sequence
  orError (s.provable key) (.packetAcknowledgementNotFound sequence)

end

def maxConsensusStates : Nat := 64

def maxHeight : IbcHeight := ⟨Fin.last _, Fin.last _⟩

theorem le_maxHeight (h : IbcHeight) : h ≤ maxHeight := by
  rw [← not_lt, IbcHeight.lt_iff]
  rintro (hlt | ⟨-, hlt⟩)
  · exact absurd hlt (Fin.not_lt.mpr (Fin.le_last _))
  · exact absurd hlt (Fin.not_lt.mpr (Fin.le_last _))

/-- Position of the lowest of the heights below `best`, if there is one. -/
def minIdx : Nat → IbcHeight → Option Nat → List IbcHeight → Option Nat
  | _, _, found, [] => found
  | idx, best, found, h :: hs =>
    if h.blt best then minIdx (idx + 1) h (some idx) hs else minIdx (idx + 1) best found hs

/-- At most `maxConsensusStates` are kept; the one with the lowest height gives way.
The source looks for the height and the lowest one in one pass. -/
def insertConsensusState (states : LinearMap IbcHeight ClientConsensusState) (height : IbcHeight)
    (state : ClientConsensusState) : Option (LinearMap IbcHeight ClientConsensusState) :=
  if height ∈ states.keys then some (states.upsert height state fun _ => state)
  else if states.length < maxConsensusStates then some (states ++ [(height, state)])
  else (minIdx 0 maxHeight none states.keys).map fun idx => states.set idx (height, state)

def digestWithClientId (clientId value : List Byte) : CryptoHash := digest (clientId ++ 0#8 :: value)

def clientMut (s : IbcStorage) (clientId : List Byte) : Except ContextError (Counter × ClientStore) :=
  orError (do
    let index ← ClientIdx.tryFrom clientId
    let store ← s.priv.clients[index.val]?
    guard (store.clientId = clientId)
    return (index, store)) (.clientStateNotFound clientId)

def setConsensusStates (s : IbcStorage) (index : Counter) (client : ClientStore)
    (consensusStates : LinearMap IbcHeight ClientConsensusState) : IbcStorage :=
  { s with priv := { s.priv with clients := s.priv.clients.set index.val { client with consensusStates } } }

section

variable {S : Type} [Codec S]

/-- `head` has the timestamp and the height of the chain's last block. -/
def storeConsensusStateImpl (s : IbcStorage) (head : Option (NonZero 64 × Fin (2 ^ 64))) (clientId : List Byte)
    (height : IbcHeight) (state : S) : Except ContextError IbcStorage := do
  let (processedTime, processedHeight) ← orError head .other
  let hash := digestWithClientId digest clientId (Codec.encodeVec state)
  let (index, client) ← s.clientMut clientId
  let state ← orError (ClientConsensusState.new processedTime processedHeight state) .clientSpecific
  let consensusStates ← orError (insertConsensusState client.consensusStates height state) .panic
  let s := s.setConsensusStates index client consensusStates
  return s.setProvable (TrieKey.forConsensusState index height) (some hash)

def deleteConsensusStateImpl (s : IbcStorage) (clientId : List Byte) (height : IbcHeight) :
    Except ContextError IbcStorage := do
  let (index, client) ← s.clientMut clientId
  let s := s.setConsensusStates index client (client.consensusStates.remove height)
  return s.setProvable (TrieKey.forConsensusState index height) none

def storeConsensusState (s : IbcStorage) (head : Option (NonZero 64 × Fin (2 ^ 64))) (clientId : List Byte)
    (revisionNumber revisionHeight : Fin (2 ^ 64)) (state : S) : Except ContextError IbcStorage := do
  let height ← orError (IbcHeight.new revisionNumber revisionHeight) .invalidHeight
  s.storeConsensusStateImpl digest head clientId height state

def deleteConsensusState (s : IbcStorage) (clientId : List Byte) (revisionNumber revisionHeight : Fin (2 ^ 64)) :
    Except ContextError IbcStorage := do
  let height ← orError (IbcHeight.new revisionNumber revisionHeight) .invalidHeight
  s.deleteConsensusStateImpl clientId height

end

end IbcStorage

end SolanaIbc.Storage
