import EmulatedLightClient.MachineInts
import EmulatedLightClient.MerkleCodec

/-!
# Headers of the Solana client

A header carries the data of the witness account with proofs that lead from it to the bank hash. Headers
and messages about misbehaviour come as protocol messages, in which fields may be left out.
-/

namespace CfSolana

open ByteBits MachineInts Nodes Buffers

/-- Length of account hash data for account with data of given length. -/
def AccountHashData.lengthFor (dataLen : Nat) : Nat := 8 + 8 + dataLen + 1 + 32 + 32

/-- Data that goes into account's hash: lamports, rent epoch, data, executable flag, owner and key. -/
structure AccountHashData where
  bytes : List Byte
  long : AccountHashData.lengthFor 0 ≤ bytes.length

namespace AccountHashData

def tryFrom (bytes : List Byte) : Option AccountHashData :=
  if h : lengthFor 0 ≤ bytes.length then some ⟨bytes, h⟩ else none

theorem long_new (lamports rentEpoch : Fin (2 ^ 64)) (owner pubkey : CryptoHash) (executable : Bool) (data : List Byte) :
    lengthFor 0 ≤ (leBytes 8 lamports ++ leBytes 8 rentEpoch ++ data ++ [if executable then 1#8 else 0#8] ++
      owner.bytes ++ pubkey.bytes).length := by
  simp only [List.length_append, length_leBytes, owner.size, pubkey.size, List.length_singleton, lengthFor]
  omega

def new (lamports : Fin (2 ^ 64)) (owner : CryptoHash) (executable : Bool) (rentEpoch : Fin (2 ^ 64)) (data : List Byte)
    (pubkey : CryptoHash) : AccountHashData :=
  ⟨leBytes 8 lamports ++ leBytes 8 rentEpoch ++ data ++ [if executable then 1#8 else 0#8] ++ owner.bytes ++ pubkey.bytes,
    long_new lamports rentEpoch owner pubkey executable data⟩

/-- Data stored on the account. -/
def data (d : AccountHashData) : List Byte := slice d.bytes 16 (d.bytes.length - 65 - 16)

theorem tryFrom_bytes (d : AccountHashData) : tryFrom d.bytes = some d := dif_pos d.long

theorem tryFrom_eq_none_iff {bytes : List Byte} : tryFrom bytes = none ↔ bytes.length < lengthFor 0 := by
  unfold tryFrom
  split
  · rename_i h
    exact iff_of_false nofun (not_lt.mpr h)
  · rename_i h
    exact iff_of_true rfl (not_le.mp h)

end AccountHashData

/-- Proof of an account's state. Merkle proofs are made by adding levels or by reading them from bytes, so
they always have levels. -/
structure AccountProof where
  accountHashData : AccountHashData
  proof : MerkleProof
  levels : proof.levels.isSome

/-- Proof of accounts delta hash. -/
structure DeltaHashProof where
  parentBlockhash : CryptoHash
  accountsDeltaHash : CryptoHash
  numSigs : Fin (2 ^ 64)
  blockhash : CryptoHash
  epochAccountsHash : Option CryptoHash

namespace DeltaHashProof

def toBinary (p : DeltaHashProof) : List Byte :=
  p.parentBlockhash.bytes ++ p.accountsDeltaHash.bytes ++ leBytes 8 p.numSigs ++ p.blockhash.bytes ++
    (p.epochAccountsHash.map (·.bytes)).getD []

/-- The part which does not depend on the epoch. -/
def ofShort (short : List Byte) : Option DeltaHashProof := do
  let parentBlockhash ← CryptoHash.tryFrom (slice short 0 32)
  let accountsDeltaHash ← CryptoHash.tryFrom (slice short 32 32)
  let blockhash ← CryptoHash.tryFrom (slice short 72 32)
  return { parentBlockhash, accountsDeltaHash, numSigs := Fin.ofNat (2 ^ 64) (ofLeBytes (slice short 64 8)), blockhash
           epochAccountsHash := none }

def fromBinary (bytes : List Byte) : Option DeltaHashProof :=
  if bytes.length = 104 then ofShort bytes
  else if bytes.length = 136 then do
    let p ← ofShort (slice bytes 0 104)
    let hash ← CryptoHash.tryFrom (slice bytes 104 32)
    return { p with epochAccountsHash := some hash }
  else none

end DeltaHashProof

/-- The consensus header of the rollup. -/
structure Header where
  slot : NonZero 64
  bankHash : CryptoHash
  deltaHashProof : DeltaHashProof
  witnessProof : AccountProof

namespace Header

def timestampMask : Nat := 0xffffffffffff

/-- Root of the sealable trie and the block timestamp in seconds, if the witness account has the
format expected. -/
def decodeWitness (h : Header) : Option (CryptoHash × NonZero 64) :=
  let data := h.witnessProof.accountHashData.data
  if data.length = 40 then
    let rest := data.drop 32
    if rest[7]? = some 0#8 then do
      let root ← CryptoHash.tryFrom (data.take 32)
      let timestamp ← NonZero.new (Fin.ofNat (2 ^ 64) (ofLeBytes rest &&& timestampMask))
      return (root, timestamp)
    else none
  else none

end Header

/-- A header with witness account with given data. -/
def Header.test (slot : NonZero 64) (data : List Byte) : Header where
  slot := slot
  bankHash := CryptoHash.default
  deltaHashProof := ⟨CryptoHash.default, CryptoHash.default, Fin.last (2 ^ 64 - 1), CryptoHash.default, none⟩
  witnessProof :=
    { accountHashData := AccountHashData.new (Fin.last (2 ^ 64 - 1)) CryptoHash.default false (Fin.last (2 ^ 64 - 1)) data
        CryptoHash.default
      proof := MerkleProof.default
      levels := MerkleProof.Built.default.levels }

structure Misbehaviour where
  header1 : Header
  header2 : Header

inductive ClientMessage where
  | header (msg : Header)
  | misbehaviour (msg : Misbehaviour)

namespace Proto

/-- Fields left out are zero or empty. -/
structure Header where
  slot : Fin (2 ^ 64)
  bankHash : List Byte
  deltaHashProof : List Byte
  accountHashData : List Byte
  accountMerkleProof : List Byte
  deriving DecidableEq

structure Misbehaviour where
  header1 : Option Header
  header2 : Option Header

inductive Message where
  | header (msg : Header)
  | misbehaviour (msg : Misbehaviour)

structure ClientMessage where
  message : Option Message

inductive BadMessage where
  | badMessage
  deriving DecidableEq

/-- Errors of decoding; the first kind comes with the error of the parser of the wire format. -/
inductive DecodeError (ε : Type) where
  | badProto (err : ε)
  | badMessage
  | badType

def Header.ibcTypeUrl : List Char := "/lightclients.solana.v1.Header".toList

def Misbehaviour.ibcTypeUrl : List Char := "/lightclients.solana.v1.Misbehaviour".toList

def ClientMessage.ibcTypeUrl : List Char := "/lightclients.solana.v1.ClientMessage".toList

/-- The parser of the wire format. -/
structure Wire (ε : Type) where
  header : List Byte → Except ε Header
  misbehaviour : List Byte → Except ε Misbehaviour
  clientMessage : List Byte → Except ε ClientMessage

/-- The bank hash is cleared if it is the same; the macro this comes from is given a field but always
compares and clears this one. -/
def dedup (hdr1 hdr2 : Header) : Header :=
  if hdr1.bankHash = hdr2.bankHash then { hdr2 with bankHash := [] } else hdr2

def Misbehaviour.new (header1 header2 : Header) : Misbehaviour :=
  let header2 := dedup header1 header2
  let header2 := dedup header1 header2
  let header2 := dedup header1 header2
  let header2 := dedup header1 header2
  ⟨some header1, some header2⟩

end Proto

/-- Conversions fail with `BadMessage`; the missing value is a panic. -/
abbrev Conversion (α : Type) := ExceptT Proto.BadMessage Option α

def okOr {α : Type} : Option α → Conversion α
  | some a => pure a
  | none => throw .badMessage

namespace Header

def toProto (h : Header) : Proto.Header where
  slot := ⟨h.slot.get, h.slot.lt⟩
  bankHash := h.bankHash.bytes
  deltaHashProof := h.deltaHashProof.toBinary
  accountHashData := h.witnessProof.accountHashData.bytes
  accountMerkleProof := h.witnessProof.proof.toBinary

/-- The field if it is there, or else the one of the base. -/
def pick (field : Proto.Header → List Byte) (msg : Proto.Header) (base : Option Proto.Header) : Conversion (List Byte) :=
  okOr (((some (field msg)).filter (· ≠ [])).or ((base.map field).filter (· ≠ [])))

/-- Reading a proof panics or gives a proof with levels. -/
def readProof (bytes : List Byte) : Conversion { p : MerkleProof // p.levels.isSome } :=
  match h : MerkleProof.fromBinary bytes with
  | none => ExceptT.mk none
  | some none => throw .badMessage
  | some (some p) => pure ⟨p, (MerkleProof.fromBinary_some h).2⟩

/-- Constructs a header, inheriting missing fields from the base. -/
def tryFromProto (msg : Proto.Header) (accountHashData : Option (List Byte)) (base : Option Proto.Header) :
    Conversion Header := do
  let slot ← okOr ((NonZero.new msg.slot).or (base.bind fun msg => NonZero.new msg.slot))
  let bankHash ← okOr (CryptoHash.tryFrom (← pick (·.bankHash) msg base))
  let deltaHashProof ← okOr (DeltaHashProof.fromBinary (← pick (·.deltaHashProof) msg base))
  let accountHashData ←
    match accountHashData with
    | some bytes => okOr (AccountHashData.tryFrom bytes)
    | none => okOr (AccountHashData.tryFrom (← pick (·.accountHashData) msg base))
  let proof ← readProof (← pick (·.accountMerkleProof) msg base)
  return { slot, bankHash, deltaHashProof, witnessProof := ⟨accountHashData, proof.1, proof.2⟩ }

/-- Conversion of an owned message, from which the account data are taken. -/
def tryFromOwned (msg : Proto.Header) : Conversion Header :=
  tryFromProto { msg with accountHashData := [] } (some msg.accountHashData) none

def tryFromRef (msg : Proto.Header) : Conversion Header := tryFromProto msg none none

end Header

namespace Misbehaviour

def toProto (m : Misbehaviour) : Proto.Misbehaviour := Proto.Misbehaviour.new m.header1.toProto m.header2.toProto

/-- Conversion of an owned message, from which the account data are taken. -/
def tryFromOwned (msg : Proto.Misbehaviour) : Conversion Misbehaviour := do
  let header1 ← okOr msg.header1
  let header2 ← okOr msg.header2
  let accountHashData := header2.accountHashData
  let header2 ← Header.tryFromProto { header2 with accountHashData := [] } (some accountHashData) (some header1)
  let header1 ← Header.tryFromOwned header1
  return ⟨header1, header2⟩

def tryFromRef (msg : Proto.Misbehaviour) : Conversion Misbehaviour := do
  let header1 ← okOr msg.header1
  let header2 ← okOr msg.header2
  let header2 ← Header.tryFromProto header2 none (some header1)
  let header1 ← Header.tryFromRef header1
  return ⟨header1, header2⟩

end Misbehaviour

/-- Messages wrapped in a client message are always converted from borrowed ones. -/
def ClientMessage.tryFrom (msg : Proto.ClientMessage) : Conversion ClientMessage := do
  match ← okOr msg.message with
  | .header msg => .header <$> Header.tryFromRef msg
  | .misbehaviour msg => .misbehaviour <$> Misbehaviour.tryFromRef msg

abbrev Decoding (ε α : Type) := ExceptT (Proto.DecodeError ε) Option α

/-- Parses the bytes and converts the message, which is owned. -/
def decodeWith {ε M α : Type} (parse : List Byte → Except ε M) (convert : M → Conversion α) (buf : List Byte) :
    Decoding ε α := do
  let msg ← ExceptT.mk (some ((parse buf).mapError .badProto))
  (convert msg).adapt fun _ => .badMessage

variable {ε : Type} (W : Proto.Wire ε)

def Header.decode (buf : List Byte) : Decoding ε Header := decodeWith W.header Header.tryFromOwned buf

def Misbehaviour.decode (buf : List Byte) : Decoding ε Misbehaviour :=
  decodeWith W.misbehaviour Misbehaviour.tryFromOwned buf

def ClientMessage.decode (buf : List Byte) : Decoding ε ClientMessage :=
  decodeWith W.clientMessage ClientMessage.tryFrom buf

/-- Headers and misbehaviour also come without being wrapped. -/
def ClientMessage.tryFromAny (typeUrl : List Char) (value : List Byte) : Decoding ε ClientMessage :=
  if Proto.ClientMessage.ibcTypeUrl.isSuffixOf typeUrl then ClientMessage.decode W value
  else if Proto.Header.ibcTypeUrl.isSuffixOf typeUrl then .header <$> Header.decode W value
  else if Proto.Misbehaviour.ibcTypeUrl.isSuffixOf typeUrl then .misbehaviour <$> Misbehaviour.decode W value
  else throw .badType

end CfSolana
