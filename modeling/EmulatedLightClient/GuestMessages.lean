import EmulatedLightClient.EpochCodec
import EmulatedLightClient.HeaderVerification
import EmulatedLightClient.SignatureVerifier

/-!
# Protocol messages of the guest client

The hashes of a header which has been received are hashes of bytes of the message, not of what has been
read from them. They are right since the bytes which are accepted are those the values are serialised to.
A second header may leave out what it has in common with the first.
-/

namespace CfGuest

open ByteBits MachineInts Nodes GuestChain Readers TrieProof

namespace Proto

/-- Fields left out are zero or empty. -/
structure Signature where
  index : Fin (2 ^ 32)
  signature : List Byte

structure Header where
  genesisHash : List Byte
  blockHeader : List Byte
  epoch : List Byte
  signatures : List Signature

structure Misbehaviour where
  header1 : Option Header
  header2 : Option Header

structure ClientState where
  genesisHash : List Byte
  latestHeight : Fin (2 ^ 64)
  trustingPeriodNs : Nat
  epochCommitment : List Byte
  prevEpochCommitment : List Byte
  isFrozen : Bool

inductive Message where
  | header (msg : Header)
  | misbehaviour (msg : Misbehaviour)

structure ClientMessage where
  message : Option Message

end Proto

/-- How keys are read in Borsh and how signatures are turned into bytes and back. -/
structure KeyCodec (PK Sig : Type) where
  readPubKey : ByteReader PK
  toVec : Sig → List Byte
  fromBytes : List Byte → Option Sig

/-! A missing value is a panic: Borsh has four bytes for the number of validators. -/

section

variable {PK Sig : Type} [PubKey PK] (codec : KeyCodec PK Sig)

def epochToVec (epoch : Epoch PK) : Option (List Byte) :=
  if epoch.validators.length < 2 ^ 32 then some epoch.serialize else none

def signatureToProto (signature : Fin (2 ^ 16) × Sig) : Proto.Signature where
  index := Fin.ofNat (2 ^ 32) signature.1.val
  signature := codec.toVec signature.2

def Header.toProto (header : Header PK Sig) : Option Proto.Header := do
  let epoch ← epochToVec header.epoch
  return {
    genesisHash := header.genesisHash.bytes
    blockHeader := header.blockHeader.serialize
    epoch
    signatures := header.signatures.map (signatureToProto codec) }

/-- Genesis hash and epoch of the second header are cleared if they are those of the first. -/
def dedup (header1 header2 : Proto.Header) : Proto.Header :=
  let header2 := if header1.genesisHash = header2.genesisHash then { header2 with genesisHash := [] } else header2
  if header1.epoch = header2.epoch then { header2 with epoch := [] } else header2

def Misbehaviour.toProto (m : Misbehaviour PK Sig) : Option Proto.Misbehaviour := do
  let header1 ← m.header1.toProto codec
  let header2 ← m.header2.toProto codec
  return ⟨some header1, some (dedup header1 header2)⟩

def ClientMessage.toProto (msg : ClientMessage PK Sig) : Option Proto.ClientMessage :=
  match msg with
  | .header msg => (msg.toProto codec).map fun msg => ⟨some (.header msg)⟩
  | .misbehaviour msg => (msg.toProto codec).map fun msg => ⟨some (.misbehaviour msg)⟩

def ClientState.toProto (s : ClientState) : Proto.ClientState where
  genesisHash := s.genesisHash.bytes
  latestHeight := ⟨s.latestHeight.val, s.latestHeight.lt⟩
  trustingPeriodNs := s.trustingPeriodNs
  epochCommitment := s.epochCommitment.bytes
  prevEpochCommitment := if s.prevEpochCommitment = s.epochCommitment then [] else s.prevEpochCommitment.bytes
  isFrozen := s.isFrozen

end

/-! A missing value is `BadMessage`, the only error there is. -/

def u16TryFrom (n : Fin (2 ^ 32)) : Option (Fin (2 ^ 16)) :=
  if h : n.val < 2 ^ 16 then some ⟨n.val, h⟩ else none

section

variable {PK Sig : Type} (digest : List Byte → CryptoHash) (codec : KeyCodec PK Sig)

def signatureFromProto (msg : Proto.Signature) : Option (Fin (2 ^ 16) × Sig) := do
  let index ← u16TryFrom msg.index
  let signature ← codec.fromBytes msg.signature
  return (index, signature)

/-- The hash if there is one, or else the one given. -/
def hashOr (bytes : List Byte) (missing : Option CryptoHash) : Option CryptoHash :=
  if bytes = [] then missing else CryptoHash.tryFrom bytes

/-- The epoch and its commitment, or those of the base. -/
def epochOr (bytes : List Byte) (base : Option (Header PK Sig)) : Option (CryptoHash × Epoch PK) :=
  if bytes = [] then base.map fun base => (base.epochCommitment, base.epoch)
  else ((readEpoch codec.readPubKey).whole bytes).map fun epoch => (digest bytes, epoch)

/-- Constructs a header from a message; genesis hash and epoch which are missing are taken from the base. -/
def Header.tryFromImpl (msg : Proto.Header) (base : Option (Header PK Sig)) : Option (Header PK Sig) := do
  let genesisHash ← hashOr msg.genesisHash (base.map (·.genesisHash))
  let blockHeader ← readHeader.whole msg.blockHeader
  let blockHash := digest msg.blockHeader
  let (epochCommitment, epoch) ← epochOr digest codec msg.epoch base
  let signatures ← msg.signatures.mapM (signatureFromProto codec)
  return { genesisHash, blockHash, blockHeader, epochCommitment, epoch, signatures }

def Header.tryFrom (msg : Proto.Header) : Option (Header PK Sig) := Header.tryFromImpl digest codec msg none

def Header.tryFromProtoInherit (msg : Proto.Header) (base : Header PK Sig) : Option (Header PK Sig) :=
  Header.tryFromImpl digest codec msg (some base)

def Misbehaviour.tryFrom (msg : Proto.Misbehaviour) : Option (Misbehaviour PK Sig) := do
  let header1 ← Header.tryFrom digest codec (← msg.header1)
  let header2 ← Header.tryFromProtoInherit digest codec (← msg.header2) header1
  return ⟨header1, header2⟩

def ClientMessage.tryFrom (msg : Proto.ClientMessage) : Option (ClientMessage PK Sig) := do
  match ← msg.message with
  | .header msg => (Header.tryFrom digest codec msg).map .header
  | .misbehaviour msg => (Misbehaviour.tryFrom digest codec msg).map .misbehaviour

end

def ClientState.tryFrom (msg : Proto.ClientState) : Option ClientState := do
  let genesisHash ← CryptoHash.tryFrom msg.genesisHash
  let epochCommitment ← CryptoHash.tryFrom msg.epochCommitment
  let prevEpochCommitment ← hashOr msg.prevEpochCommitment (some epochCommitment)
  return {
    genesisHash
    latestHeight := ⟨msg.latestHeight.val, msg.latestHeight.isLt⟩
    trustingPeriodNs := msg.trustingPeriodNs
    epochCommitment, prevEpochCommitment
    isFrozen := msg.isFrozen }

section

variable {PK Sig : Type} [PubKey PK] {digest : List Byte → CryptoHash} {codec : KeyCodec PK Sig}

theorem hash_ne_nil (hash : CryptoHash) : hash.bytes ≠ [] := by
  intro h
  have hsize := hash.size
  rw [h] at hsize
  cases hsize

theorem epochToVec_eq_some {epoch : Epoch PK} {bytes : List Byte} :
    epochToVec epoch = some bytes ↔ epoch.validators.length < 2 ^ 32 ∧ epoch.serialize = bytes := by
  rw [epochToVec, Option.ite_none_right_eq_some, Option.some_inj]

theorem epoch_whole {readPubKey : ByteReader PK} (hpk : Reader.Reads readPubKey (fun _ => True) PubKey.serialize)
    {epoch : Epoch PK} {bytes : List Byte} :
    (readEpoch readPubKey).whole bytes = some epoch ↔ epochToVec epoch = some bytes := by
  rw [(readEpoch_reads hpk).whole_eq_some, epochToVec_eq_some, eq_comm (a := bytes)]

/-- What the fields of a header which has been accepted come from. -/
structure Header.From (digest : List Byte → CryptoHash) (msg : Proto.Header) (base : Option (Header PK Sig))
    (header : Header PK Sig) : Prop where
  genesisHash : if msg.genesisHash = [] then base.map (·.genesisHash) = some header.genesisHash
    else header.genesisHash.bytes = msg.genesisHash
  blockHeader : header.blockHeader.serialize = msg.blockHeader
  blockHash : header.blockHash = digest msg.blockHeader
  epoch : if msg.epoch = [] then base.map (fun base => (base.epochCommitment, base.epoch)) =
      some (header.epochCommitment, header.epoch)
    else epochToVec header.epoch = some msg.epoch ∧ header.epochCommitment = digest msg.epoch

theorem hashOr_eq_some {bytes : List Byte} {missing : Option CryptoHash} {hash : CryptoHash} :
    hashOr bytes missing = some hash ↔ if bytes = [] then missing = some hash else hash.bytes = bytes := by
  unfold hashOr
  split
  · exact Iff.rfl
  · constructor
    · exact CryptoHash.bytes_of_tryFrom
    · rintro rfl
      exact CryptoHash.tryFrom_bytes hash

theorem epochOr_eq_some (hpk : Reader.Reads codec.readPubKey (fun _ => True) PubKey.serialize) {bytes : List Byte}
    {base : Option (Header PK Sig)} {commitment : CryptoHash} {epoch : Epoch PK} :
    epochOr digest codec bytes base = some (commitment, epoch) ↔
      if bytes = [] then base.map (fun base => (base.epochCommitment, base.epoch)) = some (commitment, epoch)
      else epochToVec epoch = some bytes ∧ commitment = digest bytes := by
  unfold epochOr
  split
  · exact Iff.rfl
  · rw [Option.map_eq_some_iff]
    constructor
    · rintro ⟨epoch', hread, heq⟩
      cases heq
      exact ⟨(epoch_whole hpk).mp hread, rfl⟩
    · rintro ⟨hbytes, rfl⟩
      exact ⟨epoch, (epoch_whole hpk).mpr hbytes, rfl⟩

/-- Conversion of a header is told field by field. -/
theorem Header.tryFromImpl_eq_some (hpk : Reader.Reads codec.readPubKey (fun _ => True) PubKey.serialize)
    {msg : Proto.Header} {base : Option (Header PK Sig)} {header : Header PK Sig} :
    Header.tryFromImpl digest codec msg base = some header ↔ Header.From digest msg base header ∧
      msg.signatures.mapM (signatureFromProto codec) = some header.signatures := by
  unfold Header.tryFromImpl
  simp only [Option.bind_eq_bind, Option.bind_eq_some_iff, readHeader_reads.whole_eq_some, true_and]
  constructor
  · rintro ⟨genesisHash, hgenesis, blockHeader, hblock, ⟨commitment, epoch⟩, hepoch, signatures, hsigs, heq⟩
    cases heq
    exact ⟨⟨hashOr_eq_some.mp hgenesis, hblock.symm, rfl, (epochOr_eq_some hpk).mp hepoch⟩, hsigs⟩
  · rintro ⟨⟨hgenesis, hblock, hhash, hepoch⟩, hsigs⟩
    refine ⟨header.genesisHash, hashOr_eq_some.mpr hgenesis, header.blockHeader, hblock.symm,
      (header.epochCommitment, header.epoch), (epochOr_eq_some hpk).mpr hepoch, header.signatures, hsigs, ?_⟩
    rw [← hhash]
    rfl

/-- Hashes of accepted headers are right, if those of the base are. -/
theorem Header.From.derived {msg : Proto.Header} {base : Option (Header PK Sig)} {header : Header PK Sig}
    (h : Header.From digest msg base header) (hbase : ∀ b ∈ base, b.Derived digest) : header.Derived digest := by
  obtain ⟨-, hblock, hhash, hepoch⟩ := h
  refine ⟨?_, ?_⟩
  · rw [hhash, ← hblock]
    rfl
  · split at hepoch
    · obtain ⟨b, hb, heq⟩ := Option.map_eq_some_iff.mp hepoch
      obtain ⟨hcommitment, hsame⟩ := Prod.mk.inj heq
      rw [← hcommitment, ← hsame]
      exact (hbase b hb).epochCommitment
    · obtain ⟨hbytes, hcommitment⟩ := hepoch
      rw [hcommitment, ← (epochToVec_eq_some.mp hbytes).2]
      rfl

theorem Header.tryFrom_derived (hpk : Reader.Reads codec.readPubKey (fun _ => True) PubKey.serialize)
    {msg : Proto.Header} {header : Header PK Sig} (h : Header.tryFrom digest codec msg = some header) :
    header.Derived digest :=
  ((Header.tryFromImpl_eq_some hpk).mp h).1.derived nofun

/-- What the second header leaves out is taken from the first. -/
structure Misbehaviour.Inherits (msg : Proto.Misbehaviour) (m : Misbehaviour PK Sig) : Prop where
  genesisHash : ∀ msg2, msg.header2 = some msg2 → msg2.genesisHash = [] → m.header2.genesisHash = m.header1.genesisHash
  epoch : ∀ msg2, msg.header2 = some msg2 → msg2.epoch = [] →
    m.header2.epoch = m.header1.epoch ∧ m.header2.epochCommitment = m.header1.epochCommitment

omit [PubKey PK] in
theorem Misbehaviour.tryFrom_eq_some {msg : Proto.Misbehaviour} {m : Misbehaviour PK Sig} :
    Misbehaviour.tryFrom digest codec msg = some m ↔ ∃ msg1 msg2, msg.header1 = some msg1 ∧ msg.header2 = some msg2 ∧
      Header.tryFrom digest codec msg1 = some m.header1 ∧
      Header.tryFromProtoInherit digest codec msg2 m.header1 = some m.header2 := by
  unfold Misbehaviour.tryFrom
  simp only [Option.bind_eq_bind, Option.bind_eq_some_iff]
  constructor
  · rintro ⟨msg1, h1, header1, hread1, msg2, h2, header2, hread2, heq⟩
    cases heq
    exact ⟨msg1, msg2, h1, h2, hread1, hread2⟩
  · rintro ⟨msg1, msg2, h1, h2, hread1, hread2⟩
    exact ⟨msg1, h1, m.header1, hread1, msg2, h2, m.header2, hread2, rfl⟩

theorem Misbehaviour.tryFrom_derived (hpk : Reader.Reads codec.readPubKey (fun _ => True) PubKey.serialize)
    {msg : Proto.Misbehaviour} {m : Misbehaviour PK Sig} (h : Misbehaviour.tryFrom digest codec msg = some m) :
    m.header1.Derived digest ∧ m.header2.Derived digest ∧ m.Inherits msg := by
  obtain ⟨msg1, msg2, -, h2, hread1, hread2⟩ := Misbehaviour.tryFrom_eq_some.mp h
  have hderived := Header.tryFrom_derived hpk hread1
  have hfrom := ((Header.tryFromImpl_eq_some hpk).mp hread2).1
  refine ⟨hderived, hfrom.derived fun b hb => ?_, ⟨?_, ?_⟩⟩
  · cases hb
    exact hderived
  · intro msg2' h2' hnone
    cases h2.symm.trans h2'
    have hgenesis := hfrom.genesisHash
    rw [if_pos hnone] at hgenesis
    exact (Option.some.inj hgenesis).symm
  · intro msg2' h2' hnone
    cases h2.symm.trans h2'
    have hepoch := hfrom.epoch
    rw [if_pos hnone] at hepoch
    obtain ⟨hcommitment, hepoch⟩ := Prod.mk.inj (Option.some.inj hepoch)
    exact ⟨hepoch.symm, hcommitment.symm⟩

omit [PubKey PK] in
theorem signatures_of_toProto (hsig : ∀ signature, codec.fromBytes (codec.toVec signature) = some signature)
    (signatures : List (Fin (2 ^ 16) × Sig)) :
    (signatures.map (signatureToProto codec)).mapM (signatureFromProto codec) = some signatures := by
  have hone : ∀ signature, signatureFromProto codec (signatureToProto codec signature) = some signature := by
    rintro ⟨index, signature⟩
    have hlt : index.val < 2 ^ 32 := index.isLt.trans (by decide)
    have hindex : u16TryFrom (Fin.ofNat (2 ^ 32) index.val) = some index := by
      unfold u16TryFrom
      simp only [Fin.ofNat, Nat.mod_eq_of_lt hlt]
      exact dif_pos index.isLt
    simp only [signatureFromProto, signatureToProto, hindex, hsig, Option.bind_eq_bind, Option.bind_some]
    rfl
  induction signatures with
  | nil => rfl
  | cons signature signatures ih =>
    rw [List.map_cons, List.mapM_cons, hone, ih]
    rfl

theorem Header.toProto_eq_some {header : Header PK Sig} {msg : Proto.Header} :
    header.toProto codec = some msg ↔ epochToVec header.epoch = some msg.epoch ∧
      msg.genesisHash = header.genesisHash.bytes ∧ msg.blockHeader = header.blockHeader.serialize ∧
      msg.signatures = header.signatures.map (signatureToProto codec) := by
  unfold Header.toProto
  simp only [Option.bind_eq_bind, Option.bind_eq_some_iff]
  constructor
  · rintro ⟨epoch, hepoch, heq⟩
    cases heq
    exact ⟨hepoch, rfl, rfl, rfl⟩
  · obtain ⟨genesisHash, blockHeader, epoch, signatures⟩ := msg
    rintro ⟨hepoch, rfl, rfl, rfl⟩
    exact ⟨epoch, hepoch, rfl⟩

theorem Misbehaviour.toProto_eq_some {m : Misbehaviour PK Sig} {msg : Proto.Misbehaviour} :
    m.toProto codec = some msg ↔
      ∃ msg1 msg2, m.header1.toProto codec = some msg1 ∧ m.header2.toProto codec = some msg2 ∧
      msg = ⟨some msg1, some (dedup msg1 msg2)⟩ := by
  unfold Misbehaviour.toProto
  simp only [Option.bind_eq_bind, Option.bind_eq_some_iff]
  constructor
  · rintro ⟨msg1, h1, msg2, h2, heq⟩
    exact ⟨msg1, msg2, h1, h2, (Option.some.inj heq).symm⟩
  · rintro ⟨msg1, msg2, h1, h2, rfl⟩
    exact ⟨msg1, h1, msg2, h2, rfl⟩

theorem epochToVec_ne_nil {epoch : Epoch PK} {bytes : List Byte} (h : epochToVec epoch = some bytes) : bytes ≠ [] := by
  rw [← (epochToVec_eq_some.mp h).2]
  exact List.cons_ne_nil _ _

/-- What the message of a header says is where the header comes from, whatever the base. -/
theorem Header.toProto_from {header : Header PK Sig} {msg : Proto.Header} (hderived : header.Derived digest)
    (h : header.toProto codec = some msg) (base : Option (Header PK Sig)) : Header.From digest msg base header := by
  obtain ⟨hepoch, hgenesis, hblock, -⟩ := Header.toProto_eq_some.mp h
  refine ⟨?_, hblock.symm, ?_, ?_⟩
  · rw [hgenesis, if_neg (hash_ne_nil _)]
  · rw [hderived.blockHash, hblock]
    rfl
  · rw [if_neg (epochToVec_ne_nil hepoch), hderived.epochCommitment]
    refine ⟨hepoch, ?_⟩
    rw [← (epochToVec_eq_some.mp hepoch).2]
    rfl

section

variable (msg1 msg2 : Proto.Header)

theorem dedup_genesisHash :
    (dedup msg1 msg2).genesisHash = if msg1.genesisHash = msg2.genesisHash then [] else msg2.genesisHash := by
  by_cases hg : msg1.genesisHash = msg2.genesisHash <;> by_cases he : msg1.epoch = msg2.epoch <;> simp [dedup, hg, he]

theorem dedup_epoch : (dedup msg1 msg2).epoch = if msg1.epoch = msg2.epoch then [] else msg2.epoch := by
  by_cases hg : msg1.genesisHash = msg2.genesisHash <;> by_cases he : msg1.epoch = msg2.epoch <;> simp [dedup, hg, he]

theorem dedup_blockHeader : (dedup msg1 msg2).blockHeader = msg2.blockHeader := by
  by_cases hg : msg1.genesisHash = msg2.genesisHash <;> by_cases he : msg1.epoch = msg2.epoch <;> simp [dedup, hg, he]

theorem dedup_signatures : (dedup msg1 msg2).signatures = msg2.signatures := by
  by_cases hg : msg1.genesisHash = msg2.genesisHash <;> by_cases he : msg1.epoch = msg2.epoch <;> simp [dedup, hg, he]

end

/-- What has been cleared from the second header is found in the first. -/
theorem dedup_from (hpk : Reader.Reads codec.readPubKey (fun _ => True) PubKey.serialize)
    {header1 header2 : Header PK Sig}
    {msg1 msg2 : Proto.Header} (hderived1 : header1.Derived digest) (hderived2 : header2.Derived digest)
    (h1 : header1.toProto codec = some msg1) (h2 : header2.toProto codec = some msg2) :
    Header.From digest (dedup msg1 msg2) (some header1) header2 := by
  obtain ⟨hepoch1, hgenesis1, -, -⟩ := Header.toProto_eq_some.mp h1
  obtain ⟨hepoch2, hgenesis2, -, -⟩ := Header.toProto_eq_some.mp h2
  obtain ⟨hgenesis, hblock, hhash, hepoch⟩ := Header.toProto_from hderived2 h2 (some header1)
  refine ⟨?_, by rw [dedup_blockHeader]; exact hblock, by rw [dedup_blockHeader]; exact hhash, ?_⟩
  · rw [dedup_genesisHash]
    by_cases heq : msg1.genesisHash = msg2.genesisHash
    · rw [if_pos heq, if_pos rfl]
      rw [hgenesis1, hgenesis2] at heq
      exact congrArg some (CryptoHash.eq_of_bytes heq)
    · rw [if_neg heq]
      exact hgenesis
  · rw [dedup_epoch]
    by_cases heq : msg1.epoch = msg2.epoch
    · rw [if_pos heq, if_pos rfl]
      rw [heq] at hepoch1
      have hsame := Option.some.inj (((epoch_whole hpk).mpr hepoch1).symm.trans ((epoch_whole hpk).mpr hepoch2))
      rw [Option.map_some, hderived1.epochCommitment, hderived2.epochCommitment, hsame]
    · rw [if_neg heq]
      exact hepoch

/-- What `Header::new` makes; it panics if the epoch cannot be serialised. -/
def Header.Built (digest : List Byte → CryptoHash) (header : Header PK Sig) : Prop :=
  ∃ genesisHash blockHeader epoch signatures, (epochToVec epoch).isSome ∧
    header = Header.new digest genesisHash blockHeader epoch signatures

theorem Header.Built.toProto (codec : KeyCodec PK Sig) {header : Header PK Sig} (h : header.Built digest) :
    header.Derived digest ∧ ∃ msg, header.toProto codec = some msg := by
  obtain ⟨genesisHash, blockHeader, epoch, signatures, hepoch, rfl⟩ := h
  obtain ⟨bytes, hbytes⟩ := Option.isSome_iff_exists.mp hepoch
  exact ⟨Header.new_derived digest genesisHash blockHeader epoch signatures,
    ⟨genesisHash.bytes, blockHeader.serialize, bytes, signatures.map (signatureToProto codec)⟩,
    Header.toProto_eq_some.mpr ⟨hbytes, rfl, rfl, rfl⟩⟩

section

variable (hpk : Reader.Reads codec.readPubKey (fun _ => True) PubKey.serialize)
  (hsig : ∀ signature, codec.fromBytes (codec.toVec signature) = some signature)

include hpk hsig

theorem Header.roundTrip {header : Header PK Sig} (h : header.Built digest) :
    ∃ msg, header.toProto codec = some msg ∧ Header.tryFrom digest codec msg = some header := by
  obtain ⟨hderived, msg, hmsg⟩ := h.toProto codec
  refine ⟨msg, hmsg, (Header.tryFromImpl_eq_some hpk).mpr ⟨Header.toProto_from hderived hmsg none, ?_⟩⟩
  rw [(Header.toProto_eq_some.mp hmsg).2.2.2]
  exact signatures_of_toProto hsig header.signatures

theorem Misbehaviour.roundTrip {m : Misbehaviour PK Sig} (h1 : m.header1.Built digest) (h2 : m.header2.Built digest) :
    ∃ msg, m.toProto codec = some msg ∧ Misbehaviour.tryFrom digest codec msg = some m := by
  obtain ⟨msg1, hmsg1, hread1⟩ := Header.roundTrip hpk hsig h1
  obtain ⟨hderived1, -⟩ := h1.toProto codec
  obtain ⟨hderived2, msg2, hmsg2⟩ := h2.toProto codec
  refine ⟨_, Misbehaviour.toProto_eq_some.mpr ⟨msg1, msg2, hmsg1, hmsg2, rfl⟩, ?_⟩
  refine Misbehaviour.tryFrom_eq_some.mpr ⟨msg1, dedup msg1 msg2, rfl, rfl, hread1, ?_⟩
  refine (Header.tryFromImpl_eq_some hpk).mpr ⟨dedup_from hpk hderived1 hderived2 hmsg1 hmsg2, ?_⟩
  rw [dedup_signatures, (Header.toProto_eq_some.mp hmsg2).2.2.2]
  exact signatures_of_toProto hsig m.header2.signatures

/-- Client messages of what `Header::new` makes are decoded to what has been encoded. -/
theorem ClientMessage.roundTrip (message : ClientMessage PK Sig)
    (h : ∀ header, message = .header header → header.Built digest)
    (hm : ∀ m, message = .misbehaviour m → m.header1.Built digest ∧ m.header2.Built digest) :
    ∃ msg, message.toProto codec = some msg ∧ ClientMessage.tryFrom digest codec msg = some message := by
  cases message with
  | header header =>
    obtain ⟨msg, hmsg, hread⟩ := Header.roundTrip hpk hsig (h header rfl)
    refine ⟨⟨some (.header msg)⟩, ?_, ?_⟩
    · rw [ClientMessage.toProto, hmsg]
      rfl
    · exact Option.map_eq_some_iff.mpr ⟨header, hread, rfl⟩
  | misbehaviour m =>
    obtain ⟨msg, hmsg, hread⟩ := Misbehaviour.roundTrip hpk hsig (hm m rfl).1 (hm m rfl).2
    refine ⟨⟨some (.misbehaviour msg)⟩, ?_, ?_⟩
    · rw [ClientMessage.toProto, hmsg]
      rfl
    · exact Option.map_eq_some_iff.mpr ⟨m, hread, rfl⟩

end

theorem ClientState.roundTrip (s : ClientState) : ClientState.tryFrom s.toProto = some s := by
  have hprev : hashOr s.toProto.prevEpochCommitment (some s.epochCommitment) = some s.prevEpochCommitment := by
    rw [hashOr_eq_some, ClientState.toProto]
    by_cases heq : s.prevEpochCommitment = s.epochCommitment
    · rw [if_pos heq, if_pos rfl, heq]
    · rw [if_neg heq, if_neg (hash_ne_nil _)]
  have hgenesis : CryptoHash.tryFrom s.toProto.genesisHash = some s.genesisHash := CryptoHash.tryFrom_bytes _
  have hepoch : CryptoHash.tryFrom s.toProto.epochCommitment = some s.epochCommitment := CryptoHash.tryFrom_bytes _
  simp only [ClientState.tryFrom, hgenesis, hepoch, Option.bind_eq_bind, Option.bind_some, hprev]
  rfl

end

namespace Ed25519

open SignatureVerifier

def ofBytes (n : Nat) (bytes : List Byte) : Option (Bytes n) :=
  if h : bytes.length = n then some ⟨bytes, h⟩ else none

theorem ofBytes_eq_some {n : Nat} {bytes : List Byte} {b : Bytes n} : ofBytes n bytes = some b ↔ bytes = b.val := by
  obtain ⟨val, hval⟩ := b
  unfold ofBytes
  split
  · rw [Option.some_inj, Subtype.mk.injEq]
  · rename_i hne
    refine iff_of_false nofun ?_
    rintro rfl
    exact hne hval

/-- The number which the bytes are in big endian; it orders keys as their bytes do. -/
def order (key : Bytes 32) : Nat := ofLeBytes key.val.reverse

theorem order_injective : Function.Injective order := by
  rintro ⟨a, ha⟩ ⟨b, hb⟩ h
  have hrev : a.reverse = b.reverse := ofLeBytes_inj (by rw [List.length_reverse, List.length_reverse, ha, hb]) h
  exact Subtype.ext (List.reverse_injective hrev)

instance pubKey : PubKey (Bytes 32) :=
  { LinearOrder.lift' order order_injective with serialize := Subtype.val }

def codec : KeyCodec (Bytes 32) (Bytes 64) where
  readPubKey := do
    let bytes ← Reader.take .unexpectedLength 32
    Reader.ofOption .unexpectedLength (ofBytes 32 bytes)
  toVec := Subtype.val
  fromBytes := ofBytes 64

theorem codec_reads : Reader.Reads codec.readPubKey (fun _ => True) PubKey.serialize := by
  intro s key rest
  simp only [codec, Reader.bind_eq_ok, Reader.take_eq_ok, Reader.ofOption_eq_ok, ofBytes_eq_some, true_and]
  constructor
  · rintro ⟨bytes, mid, ⟨-, rfl⟩, rfl, rfl⟩
    rfl
  · rintro rfl
    exact ⟨key.val, rest, ⟨key.property, rfl⟩, rfl, rfl⟩

theorem codec_inverse (signature : Bytes 64) : codec.fromBytes (codec.toVec signature) = some signature :=
  ofBytes_eq_some.mpr rfl

end Ed25519

/-- Headers are accepted with the hashes of what they carry, also the second header of misbehaviour which takes
from the first what is left out. What is encoded is decoded to what it was. -/
theorem messages_decode_canonically {PK Sig : Type} [PubKey PK] {codec : KeyCodec PK Sig}
    (hpk : Reader.Reads codec.readPubKey (fun _ => True) PubKey.serialize)
    (hsig : ∀ signature, codec.fromBytes (codec.toVec signature) = some signature) (digest : List Byte → CryptoHash) :
    (∀ msg header, Header.tryFrom digest codec msg = some header →
      header.blockHash = header.blockHeader.calcHash digest ∧
        header.epochCommitment = header.epoch.calcCommitment digest) ∧
    (∀ msg m, Misbehaviour.tryFrom digest codec msg = some m →
      m.header1.Derived digest ∧ m.header2.Derived digest ∧ m.Inherits msg) ∧
    (∀ header : Header PK Sig, header.Built digest →
      ∃ msg, header.toProto codec = some msg ∧ Header.tryFrom digest codec msg = some header) ∧
    (∀ m : Misbehaviour PK Sig, m.header1.Built digest → m.header2.Built digest →
      ∃ msg, m.toProto codec = some msg ∧ Misbehaviour.tryFrom digest codec msg = some m) ∧
    ∀ s : ClientState, ClientState.tryFrom s.toProto = some s := by
  refine ⟨fun msg header h => ?_, fun msg m h => Misbehaviour.tryFrom_derived hpk h,
    fun header h => Header.roundTrip hpk hsig h, fun m h1 h2 => Misbehaviour.roundTrip hpk hsig h1 h2,
    ClientState.roundTrip⟩
  have hderived := Header.tryFrom_derived hpk h
  exact ⟨hderived.blockHash, hderived.epochCommitment⟩

open SignatureVerifier

theorem sampleKey_size : (List.replicate 32 3#8).length = 32 := List.length_replicate

theorem sampleSignature_size : (List.replicate 64 7#8).length = 64 := List.length_replicate

/-- Misbehaviour of a sole validator who signed the first of two blocks. -/
def sampleMisbehaviour (epoch : Epoch (Bytes 32)) : Misbehaviour (Bytes 32) (Bytes 64) where
  header1 := Header.new forkDigest sampleGenesisHash (sampleBlock 1#8) epoch
    [(0, ⟨List.replicate 64 7#8, sampleSignature_size⟩)]
  header2 := Header.new forkDigest sampleGenesisHash (sampleBlock 2#8) epoch []

/-- The second header travels without genesis hash and epoch. -/
theorem messages_decode_canonically_sample :
    ∃ epoch msg, Epoch.new [⟨⟨List.replicate 32 3#8, sampleKey_size⟩, NonZero.clamp 5⟩] (NonZero.clamp 3) = some epoch ∧
      (sampleMisbehaviour epoch).toProto Ed25519.codec = some msg ∧
      msg.header2.map (fun msg2 => (msg2.genesisHash, msg2.epoch)) = some ([], []) ∧
      Misbehaviour.tryFrom forkDigest Ed25519.codec msg = some (sampleMisbehaviour epoch) := by
  obtain ⟨epoch, hepoch⟩ := Option.isSome_iff_exists.mp (show (Epoch.new
    [(⟨⟨List.replicate 32 3#8, sampleKey_size⟩, NonZero.clamp 5⟩ : Validator (Bytes 32))] (NonZero.clamp 3)).isSome by
      decide)
  have hfits : (epochToVec epoch).isSome := by
    obtain ⟨hvalidators, -⟩ := Epoch.new_eq_some.mp hepoch
    rw [epochToVec, if_pos (by rw [← hvalidators]; decide)]
    rfl
  have hbuilt1 : (sampleMisbehaviour epoch).header1.Built forkDigest := ⟨_, _, _, _, hfits, rfl⟩
  have hbuilt2 : (sampleMisbehaviour epoch).header2.Built forkDigest := ⟨_, _, _, _, hfits, rfl⟩
  obtain ⟨msg, hmsg, hread⟩ :=
    (messages_decode_canonically Ed25519.codec_reads Ed25519.codec_inverse forkDigest).2.2.2.1
    (sampleMisbehaviour epoch) hbuilt1 hbuilt2
  refine ⟨epoch, msg, hepoch, hmsg, ?_, hread⟩
  obtain ⟨msg1, msg2, h1, h2, rfl⟩ := Misbehaviour.toProto_eq_some.mp hmsg
  obtain ⟨hepoch1, hgenesis1, -⟩ := Header.toProto_eq_some.mp h1
  obtain ⟨hepoch2, hgenesis2, -⟩ := Header.toProto_eq_some.mp h2
  have hgenesis : msg1.genesisHash = msg2.genesisHash := hgenesis1.trans hgenesis2.symm
  have hbytes : msg1.epoch = msg2.epoch := Option.some.inj (hepoch1.symm.trans hepoch2)
  rw [Option.map_some, dedup_genesisHash, dedup_epoch, if_pos hgenesis, if_pos hbytes]

end CfGuest
