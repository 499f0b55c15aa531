import EmulatedLightClient.GuestMessages

/-!
# Reading blocks

The commitment to the next epoch is not serialised with a block. It is calculated again from the epoch which has
been read, just as the total stake of an epoch is from its validators.
-/

namespace GuestChain

open ByteBits MachineInts Nodes Readers TrieProof CfGuest

/-- A flag and then the value if there is one. -/
def optionWith {α : Type} (write : α → List Byte) : Option α → List Byte
  | none => [0#8]
  | some a => 1#8 :: write a

def readOption {α : Type} (x : ByteReader α) : ByteReader (Option α) := do
  let flag ← readU8
  if flag = 0#8 then return none
  else if flag = 1#8 then some <$> x
  else throw (.invalidOption flag)

theorem readOption_reads {α : Type} {x : ByteReader α} {good : α → Prop} {write : α → List Byte}
    (hx : Reader.Reads x good write) : Reader.Reads (readOption x) (∀ a ∈ ·, good a) (optionWith write) := by
  intro s o rest
  unfold readOption
  simp only [Reader.bind_eq_ok, readU8_eq_ok]
  constructor
  · rintro ⟨flag, mid, rfl, h⟩
    split at h
    · rename_i hnone
      obtain ⟨rfl, rfl⟩ := Reader.pure_eq_ok.mp h
      exact ⟨nofun, by rw [hnone]; rfl⟩
    · split at h
      · rename_i hsome
        obtain ⟨a, hread, rfl⟩ := map_eq_ok.mp h
        obtain ⟨ha, rfl⟩ := (hx _ _ _).mp hread
        refine ⟨fun b hb => ?_, by rw [hsome]; rfl⟩
        cases hb
        exact ha
      · cases h
  · rintro ⟨hgood, rfl⟩
    cases o with
    | none => exact ⟨0#8, rest, rfl, rfl⟩
    | some a => exact ⟨1#8, write a ++ rest, rfl, map_eq_ok.mpr ⟨a, (hx _ _ _).mpr ⟨hgood a rfl, rfl⟩, rfl⟩⟩

variable {PK : Type} [PubKey PK] (digest : List Byte → CryptoHash)

namespace Block

def serialize (b : Block PK) : List Byte :=
  0#8 :: b.header.prevBlockHash.bytes ++ leBytes 8 b.header.blockHeight.val ++ leBytes 8 b.header.hostHeight.val ++
    leBytes 8 b.header.timestampNs.get ++ b.header.stateRoot.bytes ++ b.header.epochId.bytes ++
    optionWith Epoch.serialize b.nextEpoch

/-- Four bytes are enough for the number of validators of the next epoch. -/
def Fits (b : Block PK) : Prop := ∀ e ∈ b.nextEpoch, e.validators.length < 2 ^ 32

instance (b : Block PK) : Decidable b.Fits := inferInstanceAs (Decidable (∀ e ∈ b.nextEpoch, e.validators.length < 2 ^ 32))

/-- There are no bytes for a block with an epoch there are none for. -/
def toVec (b : Block PK) : Option (List Byte) := if b.Fits then some b.serialize else none

theorem toVec_eq_some {b : Block PK} {bytes : List Byte} : b.toVec = some bytes ↔ b.Fits ∧ b.serialize = bytes := by
  rw [toVec, Option.ite_none_right_eq_some, Option.some_inj]

/-- The header commits to the next epoch. -/
def Committed (b : Block PK) : Prop := b.header.nextEpochCommitment = b.nextEpoch.map (Epoch.calcCommitment digest)

end Block

/-- An epoch which has been read can be serialised, hence its commitment does not panic. -/
def readBlock (readPubKey : ByteReader PK) : ByteReader (Block PK) := do
  readVersionZero
  let prevBlockHash ← readHash
  let blockHeight ← readHeight
  let hostHeight ← readHeight
  let timestampNs ← readNonZeroU64
  let stateRoot ← readHash
  let epochId ← readHash
  let nextEpoch ← readOption (readEpoch readPubKey)
  let nextEpochCommitment := nextEpoch.map (Epoch.calcCommitment digest)
  return {
    header := { prevBlockHash, blockHeight, hostHeight, timestampNs, stateRoot, nextEpochCommitment, epochId }
    nextEpoch }

theorem Block.serialize_append (b : Block PK) (rest : List Byte) :
    b.serialize ++ rest = 0#8 :: (b.header.prevBlockHash.bytes ++ (leBytes 8 b.header.blockHeight.val ++
      (leBytes 8 b.header.hostHeight.val ++ (leBytes 8 b.header.timestampNs.get ++ (b.header.stateRoot.bytes ++
        (b.header.epochId.bytes ++ (optionWith Epoch.serialize b.nextEpoch ++ rest))))))) := by
  simp only [Block.serialize, List.append_assoc, List.cons_append]

section

variable {readPubKey : ByteReader PK} (hpk : Reader.Reads readPubKey (fun _ => True) PubKey.serialize)

include hpk

/-- Reading blocks accepts exactly serialised blocks which commit to their next epoch. -/
theorem readBlock_reads :
    Reader.Reads (readBlock digest readPubKey) (fun b => b.Fits ∧ b.Committed digest) Block.serialize := by
  intro s b rest
  simp only [readBlock, Reader.bind_eq_ok, Reader.pure_eq_ok, readVersionZero_eq_ok, readHash_eq_ok, readHeight_eq_ok,
    readNonZeroU64_eq_ok, readOption_reads (readEpoch_reads hpk) _ _ _, Block.serialize_append]
  constructor
  · rintro ⟨-, mid, rfl, prev, mid, rfl, blockHeight, mid, rfl, hostHeight, mid, rfl, timestamp, mid, rfl, stateRoot, mid,
      rfl, epochId, mid, rfl, nextEpoch, mid, ⟨hfits, rfl⟩, rfl, rfl⟩
    exact ⟨⟨hfits, rfl⟩, rfl⟩
  · obtain ⟨⟨prev, blockHeight, hostHeight, timestamp, stateRoot, epochId, commitment⟩, nextEpoch⟩ := b
    rintro ⟨⟨hfits, hcommitted⟩, rfl⟩
    refine ⟨(), _, rfl, _, _, rfl, _, _, rfl, _, _, rfl, _, _, rfl, _, _, rfl, _, _, rfl, _, _, ⟨hfits, rfl⟩, ?_, rfl⟩
    rw [show commitment = _ from hcommitted]

theorem readBlock_whole {b : Block PK} {bytes : List Byte} :
    (readBlock digest readPubKey).whole bytes = some b ↔ b.Committed digest ∧ b.toVec = some bytes := by
  rw [(readBlock_reads digest hpk).whole_eq_some, Block.toVec_eq_some, eq_comm (a := bytes), and_comm (a := b.Fits), and_assoc]

end

/-- Epochs and blocks are read back as they were, with total stake and commitment calculated again, and nothing else
is read than what is serialised. -/
theorem derived_fields_restored {readPubKey : ByteReader PK}
    (hpk : Reader.Reads readPubKey (fun _ => True) PubKey.serialize) :
    (∀ (e : Epoch PK) bytes, epochToVec e = some bytes → (readEpoch readPubKey).whole bytes = some e) ∧
    (∀ (b : Block PK) bytes, b.header.nextEpochCommitment = b.nextEpoch.map (Epoch.calcCommitment digest) →
      b.toVec = some bytes → (readBlock digest readPubKey).whole bytes = some b) ∧
    (∀ bytes (e : Epoch PK), (readEpoch readPubKey).whole bytes = some e →
      Epoch.sumStake e.validators = some e.totalStake.get ∧ e.totalStake.get = totalOf e.validators ∧
        0 < e.quorumStake.get ∧ e.quorumStake.get ≤ e.totalStake.get ∧ epochToVec e = some bytes) ∧
    ∀ bytes (b : Block PK), (readBlock digest readPubKey).whole bytes = some b →
      b.header.nextEpochCommitment = b.nextEpoch.map (Epoch.calcCommitment digest) ∧ b.toVec = some bytes := by
  refine ⟨?_, ?_, ?_, ?_⟩
  · intro e bytes h
    exact (epoch_whole hpk).mpr h
  · intro b bytes hcommitted h
    exact (readBlock_whole digest hpk).mpr ⟨hcommitted, h⟩
  · intro bytes e h
    exact ⟨e.sumStake_validators, e.total_eq, e.quorumStake.pos, NonZero.le_iff.mp e.quorum_le, (epoch_whole hpk).mp h⟩
  · intro bytes b h
    exact (readBlock_whole digest hpk).mp h

open SignatureVerifier

/-- The last block of an epoch. -/
def sampleLastBlock (epoch : Epoch (Bytes 32)) : Block (Bytes 32) where
  header := { sampleBlock 1#8 with nextEpochCommitment := some (epoch.calcCommitment forkDigest) }
  nextEpoch := some epoch

theorem derived_fields_restored_sample :
    ∃ epoch bytes, Epoch.new [⟨⟨List.replicate 32 3#8, sampleKey_size⟩, NonZero.clamp 5⟩] (NonZero.clamp 3) = some epoch ∧
      (sampleLastBlock epoch).toVec = some bytes ∧
      (readBlock forkDigest Ed25519.codec.readPubKey).whole bytes = some (sampleLastBlock epoch) := by
  obtain ⟨epoch, hepoch⟩ := Option.isSome_iff_exists.mp (show (Epoch.new
    [(⟨⟨List.replicate 32 3#8, sampleKey_size⟩, NonZero.clamp 5⟩ : Validator (Bytes 32))] (NonZero.clamp 3)).isSome by
      decide)
  have hfits : (sampleLastBlock epoch).Fits := by
    rintro e he
    cases he
    rw [← (Epoch.new_eq_some.mp hepoch).1]
    decide
  have hbytes := Block.toVec_eq_some.mpr ⟨hfits, rfl⟩
  exact ⟨epoch, _, hepoch, hbytes,
    (derived_fields_restored forkDigest Ed25519.codec_reads).2.1 (sampleLastBlock epoch) _ rfl hbytes⟩

end GuestChain
