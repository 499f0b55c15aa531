import EmulatedLightClient.GuestBlock
import EmulatedLightClient.ProofCodec

/-!
# Reading block headers

The serialised header is read back field by field. Whatever is accepted is what the header which has been read
is serialised to.
-/

namespace GuestChain

open ByteBits MachineInts Nodes Readers TrieProof

/-- The version in front of everything serialised. -/
def readVersionZero : ByteReader Unit := do
  let byte ← readU8
  if byte = 0#8 then return () else throw (.invalidVersion byte)

def Height.ofNum {T : Type} (n : Nat) : Option (Height T) :=
  if lt : n < 2 ^ 64 then some ⟨n, lt⟩ else none

def readHeight {T : Type} : ByteReader (Height T) := do
  let n ← readNum 8
  Reader.ofOption .unexpectedLength (Height.ofNum n)

def NonZeroU64.ofNum (n : Nat) : Option NonZeroU64 :=
  if h : 0 < n ∧ n < 2 ^ 64 then some ⟨n, h.1, h.2⟩ else none

def readNonZeroU64 : ByteReader NonZeroU64 := do
  let n ← readNum 8
  Reader.ofOption .zero (NonZeroU64.ofNum n)

def readOptionHash : ByteReader (Option CryptoHash) := do
  let flag ← readU8
  if flag = 0#8 then return none
  else if flag = 1#8 then some <$> readHash
  else throw (.invalidOption flag)

def readHeader : ByteReader BlockHeader := do
  readVersionZero
  let prevBlockHash ← readHash
  let blockHeight ← readHeight
  let hostHeight ← readHeight
  let timestampNs ← readNonZeroU64
  let stateRoot ← readHash
  let epochId ← readHash
  let nextEpochCommitment ← readOptionHash
  return { prevBlockHash, blockHeight, hostHeight, timestampNs, stateRoot, epochId, nextEpochCommitment }

theorem readVersionZero_eq_ok {s rest : List Byte} {u : Unit} : readVersionZero s = .ok (u, rest) ↔ s = 0#8 :: rest := by
  unfold readVersionZero
  simp only [Reader.bind_eq_ok, readU8_eq_ok]
  constructor
  · rintro ⟨byte, mid, rfl, h⟩
    split at h
    · rename_i hzero
      rw [hzero, (Reader.pure_eq_ok.mp h).2]
    · cases h
  · rintro rfl
    exact ⟨0#8, rest, rfl, rfl⟩

theorem Height.ofNum_eq_some {T : Type} {n : Nat} {height : Height T} : Height.ofNum n = some height ↔ n = height.val := by
  unfold Height.ofNum
  split
  · constructor
    · intro h
      cases h
      rfl
    · rintro rfl
      rfl
  · rename_i h
    refine iff_of_false (Option.some_ne_none _).symm ?_
    rintro rfl
    exact h height.lt

theorem readHeight_eq_ok {T : Type} {height : Height T} {s rest : List Byte} :
    readHeight s = .ok (height, rest) ↔ s = leBytes 8 height.val ++ rest := by
  simp only [readHeight, Reader.bind_eq_ok, readNum_eq_ok, Reader.ofOption_eq_ok, Height.ofNum_eq_some]
  constructor
  · rintro ⟨n, mid, ⟨-, rfl⟩, rfl, rfl⟩
    rfl
  · rintro rfl
    exact ⟨height.val, rest, ⟨height.lt, rfl⟩, rfl, rfl⟩

theorem NonZeroU64.ofNum_eq_some {n : Nat} {a : NonZeroU64} : NonZeroU64.ofNum n = some a ↔ n = a.get :=
  NonZero.ofNum_eq_some

theorem readNonZeroU64_eq_ok {a : NonZeroU64} {s rest : List Byte} :
    readNonZeroU64 s = .ok (a, rest) ↔ s = leBytes 8 a.get ++ rest := by
  simp only [readNonZeroU64, Reader.bind_eq_ok, readNum_eq_ok, Reader.ofOption_eq_ok, NonZeroU64.ofNum_eq_some]
  constructor
  · rintro ⟨n, mid, ⟨-, rfl⟩, rfl, rfl⟩
    rfl
  · rintro rfl
    exact ⟨a.get, rest, ⟨a.lt, rfl⟩, rfl, rfl⟩

/-- A flag and then the hash if there is one. -/
def optionBytes : Option CryptoHash → List Byte
  | none => [0#8]
  | some hash => 1#8 :: hash.bytes

theorem readOptionHash_eq_ok {hash : Option CryptoHash} {s rest : List Byte} :
    readOptionHash s = .ok (hash, rest) ↔ s = optionBytes hash ++ rest := by
  unfold readOptionHash
  simp only [Reader.bind_eq_ok, readU8_eq_ok]
  constructor
  · rintro ⟨flag, mid, rfl, h⟩
    split at h
    · rename_i hnone
      obtain ⟨rfl, rfl⟩ := Reader.pure_eq_ok.mp h
      rw [hnone]
      rfl
    · split at h
      · rename_i hsome
        obtain ⟨hash, hread, rfl⟩ := map_eq_ok.mp h
        rw [hsome, readHash_eq_ok.mp hread]
        rfl
      · cases h
  · rintro rfl
    cases hash with
    | none => exact ⟨0#8, rest, rfl, rfl⟩
    | some hash => exact ⟨1#8, hash.bytes ++ rest, rfl, map_eq_ok.mpr ⟨hash, readHash_eq_ok.mpr rfl, rfl⟩⟩

theorem BlockHeader.serialize_append (header : BlockHeader) (rest : List Byte) :
    header.serialize ++ rest = 0#8 :: (header.prevBlockHash.bytes ++ (leBytes 8 header.blockHeight.val ++
      (leBytes 8 header.hostHeight.val ++ (leBytes 8 header.timestampNs.get ++ (header.stateRoot.bytes ++
        (header.epochId.bytes ++ (optionBytes header.nextEpochCommitment ++ rest))))))) := by
  simp only [BlockHeader.serialize, List.append_assoc, List.cons_append]
  rfl

/-- Reading headers accepts exactly serialised headers. -/
theorem readHeader_reads : Reader.Reads readHeader (fun _ => True) BlockHeader.serialize := by
  intro s header rest
  simp only [readHeader, Reader.bind_eq_ok, Reader.pure_eq_ok, readVersionZero_eq_ok, readHash_eq_ok, readHeight_eq_ok,
    readNonZeroU64_eq_ok, readOptionHash_eq_ok, BlockHeader.serialize_append, true_and]
  constructor
  · rintro ⟨-, mid, rfl, prev, mid, rfl, blockHeight, mid, rfl, hostHeight, mid, rfl, timestamp, mid, rfl, stateRoot, mid,
      rfl, epochId, mid, rfl, commitment, mid, rfl, rfl, rfl⟩
    rfl
  · rintro rfl
    exact ⟨(), _, rfl, _, _, rfl, _, _, rfl, _, _, rfl, _, _, rfl, _, _, rfl, _, _, rfl, _, _, rfl, rfl, rfl⟩

end GuestChain
