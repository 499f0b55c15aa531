import EmulatedLightClient.Buffers
import EmulatedLightClient.HeaderCodec
import EmulatedLightClient.HostStorage
import EmulatedLightClient.PathInfo

/-!
# Proofs of what is kept at IBC paths

A proof is made from the trie for the root which its verifier knows: the hash of a block or, without blocks, the
root of the trie itself. The three sequences of a channel are one value of the trie, so the proof of one of them
ends with the other two.
-/

namespace CfGuest

open Buffers ByteBits FailingState GuestChain MachineInts Nodes Readers TrieIds TrieProof
open SolanaIbc.Storage.IbcStorage (digestWithClientId)

structure IbcProof where
  /-- Serialised proof. -/
  proof : List Byte
  /-- Commitment root. -/
  root : CryptoHash
  /-- Value stored at the path, if it exists. -/
  value : Option CryptoHash
  deriving DecidableEq

/-- The last one is not an error of the source, which panics. -/
inductive GenerateError where
  | wrongState
  | badTrie (error : SealableTrie.Error)
  | badPath (error : PathError)
  | panic
  deriving DecidableEq

def GenerateError.ofFailure : SealableTrie.Failure → GenerateError
  | .err error => badTrie error
  | .panic => panic

/-- Reading fails for some reason or the bytes end in the wrong place. -/
inductive DecodingFailure where
  | reading (error : ReadError)
  | message (text : String)
  deriving DecidableEq

inductive VerifyError (DecodeError : Type) where
  | badPrefix
  | badRoot
  | badPath (error : PathError)
  | proofDecodingFailure (failure : DecodingFailure)
  | badBlock
  | badSequenceNumber (error : DecodeError)
  | badPacketCommitment
  | verificationFailed
  deriving DecidableEq

def okOr {ε α : Type} (x : Option α) (e : ε) : Except ε α := x.elim (.error e) .ok

theorem okOr_ok {ε α : Type} {x : Option α} {e : ε} {a : α} : okOr x e = .ok a ↔ x = some a := by
  cases x with
  | none => exact iff_of_false nofun nofun
  | some b => exact Except.ok.injEq b a ▸ (Option.some.injEq b a).symm ▸ Iff.rfl

def SequenceKind.index : SequenceKind → Nat
  | .send => 0
  | .recv => 1
  | .ack => 2

variable (digest : List Byte → CryptoHash)

section

variable {A : Type} [Memory.Allocator A RawNode]

/-- With a header the root is its hash, provided that it is a header of the state. -/
def getRoot (context : Option BlockHeader) (root : CryptoHash) : Except GenerateError CryptoHash :=
  match context with
  | none => .ok root
  | some header => if root = header.stateRoot then .ok (header.calcHash digest) else .error .wrongState

def serialiseProof (context : Option BlockHeader) (proof : Proof) : Option (List Byte) :=
  match context with
  | none => proof.serialize
  | some header => proof.serialize.map fun bytes => header.serialize ++ bytes

/-- Each of the sequences in the value but the given one. -/
def otherSequences (value : CryptoHash) (seqKind : SequenceKind) : List Byte :=
  (List.range 3).flatMap fun idx => if idx ≠ SequenceKind.index seqKind then slice value.bytes (8 * idx) 8 else []

def sequencesTail (value : Option CryptoHash) (seqKind : Option SequenceKind) : List Byte :=
  match value, seqKind with
  | some value, some seqKind => otherSequences value seqKind
  | _, _ => []

def generateImpl (context : Option BlockHeader) (trie : SealableTrie.Trie A) (path : Path) :
    Except GenerateError IbcProof := do
  let root ← getRoot digest context trie.rootHash
  let info ← (PathInfo.tryFrom path).mapError .badPath
  let (value, proof) ← (trie.prove digest info.key).mapError .ofFailure
  let bytes ← okOr (serialiseProof context proof) .panic
  return { proof := bytes ++ sequencesTail value info.seqKind, root, value }

def generateForBlock (blockHeader : BlockHeader) (trie : SealableTrie.Trie A) (path : Path) :
    Except GenerateError IbcProof :=
  generateImpl digest (some blockHeader) trie path

def generateForTrie (trie : SealableTrie.Trie A) (path : Path) : Except GenerateError IbcProof :=
  generateImpl digest none trie path

end

variable {DecodeError : Type} (decodeU64 : List Byte → Except DecodeError (Fin (2 ^ 64)))

def isPacketCommitment : Path → Bool
  | .commitment .. | .receipt .. | .ack .. => true
  | _ => false

theorem length_padded (bytes : List Byte) : ((bytes ++ List.replicate 32 0#8).take 32).length = 32 := by
  rw [List.length_take, List.length_append, List.length_replicate]
  omega

/-- The bytes with zeros behind them. -/
def padded (bytes : List Byte) : CryptoHash := ⟨(bytes ++ List.replicate 32 0#8).take 32, length_padded bytes⟩

/-- The three sequences with the one which is verified in its place. -/
def sequenceWords (seqKind : SequenceKind) (seq a b : List Byte) : List Byte :=
  match seqKind with
  | .send => seq ++ a ++ b
  | .recv => a ++ seq ++ b
  | .ack => a ++ b ++ seq

/-- Eight zero bytes follow the sequences. -/
def sequencesHash (seqKind : SequenceKind) (seq a b : List Byte) : CryptoHash := padded (sequenceWords seqKind seq a b)

def splitAt (n : Nat) (bytes : List Byte) : Option (List Byte × List Byte) :=
  if n ≤ bytes.length then some (bytes.take n, bytes.drop n) else none

/-- What is hashed to be looked for in the trie, with the bytes of the proof which are left. -/
def expectedHash (info : PathInfo) (packetCommitment : Bool) (proofBytes value : List Byte) :
    Except (VerifyError DecodeError) (CryptoHash × List Byte) :=
  match info.seqKind, info.clientId with
  | some seqKind, _ => do
    let seq ← (decodeU64 value).mapError .badSequenceNumber
    let (head, tail) ← okOr (splitAt 16 proofBytes) (.proofDecodingFailure (.message "Missing sequences"))
    return (sequencesHash seqKind (beBytes 8 seq) (head.take 8) (head.drop 8), tail)
  | none, some id => .ok (digestWithClientId digest id value, proofBytes)
  | none, none =>
    if packetCommitment then do
      let hash ← okOr (CryptoHash.tryFrom value) .badPacketCommitment
      return (hash, proofBytes)
    else .ok (digest value, proofBytes)

def expectedValue (info : PathInfo) (packetCommitment : Bool) (proofBytes : List Byte) (value : Option (List Byte)) :
    Except (VerifyError DecodeError) (Option CryptoHash × List Byte) :=
  match value with
  | none => .ok (none, proofBytes)
  | some value => do
    let (hash, tail) ← expectedHash digest decodeU64 info packetCommitment proofBytes value
    return (some hash, tail)

def readHeaderAndProof : ByteReader (BlockHeader × Proof) := do
  let header ← readHeader
  let proof ← readProof
  return (header, proof)

/-- The root of the trie and the proof, with the bytes which are left. -/
def readCommitted (withBlock : Bool) (root : CryptoHash) (proofBytes : List Byte) :
    Except (VerifyError DecodeError) (CryptoHash × Proof × List Byte) :=
  if withBlock then do
    let ((header, proof), tail) ← (readHeaderAndProof proofBytes).mapError (.proofDecodingFailure <| .reading ·)
    if root ≠ header.calcHash digest then throw .badBlock
    else return (header.stateRoot, proof, tail)
  else do
    let (proof, tail) ← (readProof proofBytes).mapError (.proofDecodingFailure <| .reading ·)
    return (root, proof, tail)

def verifyImpl (withBlock : Bool) (commitmentPrefix proofBytes root : List Byte) (path : Path) (value : Option (List Byte)) :
    Except (VerifyError DecodeError) Unit :=
  if commitmentPrefix ≠ [] then throw .badPrefix
  else do
    let root ← okOr (CryptoHash.tryFrom root) .badRoot
    let info ← (PathInfo.tryFrom path).mapError .badPath
    let (stateRoot, proof, tail) ← readCommitted digest withBlock root proofBytes
    let (hash, tail) ← expectedValue digest decodeU64 info (isPacketCommitment path) tail value
    if tail ≠ [] then throw (.proofDecodingFailure (.message "Spurious bytes"))
    else if proof.verify digest stateRoot info.key hash then return ()
    else throw .verificationFailed

def verifyForBlock (commitmentPrefix proofBytes root : List Byte) (path : Path) (value : Option (List Byte)) :
    Except (VerifyError DecodeError) Unit :=
  verifyImpl digest decodeU64 true commitmentPrefix proofBytes root path value

def verifyForTrie (commitmentPrefix proofBytes root : List Byte) (path : Path) (value : Option (List Byte)) :
    Except (VerifyError DecodeError) Unit :=
  verifyImpl digest decodeU64 false commitmentPrefix proofBytes root path value

variable {digest} {decodeU64}

def headerBytes (context : Option BlockHeader) : List Byte := context.elim [] BlockHeader.serialize

/-- The proof can be read back from what is written for it. -/
def Readable (proof : Proof) : Prop := proof.Writable ∧ proof.entries < 2 ^ nonMembershipShift

theorem readHeaderAndProof_eq_ok {header : BlockHeader} {proof : Proof} {bytes tail : List Byte} :
    readHeaderAndProof bytes = .ok ((header, proof), tail) ↔
      Readable proof ∧ bytes = header.serialize ++ (proof.layout ++ tail) := by
  simp only [readHeaderAndProof, Reader.bind_eq_ok, Reader.pure_eq_ok, readHeader_reads _ _ _, readProof_reads _ _ _, true_and]
  constructor
  · rintro ⟨header, mid, rfl, proof, mid, ⟨hproof, rfl⟩, heq, rfl⟩
    cases heq
    exact ⟨hproof, rfl⟩
  · rintro ⟨hproof, rfl⟩
    exact ⟨header, _, rfl, proof, tail, ⟨hproof, rfl⟩, rfl, rfl⟩

theorem getRoot_none {stateRoot root : CryptoHash} : getRoot digest none stateRoot = .ok root ↔ stateRoot = root := by
  rw [getRoot, Except.ok.injEq]

theorem getRoot_some {header : BlockHeader} {stateRoot root : CryptoHash} :
    getRoot digest (some header) stateRoot = .ok root ↔ stateRoot = header.stateRoot ∧ header.calcHash digest = root := by
  unfold getRoot
  dsimp only
  split
  · rename_i h
    rw [Except.ok.injEq]
    exact (and_iff_right h).symm
  · rename_i h
    exact iff_of_false nofun fun hroot => h hroot.1

/-- The proof is read for the root which would have been used to make it. -/
theorem readCommitted_eq_ok {withBlock : Bool} {root stateRoot : CryptoHash} {proof : Proof} {bytes tail : List Byte} :
    (readCommitted digest withBlock root bytes : Except (VerifyError DecodeError) _) = .ok (stateRoot, proof, tail) ↔
      ∃ context : Option BlockHeader, context.isSome = withBlock ∧ getRoot digest context stateRoot = .ok root ∧
        Readable proof ∧ bytes = headerBytes context ++ (proof.layout ++ tail) := by
  unfold readCommitted
  cases withBlock with
  | true =>
    rw [if_pos rfl, bind_eq_ok]
    simp only [mapError_ok]
    constructor
    · rintro ⟨⟨⟨header, proof'⟩, tail'⟩, hread, h⟩
      dsimp only at h
      split at h
      · cases h
      · rename_i hhash
        cases h
        obtain ⟨hproof, rfl⟩ := readHeaderAndProof_eq_ok.mp hread
        exact ⟨some header, rfl, getRoot_some.mpr ⟨rfl, (not_not.mp hhash).symm⟩, hproof, rfl⟩
    · rintro ⟨context, hsome, hroot, hproof, rfl⟩
      obtain ⟨header, rfl⟩ := Option.isSome_iff_exists.mp hsome
      obtain ⟨rfl, rfl⟩ := getRoot_some.mp hroot
      refine ⟨((header, proof), tail), readHeaderAndProof_eq_ok.mpr ⟨hproof, rfl⟩, ?_⟩
      dsimp only
      rw [if_neg (not_not.mpr rfl)]
      rfl
  | false =>
    rw [if_neg Bool.false_ne_true, bind_eq_ok]
    simp only [mapError_ok]
    constructor
    · rintro ⟨⟨proof', tail'⟩, hread, h⟩
      cases h
      obtain ⟨hproof, rfl⟩ := (readProof_reads _ _ _).mp hread
      exact ⟨none, rfl, getRoot_none.mpr rfl, hproof, rfl⟩
    · rintro ⟨context, hnone, hroot, hproof, rfl⟩
      rw [Option.isSome_eq_false_iff, Option.isNone_iff_eq_none] at hnone
      subst hnone
      obtain rfl := getRoot_none.mp hroot
      exact ⟨(proof, tail), (readProof_reads _ _ _).mpr ⟨hproof, rfl⟩, rfl⟩

theorem splitAt_eq_some {n : Nat} {bytes head tail : List Byte} :
    splitAt n bytes = some (head, tail) ↔ head.length = n ∧ bytes = head ++ tail := by
  unfold splitAt
  split
  · rename_i h
    constructor
    · intro heq
      cases heq
      exact ⟨List.length_take_of_le h, (List.take_append_drop n bytes).symm⟩
    · rintro ⟨rfl, rfl⟩
      rw [List.take_left, List.drop_left]
  · rename_i h
    refine iff_of_false (Option.some_ne_none _).symm ?_
    rintro ⟨rfl, rfl⟩
    exact h (by rw [List.length_append]; omega)

variable (digest decodeU64)

/-- The value is looked for by the hash, given what the proof ends with. -/
def HashOf (info : PathInfo) (packetCommitment : Bool) (value : List Byte) (hash : CryptoHash) (ending : List Byte) : Prop :=
  match info.seqKind, info.clientId with
  | some seqKind, _ => ∃ seq a b, decodeU64 value = .ok seq ∧ a.length = 8 ∧ b.length = 8 ∧ ending = a ++ b ∧
      hash = sequencesHash seqKind (beBytes 8 seq) a b
  | none, some id => hash = digestWithClientId digest id value ∧ ending = []
  | none, none => (if packetCommitment then hash.bytes = value else hash = digest value) ∧ ending = []

def ValueHashOf (info : PathInfo) (packetCommitment : Bool) (value : Option (List Byte)) (hash : Option CryptoHash)
    (ending : List Byte) : Prop :=
  match value, hash with
  | none, none => ending = []
  | some value, some hash => HashOf digest decodeU64 info packetCommitment value hash ending
  | _, _ => False

variable {digest decodeU64}

theorem tryFrom_eq_some {bytes : List Byte} {hash : CryptoHash} : CryptoHash.tryFrom bytes = some hash ↔ hash.bytes = bytes := by
  constructor
  · exact CryptoHash.bytes_of_tryFrom
  · rintro rfl
    exact CryptoHash.tryFrom_bytes hash

theorem expectedHash_eq_ok {info : PathInfo} {packetCommitment : Bool} {bytes value : List Byte} {hash : CryptoHash} :
    expectedHash digest decodeU64 info packetCommitment bytes value = .ok (hash, []) ↔
      HashOf digest decodeU64 info packetCommitment value hash bytes := by
  unfold expectedHash HashOf
  rcases info.seqKind with _ | seqKind
  · rcases info.clientId with _ | id
    · dsimp only
      split
      · simp only [bind_eq_ok, okOr_ok, tryFrom_eq_some]
        constructor
        · rintro ⟨hash', hvalue, h⟩
          cases h
          exact ⟨hvalue, rfl⟩
        · rintro ⟨hvalue, rfl⟩
          exact ⟨hash, hvalue, rfl⟩
      · rw [Except.ok.injEq, Prod.mk.injEq, eq_comm]
    · dsimp only
      rw [Except.ok.injEq, Prod.mk.injEq, eq_comm]
  · simp only [bind_eq_ok, mapError_ok, okOr_ok]
    constructor
    · rintro ⟨seq, hseq, ⟨head, tail⟩, hsplit, h⟩
      cases h
      obtain ⟨hlen, rfl⟩ := splitAt_eq_some.mp hsplit
      refine ⟨seq, head.take 8, head.drop 8, hseq, ?_, ?_, ?_, rfl⟩
      · rw [List.length_take, hlen]
        rfl
      · rw [List.length_drop, hlen]
      · rw [List.append_nil, List.take_append_drop]
    · rintro ⟨seq, a, b, hseq, ha, hb, rfl, rfl⟩
      refine ⟨seq, hseq, (a ++ b, []), splitAt_eq_some.mpr ⟨?_, (List.append_nil _).symm⟩, ?_⟩
      · rw [List.length_append, ha, hb]
      · dsimp only
        rw [List.take_left' ha, List.drop_left' ha]
        rfl

theorem expectedValue_eq_ok {info : PathInfo} {packetCommitment : Bool} {bytes : List Byte} {value : Option (List Byte)}
    {hash : Option CryptoHash} : expectedValue digest decodeU64 info packetCommitment bytes value = .ok (hash, []) ↔
      ValueHashOf digest decodeU64 info packetCommitment value hash bytes := by
  unfold expectedValue ValueHashOf
  cases value with
  | none =>
    dsimp only
    rw [Except.ok.injEq, Prod.mk.injEq]
    cases hash with
    | none => exact and_iff_right rfl
    | some hash => exact iff_of_false (fun h => Option.some_ne_none hash h.1.symm) id
  | some value =>
    dsimp only
    rw [bind_eq_ok]
    constructor
    · rintro ⟨⟨hash', tail⟩, hexpected, h⟩
      cases h
      exact expectedHash_eq_ok.mp hexpected
    · intro h
      cases hash with
      | none => exact h.elim
      | some hash => exact ⟨(hash, []), expectedHash_eq_ok.mpr h, rfl⟩

/-- What bytes which are accepted consist of, and what their proof is verified for. -/
structure Opening (digest : List Byte → CryptoHash) (decodeU64 : List Byte → Except DecodeError (Fin (2 ^ 64)))
    (bytes : List Byte) (path : Path) (value : Option (List Byte)) where
  context : Option BlockHeader
  proof : Proof
  ending : List Byte
  root : CryptoHash
  stateRoot : CryptoHash
  info : PathInfo
  hash : Option CryptoHash
  bytes_eq : bytes = headerBytes context ++ (proof.layout ++ ending)
  readable : Readable proof
  root_eq : getRoot digest context stateRoot = .ok root
  info_eq : PathInfo.tryFrom path = .ok info
  hash_eq : ValueHashOf digest decodeU64 info (isPacketCommitment path) value hash ending
  verified : proof.verify digest stateRoot info.key hash = true

/-- Bytes are accepted when they can be taken apart so. -/
theorem verifyImpl_eq_ok {withBlock : Bool} {commitmentPrefix bytes root : List Byte} {path : Path} {value : Option (List Byte)} :
    verifyImpl digest decodeU64 withBlock commitmentPrefix bytes root path value = .ok () ↔
      commitmentPrefix = [] ∧ ∃ o : Opening digest decodeU64 bytes path value,
        o.context.isSome = withBlock ∧ o.root.bytes = root := by
  unfold verifyImpl
  split
  · rename_i hprefix
    exact iff_of_false nofun fun h => hprefix h.1
  · rename_i hprefix
    rw [not_not] at hprefix
    rw [and_iff_right hprefix]
    simp only [bind_eq_ok, okOr_ok, mapError_ok, tryFrom_eq_some]
    constructor
    · rintro ⟨root, hroot, info, hinfo, ⟨stateRoot, proof, tail⟩, hread, ⟨hash, tail'⟩, hexpected, h⟩
      dsimp only at hexpected h
      split at h
      · cases h
      · rename_i htail
        rw [not_not] at htail
        subst htail
        split at h
        · rename_i hverify
          obtain ⟨context, hsome, hcontext, hproof, hbytes⟩ := readCommitted_eq_ok.mp hread
          exact ⟨⟨context, proof, tail, root, stateRoot, info, hash, hbytes, hproof, hcontext, hinfo,
            expectedValue_eq_ok.mp hexpected, hverify⟩, hsome, hroot⟩
        · cases h
    · rintro ⟨o, hsome, hroot⟩
      refine ⟨o.root, hroot, o.info, o.info_eq, (o.stateRoot, o.proof, o.ending),
        readCommitted_eq_ok.mpr ⟨o.context, hsome, o.root_eq, o.readable, o.bytes_eq⟩, (o.hash, []),
        expectedValue_eq_ok.mpr o.hash_eq, ?_⟩
      dsimp only
      rw [if_neg (not_not.mpr rfl), if_pos o.verified]
      rfl

theorem bytes_padded {bytes : List Byte} (h : bytes.length ≤ 32) :
    (padded bytes).bytes = bytes ++ List.replicate (32 - bytes.length) 0#8 := by
  have htake : (padded bytes).bytes = (bytes ++ List.replicate 32 0#8).take 32 := rfl
  rw [htake, List.take_append, List.take_of_length_le h, List.take_replicate, Nat.min_eq_left (by omega)]

section

variable {seqKind : SequenceKind} {seq a b seq' a' b' : List Byte}

theorem length_sequenceWords (hseq : seq.length = 8) (ha : a.length = 8) (hb : b.length = 8) :
    (sequenceWords seqKind seq a b).length = 24 := by
  cases seqKind <;> simp only [sequenceWords, List.length_append, hseq, ha, hb]

theorem bytes_sequencesHash (hseq : seq.length = 8) (ha : a.length = 8) (hb : b.length = 8) :
    (sequencesHash seqKind seq a b).bytes = sequenceWords seqKind seq a b ++ List.replicate 8 0#8 := by
  have hlen : (sequenceWords seqKind seq a b).length = 24 := length_sequenceWords hseq ha hb
  have hpadded := bytes_padded (hlen.le.trans (by omega))
  rw [hlen] at hpadded
  exact hpadded

theorem append3_inj (ha : a.length = a'.length) (hseq : seq.length = seq'.length)
    (h : a ++ seq ++ b = a' ++ seq' ++ b') : a = a' ∧ seq = seq' ∧ b = b' := by
  obtain ⟨hfront, rfl⟩ := List.append_inj h (by rw [List.length_append, List.length_append, ha, hseq])
  obtain ⟨rfl, rfl⟩ := List.append_inj hfront ha
  exact ⟨rfl, rfl, rfl⟩

/-- Each of the sequences is told by the hash. -/
theorem sequencesHash_inj (hseq : seq.length = 8) (ha : a.length = 8) (hb : b.length = 8) (hseq' : seq'.length = 8)
    (ha' : a'.length = 8) (hb' : b'.length = 8) (h : sequencesHash seqKind seq a b = sequencesHash seqKind seq' a' b') :
    seq = seq' ∧ a = a' ∧ b = b' := by
  have hbytes := congrArg CryptoHash.bytes h
  rw [bytes_sequencesHash hseq ha hb, bytes_sequencesHash hseq' ha' hb'] at hbytes
  have hwords := List.append_cancel_right hbytes
  cases seqKind with
  | send => exact append3_inj (hseq.trans hseq'.symm) (ha.trans ha'.symm) hwords
  | recv =>
    obtain ⟨ha, hseq, hb⟩ := append3_inj (ha.trans ha'.symm) (hseq.trans hseq'.symm) hwords
    exact ⟨hseq, ha, hb⟩
  | ack =>
    obtain ⟨ha, hb, hseq⟩ := append3_inj (ha.trans ha'.symm) (hb.trans hb'.symm) hwords
    exact ⟨hseq, ha, hb⟩

theorem slice_words {bytes : List Byte} (h₀ : a.length = 8) (h₁ : seq.length = 8) (h₂ : b.length = 8)
    (h : bytes = a ++ seq ++ b ++ List.replicate 8 0#8) :
    slice bytes 0 8 = a ∧ slice bytes 8 8 = seq ∧ slice bytes 16 8 = b := by
  subst h
  refine ⟨?_, ?_, ?_⟩
  · rw [List.append_assoc, List.append_assoc, slice, List.drop_zero, List.take_left' h₀]
  · rw [List.append_assoc _ b, slice_append_mid h₀ h₁]
  · exact slice_append_mid (by rw [List.length_append, h₀, h₁]) h₂

/-- The generator leaves out exactly the sequence which the verifier puts in. -/
theorem otherSequences_sequencesHash (hseq : seq.length = 8) (ha : a.length = 8) (hb : b.length = 8) :
    otherSequences (sequencesHash seqKind seq a b) seqKind = a ++ b := by
  have hbytes : (sequencesHash seqKind seq a b).bytes = _ := bytes_sequencesHash hseq ha hb
  have hunfold : ∀ value : CryptoHash, otherSequences value seqKind =
      (if 0 ≠ SequenceKind.index seqKind then slice value.bytes 0 8 else []) ++
        ((if 1 ≠ SequenceKind.index seqKind then slice value.bytes 8 8 else []) ++
          ((if 2 ≠ SequenceKind.index seqKind then slice value.bytes 16 8 else []) ++ [])) := fun _ => rfl
  rw [hunfold]
  cases seqKind with
  | send =>
    obtain ⟨h₀, h₁, h₂⟩ := slice_words hseq ha hb hbytes
    rw [h₁, h₂]
    exact congrArg (a ++ ·) (List.append_nil b)
  | recv =>
    obtain ⟨h₀, h₁, h₂⟩ := slice_words ha hseq hb hbytes
    rw [h₀, h₂]
    exact congrArg (a ++ ·) (List.append_nil b)
  | ack =>
    obtain ⟨h₀, h₁, h₂⟩ := slice_words ha hb hseq hbytes
    rw [h₀, h₁]
    exact congrArg (a ++ ·) (List.append_nil b)

end

end CfGuest
