import EmulatedLightClient.HashTrees
import EmulatedLightClient.Nodes
import Mathlib.Data.List.Sort

/-!
# Merkle proofs of accounts

Accounts of a block form a tree of fanout 16 over their hashes, sorted by key. A proof holds, for each
level, one byte with the position and the number of siblings, and the siblings of all levels. The
missing value is a panic.
-/

namespace CfSolana

open ByteBits Nodes Buffers HashTrees

/-- The fanout of an accounts delta Merkle tree. -/
def merkleFanout : Nat := 16

/-- The capacity of a path. -/
def maxDepth : Nat := 16

def concatHashes (hashes : List CryptoHash) : List Byte := hashes.flatMap (·.bytes)

/-- Bytes as hashes with what is left over. -/
def asHashes (bytes : List Byte) : List CryptoHash × List Byte :=
  let len := bytes.length / 32
  ((records bytes 0 32 len).filterMap CryptoHash.tryFrom, bytes.drop (len * 32))

structure MerkleProof where
  path : List Byte
  siblings : List CryptoHash
  depth_le : path.length ≤ maxDepth

namespace MerkleProof

theorem depth_default : ([] : List Byte).length ≤ maxDepth := Nat.zero_le _

def default : MerkleProof := ⟨[], [], depth_default⟩

/-- Unpacks index in chunk and siblings count. -/
def unpackIndexLen (num : Byte) : Option (Nat × Nat) :=
  let index := (num >>> 4).toNat
  let len := (num &&& 15#8).toNat
  if index ≤ len then some (index, len) else none

/-- Packs index in chunk and siblings count. -/
def packIndexLen (index len : Nat) : Option Byte :=
  if 0 < len ∧ len < merkleFanout ∧ index ≤ len then some (BitVec.ofNat 8 index <<< 4 ||| BitVec.ofNat 8 len)
  else none

theorem depth_concat {path : List Byte} (h : path.length < maxDepth) (byte : Byte) :
    (path ++ [byte]).length ≤ maxDepth := by
  rw [List.length_append]
  exact h

/-- Adds a level to the proof. -/
def pushLevel (p : MerkleProof) (chunk : List CryptoHash) (idxInChunk : Nat) : Option MerkleProof :=
  if idxInChunk < chunk.length then
    match packIndexLen idxInChunk (chunk.length - 1) with
    | none => none
    | some byte =>
      if h : p.path.length < maxDepth then
        some ⟨p.path ++ [byte], p.siblings ++ chunk.eraseIdx idxInChunk, depth_concat h byte⟩
      else none
  else none

/-- Position and siblings at each level, from the leaf to the root. -/
def levelsOf : List Byte → List CryptoHash → Option (List (Nat × List CryptoHash))
  | [], siblings => if siblings = [] then some [] else none
  | byte :: path, siblings =>
    match unpackIndexLen byte with
    | none => none
    | some (index, len) =>
      if len ≤ siblings.length then (levelsOf path (siblings.drop len)).map ((index, siblings.take len) :: ·)
      else none

def levels (p : MerkleProof) : Option (List (Nat × List CryptoHash)) := levelsOf p.path p.siblings

/-- The root assuming that the proof is for an account with given hash. -/
def expectedRoot (digest : List Byte → CryptoHash) (p : MerkleProof) (account : CryptoHash) : Option CryptoHash :=
  p.levels.map fun levels => levels.foldl (fun hash (idxInChunk, siblings) =>
    digest (concatHashes (siblings.take idxInChunk ++ hash :: siblings.drop idxInChunk))) account

def toBinary (p : MerkleProof) : List Byte := BitVec.ofNat 8 p.path.length :: (p.path ++ concatHashes p.siblings)

/-- Reads a proof from bytes, which may not be one. -/
def fromBinary : List Byte → Option (Option MerkleProof)
  | [] => some none
  | depth :: bytes =>
    if depth.toNat ≤ bytes.length then
      if h : (bytes.take depth.toNat).length ≤ maxDepth then
        let (siblings, rest) := asHashes (bytes.drop depth.toNat)
        match (bytes.take depth.toNat).mapM unpackIndexLen with
        | none => none
        | some unpacked =>
          if rest = [] ∧ siblings.length = (unpacked.map (·.2)).sum then
            some (some ⟨bytes.take depth.toNat, siblings, h⟩)
          else some none
      else some none
    else some none

end MerkleProof

section

variable (digest : List Byte → CryptoHash)

/-- One level of the tree made in place of the one below; `idx` runs over the chunks and `out` over the
hashes written. -/
def nextLevelInPlace (hashes : List CryptoHash) : List CryptoHash :=
  let (hashes, out) := (List.range' 0 (chunkCount merkleFanout hashes.length) merkleFanout).foldl
    (fun (hashes, out) idx => (hashes.set out (digest (concatHashes ((hashes.drop idx).take merkleFanout))), out + 1))
    (hashes, 0)
  hashes.take out

/-- As many rounds as there are hashes leave one of them at most. -/
def reduceHashes : Nat → List CryptoHash → List CryptoHash
  | 0, hashes => hashes
  | fuel + 1, hashes => if 1 < hashes.length then reduceHashes fuel (nextLevelInPlace digest hashes) else hashes

variable {PubKey : Type}

/-- Computes the root; the accounts have to be sorted. -/
def computeMerkleRoot (accounts : List (PubKey × CryptoHash)) : CryptoHash :=
  let hashes := (chunks merkleFanout accounts).map fun chunk => digest (chunk.flatMap (·.2.bytes))
  ((reduceHashes digest hashes.length hashes).head?).getD CryptoHash.default

def computeHashesAtNextLevel (hashes : List CryptoHash) : List CryptoHash :=
  (chunks merkleFanout hashes).map fun chunk => digest (concatHashes chunk)

/-- The range `start..stop` of a slice. -/
def subslice {α : Type} (l : List α) (start stop : Nat) : Option (List α) :=
  if start ≤ stop ∧ stop ≤ l.length then some (slice l start (stop - start)) else none

def pushLevels : Nat → List CryptoHash → Nat → MerkleProof → Option MerkleProof
  | 0, _, _, proof => some proof
  | fuel + 1, currentHashes, pos, proof =>
    if 1 < currentHashes.length then do
      let chunkIndex := pos / merkleFanout
      let chunkStart := chunkIndex * merkleFanout
      let chunkEnd := min (chunkStart + merkleFanout) currentHashes.length
      let chunk ← subslice currentHashes chunkStart chunkEnd
      let proof ← proof.pushLevel chunk (pos % merkleFanout)
      pushLevels fuel (computeHashesAtNextLevel digest currentHashes) chunkIndex proof
    else some proof

/-- Generates a proof for the account at given index; the accounts have to be sorted. -/
def generateMerkleProof (accounts : List (PubKey × CryptoHash)) (pos : Nat) : Option MerkleProof :=
  pushLevels digest accounts.length (accounts.map (·.2)) pos MerkleProof.default

variable [LinearOrder PubKey]

def sortAccounts (accounts : List (PubKey × CryptoHash)) : List (PubKey × CryptoHash) :=
  accounts.insertionSort fun a b => a.1 ≤ b.1

/-- Sorts the accounts and constructs a proof for the one with given key. -/
def MerkleProof.generate (accounts : List (PubKey × CryptoHash)) (pubkey : PubKey) :
    List (PubKey × CryptoHash) × Option (Option (CryptoHash × MerkleProof)) :=
  let accounts := sortAccounts accounts
  match accounts.findIdx? fun item => item.1 = pubkey with
  | none => (accounts, some none)
  | some pos =>
    (accounts, (generateMerkleProof digest accounts pos).map fun proof =>
      some (computeMerkleRoot digest accounts, proof))

end

end CfSolana
