import EmulatedLightClient.AsciiText
import EmulatedLightClient.Buffers
import EmulatedLightClient.FailingState
import EmulatedLightClient.MachineInts
import EmulatedLightClient.Nodes
import EmulatedLightClient.SortedSearch
import Mathlib.Algebra.Ring.Nat
import Mathlib.Data.List.Lex
import Mathlib.Data.List.Sort

/-!
# The signature verifier program

The native program of the host verifies signatures given in an instruction. The
program which runs after it reads them from the instruction and keeps a hash of each
in an account, sorted. A verifier looks a signature up in an instruction of the native
program or in the account.
-/

namespace SignatureVerifier

open AsciiText Buffers ByteBits FailingState MachineInts Nodes SortedSearch

/-- Arrays of bytes of a fixed length. -/
abbrev Bytes (n : Nat) := { l : List Byte // l.length = n }

inductive ProgramError where
  | accountDataTooSmall
  | arithmeticOverflow
  | insufficientFunds
  | invalidAccountData
  | invalidAccountOwner
  | incorrectProgramId
  | invalidInstructionData
  | invalidRealloc
  | invalidArgument
  | notEnoughAccountKeys
deriving DecidableEq

def orError {α : Type} (x : Option α) (e : ProgramError) : Except ProgramError α := x.elim (.error e) .ok

theorem orError_ok {α : Type} {x : Option α} {e : ProgramError} {a : α} : orError x e = .ok a ↔ x = some a := by
  cases x with
  | none => simp [orError]
  | some b => simp [orError]

structure Entry where
  signature : Bytes 64
  pubkey : Bytes 32
  message : List Byte
deriving DecidableEq

inductive EntryError where
  | unsupportedFeature
  | badData
deriving DecidableEq

theorem length_take_drop {l : List Byte} {offset n : Nat} (h : n ≤ (l.drop offset).length) :
    ((l.drop offset).take n).length = n := by
  rw [List.length_take]
  exact Nat.min_eq_left h

def getArray (n : Nat) (data : List Byte) (offset : Nat) : Option (Bytes n) :=
  if h : offset ≤ data.length ∧ n ≤ (data.drop offset).length then
    some ⟨(data.drop offset).take n, length_take_drop h.2⟩
  else none

/-- Decodes a descriptor, seven numbers of two bytes. What it points at has to be in
the same instruction. -/
def decodeEntry (data entry : List Byte) : Except EntryError Entry :=
  let field := fun i => ofLeBytes (slice entry (2 * i) 2)
  if field 1 ≠ 2 ^ 16 - 1 ∨ field 3 ≠ 2 ^ 16 - 1 ∨ field 6 ≠ 2 ^ 16 - 1 then .error .unsupportedFeature
  else
    match getArray 64 data (field 0), getArray 32 data (field 2), getArray (field 5) data (field 4) with
    | some signature, some pubkey, some message => .ok ⟨signature, pubkey, message.val⟩
    | _, _, _ => .error .badData

/-- Whole records of given size; what is left at the end is not one. -/
def asChunks (size : Nat) (l : List Byte) : List (List Byte) := records l 0 size (l.length / size)

/-- The entries of an instruction; the missing value is malformed data. -/
def parseData (data : List Byte) : Option (List (Except EntryError Entry)) :=
  match data with
  | count :: 0#8 :: rest =>
    let chunks := asChunks 14 rest
    if count.toNat ≤ chunks.length then some ((chunks.take count.toNat).map (decodeEntry data)) else none
  | _ => none

structure Instruction where
  programId : BitVec 256
  data : List Byte

/-- `Ed25519SigVerify111111111111111111111111111`. -/
def ed25519Program : BitVec 256 := 0x037d46d67c93fbbe12f9428f838d40ff0570744927f48a64fcca704480000000#256

section

variable (digest : List Byte → CryptoHash)

def ed25519HashMagic : List Byte := ascii "ed25519" ++ [0#8]

def sighashPreimage (magic : List Byte) (key : Bytes 32) (signature : Bytes 64) (message : List Byte) : List Byte :=
  magic ++ leBytes 8 message.length ++ key.val ++ signature.val ++ message

def newEd25519 (key : Bytes 32) (signature : Bytes 64) (message : List Byte) : CryptoHash :=
  digest (sighashPreimage ed25519HashMagic key signature message)

def Entry.sighash (e : Entry) : CryptoHash := newEd25519 digest e.pubkey e.signature e.message

end

/-- Bytes compare as unsigned numbers, arrays of them lexicographically. -/
def lexKey (bytes : List Byte) : List Nat := bytes.map BitVec.toNat

theorem lexKey_injective : Function.Injective lexKey :=
  List.map_injective_iff.mpr fun _ _ h => BitVec.eq_of_toNat_eq h

def readCount (data : List Byte) : Except ProgramError Nat :=
  if 4 ≤ data.length then .ok (ofLeBytes (data.take 4)) else .error .accountDataTooSmall

/-- The first `count` records after the counter, if there are so many. -/
def getEntries (data : List Byte) (count : Nat) : Option (List (List Byte)) :=
  let chunks := asChunks 32 (data.drop 4)
  if count ≤ chunks.length then some (chunks.take count) else none

def sortEntries (entries : List (List Byte)) : List (List Byte) :=
  entries.insertionSort fun a b => lexKey a ≤ lexKey b

def writeCountAndSort (data : List Byte) (count : Nat) : Except ProgramError (List Byte) :=
  if data.length < 4 then .error .accountDataTooSmall
  else do
    let entries ← orError (getEntries data count) .accountDataTooSmall
    return splice (splice data 0 (leBytes 4 count)) 4 (sortEntries entries).flatten

def findSighash (data : List Byte) (signature : CryptoHash) : Except ProgramError Bool :=
  if data.length < 4 then .error .accountDataTooSmall
  else do
    let entries ← orError (getEntries data (ofLeBytes (data.take 4))) .invalidAccountData
    return (binarySearch (entries.map lexKey) (lexKey signature.bytes)).isOk

def findEd25519 (digest : List Byte → CryptoHash) (data : List Byte) (key : Bytes 32) (signature : Bytes 64)
    (message : List Byte) : Except ProgramError Bool :=
  findSighash data (newEd25519 digest key signature message)

structure Account where
  lamports : Nat
  data : List Byte

def maxPermittedDataIncrease : Nat := 10240

def maxPermittedDataLength : Nat := 10 * 1024 * 1024

/-- What the host decides about an instruction: the rent of an account, whether the
payer can pay, and what is found in the memory an account grows by, if it may grow. -/
structure Host where
  minimumBalance : Nat → Nat
  pays : Nat → Bool
  realloc : Nat → Nat → Option (List Byte)
  length_realloc : ∀ a b bytes, realloc a b = some bytes → bytes.length = b - a

section

variable (host : Host)

/-- Creates the account if it does not exist. -/
def initialiseSignaturesAccount (acc : Account) : Except ProgramError Account :=
  if acc.lamports ≠ 0 then .ok acc
  else
    let requiredLamports := host.minimumBalance maxPermittedDataIncrease
    if acc.data = [] ∧ host.pays requiredLamports then
      .ok ⟨requiredLamports, List.replicate maxPermittedDataIncrease 0#8⟩
    else .error .insufficientFunds

def enlargeSignaturesAccount (acc : Account) : Except ProgramError Account :=
  let currentSize := acc.data.length
  let size := min (currentSize + maxPermittedDataIncrease) maxPermittedDataLength
  if size ≤ currentSize then .ok acc
  else
    let lamports := host.minimumBalance size - acc.lamports
    if 0 < lamports ∧ !host.pays lamports then .error .insufficientFunds
    else do
      let bytes ← orError (host.realloc currentSize size) .invalidRealloc
      return ⟨acc.lamports + lamports, acc.data ++ bytes⟩

def enlargeIfShort (acc : Account) (size : Nat) : Except ProgramError Account :=
  if acc.data.length < size then enlargeSignaturesAccount host acc else .ok acc

/-- Writes the hash at an index, which may take a larger account. -/
def writeSignature (acc : Account) (index : Nat) (signature : CryptoHash) : Except ProgramError Account := do
  let start := 4 + 32 * index
  let acc ← enlargeIfShort host acc (start + 32)
  if start + 32 ≤ acc.data.length then return { acc with data := splice acc.data start signature.bytes }
  else .error .accountDataTooSmall

variable (digest : List Byte → CryptoHash)

/-- Adds one entry of the instruction; those which need other instructions are left
out. -/
def addEntry (s : Account × Nat) : Except EntryError Entry → Except ProgramError (Account × Nat)
  | .ok entry => do
    let acc ← writeSignature host s.1 s.2 (entry.sighash digest)
    let count ← orError (checkedAdd 32 s.2 1) .arithmeticOverflow
    return (acc, count)
  | .error .unsupportedFeature => .ok s
  | .error .badData => .error .invalidInstructionData

def processEd25519Instruction (s : Account × Nat) (instruction : Instruction) :
    Except ProgramError (Account × Nat) :=
  if instruction.programId ≠ ed25519Program then .ok s
  else do
    let entries ← orError (parseData instruction.data) .invalidInstructionData
    entries.foldlM (addEntry host digest) s

/-- The number of signatures to keep, by default all. -/
def readTruncate (instruction : List Byte) : Except ProgramError Nat :=
  if instruction = [] then .ok (2 ^ 32 - 1)
  else if instruction.length = 4 then .ok (ofLeBytes instruction)
  else .error .invalidInstructionData

/-- The Update operation. `prevIx` is the instruction before, as the host tells. -/
def handleUpdate (acc : Account) (instruction : List Byte) (prevIx : Except ProgramError Instruction) :
    Except ProgramError Account := do
  let truncate ← readTruncate instruction
  let acc ← initialiseSignaturesAccount host acc
  let count ← readCount acc.data
  let prevIx ← prevIx
  let (acc, count) ← processEd25519Instruction host digest (acc, min count truncate) prevIx
  let data ← writeCountAndSort acc.data count
  return { acc with data }

end

inductive VerifierError where
  | badData
deriving DecidableEq

structure Verifier where
  ed25519Data : Option (List Byte)
  sigverifyData : Option (List Byte)

namespace Verifier

def default : Verifier := ⟨none, none⟩

def setIxSysvar (v : Verifier) (prevIx : Except ProgramError Instruction) : Except ProgramError Verifier := do
  let ix ← prevIx
  if ix.programId = ed25519Program then return { v with ed25519Data := some ix.data }
  else .error .incorrectProgramId

def setSigverifyAccount (v : Verifier) (owner : BitVec 256) (data : List Byte) (expectedOwner : BitVec 256) :
    Except ProgramError Verifier :=
  if owner = expectedOwner then .ok { v with sigverifyData := some data } else .error .invalidAccountOwner

/-- Goes through the entries up to the one looked for. -/
def checkItems (entry : Entry) : List (Except EntryError Entry) → Except VerifierError Bool
  | [] => .ok false
  | .ok item :: items => if item = entry then .ok true else checkItems entry items
  | .error .unsupportedFeature :: items => checkItems entry items
  | .error .badData :: _ => .error .badData

def checkEd25519Data (data : List Byte) (entry : Entry) : Except VerifierError Bool :=
  match parseData data with
  | none => .error .badData
  | some items => checkItems entry items

variable (digest : List Byte → CryptoHash)

def checkSigverifyData (data : List Byte) (entry : Entry) : Except VerifierError Bool :=
  (findSighash data (entry.sighash digest)).mapError fun _ => .badData

/-- A source of signatures which was not set has none. -/
def verify (v : Verifier) (message : List Byte) (pubkey : Bytes 32) (signature : Bytes 64) :
    Except VerifierError Bool := do
  let entry : Entry := ⟨signature, pubkey, message⟩
  if ← v.ed25519Data.elim (.ok false) (checkEd25519Data · entry) then return true
  else if ← v.sigverifyData.elim (.ok false) (checkSigverifyData digest · entry) then return true
  else return false

end Verifier

end SignatureVerifier
