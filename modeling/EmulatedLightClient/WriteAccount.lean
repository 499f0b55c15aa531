import EmulatedLightClient.Buffers
import EmulatedLightClient.MachineInts
import EmulatedLightClient.Readers

/-!
# The program which writes to accounts

A client cuts data into chunks and makes an instruction for each. The program writes a chunk into an account whose
address is derived from the payer and a seed, and creates the account or makes it larger if it has to. The client and
the program each have their own way of telling the seed.
-/

namespace WriteAccount

open Buffers ByteBits MachineInts Readers

abbrev Pubkey := { l : List Byte // l.length = 32 }

inductive ProgramError where
  | accountAlreadyInUse
  | accountDataTooSmall
  | arithmeticOverflow
  | externalAccountDataModified
  | externalAccountLamportSpend
  | insufficientFunds
  | invalidAccountData
  | invalidInstructionData
  | invalidRealloc
  | invalidSeeds
  | maxSeedLengthExceeded
  | missingRequiredSignature
  | modifiedProgramId
  | notEnoughAccountKeys
  deriving DecidableEq

/-- How the client may end without a value. -/
inductive Fault where
  | program (e : ProgramError)
  | panic
  deriving DecidableEq

structure Account where
  lamports : Nat
  owner : Pubkey
  data : List Byte
  deriving DecidableEq

structure AccountInfo where
  key : Pubkey
  isSigner : Bool
  isWritable : Bool
  account : Account

/-- What the host decides: which bytes give an address, what rent is, how far accounts may grow, and what is found in
the memory they grow by. -/
structure Host where
  derive : List Byte → Option Pubkey
  minimumBalance : Nat → Nat
  permitted : Nat → Nat → Bool
  fresh : Nat → Nat → List Byte
  minimumBalance_pos : ∀ n, 0 < minimumBalance n
  length_fresh : ∀ a b, (fresh a b).length = b - a

theorem systemProgram_size : (List.replicate 32 0#8).length = 32 := rfl

def systemProgram : Pubkey := ⟨List.replicate 32 0#8, systemProgram_size⟩

def maxSeedLen : Nat := 32

def maxSeeds : Nat := 16

variable (host : Host)

def createProgramAddress (seeds : List (List Byte)) (programId : Pubkey) : Except ProgramError Pubkey :=
  if maxSeeds < seeds.length ∨ ∃ seed ∈ seeds, maxSeedLen < seed.length then .error .maxSeedLengthExceeded
  else
    match host.derive (seeds.flatten ++ programId.val) with
    | some key => .ok key
    | none => .error .invalidSeeds

/-- Tries bumps from the largest one on; there may be none, which is a panic. -/
def findProgramAddress (seeds : List (List Byte)) (programId : Pubkey) : Except Fault (Pubkey × Byte) :=
  let bumps := (List.range 255).map fun i => BitVec.ofNat 8 (255 - i)
  match bumps.findSome? fun bump => (createProgramAddress host (seeds ++ [[bump]]) programId).toOption.map (·, bump) with
  | some r => .ok r
  | none => .error .panic

/-- A program changes the data of none but its own accounts. -/
def setData (programId : Pubkey) (acc : Account) (data : List Byte) : Except ProgramError Account :=
  if acc.owner = programId ∨ data = acc.data then .ok { acc with data } else .error .externalAccountDataModified

def realloc (programId : Pubkey) (acc : Account) (size : Nat) : Except ProgramError Account :=
  if host.permitted acc.data.length size then
    setData programId acc (acc.data.take size ++ host.fresh acc.data.length size)
  else .error .invalidRealloc

/-- What the system program does to create an account; the first of the two pays. -/
def createAccount (payer write : Account) (lamports size : Nat) (owner : Pubkey) :
    Except ProgramError (Account × Account) :=
  if write.lamports ≠ 0 ∨ write.data ≠ [] ∨ write.owner ≠ systemProgram then .error .accountAlreadyInUse
  else if ¬ host.permitted 0 size then .error .invalidRealloc
  else if payer.lamports < lamports then .error .insufficientFunds
  else .ok ({ payer with lamports := payer.lamports - lamports }, ⟨lamports, owner, List.replicate size 0#8⟩)

def transfer (payer write : Account) (lamports : Nat) : Except ProgramError (Account × Account) :=
  if payer.lamports < lamports then .error .insufficientFunds
  else .ok ({ payer with lamports := payer.lamports - lamports }, { write with lamports := write.lamports + lamports })

abbrev Parser (α : Type) := Reader ProgramError Byte α

def read {α : Type} (n : Nat) (convert : List Byte → α) : Parser α := do
  let head ← Reader.take .invalidInstructionData n
  return convert head

def readUsize (n : Nat) (convert : List Byte → Nat) : Parser Nat := do
  let size ← read n convert
  if size < 2 ^ 64 then return size else throw .arithmeticOverflow

def readSlice (len : Nat) : Parser (List Byte) := Reader.take .invalidInstructionData len

structure Accounts where
  payer : AccountInfo
  write : AccountInfo
  seedAndBump : List Byte

namespace Accounts

def writeSeeds (accounts : Accounts) : List (List Byte) := [accounts.payer.key.val, accounts.seedAndBump]

/-- Gets and verifies accounts. The seed and its bump make one seed. -/
def get (programId : Pubkey) (accounts : List AccountInfo) : Parser Accounts := do
  let payer ← Reader.ofOption .notEnoughAccountKeys accounts[0]?
  if ¬ payer.isSigner then throw .missingRequiredSignature
  else if ¬ payer.isWritable then throw .invalidAccountData
  else
    let write ← Reader.ofOption .notEnoughAccountKeys accounts[1]?
    if ¬ write.isWritable then throw .invalidAccountData
    else
      let seedLen ← read 1 ofLeBytes
      let seedAndBump ← readSlice (seedLen + 1)
      let this : Accounts := ⟨payer, write, seedAndBump⟩
      match createProgramAddress host this.writeSeeds programId with
      | .ok pda => if pda = write.key then return this else throw .invalidSeeds
      | .error _ => throw .invalidSeeds

/-- The accounts with other contents. -/
def put (accounts : Accounts) (contents : Account × Account) : Accounts :=
  { accounts with payer.account := contents.1, write.account := contents.2 }

end Accounts

/-- Gives the write account the size it needs, and creates it if it has no lamports. -/
def setupWriteAccount (programId : Pubkey) (payer write : Account) (size : Nat) :
    Except ProgramError (Account × Account) :=
  if write.lamports = 0 then createAccount host payer write (host.minimumBalance size) size programId
  else if write.data.length < size then do
    let lamports := host.minimumBalance size - write.lamports
    let (payer, write) ← if 0 < lamports then transfer payer write lamports else .ok (payer, write)
    let write ← realloc host programId write size
    return (payer, write)
  else return (payer, write)

def handleWrite (programId : Pubkey) (accounts : Accounts) (data : List Byte) : Except ProgramError Accounts := do
  let (start, data) ← readUsize 4 ofLeBytes data
  match checkedAdd 64 start data.length with
  | none => throw .arithmeticOverflow
  | some stop =>
    let (payer, write) ← setupWriteAccount host programId accounts.payer.account accounts.write.account stop
    if stop ≤ write.data.length then do
      let write ← setData programId write (splice write.data start data)
      return accounts.put (payer, write)
    else throw .accountDataTooSmall

/-- Gives the lamports back. Only the owner may take them and give the account away. -/
def handleFree (programId : Pubkey) (accounts : Accounts) : Except ProgramError Accounts := do
  let payer := accounts.payer.account
  let write := accounts.write.account
  match checkedAdd 64 payer.lamports write.lamports with
  | none => throw .arithmeticOverflow
  | some lamports =>
    let freed ← realloc host programId write 0
    if write.owner ≠ programId ∧ write.lamports ≠ 0 then throw .externalAccountLamportSpend
    else if write.owner ≠ programId ∧ write.owner ≠ systemProgram then throw .modifiedProgramId
    else return accounts.put ({ payer with lamports }, { freed with lamports := 0, owner := systemProgram })

/-- Reads the start of the instruction. -/
def parse (programId : Pubkey) (accounts : List AccountInfo) : Parser Accounts := do
  let discriminant ← read 1 ofLeBytes
  if discriminant ≠ 0 then throw .invalidInstructionData else Accounts.get host programId accounts

def processInstruction (programId : Pubkey) (accounts : List AccountInfo) (instruction : List Byte) :
    Except ProgramError Accounts := do
  let (accounts, rest) ← parse host programId accounts instruction
  if rest = [] then handleFree host programId accounts else handleWrite host programId accounts rest

structure AccountMeta where
  pubkey : Pubkey
  isSigner : Bool
  isWritable : Bool
  deriving DecidableEq

structure Instruction where
  programId : Pubkey
  accounts : List AccountMeta
  data : List Byte
  deriving DecidableEq

def accountMetas (payer writeAccount : Pubkey) : List AccountMeta :=
  [⟨payer, true, true⟩, ⟨writeAccount, false, true⟩, ⟨systemProgram, false, false⟩]

/-- Checks that the seed is not too long and returns how long it is. -/
def checkSeed (seed : List Byte) : Except ProgramError Byte :=
  if seed.length ≤ maxSeedLen then .ok (BitVec.ofNat 8 seed.length) else .error .maxSeedLengthExceeded

structure WriteIter where
  writeProgram : Pubkey
  payer : Pubkey
  writeAccount : Pubkey
  seed : List Byte
  bump : Byte
  data : List Byte
  position : Nat
  chunkSize : NonZero 16

namespace WriteIter

def defaultChunkSize : NonZero 16 := ⟨500, by decide, by decide⟩

def new (writeProgram payer : Pubkey) (seed data : List Byte) : Except Fault (WriteIter × Pubkey × Byte) := do
  let _ ← (checkSeed seed).mapError .program
  let (writeAccount, bump) ← findProgramAddress host [payer.val, seed] writeProgram
  return (⟨writeProgram, payer, writeAccount, seed, bump, data, 0, defaultChunkSize⟩, writeAccount, bump)

/-- Where the next chunk ends. -/
def chunkEnd (it : WriteIter) : Nat := min (min (it.position + it.chunkSize.get) (2 ^ 64 - 1)) it.data.length

def instruction (it : WriteIter) : Instruction where
  programId := it.writeProgram
  accounts := accountMetas it.payer it.writeAccount
  data := [0#8] ++ [BitVec.ofNat 8 it.seed.length] ++ it.seed ++ [it.bump] ++ leBytes 4 it.position ++
    slice it.data it.position (it.chunkEnd - it.position)

/-- The offset has to fit in four bytes, or else it is a panic. -/
def next (it : WriteIter) : Except Fault (Option (Instruction × WriteIter)) :=
  if it.data.length ≤ it.position then .ok none
  else if it.position < 2 ^ 32 then .ok (some (it.instruction, { it with position := it.chunkEnd }))
  else .error .panic

theorem chunkEnd_gt {it : WriteIter} (h : it.position < it.data.length) (hlt : it.position < 2 ^ 32) :
    it.position < it.chunkEnd := by
  have hpos := it.chunkSize.pos
  unfold chunkEnd
  omega

/-- What the iterator generates. -/
def instructions (it : WriteIter) : Except Fault (List Instruction) :=
  if h : it.data.length ≤ it.position then .ok []
  else if hlt : it.position < 2 ^ 32 then
    have := chunkEnd_gt (Nat.lt_of_not_le h) hlt
    (instructions { it with position := it.chunkEnd }).map (it.instruction :: ·)
  else .error .panic
termination_by it.data.length - it.position

/-- The instructions are those which are asked for one after the other. -/
theorem instructions_eq (it : WriteIter) : it.instructions = (do
    match ← it.next with
    | none => return []
    | some (ix, it) => return ix :: (← it.instructions)) := by
  rw [instructions, next]
  by_cases h : it.data.length ≤ it.position
  · rw [dif_pos h, if_pos h]
    rfl
  · rw [dif_neg h, if_neg h]
    by_cases hlt : it.position < 2 ^ 32
    · rw [dif_pos hlt, if_pos hlt]
      simp only [bind, Except.bind]
      cases instructions { it with position := it.chunkEnd } <;> rfl
    · rw [dif_neg hlt, if_neg hlt]
      rfl

end WriteIter

/-- The Free operation, put together in a buffer. -/
def free (writeProgram payer : Pubkey) (writeAccount : Option Pubkey) (seed : List Byte) (bump : Byte) :
    Except ProgramError Instruction := do
  let len ← checkSeed seed
  let buf := List.replicate (maxSeedLen + 3) 0#8
  let buf := splice (splice (splice buf 1 [len]) 2 seed) (seed.length + 2) [bump]
  let writeAccount ←
    match writeAccount with
    | none => createProgramAddress host [payer.val, seed, [bump]] writeProgram
    | some acc => .ok acc
  return ⟨writeProgram, accountMetas payer writeAccount, buf.take (seed.length + 3)⟩

/-- The accounts of an instruction with what they hold, in the order in which they are named. -/
def accountInfos (metas : List AccountMeta) (payer write : Account) : List AccountInfo :=
  List.zipWith (fun m account => ⟨m.pubkey, m.isSigner, m.isWritable, account⟩) metas
    [payer, write, ⟨1, systemProgram, []⟩]

/-- What the write account holds after the instruction. -/
def execute (ix : Instruction) (payer write : Account) : Except ProgramError Account := do
  let accounts ← processInstruction host ix.programId (accountInfos ix.accounts payer write) ix.data
  return accounts.write.account

/-- Instructions in some order, with what the payer has at each. -/
def run (write : Account) (order : List (Instruction × Account)) : Except ProgramError Account :=
  order.foldlM (fun write x => execute host x.1 x.2 write) write

/-- An account of the contract; its data may be held by others too. -/
structure IxAccount where
  data : List Byte
  shared : Bool

/-- Interprets the data of the last account as instruction data and takes the account off the list. -/
def getIxData (accounts : List IxAccount) : Except Fault (List Byte × List IxAccount) :=
  match accounts.getLast? with
  | none => .error (.program .notEnoughAccountKeys)
  | some account =>
    if account.shared then .error .panic
    else if account.data.length < 4 then .error (.program .invalidInstructionData)
    else
      let len := ofLeBytes (account.data.take 4)
      let data := account.data.drop 4
      if len ≤ data.length then .ok (data.take len, accounts.dropLast)
      else .error (.program .invalidInstructionData)

end WriteAccount
