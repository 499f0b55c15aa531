import EmulatedLightClient.AccountTries
import EmulatedLightClient.AsciiText
import EmulatedLightClient.TrieOperations
import EmulatedLightClient.WitnessData
import EmulatedLightClient.WriteAccount

/-!
# The program of the witnessed trie

A program which keeps many tries, each in an account of its own at an address derived from a seed. Next to each there
is a witness account for the root of the trie. An instruction opens one trie, performs operations and closes it again;
whatever goes wrong, accounts are left as they were.
-/

namespace WitnessedTrie

open AsciiText ByteBits MachineInts Nodes SolanaTrie
open SolanaIbc (Clock)
open WriteAccount (AccountMeta Host ProgramError Pubkey createProgramAddress findProgramAddress systemProgram)

/-- An account with everything its hash covers. -/
structure Account extends WriteAccount.Account where
  executable : Bool
  rentEpoch : Fin (2 ^ 64)
  fits : lamports < 2 ^ 64

abbrev Bank := Pubkey → Account

inductive InstructionError where
  | program (e : ProgramError)
  | accountBorrowFailed
  | custom (code : Nat)
  | invalidAccountOwner
  | privilegeEscalation
  | readonlyDataModified
  | uninitializedAccount
  | panicked
  deriving DecidableEq

def nextAccountInfo : List AccountMeta → Except InstructionError (AccountMeta × List AccountMeta)
  | [] => .error (.program .notEnoughAccountKeys)
  | account :: accounts => .ok (account, accounts)

section

variable (host : Host) (programId : Pubkey)

theorem createAccount_fits {payer account payer' account' : WriteAccount.Account} {lamports size : Nat}
    (h : WriteAccount.createAccount host payer account lamports size programId = .ok (payer', account'))
    (hfits : payer.lamports < 2 ^ 64) : payer'.lamports < 2 ^ 64 ∧ account'.lamports < 2 ^ 64 := by
  unfold WriteAccount.createAccount at h
  split at h
  · cases h
  split at h
  · cases h
  split at h
  · cases h
  · rename_i henough
    cases h
    exact ⟨(Nat.sub_le _ _).trans_lt hfits, (not_lt.mp henough).trans_lt hfits⟩

/-- The instruction of the system program, called with the seeds of the account. -/
def createAccount (bank : Bank) (payer account : AccountMeta) (size : Nat) : Except InstructionError Bank :=
  if ¬ (payer.isWritable ∧ account.isWritable) then .error .privilegeEscalation
  else if payer.pubkey = account.pubkey then .error .accountBorrowFailed
  else
    match h : WriteAccount.createAccount host (bank payer.pubkey).toAccount (bank account.pubkey).toAccount
        (host.minimumBalance size) size programId with
    | .error e => .error (.program e)
    | .ok (payer', account') =>
      let fits := createAccount_fits host programId h (bank payer.pubkey).fits
      .ok (Function.update
        (Function.update bank payer.pubkey { bank payer.pubkey with toAccount := payer', fits := fits.1 })
        account.pubkey { bank account.pubkey with toAccount := account', fits := fits.2 })

/-- Takes the next account from the iterator and verifies that it is a signer. -/
def getPayer (accounts : List AccountMeta) : Except InstructionError (AccountMeta × List AccountMeta) := do
  let (account, accounts) ← nextAccountInfo accounts
  if account.isSigner then return (account, accounts) else throw (.program .missingRequiredSignature)

/-- Makes sure the account is initialised. -/
def ensureInitialised (bank : Bank) (payer account : AccountMeta) (size : Nat) : Except InstructionError Bank :=
  if (bank account.pubkey).owner ≠ programId then
    if (bank account.pubkey).owner ≠ systemProgram then .error .invalidAccountOwner
    else createAccount host programId bank payer account size
  else .ok bank

def rootSeed : List Byte := ascii "root"

def witnessSeed : List Byte := ascii "witness"

def rootSize : Nat := 10240

/-- Address of the trie root account with given seed and bump. -/
def rootAddress (seed : List Byte) (bump : Byte) : Except ProgramError Pubkey :=
  createProgramAddress host [rootSeed, seed, [bump]] programId

/-- Witness account for given trie root account; there may be none, which is a panic. -/
def findWitnessAccount (root : Pubkey) : Except WriteAccount.Fault (Pubkey × Byte) :=
  findProgramAddress host [witnessSeed, root.val] programId

def getRoot (bank : Bank) (payer : AccountMeta) (accounts : List AccountMeta) (seed : List Byte) (bump : Byte) :
    Except InstructionError (AccountMeta × List AccountMeta × Bank) := do
  let (account, accounts) ← nextAccountInfo accounts
  let expected ← (rootAddress host programId seed bump).mapError .program
  if account.pubkey ≠ expected then throw .invalidAccountOwner
  else
    let bank ← ensureInitialised host programId bank payer account rootSize
    return (account, accounts, bank)

def getWitness (bank : Bank) (payer : AccountMeta) (accounts : List AccountMeta) (root : Pubkey) :
    Except InstructionError (AccountMeta × Bank) := do
  let (account, _) ← nextAccountInfo accounts
  let (expected, _) ← (findWitnessAccount host programId root).mapError fun _ => .panicked
  if account.pubkey ≠ expected then throw .invalidAccountOwner
  else
    let bank ← ensureInitialised host programId bank payer account Witness.Data.size
    return (account, bank)

def checkAccount (account : Account) : Except InstructionError Unit :=
  if account.owner ≠ systemProgram ∧ account.lamports = 0 then .error .uninitializedAccount
  else if account.owner ≠ programId then .error .invalidAccountOwner
  else .ok ()

def Op.call : Op → SealableTrie.Call
  | .set key hash => .set key hash
  | .del key => .del key
  | .seal key => .sealValue key

variable (digest : List Byte → CryptoHash)

/-- Performs the operations until one of them fails. -/
def perform : List Op → SealableTrie.Trie (SolanaTrie.Account FixedData) →
    Except InstructionError (SealableTrie.Trie (SolanaTrie.Account FixedData))
  | [], trie => .ok trie
  | op :: ops, trie =>
    match makeCall digest trie op.call with
    | (.ok _, trie) => perform ops trie
    | (.error .panic, _) => .error .panicked
    | (.error (.err _), _) => .error (.custom 1)

/-- The tries there are in the course of the operations. -/
def visited : List Op → SealableTrie.Trie (SolanaTrie.Account FixedData) →
    List (SealableTrie.Trie (SolanaTrie.Account FixedData))
  | [], _ => []
  | op :: ops, trie => (makeCall digest trie op.call).2 :: visited ops (makeCall digest trie op.call).2

/-- Value returned from the contract in return data. -/
structure ReturnData where
  lamports : Fin (2 ^ 64)
  rentEpoch : Fin (2 ^ 64)
  data : Witness.Data

def ReturnData.executable (_ : ReturnData) : Bool := false

/-- Addresses of the host and those of the client have the same bytes. -/
def toPubKey (key : Pubkey) : CryptoHash := ⟨key.val, key.property⟩

/-- Calculates the hash of the account as used in the tree of account changes of the host. -/
def ReturnData.hashAccount (B : CfSolana.Blake3) (ret : ReturnData) (accountAddress owner : Pubkey) : Option CryptoHash :=
  CfSolana.hashAccount B ret.lamports (toPubKey owner) ret.executable ret.rentEpoch ret.data.bytes (toPubKey accountAddress)

/-- The hash the host has for the account. -/
def Account.hash (B : CfSolana.Blake3) (key : Pubkey) (a : Account) : Option CryptoHash :=
  CfSolana.hashAccount B ⟨a.lamports, a.fits⟩ (toPubKey a.owner) a.executable a.rentEpoch a.data (toPubKey key)

/-- The account with other data. -/
def Account.withData (account : Account) (data : List Byte) : Account := { account with data }

/-- Opens the trie, performs operations and closes it, which updates the witness. -/
def processInstruction (clock : Clock) (bank : Bank) (accounts : List AccountMeta) (instruction : List Byte) :
    Except InstructionError (Bank × ReturnData) := do
  let data ← (Data.fromSlice instruction).mapError fun
    | .parse _ => .program .invalidInstructionData
    | .panic => .panicked
  let (payer, accounts) ← getPayer accounts
  let (root, accounts, bank) ← getRoot host programId bank payer accounts data.rootSeed data.rootBump
  let (witness, bank) ← getWitness host programId bank payer accounts root.pubkey
  match openTrie (FixedData.mk (bank root.pubkey).data) with
  | none => throw (.program .invalidAccountData)
  | some trie =>
    checkAccount programId (bank witness.pubkey)
    -- The data of the root account are borrowed already.
    if witness.pubkey = root.pubkey then throw .accountBorrowFailed
    else if (bank witness.pubkey).data.length ≠ Witness.Data.size then throw (.program .invalidAccountData)
    else
      let trie ← perform digest data.ops trie
      match closeTrie trie with
      | none => throw .panicked
      | some closed =>
        let witnessData := Witness.Data.new trie.rootHash clock
        let account := (bank witness.pubkey).withData witnessData.bytes
        let bank := Function.update
          (Function.update bank witness.pubkey account) root.pubkey ((bank root.pubkey).withData closed.bytes)
        return (bank, ⟨⟨account.lamports, account.fits⟩, account.rentEpoch, witnessData⟩)

/-- The host takes nothing that was written to accounts which are not writable. -/
def execute (clock : Clock) (bank : Bank) (accounts : List AccountMeta) (instruction : List Byte) :
    Except InstructionError (Bank × ReturnData) := do
  let (bank', ret) ← processInstruction host programId digest clock bank accounts instruction
  if ∃ m ∈ accounts, m.isWritable = false ∧ (bank' m.pubkey).data ≠ (bank m.pubkey).data then
    throw .readonlyDataModified
  else return (bank', ret)

end

end WitnessedTrie
