import EmulatedLightClient.ChainData
import EmulatedLightClient.TokenLedger
import Mathlib.Algebra.Ring.Int.Defs
import Mathlib.Data.Nat.Pairing

/-!
# Restaking

A deposit opens a vault and gives the depositor a receipt, the one token of a new
mint. Who holds the receipt may ask for the stake back: the receipt goes to escrow
and, once the unbonding period is over, is burnt as the stake is paid out.

Accounts whose address is derived from seeds are not listed among those of an
instruction, any other in their place is refused. The rent of the program's own
accounts is left out.
-/

namespace Restaking

open ByteBits FailingState GuestChain MachineInts Nodes SolanaIbc TokenLedger

/-- Addresses the program derives, and which keys can sign. -/
class Addresses (K : Type) where
  stakingParams : K
  /-- Token account the rewards are paid from. -/
  rewards : K
  /-- Token account with all the stake in one mint. -/
  vaultToken : (tokenMint : K) → K
  escrowReceipt : (receiptTokenMint : K) → K
  associatedToken : (owner mint : K) → K
  /-- The guest chain's program the build is linked with. -/
  solanaIbc : K
  chain : (programId : K) → K
  trie : (programId : K) → K
  canSign : K → Bool
  vaultToken_injective : Function.Injective vaultToken
  vaultToken_ne_rewards : ∀ t, vaultToken t ≠ rewards
  vaultToken_ne_escrowReceipt : ∀ t m, vaultToken t ≠ escrowReceipt m
  vaultToken_ne_associatedToken : ∀ t owner mint, vaultToken t ≠ associatedToken owner mint
  escrowReceipt_ne_associatedToken : ∀ m owner mint, escrowReceipt m ≠ associatedToken owner mint
  canSign_stakingParams : canSign stakingParams = false

export Addresses (vaultToken escrowReceipt associatedToken)

structure AccountInfo (K : Type) where
  key : K
  isWritable : Bool

inductive ErrorCodes where
  | tokenAlreadyWhitelisted
  | tokenNotWhitelisted
  | operationNotAllowed
  | subtractionOverflow
  | invalidTokenMint
  | insufficientReceiptTokenBalance
  | missingService
  | stakingCapExceeded
  | newStakingCapShouldBeMoreThanExistingOne
  | guestChainAlreadyInitialized
  | accountValidationFailedForCPI
  | serviceAlreadySet
  | noProposedAdmin
  | cannotWithdrawDuringUnbondingPeriod
  | noWithdrawalRequest
  | invalidTokenAccount
  | invalidWithdrawer
deriving DecidableEq

/-- Ways in which an instruction fails; none leaves anything behind. -/
inductive Fault where
  /-- An account does not meet the constraints declared for it. -/
  | constraint
  | constraintSigner
  | code (err : ErrorCodes)
  /-- Another program refuses a call. -/
  | cpi
  | chain (err : ChainError)
  | panic
deriving DecidableEq

section

variable {α : Type} {x : Option α} {a : α} {p : Prop} [Decidable p] {u : Unit} {f : Fault}

def orFault (x : Option α) (f : Fault) : Except Fault α := x.elim (.error f) .ok

def check (p : Prop) [Decidable p] (f : Fault) : Except Fault Unit := if p then .ok () else .error f

omit [Decidable p] in
theorem orFault_ok : orFault x f = .ok a ↔ x = some a := by
  cases x with
  | none => simp [orFault]
  | some b => simp [orFault]

theorem check_ok : check p f = .ok u ↔ p := by
  unfold check
  split <;> simp_all

end

structure StakingParams (K : Type) where
  admin : K
  whitelistedTokens : List K
  /-- Missing until the guest chain is initialised. -/
  guestChainProgramId : Option K
  rewardsTokenMint : K
  stakingCap : Nat
  totalDepositedAmount : Nat
  newAdminProposal : Option K

inductive Service (K : Type) where
  | guestChain (validator : K)

def Service.validator {K : Type} : Service K → K
  | guestChain validator => validator

structure WithdrawalRequestParams (K : Type) where
  timestampInSec : Nat
  owner : K
  tokenAccount : K

structure Vault (K : Type) where
  stakeTimestampSec : Int
  service : Option (Service K)
  stakeAmount : Nat
  stakeMint : K
  lastReceivedRewardsHeight : Nat
  withdrawalRequest : Option (WithdrawalRequestParams K)

/-- Vaults are found by the mint of their receipt. -/
structure State (K : Type) where
  stakingParams : Option (StakingParams K)
  vaults : K → Option (Vault K)
  ledger : Ledger K
  /-- The guest chains, by the program which runs them. -/
  chains : K → Option (ChainData K)

def tokenName : String := "Composable Restaking Position"

def tokenSymbol : String := "CRP"

def tokenUri : String := "https://arweave.net/QbxPlvN1nHFG0AVXfGNdlXUk-LEkrQxFffI3fOUDciA"

/-- Seven days. -/
def unbondingPeriodInSec : Nat := 7 * 24 * 60 * 60

/-- The timestamp of the clock as an unsigned number. -/
def timestampSec (clock : Clock) : Nat := (clock.unixTimestamp % 2 ^ 64).toNat

section

variable {K : Type} [PubKey K] [Addresses K] [TokenProgram K] [MetadataProgram K]

def tokenAccount (l : Ledger K) (k mint authority : K) : Except Fault (TokenAccount K) := do
  let x ← orFault (l.tokens k) .constraint
  check (x.mint = mint ∧ x.owner = authority) .constraint
  return x

/-- The mint of a receipt, which only its master edition could mint more of. -/
def receiptMint (l : Ledger K) (m : K) : Except Fault (Mint K) := do
  let mint ← orFault (l.mints m) .constraint
  check (mint.decimals = 0 ∧ mint.mintAuthority = some (MetadataProgram.edition m)) .constraint
  return mint

def init (l : Ledger K) (payer k mint owner : K) : Except Fault (Ledger K) :=
  orFault (TokenProgram.initializeAccount l payer k mint owner) .constraint

def initIfNeeded (l : Ledger K) (payer k mint owner : K) : Except Fault (Ledger K) :=
  if (l.tokens k).isNone then init l payer k mint owner
  else do
    let _ ← tokenAccount l k mint owner
    return l

def transfer (l : Ledger K) (src dst authority : K) (amount : Nat) : Except Fault (Ledger K) :=
  orFault (TokenProgram.transfer l src dst authority amount) .cpi

def closeAccount (l : Ledger K) (account destination authority : K) : Except Fault (Ledger K) :=
  orFault (TokenProgram.closeAccount l account destination authority) .cpi

/-- Mints the one token of a mint and makes the mint's master edition. -/
def mintNft (l : Ledger K) (tokenMint payer mintAuthority dst : K) : Except Fault (Ledger K) := do
  let l ← orFault (TokenProgram.mintTo l tokenMint dst mintAuthority 1) .cpi
  let l ← orFault (MetadataProgram.createMetadata l payer tokenMint mintAuthority
    tokenName tokenSymbol tokenUri) .cpi
  orFault (MetadataProgram.createMasterEdition l payer tokenMint mintAuthority) .cpi

/-- The accounts of a call into the guest chain: the chain, the trie and the program. -/
def validateRemainingAccounts (accounts : List (AccountInfo K)) (guestChainProgramId : K) :
    Except Fault Unit :=
  match accounts with
  | chain :: trie :: program :: _ =>
    check ((chain.key = Addresses.chain guestChainProgramId ∧ chain.isWritable = true) ∧
        (trie.key = Addresses.trie guestChainProgramId ∧ trie.isWritable = true) ∧
        program.key = guestChainProgramId)
      (.code .accountValidationFailedForCPI)
  | _ => .error (.code .accountValidationFailedForCPI)

variable (digest : List Byte → CryptoHash)

/-- The guest chain's program declares its address and refuses to run at another. -/
def setStake (s : State K) (clock : Clock) (programId : K) (c : ChainData K) (validator : K)
    (amount : Fin (2 ^ 128)) : Except Fault (State K) := do
  check (programId = Addresses.solanaIbc) .cpi
  let c ← (c.setStake digest clock validator amount).mapError .chain
  return { s with chains := Function.update s.chains programId (some c) }

/-- The candidate's stake and what is added to it. -/
def addedStake (candidate : Option (Candidate K)) (amount : Nat) : Option (Fin (2 ^ 128)) :=
  let stake := candidate.elim 0 (·.stake.get) + amount
  if h : stake < 2 ^ 128 then some ⟨stake, h⟩ else none

theorem stake_sub_lt (stake : NonZeroU128) (amount : Nat) : stake.get - amount < 2 ^ 128 :=
  Nat.lt_of_le_of_lt (Nat.sub_le ..) stake.lt

/-- The candidate's stake without the amount. -/
def removedStake (candidate : Candidate K) (amount : Nat) : Option (Fin (2 ^ 128)) :=
  if amount ≤ candidate.stake.get then
    some ⟨candidate.stake.get - amount, stake_sub_lt candidate.stake amount⟩
  else none

/-- Adds to the stake of a validator, as `deposit` and `set_service` do. -/
def addStake (s : State K) (clock : Clock) (programId validator : K) (amount : Nat) :
    Except Fault (State K) := do
  let c ← orFault (s.chains programId) .panic
  let candidate ← (c.candidate validator).mapError fun _ => .code .operationNotAllowed
  let stake ← orFault (addedStake candidate amount) .panic
  setStake digest s clock programId c validator stake

variable (s : State K) (signers : List K) (clock : Clock)

structure Initialize (K : Type) where
  admin : K
  rewardsTokenMint : K

def initializeStaking (ctx : Initialize K) (whitelistedTokens : List K) (stakingCap : Fin (2 ^ 128)) :
    Except Fault (State K) := do
  check (ctx.admin ∈ signers ∧ s.stakingParams.isNone) .constraint
  let _ ← orFault (s.ledger.mints ctx.rewardsTokenMint) .constraint
  let l ← init s.ledger ctx.admin Addresses.rewards ctx.rewardsTokenMint Addresses.stakingParams
  return { s with
    ledger := l
    stakingParams := some
      { admin := ctx.admin
        whitelistedTokens
        guestChainProgramId := none
        rewardsTokenMint := ctx.rewardsTokenMint
        stakingCap
        totalDepositedAmount := 0
        newAdminProposal := none } }

structure Deposit (K : Type) where
  depositor : K
  tokenMint : K
  depositorTokenAccount : K
  receiptTokenMint : K
  remainingAccounts : List (AccountInfo K)

/-- A new mint signs for itself. -/
def deposit (ctx : Deposit K) (service : Service K) (amount : Fin (2 ^ 64)) :
    Except Fault (State K) := do
  check (ctx.depositor ∈ signers ∧ ctx.receiptTokenMint ∈ signers) .constraint
  let params ← orFault s.stakingParams .constraint
  let tokenMint ← orFault (s.ledger.mints ctx.tokenMint) .constraint
  check (tokenMint.decimals = 9) .constraint
  let _ ← tokenAccount s.ledger ctx.depositorTokenAccount ctx.tokenMint ctx.depositor
  let receiptTokenAccount := associatedToken ctx.depositor ctx.receiptTokenMint
  check (s.vaults ctx.receiptTokenMint).isNone .constraint
  let l ← initIfNeeded s.ledger ctx.depositor (vaultToken ctx.tokenMint) ctx.tokenMint
    Addresses.stakingParams
  let l ← orFault (TokenProgram.initializeMint l ctx.depositor ctx.receiptTokenMint 0 ctx.depositor)
    .constraint
  let l ← init l ctx.depositor receiptTokenAccount ctx.receiptTokenMint ctx.depositor
  check (ctx.tokenMint ∈ params.whitelistedTokens) (.code .tokenNotWhitelisted)
  let total ← orFault (checkedAdd 128 params.totalDepositedAmount amount) .panic
  check (total ≤ params.stakingCap) (.code .stakingCapExceeded)
  let vault : Vault K :=
    { stakeTimestampSec := clock.unixTimestamp
      service := if params.guestChainProgramId.isSome then some service else none
      stakeAmount := amount
      stakeMint := ctx.tokenMint
      lastReceivedRewardsHeight := 0
      withdrawalRequest := none }
  let l ← transfer l ctx.depositorTokenAccount (vaultToken ctx.tokenMint) ctx.depositor amount
  let l ← mintNft l ctx.receiptTokenMint ctx.depositor ctx.depositor receiptTokenAccount
  let s := { s with
    ledger := l
    stakingParams := some { params with totalDepositedAmount := total }
    vaults := Function.update s.vaults ctx.receiptTokenMint (some vault) }
  match params.guestChainProgramId with
  | none => return s
  | some programId => do
    validateRemainingAccounts ctx.remainingAccounts programId
    addStake digest s clock programId service.validator amount

structure WithdrawalRequest (K : Type) where
  withdrawer : K
  tokenMint : K
  withdrawerTokenAccount : K
  rewardsTokenMint : K
  receiptTokenMint : K
  receiptTokenAccount : K

def withdrawalRequest (ctx : WithdrawalRequest K) : Except Fault (State K) := do
  let escrowReceiptTokenAccount := escrowReceipt ctx.receiptTokenMint
  let depositorRewardsTokenAccount := associatedToken ctx.withdrawer ctx.rewardsTokenMint
  check (ctx.withdrawer ∈ signers) .constraint
  let vault ← orFault (s.vaults ctx.receiptTokenMint) .constraint
  let params ← orFault s.stakingParams .constraint
  check (params.rewardsTokenMint = ctx.rewardsTokenMint) .constraint
  let chain ← orFault (s.chains Addresses.solanaIbc) .constraint
  let _ ← orFault (s.ledger.mints ctx.tokenMint) .constraint
  let _ ← tokenAccount s.ledger ctx.withdrawerTokenAccount ctx.tokenMint ctx.withdrawer
  let _ ← tokenAccount s.ledger (vaultToken ctx.tokenMint) ctx.tokenMint Addresses.stakingParams
  let _ ← orFault (s.ledger.mints ctx.rewardsTokenMint) .constraint
  let _ ← tokenAccount s.ledger Addresses.rewards ctx.rewardsTokenMint Addresses.stakingParams
  let _ ← receiptMint s.ledger ctx.receiptTokenMint
  let _ ← tokenAccount s.ledger ctx.receiptTokenAccount ctx.receiptTokenMint ctx.withdrawer
  let l ← initIfNeeded s.ledger ctx.withdrawer depositorRewardsTokenAccount ctx.rewardsTokenMint
    ctx.withdrawer
  let l ← init l ctx.withdrawer escrowReceiptTokenAccount ctx.receiptTokenMint Addresses.stakingParams
  check params.guestChainProgramId.isSome (.code .operationNotAllowed)
  check (ctx.tokenMint = vault.stakeMint) (.code .invalidTokenMint)
  let service ← orFault vault.service (.code .missingService)
  let (rewards, currentHeight) ← (chain.calculateRewards vault.lastReceivedRewardsHeight
    service.validator vault.stakeAmount).mapError .chain
  let l ← transfer l Addresses.rewards depositorRewardsTokenAccount Addresses.stakingParams rewards
  let l ← transfer l ctx.receiptTokenAccount escrowReceiptTokenAccount ctx.withdrawer 1
  let l ← closeAccount l ctx.receiptTokenAccount ctx.withdrawer ctx.withdrawer
  return { s with
    ledger := l
    vaults := Function.update s.vaults ctx.receiptTokenMint (some { vault with
      lastReceivedRewardsHeight := currentHeight
      withdrawalRequest := some
        { timestampInSec := timestampSec clock
          owner := ctx.withdrawer
          tokenAccount := ctx.withdrawerTokenAccount } }) }

structure CancelWithdrawalRequest (K : Type) where
  withdrawer : K
  receiptTokenMint : K

def cancelWithdrawalRequest (ctx : CancelWithdrawalRequest K) : Except Fault (State K) := do
  let escrowReceiptTokenAccount := escrowReceipt ctx.receiptTokenMint
  let receiptTokenAccount := associatedToken ctx.withdrawer ctx.receiptTokenMint
  check (ctx.withdrawer ∈ signers ∧ s.stakingParams.isSome) .constraint
  let vault ← orFault (s.vaults ctx.receiptTokenMint) .constraint
  let _ ← receiptMint s.ledger ctx.receiptTokenMint
  let _ ← tokenAccount s.ledger escrowReceiptTokenAccount ctx.receiptTokenMint Addresses.stakingParams
  let l ← init s.ledger ctx.withdrawer receiptTokenAccount ctx.receiptTokenMint ctx.withdrawer
  let _ ← orFault vault.withdrawalRequest (.code .noWithdrawalRequest)
  let l ← transfer l escrowReceiptTokenAccount receiptTokenAccount Addresses.stakingParams 1
  let l ← closeAccount l escrowReceiptTokenAccount ctx.withdrawer Addresses.stakingParams
  return { s with
    ledger := l
    vaults := Function.update s.vaults ctx.receiptTokenMint
      (some { vault with withdrawalRequest := none }) }

structure Withdraw (K : Type) where
  signer : K
  withdrawer : K
  tokenMint : K
  withdrawerTokenAccount : K
  receiptTokenMint : K

/-- The call into the guest chain names the withdrawer as the one who signs it, so
it takes the withdrawer's signature too. -/
def withdraw (ctx : Withdraw K) : Except Fault (State K) := do
  let vaultTokenAccount := vaultToken ctx.tokenMint
  let escrowReceiptTokenAccount := escrowReceipt ctx.receiptTokenMint
  check (ctx.signer ∈ signers) .constraint
  let vault ← orFault (s.vaults ctx.receiptTokenMint) .constraint
  let params ← orFault s.stakingParams .constraint
  let chain ← orFault (s.chains Addresses.solanaIbc) .constraint
  let _ ← orFault (s.ledger.mints ctx.tokenMint) .constraint
  let withdrawerTokenAccount ← orFault (s.ledger.tokens ctx.withdrawerTokenAccount) .constraint
  check (withdrawerTokenAccount.mint = ctx.tokenMint) .constraint
  let _ ← tokenAccount s.ledger vaultTokenAccount ctx.tokenMint Addresses.stakingParams
  let _ ← receiptMint s.ledger ctx.receiptTokenMint
  let _ ← tokenAccount s.ledger escrowReceiptTokenAccount ctx.receiptTokenMint Addresses.stakingParams
  check params.guestChainProgramId.isSome (.code .operationNotAllowed)
  check (ctx.tokenMint = vault.stakeMint) (.code .invalidTokenMint)
  let request ← orFault vault.withdrawalRequest (.code .noWithdrawalRequest)
  check (ctx.withdrawer = request.owner) (.code .invalidWithdrawer)
  check (ctx.withdrawerTokenAccount = request.tokenAccount) (.code .invalidTokenAccount)
  let unbondingPeriod ← orFault (checkedAdd 64 request.timestampInSec unbondingPeriodInSec) .panic
  check (unbondingPeriod ≤ timestampSec clock) (.code .cannotWithdrawDuringUnbondingPeriod)
  let service ← orFault vault.service (.code .missingService)
  let total ← orFault (checkedSub params.totalDepositedAmount vault.stakeAmount) .panic
  let candidate ← (chain.candidate service.validator).mapError fun _ => .code .operationNotAllowed
  let validator ← orFault candidate (.code .missingService)
  let stake ← orFault (removedStake validator vault.stakeAmount) (.code .subtractionOverflow)
  check (ctx.withdrawer ∈ signers) .cpi
  let s ← setStake digest s clock Addresses.solanaIbc chain service.validator stake
  let l ← transfer s.ledger vaultTokenAccount ctx.withdrawerTokenAccount Addresses.stakingParams
    vault.stakeAmount
  let l ← orFault (MetadataProgram.burnNft l Addresses.stakingParams ctx.receiptTokenMint
    escrowReceiptTokenAccount) .cpi
  return { s with
    ledger := l
    stakingParams := some { params with totalDepositedAmount := total }
    vaults := Function.update s.vaults ctx.receiptTokenMint none }

/-- The staking parameters, for an instruction of the admin. -/
def updateStakingParams (admin : K) : Except Fault (StakingParams K) := do
  check (admin ∈ signers) .constraint
  let params ← orFault s.stakingParams .constraint
  check (params.admin = admin) .constraint
  return params

def updateTokenWhitelist (admin : K) (newTokenMints : List K) : Except Fault (State K) := do
  let params ← updateStakingParams s signers admin
  check (¬ ∃ tokenMint ∈ newTokenMints, tokenMint ∈ params.whitelistedTokens)
    (.code .tokenAlreadyWhitelisted)
  let params := { params with whitelistedTokens := params.whitelistedTokens ++ newTokenMints }
  return { s with stakingParams := some params }

def updateGuestChainInitialization (admin guestChainProgramId : K) : Except Fault (State K) := do
  let params ← updateStakingParams s signers admin
  check params.guestChainProgramId.isNone (.code .guestChainAlreadyInitialized)
  let params := { params with guestChainProgramId := some guestChainProgramId }
  return { s with stakingParams := some params }

def changeAdminProposal (admin newAdmin : K) : Except Fault (State K) := do
  let params ← updateStakingParams s signers admin
  return { s with stakingParams := some { params with newAdminProposal := some newAdmin } }

/-- The proposal is not cleared. -/
def acceptAdminChange (newAdmin : K) : Except Fault (State K) := do
  check (newAdmin ∈ signers) .constraint
  let params ← orFault s.stakingParams .constraint
  let proposal ← orFault params.newAdminProposal (.code .noProposedAdmin)
  check (proposal = newAdmin) .constraintSigner
  return { s with stakingParams := some { params with admin := proposal } }

structure Claim (K : Type) where
  claimer : K
  rewardsTokenMint : K
  receiptTokenMint : K
  receiptTokenAccount : K

def claimRewards (ctx : Claim K) : Except Fault (State K) := do
  let depositorRewardsTokenAccount := associatedToken ctx.claimer ctx.rewardsTokenMint
  check (ctx.claimer ∈ signers) .constraint
  let vault ← orFault (s.vaults ctx.receiptTokenMint) .constraint
  let params ← orFault s.stakingParams .constraint
  check (params.rewardsTokenMint = ctx.rewardsTokenMint) .constraint
  let chain ← orFault (s.chains Addresses.solanaIbc) .constraint
  let _ ← orFault (s.ledger.mints ctx.rewardsTokenMint) .constraint
  let _ ← tokenAccount s.ledger Addresses.rewards ctx.rewardsTokenMint Addresses.stakingParams
  let receiptTokenMint ← orFault (s.ledger.mints ctx.receiptTokenMint) .constraint
  check (receiptTokenMint.decimals = 0) .constraint
  let receipt ← tokenAccount s.ledger ctx.receiptTokenAccount ctx.receiptTokenMint ctx.claimer
  let l ← initIfNeeded s.ledger ctx.claimer depositorRewardsTokenAccount ctx.rewardsTokenMint ctx.claimer
  check params.guestChainProgramId.isSome (.code .operationNotAllowed)
  check (1 ≤ receipt.amount) (.code .insufficientReceiptTokenBalance)
  let service ← orFault vault.service (.code .missingService)
  let (rewards, currentHeight) ← (chain.calculateRewards vault.lastReceivedRewardsHeight
    service.validator vault.stakeAmount).mapError .chain
  let l ← transfer l Addresses.rewards depositorRewardsTokenAccount Addresses.stakingParams rewards
  return { s with
    ledger := l
    vaults := Function.update s.vaults ctx.receiptTokenMint
      (some { vault with lastReceivedRewardsHeight := currentHeight }) }

structure SetService (K : Type) where
  depositor : K
  receiptTokenMint : K
  receiptTokenAccount : K
  stakeMint : K
  remainingAccounts : List (AccountInfo K)

/-- The remaining accounts are looked at twice in the source. -/
def setService (ctx : SetService K) (service : Service K) : Except Fault (State K) := do
  check (ctx.depositor ∈ signers) .constraint
  let vault ← orFault (s.vaults ctx.receiptTokenMint) .constraint
  let params ← orFault s.stakingParams .constraint
  let receiptTokenMint ← orFault (s.ledger.mints ctx.receiptTokenMint) .constraint
  check (receiptTokenMint.decimals = 0) .constraint
  let receipt ← tokenAccount s.ledger ctx.receiptTokenAccount ctx.receiptTokenMint ctx.depositor
  let _ ← orFault (s.ledger.mints ctx.stakeMint) .constraint
  check (vault.stakeMint = ctx.stakeMint) .constraint
  check (1 ≤ receipt.amount) (.code .insufficientReceiptTokenBalance)
  let programId ← orFault params.guestChainProgramId (.code .operationNotAllowed)
  validateRemainingAccounts ctx.remainingAccounts programId
  check vault.service.isNone (.code .serviceAlreadySet)
  let s := { s with
    vaults := Function.update s.vaults ctx.receiptTokenMint
      (some { vault with service := some service }) }
  addStake digest s clock programId service.validator vault.stakeAmount

structure WithdrawRewardFunds (K : Type) where
  admin : K
  rewardsTokenMint : K
  adminRewardsTokenAccount : K

def withdrawRewardFunds (ctx : WithdrawRewardFunds K) : Except Fault (State K) := do
  let params ← updateStakingParams s signers ctx.admin
  check (params.rewardsTokenMint = ctx.rewardsTokenMint) .constraint
  let _ ← orFault (s.ledger.mints ctx.rewardsTokenMint) .constraint
  let rewards ← tokenAccount s.ledger Addresses.rewards ctx.rewardsTokenMint Addresses.stakingParams
  let _ ← orFault (s.ledger.tokens ctx.adminRewardsTokenAccount) .constraint
  let l ← transfer s.ledger Addresses.rewards ctx.adminRewardsTokenAccount Addresses.stakingParams
    rewards.amount
  return { s with ledger := l }

def updateStakingCap (admin : K) (newStakingCap : Fin (2 ^ 128)) : Except Fault (State K) := do
  let params ← updateStakingParams s signers admin
  check (params.stakingCap < newStakingCap) (.code .newStakingCapShouldBeMoreThanExistingOne)
  return { s with stakingParams := some { params with stakingCap := newStakingCap } }

end

inductive Call (K : Type) where
  | initializeStaking (ctx : Initialize K) (whitelistedTokens : List K) (stakingCap : Fin (2 ^ 128))
  | deposit (ctx : Deposit K) (service : Service K) (amount : Fin (2 ^ 64))
  | withdrawalRequest (ctx : WithdrawalRequest K)
  | cancelWithdrawalRequest (ctx : CancelWithdrawalRequest K)
  | withdraw (ctx : Withdraw K)
  | updateTokenWhitelist (admin : K) (newTokenMints : List K)
  | updateGuestChainInitialization (admin guestChainProgramId : K)
  | changeAdminProposal (admin newAdmin : K)
  | acceptAdminChange (newAdmin : K)
  | claimRewards (ctx : Claim K)
  | setService (ctx : SetService K) (service : Service K)
  | withdrawRewardFunds (ctx : WithdrawRewardFunds K)
  | updateStakingCap (admin : K) (newStakingCap : Fin (2 ^ 128))

/-- A call, with the keys which signed it and the time it gets executed at. -/
structure Instruction (K : Type) where
  signers : List K
  clock : Clock
  call : Call K

namespace State

variable {K : Type} [PubKey K] [Addresses K] [TokenProgram K] [MetadataProgram K]
  (digest : List Byte → CryptoHash)

def dispatch (s : State K) (ix : Instruction K) : Except Fault (State K) :=
  match ix.call with
  | .initializeStaking ctx whitelistedTokens stakingCap =>
    Restaking.initializeStaking s ix.signers ctx whitelistedTokens stakingCap
  | .deposit ctx service amount => Restaking.deposit digest s ix.signers ix.clock ctx service amount
  | .withdrawalRequest ctx => Restaking.withdrawalRequest s ix.signers ix.clock ctx
  | .cancelWithdrawalRequest ctx => Restaking.cancelWithdrawalRequest s ix.signers ctx
  | .withdraw ctx => Restaking.withdraw digest s ix.signers ix.clock ctx
  | .updateTokenWhitelist admin newTokenMints =>
    Restaking.updateTokenWhitelist s ix.signers admin newTokenMints
  | .updateGuestChainInitialization admin guestChainProgramId =>
    Restaking.updateGuestChainInitialization s ix.signers admin guestChainProgramId
  | .changeAdminProposal admin newAdmin => Restaking.changeAdminProposal s ix.signers admin newAdmin
  | .acceptAdminChange newAdmin => Restaking.acceptAdminChange s ix.signers newAdmin
  | .claimRewards ctx => Restaking.claimRewards s ix.signers ctx
  | .setService ctx service => Restaking.setService digest s ix.signers ix.clock ctx service
  | .withdrawRewardFunds ctx => Restaking.withdrawRewardFunds s ix.signers ctx
  | .updateStakingCap admin newStakingCap => Restaking.updateStakingCap s ix.signers admin newStakingCap

/-- Only keys sign. -/
def step (s : State K) (ix : Instruction K) : Except Fault (State K) := do
  check (∀ k ∈ ix.signers, Addresses.canSign k = true) .constraint
  s.dispatch digest ix

/-- An instruction which fails leaves no trace. -/
def exec (s : State K) (ix : Instruction K) : State K := (s.step digest ix).toOption.getD s

def execAll (s : State K) (ixs : List (Instruction K)) : State K := ixs.foldl (exec digest) s

end State

inductive Seed where
  | stakingParams
  | rewards
  | vault
  | escrowReceipt
  | associatedToken
  | edition
  | program
  | chain
  | trie

def Seed.code : Seed → Nat
  | stakingParams => 0
  | rewards => 1
  | vault => 2
  | escrowReceipt => 3
  | associatedToken => 4
  | edition => 5
  | program => 6
  | chain => 7
  | trie => 8

theorem Seed.code_injective : Function.Injective Seed.code := by
  intro a b h
  cases a <;> cases b <;> first | rfl | cases h

/-- Keys, and the addresses derived from a seed and up to two others. -/
inductive Address where
  | wallet (n : Nat)
  | derived (seed : Seed) (a b : Address)

namespace Address

def code : Address → Nat
  | wallet n => 2 * n
  | derived seed a b => 2 * Nat.pair seed.code (Nat.pair a.code b.code) + 1

theorem code_injective : Function.Injective code := by
  intro x
  induction x with
  | wallet n =>
    intro y h
    cases y with
    | wallet n' =>
      simp only [code] at h
      rw [show n = n' by omega]
    | derived seed' a' b' =>
      simp only [code] at h
      omega
  | derived seed a b ha hb =>
    intro y h
    cases y with
    | wallet n' =>
      simp only [code] at h
      omega
    | derived seed' a' b' =>
      have hpair : Nat.pair seed.code (Nat.pair a.code b.code) =
          Nat.pair seed'.code (Nat.pair a'.code b'.code) := by
        simp only [code] at h
        omega
      obtain ⟨hseed, hrest⟩ := Nat.pair_eq_pair.mp hpair
      obtain ⟨ha', hb'⟩ := Nat.pair_eq_pair.mp hrest
      rw [Seed.code_injective hseed, ha ha', hb hb']

instance linearOrder : LinearOrder Address := LinearOrder.lift' code code_injective

instance pubKey : PubKey Address where
  serialize := fun a => leBytes 32 a.code

/-- Address derived from a seed alone. -/
def ofSeed (seed : Seed) : Address := derived seed (wallet 0) (wallet 0)

def ofSeedAnd (seed : Seed) (a : Address) : Address := derived seed a (wallet 0)

def canSign : Address → Bool
  | wallet _ => true
  | derived _ _ _ => false

theorem ofSeedAnd_injective (seed : Seed) : Function.Injective (ofSeedAnd seed) :=
  fun _ _ h => (derived.inj h).2.1

theorem ofSeedAnd_vault_ne_rewards (t : Address) : ofSeedAnd .vault t ≠ ofSeed .rewards :=
  fun h => Seed.noConfusion (derived.inj h).1

theorem ofSeedAnd_vault_ne_escrowReceipt (t m : Address) :
    ofSeedAnd .vault t ≠ ofSeedAnd .escrowReceipt m :=
  fun h => Seed.noConfusion (derived.inj h).1

theorem ofSeedAnd_vault_ne_associatedToken (t owner mint : Address) :
    ofSeedAnd .vault t ≠ derived .associatedToken owner mint :=
  fun h => Seed.noConfusion (derived.inj h).1

theorem ofSeedAnd_escrowReceipt_ne_associatedToken (m owner mint : Address) :
    ofSeedAnd .escrowReceipt m ≠ derived .associatedToken owner mint :=
  fun h => Seed.noConfusion (derived.inj h).1

theorem canSign_stakingParams : canSign (ofSeed .stakingParams) = false := rfl

instance addresses : Addresses Address where
  stakingParams := ofSeed .stakingParams
  rewards := ofSeed .rewards
  vaultToken := ofSeedAnd .vault
  escrowReceipt := ofSeedAnd .escrowReceipt
  associatedToken := derived .associatedToken
  solanaIbc := ofSeed .program
  chain := ofSeedAnd .chain
  trie := ofSeedAnd .trie
  canSign := canSign
  vaultToken_injective := ofSeedAnd_injective .vault
  vaultToken_ne_rewards := ofSeedAnd_vault_ne_rewards
  vaultToken_ne_escrowReceipt := ofSeedAnd_vault_ne_escrowReceipt
  vaultToken_ne_associatedToken := ofSeedAnd_vault_ne_associatedToken
  escrowReceipt_ne_associatedToken := ofSeedAnd_escrowReceipt_ne_associatedToken
  canSign_stakingParams := canSign_stakingParams

instance tokenProgram : TokenProgram Address := ledgerProgram (wallet 0) 890880 2039280 1461600

instance metadataProgram : MetadataProgram Address := ledgerMetadata (ofSeedAnd .edition)

end Address

end Restaking
