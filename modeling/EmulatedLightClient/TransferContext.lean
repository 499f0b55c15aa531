import EmulatedLightClient.FailingState
import EmulatedLightClient.TokenLedger

/-!
# Coins of a transfer

The calls the token transfer application makes into the program: each finds the
accounts it needs among those passed with the instruction and then escrows,
unescrows, mints or burns coins through the token program.
-/

namespace SolanaIbc

open TokenLedger FailingState

/-- Denominations with a trace path, as the transfer application reads them. -/
class PrefixedDenom (D : Type) where
  toString : D → String
  baseDenom : D → String
  toString_injective : Function.Injective toString

/-- Addresses derived from seeds. `digest` is the hash of the bytes of a string. -/
class ProgramAddresses (K : Type) (H : outParam Type) where
  digest : String → H
  /-- With seeds `ESCROW` and the hash. -/
  escrow : H → K
  /-- With seeds `MINT` and the hash. -/
  tokenMint : H → K
  /-- With seed `MINT_ESCROW_SEED`. -/
  mintAuthority : K
  /-- With seed `FEE_SEED`. -/
  feeAccount : K
  associatedToken : (owner mint : K) → K
  /-- The one key that may deliver messages. -/
  relayer : K
  /-- Keys whose signatures an instruction can carry. -/
  canSign : K → Bool
  escrow_digest_injective : ∀ x y, escrow (digest x) = escrow (digest y) → x = y
  escrow_ne_associatedToken : ∀ h owner mint, escrow h ≠ associatedToken owner mint
  escrow_ne_mintAuthority : ∀ h, escrow h ≠ mintAuthority
  escrow_ne_feeAccount : ∀ h, escrow h ≠ feeAccount
  mintAuthority_ne_associatedToken : ∀ owner mint, mintAuthority ≠ associatedToken owner mint
  mintAuthority_ne_feeAccount : mintAuthority ≠ feeAccount
  canSign_escrow : ∀ h, canSign (escrow h) = false
  canSign_mintAuthority : canSign mintAuthority = false

inductive TokenTransferError where
  | invalidToken
  | invalidAmount
  | parseAccountFailure
  | ackDeserialization
  | packetDataDeserialization
  | other (description : String)
deriving DecidableEq

/-- Ways in which a call ends early. All but errors abort the instruction. -/
inductive Fault where
  | panic
  /-- An account does not meet the constraints declared for it. -/
  | constraint
  | error (err : TokenTransferError)
deriving DecidableEq

structure PrefixedCoin (D : Type) where
  denom : D
  amount : Fin (2 ^ 256)

structure AccountInfo (K : Type) where
  key : K
  isSigner : Bool
  isWritable : Bool
deriving DecidableEq

structure TransferAccounts (K : Type) where
  sender : Option (AccountInfo K)
  receiver : Option (AccountInfo K)
  tokenAccount : Option (AccountInfo K)
  tokenMint : Option (AccountInfo K)
  escrowAccount : Option (AccountInfo K)
  mintAuthority : Option (AccountInfo K)
  tokenProgram : Option (AccountInfo K)
  feeCollector : Option (AccountInfo K)
  remainingAccounts : List (AccountInfo K)

structure Asset where
  originalDecimals : Fin (2 ^ 8)
  effectiveDecimalsOnSol : Fin (2 ^ 8)
deriving DecidableEq

/-- The private storage, as far as transfers read it. -/
structure PrivateStorage (K H : Type) where
  assets : H → Option Asset
  feeCollector : K
  feeInLamports : Nat

/-- Storage and accounts of one instruction. -/
structure IbcStorage (K H : Type) where
  priv : PrivateStorage K H
  accounts : TransferAccounts K

inductive EscrowOp where
  | escrow
  | unescrow
deriving DecidableEq

def wsolAddress : String := "So11111111111111111111111111111111111111112"

def checkAmountOverflow (amount : Nat) : Except TokenTransferError Nat :=
  if amount < 2 ^ 64 then .ok amount else .error .invalidAmount

theorem checkAmountOverflow_ok {amount n : Nat} (h : checkAmountOverflow amount = .ok n) : amount = n := by
  unfold checkAmountOverflow at h
  split at h
  · exact Except.ok.inj h
  · cases h

/-- `U256::exp10` as `primitive_types` documents it: the power of ten, and a panic when it does not fit into 256 bits. Of
the other operations, division rounds down and fails for zero, and `checked_mul` fails when the product does not fit. -/
def exp10 (n : Nat) : Option Nat := if 10 ^ n < 2 ^ 256 then some (10 ^ n) else none

/-- Nothing when taking the power of ten panics. -/
def convertDecimals (amount : Nat) (originalDecimals effectiveDecimalsOnSol : Fin (2 ^ 8)) :
    Option (Option Nat) :=
  match compare originalDecimals effectiveDecimalsOnSol with
  | .gt => (exp10 (originalDecimals - effectiveDecimalsOnSol)).map fun shift =>
      if shift = 0 then none else some (amount / shift)
  | .eq => some (some amount)
  | .lt => (exp10 (effectiveDecimalsOnSol - originalDecimals)).map fun shift =>
      if amount * shift < 2 ^ 256 then some (amount * shift) else none

/-- Amount of tokens an amount of a packet stands for. -/
def convertAmount (asset : Asset) (amount : Nat) : Except Fault Nat :=
  match convertDecimals amount asset.originalDecimals asset.effectiveDecimalsOnSol with
  | none => .error .panic
  | some none => .error (.error .invalidAmount)
  | some (some converted) => (checkAmountOverflow converted).mapError .error

section

variable {K D H : Type} [DecidableEq K] [PrefixedDenom D] [ProgramAddresses K H]

abbrev LedgerOp (K α : Type) := Op Fault (Ledger K) α

variable (K) in
def hashedFullDenom (denom : D) : H := ProgramAddresses.digest K (PrefixedDenom.toString denom)

def getEscrowAccount (denom : D) : K := ProgramAddresses.escrow (hashedFullDenom K denom)

def getTokenMint (denom : D) : K := ProgramAddresses.tokenMint (hashedFullDenom K denom)

def isWsol (denom : D) : Bool := PrefixedDenom.baseDenom denom == wsolAddress

def need {α : Type} (account : Option α) : Except TokenTransferError α :=
  account.elim (.error .parseAccountFailure) .ok

def ensure (p : Prop) [Decidable p] : Except TokenTransferError Unit :=
  if p then .ok () else .error .parseAccountFailure

def required {α : Type} (account : Option α) : LedgerOp K α := .lift ((need account).mapError .error)

/-- An account the code unwraps. -/
def unwrapped {α : Type} (account : Option α) : LedgerOp K α := .lift (account.elim (.error .panic) .ok)

/-- A call of the token program that is unwrapped. The program signs it for the
mint authority; other authorities have to have signed the instruction. -/
def invoke (authority : AccountInfo K) (call : Ledger K → Option (Ledger K)) : LedgerOp K Unit := fun l =>
  if authority.isSigner ∨ authority.key = ProgramAddresses.mintAuthority then
    match call l with
    | some l' => (.ok (), l')
    | none => (.error .panic, l)
  else (.error .panic, l)

def subLamports (k : K) (n : Nat) : LedgerOp K Unit := fun l =>
  if n ≤ l.lamports k then (.ok (), l.setLamports k (l.lamports k - n)) else (.error .panic, l)

def addLamports (k : K) (n : Nat) : LedgerOp K Unit := fun l =>
  if l.lamports k + n < 2 ^ 64 then (.ok (), l.setLamports k (l.lamports k + n)) else (.error .panic, l)

section

variable {α : Type} {x : α} {account : Option α} {k : K} {n : Nat} {l l' : Ledger K}
  {authority : AccountInfo K} {call : Ledger K → Option (Ledger K)} {u : Unit}

theorem need_ok : need account = .ok x ↔ account = some x := by
  cases account with
  | none => simp [need]
  | some a => simp [need]

theorem ensure_ok {p : Prop} [Decidable p] : ensure p = .ok u ↔ p := by
  unfold ensure
  split <;> simp_all

omit [DecidableEq K] in
theorem required_ok : (required account : LedgerOp K α).run l = (.ok x, l') ↔ account = some x ∧ l = l' := by
  rw [required, Op.run_lift_ok, mapError_ok, need_ok]

omit [DecidableEq K] in
theorem unwrapped_ok : (unwrapped account : LedgerOp K α).run l = (.ok x, l') ↔ account = some x ∧ l = l' := by
  rw [unwrapped, Op.run_lift_ok]
  cases account with
  | none => simp
  | some a => simp

theorem invoke_ok : (invoke authority call).run l = (.ok u, l') ↔
    (authority.isSigner ∨ authority.key = ProgramAddresses.mintAuthority) ∧ call l = some l' := by
  change invoke authority call l = _ ↔ _
  unfold invoke
  split
  · cases call l with
    | none => simp
    | some l₁ => simp_all
  · simp_all

theorem subLamports_ok : (subLamports k n).run l = (.ok u, l') ↔
    n ≤ l.lamports k ∧ l' = l.setLamports k (l.lamports k - n) := by
  change subLamports k n l = _ ↔ _
  unfold subLamports
  split
  · simp_all [eq_comm]
  · simp_all only [not_le, Prod.mk.injEq, reduceCtorEq, false_and, false_iff, not_and]
    omega

theorem addLamports_ok : (addLamports k n).run l = (.ok u, l') ↔
    l.lamports k + n < 2 ^ 64 ∧ l' = l.setLamports k (l.lamports k + n) := by
  change addLamports k n l = _ ↔ _
  unfold addLamports
  split
  · simp_all [eq_comm]
  · simp_all only [not_lt, Prod.mk.injEq, reduceCtorEq, false_and, false_iff, not_and]
    omega

end

def escrowCoinsValidateImpl (store : IbcStorage K H) (op : EscrowOp) (account : K)
    (coin : PrefixedCoin D) : Except TokenTransferError Unit := do
  let accounts := store.accounts
  ensure (accounts.tokenProgram.isSome ∧ accounts.tokenMint.isSome)
  let _ ← need (accounts.escrowAccount.filter (·.key = getEscrowAccount coin.denom))
  let party : Option (AccountInfo K) := match op with
    | .escrow => accounts.sender.filter (·.isSigner)
    | .unescrow => accounts.receiver.filter fun _ => accounts.mintAuthority.isSome
  let _ ← need (party.filter (·.key = account))
  return ()

/-- The port and the channel are not looked at. -/
def escrowCoinsValidate (store : IbcStorage K H) (fromAccount : K) (_portId _channelId : String)
    (coin : PrefixedCoin D) : Except TokenTransferError Unit :=
  escrowCoinsValidateImpl store .escrow fromAccount coin

def unescrowCoinsValidate (store : IbcStorage K H) (toAccount : K) (_portId _channelId : String)
    (coin : PrefixedCoin D) : Except TokenTransferError Unit :=
  escrowCoinsValidateImpl store .unescrow toAccount coin

/-- Checks of minting and burning, which differ in whose tokens they are. -/
def coinsValidate (store : IbcStorage K H) (party : Option (AccountInfo K)) (account : K)
    (coin : PrefixedCoin D) : Except TokenTransferError Unit := do
  let tokenMint : K := getTokenMint coin.denom
  let accounts := store.accounts
  ensure (accounts.tokenProgram.isSome ∧ accounts.tokenMint.isSome ∧ accounts.mintAuthority.isSome)
  let tokenAccount ← need accounts.tokenAccount
  let tokenMintAccount ← need accounts.tokenMint
  let party ← need party
  ensure (account = party.key)
  ensure (tokenMint = tokenMintAccount.key)
  ensure (ProgramAddresses.associatedToken account tokenMint = tokenAccount.key)

def mintCoinsValidate (store : IbcStorage K H) (account : K) (coin : PrefixedCoin D) :
    Except TokenTransferError Unit :=
  coinsValidate store store.accounts.receiver account coin

def burnCoinsValidate (store : IbcStorage K H) (account : K) (coin : PrefixedCoin D) :
    Except TokenTransferError Unit :=
  coinsValidate store store.accounts.sender account coin

variable [TokenProgram K]

def mintCoinsExecute (store : IbcStorage K H) (amt : PrefixedCoin D) : LedgerOp K Unit := do
  let asset ← Op.lift ((store.priv.assets (hashedFullDenom K amt.denom)).elim
    (.error (.error .invalidToken)) .ok)
  let amountToMint ← Op.lift (convertAmount asset amt.amount)
  let receiver ← required store.accounts.tokenAccount
  let _ ← required store.accounts.tokenProgram
  let tokenMint ← required store.accounts.tokenMint
  let mintAuth ← required store.accounts.mintAuthority
  invoke mintAuth fun l => TokenProgram.mintTo l tokenMint.key receiver.key mintAuth.key amountToMint

def burnCoinsExecute (store : IbcStorage K H) (amt : PrefixedCoin D) : LedgerOp K Unit := do
  let asset ← Op.lift ((store.priv.assets (hashedFullDenom K amt.denom)).elim
    (.error (.error .invalidToken)) .ok)
  let amountToBurn ← Op.lift (convertAmount asset amt.amount)
  let burner ← required store.accounts.tokenAccount
  let _ ← required store.accounts.tokenProgram
  let tokenMint ← required store.accounts.tokenMint
  let authority ← required store.accounts.sender
  invoke authority fun l => TokenProgram.burn l tokenMint.key burner.key authority.key amountToBurn

section

variable {store : IbcStorage K H} {amt : PrefixedCoin D} {l l' : Ledger K} {u : Unit}

theorem mintCoinsExecute_ok (h : (mintCoinsExecute store amt).run l = (.ok u, l')) :
    ∃ asset n tokenMint receiver m, store.priv.assets (hashedFullDenom K amt.denom) = some asset ∧
      convertAmount asset amt.amount = .ok n ∧ store.accounts.tokenMint = some tokenMint ∧
      store.accounts.tokenAccount = some receiver ∧ l.mints tokenMint.key = some m ∧
      l' = l.mintTo tokenMint.key receiver.key n := by
  simp only [mintCoinsExecute, Op.run_bind_ok, Op.run_lift_ok, required_ok, invoke_ok] at h
  obtain ⟨asset, _, ⟨hasset, rfl⟩, n, _, ⟨hn, rfl⟩, receiver, _, ⟨hreceiver, rfl⟩, _, _, ⟨_, rfl⟩,
    tokenMint, _, ⟨hmint, rfl⟩, _, _, ⟨_, rfl⟩, -, hcall⟩ := h
  obtain ⟨m, _, hm, -, -, -, rfl⟩ := TokenProgram.mintTo_some hcall
  refine ⟨asset, n, tokenMint, receiver, m, ?_, hn, hmint, hreceiver, hm, rfl⟩
  cases hfound : store.priv.assets (hashedFullDenom K amt.denom) with
  | none => simp [hfound] at hasset
  | some found => simpa [hfound] using hasset

theorem burnCoinsExecute_ok (h : (burnCoinsExecute store amt).run l = (.ok u, l')) :
    ∃ asset n tokenMint burner m, store.priv.assets (hashedFullDenom K amt.denom) = some asset ∧
      convertAmount asset amt.amount = .ok n ∧ store.accounts.tokenMint = some tokenMint ∧
      store.accounts.tokenAccount = some burner ∧ l.mints tokenMint.key = some m ∧ n ≤ m.supply ∧
      l' = l.burn tokenMint.key burner.key n := by
  simp only [burnCoinsExecute, Op.run_bind_ok, Op.run_lift_ok, required_ok, invoke_ok] at h
  obtain ⟨asset, _, ⟨hasset, rfl⟩, n, _, ⟨hn, rfl⟩, burner, _, ⟨hburner, rfl⟩, _, _, ⟨_, rfl⟩,
    tokenMint, _, ⟨hmint, rfl⟩, _, _, ⟨_, rfl⟩, -, hcall⟩ := h
  obtain ⟨m, _, hm, -, -, -, hsupply, rfl⟩ := TokenProgram.burn_some hcall
  refine ⟨asset, n, tokenMint, burner, m, ?_, hn, hmint, hburner, hm, hsupply, rfl⟩
  cases hfound : store.priv.assets (hashedFullDenom K amt.denom) with
  | none => simp [hfound] at hasset
  | some found => simpa [hfound] using hasset

end

/-- Creates an account without data unless there is one. -/
def initIfNeeded (l : Ledger K) (payer k : K) : Option (Ledger K) :=
  if 0 < l.lamports k then some l
  else if payer ≠ k ∧ TokenProgram.emptyRent K ≤ l.lamports payer then
    some (l.moveLamports payer k (TokenProgram.emptyRent K))
  else none

/-- Wrapped lamports are paid out as lamports of the mint authority. -/
def unescrowWsol (store : IbcStorage K H) (amount : Nat) : LedgerOp K Unit := do
  let receiver ← required store.accounts.receiver
  let mintAuthority ← required store.accounts.mintAuthority
  subLamports mintAuthority.key amount
  addLamports receiver.key amount

/-- Closes the escrow account so that the mint authority holds the lamports, and
gives the sender the rent of the account back. -/
def closeWsol (store : IbcStorage K H) (escrowAccount : AccountInfo K) : LedgerOp K Unit := do
  let mintAuthority ← required store.accounts.mintAuthority
  let sender ← required store.accounts.sender
  invoke mintAuthority fun l =>
    TokenProgram.closeAccount l escrowAccount.key mintAuthority.key mintAuthority.key
  subLamports mintAuthority.key (TokenProgram.accountRent K)
  addLamports sender.key (TokenProgram.accountRent K)

def escrowCoinsExecuteImpl (store : IbcStorage K H) (op : EscrowOp) (coin : PrefixedCoin D) :
    LedgerOp K Unit := do
  let amount ← Op.lift ((checkAmountOverflow coin.amount).mapError .error)
  let accounts := store.accounts
  let _ ← required accounts.tokenProgram
  let tokenAccount ← required accounts.tokenAccount
  let escrowAccount ← required accounts.escrowAccount
  match op with
  | .escrow =>
    let authority ← required accounts.sender
    invoke authority fun l =>
      TokenProgram.transfer l tokenAccount.key escrowAccount.key authority.key amount
    if isWsol coin.denom then closeWsol store escrowAccount
  | .unescrow =>
    let authority ← required accounts.mintAuthority
    if isWsol coin.denom then unescrowWsol store amount
    else
      invoke authority fun l =>
        TokenProgram.transfer l escrowAccount.key tokenAccount.key authority.key amount

def escrowCoinsExecute (store : IbcStorage K H) (_fromAccount : K) (_portId _channelId : String)
    (coin : PrefixedCoin D) : LedgerOp K Unit :=
  escrowCoinsExecuteImpl store .escrow coin

def unescrowCoinsExecute (store : IbcStorage K H) (_toAccount : K) (_portId _channelId : String)
    (coin : PrefixedCoin D) : LedgerOp K Unit :=
  escrowCoinsExecuteImpl store .unescrow coin

/-! A call into the program for coins that come in changes nothing when it ends with
an error, since it finds all it needs before it moves coins. -/

/-- A call that ends with an error has not changed the ledger. -/
def ErrorsFree (op : LedgerOp K Unit) (l : Ledger K) : Prop :=
  ∀ err l', op.run l = (.error (.error err), l') → l' = l

section

variable {store : IbcStorage K H} {amt : PrefixedCoin D} {l : Ledger K} {op : LedgerOp K Unit}

omit [DecidableEq K] [TokenProgram K] in
theorem errorsFree_lift_bind {α : Type} {r : Except Fault α} {f : α → LedgerOp K Unit}
    (h : ∀ a, ErrorsFree (f a) l) : ErrorsFree (.lift r >>= f) l := by
  intro err l' hrun
  rcases Op.run_bind_error hrun with hlift | ⟨a, mid, hlift, hrun⟩
  · exact (congrArg Prod.snd hlift).symm
  · cases (congrArg Prod.snd hlift : l = mid)
    exact h a err l' hrun

omit [DecidableEq K] [TokenProgram K] in
/-- Panics are not errors. -/
theorem errorsFree_of_panics (h : ∀ fault l', op.run l = (.error fault, l') → fault = .panic) :
    ErrorsFree op l := by
  intro err l' hrun
  cases h _ _ hrun

omit [TokenProgram K] in
theorem invoke_panics {authority : AccountInfo K} {call : Ledger K → Option (Ledger K)} {fault : Fault}
    {l' : Ledger K} (h : (invoke authority call).run l = (.error fault, l')) : fault = .panic := by
  change invoke authority call l = _ at h
  unfold invoke at h
  split at h
  · split at h
    · cases h
    · cases h
      rfl
  · cases h
    rfl

omit [TokenProgram K] in
theorem subLamports_panics {k : K} {n : Nat} {fault : Fault} {l' : Ledger K}
    (h : (subLamports k n).run l = (.error fault, l')) : fault = .panic := by
  change subLamports k n l = _ at h
  unfold subLamports at h
  split at h
  · cases h
  · cases h
    rfl

omit [TokenProgram K] in
theorem addLamports_panics {k : K} {n : Nat} {fault : Fault} {l' : Ledger K}
    (h : (addLamports k n).run l = (.error fault, l')) : fault = .panic := by
  change addLamports k n l = _ at h
  unfold addLamports at h
  split at h
  · cases h
  · cases h
    rfl

theorem mintCoinsExecute_errorsFree : ErrorsFree (mintCoinsExecute store amt) l := by
  unfold mintCoinsExecute required
  refine errorsFree_lift_bind fun _ => errorsFree_lift_bind fun _ => errorsFree_lift_bind fun _ =>
    errorsFree_lift_bind fun _ => errorsFree_lift_bind fun _ => errorsFree_lift_bind fun _ => ?_
  exact errorsFree_of_panics fun _ _ h => invoke_panics h

omit [ProgramAddresses K H] [TokenProgram K] in
theorem unescrowWsol_errorsFree {n : Nat} : ErrorsFree (unescrowWsol store n) l := by
  unfold unescrowWsol required
  refine errorsFree_lift_bind fun _ => errorsFree_lift_bind fun _ => errorsFree_of_panics fun _ _ h => ?_
  rcases Op.run_bind_error h with hsub | ⟨_, _, -, hadd⟩
  · exact subLamports_panics hsub
  · exact addLamports_panics hadd

theorem unescrowCoinsExecute_errorsFree : ErrorsFree (escrowCoinsExecuteImpl store .unescrow amt) l := by
  unfold escrowCoinsExecuteImpl required
  refine errorsFree_lift_bind fun _ => errorsFree_lift_bind fun _ => errorsFree_lift_bind fun _ =>
    errorsFree_lift_bind fun _ => errorsFree_lift_bind fun _ => ?_
  split
  · exact unescrowWsol_errorsFree
  · exact errorsFree_of_panics fun _ _ h => invoke_panics h

end

end

/-- Addresses told apart by how they are derived. -/
inductive Address where
  | wallet (n : Nat)
  | escrow (denom : String)
  | tokenMint (denom : String)
  | mintAuthority
  | feeAccount
  | associatedToken (owner mint : Address)
  | edition (mint : Address)
  | nativeMint
deriving DecidableEq

namespace Address

def canSign : Address → Bool
  | wallet _ => true
  | _ => false

theorem escrow_ne_associatedToken (denom : String) (owner mint : Address) :
    escrow denom ≠ associatedToken owner mint := by simp

theorem escrow_ne_mintAuthority (denom : String) : escrow denom ≠ mintAuthority := by simp

theorem escrow_ne_feeAccount (denom : String) : escrow denom ≠ feeAccount := by simp

theorem mintAuthority_ne_associatedToken (owner mint : Address) :
    mintAuthority ≠ associatedToken owner mint := by simp

theorem mintAuthority_ne_feeAccount : mintAuthority ≠ feeAccount := by simp

theorem canSign_escrow (denom : String) : canSign (escrow denom) = false := rfl

theorem canSign_mintAuthority : canSign mintAuthority = false := rfl

instance programAddresses : ProgramAddresses Address String where
  digest := id
  escrow := escrow
  tokenMint := tokenMint
  mintAuthority := mintAuthority
  feeAccount := feeAccount
  associatedToken := associatedToken
  relayer := wallet 0
  canSign := canSign
  escrow_digest_injective := fun _ _ h => escrow.inj h
  escrow_ne_associatedToken := escrow_ne_associatedToken
  escrow_ne_mintAuthority := escrow_ne_mintAuthority
  escrow_ne_feeAccount := escrow_ne_feeAccount
  mintAuthority_ne_associatedToken := mintAuthority_ne_associatedToken
  mintAuthority_ne_feeAccount := mintAuthority_ne_feeAccount
  canSign_escrow := canSign_escrow
  canSign_mintAuthority := canSign_mintAuthority

instance tokenProgram : TokenProgram Address := ledgerProgram nativeMint 890880 2039280 1461600

instance metadataProgram : MetadataProgram Address := ledgerMetadata edition

end Address

/-- Denominations by what they read as; the base is the part after the last slash. -/
instance textDenom : PrefixedDenom String where
  toString := id
  baseDenom := fun s => String.ofList (s.toList.reverse.takeWhile (· ≠ '/')).reverse
  toString_injective := Function.injective_id

end SolanaIbc
