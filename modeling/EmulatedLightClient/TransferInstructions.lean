import EmulatedLightClient.TransferContext

/-!
# Instructions that carry transfers

Coins leave with `send_transfer` and come in with `deliver`, which also gives
them back when a packet failed or timed out. Which coins are escrowed and which
are wrapped tokens is up to the transfer application. The history keeps what was
put into escrow and taken out of it, for packets of which channel.
-/

namespace SolanaIbc

open TokenLedger FailingState

variable {K D H : Type} [DecidableEq K] [DecidableEq H] [PrefixedDenom D] [ProgramAddresses K H]
  [TokenProgram K]

/-- What `SendTransfer` and `Deliver` declare, apart from the storage. -/
structure PassedAccounts (K : Type) where
  sender : AccountInfo K
  receiver : Option (AccountInfo K)
  mintAuthority : Option (AccountInfo K)
  tokenMint : Option (AccountInfo K)
  escrowAccount : Option (AccountInfo K)
  receiverTokenAccount : Option (AccountInfo K)
  feeCollector : Option (AccountInfo K)
  tokenProgram : Option (AccountInfo K)
  remainingAccounts : List (AccountInfo K)

def PassedAccounts.toTransferAccounts (a : PassedAccounts K) : TransferAccounts K where
  sender := some a.sender
  receiver := a.receiver
  tokenAccount := a.receiverTokenAccount
  tokenMint := a.tokenMint
  escrowAccount := a.escrowAccount
  mintAuthority := a.mintAuthority
  tokenProgram := a.tokenProgram
  feeCollector := a.feeCollector
  remainingAccounts := a.remainingAccounts

/-- Creates a token account unless there is one, which then has to be of the
same mint and authority. -/
def initTokenIfNeeded (l : Ledger K) (payer k mint authority : K) : Option (Ledger K) :=
  match l.tokens k with
  | none => TokenProgram.initializeAccount l payer k mint authority
  | some x => if x.mint = mint ∧ x.owner = authority then some l else none

/-- Constraints the two instructions share. -/
def loadCommon (a : PassedAccounts K) (l : Ledger K) : Option Unit := do
  guard (a.sender.isSigner ∧ ProgramAddresses.canSign a.sender.key)
  guard (∀ x ∈ a.mintAuthority, x.key = ProgramAddresses.mintAuthority)
  guard (∀ x ∈ a.tokenMint, (l.mints x.key).isSome)

def loadSendEscrow (hash : H) (a : PassedAccounts K) (l : Ledger K) : Option (Ledger K) :=
  match a.escrowAccount with
  | none => some l
  | some escrowAccount => do
    guard (escrowAccount.key = ProgramAddresses.escrow hash)
    let tokenMint ← a.tokenMint
    let mintAuthority ← a.mintAuthority
    initTokenIfNeeded l a.sender.key escrowAccount.key tokenMint.key mintAuthority.key

def loadSendTokens (a : PassedAccounts K) (l : Ledger K) : Option Unit :=
  match a.receiverTokenAccount with
  | none => some ()
  | some tokenAccount => do
    let tokenMint ← a.tokenMint
    guard (tokenAccount.key = ProgramAddresses.associatedToken a.sender.key tokenMint.key)
    let x ← l.tokens tokenAccount.key
    guard (x.mint = tokenMint.key ∧ x.owner = a.sender.key)

def loadSendFee (a : PassedAccounts K) (l : Ledger K) : Option (Ledger K) :=
  match a.feeCollector with
  | none => some l
  | some feeCollector => do
    guard (feeCollector.key = ProgramAddresses.feeAccount)
    initIfNeeded l a.sender.key feeCollector.key

def loadSendTransfer (hash : H) (a : PassedAccounts K) (l : Ledger K) : Option (Ledger K) := do
  loadCommon a l
  let l ← loadSendEscrow hash a l
  loadSendTokens a l
  loadSendFee a l

def loadDeliverTokens (a : PassedAccounts K) (l : Ledger K) : Option (Ledger K) :=
  match a.receiverTokenAccount with
  | none => some l
  | some tokenAccount => do
    let tokenMint ← a.tokenMint
    let receiver ← a.receiver
    guard (tokenAccount.key = ProgramAddresses.associatedToken receiver.key tokenMint.key)
    initTokenIfNeeded l a.sender.key tokenAccount.key tokenMint.key receiver.key

/-- The escrow account is not checked here. -/
def loadDeliver (a : PassedAccounts K) (l : Ledger K) : Option (Ledger K) := do
  loadCommon a l
  let l ← loadDeliverTokens a l
  guard (∀ x ∈ a.feeCollector, x.key = ProgramAddresses.feeAccount)
  guard (a.sender.key = ProgramAddresses.relayer)
  return l

/-- A packet this side sent. `isSource` when its coins went into escrow. -/
structure SentPacket (K D : Type) where
  portId : String
  channelId : String
  sender : K
  coin : PrefixedCoin D
  isSource : Bool

/-- Coins put into escrow or taken out of it for a packet of a channel. -/
structure EscrowEvent (D : Type) where
  op : EscrowOp
  portId : String
  channelId : String
  denom : D
  amount : Nat
deriving DecidableEq

structure TransferState (K D H : Type) where
  priv : PrivateStorage K H
  ledger : Ledger K
  /-- Packets whose commitments are stored. -/
  sent : List (SentPacket K D)
  history : List (EscrowEvent D)

inductive TransferCall (K D H : Type) where
  | sendTransfer (accounts : PassedAccounts K) (hash : H) (timeoutIsSet : Bool) (packet : SentPacket K D)
  | recvPacket (accounts : PassedAccounts K) (portId channelId : String) (receiver : K)
      (coin : PrefixedCoin D) (isSource : Bool)
  /-- A failed acknowledgement or a timeout of the packet at a position. -/
  | refundPacket (accounts : PassedAccounts K) (index : Nat)

/-- Ledger after a call that ends well. -/
def completed {α : Type} (op : LedgerOp K α) (l : Ledger K) : Option (Ledger K) :=
  match op.run l with
  | (.ok _, l') => some l'
  | (.error _, _) => none

variable (K D H) in
/-- The transfer application. When a packet is sent its coins are either escrowed or burnt, and when they come in or come
back they are taken out of escrow or minted. The program is first asked to validate that and then to do it, and the
application ends well only if the program did both. -/
class TransferFlow where
  sendCoins : IbcStorage K H → SentPacket K D → LedgerOp K Unit
  receiveCoins : IbcStorage K H → String → String → K → PrefixedCoin D → Bool → LedgerOp K Unit
  send_source : ∀ {store packet l l'}, packet.isSource = true → (sendCoins store packet).run l = (.ok (), l') →
    escrowCoinsValidate store packet.sender packet.portId packet.channelId packet.coin = .ok () ∧
      (escrowCoinsExecute store packet.sender packet.portId packet.channelId packet.coin).run l = (.ok (), l')
  send_wrapped : ∀ {store packet l l'}, packet.isSource = false → (sendCoins store packet).run l = (.ok (), l') →
    burnCoinsValidate store packet.sender packet.coin = .ok () ∧
      (burnCoinsExecute store packet.coin).run l = (.ok (), l')
  receive_source : ∀ {store portId channelId receiver coin l l'},
    (receiveCoins store portId channelId receiver coin true).run l = (.ok (), l') →
    unescrowCoinsValidate store receiver portId channelId coin = .ok () ∧
      (unescrowCoinsExecute store receiver portId channelId coin).run l = (.ok (), l')
  receive_wrapped : ∀ {store portId channelId receiver coin l l'},
    (receiveCoins store portId channelId receiver coin false).run l = (.ok (), l') →
    mintCoinsValidate store receiver coin = .ok () ∧ (mintCoinsExecute store coin).run l = (.ok (), l')

namespace TransferFlow

/-- Validates and then executes. -/
def checked (validate : Except TokenTransferError Unit) (execute : LedgerOp K Unit) : LedgerOp K Unit := do
  Op.lift (validate.mapError .error)
  execute

omit [DecidableEq K] [DecidableEq H] [PrefixedDenom D] [ProgramAddresses K H] [TokenProgram K] in
theorem checked_ok {validate : Except TokenTransferError Unit} {execute : LedgerOp K Unit} {l l' : Ledger K}
    (h : (checked validate execute).run l = (.ok (), l')) : validate = .ok () ∧ execute.run l = (.ok (), l') := by
  unfold checked at h
  simp only [Op.run_bind_ok, Op.run_lift_ok, mapError_ok] at h
  obtain ⟨_, _, ⟨hvalid, rfl⟩, hexecute⟩ := h
  exact ⟨hvalid, hexecute⟩

/-- An application which makes those two calls and no others. -/
@[reducible]
def direct : TransferFlow K D H where
  sendCoins store packet :=
    if packet.isSource then
      checked (escrowCoinsValidate store packet.sender packet.portId packet.channelId packet.coin)
        (escrowCoinsExecute store packet.sender packet.portId packet.channelId packet.coin)
    else checked (burnCoinsValidate store packet.sender packet.coin) (burnCoinsExecute store packet.coin)
  receiveCoins store portId channelId receiver coin isSource :=
    if isSource then
      checked (unescrowCoinsValidate store receiver portId channelId coin)
        (unescrowCoinsExecute store receiver portId channelId coin)
    else checked (mintCoinsValidate store receiver coin) (mintCoinsExecute store coin)
  send_source hsource h := checked_ok (by rwa [if_pos hsource] at h)
  send_wrapped hwrapped h := checked_ok (by rwa [hwrapped, if_neg Bool.false_ne_true] at h)
  receive_source h := checked_ok h
  receive_wrapped h := checked_ok h

end TransferFlow

open TransferFlow

/-- A transfer of the system program. -/
def systemTransfer (l : Ledger K) (src dst : K) (n : Nat) : Option (Ledger K) :=
  if n ≤ l.lamports src then some (l.moveLamports src dst n) else none

def escrowEvents (op : EscrowOp) (portId channelId : String) (coin : PrefixedCoin D) (isSource : Bool) :
    List (EscrowEvent D) :=
  if isSource then [⟨op, portId, channelId, coin.denom, coin.amount⟩] else []

namespace TransferState

variable [TransferFlow K D H]

def sendTransfer (s : TransferState K D H) (accounts : PassedAccounts K) (hash : H)
    (timeoutIsSet : Bool) (packet : SentPacket K D) : Option (TransferState K D H) := do
  let l ← loadSendTransfer hash accounts s.ledger
  guard (hashedFullDenom K packet.coin.denom = hash)
  guard (timeoutIsSet = true)
  let feeCollector ← accounts.feeCollector
  let l ← systemTransfer l accounts.sender.key feeCollector.key s.priv.feeInLamports
  let l ← completed (sendCoins ⟨s.priv, accounts.toTransferAccounts⟩ packet) l
  return { s with
    ledger := l
    sent := s.sent ++ [packet]
    history := s.history ++
      escrowEvents .escrow packet.portId packet.channelId packet.coin packet.isSource }

def recvPacket (s : TransferState K D H) (accounts : PassedAccounts K) (portId channelId : String)
    (receiver : K) (coin : PrefixedCoin D) (isSource : Bool) : Option (TransferState K D H) := do
  let l ← loadDeliver accounts s.ledger
  let l ← completed
    (receiveCoins ⟨s.priv, accounts.toTransferAccounts⟩ portId channelId receiver coin isSource) l
  return { s with
    ledger := l
    history := s.history ++ escrowEvents .unescrow portId channelId coin isSource }

/-- The fee of a packet that failed goes back to the receiver of its coins. -/
def refundFee (priv : PrivateStorage K H) (accounts : TransferAccounts K) : LedgerOp K Unit := do
  let receiver ← unwrapped accounts.receiver
  let feeCollector ← unwrapped accounts.feeCollector
  subLamports feeCollector.key priv.feeInLamports
  addLamports receiver.key priv.feeInLamports

def refundPacket (s : TransferState K D H) (accounts : PassedAccounts K) (index : Nat) :
    Option (TransferState K D H) := do
  let packet ← s.sent[index]?
  let l ← loadDeliver accounts s.ledger
  let l ← completed (receiveCoins ⟨s.priv, accounts.toTransferAccounts⟩ packet.portId
    packet.channelId packet.sender packet.coin packet.isSource) l
  let l ← completed (refundFee s.priv accounts.toTransferAccounts) l
  return { s with
    ledger := l
    sent := s.sent.eraseIdx index
    history := s.history ++
      escrowEvents .unescrow packet.portId packet.channelId packet.coin packet.isSource }

def step (s : TransferState K D H) : TransferCall K D H → Option (TransferState K D H)
  | .sendTransfer accounts hash timeoutIsSet packet => s.sendTransfer accounts hash timeoutIsSet packet
  | .recvPacket accounts portId channelId receiver coin isSource =>
    s.recvPacket accounts portId channelId receiver coin isSource
  | .refundPacket accounts index => s.refundPacket accounts index

end TransferState

end SolanaIbc
