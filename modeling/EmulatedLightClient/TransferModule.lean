import EmulatedLightClient.MachineInts
import EmulatedLightClient.TransferContext

/-!
# Receiving packets

A received packet first goes to the transfer application, which pays its coins
out and says how that went. The program then looks at accounts and at the memo
of packets meant for the bridge, and may replace the acknowledgement by an error.
-/

namespace SolanaIbc

open TokenLedger FailingState MachineInts ByteBits

structure FtPacketData where
  denom : String
  amount : String
  sender : String
  receiver : String
  memo : String
deriving DecidableEq

structure PacketData (D : Type) where
  token : PrefixedCoin D
  sender : String
  receiver : String
  memo : String

inductive AcknowledgementStatus where
  | success (result : String)
  | error (description : String)
deriving DecidableEq

def AcknowledgementStatus.isSuccessful : AcknowledgementStatus → Bool
  | success _ => true
  | error _ => false

inductive Json where
  | null
  | bool (b : Bool)
  | number (text : String)
  | string (s : String)
  | array (items : List Json)
  | object (fields : List (String × Json))

def Json.get (key : String) : Json → Option Json
  | object fields => fields.lookup key
  | _ => none

def Json.asStr : Json → Option String
  | string s => some s
  | _ => none

/-- How packets and acknowledgements are written as bytes. -/
class Serde (B D : Type) where
  isUtf8 : B → Bool
  parseFtPacketData : B → Option FtPacketData
  toPacketData : FtPacketData → Option (PacketData D)
  parsePacketData : B → Option (PacketData D)
  renderPacketData : PacketData D → B
  parseAck : B → Option AcknowledgementStatus
  renderAck : AcknowledgementStatus → B
  parseJson : String → Option Json
  /-- Text of an error in an acknowledgement. -/
  describe : TokenTransferError → String
  parsePacketData_render : ∀ data, parsePacketData (renderPacketData data) = some data
  parseAck_render : ∀ status, parseAck (renderAck status) = some status
  isUtf8_renderAck : ∀ status, isUtf8 (renderAck status) = true

/-- Splits at the first comma. -/
def splitOnce : List Char → Option (List Char × List Char)
  | [] => none
  | c :: rest => if c = ',' then some ([], rest) else (splitOnce rest).map fun p => (c :: p.1, p.2)

def digitValue (c : Char) : Option Nat :=
  if '0' ≤ c ∧ c ≤ '9' then some (c.toNat - '0'.toNat) else none

def decimal (digits : List Char) : Option Nat :=
  digits.foldlM (fun n c => (digitValue c).map (10 * n + ·)) 0

/-- `usize::from_str`: at least one digit after an optional plus. -/
def usizeFromStr (s : List Char) : Option Nat := do
  let digits := match s with
    | '+' :: rest => rest
    | _ => s
  guard (digits ≠ [])
  let n ← decimal digits
  guard (n < 2 ^ 64)
  return n

def skipAccounts : Nat → List Char → Option (List Char)
  | 0, current => some current
  | n + 1, current => do
    let (_, rest) ← splitOnce current
    skipAccounts n rest

def memoParts (memo : List Char) : Option (List Char × List Char) := do
  let (count, rest) ← splitOnce memo
  let n ← usizeFromStr count
  let current ← skipAccounts n rest
  splitOnce current

variable (B : Type) {D : Type} [PrefixedDenom D]

variable (D) in
def parseBridgeMemo [Serde B D] (memo : String) : Option (String × String) := do
  let parsed ← Serde.parseJson B D memo
  let memo ← (parsed.get "memo").bind Json.asStr
  let (intent, memo) ← memoParts memo.toList
  return (String.ofList intent, String.ofList memo)

def checkDenomIsHookAddress (baseDenom : String) : Bool :=
  ["0x36dd1bfe89d409f869fabbe72c3cf72ea8b460f6",
    "3zT4Uzktt7Hyx6qitv2Fa1eqYyFtc3v7h3F9EHgDmVDR"].contains baseDenom

structure Instruction (K : Type) where
  programId : K
  data : List Byte
  accounts : List (AccountInfo K)

/-- The chain the program runs on. A program that fails changes nothing. -/
class Runtime (K : Type) where
  bridgeEscrowProgramId : K
  display : K → String
  invoke : Ledger K → Instruction K → Except String (Ledger K)

def borshString (s : String) : List Byte :=
  let bytes := s.toUTF8.data.toList.map fun b => BitVec.ofNat 8 b.toNat
  leBytes 4 bytes.length ++ bytes

/-- Start of the data of `on_receive_transfer` of the bridge escrow. -/
def instructionDiscriminant : List Byte := [149, 112, 68, 208, 4, 206, 248, 125]

def bridgeInstruction {K : Type} [Runtime K] (accounts : List (AccountInfo K)) (intentId memo : String) :
    Instruction K where
  programId := Runtime.bridgeEscrowProgramId
  data := instructionDiscriminant ++ borshString intentId ++ borshString memo
  accounts := accounts

variable {B} {K H : Type} [DecidableEq K] [ProgramAddresses K H] [TokenProgram K] [Runtime K] [Serde B D]

variable (B D) in
def errorStatus (err : TokenTransferError) : AcknowledgementStatus := .error (Serde.describe B D err)

variable (D) in
def callBridgeEscrow (accounts : List (AccountInfo K)) (data : B) (l : Ledger K) :
    Except AcknowledgementStatus (Ledger K) :=
  match (Serde.parsePacketData data : Option (PacketData D)) with
  | none => .error (errorStatus B D .packetDataDeserialization)
  | some data =>
    if checkDenomIsHookAddress (PrefixedDenom.baseDenom data.token.denom) then
      match parseBridgeMemo B D data.memo with
      | none => .error (errorStatus B D (.other "Invalid memo"))
      | some (intentId, memo) =>
        match Runtime.invoke l (bridgeInstruction accounts intentId memo) with
        | .error err => .error (errorStatus B D (.other err))
        | .ok l' => .ok l'
    else .ok l

inductive TokenOp where
  | escrow
  | unescrow
  | mint
  | burn

/-- Calls of the application into the program. -/
inductive CoinRequest (K D : Type) where
  | validate (op : TokenOp) (account : K) (portId channelId : String) (coin : PrefixedCoin D)
  | execute (op : TokenOp) (account : K) (portId channelId : String) (coin : PrefixedCoin D)

def validateCoins (store : IbcStorage K H) (account : K) (portId channelId : String)
    (coin : PrefixedCoin D) : TokenOp → Except TokenTransferError Unit
  | .escrow => escrowCoinsValidate store account portId channelId coin
  | .unescrow => unescrowCoinsValidate store account portId channelId coin
  | .mint => mintCoinsValidate store account coin
  | .burn => burnCoinsValidate store account coin

def CoinRequest.perform (store : IbcStorage K H) : CoinRequest K D → LedgerOp K Unit
  | validate op account portId channelId coin =>
    .lift ((validateCoins store account portId channelId coin op).mapError .error)
  | execute .escrow account portId channelId coin => escrowCoinsExecute store account portId channelId coin
  | execute .unescrow account portId channelId coin => unescrowCoinsExecute store account portId channelId coin
  | execute .mint _ _ _ coin => mintCoinsExecute store coin
  | execute .burn _ _ _ coin => burnCoinsExecute store coin

/-- What the application does with a packet: it makes calls, goes on by what they
answer and ends with a result. -/
inductive Handling (K D R : Type) where
  | done (result : R)
  | call (request : CoinRequest K D) (next : Except TokenTransferError Unit → Handling K D R)

/-- Nothing when a call panics. -/
def Handling.run {R : Type} (store : IbcStorage K H) : Handling K D R → Ledger K → Option (R × Ledger K)
  | done result, l => some (result, l)
  | call request next, l =>
    match (request.perform store).run l with
    | (.ok _, l') => (next (.ok ())).run store l'
    | (.error (.error err), l') => (next (.error err)).run store l'
    | (.error _, _) => none

structure Packet (B : Type) where
  portIdOnA : String
  chanIdOnA : String
  portIdOnB : String
  chanIdOnB : String
  data : B

structure TransferApp (K D B : Type) where
  onRecvPacketExecute : Packet B → Handling K D B

/-- An application whose acknowledgements are read and whose errors pay nothing out. -/
structure TransferApp.Lawful (H : Type) [ProgramAddresses K H] (app : TransferApp K D B) : Prop where
  status : ∀ packet (store : IbcStorage K H) l ack l',
    (app.onRecvPacketExecute packet).run store l = some (ack, l') →
    Serde.isUtf8 D ack = true ∧ ∃ status, Serde.parseAck D ack = some status ∧
      (status.isSuccessful = false → l' = l)

def packetData (packet : Packet B) : Option (PacketData D) := do
  guard (Serde.isUtf8 D packet.data)
  let ftPacketData ← Serde.parseFtPacketData D packet.data
  Serde.toPacketData B ftPacketData

variable (D) in
/-- The acknowledgement after the application succeeded. -/
def hookAck (accounts : List (AccountInfo K)) (data ack : B) (l : Ledger K) : B × Ledger K :=
  match accounts.find? fun account => l.lamports account.key = 0 with
  | some account =>
    let text := "Account " ++ Runtime.display account.key ++ " not initialized"
    (Serde.renderAck D (errorStatus B D (.other text)), l)
  | none =>
    match callBridgeEscrow D accounts data l with
    | .error status => (Serde.renderAck D status, l)
    | .ok l' => (ack, l')

/-- Nothing when the program panics. -/
def onRecvPacketExecute (app : TransferApp K D B) (store : IbcStorage K H) (packet : Packet B)
    (l : Ledger K) : Option (B × Ledger K) := do
  let data : PacketData D ← packetData packet
  let maybeFtPacket := { packet with data := Serde.renderPacketData data }
  let (ack, l) ← (app.onRecvPacketExecute maybeFtPacket).run store l
  guard (Serde.isUtf8 D ack)
  let (ack, l) := match Serde.parseAck D ack with
    | none => (Serde.renderAck D (errorStatus B D .ackDeserialization), l)
    | some status =>
      if status.isSuccessful then hookAck D store.accounts.remainingAccounts maybeFtPacket.data ack l
      else (ack, l)
  guard (Serde.isUtf8 D ack)
  return (ack, l)

/-- Pays the coins of a packet out and acknowledges how that went. -/
def payOut (op : TokenOp) (account : K) (portId channelId : String) (coin : PrefixedCoin D) : Handling K D B :=
  .call (.validate op account portId channelId coin) fun
    | .error err => .done (Serde.renderAck D (errorStatus B D err))
    | .ok _ => .call (.execute op account portId channelId coin) fun
      | .error err => .done (Serde.renderAck D (errorStatus B D err))
      | .ok _ => .done (Serde.renderAck D (.success "AQ=="))

/-- Coins that left over the channel come out of escrow, other coins are minted. -/
def transferApp (parseAccount : String → Option K) (returns : Packet B → D → Option D)
    (arrives : Packet B → D → D) : TransferApp K D B where
  onRecvPacketExecute packet :=
    match Serde.parsePacketData packet.data with
    | none => .done (Serde.renderAck D (errorStatus B D .packetDataDeserialization))
    | some data =>
      match parseAccount data.receiver with
      | none => .done (Serde.renderAck D (errorStatus B D .parseAccountFailure))
      | some receiver =>
        match returns packet data.token.denom with
        | some denom => payOut .unescrow receiver packet.portIdOnB packet.chanIdOnB ⟨denom, data.token.amount⟩
        | none => payOut .mint receiver packet.portIdOnB packet.chanIdOnB
          ⟨arrives packet data.token.denom, data.token.amount⟩

section

variable {store : IbcStorage K H} {account : K} {portId channelId : String} {coin : PrefixedCoin D}
  {l l' : Ledger K} {ack : B} {op : TokenOp}

/-- The acknowledgement of a packet is one that was rendered, and only a success
goes with a changed ledger. -/
def Acknowledges (D : Type) [Serde B D] (ack : B) (l l' : Ledger K) : Prop :=
  ∃ status, ack = Serde.renderAck D status ∧ (status.isSuccessful = false → l' = l)

omit [Runtime K] in
theorem payOut_acknowledges
    (hfree : ∀ l, ErrorsFree ((CoinRequest.execute op account portId channelId coin).perform store) l)
    (h : (payOut op account portId channelId coin : Handling K D B).run store l = some (ack, l')) :
    Acknowledges D ack l l' := by
  unfold payOut at h
  rw [Handling.run] at h
  split at h
  · rename_i u l₁ hvalid
    obtain ⟨-, rfl⟩ := Op.run_lift_ok.mp hvalid
    dsimp only at h
    rw [Handling.run] at h
    split at h
    · rw [Handling.run] at h
      cases Option.some.inj h
      exact ⟨_, rfl, fun hsuccess => absurd hsuccess (by simp [AcknowledgementStatus.isSuccessful])⟩
    · rename_i err l₂ herror
      dsimp only at h
      rw [Handling.run] at h
      cases Option.some.inj h
      exact ⟨_, rfl, fun _ => hfree l err _ herror⟩
    · cases h
  · rename_i err l₁ hvalid
    dsimp only at h
    rw [Handling.run] at h
    cases Option.some.inj h
    exact ⟨_, rfl, fun _ => (congrArg Prod.snd hvalid).symm⟩
  · cases h

omit [Runtime K] in
theorem transferApp_acknowledges {parseAccount : String → Option K} {returns : Packet B → D → Option D}
    {arrives : Packet B → D → D} {packet : Packet B}
    (h : ((transferApp parseAccount returns arrives).onRecvPacketExecute packet).run store l =
      some (ack, l')) : Acknowledges D ack l l' := by
  unfold transferApp at h
  dsimp only at h
  split at h
  · rw [Handling.run] at h
    cases Option.some.inj h
    exact ⟨_, rfl, fun _ => rfl⟩
  · split at h
    · rw [Handling.run] at h
      cases Option.some.inj h
      exact ⟨_, rfl, fun _ => rfl⟩
    · split at h
      · refine payOut_acknowledges ?_ h
        exact fun _ => unescrowCoinsExecute_errorsFree
      · refine payOut_acknowledges ?_ h
        exact fun _ => mintCoinsExecute_errorsFree

omit [Runtime K] in
theorem transferApp_lawful (parseAccount : String → Option K) (returns : Packet B → D → Option D)
    (arrives : Packet B → D → D) : (transferApp parseAccount returns arrives).Lawful H := by
  constructor
  intro packet store l ack l' h
  obtain ⟨status, rfl, hfree⟩ := transferApp_acknowledges h
  exact ⟨Serde.isUtf8_renderAck status, status, Serde.parseAck_render status, hfree⟩

end

/-- Bytes told apart by what they are the text of. -/
inductive Wire where
  | ftPacket (data : FtPacketData)
  | packet (data : PacketData String)
  | ack (status : AcknowledgementStatus)

namespace Wire

def parseFtPacketData : Wire → Option FtPacketData
  | ftPacket data => some data
  | _ => none

def parsePacketData : Wire → Option (PacketData String)
  | packet data => some data
  | _ => none

def parseAck : Wire → Option AcknowledgementStatus
  | ack status => some status
  | _ => none

def toPacketData (data : FtPacketData) : Option (PacketData String) :=
  (decimal data.amount.toList).bind fun n =>
    if h : n < 2 ^ 256 then some ⟨⟨data.denom, ⟨n, h⟩⟩, data.sender, data.receiver, data.memo⟩ else none

def describe : TokenTransferError → String
  | .other description => description
  | .invalidToken => "invalid token"
  | .invalidAmount => "invalid amount"
  | .parseAccountFailure => "failed to parse account ID"
  | .ackDeserialization => "failed to deserialize acknowledgement"
  | .packetDataDeserialization => "failed to deserialize packet data"

theorem parsePacketData_render (data : PacketData String) : parsePacketData (packet data) = some data := rfl

theorem parseAck_render (status : AcknowledgementStatus) : parseAck (ack status) = some status := rfl

theorem isUtf8_renderAck (status : AcknowledgementStatus) : (fun _ : Wire => true) (ack status) = true := rfl

/-- A memo stands for an object with itself as its memo. -/
instance serde : Serde Wire String where
  isUtf8 := fun _ => true
  parseFtPacketData := parseFtPacketData
  toPacketData := toPacketData
  parsePacketData := parsePacketData
  renderPacketData := packet
  parseAck := parseAck
  renderAck := ack
  parseJson := fun memo => some (.object [("memo", .string memo)])
  describe := describe
  parsePacketData_render := parsePacketData_render
  parseAck_render := parseAck_render
  isUtf8_renderAck := isUtf8_renderAck

end Wire

/-- Every program accepts every call. -/
instance acceptingRuntime : Runtime Address where
  bridgeEscrowProgramId := .wallet 7
  display := fun _ => "key"
  invoke := fun l _ => .ok l

def textApp : TransferApp Address String Wire :=
  transferApp (fun receiver => (decimal receiver.toList).map .wallet)
    (fun packet denom => (packet.portIdOnA ++ "/" ++ packet.chanIdOnA ++ "/").toList.isPrefixOf? denom.toList
      |>.map String.ofList)
    (fun packet denom => packet.portIdOnB ++ "/" ++ packet.chanIdOnB ++ "/" ++ denom)

end SolanaIbc
