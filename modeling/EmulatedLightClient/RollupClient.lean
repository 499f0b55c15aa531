import EmulatedLightClient.GeyserWorker
import EmulatedLightClient.GuestHandlers
import EmulatedLightClient.SolanaMisbehaviour

/-!
# Handlers of the client of the rollup

A header is checked against nothing but itself: its proofs have to lead from the witness account of the client to the
bank hash it comes with. Everything that follows is done as in the client of the guest chain, except that slots are
what heights are made of and that a header whose witness account does not have the format expected is only refused when
it is applied.
-/

namespace CfSolana

open AsciiText ByteBits FailingState MachineInts Nodes
open TrieIds (Counter Path)
open CfGuest (Any CommitmentError IbcHeight IsNext IsPrev Neighbourhood Status)

section

variable (digest : List Byte → CryptoHash)

namespace DeltaHashProof

def bankBytes (p : DeltaHashProof) : List Byte :=
  p.parentBlockhash.bytes ++ p.accountsDeltaHash.bytes ++ leBytes 8 p.numSigs ++ p.blockhash.bytes

def calculateBankHash (p : DeltaHashProof) : CryptoHash :=
  let hash := digest p.bankBytes
  match p.epochAccountsHash with
  | some epochHash => digest (hash.bytes ++ epochHash.bytes)
  | none => hash

end DeltaHashProof

end

/-- The client state with the fields which expiry does not depend on. -/
structure ClientState.Full extends ClientState where
  /-- Latest rooted slot. -/
  latestSlot : NonZero 64
  /-- Address of the trie witness account. -/
  witnessAccount : CryptoHash
  isFrozen : Bool

namespace ClientState.Full

def withHeader (c : Full) (header : Header) : Full := { c with latestSlot := max c.latestSlot header.slot }

def frozen (c : Full) : Full := { c with isFrozen := true }

end ClientState.Full

/-- How an update may end without a value. -/
inductive Fault where
  | error (err : ClientError)
  | panic
  deriving DecidableEq

/-- Errors of looking up a consensus state. -/
inductive LookupError where
  | clientStateNotFound
  | consensusStateNotFound (height : IbcHeight)
  | context (err : ClientError)

/-- Errors of handlers, of which decoding comes as `ClientSpecific` with the text of the error. -/
inductive HandlerError (ε : Type) where
  | context (err : ClientError)
  | lookup (err : LookupError)
  | decoding (err : Proto.DecodeError ε)
  | clientSpecific (description : List Byte)
  | invalidProofHeight (latestHeight proofHeight : IbcHeight)
  | panic

def Fault.toHandlerError {ε : Type} : Fault → HandlerError ε
  | .error err => .context err
  | .panic => .panic

/-- Context in which consensus states can also be changed. -/
class UpdateContext (Ctx : Type) (AnyState : outParam Type) extends CommonContext Ctx AnyState where
  ofConsensusState : ConsensusState → AnyState
  hostMetadata : Ctx → Except ClientError (Nat × IbcHeight)
  setClientState : ClientState.Full → Op ClientError Ctx Unit
  consensusState : Ctx → IbcHeight → Except LookupError AnyState
  storeConsensusStateAndMetadata : IbcHeight → AnyState → Nat → IbcHeight → Op ClientError Ctx Unit
  deleteConsensusStateAndMetadata : IbcHeight → Op ClientError Ctx Unit
  earliestConsensusState : Ctx → Except ClientError (Option (IbcHeight × AnyState))
  storeConsensusState : IbcHeight → AnyState → Op ClientError Ctx Unit

namespace ClientState.Full

section

variable (digest : List Byte → CryptoHash) (B : Blake3)

def verifyHeader (c : Full) (header : Header) : Except Fault Unit :=
  if header.bankHash ≠ header.deltaHashProof.calculateBankHash digest then
    .error (.error (error "Invalid accounts delta hash proof"))
  else
    match header.witnessProof.expectedRoot digest B with
    | none => .error .panic
    | some root =>
      if header.deltaHashProof.accountsDeltaHash ≠ root then .error (.error (error "Invalid witness proof"))
      else if header.witnessProof.accountHashData.key ≠ c.witnessAccount then
        .error (.error (error "Invalid witness account"))
      else .ok ()

def doVerifyClientMessage (c : Full) : ClientMessage → Except Fault Unit
  | .header header => c.verifyHeader digest B header
  | .misbehaviour misbehaviour => do
    c.verifyHeader digest B misbehaviour.header1
    c.verifyHeader digest B misbehaviour.header2

end

section

variable {Ctx AnyState : Type} [UpdateContext Ctx AnyState]

open CommonContext UpdateContext

def pruneOldestConsensusState (c : Full) (hostTimestamp : Nat) : Op Fault Ctx Unit := do
  let ctx ← Op.read
  match ← Op.lift ((earliestConsensusState ctx).mapError .error) with
  | none => pure ()
  | some (height, state) =>
    let state ← Op.lift ((tryInto Ctx state).mapError fun err => .error (error err))
    match c.consensusHasExpired state hostTimestamp with
    | none => Op.fail .panic
    | some expired => if expired then (deleteConsensusStateAndMetadata height).mapError .error

/-- A header which comes again changes nothing but what has expired. -/
def doUpdateState (c : Full) (header : Header) : Op Fault Ctx (List IbcHeight) := do
  let (hostTimestamp, hostHeight) ← Op.lift ((hostMetadata (← Op.read)).mapError .error)
  c.pruneOldestConsensusState hostTimestamp
  match consensusState (← Op.read) header.ibcHeight with
  | .ok _ => pure ()
  | .error _ =>
    let newConsensusState ← Op.lift ((ConsensusState.ofHeader header).mapError fun err => .error err.toClientError)
    (setClientState (c.withHeader header)).mapError .error
    (storeConsensusStateAndMetadata header.ibcHeight (ofConsensusState Ctx newConsensusState) hostTimestamp
      hostHeight).mapError .error
  return [header.ibcHeight]

end

def latestHeight (c : Full) : IbcHeight := ⟨1, c.latestSlot.get, Nat.pos_iff_ne_zero.mp c.latestSlot.pos⟩

def validateProofHeight {ε : Type} (c : Full) (proofHeight : IbcHeight) : Except (HandlerError ε) Unit :=
  if proofHeight ≤ c.latestHeight then .ok () else .error (.invalidProofHeight c.latestHeight proofHeight)

end ClientState.Full

section

variable {DecodeError : Type} (digest : List Byte → CryptoHash)
  (decodeU64 : List Byte → Except DecodeError (Fin (2 ^ 64)))

/-- The commitment prefix is not looked at; the root is that of the trie itself. -/
def verifyMembership ( _prefix proof root : List Byte) (path : Path) (value : List Byte) :
    Except (CommitmentError DecodeError) Unit :=
  (CfGuest.verifyForTrie digest decodeU64 [] proof root path (some value)).mapError CfGuest.VerifyError.toCommitmentError

def verifyNonMembership ( _prefix proof root : List Byte) (path : Path) : Except (CommitmentError DecodeError) Unit :=
  (CfGuest.verifyForTrie digest decodeU64 [] proof root path none).mapError CfGuest.VerifyError.toCommitmentError

end

def clientType : List Byte := ascii "cf-solana"

/-- Checks type of the client and gives its number. -/
def parseClientId {ε : Type} (clientId : List Byte) : Except (HandlerError ε) Counter :=
  match Counter.parse clientId with
  | some (type, idx) =>
    if type = clientType then .ok idx else .error (.clientSpecific (ascii "invalid client type: " ++ type))
  | none => .error (.clientSpecific (ascii "invalid client id: " ++ clientId))

/-- The result of decoding, of which nothing at all is a panic. -/
def orPanic {ε α : Type} (x : Decoding ε α) : Except (HandlerError ε) α :=
  match x.run with
  | none => .error .panic
  | some r => r.mapError .decoding

section

variable {ε : Type} (W : Proto.Wire ε)

def Proto.ConsensusState.ibcTypeUrl : List Char := "/lightclients.solana.v1.ConsensusState".toList

/-- The message is converted as an owned one. -/
def ConsensusState.tryFromAny (parse : List Byte → Except ε Proto.ConsensusState) (any : Any) :
    Except (Proto.DecodeError ε) ConsensusState :=
  if Proto.ConsensusState.ibcTypeUrl.isSuffixOf any.typeUrl then do
    let msg ← (parse any.value).mapError .badProto
    (ConsensusState.tryFromOwned msg).mapError fun _ => .badMessage
  else .error .badType

def Header.tryFromAny (any : Any) : Decoding ε Header :=
  if Proto.Header.ibcTypeUrl.isSuffixOf any.typeUrl then Header.decode W any.value else throw .badType

variable (digest : List Byte → CryptoHash) (B : Blake3)

namespace ClientState.Full

def verifyClientMessage (c : Full) (any : Any) : Except (HandlerError ε) Unit := do
  let message ← orPanic (ClientMessage.tryFromAny W any.typeUrl any.value)
  (c.doVerifyClientMessage digest B message).mapError Fault.toHandlerError

end ClientState.Full

section

variable {Ctx AnyState : Type}

def checkForMisbehaviour [CommonContext Ctx AnyState] (ctx : Ctx) (any : Any) : Except (HandlerError ε) Bool := do
  let message ← orPanic (ClientMessage.tryFromAny W any.typeUrl any.value)
  (doCheckForMisbehaviour ctx message).mapError .context

variable [UpdateContext Ctx AnyState]

namespace ClientState.Full

def updateState (c : Full) (any : Any) : Op (HandlerError ε) Ctx (List IbcHeight) := do
  let header ← Op.lift (orPanic (Header.tryFromAny W any))
  (c.doUpdateState header).mapError Fault.toHandlerError

/-- The message is not looked at. -/
def updateStateOnMisbehaviour (c : Full) (_any : Any) : Op (HandlerError ε) Ctx Unit :=
  (UpdateContext.setClientState c.frozen).mapError .context

def initialise (parse : List Byte → Except ε Proto.ConsensusState) (c : Full) (clientId : List Byte) (any : Any) :
    Op (HandlerError ε) Ctx Unit := do
  let _ ← Op.lift (parseClientId clientId)
  let consensusState ← Op.lift ((ConsensusState.tryFromAny parse any).mapError .decoding)
  (UpdateContext.setClientState c).mapError .context
  (UpdateContext.storeConsensusState c.latestHeight (UpdateContext.ofConsensusState Ctx consensusState)).mapError .context

def status (c : Full) (ctx : Ctx) : Except (HandlerError ε) Status :=
  if c.isFrozen then .ok .frozen
  else
    let consensus := do
      let state ← UpdateContext.consensusState ctx c.latestHeight
      (CommonContext.tryInto Ctx state).mapError fun err => .context (error err)
    match consensus with
    | .ok consensus => do
      let (hostTimestamp, _) ← (UpdateContext.hostMetadata ctx).mapError .context
      match c.consensusHasExpired consensus hostTimestamp with
      | none => throw .panic
      | some expired => return if expired then .expired else .active
    | .error (.consensusStateNotFound _) => .ok .expired
    -- There is going to be a new client.
    | .error .clientStateNotFound => .ok .active
    | .error err => .error (.lookup err)

end ClientState.Full

end

end

end CfSolana
