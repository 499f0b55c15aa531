import EmulatedLightClient.ClientStore
import EmulatedLightClient.GuestMessages
import EmulatedLightClient.IbcProofs

/-!
# Handlers of the guest client

What IBC calls on a client. Messages come as `Any` and each handler converts the message again, so that whether the
header which is applied is the one which was verified is a matter of the conversions.
-/

namespace CfGuest

open AsciiText ByteBits FailingState MachineInts Nodes GuestChain TrieIds

/-- A serialised message with the name of its type. -/
structure Any where
  typeUrl : List Char
  value : List Byte

namespace Proto

structure ConsensusState where
  blockHash : List Byte
  timestampNs : Fin (2 ^ 64)

/-- The first kind comes with the error of the parser of the wire format. -/
inductive DecodeError (ε : Type) where
  | badProto (err : ε)
  | badMessage
  | badType
  deriving DecidableEq

def Header.ibcTypeUrl : List Char := "/lightclients.guest.v1.Header".toList

def Misbehaviour.ibcTypeUrl : List Char := "/lightclients.guest.v1.Misbehaviour".toList

def ClientMessage.ibcTypeUrl : List Char := "/lightclients.guest.v1.ClientMessage".toList

def ConsensusState.ibcTypeUrl : List Char := "/lightclients.guest.v1.ConsensusState".toList

/-- The parser of the wire format. -/
structure Wire (ε : Type) where
  header : List Byte → Except ε Header
  misbehaviour : List Byte → Except ε Misbehaviour
  clientMessage : List Byte → Except ε ClientMessage
  consensusState : List Byte → Except ε ConsensusState

end Proto

def ConsensusState.toProto (s : ConsensusState) : Proto.ConsensusState where
  blockHash := s.blockHash
  timestampNs := ⟨s.timestampNs.get, s.timestampNs.lt⟩

def ConsensusState.tryFrom (msg : Proto.ConsensusState) : Option ConsensusState := do
  let _ ← CryptoHash.tryFrom msg.blockHash
  let timestampNs ← NonZero.new msg.timestampNs
  return ⟨msg.blockHash, timestampNs⟩

/-- Parses the bytes and converts the message. -/
def decodeWith {ε M α : Type} (parse : List Byte → Except ε M) (convert : M → Option α) (buf : List Byte) :
    Except (Proto.DecodeError ε) α := do
  let msg ← (parse buf).mapError .badProto
  (convert msg).elim (.error .badMessage) .ok

/-- Domains in front of the type do not matter. -/
def tryFromAny {ε α : Type} (ibcTypeUrl : List Char) (decode : List Byte → Except (Proto.DecodeError ε) α) (any : Any) :
    Except (Proto.DecodeError ε) α :=
  if ibcTypeUrl.isSuffixOf any.typeUrl then decode any.value else .error .badType

section

variable {PK Sig ε : Type} (digest : List Byte → CryptoHash) (codec : KeyCodec PK Sig) (W : Proto.Wire ε)

def Header.decode (buf : List Byte) : Except (Proto.DecodeError ε) (Header PK Sig) :=
  decodeWith W.header (Header.tryFrom digest codec) buf

def Misbehaviour.decode (buf : List Byte) : Except (Proto.DecodeError ε) (Misbehaviour PK Sig) :=
  decodeWith W.misbehaviour (Misbehaviour.tryFrom digest codec) buf

def ClientMessage.decode (buf : List Byte) : Except (Proto.DecodeError ε) (ClientMessage PK Sig) :=
  decodeWith W.clientMessage (ClientMessage.tryFrom digest codec) buf

def ConsensusState.decode (buf : List Byte) : Except (Proto.DecodeError ε) ConsensusState :=
  decodeWith W.consensusState ConsensusState.tryFrom buf

def Header.tryFromAny (any : Any) : Except (Proto.DecodeError ε) (Header PK Sig) :=
  CfGuest.tryFromAny Proto.Header.ibcTypeUrl (Header.decode digest codec W) any

def ConsensusState.tryFromAny (any : Any) : Except (Proto.DecodeError ε) ConsensusState :=
  CfGuest.tryFromAny Proto.ConsensusState.ibcTypeUrl (ConsensusState.decode W) any

/-- Headers and misbehaviour also come without being wrapped. -/
def ClientMessage.tryFromAny (any : Any) : Except (Proto.DecodeError ε) (ClientMessage PK Sig) :=
  if Proto.ClientMessage.ibcTypeUrl.isSuffixOf any.typeUrl then ClientMessage.decode digest codec W any.value
  else if Proto.Header.ibcTypeUrl.isSuffixOf any.typeUrl then (Header.decode digest codec W any.value).map .header
  else if Proto.Misbehaviour.ibcTypeUrl.isSuffixOf any.typeUrl then
    (Misbehaviour.decode digest codec W any.value).map .misbehaviour
  else .error .badType

end

/-- Errors of looking up a consensus state. -/
inductive LookupError where
  | clientStateNotFound
  | context (err : ClientError)

inductive HandlerError (ε : Type) where
  | context (err : ClientError)
  /-- `ClientSpecific` with the text of the error. -/
  | decoding (err : Proto.DecodeError ε)
  | clientSpecific (description : List Byte)
  | invalidProofHeight (latestHeight proofHeight : IbcHeight)

inductive CommitmentError (DecodeError : Type) where
  | encodingFailure (reason : DecodingFailure ⊕ DecodeError)
  | invalidMerkleProof

def VerifyError.toCommitmentError {DecodeError : Type} : VerifyError DecodeError → CommitmentError DecodeError
  | .proofDecodingFailure msg => .encodingFailure (.inl msg)
  | .badSequenceNumber err => .encodingFailure (.inr err)
  | _ => .invalidMerkleProof

/-- Context which clients are created in and whose status is asked for. -/
class HandlerContext (Ctx : Type) (AnyState : outParam Type) extends LawfulContext Ctx AnyState where
  /-- `consensusState` with all the errors it has. -/
  lookup : Ctx → IbcHeight → Except LookupError AnyState
  storeConsensusState : IbcHeight → AnyState → Op ClientError Ctx Unit
  lookup_of_some : ∀ {ctx h s}, stored ctx h = some s → lookup ctx h = .ok s
  lookup_of_none : ∀ {ctx h}, stored ctx h = none → lookup ctx h = .error (.context (.consensusStateNotFound h))
  storeConsensusState_ok : ∀ h s ctx, ∃ ctx', storeConsensusState h s ctx = (.ok (), ctx') ∧
    clientState ctx' = clientState ctx ∧
    ∀ h' s', stored ctx' h' = some s' → (h' = h ∧ s' = s) ∨ (h' ≠ h ∧ stored ctx h' = some s')

inductive Status where
  | active
  | frozen
  | expired
  deriving DecidableEq

def clientType : List Byte := ascii "cf-guest"

/-- Checks type of the client and gives its number. -/
def parseClientId {ε : Type} (clientId : List Byte) : Except (HandlerError ε) Counter :=
  match Counter.parse clientId with
  | some (type, idx) =>
    if type = clientType then .ok idx else .error (.clientSpecific (ascii "invalid client type: " ++ type))
  | none => .error (.clientSpecific (ascii "invalid client id: " ++ clientId))

namespace ClientState

/-- Height zero is a panic. -/
def ibcLatestHeight (c : ClientState) : Option IbcHeight := (IbcHeight.new 1 c.latestHeight.val).toOption

def validateProofHeight {ε : Type} (c : ClientState) (proofHeight : IbcHeight) :
    Option (Except (HandlerError ε) Unit) :=
  c.ibcLatestHeight.map fun latestHeight =>
    if proofHeight ≤ latestHeight then .ok () else .error (.invalidProofHeight latestHeight proofHeight)

section

variable {DecodeError : Type} (digest : List Byte → CryptoHash)
  (decodeU64 : List Byte → Except DecodeError (Fin (2 ^ 64)))

/-- The commitment prefix is not looked at. -/
def verifyMembership ( _prefix proof root : List Byte) (path : Path) (value : List Byte) :
    Except (CommitmentError DecodeError) Unit :=
  (verifyForBlock digest decodeU64 [] proof root path (some value)).mapError VerifyError.toCommitmentError

def verifyNonMembership ( _prefix proof root : List Byte) (path : Path) : Except (CommitmentError DecodeError) Unit :=
  (verifyForBlock digest decodeU64 [] proof root path none).mapError VerifyError.toCommitmentError

end

section

variable {PK Sig ε Ctx AnyState : Type} (digest : List Byte → CryptoHash) (codec : KeyCodec PK Sig) (W : Proto.Wire ε)
  (verifier : Verifier PK Sig)

def verifyConsensusState (any : Any) : Except (HandlerError ε) Unit :=
  ((ConsensusState.tryFromAny W any).mapError .decoding).map fun _ => ()

def verifyClientMessage (c : ClientState) (any : Any) : Except (HandlerError ε) Unit := do
  let message ← (ClientMessage.tryFromAny digest codec W any).mapError .decoding
  (c.doVerifyClientMessage verifier message).mapError .context

section

variable [CommonContext Ctx AnyState]

def checkForMisbehaviour (ctx : Ctx) (any : Any) : Except (HandlerError ε) Bool := do
  let message ← (ClientMessage.tryFromAny digest codec W any).mapError .decoding
  (doCheckForMisbehaviour ctx message).mapError .context

def updateState (c : ClientState) (any : Any) : Op (HandlerError ε) Ctx (List IbcHeight) := do
  let header ← Op.lift ((Header.tryFromAny digest codec W any).mapError .decoding)
  (c.doUpdateState header).mapError .context

/-- The message is not looked at. -/
def updateStateOnMisbehaviour (c : ClientState) (_any : Any) : Op (HandlerError ε) Ctx Unit :=
  (CommonContext.setClientState c.frozen).mapError .context

end

variable [HandlerContext Ctx AnyState]

def initialise (c : ClientState) (clientId : List Byte) (any : Any) : Op (HandlerError ε) Ctx Unit := do
  let _ ← Op.lift (parseClientId clientId)
  let consensusState ← Op.lift ((ConsensusState.tryFromAny W any).mapError .decoding)
  (CommonContext.setClientState c).mapError .context
  let height ← Op.lift ((IbcHeight.new 1 c.latestHeight.val).mapError .context)
  (HandlerContext.storeConsensusState height (CommonContext.ofConsensusState Ctx consensusState)).mapError .context

def status (c : ClientState) (ctx : Ctx) : Except LookupError Status :=
  if c.isFrozen then .ok .frozen
  else do
    let height ← (IbcHeight.new 1 c.latestHeight.val).mapError .context
    let consensus := do
      let state ← HandlerContext.lookup ctx height
      (CommonContext.tryInto Ctx state).mapError fun err => .context (error err)
    match consensus with
    | .ok consensus => do
      let (hostTimestamp, _) ← (CommonContext.hostMetadata ctx).mapError .context
      return if c.consensusHasExpired consensus hostTimestamp then .expired else .active
    | .error (.context (.consensusStateNotFound _)) => return .expired
    -- There is going to be a new client.
    | .error .clientStateNotFound => return .active
    | .error err => throw err

end

end ClientState

end CfGuest
