import EmulatedLightClient.ChainData
import EmulatedLightClient.HostStorage
import Mathlib.Algebra.Ring.Nat

/-!
# Instructions of the contract

The instructions which run the guest chain and those which change the store. Each
gives the events it emits about the chain together with the accounts it leaves; an
instruction which fails leaves the accounts as they were. The root of the trie is a
function of what the trie holds. Which accounts may be passed is checked before an
instruction is handled and is left out.
-/

namespace SolanaIbc

open ByteBits FailingState GuestChain MachineInts Nodes Storage

abbrev Pubkey := BitVec 256

inductive Error where
  | internal (msg : String)
  | contextError (err : ContextError)
  | tokenTransferError (msg : String)
  | chainNotInitialised
  | chainAlreadyInitialised
  | generationAlreadyAttempted
  | hasPendingBlock
  | headBlockTooYoung
  | unchangedGuestState
  | unknownBlock
  | badSignature
  | badValidator
  | notEnoughValidatorStake
  | notEnoughTotalStake
  | notEnoughValidators
  | invalidCPICall
  | invalidSendTransferParams
  | invalidTimeout
  | invalidSigner
  | candidateNotFound
  | insufficientStake
  /-- Errors of the host: `ProgramError` of the source. -/
  | arithmeticOverflow
  | incorrectProgramId
  | insufficientFunds
  | panic
deriving DecidableEq

namespace Error

def ofBlockGenerateError : Block.GenerateError → Error
  | .badHostHeight => .internal "BadHostHeight"
  | .badHostTimestamp => .internal "BadHostTimestamp"

def ofGenerateError : GenerateError → Error
  | .hasPendingBlock => .hasPendingBlock
  | .blockTooYoung => .headBlockTooYoung
  | .unchangedState => .unchangedGuestState
  | .inner err => ofBlockGenerateError err

def ofAddSignatureError : AddSignatureError → Error
  | .noPendingBlock => .unknownBlock
  | .badSignature => .badSignature
  | .badValidator => .badValidator

instance ofUpdateCandidateError : OfUpdateCandidateError Error where
  ofUpdateCandidateError
    | .notEnoughValidatorStake => .notEnoughValidatorStake
    | .notEnoughTotalStake => .notEnoughTotalStake
    | .notEnoughValidators => .notEnoughValidators

end Error

/-- Events about the guest chain. -/
inductive Event (PK Sig : Type) where
  | initialised (genesis : BlockHeader)
  | newBlock (blockHeader : BlockHeader) (epoch : Option (Epoch PK))
  | blockSigned (blockHash : CryptoHash) (blockHeight : BlockHeight) (pubkey : PK) (signature : Sig)
  | blockFinalised (blockHash : CryptoHash) (blockHeight : BlockHeight)

/-- The guest block an event tells about when it is made. -/
def Event.generated {PK Sig : Type} : Event PK Sig → Option BlockHeader
  | .initialised genesis => some genesis
  | .newBlock blockHeader _ => some blockHeader
  | _ => none

/-- A missing value is a panic. -/
def orPanic {α : Type} (x : Option α) : Except Error α := x.elim (.error .panic) .ok

theorem orPanic_ok {α : Type} {x : Option α} {a : α} : orPanic x = .ok a ↔ x = some a := by
  cases x with
  | none => simp [orPanic]
  | some b => simp [orPanic]

section

variable {PK Sig : Type} [PubKey PK] (digest : List Byte → CryptoHash)

variable (Sig) in
/-- Attempts generating a new guest block, once in a block of the host. If `force`
is set, it is an error when no block is generated. -/
def ChainInner.generateBlock (c : ChainInner PK) (stateRoot : CryptoHash) (clock : Clock) (force : Bool) :
    Except Error (ChainInner PK × List (Event PK Sig)) := do
  let (hostHeight, hostTimestamp) ← orPanic (getHostHead clock)
  if c.lastCheckHeight = hostHeight then
    if force then .error .generationAlreadyAttempted else .ok (c, [])
  else
    match ← orPanic (c.manager.generateNext digest hostHeight hostTimestamp stateRoot) with
    | (.ok (), manager) =>
      let (finalised, head) := manager.head
      if finalised then .error .panic
      else
        let epoch := manager.pendingBlock.map fun _ => manager.nextEpoch
        .ok ({ lastCheckHeight := hostHeight, manager }, [.newBlock head epoch])
    | (.error err, manager) =>
      if force then .error (.ofGenerateError err)
      else .ok ({ lastCheckHeight := hostHeight, manager }, [])

variable (Sig) in
/-- A new guest chain with given configuration and genesis epoch. -/
def ChainInner.initialise (stateRoot : CryptoHash) (clock : Clock) (config : Config) (genesisEpoch : Epoch PK) :
    Except Error (ChainInner PK × List (Event PK Sig)) := do
  let (hostHeight, hostTimestamp) ← orPanic (getHostHead clock)
  let genesis := Block.generateGenesis digest (Height.clamp 1) hostHeight hostTimestamp stateRoot genesisEpoch
  match ← orPanic (ChainManager.new digest config genesis) with
  | .error _ => .error (.internal "BadGenesis")
  | .ok manager =>
    let (finalised, head) := manager.head
    if finalised then .ok ({ lastCheckHeight := hostHeight, manager }, [.initialised head])
    else .error .panic

/-- Submits a signature of the pending block; says whether quorum was reached. -/
def ChainInner.signBlock (c : ChainInner PK) (pubkey : PK) (signature : Sig) (verifier : Verifier PK Sig) :
    Except Error (Bool × ChainInner PK × List (Event PK Sig)) := do
  match ← orPanic (c.manager.addSignature pubkey signature verifier) with
  | (.error err, _) => .error (.ofAddSignatureError err)
  | (.ok effect, manager) =>
    let header := manager.head.2
    let blockHash := header.calcHash digest
    let signed := if effect ≠ .duplicate then
      [.blockSigned blockHash header.blockHeight pubkey signature] else []
    let finalised := if effect = .gotQuorum then [.blockFinalised blockHash header.blockHeight] else []
    return (decide (effect = .gotQuorum), { c with manager }, signed ++ finalised)

def ChainInner.updateCandidate (c : ChainInner PK) (pubkey : PK)
    (newStakeFn : Option (Candidate PK) → Except Error (Fin (2 ^ 128))) : Except Error (ChainInner PK) := do
  let (res, manager) ← orPanic (c.manager.updateCandidate pubkey newStakeFn)
  res.map fun _ => { c with manager }

/-- Adds a signed number to the stake of a candidate. -/
def addStake (amount : BitVec 128) (candidate : Option (Candidate PK)) : Except Error (Fin (2 ^ 128)) :=
  match checkedAddSigned 128 (candidate.elim 0 (·.stake.get)) amount.toInt with
  | some stake => .ok stake
  | none =>
    if 0 < amount.toInt then .error .arithmeticOverflow
    else if candidate.isNone then .error .candidateNotFound
    else .error .insufficientStake

def ChainInner.updateStake (c : ChainInner PK) (stakeChanges : List (PK × BitVec 128)) :
    Except Error (ChainInner PK) :=
  stakeChanges.foldlM (fun c change => c.updateCandidate change.1 (addStake change.2)) c

end

/-- Programs which may change the stake. -/
def expectedProgramIds : List Pubkey :=
  [0x738b7c23e23543d25ac128b2ed4c676194c0bb20fad0154e1a5b1e639c9c4de0#256,
    0x79890dbcf24e48972b57e5094e5889be2742ed560c8e8d4842a6fea84b5e9c37#256]

def checkStakingProgram (programId : Pubkey) : Except Error Unit :=
  if programId ∈ expectedProgramIds then .ok () else .error .invalidCPICall

/-- What is kept between instructions: the chain, if it has been initialised, the
store, and in `world` all other accounts. -/
structure Contract (PK W : Type) where
  chain : Option (ChainInner PK)
  sigVerifyProgramId : Pubkey
  feeInLamports : Fin (2 ^ 64)
  storage : Storage.IbcStorage
  world : W

/-- A transfer, of which the contract itself reads the denomination and the timeouts. -/
structure MsgTransfer (T : Type) where
  denom : List Byte
  timeoutHeightIsSet : Bool
  timeoutTimestampIsSet : Bool
  rest : T

/-- Code outside of the contract. It gets the store to change and can only look at
the chain. -/
structure Handlers (PK W Msg T C : Type) where
  dispatch : ChainInner PK → Pubkey → Msg → Storage.IbcStorage × W → Except ContextError (Storage.IbcStorage × W)
  sendTransfer : ChainInner PK → MsgTransfer T → Storage.IbcStorage × W → Except String (Storage.IbcStorage × W)
  systemTransfer : Fin (2 ^ 64) → W → Option W
  withDelayPeriod : C → Fin (2 ^ 64) → Except ContextError C

inductive ContractCall (PK Sig Msg T : Type) where
  | initialise (config : Config) (genesisEpoch : Epoch PK) (sigVerifyProgramId : Pubkey)
  | generateBlock
  /-- There is no verifier if the instruction before is not one of the Ed25519 program. -/
  | signBlock (sender : PK) (signature : Sig) (verifier : Option (Verifier PK Sig))
  | setStake (caller : Pubkey) (validator : PK) (amount : Fin (2 ^ 128))
  | updateStake (caller : Pubkey) (stakeChanges : List (PK × BitVec 128))
  | deliver (sender : Pubkey) (message : Msg)
  | sendTransfer (hashedFullDenom : CryptoHash) (msg : MsgTransfer T)
  | updateConnectionDelayPeriod (connectionIdIdx : Fin (2 ^ 16)) (delayPeriodInNs : Fin (2 ^ 64))

structure ContractInstruction (PK Sig Msg T : Type) where
  clock : Clock
  call : ContractCall PK Sig Msg T

namespace Contract

/-- The account which may deliver messages. -/
def relayer : Pubkey := 0x918416202a42c6d792cfc45d0b388bade27fd361933420baed0ea61a46d0bb99#256

section

variable {PK Sig W Msg T C : Type} [PubKey PK] [Codec C] (digest : List Byte → CryptoHash)
  (root : (List Byte → Option CryptoHash) → CryptoHash) (handlers : Handlers PK W Msg T C)

def stateRoot (c : Contract PK W) : CryptoHash := root c.storage.provable

def get (c : Contract PK W) : Except Error (ChainInner PK) := c.chain.elim (.error .chainNotInitialised) .ok

def initialise (c : Contract PK W) (clock : Clock) (config : Config) (genesisEpoch : Epoch PK)
    (sigVerifyProgramId : Pubkey) : Except Error (Contract PK W × List (Event PK Sig)) := do
  let (inner, events) ← ChainInner.initialise Sig digest (c.stateRoot root) clock config genesisEpoch
  if c.chain.isSome then .error .chainAlreadyInitialised
  else return ({ c with chain := some inner, sigVerifyProgramId }, events)

def generateBlock (c : Contract PK W) (clock : Clock) (force : Bool) :
    Except Error (Contract PK W × List (Event PK Sig)) := do
  let inner ← c.get
  let (inner, events) ← inner.generateBlock Sig digest (c.stateRoot root) clock force
  return ({ c with chain := some inner }, events)

def signBlock (c : Contract PK W) (clock : Clock) (sender : PK) (signature : Sig)
    (verifier : Option (Verifier PK Sig)) : Except Error (Contract PK W × List (Event PK Sig)) := do
  let verifier ← verifier.elim (.error .incorrectProgramId) .ok
  let inner ← c.get
  let (gotQuorum, inner, events) ← inner.signBlock digest sender signature verifier
  let c := { c with chain := some inner }
  if gotQuorum then
    let (c, generated) ← c.generateBlock digest root clock false
    return (c, events ++ generated)
  else return (c, events)

/-- Handling of an instruction after an attempt to generate a block. -/
def afterGenerating (c : Contract PK W) (clock : Clock)
    (handle : Contract PK W → ChainInner PK → Except Error (Contract PK W)) :
    Except Error (Contract PK W × List (Event PK Sig)) := do
  let (c, events) ← c.generateBlock digest root clock false
  let inner ← c.get
  let c ← handle c inner
  return (c, events)

def setStake (c : Contract PK W) (clock : Clock) (caller : Pubkey) (validator : PK) (amount : Fin (2 ^ 128)) :
    Except Error (Contract PK W × List (Event PK Sig)) := do
  checkStakingProgram caller
  c.afterGenerating digest root clock fun c inner => do
    let inner ← inner.updateCandidate validator fun _ => .ok amount
    return { c with chain := some inner }

def updateStake (c : Contract PK W) (clock : Clock) (caller : Pubkey) (stakeChanges : List (PK × BitVec 128)) :
    Except Error (Contract PK W × List (Event PK Sig)) := do
  checkStakingProgram caller
  c.afterGenerating digest root clock fun c inner => do
    let inner ← inner.updateStake stakeChanges
    return { c with chain := some inner }

def deliver (c : Contract PK W) (clock : Clock) (sender : Pubkey) (message : Msg) :
    Except Error (Contract PK W × List (Event PK Sig)) := do
  if sender ≠ relayer then .error .invalidSigner
  else
    c.afterGenerating digest root clock fun c inner => do
      let (storage, world) ← (handlers.dispatch inner c.sigVerifyProgramId message (c.storage, c.world)).mapError
        .contextError
      return { c with storage, world }

def sendTransfer (c : Contract PK W) (clock : Clock) (hashedFullDenom : CryptoHash) (msg : MsgTransfer T) :
    Except Error (Contract PK W × List (Event PK Sig)) := do
  if digest msg.denom ≠ hashedFullDenom then .error .invalidSendTransferParams
  else
    c.afterGenerating digest root clock fun c inner => do
      if !msg.timeoutHeightIsSet && !msg.timeoutTimestampIsSet then .error .invalidTimeout
      else
        let world ← (handlers.systemTransfer c.feeInLamports c.world).elim (.error .insufficientFunds) .ok
        let (storage, world) ← (handlers.sendTransfer inner msg (c.storage, world)).mapError .tokenTransferError
        return { c with storage, world }

def updateConnectionDelayPeriod (c : Contract PK W) (clock : Clock) (connectionIdIdx : Fin (2 ^ 16))
    (delayPeriodInNs : Fin (2 ^ 64)) : Except Error (Contract PK W × List (Event PK Sig)) := do
  let connectionId := AsciiText.ascii "connection-" ++ AsciiText.decimal connectionIdIdx.val
  if c.storage.priv.connections.length ≤ connectionIdIdx.val then
    .error (.contextError (.connectionNotFound connectionId))
  else
    c.afterGenerating digest root clock fun c _ => do
      let connectionEnd ← (c.storage.connectionEnd C connectionId).mapError .contextError
      let updated ← (handlers.withDelayPeriod connectionEnd delayPeriodInNs).mapError .contextError
      let storage ← (c.storage.storeConnection digest connectionId updated).mapError .contextError
      return { c with storage }

def handle (c : Contract PK W) (ix : ContractInstruction PK Sig Msg T) :
    Except Error (Contract PK W × List (Event PK Sig)) :=
  match ix.call with
  | .initialise config genesisEpoch sigVerifyProgramId =>
    c.initialise digest root ix.clock config genesisEpoch sigVerifyProgramId
  | .generateBlock => c.generateBlock digest root ix.clock true
  | .signBlock sender signature verifier => c.signBlock digest root ix.clock sender signature verifier
  | .setStake caller validator amount => c.setStake digest root ix.clock caller validator amount
  | .updateStake caller stakeChanges => c.updateStake digest root ix.clock caller stakeChanges
  | .deliver sender message => c.deliver digest root handlers ix.clock sender message
  | .sendTransfer hashedFullDenom msg => c.sendTransfer digest root handlers ix.clock hashedFullDenom msg
  | .updateConnectionDelayPeriod connectionIdIdx delayPeriodInNs =>
    c.updateConnectionDelayPeriod digest root handlers ix.clock connectionIdIdx delayPeriodInNs

/-- An instruction which fails has no effect. -/
def exec (c : Contract PK W) (ix : ContractInstruction PK Sig Msg T) : Contract PK W × List (Event PK Sig) :=
  match c.handle digest root handlers ix with
  | .ok res => res
  | .error _ => (c, [])

def execAll : Contract PK W → List (ContractInstruction PK Sig Msg T) → Contract PK W × List (Event PK Sig)
  | c, [] => (c, [])
  | c, ix :: ixs =>
    let (c, events) := c.exec digest root handlers ix
    let (c, later) := execAll c ixs
    (c, events ++ later)

/-- The accounts which the staking program passes along. -/
def chainData (c : Contract PK W) : ChainData PK := ⟨c.chain, c.stateRoot root⟩

omit [PubKey PK] [Codec C] in
theorem get_ok {c : Contract PK W} {inner : ChainInner PK} : c.get = .ok inner ↔ c.chain = some inner := by
  cases h : c.chain with
  | none => simp [get, h]
  | some inner' => simp [get, h]

omit [Codec C] in
theorem maybeGenerateBlock_of_ok {c c' : ChainInner PK} {stateRoot : CryptoHash} {clock : Clock}
    {events : List (Event PK Sig)} (h : c.generateBlock Sig digest stateRoot clock false = .ok (c', events)) :
    c.maybeGenerateBlock digest stateRoot clock = some c' := by
  simp only [ChainInner.generateBlock, bind_eq_ok, orPanic_ok] at h
  obtain ⟨⟨height, timestamp⟩, hhead, h⟩ := h
  simp only [ChainInner.maybeGenerateBlock, hhead, Option.bind_eq_bind, Option.bind_some]
  split at h
  · rename_i hsame
    rw [if_pos hsame]
    cases h
    rfl
  · rename_i hne
    rw [if_neg hne]
    simp only [bind_eq_ok, orPanic_ok] at h
    obtain ⟨⟨res, manager⟩, hnext, h⟩ := h
    rw [hnext]
    cases res with
    | error =>
      cases h
      rfl
    | ok =>
      simp only at h
      split at h
      · cases h
      · cases h
        rfl

omit [Codec C] in
/-- Whether a stake is accepted does not depend on how errors are reported. -/
theorem updateCandidate_report {E E' : Type} [OfUpdateCandidateError E] [OfUpdateCandidateError E']
    {m m' : ChainManager PK} {pubkey : PK} {amount : Fin (2 ^ 128)}
    (h : m.updateCandidate pubkey (fun _ => (.ok amount : Except E _)) = some (.ok (), m')) :
    m.updateCandidate pubkey (fun _ => (.ok amount : Except E' _)) = some (.ok (), m') := by
  have hreport : ∀ (x : Option (Except UpdateCandidateError Unit × Candidates PK)),
      ((x.bind fun r => some (r.1.mapError (OfUpdateCandidateError.ofUpdateCandidateError (E := E)), r.2)).bind
        fun r => some (r.1, { m with candidates := r.2 })) = some (.ok (), m') →
      ((x.bind fun r => some (r.1.mapError (OfUpdateCandidateError.ofUpdateCandidateError (E := E')), r.2)).bind
        fun r => some (r.1, { m with candidates := r.2 })) = some (.ok (), m') := by
    intro x hx
    cases x with
    | none => cases hx
    | some r =>
      obtain ⟨res, candidates⟩ := r
      cases res with
      | error => cases hx
      | ok =>
        cases hx
        rfl
  simp only [ChainManager.updateCandidate, Candidates.update] at h ⊢
  cases hstake : NonZero.new amount with
  | none =>
    rw [hstake] at h
    cases hpos : m.candidates.candidates.findIdx? fun el => decide (el.pubkey = pubkey) with
    | none =>
      rw [hpos] at h
      exact hreport _ h
    | some pos =>
      rw [hpos] at h
      exact hreport _ h
  | some stake =>
    rw [hstake] at h
    simp only at h ⊢
    by_cases hlow : stake < m.config.minValidatorStake
    · rw [if_pos hlow] at h ⊢
      exact hreport _ h
    · rw [if_neg hlow] at h ⊢
      exact hreport _ h

omit [Codec C] in
theorem setStake_of_ok {c : ChainData PK} {inner inner' : ChainInner PK} {clock : Clock} {validator : PK}
    {amount : Fin (2 ^ 128)} {manager : ChainManager PK} (hinner : c.inner = some inner)
    (hgenerate : inner.maybeGenerateBlock digest c.stateRoot clock = some inner')
    (hupdate : inner'.manager.updateCandidate validator (fun _ => (.ok amount : Except ChainError _)) =
      some (.ok (), manager)) :
    c.setStake digest clock validator amount = .ok { c with inner := some { inner' with manager } } := by
  have hget : ∀ k : ChainInner PK → Except ChainError (ChainData PK), (c.get >>= k) = k inner := by
    intro k
    rw [ChainData.get, hinner]
    rfl
  refine (hget _).trans ?_
  rw [hgenerate]
  dsimp only
  generalize (inner'.manager.updateCandidate validator fun _ => (.ok amount : Except ChainError _)) = u at hupdate ⊢
  subst hupdate
  rfl

omit [Codec C] in
/-- An instruction which sets a stake does to the chain what the staking program
expects. -/
theorem setStake_chainData {c c' : Contract PK W} {clock : Clock} {caller : Pubkey} {validator : PK}
    {amount : Fin (2 ^ 128)} {events : List (Event PK Sig)}
    (h : c.setStake digest root clock caller validator amount = .ok (c', events)) :
    (c.chainData root).setStake digest clock validator amount = .ok (c'.chainData root) := by
  simp only [setStake, afterGenerating, generateBlock, ChainInner.updateCandidate, bind_eq_ok, orPanic_ok] at h
  obtain ⟨-, -, ⟨c₁, events₁⟩, ⟨inner, hinner, ⟨inner₁, events₁'⟩, hgenerate, hc₁⟩, inner₂, hinner₂, c₂,
    ⟨inner₃, ⟨⟨res, manager⟩, hupdate, hres⟩, hc₂⟩, h⟩ := h
  cases h
  cases hc₂
  cases hc₁
  cases hinner₂
  cases res with
  | error => cases hres
  | ok =>
    cases hres
    exact setStake_of_ok digest (get_ok.mp hinner) (maybeGenerateBlock_of_ok digest hgenerate)
      (updateCandidate_report hupdate)

end

end Contract

end SolanaIbc
