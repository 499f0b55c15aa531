import EmulatedLightClient.ChainManager

/-!
# The account of the guest chain

The program which runs the guest chain keeps the chain manager in one account and
the root of the trie in another. Other programs set the stake of a candidate; an
attempt to generate a block comes first, at most once in a block of the host.
-/

namespace SolanaIbc

open ByteBits GuestChain MachineInts Nodes

/-- The clock of the host; the timestamp counts seconds. -/
structure Clock where
  slot : Fin (2 ^ 64)
  unixTimestamp : Int

inductive ChainError where
  | chainNotInitialised
  | updateCandidate (err : UpdateCandidateError)
  | panic
deriving DecidableEq

instance ChainError.ofUpdateCandidateError : OfUpdateCandidateError ChainError where
  ofUpdateCandidateError := .updateCandidate

structure ChainInner (PK : Type) where
  lastCheckHeight : HostHeight
  manager : ChainManager PK

/-- The chain, once it has been initialised, and the root of its trie. -/
structure ChainData (PK : Type) where
  inner : Option (ChainInner PK)
  stateRoot : CryptoHash

/-- Height and timestamp of the host, in nanoseconds; a time which does not fit is
a panic. -/
def getHostHead (clock : Clock) : Option (HostHeight × NonZeroU64) :=
  let timestamp := clock.unixTimestamp.toNat * 10 ^ 9
  if h : 0 < timestamp ∧ timestamp < 2 ^ 64 then
    some (⟨clock.slot.val, clock.slot.isLt⟩, ⟨timestamp, h.1, h.2⟩)
  else none

section

variable {PK : Type} [PubKey PK] (digest : List Byte → CryptoHash)

/-- That no block is generated is no failure. -/
def ChainInner.maybeGenerateBlock (c : ChainInner PK) (stateRoot : CryptoHash) (clock : Clock) :
    Option (ChainInner PK) := do
  let (hostHeight, hostTimestamp) ← getHostHead clock
  if c.lastCheckHeight = hostHeight then return c
  else
    let (_, manager) ← c.manager.generateNext digest hostHeight hostTimestamp stateRoot
    return { lastCheckHeight := hostHeight, manager }

namespace ChainData

def get (c : ChainData PK) : Except ChainError (ChainInner PK) :=
  c.inner.elim (.error .chainNotInitialised) .ok

def candidate (c : ChainData PK) (candidate : PK) : Except ChainError (Option (Candidate PK)) := do
  let inner ← c.get
  return inner.manager.candidates.candidates.find? fun el => el.pubkey = candidate

/-- The rewards of a stake, none so far, and the height of the epoch. -/
def calculateRewards (c : ChainData PK) (_lastClaimedEpochHeight : Nat) (_validator : PK)
    (_stake : Nat) : Except ChainError (Nat × Nat) := do
  let inner ← c.get
  return (0, inner.manager.epochHeight.val)

/-- The instruction which updates a validator's stake. -/
def setStake (c : ChainData PK) (clock : Clock) (validator : PK) (amount : Fin (2 ^ 128)) :
    Except ChainError (ChainData PK) := do
  let inner ← c.get
  match inner.maybeGenerateBlock digest c.stateRoot clock with
  | none => .error .panic
  | some inner =>
    match inner.manager.updateCandidate validator fun _ => .ok amount with
    | none => .error .panic
    | some (.error err, _) => .error err
    | some (.ok (), manager) => .ok { c with inner := some { inner with manager } }

end ChainData

end

end SolanaIbc
