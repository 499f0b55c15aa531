import EmulatedLightClient.GuestClient
import EmulatedLightClient.SolanaHeader

/-!
# The light client of the rollup

The client keeps, for each slot it has a header of, the root of the trie and the time in seconds which the
witness account holds. States expire once the trusting period has passed.
-/

namespace CfSolana

open ByteBits MachineInts Nodes CfGuest

/-- The root is a vector of bytes. -/
structure ConsensusState where
  trieRoot : List Byte
  timestampSec : NonZero 64
  deriving DecidableEq

structure Proto.ConsensusState where
  trieRoot : List Byte
  timestampSec : Fin (2 ^ 64)

namespace ConsensusState

def new (trieRoot : CryptoHash) (timestampSec : NonZero 64) : ConsensusState := ⟨trieRoot.bytes, timestampSec⟩

/-- Nanoseconds, in arithmetic which panics if the result does not fit. -/
def timestamp (s : ConsensusState) : Option Nat := checkedMul 64 s.timestampSec.get 1000000000

def ofHeader (header : Header) : Except Proto.BadMessage ConsensusState :=
  match header.decodeWitness with
  | some (trieRoot, timestampSec) => .ok (new trieRoot timestampSec)
  | none => .error .badMessage

def toProto (s : ConsensusState) : Proto.ConsensusState := ⟨s.trieRoot, ⟨s.timestampSec.get, s.timestampSec.lt⟩⟩

/-- Conversion of an owned message, of which the bytes are kept. -/
def tryFromOwned (msg : Proto.ConsensusState) : Except Proto.BadMessage ConsensusState :=
  if msg.trieRoot.length ≠ 32 then .error .badMessage
  else
    match NonZero.new msg.timestampSec with
    | some timestampSec => .ok ⟨msg.trieRoot, timestampSec⟩
    | none => .error .badMessage

def tryFromRef (msg : Proto.ConsensusState) : Except Proto.BadMessage ConsensusState :=
  match CryptoHash.tryFrom msg.trieRoot, NonZero.new msg.timestampSec with
  | some trieRoot, some timestampSec => .ok (new trieRoot timestampSec)
  | _, _ => .error .badMessage

end ConsensusState

structure ClientState where
  trustingPeriodNs : Fin (2 ^ 64)

/-- Whether the consensus state has expired at the host's time in nanoseconds; the addition saturates. -/
def ClientState.consensusHasExpired (c : ClientState) (consensus : ConsensusState) (hostTimestamp : Nat) : Option Bool := do
  let timestamp ← consensus.timestamp
  return min (timestamp + c.trustingPeriodNs) (2 ^ 64 - 1) ≤ hostTimestamp

/-- Where the client gets consensus states from. -/
def Accepted (s : ConsensusState) : Prop :=
  (∃ header, ConsensusState.ofHeader header = .ok s) ∨
    ∃ msg, ConsensusState.tryFromOwned msg = .ok s ∨ ConsensusState.tryFromRef msg = .ok s

/-- The last second of which the nanoseconds fit in 64 bits. -/
def maxTimestampSec : Nat := (2 ^ 64 - 1) / 1000000000

theorem timestamp_eq_some_iff {s : ConsensusState} {ns : Nat} :
    s.timestamp = some ns ↔ s.timestampSec.get ≤ maxTimestampSec ∧ s.timestampSec.get * 1000000000 = ns := by
  unfold ConsensusState.timestamp checkedMul maxTimestampSec
  split
  · rename_i h
    rw [Option.some_inj]
    omega
  · rename_i h
    refine iff_of_false nofun ?_
    rintro ⟨hle, -⟩
    omega

theorem timestamp_eq_none_iff {s : ConsensusState} : s.timestamp = none ↔ maxTimestampSec < s.timestampSec.get := by
  constructor
  · intro h
    refine not_le.mp fun hle => ?_
    rw [timestamp_eq_some_iff.mpr ⟨hle, rfl⟩] at h
    cases h
  · intro h
    refine Option.eq_none_iff_forall_ne_some.mpr fun ns hns => ?_
    exact absurd (timestamp_eq_some_iff.mp hns).1 (not_le.mpr h)

/-- The times of a state are exact, and none before it outlives it. -/
structure Timely (s : ConsensusState) : Prop where
  timestamp : s.timestamp = some (s.timestampSec.get * 10 ^ 9)
  expires : ∀ earlier : ConsensusState, earlier.timestampSec ≤ s.timestampSec →
    ∀ (c : ClientState) (hostTimestamp : Nat), c.consensusHasExpired s hostTimestamp = some true →
      c.consensusHasExpired earlier hostTimestamp = some true

theorem expired_earlier {a b : ConsensusState} (hb : b.timestampSec.get ≤ maxTimestampSec)
    (hle : a.timestampSec ≤ b.timestampSec) {c : ClientState} {hostTimestamp : Nat}
    (h : c.consensusHasExpired b hostTimestamp = some true) : c.consensusHasExpired a hostTimestamp = some true := by
  have hle := NonZero.le_iff.mp hle
  unfold ClientState.consensusHasExpired at h ⊢
  rw [timestamp_eq_some_iff.mpr ⟨hb, rfl⟩] at h
  rw [timestamp_eq_some_iff.mpr ⟨hle.trans hb, rfl⟩]
  have hns : a.timestampSec.get * 1000000000 + c.trustingPeriodNs ≤ b.timestampSec.get * 1000000000 + c.trustingPeriodNs :=
    Nat.add_le_add_right (Nat.mul_le_mul_right _ hle) _
  have hexpired := of_decide_eq_true (Option.some_inj.mp h)
  exact congrArg some (decide_eq_true ((min_le_min_right _ hns).trans hexpired))

/-- A message is accepted either way exactly if its root has 32 bytes and its time is not zero. -/
theorem accepted_iff {s : ConsensusState} : Accepted s ↔ s.trieRoot.length = 32 := by
  constructor
  · rintro (⟨header, h⟩ | ⟨msg, h | h⟩)
    · unfold ConsensusState.ofHeader at h
      split at h
      · cases h
        exact CryptoHash.size _
      · cases h
    · unfold ConsensusState.tryFromOwned at h
      split at h
      · cases h
      · rename_i hlen
        split at h
        · cases h
          exact not_not.mp hlen
        · cases h
    · unfold ConsensusState.tryFromRef at h
      split at h
      · cases h
        exact CryptoHash.size _
      · cases h
  · intro hlen
    have hsec : NonZero.new s.toProto.timestampSec = some s.timestampSec := dif_pos s.timestampSec.pos
    refine .inr ⟨s.toProto, .inl ?_⟩
    unfold ConsensusState.tryFromOwned
    rw [if_neg (not_not.mpr (show s.toProto.trieRoot.length = 32 from hlen)), hsec]
    rfl

/-- Every root and time can be accepted, and the times are fine exactly up to the last second that fits. -/
theorem expiry_exact_iff (s : ConsensusState) :
    (Accepted s ↔ s.trieRoot.length = 32) ∧ (Timely s ↔ s.timestampSec.get ≤ maxTimestampSec) := by
  refine ⟨accepted_iff, ?_⟩
  constructor
  · intro h
    exact (timestamp_eq_some_iff.mp h.timestamp).1
  · intro hle
    refine ⟨timestamp_eq_some_iff.mpr ⟨hle, rfl⟩, ?_⟩
    intro earlier hearlier c hostTimestamp h
    exact expired_earlier hle hearlier h

/-- A header of which the witness gives the last time with 48 bits. -/
def lateHeader : Header :=
  Header.test (NonZero.clamp 1) (List.replicate 32 0#8 ++ List.replicate 6 255#8 ++ [0#8, 0#8])

/-- A witness with a time past the last second that fits is accepted. -/
theorem late_timestamp_overflows :
    ∃ s, ConsensusState.ofHeader lateHeader = .ok s ∧ s.timestamp = none ∧ ¬ Timely s := by
  let s : ConsensusState := ⟨CryptoHash.default.bytes, NonZero.clamp (2 ^ 48 - 1)⟩
  have hnone : s.timestamp = none := timestamp_eq_none_iff.mpr (by decide)
  refine ⟨s, by decide +kernel, hnone, ?_⟩
  intro h
  have := h.timestamp
  rw [hnone] at this
  cases this

end CfSolana
