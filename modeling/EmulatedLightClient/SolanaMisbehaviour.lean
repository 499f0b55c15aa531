import EmulatedLightClient.SolanaClient

/-!
# Evidence of misbehaviour

The check of a message with two headers and the check of a header against the states already kept are
written separately. The time of a witness which does not decode compares as less than every other one, so
the first check takes it for evidence if the header with the greater slot has it. At one slot the first check
compares the accounts, the second one the states which their data decodes to.
-/

namespace CfSolana

open ByteBits MachineInts Nodes
open CfGuest (IbcHeight Neighbourhood)

inductive ClientError where
  | clientSpecific (description : String)
  | other (description : String)
  deriving DecidableEq

def Proto.BadMessage.toClientError : Proto.BadMessage → ClientError
  | .badMessage => .clientSpecific "BadMessage"

/-- Context allowing accessing consensus states, which are kept in a form which converts to
`ConsensusState`. -/
class CommonContext (Ctx : Type) (AnyState : outParam Type) where
  tryInto : AnyState → Except String ConsensusState
  consensusStateNeighbourhood : Ctx → IbcHeight → Except ClientError (Neighbourhood AnyState)

def error (msg : String) : ClientError := .other msg

def Header.ibcHeight (h : Header) : IbcHeight := ⟨1, h.slot.get, Nat.pos_iff_ne_zero.mp h.slot.pos⟩

/-- Time of the block, if the witness account has the format expected. -/
def Header.witnessTime (h : Header) : Option (NonZero 64) := h.decodeWitness.map (·.2)

def checkTimestamp (state : Option (Except String ConsensusState)) (test : NonZero 64 → Bool) : Except ClientError Bool :=
  match state with
  | none => .ok false
  | some (.ok state) => .ok (test state.timestampSec)
  | some (.error err) => .error (error err)

section

variable {Ctx AnyState : Type} [CommonContext Ctx AnyState]

open CommonContext

/-- Consecutive slots may have the same timestamp. -/
def checkForMisbehaviourInHeader (ctx : Ctx) (header : Header) : Except ClientError Bool := do
  match ← consensusStateNeighbourhood ctx header.ibcHeight with
  | .this state =>
    let existingState ← (tryInto Ctx state).mapError error
    let headerState ← (ConsensusState.ofHeader header).mapError (·.toClientError)
    return existingState ≠ headerState
  | .neighbours prev next =>
    match header.decodeWitness with
    | none => return false
    | some (_, current) =>
      if ← checkTimestamp (prev.map (tryInto Ctx)) (current < ·) then return true
      checkTimestamp (next.map (tryInto Ctx)) (· < current)

/-- Times are compared as optional values, of which the missing one is the least. -/
def checkForMisbehaviourInMisbehaviour (misbehaviour : Misbehaviour) : Bool :=
  let header1 := misbehaviour.header1
  let header2 := misbehaviour.header2
  if header1.slot = header2.slot then
    header1.witnessProof.accountHashData.bytes ≠ header2.witnessProof.accountHashData.bytes
  else
    let first := header1.witnessTime
    let second := header2.witnessTime
    let (first, second) := if header2.slot < header1.slot then (second, first) else (first, second)
    decide (Option.lt (· < ·) second first)

def doCheckForMisbehaviour (ctx : Ctx) : ClientMessage → Except ClientError Bool
  | .header header => checkForMisbehaviourInHeader ctx header
  | .misbehaviour misbehaviour => .ok (checkForMisbehaviourInMisbehaviour misbehaviour)

end

/-- Two headers which cannot both be of the chain. -/
def AtOdds (h₁ h₂ : Header) : Prop :=
  (h₁.slot = h₂.slot ∧ h₁.witnessProof.accountHashData.bytes ≠ h₂.witnessProof.accountHashData.bytes) ∨
    ∃ t₁ t₂, h₁.witnessTime = some t₁ ∧ h₂.witnessTime = some t₂ ∧
      ((h₁.slot < h₂.slot ∧ t₂ < t₁) ∨ (h₂.slot < h₁.slot ∧ t₁ < t₂))

/-- The state of the header is the only one which the context has. -/
def HoldsOnly {Ctx AnyState : Type} [CommonContext Ctx AnyState] (ctx : Ctx) (held : Header) : Prop :=
  ∃ state consensus, ConsensusState.ofHeader held = .ok consensus ∧
    CommonContext.tryInto Ctx state = .ok consensus ∧
    ∀ height, CommonContext.consensusStateNeighbourhood ctx height = .ok (
      if height = held.ibcHeight then .this state
      else if held.ibcHeight < height then .neighbours (some state) none
      else .neighbours none (some state))

/-- The check of a header against the state of another one comes to the same as the check of a message with
both. -/
def ChecksAgree (held header : Header) : Prop :=
  ∀ (Ctx AnyState : Type) [CommonContext Ctx AnyState] (ctx : Ctx), HoldsOnly ctx held →
    checkForMisbehaviourInHeader ctx header = .ok (checkForMisbehaviourInMisbehaviour ⟨held, header⟩)

structure EvidenceGenuine (h₁ h₂ : Header) : Prop where
  genuine : checkForMisbehaviourInMisbehaviour ⟨h₁, h₂⟩ = true ↔ AtOdds h₁ h₂
  symmetric : checkForMisbehaviourInMisbehaviour ⟨h₁, h₂⟩ = checkForMisbehaviourInMisbehaviour ⟨h₂, h₁⟩
  agrees₁ : ChecksAgree h₁ h₂
  agrees₂ : ChecksAgree h₂ h₁

/-- A header with a witness which decodes is followed by one with a witness which does. -/
def LaterDecodes (h₁ h₂ : Header) : Prop :=
  (h₁.slot < h₂.slot → h₁.witnessTime.isSome → h₂.witnessTime.isSome) ∧
    (h₂.slot < h₁.slot → h₂.witnessTime.isSome → h₁.witnessTime.isSome)

/-- If the witness of the first header decodes, so does the one of the second, and accounts which differ in
anything (the lamports, say) differ in the root or the time. -/
def WitnessShows (h₁ h₂ : Header) : Prop :=
  h₁.decodeWitness.isSome → h₂.decodeWitness.isSome ∧
    (h₁.decodeWitness = h₂.decodeWitness →
      h₁.witnessProof.accountHashData.bytes = h₂.witnessProof.accountHashData.bytes)

/-- The account's data counts at equal slots, the time alone at different ones. -/
structure WitnessesTell (h₁ h₂ : Header) : Prop where
  later : LaterDecodes h₁ h₂
  same : h₁.slot = h₂.slot → WitnessShows h₁ h₂ ∧ WitnessShows h₂ h₁

/-- A context with the state of one height. -/
structure OneState where
  height : IbcHeight
  state : ConsensusState

instance : CommonContext OneState ConsensusState where
  tryInto := .ok
  consensusStateNeighbourhood ctx height := .ok (
    if height = ctx.height then .this ctx.state
    else if ctx.height < height then .neighbours (some ctx.state) none
    else .neighbours none (some ctx.state))

theorem check_of_slot_eq {h₁ h₂ : Header} (h : h₁.slot = h₂.slot) :
    checkForMisbehaviourInMisbehaviour ⟨h₁, h₂⟩ =
      decide (h₁.witnessProof.accountHashData.bytes ≠ h₂.witnessProof.accountHashData.bytes) :=
  if_pos h

theorem check_of_slot_lt {h₁ h₂ : Header} (h : h₁.slot < h₂.slot) :
    checkForMisbehaviourInMisbehaviour ⟨h₁, h₂⟩ = decide (Option.lt (· < ·) h₂.witnessTime h₁.witnessTime) := by
  unfold checkForMisbehaviourInMisbehaviour
  simp only [if_neg h.ne, if_neg h.asymm]

theorem check_of_slot_gt {h₁ h₂ : Header} (h : h₂.slot < h₁.slot) :
    checkForMisbehaviourInMisbehaviour ⟨h₁, h₂⟩ = decide (Option.lt (· < ·) h₁.witnessTime h₂.witnessTime) := by
  unfold checkForMisbehaviourInMisbehaviour
  simp only [if_neg h.ne', if_pos h]

theorem check_symmetric (h₁ h₂ : Header) :
    checkForMisbehaviourInMisbehaviour ⟨h₁, h₂⟩ = checkForMisbehaviourInMisbehaviour ⟨h₂, h₁⟩ := by
  rcases lt_trichotomy h₁.slot h₂.slot with h | h | h
  · rw [check_of_slot_lt h, check_of_slot_gt h]
  · rw [check_of_slot_eq h, check_of_slot_eq h.symm]
    simp only [ne_comm]
  · rw [check_of_slot_gt h, check_of_slot_lt h]

theorem AtOdds.symm {h₁ h₂ : Header} (h : AtOdds h₁ h₂) : AtOdds h₂ h₁ := by
  rcases h with ⟨hslot, hdata⟩ | ⟨t₁, t₂, h₁, h₂, horder⟩
  · exact .inl ⟨hslot.symm, hdata.symm⟩
  · exact .inr ⟨t₂, t₁, h₂, h₁, horder.symm⟩

theorem LaterDecodes.symm {h₁ h₂ : Header} (h : LaterDecodes h₁ h₂) : LaterDecodes h₂ h₁ := ⟨h.2, h.1⟩

/-- Of headers in order, the check finds those at odds if the second one decodes. -/
theorem check_iff_of_slot_lt {h₁ h₂ : Header} (hslot : h₁.slot < h₂.slot) :
    (checkForMisbehaviourInMisbehaviour ⟨h₁, h₂⟩ = true ↔ AtOdds h₁ h₂) ↔
      (h₁.witnessTime.isSome → h₂.witnessTime.isSome) := by
  rw [check_of_slot_lt hslot, decide_eq_true_eq, AtOdds]
  rcases ht₁ : h₁.witnessTime with _ | t₁ <;> rcases ht₂ : h₂.witnessTime with _ | t₂ <;>
    simp [Option.lt, hslot, hslot.ne, hslot.asymm]

/-- The check finds exactly the headers at odds if later headers decode. -/
theorem check_iff_atOdds {h₁ h₂ : Header} :
    (checkForMisbehaviourInMisbehaviour ⟨h₁, h₂⟩ = true ↔ AtOdds h₁ h₂) ↔ LaterDecodes h₁ h₂ := by
  rcases lt_trichotomy h₁.slot h₂.slot with h | h | h
  · rw [check_iff_of_slot_lt h, LaterDecodes]
    simp [h, h.asymm]
  · rw [check_of_slot_eq h, decide_eq_true_eq, LaterDecodes, AtOdds]
    simp [h]
  · rw [check_symmetric, show AtOdds h₁ h₂ ↔ AtOdds h₂ h₁ from ⟨AtOdds.symm, AtOdds.symm⟩, check_iff_of_slot_lt h,
      LaterDecodes]
    simp [h, h.asymm]

/-- A header has a state exactly if its witness decodes. -/
theorem ofHeader_eq_ok_iff {h : Header} {consensus : ConsensusState} :
    ConsensusState.ofHeader h = .ok consensus ↔
      ∃ root time, h.decodeWitness = some (root, time) ∧ consensus = .new root time := by
  unfold ConsensusState.ofHeader
  rcases hdecode : h.decodeWitness with _ | ⟨root, time⟩
  · simp
  · simp [eq_comm]

theorem ofHeader_ok {h : Header} {consensus : ConsensusState} (hc : ConsensusState.ofHeader h = .ok consensus) :
    h.witnessTime = some consensus.timestampSec := by
  obtain ⟨root, time, hdecode, rfl⟩ := ofHeader_eq_ok_iff.mp hc
  unfold Header.witnessTime
  rw [hdecode]
  rfl

/-- What a header's witness says depends on the account's data only. -/
theorem decodeWitness_congr {h₁ h₂ : Header}
    (h : h₁.witnessProof.accountHashData.bytes = h₂.witnessProof.accountHashData.bytes) :
    h₁.decodeWitness = h₂.decodeWitness := by
  unfold Header.decodeWitness AccountHashData.data
  rw [h]

theorem ConsensusState.new_inj {root₁ root₂ : CryptoHash} {time₁ time₂ : NonZero 64} :
    ConsensusState.new root₁ time₁ = .new root₂ time₂ ↔ root₁ = root₂ ∧ time₁ = time₂ := by
  cases root₁
  cases root₂
  simp [ConsensusState.new]

theorem OneState.holdsOnly {held : Header} {consensus : ConsensusState}
    (h : ConsensusState.ofHeader held = .ok consensus) : HoldsOnly (OneState.mk held.ibcHeight consensus) held :=
  ⟨consensus, consensus, h, rfl, fun _ => rfl⟩

section

variable {Ctx AnyState : Type} [CommonContext Ctx AnyState] {ctx : Ctx} {header : Header} {state : AnyState}
  {consensus : ConsensusState}

/-- The state of the header is compared with the one there is, if the header has one. -/
theorem check_this
    (hstate : CommonContext.tryInto Ctx state = .ok consensus)
    (hctx : CommonContext.consensusStateNeighbourhood ctx header.ibcHeight = .ok (.this state)) :
    checkForMisbehaviourInHeader ctx header =
      ((ConsensusState.ofHeader header).mapError (·.toClientError)).map fun headerState =>
        decide (consensus ≠ headerState) := by
  unfold checkForMisbehaviourInHeader
  rw [hctx]
  simp only [bind, Except.bind, hstate, Except.mapError]
  cases ConsensusState.ofHeader header <;> rfl

theorem check_prev
    (hstate : CommonContext.tryInto Ctx state = .ok consensus)
    (hctx : CommonContext.consensusStateNeighbourhood ctx header.ibcHeight = .ok (.neighbours (some state) none)) :
    checkForMisbehaviourInHeader ctx header =
      .ok (header.witnessTime.any fun current => current < consensus.timestampSec) := by
  unfold checkForMisbehaviourInHeader Header.witnessTime
  rw [hctx]
  cases hdecode : header.decodeWitness with
  | none => rfl
  | some witness =>
    simp only [bind, Except.bind, Option.map_some, hstate, checkTimestamp, Option.any_some, Option.map_none]
    split <;> simp_all [pure, Except.pure]

theorem check_next
    (hstate : CommonContext.tryInto Ctx state = .ok consensus)
    (hctx : CommonContext.consensusStateNeighbourhood ctx header.ibcHeight = .ok (.neighbours none (some state))) :
    checkForMisbehaviourInHeader ctx header =
      .ok (header.witnessTime.any fun current => consensus.timestampSec < current) := by
  unfold checkForMisbehaviourInHeader Header.witnessTime
  rw [hctx]
  cases hdecode : header.decodeWitness with
  | none => rfl
  | some witness =>
    simp only [bind, Except.bind, Option.map_some, hstate, checkTimestamp, Option.any_some, Option.map_none]
    rfl

end

theorem ibcHeight_lt_iff {h₁ h₂ : Header} : h₁.ibcHeight < h₂.ibcHeight ↔ h₁.slot < h₂.slot := by
  rw [show h₁.ibcHeight < h₂.ibcHeight ↔ h₁.ibcHeight.key < h₂.ibcHeight.key from Iff.rfl, CfGuest.IbcHeight.key,
    CfGuest.IbcHeight.key, Prod.Lex.toLex_lt_toLex]
  simp [Header.ibcHeight, NonZero.lt_iff]

/-- At different slots the checks agree if later headers decode. -/
theorem checksAgree_of_laterDecodes {held header : Header} (hne : held.slot ≠ header.slot)
    (h : LaterDecodes held header) : ChecksAgree held header := by
  rintro Ctx AnyState inst ctx ⟨state, consensus, hheld, hstate, hctx⟩
  have htime := ofHeader_ok hheld
  have hctx := hctx header.ibcHeight
  rcases lt_or_gt_of_ne hne with hslot | hslot
  · have hlt := ibcHeight_lt_iff.mpr hslot
    rw [if_neg hlt.ne', if_pos hlt] at hctx
    have hsome := h.1 hslot (Option.isSome_of_eq_some htime)
    obtain ⟨current, hcurrent⟩ := Option.isSome_iff_exists.mp hsome
    rw [check_prev hstate hctx, check_of_slot_lt hslot, htime, hcurrent]
    rfl
  · have hlt := ibcHeight_lt_iff.mpr hslot
    rw [if_neg hlt.ne, if_neg hlt.asymm] at hctx
    rw [check_next hstate hctx, check_of_slot_gt hslot, htime]
    cases header.witnessTime <;> rfl

/-- At equal slots the checks agree if and only if the state of the second header shows what its account does. -/
theorem checksAgree_iff_of_slot_eq {held header : Header} (hslot : held.slot = header.slot) :
    ChecksAgree held header ↔ WitnessShows held header := by
  have heq : header.ibcHeight = held.ibcHeight := by
    unfold Header.ibcHeight
    simp only [hslot]
  unfold ChecksAgree
  rw [check_of_slot_eq hslot]
  constructor
  · intro hagree hsome
    obtain ⟨⟨root, time⟩, hdecode⟩ := Option.isSome_iff_exists.mp hsome
    have hheld := ofHeader_eq_ok_iff.mpr ⟨root, time, hdecode, rfl⟩
    have hcheck := hagree OneState ConsensusState ⟨held.ibcHeight, .new root time⟩ (OneState.holdsOnly hheld)
    rw [check_this rfl (congrArg Except.ok (if_pos heq))] at hcheck
    rcases hheader : header.decodeWitness with _ | ⟨root', time'⟩
    · -- without a state of the header the first check fails
      unfold ConsensusState.ofHeader at hcheck
      rw [hheader] at hcheck
      cases hcheck
    · refine ⟨rfl, fun hsame => ?_⟩
      rw [hdecode] at hsame
      rw [ofHeader_eq_ok_iff.mpr ⟨root', time', hheader, rfl⟩] at hcheck
      cases hsame
      by_contra hdata
      simp [Except.map, Except.mapError, hdata] at hcheck
  · rintro hshows Ctx AnyState inst ctx ⟨state, consensus, hheld, hstate, hctx⟩
    have hctx := hctx header.ibcHeight
    rw [if_pos heq] at hctx
    obtain ⟨root, time, hdecode, rfl⟩ := ofHeader_eq_ok_iff.mp hheld
    obtain ⟨hsome, hdata⟩ := hshows (Option.isSome_of_eq_some hdecode)
    obtain ⟨⟨root', time'⟩, hheader⟩ := Option.isSome_iff_exists.mp hsome
    have hsame : held.witnessProof.accountHashData.bytes = header.witnessProof.accountHashData.bytes ↔
        ConsensusState.new root time = .new root' time' := by
      rw [ConsensusState.new_inj]
      constructor
      · intro hbytes
        have hwitness := decodeWitness_congr hbytes
        rw [hdecode, hheader, Option.some_inj] at hwitness
        exact Prod.ext_iff.mp hwitness
      · rintro ⟨rfl, rfl⟩
        exact hdata (hdecode.trans hheader.symm)
    rw [check_this hstate hctx, ofHeader_eq_ok_iff.mpr ⟨root', time', hheader, rfl⟩]
    simp only [Except.mapError, Except.map, ne_eq, hsame]

/-- What the check of two headers says is genuine, does not depend on their order and agrees with the check of
one against the state of the other, if and only if an undecodable witness does not follow one that decodes and, at
one slot, the witnesses tell the accounts apart. -/
theorem evidence_genuine_iff (h₁ h₂ : Header) : EvidenceGenuine h₁ h₂ ↔ WitnessesTell h₁ h₂ := by
  constructor
  · intro h
    refine ⟨check_iff_atOdds.mp h.genuine, fun hslot => ⟨?_, ?_⟩⟩
    · exact (checksAgree_iff_of_slot_eq hslot).mp h.agrees₁
    · exact (checksAgree_iff_of_slot_eq hslot.symm).mp h.agrees₂
  · intro h
    refine ⟨check_iff_atOdds.mpr h.later, check_symmetric h₁ h₂, ?_, ?_⟩
    · by_cases hslot : h₁.slot = h₂.slot
      · exact (checksAgree_iff_of_slot_eq hslot).mpr (h.same hslot).1
      · exact checksAgree_of_laterDecodes hslot h.later
    · by_cases hslot : h₂.slot = h₁.slot
      · exact (checksAgree_iff_of_slot_eq hslot).mpr (h.same hslot.symm).2
      · exact checksAgree_of_laterDecodes hslot h.later.symm

/-- A header of slot one with a witness which gives the first second. -/
def firstHeader : Header := Header.test (NonZero.clamp 1) (List.replicate 32 0#8 ++ 1#8 :: List.replicate 7 0#8)

/-- A header of slot two with an account without data. -/
def bareHeader : Header := Header.test (NonZero.clamp 2) []

/-- A witness which does not decode is taken for evidence although nothing is known of its time. -/
theorem undecodable_taken_for_evidence :
    checkForMisbehaviourInMisbehaviour ⟨firstHeader, bareHeader⟩ = true ∧ ¬ AtOdds firstHeader bareHeader ∧
      ¬ EvidenceGenuine firstHeader bareHeader := by
  have hcheck : checkForMisbehaviourInMisbehaviour ⟨firstHeader, bareHeader⟩ = true := by decide
  have hbare : bareHeader.witnessTime = none := by decide
  have hodds : ¬ AtOdds firstHeader bareHeader := by
    rintro (⟨hslot, -⟩ | ⟨t₁, t₂, -, htime, -⟩)
    · exact absurd (congrArg NonZero.get hslot) (by decide)
    · rw [hbare] at htime
      cases htime
  exact ⟨hcheck, hodds, fun h => hodds (h.genuine.mp hcheck)⟩

end CfSolana
