import EmulatedLightClient.GuestBlock
import Mathlib.Data.List.Sort
import Mathlib.Data.Prod.Lex

/-!
# Chain configuration and validator candidates

Candidates are kept sorted with most stake first; the head of the list, as many
of them as there may be validators, makes the next epoch. The missing value is a
panic: an arithmetic overflow or an index out of bounds.
-/

namespace GuestChain

open ByteBits MachineInts Nodes

structure Config where
  minValidators : NonZeroU16
  maxValidators : NonZeroU16
  minValidatorStake : NonZeroU128
  minTotalStake : NonZeroU128
  minQuorumStake : NonZeroU128
  minBlockLength : HostDelta
  maxBlockAgeNs : Nat
  minEpochLength : HostDelta

structure UpdateConfig where
  minValidators : Option NonZeroU16
  maxValidators : Option NonZeroU16
  minValidatorStake : Option NonZeroU128
  minTotalStake : Option NonZeroU128
  minQuorumStake : Option NonZeroU128
  minBlockLength : Option HostDelta
  maxBlockAgeNs : Option Nat
  minEpochLength : Option HostDelta

inductive UpdateConfigError where
  | minValidatorsHigherThanExisting
  | maxValidatorsCannotBeLowerThanMin
  | minTotalStakeHigherThanExisting
  | minTotalStakeHigherThanMinQuorumStake
  | minQuorumStakeHigherThanTotalStake
  deriving DecidableEq

/-- The new configuration; when there is an error the old one stays. -/
def Config.update (c : Config) (headStake totalValidators : Nat) (update : UpdateConfig) :
    Except UpdateConfigError Config :=
  let minValidators := update.minValidators.getD c.minValidators
  let maxValidators := update.maxValidators.getD c.maxValidators
  let minTotalStake := update.minTotalStake.getD c.minTotalStake
  let minQuorumStake := update.minQuorumStake.getD c.minQuorumStake
  if totalValidators < minValidators.get then .error .minValidatorsHigherThanExisting
  else if maxValidators < minValidators then .error .maxValidatorsCannotBeLowerThanMin
  else if headStake < minTotalStake.get then .error .minTotalStakeHigherThanExisting
  else if headStake < minQuorumStake.get then .error .minQuorumStakeHigherThanTotalStake
  else if minTotalStake < minQuorumStake then .error .minTotalStakeHigherThanMinQuorumStake
  else
    .ok
      { minValidators, maxValidators
        minValidatorStake := update.minValidatorStake.getD c.minValidatorStake
        minTotalStake, minQuorumStake
        minBlockLength := update.minBlockLength.getD c.minBlockLength
        maxBlockAgeNs := update.maxBlockAgeNs.getD c.maxBlockAgeNs
        minEpochLength := update.minEpochLength.getD c.minEpochLength }

structure Candidate (PK : Type) where
  pubkey : PK
  stake : NonZeroU128

namespace Candidate

variable {PK : Type}

/-- Candidates compare as `(-stake, pubkey)` pairs. -/
def key (c : Candidate PK) : NonZeroU128ᵒᵈ ×ₗ PK := toLex (OrderDual.toDual c.stake, c.pubkey)

theorem key_injective : Function.Injective (key : Candidate PK → _) := by
  rintro ⟨pk, stake⟩ ⟨pk', stake'⟩ h
  cases h
  rfl

instance linearOrder [LinearOrder PK] : LinearOrder (Candidate PK) :=
  LinearOrder.lift' key key_injective

def toValidator (c : Candidate PK) : Validator PK := ⟨c.pubkey, c.stake⟩

def ofValidator (v : Validator PK) : Candidate PK := ⟨v.pubkey, v.stake⟩

end Candidate

structure Candidates (PK : Type) where
  maxValidators : NonZeroU16
  candidates : List (Candidate PK)
  changed : Bool
  headStake : Nat

inductive UpdateCandidateError where
  | notEnoughValidatorStake
  | notEnoughTotalStake
  | notEnoughValidators
  deriving DecidableEq

/-- Error types of callbacks which determine the new stake of a candidate. -/
class OfUpdateCandidateError (E : Type) where
  ofUpdateCandidateError : UpdateCandidateError → E

/-- Rotates a sublist such that the element at `oldPos` moves to `newPos`. -/
def rotate {α : Type} (l : List α) (oldPos newPos : Nat) : Option (List α) :=
  if max oldPos newPos < l.length then
    match compare oldPos newPos with
    | .lt => some
        (l.take oldPos ++ ((l.take (newPos + 1)).drop oldPos).rotateLeft 1 ++ l.drop (newPos + 1))
    | .eq => some l
    | .gt => some
        (l.take newPos ++ ((l.take (oldPos + 1)).drop newPos).rotateRight 1 ++ l.drop (oldPos + 1))
  else none

namespace Candidates

variable {PK : Type}

/-- Sums stake of the first `count` candidates. -/
def sumHeadStake (count : NonZeroU16) (candidates : List (Candidate PK)) : Option Nat :=
  ((candidates.take count.get).map (·.stake.get)).foldlM (checkedAdd 128) 0

def fromCandidates [LinearOrder PK] (maxValidators : NonZeroU16) (candidates : List (Candidate PK)) :
    Option (Candidates PK) := do
  let candidates := candidates.insertionSort (· ≤ ·)
  let headStake ← sumHeadStake maxValidators candidates
  return { maxValidators, candidates, changed := maxValidators.get < candidates.length, headStake }

def new [LinearOrder PK] (maxValidators : NonZeroU16) (validators : List (Validator PK)) :
    Option (Candidates PK) :=
  fromCandidates maxValidators (validators.map Candidate.ofValidator)

def updateMaxValidators (c : Candidates PK) (maxValidators : NonZeroU16) : Option (Candidates PK) :=
  let total := c.candidates.length
  let oldCount := min total c.maxValidators.get
  let newCount := min total maxValidators.get
  if oldCount = newCount then some { c with maxValidators }
  else do
    let headStake ← sumHeadStake maxValidators c.candidates
    return { c with maxValidators, changed := true, headStake }

/-- Returns top validators if changed since last time changed flag was cleared. -/
def maybeGetHead (c : Candidates PK) : Option (List (Validator PK)) :=
  if c.changed then some ((c.candidates.take c.maxValidators.get).map Candidate.toValidator)
  else none

def clearChangedFlag (c : Candidates PK) : Candidates PK := { c with changed := false }

def addHeadStake (c : Candidates PK) (stake : Nat) : Option (Candidates PK) := do
  let headStake ← checkedAdd 128 c.headStake stake
  return { c with headStake, changed := true }

def subHeadStake (c : Candidates PK) (cfg : Config) (stake : Nat) :
    Option (Except UpdateCandidateError Unit × Candidates PK) := do
  let headStake ← checkedSub c.headStake stake
  if headStake < cfg.minTotalStake.get then
    return (.error .notEnoughTotalStake, c)
  else
    return (.ok (), { c with headStake, changed := true })

/-- Stake of the candidate at given position, zero past the end. -/
def stakeAt (candidates : List (Candidate PK)) (pos : Nat) : Nat :=
  (candidates[pos]?.map (·.stake.get)).getD 0

/-- Acts on the head stake as if the candidate at the position got removed. -/
def updateStakeForRemove (c : Candidates PK) (cfg : Config) (pos : Nat) :
    Option (Except UpdateCandidateError Unit × Candidates PK) :=
  let max := c.maxValidators.get
  if max ≤ pos then some (.ok (), c)
  else do
    let old ← c.candidates[pos]?
    let stake ← checkedSub old.stake.get (stakeAt c.candidates max)
    c.subHeadStake cfg stake

def doRemove (c : Candidates PK) (cfg : Config) (pos : Nat) :
    Option (Except UpdateCandidateError Unit × Candidates PK) :=
  if c.candidates.length ≤ cfg.minValidators.get then some (.error .notEnoughValidators, c)
  else do
    match ← c.updateStakeForRemove cfg pos with
    | (.error e, c) => return (.error e, c)
    | (.ok (), c) => return (.ok (), { c with candidates := c.candidates.eraseIdx pos })

def addImpl (c : Candidates PK) (newPos : Nat) (candidate : Candidate PK) :
    Option (Candidates PK) :=
  let max := c.maxValidators.get
  let c := { c with candidates := c.candidates.insertIdx newPos candidate }
  if newPos < max then do
    let stake ← checkedSub candidate.stake.get (stakeAt c.candidates max)
    c.addHeadStake stake
  else some c

/-- Moves the candidate and changes its stake. -/
def place (c : Candidates PK) (oldPos newPos : Nat) (stake : NonZeroU128) : Option (Candidates PK) := do
  let candidates ← rotate c.candidates oldPos newPos
  return { c with candidates := candidates.modify newPos fun candidate => { candidate with stake } }

def updateImpl (c : Candidates PK) (cfg : Config) (oldPos newPos : Nat) (candidate : Candidate PK) :
    Option (Except UpdateCandidateError Unit × Candidates PK) :=
  let max := c.maxValidators.get
  let finish : Except UpdateCandidateError Unit × Candidates PK →
      Option (Except UpdateCandidateError Unit × Candidates PK)
    | (.error e, c) => some (.error e, c)
    | (.ok (), c) => (c.place oldPos newPos candidate.stake).map (.ok (), ·)
  if max ≤ newPos then do
    finish (← c.updateStakeForRemove cfg oldPos)
  else if max ≤ oldPos then do
    let stake ← checkedSub candidate.stake.get (stakeAt c.candidates (max - 1))
    finish (.ok (), ← c.addHeadStake stake)
  else do
    let old ← c.candidates[oldPos]?
    let oldStake := old.stake.get
    let newStake := candidate.stake.get
    if oldStake < newStake then
      finish (.ok (), ← c.addHeadStake (newStake - oldStake))
    else if newStake < oldStake then
      finish (← c.subHeadStake cfg (oldStake - newStake))
    else
      return (.ok (), c)

/-- Where `candidate` is, or should be, in a sorted list. -/
def binarySearch [LinearOrder PK] (candidates : List (Candidate PK)) (candidate : Candidate PK) : Nat :=
  (candidates.takeWhile fun c => c < candidate).length

def doUpdate [LinearOrder PK] (c : Candidates PK) (cfg : Config) (oldPos : Option Nat)
    (candidate : Candidate PK) : Option (Except UpdateCandidateError Unit × Candidates PK) :=
  let newPos := binarySearch c.candidates candidate
  match oldPos with
  | some oldPos => c.updateImpl cfg oldPos (if oldPos < newPos then newPos - 1 else newPos) candidate
  | none => (c.addImpl newPos candidate).map (.ok (), ·)

/-- Adds a new candidate or updates existing candidate's stake; no stake removes
the candidate. -/
def update [LinearOrder PK] {E : Type} [OfUpdateCandidateError E] (c : Candidates PK) (cfg : Config)
    (pubkey : PK) (newStakeFn : Option (Candidate PK) → Except E (Fin (2 ^ 128))) :
    Option (Except E Unit × Candidates PK) :=
  let pos := c.candidates.findIdx? fun el => el.pubkey = pubkey
  match newStakeFn (pos.bind fun pos => c.candidates[pos]?) with
  | .error e => some (.error e, c)
  | .ok stake => do
    let (res, c) ←
      match NonZero.new stake, pos with
      | some stake, pos =>
        if stake < cfg.minValidatorStake then some (.error .notEnoughValidatorStake, c)
        else c.doUpdate cfg pos ⟨pubkey, stake⟩
      | none, some pos => c.doRemove cfg pos
      | none, none => some (.ok (), c)
    return (res.mapError OfUpdateCandidateError.ofUpdateCandidateError, c)

end Candidates

end GuestChain
