import EmulatedLightClient.BTreeMap
import EmulatedLightClient.ClientStore

/-!
# Context with a map in memory

The context which tests of the client run in: the client state and an ordered
map of consensus states. Host time stands still.
-/

namespace CfGuest

open ByteBits MachineInts Nodes GuestChain FailingState

/-- Client which trusts the genesis block; without a commitment the source panics. -/
def ClientState.fromGenesis (digest : List Byte → CryptoHash) (genesis : BlockHeader) :
    Option ClientState :=
  genesis.nextEpochCommitment.map fun epochCommitment =>
    { genesisHash := genesis.calcHash digest
      latestHeight := genesis.blockHeight
      trustingPeriodNs := 24 * 3600 * 1000000000
      epochCommitment
      prevEpochCommitment := epochCommitment
      isFrozen := false }

structure TestContext where
  clientState : ClientState
  states : BTreeMap IbcHeight ConsensusState

namespace TestContext

theorem hostHeight_nonzero : 69 ≠ 0 := by decide

instance commonContext : CommonContext TestContext ConsensusState where
  tryInto := .ok
  ofConsensusState := id
  hostMetadata _ := .ok (42, ⟨1, 69, hostHeight_nonzero⟩)
  setClientState state ctx := (.ok (), { ctx with clientState := state })
  consensusState ctx height :=
    match ctx.states.get height with
    | some state => .ok state
    | none => .error (.consensusStateNotFound height)
  consensusStateNeighbourhood ctx height :=
    match ctx.states.get height with
    | some state => .ok (.this state)
    | none => .ok
        (.neighbours ((ctx.states.lastBelow height).map (·.2)) ((ctx.states.firstFrom height).map (·.2)))
  storeConsensusStateAndMetadata height state _ _ ctx :=
    (.ok (), { ctx with states := ctx.states.insert height state })
  deleteConsensusStateAndMetadata height ctx :=
    (.ok (), { ctx with states := ctx.states.remove height })
  earliestConsensusState ctx := .ok ctx.states.firstKeyValue

theorem isPrev_lastBelow (states : BTreeMap IbcHeight ConsensusState) (h : IbcHeight) :
    IsPrev states.get h ((states.lastBelow h).map (·.2)) := by
  cases hprev : states.lastBelow h with
  | none => exact fun h' hlt => BTreeMap.lastBelow_eq_none hprev hlt
  | some found =>
    obtain ⟨hlt, hget, hgap⟩ := BTreeMap.lastBelow_eq_some hprev
    exact ⟨found.1, hlt, hget, hgap⟩

theorem isNext_firstFrom {states : BTreeMap IbcHeight ConsensusState} {h : IbcHeight}
    (hnone : states.get h = none) : IsNext states.get h ((states.firstFrom h).map (·.2)) := by
  cases hnext : states.firstFrom h with
  | none => exact fun h' hlt => BTreeMap.firstFrom_eq_none hnext hlt.le
  | some found =>
    obtain ⟨hle, hget, hgap⟩ := BTreeMap.firstFrom_eq_some hnext
    refine ⟨found.1, lt_of_le_of_ne hle ?_, hget, fun k hk => hgap k hk.le⟩
    rintro rfl
    cases hnone.symm.trans hget

instance lawfulContext : LawfulContext TestContext ConsensusState where
  clientState := clientState
  stored ctx := ctx.states.get
  tryInto_of _ := rfl
  hostMetadata_ok _ := ⟨_, rfl⟩
  setClientState_ok _ _ := ⟨_, rfl, rfl, rfl⟩
  consensusState_of_some := by
    intro ctx h s hs
    simp only [CommonContext.consensusState, hs]
  consensusState_of_none := by
    intro ctx h hs
    simp only [CommonContext.consensusState, hs]
    exact ⟨_, rfl⟩
  neighbourhood_of_some := by
    intro ctx h s hs
    simp only [CommonContext.consensusStateNeighbourhood, hs]
  neighbourhood_of_none := by
    intro ctx h hs
    simp only [CommonContext.consensusStateNeighbourhood, hs]
    exact ⟨_, _, rfl, isPrev_lastBelow ctx.states h, isNext_firstFrom hs⟩
  store_ok h s _ _ ctx :=
    ⟨_, rfl, rfl, fun _ _ hs => BTreeMap.get_insert.mp hs⟩
  delete_ok h ctx := ⟨_, rfl, rfl, fun _ _ hs => BTreeMap.get_remove.mp hs⟩
  earliest_ok ctx := ⟨_, rfl, fun _ _ hs => BTreeMap.get_firstKeyValue hs⟩

end TestContext

end CfGuest
