import EmulatedLightClient.HeaderVerification
import EmulatedLightClient.TestContext
import Mathlib.Logic.Relation

/-!
# Runs of a client

Headers come in any order and at any time; each is applied only after the check
for misbehaviour. The check compares a header with the two consensus states next
to it; that is enough to keep all of them ordered.
-/

namespace CfGuest

open ByteBits MachineInts Nodes GuestChain FailingState FailingState.Op
open SealableTrie (hashOf tableDigest)

section

variable {PK Sig Ctx AnyState : Type} [LawfulContext Ctx AnyState]

/-- Timestamps of stored consensus states strictly increase with height. -/
def Increasing (ctx : Ctx) : Prop :=
  ∀ {h h' s s' state state'}, stored ctx h = some s → stored ctx h' = some s' →
    CommonContext.tryInto Ctx s = .ok state → CommonContext.tryInto Ctx s' = .ok state' →
    h < h' → state.timestampNs < state'.timestampNs

/-- A client which was just created: no more than one consensus state. -/
structure Created (ctx : Ctx) : Prop where
  decodes : Decodes ctx
  single : ∀ h h' s s', stored ctx h = some s → stored ctx h' = some s' → h = h'

variable (PK Sig) in
/-- Either a header is applied after the check for misbehaviour or time passes, and the
context may forget some of the states. -/
inductive ClientStep (ctx ctx' : Ctx) : Prop
  | apply (header : Header PK Sig) (r : Except ClientError (List IbcHeight))
      (hcheck : ClientState.doCheckForMisbehaviour ctx (.header header) = .ok false)
      (hupdate : ((clientState ctx).doUpdateState header).run ctx = (r, ctx'))
  | wait (hkept : Kept ctx ctx')

theorem Increasing.kept {ctx ctx' : Ctx} (h : Increasing ctx) (hkept : Kept ctx ctx') :
    Increasing ctx' :=
  fun hs hs' => h (hkept.states _ _ hs) (hkept.states _ _ hs')

theorem Decodes.kept {ctx ctx' : Ctx} (h : Decodes ctx) (hkept : Kept ctx ctx') : Decodes ctx' :=
  fun k s hs => h k s (hkept.states k s hs)

theorem Decodes.applied {c : ClientState} {header : Header PK Sig} {height : IbcHeight}
    {ctx ctx' : Ctx} (h : Decodes ctx) (happlied : Applied c header height ctx ctx') :
    Decodes ctx' := by
  intro k s hs
  rcases happlied.states k s hs with ⟨-, rfl⟩ | ⟨-, hold⟩
  · exact ⟨_, LawfulContext.tryInto_of _⟩
  · exact h k s hold

/-- Everything stored below the height is older than the header. -/
theorem Increasing.older {ctx : Ctx} (h : Increasing ctx) {header : Header PK Sig}
    {height : IbcHeight} (hheight : IbcHeight.new 1 header.blockHeader.blockHeight.val = .ok height)
    (hcheck : ClientState.checkForMisbehaviourInHeader ctx header = .ok false)
    {k : IbcHeight} (hk : k < height) {s : AnyState} (hs : stored ctx k = some s)
    {state : ConsensusState} (hstate : CommonContext.tryInto Ctx s = .ok state) :
    state.timestampNs < header.blockHeader.timestampNs := by
  obtain ⟨hthis, hneighbours⟩ := ClientState.checkForMisbehaviour_false hheight hcheck
  cases hsome : stored ctx height with
  | some s' => exact h hs hsome hstate (hthis s' hsome) hk
  | none =>
    obtain ⟨prev, -, hprev, -, hbefore, -⟩ := hneighbours hsome
    cases prev with
    | none =>
      cases (hprev k hk).symm.trans hs
    | some p =>
      obtain ⟨k', hk', hp, hgap⟩ := hprev
      obtain ⟨pstate, hpstate, hlt⟩ := hbefore p rfl
      rcases lt_trichotomy k k' with hlt' | rfl | hgt
      · exact (h hs hp hstate hpstate hlt').trans hlt
      · cases hs.symm.trans hp
        cases hstate.symm.trans hpstate
        exact hlt
      · cases (hgap k hgt hk).symm.trans hs

/-- Everything stored above the height is newer than the header. -/
theorem Increasing.newer {ctx : Ctx} (h : Increasing ctx) {header : Header PK Sig}
    {height : IbcHeight} (hheight : IbcHeight.new 1 header.blockHeader.blockHeight.val = .ok height)
    (hcheck : ClientState.checkForMisbehaviourInHeader ctx header = .ok false)
    {k : IbcHeight} (hk : height < k) {s : AnyState} (hs : stored ctx k = some s)
    {state : ConsensusState} (hstate : CommonContext.tryInto Ctx s = .ok state) :
    header.blockHeader.timestampNs < state.timestampNs := by
  obtain ⟨hthis, hneighbours⟩ := ClientState.checkForMisbehaviour_false hheight hcheck
  cases hsome : stored ctx height with
  | some s' => exact h hsome hs (hthis s' hsome) hstate hk
  | none =>
    obtain ⟨-, next, -, hnext, -, hafter⟩ := hneighbours hsome
    cases next with
    | none =>
      cases (hnext k hk).symm.trans hs
    | some n =>
      obtain ⟨k', hk', hn, hgap⟩ := hnext
      obtain ⟨nstate, hnstate, hlt⟩ := hafter n rfl
      rcases lt_trichotomy k k' with hlt' | rfl | hgt
      · cases (hgap k hk hlt').symm.trans hs
      · cases hs.symm.trans hn
        cases hstate.symm.trans hnstate
        exact hlt
      · exact hlt.trans (h hn hs hnstate hstate hgt)

theorem Increasing.applied {c : ClientState} {header : Header PK Sig} {height : IbcHeight}
    {ctx ctx' : Ctx} (h : Increasing ctx)
    (hheight : IbcHeight.new 1 header.blockHeader.blockHeight.val = .ok height)
    (hcheck : ClientState.checkForMisbehaviourInHeader ctx header = .ok false)
    (happlied : Applied c header height ctx ctx') : Increasing ctx' := by
  intro k k' s s' state state' hs hs' hstate hstate' hlt
  rcases happlied.states k s hs with ⟨rfl, rfl⟩ | ⟨-, hold⟩
  · cases (LawfulContext.tryInto_of _).symm.trans hstate
    rcases happlied.states k' s' hs' with ⟨rfl, -⟩ | ⟨-, hold'⟩
    · exact absurd hlt (lt_irrefl _)
    · exact h.newer hheight hcheck hlt hold' hstate'
  · rcases happlied.states k' s' hs' with ⟨rfl, rfl⟩ | ⟨-, hold'⟩
    · cases (LawfulContext.tryInto_of _).symm.trans hstate'
      exact h.older hheight hcheck hlt hold hstate
    · exact h hold hold' hstate hstate' hlt

/-- What applying a header may change. -/
structure SafeUpdate (header : Header PK Sig) (ctx ctx' : Ctx) : Prop where
  unreplaced : ∀ h s s', stored ctx h = some s → stored ctx' h = some s' →
    CommonContext.tryInto Ctx s' = CommonContext.tryInto Ctx s
  latest : (clientState ctx).latestHeight ≤ (clientState ctx').latestHeight
  unchanged : header.blockHeader.blockHeight ≤ (clientState ctx).latestHeight →
    (clientState ctx').latestHeight = (clientState ctx).latestHeight ∧
    (clientState ctx').epochCommitment = (clientState ctx).epochCommitment ∧
    (clientState ctx').prevEpochCommitment = (clientState ctx).prevEpochCommitment

theorem SafeUpdate.of_kept {ctx ctx' : Ctx} (header : Header PK Sig) (h : Kept ctx ctx') :
    SafeUpdate header ctx ctx' := by
  refine ⟨?_, ?_, ?_⟩
  · intro k s s' hs hs'
    cases hs.symm.trans (h.states k s' hs')
    rfl
  · rw [h.client]
  · intro _
    rw [h.client]
    exact ⟨rfl, rfl, rfl⟩

theorem ClientState.withHeader_latest (c : ClientState) (header : Header PK Sig) :
    c.latestHeight ≤ (c.withHeader header).latestHeight := by
  unfold ClientState.withHeader
  split
  · rename_i hlt
    split
    · exact hlt.le
    · exact hlt.le
  · exact le_rfl

theorem SafeUpdate.of_applied {header : Header PK Sig} {height : IbcHeight} {ctx ctx' : Ctx}
    (hheight : IbcHeight.new 1 header.blockHeader.blockHeight.val = .ok height)
    (hcheck : ClientState.checkForMisbehaviourInHeader ctx header = .ok false)
    (h : Applied (clientState ctx) header height ctx ctx') : SafeUpdate header ctx ctx' := by
  refine ⟨?_, ?_, ?_⟩
  · intro k s s' hs hs'
    rcases h.states k s' hs' with ⟨rfl, rfl⟩ | ⟨-, hold⟩
    · rw [LawfulContext.tryInto_of,
        (ClientState.checkForMisbehaviour_false hheight hcheck).1 s hs]
    · cases hs.symm.trans hold
      rfl
  · rw [h.client]
    exact (clientState ctx).withHeader_latest header
  · intro hle
    rw [h.client, ClientState.withHeader, if_neg (not_lt.mpr hle)]
    exact ⟨rfl, rfl, rfl⟩

theorem safeUpdate {header : Header PK Sig} {r : Except ClientError (List IbcHeight)}
    {ctx ctx' : Ctx} (hcheck : ClientState.doCheckForMisbehaviour ctx (.header header) = .ok false)
    (hupdate : ((clientState ctx).doUpdateState header).run ctx = (r, ctx')) :
    SafeUpdate header ctx ctx' ∧ (Decodes ctx → Decodes ctx') ∧
      (Increasing ctx → Increasing ctx') := by
  have hends := (clientState ctx).doUpdateState_ends header ctx
  cases r with
  | error e =>
    obtain ⟨rfl, -⟩ := hends.of_error hupdate
    exact ⟨.of_kept header (Kept.refl _), id, fun h => h⟩
  | ok heights =>
    obtain ⟨height, hheight, -, ⟨-, hkept⟩ | happlied⟩ := hends.of_ok hupdate
    · exact ⟨.of_kept header hkept, fun h => h.kept hkept, fun h => h.kept hkept⟩
    · exact ⟨.of_applied hheight hcheck happlied, fun h => h.applied happlied,
        fun h => h.applied hheight hcheck happlied⟩

theorem ClientStep.keeps {ctx ctx' : Ctx} (hstep : ClientStep PK Sig ctx ctx') :
    (clientState ctx).latestHeight ≤ (clientState ctx').latestHeight ∧
      (Decodes ctx → Decodes ctx') ∧ (Increasing ctx → Increasing ctx') := by
  cases hstep with
  | apply header r hcheck hupdate =>
    obtain ⟨hsafe, hdecodes, hincreasing⟩ := safeUpdate hcheck hupdate
    exact ⟨hsafe.latest, hdecodes, hincreasing⟩
  | wait hkept =>
    rw [hkept.client]
    exact ⟨le_rfl, fun h => h.kept hkept, fun h => h.kept hkept⟩

theorem Created.increasing {ctx : Ctx} (h : Created ctx) : Increasing ctx := by
  intro k k' s s' state state' hs hs' _ _ hlt
  cases h.single k k' s s' hs hs'
  exact absurd hlt (lt_irrefl k)

/-- Whatever headers pass the check for misbehaviour and in whatever order they come,
the states a client stores stay consistent and the client only moves forward. -/
theorem client_store_consistent {ctx₀ ctx : Ctx} (hcreated : Created ctx₀)
    (hrun : Relation.ReflTransGen (ClientStep PK Sig) ctx₀ ctx) :
    Decodes ctx ∧ Increasing ctx ∧
      (clientState ctx₀).latestHeight ≤ (clientState ctx).latestHeight ∧
      ∀ (header : Header PK Sig) (r : Except ClientError (List IbcHeight)) (ctx' : Ctx),
        ClientState.doCheckForMisbehaviour ctx (.header header) = .ok false →
        ((clientState ctx).doUpdateState header).run ctx = (r, ctx') →
        SafeUpdate header ctx ctx' := by
  have hkeeps : Decodes ctx ∧ Increasing ctx ∧
      (clientState ctx₀).latestHeight ≤ (clientState ctx).latestHeight := by
    induction hrun with
    | refl => exact ⟨hcreated.decodes, hcreated.increasing, le_rfl⟩
    | tail _ hstep ih =>
      obtain ⟨hlatest, hdecodes, hincreasing⟩ := hstep.keeps
      obtain ⟨ihdecodes, ihincreasing, ihlatest⟩ := ih
      exact ⟨hdecodes ihdecodes, hincreasing ihincreasing, ihlatest.trans hlatest⟩
  obtain ⟨hdecodes, hincreasing, hlatest⟩ := hkeeps
  exact ⟨hdecodes, hincreasing, hlatest, fun header r ctx' hcheck hupdate =>
    (safeUpdate hcheck hupdate).1⟩

end

/-- The last block of the first epoch. -/
def sampleEpochEnd : BlockHeader where
  prevBlockHash := hashOf 0xb017f741a1e27ca31903ec3dac1d9a839add872741199808123c75b2a6865e27
  blockHeight := Height.clamp 3
  hostHeight := Height.clamp 15
  timestampNs := NonZero.clamp 4
  stateRoot := sampleRoot 1#8
  epochId := sampleGenesisHash
  nextEpochCommitment :=
    some (hashOf 0x587c2cdac432574e6f449645300c6eb8fc18c3f30fe93e2624b7e2b59681ad61)

theorem sampleHeight_nonzero : 1 ≠ 0 := by decide

def sampleContext : TestContext where
  clientState := sampleClient
  states := BTreeMap.empty.insert ⟨1, 1, sampleHeight_nonzero⟩
    (ConsensusState.new sampleGenesisHash (NonZero.clamp 1))

theorem sampleContext_created : Created sampleContext := by
  refine ⟨fun _ s _ => ⟨s, rfl⟩, ?_⟩
  intro h h' s s' hs hs'
  rcases BTreeMap.get_insert.mp hs with ⟨rfl, -⟩ | ⟨-, hs⟩
  · rcases BTreeMap.get_insert.mp hs' with ⟨rfl, -⟩ | ⟨-, hs'⟩
    · rfl
    · cases hs'
  · cases hs

/-- The block at height three comes before the one at height two. -/
theorem client_store_consistent_sample :
    let third := sampleHeader sampleDigest sampleEpochEnd sampleEpoch [(2, 3), (1, 2)]
    let second := sampleHeader sampleDigest (sampleBlock 1#8) sampleEpoch [(0, 1), (1, 2)]
    let ctx₁ := (sampleContext.clientState.doUpdateState third).run sampleContext
    let ctx₂ := (ctx₁.2.clientState.doUpdateState second).run ctx₁.2
    (ctx₂.2.states.entries.map fun e => e.1.revisionHeight) = [1, 2, 3] ∧
      Increasing ctx₂.2 ∧ sampleContext.clientState.latestHeight ≤ ctx₂.2.clientState.latestHeight := by
  intro third second ctx₁ ctx₂
  have hcheck₁ : ClientState.doCheckForMisbehaviour sampleContext (.header third) = .ok false := by
    decide
  have hcheck₂ : ClientState.doCheckForMisbehaviour ctx₁.2 (.header second) = .ok false := by
    decide
  have hrun : Relation.ReflTransGen (ClientStep MockPubKey MockSignature) sampleContext ctx₂.2 :=
    (Relation.ReflTransGen.single (.apply third ctx₁.1 hcheck₁ rfl)).tail
      (.apply second ctx₂.1 hcheck₂ rfl)
  obtain ⟨-, hincreasing, hlatest, -⟩ := client_store_consistent sampleContext_created hrun
  exact ⟨by decide, hincreasing, hlatest⟩

end CfGuest
