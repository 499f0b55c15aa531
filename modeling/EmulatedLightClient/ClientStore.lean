import EmulatedLightClient.GuestClient

/-!
# Consensus states which a client stores

`LawfulContext` is what clients rely on: a map from heights to consensus states
with correct neighbours. It may forget states at any time. What one update does
to the map and to the client is stated once, for all contexts.
-/

namespace CfGuest

open ByteBits MachineInts Nodes GuestChain FailingState FailingState.Op

/-- The state at the greatest height below `h`. -/
def IsPrev {S : Type} (stored : IbcHeight → Option S) (h : IbcHeight) : Option S → Prop
  | none => ∀ h' < h, stored h' = none
  | some s => ∃ h' < h, stored h' = some s ∧ ∀ k, h' < k → k < h → stored k = none

/-- The state at the least height above `h`. -/
def IsNext {S : Type} (stored : IbcHeight → Option S) (h : IbcHeight) : Option S → Prop
  | none => ∀ h' > h, stored h' = none
  | some s => ∃ h' > h, stored h' = some s ∧ ∀ k, h < k → k < h' → stored k = none

open CommonContext in
class LawfulContext (Ctx : Type) (AnyState : outParam Type) extends CommonContext Ctx AnyState where
  clientState : Ctx → ClientState
  stored : Ctx → IbcHeight → Option AnyState
  tryInto_of : ∀ state, tryInto (ofConsensusState state) = .ok state
  hostMetadata_ok : ∀ ctx, ∃ metadata, hostMetadata ctx = .ok metadata
  setClientState_ok : ∀ c ctx, ∃ ctx', setClientState c ctx = (.ok (), ctx') ∧
    clientState ctx' = c ∧ stored ctx' = stored ctx
  consensusState_of_some : ∀ {ctx h s}, stored ctx h = some s → consensusState ctx h = .ok s
  consensusState_of_none : ∀ {ctx h}, stored ctx h = none → ∃ e, consensusState ctx h = .error e
  neighbourhood_of_some : ∀ {ctx h s}, stored ctx h = some s →
    consensusStateNeighbourhood ctx h = .ok (.this s)
  neighbourhood_of_none : ∀ {ctx h}, stored ctx h = none →
    ∃ prev next, consensusStateNeighbourhood ctx h = .ok (.neighbours prev next) ∧
      IsPrev (stored ctx) h prev ∧ IsNext (stored ctx) h next
  store_ok : ∀ h s time height ctx, ∃ ctx',
    storeConsensusStateAndMetadata h s time height ctx = (.ok (), ctx') ∧
    clientState ctx' = clientState ctx ∧
    ∀ h' s', stored ctx' h' = some s' → (h' = h ∧ s' = s) ∨ (h' ≠ h ∧ stored ctx h' = some s')
  delete_ok : ∀ h ctx, ∃ ctx', deleteConsensusStateAndMetadata h ctx = (.ok (), ctx') ∧
    clientState ctx' = clientState ctx ∧
    ∀ h' s', stored ctx' h' = some s' → h' ≠ h ∧ stored ctx h' = some s'
  earliest_ok : ∀ ctx, ∃ r, earliestConsensusState ctx = .ok r ∧
    ∀ h s, r = some (h, s) → stored ctx h = some s

export LawfulContext (clientState stored)

section

variable {PK Sig Ctx AnyState : Type} [LawfulContext Ctx AnyState]

/-- Nothing but forgetting happened. -/
structure Kept (ctx ctx' : Ctx) : Prop where
  client : clientState ctx' = clientState ctx
  states : ∀ h s, stored ctx' h = some s → stored ctx h = some s

theorem Kept.refl (ctx : Ctx) : Kept ctx ctx := ⟨rfl, fun _ _ h => h⟩

theorem Kept.trans {a b c : Ctx} (h : Kept a b) (h' : Kept b c) : Kept a c :=
  ⟨h'.client.trans h.client, fun k s hs => h.states k s (h'.states k s hs)⟩

def Decodes (ctx : Ctx) : Prop :=
  ∀ h s, stored ctx h = some s → ∃ state, CommonContext.tryInto Ctx s = .ok state

/-- The header was applied: the client follows it and its consensus state is stored. -/
structure Applied (c : ClientState) (header : Header PK Sig) (height : IbcHeight)
    (ctx ctx' : Ctx) : Prop where
  client : clientState ctx' = c.withHeader header
  states : ∀ h s, stored ctx' h = some s →
    (h = height ∧ s = CommonContext.ofConsensusState Ctx (.ofHeader header)) ∨
      (h ≠ height ∧ stored ctx h = some s)

namespace ClientState

theorem prune_ends (c : ClientState) (hostTimestamp : Nat) (ctx : Ctx) :
    Ends (c.pruneOldestConsensusState hostTimestamp) ctx (fun _ ctx' => Kept ctx ctx')
      (fun _ ctx' => ctx' = ctx ∧ ¬ Decodes ctx) := by
  obtain ⟨r, hr, hstored⟩ := LawfulContext.earliest_ok ctx
  refine ends_bind (ends_read (ends_bind (ends_lift ?_ ?_)))
  · rintro r' hr'
    cases hr.symm.trans hr'
    cases r with
    | none => exact ends_pure (Kept.refl ctx)
    | some found =>
      obtain ⟨height, state⟩ := found
      have hs := hstored height state rfl
      refine ends_bind (ends_lift ?_ ?_)
      · intro decoded _
        by_cases hexpired : c.consensusHasExpired decoded hostTimestamp = true
        · rw [if_pos hexpired]
          obtain ⟨ctx', hdelete, hclient, hstates⟩ := LawfulContext.delete_ok height ctx
          exact ends_of_ok hdelete ⟨hclient, fun h s hs' => (hstates h s hs').2⟩
        · rw [if_neg hexpired]
          exact ends_pure (Kept.refl ctx)
      · intro e he
        refine ⟨rfl, fun hdec => ?_⟩
        obtain ⟨decoded, hdecoded⟩ := hdec height state hs
        rw [hdecoded] at he
        cases he
  · intro e he
    cases hr.symm.trans he

/-- The only ways an update fails are a header at height zero and consensus states
which do not decode. -/
theorem doUpdateState_ends (c : ClientState) (header : Header PK Sig) (ctx : Ctx) :
    Ends (c.doUpdateState header) ctx
      (fun heights ctx' => ∃ height, IbcHeight.new 1 header.blockHeader.blockHeight.val = .ok height ∧
        heights = [height] ∧
        ((stored ctx height ≠ none ∧ Kept ctx ctx') ∨ Applied c header height ctx ctx'))
      (fun _ ctx' => ctx' = ctx ∧ (header.blockHeader.blockHeight.val = 0 ∨ ¬ Decodes ctx)) := by
  refine ends_bind (ends_lift ?_ ?_)
  · intro height hheight
    obtain ⟨metadata, hmetadata⟩ := LawfulContext.hostMetadata_ok ctx
    refine ends_bind (ends_read (ends_bind (ends_lift ?_ ?_)))
    · rintro ⟨time, hostHeight⟩ -
      refine Ends.bind ((c.prune_ends time ctx).mono (fun _ _ h => h) fun _ _ h => ⟨h.1, Or.inr h.2⟩) ?_
      intro _ ctx₁ hkept
      refine ends_bind (ends_read ?_)
      cases hs : stored ctx₁ height with
      | some s =>
        rw [LawfulContext.consensusState_of_some hs]
        refine ends_pure ⟨height, hheight, rfl, Or.inl ⟨?_, hkept⟩⟩
        rw [hkept.states height s hs]
        exact Option.some_ne_none s
      | none =>
        obtain ⟨e, he⟩ := LawfulContext.consensusState_of_none hs
        obtain ⟨ctx₂, hset, hclient, hstored⟩ :=
          LawfulContext.setClientState_ok (c.withHeader header) ctx₁
        obtain ⟨ctx₃, hstore, hclient', hstates⟩ := LawfulContext.store_ok height
          (CommonContext.ofConsensusState Ctx (ConsensusState.ofHeader header)) time hostHeight ctx₂
        rw [he]
        refine ends_bind (ends_of_ok hset (ends_bind (ends_of_ok hstore (ends_pure
          ⟨height, hheight, rfl, Or.inr ⟨hclient'.trans hclient, ?_⟩⟩))))
        intro h s hs'
        rcases hstates h s hs' with hnew | ⟨hne, hold⟩
        · exact Or.inl hnew
        · rw [hstored] at hold
          exact Or.inr ⟨hne, hkept.states h s hold⟩
    · intro e he
      cases hmetadata.symm.trans he
  · intro e he
    refine ⟨rfl, Or.inl ?_⟩
    unfold IbcHeight.new at he
    split at he
    · assumption
    · cases he

omit [LawfulContext Ctx AnyState] in
theorem getTimestampNs_ok {tryInto : AnyState → Except String ConsensusState}
    {state : Option AnyState} {time : Option Nat} (h : getTimestampNs state tryInto = .ok time)
    {s : AnyState} (hs : s ∈ state) :
    ∃ decoded, tryInto s = .ok decoded ∧ time = some decoded.timestampNs.get := by
  cases hs
  unfold getTimestampNs at h
  cases hdec : tryInto s with
  | error e =>
    rw [Option.map_some, hdec] at h
    cases h
  | ok decoded =>
    rw [Option.map_some, hdec] at h
    exact ⟨decoded, rfl, (Except.ok.inj h).symm⟩

/-- A header which passes the check agrees with what is stored at its height or else
fits between its neighbours. -/
theorem checkForMisbehaviour_false {ctx : Ctx} {header : Header PK Sig} {height : IbcHeight}
    (hheight : IbcHeight.new 1 header.blockHeader.blockHeight.val = .ok height)
    (h : checkForMisbehaviourInHeader ctx header = .ok false) :
    (∀ s, stored ctx height = some s →
      CommonContext.tryInto Ctx s = .ok (ConsensusState.ofHeader header)) ∧
    (stored ctx height = none → ∃ prev next, IsPrev (stored ctx) height prev ∧
      IsNext (stored ctx) height next ∧
      (∀ s ∈ prev, ∃ state, CommonContext.tryInto Ctx s = .ok state ∧
        state.timestampNs < header.blockHeader.timestampNs) ∧
      ∀ s ∈ next, ∃ state, CommonContext.tryInto Ctx s = .ok state ∧
        header.blockHeader.timestampNs < state.timestampNs) := by
  unfold checkForMisbehaviourInHeader at h
  rw [hheight] at h
  constructor
  · intro s hs
    simp only [bind, Except.bind, LawfulContext.neighbourhood_of_some hs] at h
    cases hdec : CommonContext.tryInto Ctx s with
    | error e =>
      rw [hdec] at h
      cases h
    | ok state =>
      rw [hdec] at h
      simp only [Except.mapError, pure, Except.pure, ne_eq, decide_not, Except.ok.injEq,
        Bool.not_eq_false', decide_eq_true_eq] at h
      rw [h]
  · intro hs
    obtain ⟨prev, next, hnb, hprev, hnext⟩ := LawfulContext.neighbourhood_of_none hs
    refine ⟨prev, next, hprev, hnext, ?_⟩
    simp only [bind, Except.bind, hnb, pure, Except.pure] at h
    cases hp : getTimestampNs prev (CommonContext.tryInto Ctx) with
    | error e =>
      rw [hp] at h
      cases h
    | ok prevTime =>
      rw [hp] at h
      simp only at h
      split at h
      · cases h
      · rename_i hafter
        cases hn : getTimestampNs next (CommonContext.tryInto Ctx) with
        | error e =>
          rw [hn] at h
          cases h
        | ok nextTime =>
          rw [hn] at h
          have hbefore := Except.ok.inj h
          constructor
          · intro s hs
            obtain ⟨state, hstate, rfl⟩ := getTimestampNs_ok hp hs
            refine ⟨state, hstate, ?_⟩
            simpa [NonZero.lt_iff] using hafter
          · intro s hs
            obtain ⟨state, hstate, rfl⟩ := getTimestampNs_ok hn hs
            refine ⟨state, hstate, ?_⟩
            simpa [NonZero.lt_iff] using hbefore

end ClientState

end

end CfGuest
