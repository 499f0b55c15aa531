import EmulatedLightClient.BTreeMap
import EmulatedLightClient.RollupClient
import EmulatedLightClient.SolanaMessages
import Mathlib.Logic.Relation

/-!
# Consensus states of the client of the rollup

What the context has to do for the client, what one update does, and what the check for misbehaviour makes of runs of
updates: slots with consecutive numbers may have the same time, so times do not decrease but need not increase either.
-/

namespace CfSolana

open ByteBits FailingState FailingState.Op MachineInts Nodes
open CfGuest (IbcHeight IsNext IsPrev)

open CommonContext UpdateContext in
/-- A map from heights to consensus states with correct neighbours, which may forget states. -/
class LawfulContext (Ctx : Type) (AnyState : outParam Type) extends UpdateContext Ctx AnyState where
  clientState : Ctx → ClientState.Full
  stored : Ctx → IbcHeight → Option AnyState
  tryInto_of : ∀ state, tryInto (ofConsensusState state) = .ok state
  hostMetadata_ok : ∀ ctx, ∃ metadata, hostMetadata ctx = .ok metadata
  setClientState_ok : ∀ c ctx, ∃ ctx', setClientState c ctx = (.ok (), ctx') ∧
    clientState ctx' = c ∧ stored ctx' = stored ctx
  consensusState_of_some : ∀ {ctx h s}, stored ctx h = some s → consensusState ctx h = .ok s
  consensusState_of_none : ∀ {ctx h}, stored ctx h = none → consensusState ctx h = .error (.consensusStateNotFound h)
  neighbourhood_of_some : ∀ {ctx h s}, stored ctx h = some s → consensusStateNeighbourhood ctx h = .ok (.this s)
  neighbourhood_of_none : ∀ {ctx h}, stored ctx h = none →
    ∃ prev next, consensusStateNeighbourhood ctx h = .ok (.neighbours prev next) ∧
      IsPrev (stored ctx) h prev ∧ IsNext (stored ctx) h next
  store_ok : ∀ h s time height ctx, ∃ ctx', storeConsensusStateAndMetadata h s time height ctx = (.ok (), ctx') ∧
    clientState ctx' = clientState ctx ∧
    ∀ h' s', stored ctx' h' = some s' → (h' = h ∧ s' = s) ∨ (h' ≠ h ∧ stored ctx h' = some s')
  delete_ok : ∀ h ctx, ∃ ctx', deleteConsensusStateAndMetadata h ctx = (.ok (), ctx') ∧
    clientState ctx' = clientState ctx ∧
    ∀ h' s', stored ctx' h' = some s' → h' ≠ h ∧ stored ctx h' = some s'
  earliest_ok : ∀ ctx, ∃ r, earliestConsensusState ctx = .ok r ∧ ∀ h s, r = some (h, s) → stored ctx h = some s

section

variable {Ctx AnyState : Type} [LawfulContext Ctx AnyState] {ctx ctx' ctx₀ : Ctx} {header : Header} {c : ClientState.Full}
  {consensus : ConsensusState}

open LawfulContext

/-- Nothing but forgetting happened. -/
structure Kept (ctx ctx' : Ctx) : Prop where
  client : clientState ctx' = clientState ctx
  states : ∀ h s, stored ctx' h = some s → stored ctx h = some s

theorem Kept.refl (ctx : Ctx) : Kept ctx ctx := ⟨rfl, fun _ _ h => h⟩

/-- The state is that of a header. -/
def StateAt (ctx : Ctx) (h : IbcHeight) (consensus : ConsensusState) : Prop :=
  ∃ s, stored ctx h = some s ∧ CommonContext.tryInto Ctx s = .ok consensus

def Decodes (ctx : Ctx) : Prop := ∀ h s, stored ctx h = some s → ∃ consensus, CommonContext.tryInto Ctx s = .ok consensus

/-- The header was applied: the client follows it and its consensus state is stored. -/
structure Applied (c : ClientState.Full) (header : Header) (consensus : ConsensusState) (ctx ctx' : Ctx) : Prop where
  state : ConsensusState.ofHeader header = .ok consensus
  absent : ∀ s, stored ctx' header.ibcHeight = some s → s = UpdateContext.ofConsensusState Ctx consensus
  client : clientState ctx' = c.withHeader header
  others : ∀ h ≠ header.ibcHeight, ∀ s, stored ctx' h = some s → stored ctx h = some s

theorem StateAt.kept {h : IbcHeight} (hs : StateAt ctx' h consensus) (hkept : Kept ctx ctx') : StateAt ctx h consensus := by
  obtain ⟨s, hstored, hinto⟩ := hs
  exact ⟨s, hkept.states h s hstored, hinto⟩

theorem StateAt.applied {h : IbcHeight} {state : ConsensusState} (hs : StateAt ctx' h state)
    (happlied : Applied c header consensus ctx ctx') :
    (h = header.ibcHeight ∧ state = consensus) ∨ (h ≠ header.ibcHeight ∧ StateAt ctx h state) := by
  obtain ⟨s, hstored, hinto⟩ := hs
  by_cases hh : h = header.ibcHeight
  · subst hh
    rw [happlied.absent s hstored, tryInto_of, Except.ok.injEq] at hinto
    exact .inl ⟨rfl, hinto.symm⟩
  · exact .inr ⟨hh, s, happlied.others h hh s hstored, hinto⟩

theorem StateAt.unique {h : IbcHeight} {state : ConsensusState} (hs : StateAt ctx h state) (hs' : StateAt ctx h consensus) :
    state = consensus := by
  obtain ⟨s, hstored, hinto⟩ := hs
  obtain ⟨s', hstored', hinto'⟩ := hs'
  cases hstored.symm.trans hstored'
  exact Except.ok.inj (hinto.symm.trans hinto')

theorem Decodes.kept (h : Decodes ctx) (hkept : Kept ctx ctx') : Decodes ctx' :=
  fun height s hs => h height s (hkept.states height s hs)

theorem Decodes.applied (h : Decodes ctx) (happlied : Applied c header consensus ctx ctx') : Decodes ctx' := by
  intro height s hs
  by_cases hh : height = header.ibcHeight
  · subst hh
    rw [happlied.absent s hs]
    exact ⟨consensus, tryInto_of consensus⟩
  · exact h height s (happlied.others height hh s hs)

namespace ClientState.Full

theorem prune_ends (c : ClientState.Full) (hostTimestamp : Nat) (ctx : Ctx) :
    Ends (c.pruneOldestConsensusState hostTimestamp) ctx (fun _ ctx' => Kept ctx ctx') (fun _ ctx' => ctx' = ctx) := by
  obtain ⟨r, hr, hstored⟩ := earliest_ok ctx
  refine ends_bind (ends_read (ends_bind (ends_lift ?_ fun _ _ => rfl)))
  rintro r' hr'
  rw [hr] at hr'
  cases hr'
  cases r with
  | none => exact ends_pure (Kept.refl ctx)
  | some found =>
    obtain ⟨height, state⟩ := found
    refine ends_bind (ends_lift ?_ fun _ _ => rfl)
    intro decoded _
    cases c.consensusHasExpired decoded hostTimestamp with
    | none => exact ends_fail rfl
    | some expired =>
      cases expired with
      | false => exact ends_pure (Kept.refl ctx)
      | true =>
        obtain ⟨ctx', hdelete, hclient, hstates⟩ := delete_ok height ctx
        exact ends_of_ok (run_mapError_ok.mpr hdelete) ⟨hclient, fun h s hs => (hstates h s hs).2⟩

/-- An update forgets what has expired, and unless it has a state at the slot already or the witness does not have the
format expected it stores the state of the header. -/
theorem doUpdateState_ends (c : ClientState.Full) (header : Header) (ctx : Ctx) :
    Ends (c.doUpdateState header) ctx
      (fun heights ctx' => heights = [header.ibcHeight] ∧
        ((stored ctx header.ibcHeight ≠ none ∧ Kept ctx ctx') ∨ ∃ consensus, Applied c header consensus ctx ctx'))
      (fun _ ctx' => Kept ctx ctx') := by
  obtain ⟨⟨time, hostHeight⟩, hmetadata⟩ := hostMetadata_ok ctx
  refine ends_bind (ends_read (ends_bind (ends_lift ?_ fun _ _ => Kept.refl ctx)))
  intro metadata hm
  rw [hmetadata] at hm
  cases hm
  refine Ends.bind ((c.prune_ends time ctx).mono (fun _ _ h => h) fun _ _ h => h ▸ Kept.refl ctx) ?_
  intro _ ctx₁ hkept
  refine ends_bind (ends_read ?_)
  cases hs : stored ctx₁ header.ibcHeight with
  | some s =>
    rw [consensusState_of_some hs]
    refine ends_bind (ends_pure (ends_pure ⟨rfl, .inl ⟨?_, hkept⟩⟩))
    rw [hkept.states header.ibcHeight s hs]
    exact Option.some_ne_none s
  | none =>
    rw [consensusState_of_none hs]
    refine ends_bind (ends_lift ?_ fun _ _ => hkept)
    intro consensus hconsensus
    obtain ⟨ctx₂, hset, hclient, hstored⟩ := setClientState_ok (c.withHeader header) ctx₁
    obtain ⟨ctx₃, hstore, hclient', hstates⟩ :=
      store_ok header.ibcHeight (UpdateContext.ofConsensusState Ctx consensus) time hostHeight ctx₂
    refine ends_bind (ends_of_ok (run_mapError_ok.mpr hset) (ends_bind (ends_of_ok (run_mapError_ok.mpr hstore)
      (ends_pure ⟨rfl, .inr ⟨consensus, FailingState.mapError_ok.mp hconsensus, ?_, hclient'.trans hclient, ?_⟩⟩))))
    · intro s hs
      rcases hstates _ s hs with ⟨-, rfl⟩ | ⟨hne, -⟩
      · rfl
      · exact absurd rfl hne
    · intro h hne s hs
      rcases hstates h s hs with ⟨rfl, -⟩ | ⟨-, hold⟩
      · exact absurd rfl hne
      · rw [hstored] at hold
        exact hkept.states h s hold

end ClientState.Full

theorem checkTimestamp_false {state : Option AnyState} {test : NonZero 64 → Bool}
    (h : checkTimestamp (state.map (CommonContext.tryInto Ctx)) test = .ok false) :
    ∀ s ∈ state, ∃ consensus, CommonContext.tryInto Ctx s = .ok consensus ∧ test consensus.timestampSec = false := by
  rintro s ⟨⟩
  rw [Option.map_some] at h
  cases hinto : CommonContext.tryInto Ctx s with
  | error e =>
    rw [hinto] at h
    cases h
  | ok consensus =>
    rw [hinto] at h
    exact ⟨consensus, rfl, Except.ok.inj h⟩

theorem decodeWitness_of_ofHeader (h : ConsensusState.ofHeader header = .ok consensus) :
    ∃ root, header.decodeWitness = some (root, consensus.timestampSec) ∧ consensus.trieRoot = root.bytes := by
  unfold ConsensusState.ofHeader at h
  split at h
  · rename_i root timestamp hdecode
    cases h
    exact ⟨root, hdecode, rfl⟩
  · cases h

/-- A header which passes the check agrees with what is stored at its slot or else fits between its neighbours. -/
theorem checkForMisbehaviour_false (hstate : ConsensusState.ofHeader header = .ok consensus)
    (h : checkForMisbehaviourInHeader ctx header = .ok false) :
    (∀ s, stored ctx header.ibcHeight = some s → CommonContext.tryInto Ctx s = .ok consensus) ∧
    (stored ctx header.ibcHeight = none → ∃ prev next, IsPrev (stored ctx) header.ibcHeight prev ∧
      IsNext (stored ctx) header.ibcHeight next ∧
      (∀ s ∈ prev, ∃ state, CommonContext.tryInto Ctx s = .ok state ∧ state.timestampSec ≤ consensus.timestampSec) ∧
      ∀ s ∈ next, ∃ state, CommonContext.tryInto Ctx s = .ok state ∧ consensus.timestampSec ≤ state.timestampSec) := by
  obtain ⟨root, hdecode, -⟩ := decodeWitness_of_ofHeader hstate
  unfold checkForMisbehaviourInHeader at h
  constructor
  · intro s hs
    simp only [bind, Except.bind, neighbourhood_of_some hs] at h
    cases hinto : CommonContext.tryInto Ctx s with
    | error e =>
      rw [hinto] at h
      cases h
    | ok state =>
      rw [hinto, hstate] at h
      simp only [Except.mapError, pure, Except.pure, ne_eq, decide_not, Except.ok.injEq, Bool.not_eq_false',
        decide_eq_true_eq] at h
      rw [h]
  · intro hs
    obtain ⟨prev, next, hnb, hprev, hnext⟩ := neighbourhood_of_none hs
    refine ⟨prev, next, hprev, hnext, ?_⟩
    simp only [bind, Except.bind, hnb, hdecode] at h
    cases hbefore : checkTimestamp (prev.map (CommonContext.tryInto Ctx)) (consensus.timestampSec < ·) with
    | error e =>
      rw [hbefore] at h
      cases h
    | ok early =>
      rw [hbefore] at h
      cases early with
      | true => cases h
      | false =>
        have hafter : checkTimestamp (next.map (CommonContext.tryInto Ctx)) (· < consensus.timestampSec) = .ok false := h
        constructor
        · intro s hs
          obtain ⟨state, hinto, htime⟩ := checkTimestamp_false hbefore s hs
          exact ⟨state, hinto, not_lt.mp (of_decide_eq_false htime)⟩
        · intro s hs
          obtain ⟨state, hinto, htime⟩ := checkTimestamp_false hafter s hs
          exact ⟨state, hinto, not_lt.mp (of_decide_eq_false htime)⟩

theorem checkTimestamp_of_decodes (hdecodes : Decodes ctx) {state : Option AnyState} {test : NonZero 64 → Bool}
    (h : ∀ s ∈ state, ∃ h, stored ctx h = some s ∧ ∀ consensus, StateAt ctx h consensus → test consensus.timestampSec = false) :
    checkTimestamp (state.map (CommonContext.tryInto Ctx)) test = .ok false := by
  cases state with
  | none => rfl
  | some s =>
    obtain ⟨h, hs, htest⟩ := h s rfl
    obtain ⟨consensus, hinto⟩ := hdecodes h s hs
    rw [Option.map_some, hinto, checkTimestamp, htest consensus ⟨s, hs, hinto⟩]

/-- Nothing is wrong with a header which agrees with everything stored. -/
theorem checkForMisbehaviour_agrees (hdecodes : Decodes ctx)
    (hsame : ∀ state, StateAt ctx header.ibcHeight state → ConsensusState.ofHeader header = .ok state)
    (hbefore : ∀ h < header.ibcHeight, ∀ state, StateAt ctx h state → ∀ t ∈ header.witnessTime, state.timestampSec ≤ t)
    (hafter : ∀ h, header.ibcHeight < h → ∀ state, StateAt ctx h state → ∀ t ∈ header.witnessTime, t ≤ state.timestampSec) :
    checkForMisbehaviourInHeader ctx header = .ok false := by
  unfold checkForMisbehaviourInHeader
  cases hs : stored ctx header.ibcHeight with
  | some s =>
    obtain ⟨state, hinto⟩ := hdecodes _ s hs
    simp only [bind, Except.bind, neighbourhood_of_some hs, hinto, hsame state ⟨s, hs, hinto⟩, Except.mapError]
    simp [pure, Except.pure]
  | none =>
    obtain ⟨prev, next, hnb, hprev, hnext⟩ := neighbourhood_of_none hs
    simp only [bind, Except.bind, hnb]
    cases hdecode : header.decodeWitness with
    | none => rfl
    | some witness =>
      obtain ⟨root, current⟩ := witness
      have htime : current ∈ header.witnessTime := congrArg (Option.map Prod.snd) hdecode
      have hprevOk : checkTimestamp (prev.map (CommonContext.tryInto Ctx)) (current < ·) = .ok false := by
        refine checkTimestamp_of_decodes hdecodes ?_
        rintro s ⟨⟩
        obtain ⟨h, hlt, hstored, -⟩ := hprev
        exact ⟨h, hstored, fun state hstate => decide_eq_false (not_lt.mpr (hbefore h hlt state hstate current htime))⟩
      have hnextOk : checkTimestamp (next.map (CommonContext.tryInto Ctx)) (· < current) = .ok false := by
        refine checkTimestamp_of_decodes hdecodes ?_
        rintro s ⟨⟩
        obtain ⟨h, hlt, hstored, -⟩ := hnext
        exact ⟨h, hstored, fun state hstate => decide_eq_false (not_lt.mpr (hafter h hlt state hstate current htime))⟩
      simp only [hprevOk, hnextOk]
      rfl

/-- Times do not decrease with the slot. -/
def InOrder (ctx : Ctx) : Prop :=
  ∀ h h' a b, StateAt ctx h a → StateAt ctx h' b → h < h' → a.timestampSec ≤ b.timestampSec

theorem InOrder.kept (h : InOrder ctx) (hkept : Kept ctx ctx') : InOrder ctx' :=
  fun k k' a b ha hb => h k k' a b (ha.kept hkept) (hb.kept hkept)

/-- Everything stored below the slot of the header is as old as the header or older. -/
theorem InOrder.older (h : InOrder ctx) (hstate : ConsensusState.ofHeader header = .ok consensus)
    (hcheck : checkForMisbehaviourInHeader ctx header = .ok false) {k : IbcHeight} (hk : k < header.ibcHeight)
    {state : ConsensusState} (hs : StateAt ctx k state) : state.timestampSec ≤ consensus.timestampSec := by
  obtain ⟨hthis, hneighbours⟩ := checkForMisbehaviour_false hstate hcheck
  cases hsome : stored ctx header.ibcHeight with
  | some s => exact h k _ _ _ hs ⟨s, hsome, hthis s hsome⟩ hk
  | none =>
    obtain ⟨prev, -, hprev, -, hbefore, -⟩ := hneighbours hsome
    obtain ⟨s, hstored, hinto⟩ := hs
    cases prev with
    | none => cases (hprev k hk).symm.trans hstored
    | some p =>
      obtain ⟨k', hk', hp, hgap⟩ := hprev
      obtain ⟨pstate, hpstate, hle⟩ := hbefore p rfl
      rcases lt_trichotomy k k' with hlt | rfl | hgt
      · exact (h k k' _ _ ⟨s, hstored, hinto⟩ ⟨p, hp, hpstate⟩ hlt).trans hle
      · cases hstored.symm.trans hp
        cases hinto.symm.trans hpstate
        exact hle
      · cases (hgap k hgt hk).symm.trans hstored

/-- Everything stored above the slot of the header is as new as the header or newer. -/
theorem InOrder.newer (h : InOrder ctx) (hstate : ConsensusState.ofHeader header = .ok consensus)
    (hcheck : checkForMisbehaviourInHeader ctx header = .ok false) {k : IbcHeight} (hk : header.ibcHeight < k)
    {state : ConsensusState} (hs : StateAt ctx k state) : consensus.timestampSec ≤ state.timestampSec := by
  obtain ⟨hthis, hneighbours⟩ := checkForMisbehaviour_false hstate hcheck
  cases hsome : stored ctx header.ibcHeight with
  | some s => exact h _ k _ _ ⟨s, hsome, hthis s hsome⟩ hs hk
  | none =>
    obtain ⟨-, next, -, hnext, -, hafter⟩ := hneighbours hsome
    obtain ⟨s, hstored, hinto⟩ := hs
    cases next with
    | none => cases (hnext k hk).symm.trans hstored
    | some n =>
      obtain ⟨k', hk', hn, hgap⟩ := hnext
      obtain ⟨nstate, hnstate, hle⟩ := hafter n rfl
      rcases lt_trichotomy k k' with hlt | rfl | hgt
      · cases (hgap k hk hlt).symm.trans hstored
      · cases hstored.symm.trans hn
        cases hinto.symm.trans hnstate
        exact hle
      · exact hle.trans (h k' k _ _ ⟨n, hn, hnstate⟩ ⟨s, hstored, hinto⟩ hgt)

theorem InOrder.applied (h : InOrder ctx) (hcheck : checkForMisbehaviourInHeader ctx header = .ok false)
    (happlied : Applied c header consensus ctx ctx') : InOrder ctx' := by
  intro k k' a b ha hb hlt
  rcases ha.applied happlied with ⟨rfl, rfl⟩ | ⟨-, ha⟩
  · rcases hb.applied happlied with ⟨rfl, -⟩ | ⟨-, hb⟩
    · exact absurd hlt (lt_irrefl _)
    · exact h.newer happlied.state hcheck hlt hb
  · rcases hb.applied happlied with ⟨rfl, rfl⟩ | ⟨-, hb⟩
    · exact h.older happlied.state hcheck hlt ha
    · exact h k k' a b ha hb hlt

/-- What an update after the check may do: states stay as they are as long as they are kept, and a new one is that of
the header. Nothing but the latest slot of the client changes. -/
structure SafeUpdate (header : Header) (ctx ctx' : Ctx) : Prop where
  unreplaced : ∀ h a b, StateAt ctx h a → StateAt ctx' h b → b = a
  added : ∀ h a, StateAt ctx' h a → StateAt ctx h a ∨ (h = header.ibcHeight ∧ ConsensusState.ofHeader header = .ok a)
  client : clientState ctx' = clientState ctx ∨ clientState ctx' = (clientState ctx).withHeader header

theorem SafeUpdate.of_kept (header : Header) (h : Kept ctx ctx') : SafeUpdate header ctx ctx' where
  unreplaced _ _ _ ha hb := (hb.kept h).unique ha
  added _ _ ha := .inl (ha.kept h)
  client := .inl h.client

theorem SafeUpdate.of_applied (hcheck : checkForMisbehaviourInHeader ctx header = .ok false)
    (happlied : Applied (clientState ctx) header consensus ctx ctx') : SafeUpdate header ctx ctx' := by
  refine ⟨?_, ?_, .inr happlied.client⟩
  · intro h a b ha hb
    rcases hb.applied happlied with ⟨rfl, rfl⟩ | ⟨-, hb⟩
    · obtain ⟨s, hstored, hinto⟩ := ha
      exact Except.ok.inj (((checkForMisbehaviour_false happlied.state hcheck).1 s hstored).symm.trans hinto)
    · exact hb.unique ha
  · intro h a ha
    rcases ha.applied happlied with ⟨rfl, rfl⟩ | ⟨-, ha⟩
    · exact .inr ⟨rfl, happlied.state⟩
    · exact .inl ha

/-- However the update ends. -/
theorem safeUpdate {r : Except Fault (List IbcHeight)} (hcheck : checkForMisbehaviourInHeader ctx header = .ok false)
    (hupdate : ((clientState ctx).doUpdateState header).run ctx = (r, ctx')) :
    SafeUpdate header ctx ctx' ∧ (Decodes ctx → Decodes ctx') ∧ (InOrder ctx → InOrder ctx') := by
  have hends := (clientState ctx).doUpdateState_ends header ctx
  cases r with
  | error e =>
    have hkept := hends.of_error hupdate
    exact ⟨.of_kept header hkept, fun h => h.kept hkept, fun h => h.kept hkept⟩
  | ok heights =>
    obtain ⟨-, ⟨-, hkept⟩ | ⟨consensus, happlied⟩⟩ := hends.of_ok hupdate
    · exact ⟨.of_kept header hkept, fun h => h.kept hkept, fun h => h.kept hkept⟩
    · exact ⟨.of_applied hcheck happlied, fun h => h.applied happlied, fun h => h.applied hcheck happlied⟩

def ClientMessage.headers : ClientMessage → List Header
  | .header h => [h]
  | .misbehaviour m => [m.header1, m.header2]

section

variable {ε : Type} {W : Proto.Wire ε} {any : CfGuest.Any}

theorem orPanic_ok {α : Type} {x : Decoding ε α} {a : α} (h : orPanic x = .ok a) : x = pure a := by
  unfold orPanic at h
  cases hrun : x.run with
  | none =>
    rw [hrun] at h
    cases h
  | some r =>
    rw [hrun] at h
    cases FailingState.mapError_ok.mp h
    exact hrun

/-- The name of one type does not end with the name of another. -/
theorem not_clientMessage {typeUrl : List Char} (h : Proto.Header.ibcTypeUrl.isSuffixOf typeUrl = true) :
    Proto.ClientMessage.ibcTypeUrl.isSuffixOf typeUrl = false := by
  by_contra hne
  rw [Bool.not_eq_false, List.isSuffixOf_iff_suffix] at hne
  rw [List.isSuffixOf_iff_suffix] at h
  have hsuffix := List.suffix_of_suffix_length_le h hne (by decide)
  revert hsuffix
  decide

/-- What is read as a header is read as the message with that header. -/
theorem ClientMessage.tryFromAny_header (h : Header.tryFromAny W any = pure header) :
    ClientMessage.tryFromAny W any.typeUrl any.value = pure (.header header) := by
  unfold Header.tryFromAny at h
  split at h
  · rename_i hurl
    rw [ClientMessage.tryFromAny, not_clientMessage hurl, if_neg Bool.false_ne_true, if_pos hurl, h]
    rfl
  · cases h

variable {digest : List Byte → CryptoHash} {B : Blake3}

variable (digest B) in
/-- The proofs of the header lead from the account of the client to the bank hash. -/
structure Header.Verified (witnessAccount : CryptoHash) (header : Header) : Prop where
  bankHash : header.bankHash = header.deltaHashProof.calculateBankHash digest
  root : header.witnessProof.expectedRoot digest B = some header.deltaHashProof.accountsDeltaHash
  account : header.witnessProof.accountHashData.key = witnessAccount

theorem ClientState.Full.verifyHeader_ok {c : ClientState.Full} :
    c.verifyHeader digest B header = .ok () ↔ header.Verified digest B c.witnessAccount := by
  unfold ClientState.Full.verifyHeader
  split
  · rename_i hne
    exact iff_of_false nofun fun h => hne h.bankHash
  rename_i hbank
  cases hroot : header.witnessProof.expectedRoot digest B with
  | none => exact iff_of_false nofun fun h => nomatch hroot.symm.trans h.root
  | some root =>
    dsimp only
    split
    · rename_i hne
      refine iff_of_false nofun fun h => hne ?_
      exact (Option.some.inj (hroot.symm.trans h.root)).symm
    rename_i hdelta
    split
    · rename_i hne
      exact iff_of_false nofun fun h => hne h.account
    · rename_i hkey
      exact iff_of_true rfl ⟨not_not.mp hbank, hroot.trans (congrArg some (not_not.mp hdelta).symm), not_not.mp hkey⟩

theorem ClientState.Full.doVerifyClientMessage_ok {c : ClientState.Full} {message : ClientMessage}
    (h : c.doVerifyClientMessage digest B message = .ok ()) :
    ∀ header ∈ message.headers, header.Verified digest B c.witnessAccount := by
  cases message with
  | header header =>
    intro header' hheader
    cases List.mem_singleton.mp hheader
    exact verifyHeader_ok.mp h
  | misbehaviour m =>
    obtain ⟨_, h1, h2⟩ := bind_eq_ok.mp h
    intro header hheader
    rcases List.mem_cons.mp hheader with rfl | hheader
    · exact verifyHeader_ok.mp h1
    · cases List.mem_singleton.mp hheader
      exact verifyHeader_ok.mp h2

theorem ClientState.Full.verifyClientMessage_ok {c : ClientState.Full} (h : c.verifyClientMessage W digest B any = .ok ()) :
    ∃ message, ClientMessage.tryFromAny W any.typeUrl any.value = pure message ∧
      ∀ header ∈ message.headers, header.Verified digest B c.witnessAccount := by
  obtain ⟨message, hread, hverify⟩ := bind_eq_ok.mp h
  exact ⟨message, orPanic_ok hread, doVerifyClientMessage_ok (FailingState.mapError_ok.mp hverify)⟩

omit [LawfulContext Ctx AnyState] in
theorem checkForMisbehaviour_ok [CommonContext Ctx AnyState] {found : Bool} (h : checkForMisbehaviour W ctx any = .ok found)
    {message : ClientMessage} (hread : ClientMessage.tryFromAny W any.typeUrl any.value = pure message) :
    doCheckForMisbehaviour ctx message = .ok found := by
  obtain ⟨message', hread', hcheck⟩ := bind_eq_ok.mp h
  cases (orPanic_ok hread').symm.trans hread
  exact FailingState.mapError_ok.mp hcheck

/-- Either the message is not a header and nothing happens, or the header is applied. -/
theorem updateState_run {r : Except (HandlerError ε) (List IbcHeight)} (h : (c.updateState W any).run ctx = (r, ctx')) :
    ctx' = ctx ∨ ∃ header r', Header.tryFromAny W any = pure header ∧ (c.doUpdateState header).run ctx = (r', ctx') := by
  unfold ClientState.Full.updateState at h
  cases hread : (orPanic (Header.tryFromAny W any) : Except (HandlerError ε) Header) with
  | error e =>
    rw [hread] at h
    exact .inl (Prod.mk.inj h).2.symm
  | ok header =>
    rw [hread] at h
    exact .inr ⟨header, ((c.doUpdateState header).run ctx).1, orPanic_ok hread, Prod.ext rfl (Prod.mk.inj h).2⟩

/-! What the handlers do with a message which is a header. -/

theorem verifyClientMessage_of_header {c : ClientState.Full} (hread : Header.tryFromAny W any = pure header)
    (h : header.Verified digest B c.witnessAccount) : c.verifyClientMessage W digest B any = .ok () := by
  rw [ClientState.Full.verifyClientMessage, ClientMessage.tryFromAny_header hread]
  exact FailingState.mapError_ok.mpr (ClientState.Full.verifyHeader_ok.mpr h)

theorem checkForMisbehaviour_of_header (hread : Header.tryFromAny W any = pure header) {found : Bool}
    (h : checkForMisbehaviourInHeader ctx header = .ok found) : checkForMisbehaviour W ctx any = .ok found := by
  rw [checkForMisbehaviour, ClientMessage.tryFromAny_header hread]
  exact FailingState.mapError_ok.mpr h

theorem updateState_of_header (hread : Header.tryFromAny W any = pure header) (c : ClientState.Full) (ctx : Ctx) :
    ((c.updateState W any).run ctx).2 = ((c.doUpdateState header).run ctx).2 := by
  rw [ClientState.Full.updateState, hread]
  rfl

variable (W digest B) in
/-- Messages are verified and checked before anything is done about them. Time passes, and states may be forgotten. -/
inductive ClientStep (ctx ctx' : Ctx) : Prop
  | update (any : CfGuest.Any) (r : Except (HandlerError ε) (List IbcHeight))
      (hverify : (clientState ctx).verifyClientMessage W digest B any = .ok ())
      (hcheck : checkForMisbehaviour W ctx any = .ok false) (hrun : ((clientState ctx).updateState W any).run ctx = (r, ctx'))
  | freeze (any : CfGuest.Any) (r : Except (HandlerError ε) Unit)
      (hverify : (clientState ctx).verifyClientMessage W digest B any = .ok ())
      (hcheck : checkForMisbehaviour W ctx any = .ok true)
      (hrun : ((clientState ctx).updateStateOnMisbehaviour any).run ctx = (r, ctx'))
  | wait (hkept : Kept ctx ctx')

variable (digest B) in
/-- Where a state comes from, and that it was not later than the client. -/
def Vouched (ctx₀ ctx : Ctx) : Prop :=
  ∀ h state, StateAt ctx h state → StateAt ctx₀ h state ∨
    ∃ header : Header, header.ibcHeight = h ∧ header.Verified digest B (clientState ctx).witnessAccount ∧
      ConsensusState.ofHeader header = .ok state ∧ header.slot ≤ (clientState ctx).latestSlot

/-- What does not change about a client, and what only grows. -/
structure Advances (c c' : ClientState.Full) : Prop where
  witnessAccount : c'.witnessAccount = c.witnessAccount
  trustingPeriod : c'.trustingPeriodNs = c.trustingPeriodNs
  latestSlot : c.latestSlot ≤ c'.latestSlot
  frozen : c.isFrozen = true → c'.isFrozen = true

theorem Advances.refl (c : ClientState.Full) : Advances c c := ⟨rfl, rfl, le_rfl, id⟩

theorem Advances.trans {c c' c'' : ClientState.Full} (h : Advances c c') (h' : Advances c' c'') : Advances c c'' :=
  ⟨h'.witnessAccount.trans h.witnessAccount, h'.trustingPeriod.trans h.trustingPeriod, h.latestSlot.trans h'.latestSlot,
    fun hf => h'.frozen (h.frozen hf)⟩

theorem advances_withHeader (c : ClientState.Full) (header : Header) : Advances c (c.withHeader header) :=
  ⟨rfl, rfl, le_max_left _ _, id⟩

theorem advances_frozen (c : ClientState.Full) : Advances c c.frozen := ⟨rfl, rfl, le_rfl, fun _ => rfl⟩

theorem Vouched.advance (h : Vouched digest B ctx₀ ctx) (hclient : Advances (clientState ctx) (clientState ctx'))
    (hstates : ∀ h state, StateAt ctx' h state → StateAt ctx h state) : Vouched digest B ctx₀ ctx' := by
  intro k state hs
  rcases h k state (hstates k state hs) with hold | ⟨header, hheight, hverified, hstate, hslot⟩
  · exact .inl hold
  · rw [← hclient.witnessAccount] at hverified
    exact .inr ⟨header, hheight, hverified, hstate, hslot.trans hclient.latestSlot⟩

theorem Vouched.applied (h : Vouched digest B ctx₀ ctx) (hverified : header.Verified digest B (clientState ctx).witnessAccount)
    (happlied : Applied (clientState ctx) header consensus ctx ctx') : Vouched digest B ctx₀ ctx' := by
  have hclient := advances_withHeader (clientState ctx) header
  rw [← happlied.client] at hclient
  intro k state hs
  rcases hs.applied happlied with ⟨rfl, rfl⟩ | ⟨-, hold⟩
  · refine .inr ⟨header, rfl, hclient.witnessAccount ▸ hverified, happlied.state, ?_⟩
    rw [happlied.client]
    exact le_max_right _ _
  · rcases h k state hold with hold | ⟨header', hheight, hverified', hstate, hslot⟩
    · exact .inl hold
    · rw [← hclient.witnessAccount] at hverified'
      exact .inr ⟨header', hheight, hverified', hstate, hslot.trans hclient.latestSlot⟩

variable (digest B) in
/-- What is kept of a client by everything that happens to it. -/
structure Consistent (ctx₀ ctx : Ctx) : Prop where
  decodes : Decodes ctx
  inOrder : InOrder ctx
  vouched : Vouched digest B ctx₀ ctx
  advances : Advances (clientState ctx₀) (clientState ctx)

theorem Consistent.kept (h : Consistent digest B ctx₀ ctx) (hkept : Kept ctx ctx') : Consistent digest B ctx₀ ctx' := by
  have hclient : Advances (clientState ctx) (clientState ctx') := hkept.client ▸ Advances.refl _
  exact ⟨h.decodes.kept hkept, h.inOrder.kept hkept, h.vouched.advance hclient fun _ _ hs => hs.kept hkept,
    h.advances.trans hclient⟩

theorem Consistent.step (h : Consistent digest B ctx₀ ctx) (hstep : ClientStep W digest B ctx ctx') :
    Consistent digest B ctx₀ ctx' := by
  cases hstep with
  | update any r hverify hcheck hrun =>
    obtain ⟨message, hmessage, hverified⟩ := ClientState.Full.verifyClientMessage_ok hverify
    rcases updateState_run hrun with rfl | ⟨header, r', hread, hrun⟩
    · exact h
    cases hmessage.symm.trans (ClientMessage.tryFromAny_header hread)
    have hcheck : checkForMisbehaviourInHeader ctx header = .ok false := checkForMisbehaviour_ok hcheck hmessage
    have hends := (clientState ctx).doUpdateState_ends header ctx
    cases r' with
    | error e => exact h.kept (hends.of_error hrun)
    | ok heights =>
      obtain ⟨-, ⟨-, hkept⟩ | ⟨consensus, happlied⟩⟩ := hends.of_ok hrun
      · exact h.kept hkept
      · refine ⟨h.decodes.applied happlied, h.inOrder.applied hcheck happlied,
          h.vouched.applied (hverified header List.mem_cons_self) happlied, h.advances.trans ?_⟩
        rw [happlied.client]
        exact advances_withHeader _ _
  | freeze any r hverify hcheck hrun =>
    obtain ⟨ctx₁, hset, hclient, hstored⟩ := setClientState_ok (clientState ctx).frozen ctx
    have hctx : ctx' = ctx₁ := (congrArg Prod.snd hrun).symm.trans (congrArg Prod.snd (run_mapError_ok.mpr hset))
    subst hctx
    have hadvances : Advances (clientState ctx) (clientState ctx') := hclient ▸ advances_frozen _
    have hstates : ∀ k state, StateAt ctx' k state → StateAt ctx k state := by
      rintro k state ⟨s, hs, hinto⟩
      exact ⟨s, hstored ▸ hs, hinto⟩
    refine ⟨fun k s hs => h.decodes k s (hstored ▸ hs), ?_, h.vouched.advance hadvances hstates, h.advances.trans hadvances⟩
    exact fun k k' a b ha hb => h.inOrder k k' a b (hstates k a ha) (hstates k' b hb)
  | wait hkept => exact h.kept hkept

/-- A client with no more than one consensus state. -/
structure Created (ctx : Ctx) : Prop where
  decodes : Decodes ctx
  single : ∀ h h' s s', stored ctx h = some s → stored ctx h' = some s' → h = h'

theorem Created.consistent (h : Created ctx) : Consistent digest B ctx ctx where
  decodes := h.decodes
  inOrder := by
    rintro k k' a b ⟨s, hs, -⟩ ⟨s', hs', -⟩ hlt
    cases h.single k k' s s' hs hs'
    exact absurd hlt (lt_irrefl k)
  vouched _ _ hs := .inl hs
  advances := Advances.refl _

/-- Whatever messages come and in whatever order, states are those of verified headers, their times follow their slots,
and no update replaces one. -/
theorem rollup_store_consistent (hcreated : Created ctx₀) (hrun : Relation.ReflTransGen (ClientStep W digest B) ctx₀ ctx) :
    Consistent digest B ctx₀ ctx ∧
      ∀ (any : CfGuest.Any) (header : Header) (r : Except (HandlerError ε) (List IbcHeight)) (ctx' : Ctx),
        Header.tryFromAny W any = pure header → checkForMisbehaviour W ctx any = .ok false →
        ((clientState ctx).updateState W any).run ctx = (r, ctx') → SafeUpdate header ctx ctx' := by
  constructor
  · induction hrun with
    | refl => exact hcreated.consistent
    | tail _ hstep ih => exact ih.step hstep
  · intro any header r ctx' hread hcheck hrun
    have hcheck := checkForMisbehaviour_ok hcheck (ClientMessage.tryFromAny_header hread)
    rcases updateState_run hrun with rfl | ⟨header', r', hread', hrun⟩
    · exact .of_kept header (Kept.refl _)
    · cases hread.symm.trans hread'
      exact (safeUpdate hcheck hrun).1

end

end

/-- The client state and an ordered map of consensus states. Host time stands still. -/
structure MapContext where
  clientState : ClientState.Full
  states : BTreeMap IbcHeight ConsensusState

namespace MapContext

theorem hostHeight_nonzero : 69 ≠ 0 := by decide

instance updateContext : UpdateContext MapContext ConsensusState where
  tryInto := .ok
  ofConsensusState := id
  consensusStateNeighbourhood ctx height :=
    match ctx.states.get height with
    | some state => .ok (.this state)
    | none => .ok (.neighbours ((ctx.states.lastBelow height).map (·.2)) ((ctx.states.firstFrom height).map (·.2)))
  hostMetadata _ := .ok (42, ⟨1, 69, hostHeight_nonzero⟩)
  setClientState state ctx := (.ok (), { ctx with clientState := state })
  consensusState ctx height :=
    match ctx.states.get height with
    | some state => .ok state
    | none => .error (.consensusStateNotFound height)
  storeConsensusStateAndMetadata height state _ _ ctx := (.ok (), { ctx with states := ctx.states.insert height state })
  deleteConsensusStateAndMetadata height ctx := (.ok (), { ctx with states := ctx.states.remove height })
  earliestConsensusState ctx := .ok ctx.states.firstKeyValue
  storeConsensusState height state ctx := (.ok (), { ctx with states := ctx.states.insert height state })

variable {states : BTreeMap IbcHeight ConsensusState} {h : IbcHeight}

theorem isPrev_lastBelow : IsPrev states.get h ((states.lastBelow h).map (·.2)) := by
  cases hprev : states.lastBelow h with
  | none => exact fun h' hlt => BTreeMap.lastBelow_eq_none hprev hlt
  | some found =>
    obtain ⟨hlt, hget, hgap⟩ := BTreeMap.lastBelow_eq_some hprev
    exact ⟨found.1, hlt, hget, hgap⟩

theorem isNext_firstFrom (hnone : states.get h = none) : IsNext states.get h ((states.firstFrom h).map (·.2)) := by
  cases hnext : states.firstFrom h with
  | none => exact fun h' hlt => BTreeMap.firstFrom_eq_none hnext hlt.le
  | some found =>
    obtain ⟨hle, hget, hgap⟩ := BTreeMap.firstFrom_eq_some hnext
    have hne : h ≠ found.1 := by
      rintro rfl
      cases hnone.symm.trans hget
    exact ⟨found.1, lt_of_le_of_ne hle hne, hget, fun k hk => hgap k hk.le⟩

instance lawfulContext : LawfulContext MapContext ConsensusState where
  clientState := clientState
  stored ctx := ctx.states.get
  tryInto_of _ := rfl
  hostMetadata_ok _ := ⟨_, rfl⟩
  setClientState_ok _ _ := ⟨_, rfl, rfl, rfl⟩
  consensusState_of_some := by
    intro ctx h s hs
    simp only [UpdateContext.consensusState, hs]
  consensusState_of_none := by
    intro ctx h hs
    simp only [UpdateContext.consensusState, hs]
  neighbourhood_of_some := by
    intro ctx h s hs
    simp only [CommonContext.consensusStateNeighbourhood, hs]
  neighbourhood_of_none := by
    intro ctx h hs
    simp only [CommonContext.consensusStateNeighbourhood, hs]
    exact ⟨_, _, rfl, isPrev_lastBelow, isNext_firstFrom hs⟩
  store_ok _ _ _ _ _ := ⟨_, rfl, rfl, fun _ _ hs => BTreeMap.get_insert.mp hs⟩
  delete_ok _ _ := ⟨_, rfl, rfl, fun _ _ hs => BTreeMap.get_remove.mp hs⟩
  earliest_ok _ := ⟨_, rfl, fun _ _ hs => BTreeMap.get_firstKeyValue hs⟩

end MapContext

namespace RollupSample

open HashAccount

/-- A root of zeros at the first second. -/
def witnessData : List Byte := List.replicate 32 0#8 ++ 1#8 :: List.replicate 7 0#8

def header : Header := Header.test (NonZero.clamp 2) witnessData

/-- There is no message but the header. -/
def wireOf (header : Header) : Proto.Wire Unit where
  header _ := .ok header.toProto
  misbehaviour _ := .error ()
  clientMessage _ := .error ()

/-- The only message there is. -/
def wire : Proto.Wire Unit where
  header _ := .ok header.toProto
  misbehaviour _ := .error ()
  clientMessage _ := .error ()

def any : CfGuest.Any := ⟨Proto.Header.ibcTypeUrl, []⟩

theorem read_wireOf (header : Header) : Header.tryFromAny (wireOf header) any = pure header := by
  have hread : Header.tryFromOwned header.toProto = pure header := by
    rw [Header.tryFromOwned_eq, Header.tryFromRef_toProto]
  have hurl : Proto.Header.ibcTypeUrl.isSuffixOf any.typeUrl = true := by decide
  rw [Header.tryFromAny, if_pos hurl, Header.decode,
    decodeWith_of_parsed (show (wireOf header).header any.value = .ok header.toProto from rfl), hread]
  rfl

theorem header_read : Header.tryFromAny wire any = pure header := read_wireOf header

def client : ClientState.Full where
  trustingPeriodNs := Fin.ofNat (2 ^ 64) (3600 * 1000000000)
  latestSlot := NonZero.clamp 1
  witnessAccount := CryptoHash.default
  isFrozen := false

theorem height_nonzero : 1 ≠ 0 := by decide

def context : MapContext where
  clientState := client
  states := BTreeMap.empty.insert ⟨1, 1, height_nonzero⟩ (ConsensusState.new CryptoHash.default (NonZero.clamp 1))

theorem context_created : Created context := by
  refine ⟨fun _ s _ => ⟨s, rfl⟩, ?_⟩
  intro h h' s s' hs hs'
  rcases BTreeMap.get_insert.mp hs with ⟨rfl, -⟩ | ⟨-, hs⟩
  · rcases BTreeMap.get_insert.mp hs' with ⟨rfl, -⟩ | ⟨-, hs'⟩
    · rfl
    · cases hs'
  · cases hs

/-- Everything hashes to zero. -/
def digest (_ : List Byte) : CryptoHash := CryptoHash.default

end RollupSample

open RollupSample HashAccount in
/-- A client of slot one follows a header of slot two. -/
theorem rollup_store_consistent_sample :
    let ctx := ((client.updateState wire any).run context).2
    (ctx.states.entries.map fun e => e.1.revisionHeight) = [1, 2] ∧ ctx.clientState.latestSlot = NonZero.clamp 2 ∧
      Consistent digest (constHash CryptoHash.default) context ctx := by
  intro ctx
  have hverified : header.Verified digest (constHash CryptoHash.default) client.witnessAccount :=
    ⟨rfl, by decide +kernel, by decide +kernel⟩
  have hcheck : checkForMisbehaviourInHeader context header = .ok false := by decide +kernel
  have hstep : ClientStep wire digest (constHash CryptoHash.default) context ctx :=
    .update any ((client.updateState wire any).run context).1 (verifyClientMessage_of_header header_read hverified)
      (checkForMisbehaviour_of_header header_read hcheck) Prod.mk.eta.symm
  have hctx : ctx = ((client.doUpdateState header).run context).2 := updateState_of_header header_read client context
  refine ⟨?_, ?_, (rollup_store_consistent context_created (.single hstep)).1⟩
  · rw [hctx]
    decide +kernel
  · rw [hctx]
    decide +kernel

end CfSolana
