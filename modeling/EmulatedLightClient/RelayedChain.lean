import EmulatedLightClient.ClientFollows
import EmulatedLightClient.GuestHandlers
import EmulatedLightClient.HonestChain

/-!
# Clients of an honest chain

The chain and any number of its clients take steps in any order. Whoever relays messages decides which client gets
what, when and how often; what they cannot do is forge. Clients then hold nothing but blocks of the chain and no
message makes them take the chain for one which forked.
-/

namespace CfGuest

open ByteBits MachineInts Nodes GuestChain FailingState FailingState.Op Readers TrieProof

variable {PK Sig ε Ctx AnyState : Type}

def ClientMessage.headers : ClientMessage PK Sig → List (Header PK Sig)
  | .header h => [h]
  | .misbehaviour m => [m.header1, m.header2]

theorem decodeWith_ok {M α : Type} {parse : List Byte → Except ε M} {convert : M → Option α} {buf : List Byte} {a : α}
    (h : decodeWith parse convert buf = .ok a) : ∃ msg, parse buf = .ok msg ∧ convert msg = some a := by
  unfold decodeWith at h
  cases hparse : parse buf with
  | error e =>
    rw [hparse] at h
    cases h
  | ok msg =>
    rw [hparse] at h
    cases hconvert : convert msg with
    | none =>
      simp only [Except.mapError, bind, Except.bind, hconvert, Option.elim_none] at h
      cases h
    | some b =>
      simp only [Except.mapError, bind, Except.bind, hconvert, Option.elim_some, Except.ok.injEq] at h
      exact ⟨msg, rfl, hconvert.trans (congrArg some h)⟩

theorem map_ok {α β : Type} {r : Except ε α} {f : α → β} {b : β} (h : r.map f = .ok b) : ∃ a, r = .ok a ∧ f a = b := by
  cases r with
  | error e => cases h
  | ok a => exact ⟨a, rfl, Except.ok.inj h⟩

theorem mapError_ok {ε' α : Type} {r : Except ε α} {f : ε → ε'} {a : α} (h : r.mapError f = .ok a) : r = .ok a := by
  cases r with
  | error e => cases h
  | ok b => exact congrArg Except.ok (Except.ok.inj h)

section

variable {digest : List Byte → CryptoHash} {codec : KeyCodec PK Sig} {W : Proto.Wire ε} {any : Any}

/-- The name of one type does not end with the name of another. -/
theorem not_clientMessage {typeUrl : List Char} (h : Proto.Header.ibcTypeUrl.isSuffixOf typeUrl = true) :
    Proto.ClientMessage.ibcTypeUrl.isSuffixOf typeUrl = false := by
  by_contra hne
  rw [Bool.not_eq_false, List.isSuffixOf_iff_suffix] at hne
  rw [List.isSuffixOf_iff_suffix] at h
  have hsuffix := List.suffix_of_suffix_length_le h hne (by decide)
  revert hsuffix
  decide

/-- What is read as a header is read as the message with that header. -/
theorem ClientMessage.tryFromAny_header {header : Header PK Sig} (h : Header.tryFromAny digest codec W any = .ok header) :
    ClientMessage.tryFromAny digest codec W any = .ok (.header header) := by
  unfold Header.tryFromAny CfGuest.tryFromAny at h
  split at h
  · rename_i hurl
    rw [ClientMessage.tryFromAny, not_clientMessage hurl, if_neg Bool.false_ne_true, if_pos hurl, h]
    rfl
  · cases h

variable [PubKey PK]

theorem Header.decode_derived (hpk : Reader.Reads codec.readPubKey (fun _ => True) PubKey.serialize) {buf : List Byte}
    {header : Header PK Sig} (h : Header.decode digest codec W buf = .ok header) : header.Derived digest := by
  obtain ⟨msg, -, hconvert⟩ := decodeWith_ok h
  exact Header.tryFrom_derived hpk hconvert

theorem Misbehaviour.headers_derived (hpk : Reader.Reads codec.readPubKey (fun _ => True) PubKey.serialize)
    {msg : Proto.Misbehaviour} {m : Misbehaviour PK Sig} (h : Misbehaviour.tryFrom digest codec msg = some m) :
    ∀ header ∈ (ClientMessage.misbehaviour m).headers, header.Derived digest := by
  obtain ⟨h1, h2, -⟩ := Misbehaviour.tryFrom_derived hpk h
  intro header hheader
  rcases List.mem_cons.mp hheader with rfl | hheader
  · exact h1
  · cases List.mem_singleton.mp hheader
    exact h2

/-- Hashes in messages are hashes of what messages carry. -/
theorem ClientMessage.tryFromAny_derived (hpk : Reader.Reads codec.readPubKey (fun _ => True) PubKey.serialize)
    {message : ClientMessage PK Sig} (h : ClientMessage.tryFromAny digest codec W any = .ok message) :
    ∀ header ∈ message.headers, header.Derived digest := by
  unfold ClientMessage.tryFromAny at h
  split at h
  · obtain ⟨msg, -, hconvert⟩ := decodeWith_ok h
    obtain ⟨inner, -, hinner⟩ := Option.bind_eq_some_iff.mp hconvert
    cases inner with
    | header inner =>
      obtain ⟨header, hread, rfl⟩ := Option.map_eq_some_iff.mp hinner
      intro header' hheader'
      cases List.mem_singleton.mp hheader'
      exact Header.tryFrom_derived hpk hread
    | misbehaviour inner =>
      obtain ⟨m, hread, rfl⟩ := Option.map_eq_some_iff.mp hinner
      exact Misbehaviour.headers_derived hpk hread
  · split at h
    · obtain ⟨header, hread, rfl⟩ := map_ok h
      intro header' hheader'
      cases List.mem_singleton.mp hheader'
      exact Header.decode_derived hpk hread
    · split at h
      · obtain ⟨m, hread, rfl⟩ := map_ok h
        obtain ⟨msg, -, hconvert⟩ := decodeWith_ok hread
        exact Misbehaviour.headers_derived hpk hconvert
      · cases h

end

theorem IbcHeight.revisionHeight_lt {a b : IbcHeight} (h : a < b) (hnum : a.revisionNumber = b.revisionNumber) :
    a.revisionHeight < b.revisionHeight := by
  by_contra hle
  rcases (not_lt.mp hle).lt_or_eq with hlt | heq
  · exact h.asymm (IbcHeight.lt_of_revisionHeight hnum.symm hlt)
  · obtain ⟨n, k, _⟩ := a
    obtain ⟨n', k', _⟩ := b
    cases hnum
    cases heq
    exact lt_irrefl _ h

section

variable [LawfulContext Ctx AnyState] {ctx ctx' : Ctx}

/-- Nothing is wrong with a header which agrees with everything stored. -/
theorem checkForMisbehaviour_agrees {header : Header PK Sig} {height : IbcHeight}
    (hheight : IbcHeight.new 1 header.blockHeader.blockHeight.val = .ok height)
    (hall : ∀ h s, stored ctx h = some s → ∃ state, CommonContext.tryInto Ctx s = .ok state ∧
      (h = height → state = .ofHeader header) ∧ (h < height → state.timestampNs < header.blockHeader.timestampNs) ∧
      (height < h → header.blockHeader.timestampNs < state.timestampNs)) :
    ClientState.checkForMisbehaviourInHeader ctx header = .ok false := by
  unfold ClientState.checkForMisbehaviourInHeader
  rw [hheight]
  cases hs : stored ctx height with
  | some s =>
    obtain ⟨state, hstate, hsame, -, -⟩ := hall height s hs
    cases hsame rfl
    simp only [bind, Except.bind, LawfulContext.neighbourhood_of_some hs, hstate, Except.mapError]
    simp [pure, Except.pure]
  | none =>
    obtain ⟨prev, next, hnb, hprev, hnext⟩ := LawfulContext.neighbourhood_of_none hs
    have hbefore : ∃ time, getTimestampNs prev (CommonContext.tryInto Ctx) = .ok time ∧
        time.any (fun prevTimeNs => header.blockHeader.timestampNs.get ≤ prevTimeNs) = false := by
      cases prev with
      | none => exact ⟨none, rfl, rfl⟩
      | some s =>
        obtain ⟨h, hlt, hstored, -⟩ := hprev
        obtain ⟨state, hstate, -, hless, -⟩ := hall h s hstored
        refine ⟨some state.timestampNs.get, ?_, ?_⟩
        · simp only [getTimestampNs, Option.map_some, hstate]
        · simpa [NonZero.lt_iff] using hless hlt
    have hafter : ∃ time, getTimestampNs next (CommonContext.tryInto Ctx) = .ok time ∧
        time.any (fun nextTimeNs => nextTimeNs ≤ header.blockHeader.timestampNs.get) = false := by
      cases next with
      | none => exact ⟨none, rfl, rfl⟩
      | some s =>
        obtain ⟨h, hlt, hstored, -⟩ := hnext
        obtain ⟨state, hstate, -, -, hless⟩ := hall h s hstored
        refine ⟨some state.timestampNs.get, ?_, ?_⟩
        · simp only [getTimestampNs, Option.map_some, hstate]
        · simpa [NonZero.lt_iff] using hless hlt
    obtain ⟨prevTime, hprevTime, hprevOk⟩ := hbefore
    obtain ⟨nextTime, hnextTime, hnextOk⟩ := hafter
    simp only [bind, Except.bind, hnb, hprevTime, hnextTime, hprevOk, hnextOk]
    rfl

variable [PubKey PK]

variable (digest : List Byte → CryptoHash) in
/-- The consensus state is the one of a block at its height. -/
def Records (blocks : List BlockHeader) (h : IbcHeight) (state : ConsensusState) : Prop :=
  h.revisionNumber = 1 ∧ ∃ b ∈ blocks, h.revisionHeight = b.blockHeight.val ∧
    state = .new (b.calcHash digest) b.timestampNs

variable (digest : List Byte → CryptoHash) (genesisHash : CryptoHash) in
/-- All that the client knows is so on the chain. -/
structure Faithful (blocks : List BlockHeader) (epochs : List (Epoch PK)) (ctx : Ctx) : Prop where
  genesisHash : (clientState ctx).genesisHash = genesisHash
  epoch : ∃ e ∈ epochs, e.calcCommitment digest = (clientState ctx).epochCommitment
  prevEpoch : ∃ e ∈ epochs, e.calcCommitment digest = (clientState ctx).prevEpochCommitment
  active : (clientState ctx).isFrozen = false
  latest : ∃ b ∈ blocks, (clientState ctx).latestHeight = b.blockHeight
  states : ∀ h s, stored ctx h = some s → ∃ state, CommonContext.tryInto Ctx s = .ok state ∧
    Records digest blocks h state

section

variable {digest : List Byte → CryptoHash} {genesisHash : CryptoHash} {blocks blocks' : List BlockHeader}
  {epochs epochs' : List (Epoch PK)}

omit [PubKey PK] in
theorem Records.mono {h : IbcHeight} {state : ConsensusState} (hrecords : Records digest blocks h state)
    (hblocks : blocks ⊆ blocks') : Records digest blocks' h state := by
  obtain ⟨hnum, b, hb, hheight, hstate⟩ := hrecords
  exact ⟨hnum, b, hblocks hb, hheight, hstate⟩

theorem Faithful.mono (h : Faithful digest genesisHash blocks epochs ctx) (hblocks : blocks ⊆ blocks')
    (hepochs : epochs ⊆ epochs') : Faithful digest genesisHash blocks' epochs' ctx := by
  obtain ⟨e, he, hcurrent⟩ := h.epoch
  obtain ⟨e', he', hprevious⟩ := h.prevEpoch
  obtain ⟨b, hb, hlatest⟩ := h.latest
  refine ⟨h.genesisHash, ⟨e, hepochs he, hcurrent⟩, ⟨e', hepochs he', hprevious⟩, h.active, ⟨b, hblocks hb, hlatest⟩, ?_⟩
  intro k s hs
  obtain ⟨state, hstate, hrecords⟩ := h.states k s hs
  exact ⟨state, hstate, hrecords.mono hblocks⟩

theorem Faithful.kept (h : Faithful digest genesisHash blocks epochs ctx) (hkept : Kept ctx ctx') :
    Faithful digest genesisHash blocks epochs ctx' := by
  obtain ⟨hgenesis, hcurrent, hprevious, hactive, hlatest, hstates⟩ := h
  rw [← hkept.client] at hgenesis hcurrent hprevious hactive hlatest
  exact ⟨hgenesis, hcurrent, hprevious, hactive, hlatest, fun k s hs => hstates k s (hkept.states k s hs)⟩

omit [PubKey PK] in
theorem withHeader_kept (c : ClientState) (header : Header PK Sig) :
    (c.withHeader header).genesisHash = c.genesisHash ∧ (c.withHeader header).isFrozen = c.isFrozen := by
  unfold ClientState.withHeader
  split
  · split
    · exact ⟨rfl, rfl⟩
    · exact ⟨rfl, rfl⟩
  · exact ⟨rfl, rfl⟩

omit [PubKey PK] in
/-- Epochs come from the header or are what they were. -/
theorem withHeader_epochs (c : ClientState) (header : Header PK Sig) :
    ((c.withHeader header).epochCommitment = c.epochCommitment ∧
      (c.withHeader header).prevEpochCommitment = c.prevEpochCommitment) ∨
    (header.blockHeader.nextEpochCommitment = some (c.withHeader header).epochCommitment ∧
      (c.withHeader header).prevEpochCommitment = c.epochCommitment) := by
  unfold ClientState.withHeader
  split
  · cases hnext : header.blockHeader.nextEpochCommitment with
    | none => exact Or.inl ⟨rfl, rfl⟩
    | some next => exact Or.inr ⟨rfl, rfl⟩
  · exact Or.inl ⟨rfl, rfl⟩

omit [PubKey PK] in
theorem withHeader_latestHeight (c : ClientState) (header : Header PK Sig) :
    (c.withHeader header).latestHeight = c.latestHeight ∨
      (c.withHeader header).latestHeight = header.blockHeader.blockHeight := by
  by_cases h : c.latestHeight < header.blockHeader.blockHeight
  · exact Or.inr (withHeader_of_lt h).1
  · rw [ClientState.withHeader, if_neg h]
    exact Or.inl rfl

theorem Faithful.applied {header : Header PK Sig} {height : IbcHeight}
    (h : Faithful digest genesisHash blocks epochs ctx) (hblock : header.blockHeader ∈ blocks)
    (hhash : header.blockHash = header.blockHeader.calcHash digest)
    (hcommitment : ∀ next, header.blockHeader.nextEpochCommitment = some next →
      ∃ e ∈ epochs, e.calcCommitment digest = next)
    (hheight : IbcHeight.new 1 header.blockHeader.blockHeight.val = .ok height)
    (happlied : Applied (clientState ctx) header height ctx ctx') :
    Faithful digest genesisHash blocks epochs ctx' := by
  obtain ⟨hgenesis, hfrozen⟩ := withHeader_kept (clientState ctx) header
  have hepochs : (∃ e ∈ epochs, e.calcCommitment digest = (clientState ctx').epochCommitment) ∧
      ∃ e ∈ epochs, e.calcCommitment digest = (clientState ctx').prevEpochCommitment := by
    rw [happlied.client]
    rcases withHeader_epochs (clientState ctx) header with ⟨hcurrent, hprevious⟩ | ⟨hnext, hprevious⟩
    · rw [hcurrent, hprevious]
      exact ⟨h.epoch, h.prevEpoch⟩
    · rw [hprevious]
      exact ⟨hcommitment _ hnext, h.epoch⟩
  refine ⟨?_, hepochs.1, hepochs.2, ?_, ?_, ?_⟩
  · rw [happlied.client, hgenesis]
    exact h.genesisHash
  · rw [happlied.client, hfrozen]
    exact h.active
  · rw [happlied.client]
    rcases withHeader_latestHeight (clientState ctx) header with hlatest | hlatest
    · rw [hlatest]
      exact h.latest
    · exact ⟨header.blockHeader, hblock, hlatest⟩
  · intro k s hs
    rcases happlied.states k s hs with ⟨rfl, rfl⟩ | ⟨-, hold⟩
    · refine ⟨_, LawfulContext.tryInto_of _, ?_⟩
      unfold IbcHeight.new at hheight
      split at hheight
      · cases hheight
      · cases hheight
        refine ⟨rfl, header.blockHeader, hblock, rfl, ?_⟩
        rw [ConsensusState.ofHeader, ConsensusState.new, hhash]
    · exact h.states k s hold

/-- Blocks of the chain are never at odds with what the client holds. -/
theorem Faithful.check_header (h : Faithful digest genesisHash blocks epochs ctx)
    (hlinked : blocks.IsChain (BlockHeader.Follows digest)) {header : Header PK Sig}
    (hblock : header.blockHeader ∈ blocks) (hhash : header.blockHash = header.blockHeader.calcHash digest) {r : Bool}
    (hcheck : ClientState.checkForMisbehaviourInHeader ctx header = .ok r) : r = false := by
  cases hheight : IbcHeight.new 1 header.blockHeader.blockHeight.val with
  | error e =>
    unfold ClientState.checkForMisbehaviourInHeader at hcheck
    rw [hheight] at hcheck
    cases hcheck
  | ok height =>
    have hagrees : ClientState.checkForMisbehaviourInHeader ctx header = .ok false := by
      refine checkForMisbehaviour_agrees hheight ?_
      intro k s hs
      obtain ⟨state, hstate, hnum, b, hb, hk, rfl⟩ := h.states k s hs
      obtain ⟨num, hk', hne⟩ := k
      cases hnum
      cases hk
      unfold IbcHeight.new at hheight
      split at hheight
      · cases hheight
      cases hheight
      refine ⟨_, hstate, ?_, ?_, ?_⟩
      · intro heq
        rcases precedes_trichotomy hlinked hb hblock with rfl | hlt | hlt
        · rw [ConsensusState.ofHeader, hhash]
          rfl
        · exact absurd (congrArg IbcHeight.revisionHeight heq) (Height.lt_iff.mp hlt.blockHeight).ne
        · exact absurd (congrArg IbcHeight.revisionHeight heq) (Height.lt_iff.mp hlt.blockHeight).ne'
      · intro hless
        have hlower := IbcHeight.revisionHeight_lt hless rfl
        rcases precedes_trichotomy hlinked hb hblock with rfl | hlt | hlt
        · exact absurd hlower (lt_irrefl _)
        · exact hlt.timestampNs
        · exact absurd hlower (Height.lt_iff.mp hlt.blockHeight).asymm
      · intro hless
        have hhigher := IbcHeight.revisionHeight_lt hless rfl
        rcases precedes_trichotomy hlinked hb hblock with rfl | hlt | hlt
        · exact absurd hhigher (lt_irrefl _)
        · exact absurd hhigher (Height.lt_iff.mp hlt.blockHeight).asymm
        · exact hlt.timestampNs
    cases hagrees.symm.trans hcheck
    rfl

omit [PubKey PK] in
/-- Nor are two blocks of the chain at odds with each other. -/
theorem check_misbehaviour (hlinked : blocks.IsChain (BlockHeader.Follows digest)) {m : Misbehaviour PK Sig}
    (h1 : m.header1.blockHeader ∈ blocks) (h2 : m.header2.blockHeader ∈ blocks)
    (hhash1 : m.header1.blockHash = m.header1.blockHeader.calcHash digest)
    (hhash2 : m.header2.blockHash = m.header2.blockHeader.calcHash digest) :
    ClientState.checkForMisbehaviourInMisbehaviour m = false := by
  unfold ClientState.checkForMisbehaviourInMisbehaviour
  rcases precedes_trichotomy hlinked h1 h2 with heq | hlt | hlt
  · simp [heq, hhash1, hhash2]
  · simp only [if_neg hlt.blockHeight.ne, compare_lt_iff_lt.mpr hlt.blockHeight, compare_lt_iff_lt.mpr hlt.timestampNs]
    rfl
  · simp only [if_neg hlt.blockHeight.ne', compare_gt_iff_gt.mpr hlt.blockHeight,
      compare_gt_iff_gt.mpr hlt.timestampNs]
    rfl

end

end

/-- The chain and its clients. -/
structure Relayed (ι PK Sig Ctx : Type) where
  chain : ChainRun PK Sig
  clients : ι → Ctx

section

variable [LawfulContext Ctx AnyState] [PubKey PK] (digest : List Byte → CryptoHash) (codec : KeyCodec PK Sig)
  (W : Proto.Wire ε) (verifier : Verifier PK Sig) (honest : PK → Prop) (genesis : BlockHeader) (genesisEpoch : Epoch PK)

/-- No header in the message is forged. -/
def Relayable (chain : ChainRun PK Sig) (any : Any) : Prop :=
  ∀ message, ClientMessage.tryFromAny digest codec W any = .ok message → ∀ header ∈ message.headers,
    Unforged digest verifier honest (genesis.calcHash digest) (chain.blocks genesis) (chain.epochs genesisEpoch) header

/-- IBC verifies the message and either updates the client or freezes it. -/
inductive ClientMove (chain : ChainRun PK Sig) (ctx ctx' : Ctx) : Prop
  | update (any : Any) (r : Except (HandlerError ε) (List IbcHeight))
      (hany : Relayable digest codec W verifier honest genesis genesisEpoch chain any)
      (hverify : (clientState ctx).verifyClientMessage digest codec W verifier any = .ok ())
      (hcheck : ClientState.checkForMisbehaviour digest codec W ctx any = .ok false)
      (hrun : ((clientState ctx).updateState digest codec W any).run ctx = (r, ctx'))
  | freeze (any : Any) (r : Except (HandlerError ε) Unit)
      (hany : Relayable digest codec W verifier honest genesis genesisEpoch chain any)
      (hverify : (clientState ctx).verifyClientMessage digest codec W verifier any = .ok ())
      (hcheck : ClientState.checkForMisbehaviour digest codec W ctx any = .ok true)
      (hrun : ((clientState ctx).updateStateOnMisbehaviour any).run ctx = (r, ctx'))
  | wait (hkept : Kept ctx ctx')

/-- Either something is called on the chain or one of the clients moves. -/
inductive RelayStep (E : Type) [OfUpdateCandidateError E] {ι : Type} (s s' : Relayed ι PK Sig Ctx) : Prop
  | call (c : Call PK Sig E) (hchain : s.chain.step digest verifier c = some s'.chain) (hclients : s'.clients = s.clients)
  | move (i : ι) (hchain : s'.chain = s.chain) (hothers : ∀ j, j ≠ i → s'.clients j = s.clients j)
      (hmove : ClientMove digest codec W verifier honest genesis genesisEpoch s.chain (s.clients i) (s'.clients i))

/-- A client created from the genesis block whose epoch is the only one it knows. -/
structure Opened (ctx : Ctx) : Prop extends Initialised digest genesis ctx where
  prevEpoch : (clientState ctx).prevEpochCommitment = (clientState ctx).epochCommitment
  active : (clientState ctx).isFrozen = false

end

section

variable [LawfulContext Ctx AnyState] [PubKey PK] {digest : List Byte → CryptoHash} {codec : KeyCodec PK Sig}
  {W : Proto.Wire ε} {verifier : Verifier PK Sig} {honest : PK → Prop} {genesis : BlockHeader} {genesisEpoch : Epoch PK}
  {chain : ChainRun PK Sig} {ctx ctx' : Ctx} {any : Any}

omit [LawfulContext Ctx AnyState] in
/-- A header of a block of the chain is not forged, whoever signed it. -/
theorem relayable_of_block {header : Header PK Sig} (hread : Header.tryFromAny digest codec W any = .ok header)
    (hblock : header.blockHeader ∈ chain.blocks genesis)
    (hfingerprint : header.fingerprint = Fingerprint.new digest (genesis.calcHash digest) header.blockHeader)
    (hblocks : ∀ b ∈ chain.blocks genesis, digest header.blockHeader.serialize = digest b.serialize →
      header.blockHeader.serialize = b.serialize)
    (hepochs : ∀ e ∈ chain.epochs genesisEpoch, digest header.epoch.serialize = digest e.serialize →
      header.epoch.serialize = e.serialize) :
    Relayable digest codec W verifier honest genesis genesisEpoch chain any := by
  intro message hmessage header' hheader'
  cases (ClientMessage.tryFromAny_header hread).symm.trans hmessage
  cases List.mem_singleton.mp hheader'
  exact ⟨hblocks, hepochs, fun _ _ _ _ _ _ => ⟨header.blockHeader, hblock, hfingerprint⟩⟩

omit [LawfulContext Ctx AnyState] [PubKey PK] in
theorem verifyClientMessage_ok {c : ClientState} (h : c.verifyClientMessage digest codec W verifier any = .ok ()) :
    ∃ message, ClientMessage.tryFromAny digest codec W any = .ok message ∧
      ∀ header ∈ message.headers, c.verifyHeader verifier header = .ok () := by
  unfold ClientState.verifyClientMessage at h
  cases hread : ClientMessage.tryFromAny digest codec W any with
  | error e =>
    rw [hread] at h
    cases h
  | ok message =>
    rw [hread] at h
    have hverify : c.doVerifyClientMessage verifier message = .ok () := mapError_ok h
    refine ⟨message, rfl, ?_⟩
    cases message with
    | header header =>
      intro header' hheader'
      cases List.mem_singleton.mp hheader'
      exact hverify
    | misbehaviour m =>
      change c.verifyMisbehaviour verifier m = .ok () at hverify
      unfold ClientState.verifyMisbehaviour at hverify
      split at hverify
      · cases hverify
      cases h1 : c.verifyHeader verifier m.header1 with
      | error e =>
        rw [h1] at hverify
        cases hverify
      | ok u =>
        rw [h1] at hverify
        intro header hheader
        rcases List.mem_cons.mp hheader with rfl | hheader
        · exact h1
        · cases List.mem_singleton.mp hheader
          exact hverify

omit [PubKey PK] in
theorem checkForMisbehaviour_ok {r : Bool} (h : ClientState.checkForMisbehaviour digest codec W ctx any = .ok r)
    {message : ClientMessage PK Sig} (hread : ClientMessage.tryFromAny digest codec W any = .ok message) :
    ClientState.doCheckForMisbehaviour ctx message = .ok r := by
  unfold ClientState.checkForMisbehaviour at h
  rw [hread] at h
  exact mapError_ok h

omit [PubKey PK] in
/-- Either the message is not a header and nothing happens, or the header is applied. -/
theorem updateState_run {c : ClientState} {r : Except (HandlerError ε) (List IbcHeight)}
    (h : (c.updateState digest codec W any).run ctx = (r, ctx')) : ctx' = ctx ∨
      ∃ header r', Header.tryFromAny digest codec W any = .ok header ∧ (c.doUpdateState header).run ctx = (r', ctx') := by
  unfold ClientState.updateState at h
  cases hread : Header.tryFromAny digest codec W any with
  | error e =>
    rw [hread] at h
    exact Or.inl (Prod.mk.inj h).2.symm
  | ok header =>
    rw [hread] at h
    exact Or.inr ⟨header, ((c.doUpdateState header).run ctx).1, rfl, Prod.ext rfl (Prod.mk.inj h).2⟩

section

variable [DecidablePred honest] (hpk : Reader.Reads codec.readPubKey (fun _ => True) PubKey.serialize)
  (hshort : ∀ e ∈ chain.epochs genesisEpoch, e.corruptStake honest < e.quorumStake.get)
  (hinv : Inv digest verifier genesis genesisEpoch chain)
  (hfaithful : Faithful digest (genesis.calcHash digest) (chain.blocks genesis) (chain.epochs genesisEpoch) ctx)
  (hany : Relayable digest codec W verifier honest genesis genesisEpoch chain any)
  (hverify : (clientState ctx).verifyClientMessage digest codec W verifier any = .ok ())

include hpk hshort hfaithful hany hverify

theorem Faithful.verified : ∃ message, ClientMessage.tryFromAny digest codec W any = .ok message ∧
    ∀ header ∈ message.headers, header.blockHeader ∈ chain.blocks genesis ∧
      header.blockHash = header.blockHeader.calcHash digest := by
  obtain ⟨message, hread, hheaders⟩ := verifyClientMessage_ok hverify
  have hdelimiting : SelfDelimiting (PubKey.serialize : PK → List Byte) :=
    fun _ _ _ _ h => hpk.write_append_inj trivial trivial h
  refine ⟨message, hread, fun header hheader => ?_⟩
  exact (accepted_is_block hdelimiting hshort hfaithful.epoch hfaithful.prevEpoch
    (ClientMessage.tryFromAny_derived hpk hread header hheader) (hany message hread header hheader)
    (hheaders header hheader)).2

include hinv

/-- An honest chain is not accused of anything. -/
theorem Faithful.not_accused : ClientState.checkForMisbehaviour digest codec W ctx any ≠ .ok true := by
  obtain ⟨message, hread, hblocks⟩ := hfaithful.verified hpk hshort hany hverify
  intro hcheck
  have hcheck := checkForMisbehaviour_ok hcheck hread
  cases message with
  | header header =>
    obtain ⟨hblock, hhash⟩ := hblocks header List.mem_cons_self
    cases hfaithful.check_header hinv.blocks_linked hblock hhash hcheck
  | misbehaviour m =>
    obtain ⟨hblock1, hhash1⟩ := hblocks m.header1 List.mem_cons_self
    obtain ⟨hblock2, hhash2⟩ := hblocks m.header2 (List.mem_cons_of_mem _ List.mem_cons_self)
    have hfalse := check_misbehaviour hinv.blocks_linked hblock1 hblock2 hhash1 hhash2
    cases hfalse.symm.trans (Except.ok.inj hcheck)

theorem Faithful.updated (hgenesis : genesis.nextEpochCommitment = some (genesisEpoch.calcCommitment digest))
    {r : Except (HandlerError ε) (List IbcHeight)}
    (hrun : ((clientState ctx).updateState digest codec W any).run ctx = (r, ctx')) :
    Faithful digest (genesis.calcHash digest) (chain.blocks genesis) (chain.epochs genesisEpoch) ctx' := by
  obtain ⟨message, hmessage, hblocks⟩ := hfaithful.verified hpk hshort hany hverify
  rcases updateState_run hrun with rfl | ⟨header, r', hread, hrun⟩
  · exact hfaithful
  cases hmessage.symm.trans (ClientMessage.tryFromAny_header hread)
  obtain ⟨hblock, hhash⟩ := hblocks header List.mem_cons_self
  have hends := (clientState ctx).doUpdateState_ends header ctx
  cases r' with
  | error e =>
    obtain ⟨rfl, -⟩ := hends.of_error hrun
    exact hfaithful
  | ok heights =>
    obtain ⟨height, hheight, -, ⟨-, hkept⟩ | happlied⟩ := hends.of_ok hrun
    · exact hfaithful.kept hkept
    · exact hfaithful.applied hblock hhash (fun next hnext => hinv.commitment_mem hgenesis hblock hnext) hheight happlied

end

/-- Whatever a client is given, what it knows is so on the chain. -/
theorem ClientMove.faithful [DecidablePred honest] (hpk : Reader.Reads codec.readPubKey (fun _ => True) PubKey.serialize)
    (hgenesis : genesis.nextEpochCommitment = some (genesisEpoch.calcCommitment digest))
    (hshort : ∀ e ∈ chain.epochs genesisEpoch, e.corruptStake honest < e.quorumStake.get)
    (hinv : Inv digest verifier genesis genesisEpoch chain)
    (hmove : ClientMove digest codec W verifier honest genesis genesisEpoch chain ctx ctx')
    (h : Faithful digest (genesis.calcHash digest) (chain.blocks genesis) (chain.epochs genesisEpoch) ctx) :
    Faithful digest (genesis.calcHash digest) (chain.blocks genesis) (chain.epochs genesisEpoch) ctx' := by
  cases hmove with
  | update any r hany hverify hcheck hrun => exact h.updated hpk hshort hinv hany hverify hgenesis hrun
  | freeze any r hany hverify hcheck hrun => exact absurd hcheck (h.not_accused hpk hshort hinv hany hverify)
  | wait hkept => exact h.kept hkept

section

variable {ι E : Type} [OfUpdateCandidateError E] {s s' s₀ : Relayed ι PK Sig Ctx}

theorem RelayStep.extends (h : RelayStep digest codec W verifier honest genesis genesisEpoch E s s') :
    ∃ stateRoot, ChainRun.Extends genesis genesisEpoch stateRoot s.chain s'.chain := by
  cases h with
  | call c hchain hclients => exact ⟨_, ChainRun.step_extends hchain⟩
  | move i hchain hothers hmove =>
    rw [hchain]
    exact ⟨none, .of_manager rfl⟩

variable (digest verifier genesis genesisEpoch) in
/-- The chain keeps its invariant and clients know nothing but the chain. -/
structure Sound (s : Relayed ι PK Sig Ctx) : Prop where
  chain : Inv digest verifier genesis genesisEpoch s.chain
  clients : ∀ i, Faithful digest (genesis.calcHash digest) (s.chain.blocks genesis) (s.chain.epochs genesisEpoch)
    (s.clients i)

theorem Opened.faithful (hgenesis : genesis.nextEpochCommitment = some (genesisEpoch.calcCommitment digest))
    (h : Opened digest genesis ctx) : Faithful digest (genesis.calcHash digest) (chain.blocks genesis)
      (chain.epochs genesisEpoch) ctx := by
  have hepoch : genesisEpoch.calcCommitment digest = (clientState ctx).epochCommitment :=
    Option.some.inj (hgenesis.symm.trans h.epochCommitment)
  have hmem := chain.genesisEpoch_mem_epochs genesisEpoch
  refine ⟨h.genesisHash, ⟨genesisEpoch, hmem, hepoch⟩, ⟨genesisEpoch, hmem, hepoch.trans h.prevEpoch.symm⟩, h.active,
    ⟨genesis, chain.genesis_mem_blocks genesis, h.latestHeight⟩, ?_⟩
  intro k state hs
  obtain ⟨hnum, hheight, hstate⟩ := h.states k state hs
  exact ⟨_, hstate, hnum, genesis, chain.genesis_mem_blocks genesis, hheight, rfl⟩

theorem Sound.step [DecidablePred honest] (hpk : Reader.Reads codec.readPubKey (fun _ => True) PubKey.serialize)
    (hgenesis : genesis.nextEpochCommitment = some (genesisEpoch.calcCommitment digest))
    (hshort : ∀ e ∈ s.chain.epochs genesisEpoch, e.corruptStake honest < e.quorumStake.get)
    (hstep : RelayStep digest codec W verifier honest genesis genesisEpoch E s s')
    (h : Sound digest verifier genesis genesisEpoch s) : Sound digest verifier genesis genesisEpoch s' := by
  obtain ⟨_, hextends⟩ := hstep.extends
  cases hstep with
  | call c hchain hclients =>
    refine ⟨h.chain.step c hchain, fun i => ?_⟩
    rw [hclients]
    exact (h.clients i).mono hextends.blocks hextends.epochs
  | move i hchain hothers hmove =>
    refine ⟨hchain ▸ h.chain, fun j => ?_⟩
    rw [hchain]
    by_cases hj : j = i
    · rw [hj]
      exact hmove.faithful hpk hgenesis hshort h.chain (h.clients i)
    · rw [hothers j hj]
      exact h.clients j

/-- Of the epochs at the end of a run all earlier ones are some. -/
theorem Sound.run [DecidablePred honest] (hpk : Reader.Reads codec.readPubKey (fun _ => True) PubKey.serialize)
    (hgenesis : genesis.nextEpochCommitment = some (genesisEpoch.calcCommitment digest))
    (hrun : Relation.ReflTransGen (RelayStep digest codec W verifier honest genesis genesisEpoch E) s₀ s)
    (hshort : ∀ e ∈ s.chain.epochs genesisEpoch, e.corruptStake honest < e.quorumStake.get)
    (h : Sound digest verifier genesis genesisEpoch s₀) : Sound digest verifier genesis genesisEpoch s := by
  induction hrun with
  | refl => exact h
  | tail _ hstep ih =>
    obtain ⟨_, hextends⟩ := hstep.extends
    have hshort' := fun e he => hshort e (hextends.epochs he)
    exact (ih hshort').step hpk hgenesis hshort' hstep

theorem RelayStep.calls {clients : ι → Ctx} (calls : List (Call PK Sig E)) {chain chain' : ChainRun PK Sig}
    (h : calls.foldlM (ChainRun.step digest verifier) chain = some chain') :
    Relation.ReflTransGen (RelayStep digest codec W verifier honest genesis genesisEpoch E) ⟨chain, clients⟩
      ⟨chain', clients⟩ := by
  induction calls generalizing chain with
  | nil =>
    cases h
    exact .refl
  | cons c calls ih =>
    obtain ⟨next, hnext, hrest⟩ := Option.bind_eq_some_iff.mp h
    exact Relation.ReflTransGen.head (b := ⟨next, clients⟩) (.call c hnext rfl) (ih hrest)

/-- While the rest are short of a quorum in every epoch, clients hold blocks of the chain and agree on them, whoever
relays what, and cannot be made to freeze. -/
theorem honest_chain_is_relayed [DecidablePred honest] {config : Config} {blockHeight : BlockHeight}
    {hostHeight : HostHeight} {timestampNs : NonZeroU64} {stateRoot : CryptoHash} {m : ChainManager PK}
    {clients : ι → Ctx} (hpk : Reader.Reads codec.readPubKey (fun _ => True) PubKey.serialize)
    (hnew : ChainManager.new digest config
      (Block.generateGenesis digest blockHeight hostHeight timestampNs stateRoot genesisEpoch) = some (.ok m))
    (hgenesis : genesis =
      (Block.generateGenesis digest blockHeight hostHeight timestampNs stateRoot genesisEpoch).header)
    (hopened : ∀ i, Opened digest genesis (clients i))
    (hrun : Relation.ReflTransGen (RelayStep digest codec W verifier honest genesis genesisEpoch E)
      ⟨ChainRun.start m, clients⟩ s)
    (hshort : ∀ e ∈ s.chain.epochs genesisEpoch, e.corruptStake honest < e.quorumStake.get) :
    (s.chain.blocks genesis).IsChain (BlockHeader.Follows digest) ∧
    (∀ i, Faithful digest (genesis.calcHash digest) (s.chain.blocks genesis) (s.chain.epochs genesisEpoch)
      (s.clients i)) ∧
    (∀ i any, Relayable digest codec W verifier honest genesis genesisEpoch s.chain any →
      (clientState (s.clients i)).verifyClientMessage digest codec W verifier any = .ok () →
      ClientState.checkForMisbehaviour digest codec W (s.clients i) any ≠ .ok true) ∧
    ∀ i j h a b, stored (s.clients i) h = some a → stored (s.clients j) h = some b →
      CommonContext.tryInto Ctx a = CommonContext.tryInto Ctx b := by
  have hcommitment : genesis.nextEpochCommitment = some (genesisEpoch.calcCommitment digest) := by
    rw [hgenesis]
    rfl
  have hstart : Inv digest verifier genesis genesisEpoch (ChainRun.start m) := hgenesis ▸ Inv.start hnew
  have hsound := Sound.run hpk hcommitment hrun hshort ⟨hstart, fun i => (hopened i).faithful hcommitment⟩
  refine ⟨hsound.chain.blocks_linked, hsound.clients, ?_, ?_⟩
  · intro i any hany hverify
    exact (hsound.clients i).not_accused hpk hshort hsound.chain hany hverify
  · intro i j h a b ha hb
    obtain ⟨state, hstate, -, block, hblock, hheight, rfl⟩ := (hsound.clients i).states h a ha
    obtain ⟨state', hstate', -, block', hblock', hheight', rfl⟩ := (hsound.clients j).states h b hb
    rw [hstate, hstate']
    have hsame : block.blockHeight.val = block'.blockHeight.val := hheight.symm.trans hheight'
    rcases precedes_trichotomy hsound.chain.blocks_linked hblock hblock' with rfl | hlt | hlt
    · rfl
    · exact absurd hsame (Height.lt_iff.mp hlt.blockHeight).ne
    · exact absurd hsame (Height.lt_iff.mp hlt.blockHeight).ne'

end

end

def mockCodec : KeyCodec MockPubKey MockSignature where
  readPubKey := do
    let n ← readNum 4
    Reader.ofOption .unexpectedLength (if h : n < 2 ^ 32 then some ⟨n, h⟩ else none)
  toVec signature :=
    beBytes 4 signature.fingerprint.1 ++ beBytes 8 signature.fingerprint.2.1 ++ beBytes 4 signature.fingerprint.2.2 ++
      beBytes 4 signature.signer.val
  fromBytes bytes :=
    let num := fun start size => ofLeBytes ((bytes.drop start).take size).reverse
    if bytes.length = 20 then some ⟨(num 0 4, num 4 8, num 12 4), Fin.ofNat (2 ^ 32) (num 16 4)⟩ else none

theorem mockCodec_reads : Reader.Reads mockCodec.readPubKey (fun _ => True) PubKey.serialize := by
  intro s key rest
  simp only [mockCodec, Reader.bind_eq_ok, readNum_eq_ok, Reader.ofOption_eq_ok, Option.dite_none_right_eq_some,
    Option.some_inj, true_and]
  constructor
  · rintro ⟨n, mid, ⟨-, rfl⟩, ⟨-, rfl⟩, rfl⟩
    rfl
  · rintro rfl
    exact ⟨key.val, rest, ⟨key.isLt, rfl⟩, ⟨key.isLt, rfl⟩, rfl⟩

def sampleRelayed : Header MockPubKey MockSignature := sampleHeader sampleDigest sampleEpochEnd sampleEpoch [(2, 3), (1, 2)]

/-- Messages of which all are the given header. -/
def mockWire (relayed : Header MockPubKey MockSignature) : Proto.Wire Unit where
  header _ := (relayed.toProto mockCodec).elim (.error ()) .ok
  misbehaviour _ := .error ()
  clientMessage _ := .error ()
  consensusState _ := .error ()

def sampleWire : Proto.Wire Unit := mockWire sampleRelayed

def sampleAny : Any := ⟨Proto.Header.ibcTypeUrl, []⟩

theorem mockWire_read {digest : List Byte → CryptoHash} {relayed : Header MockPubKey MockSignature}
    (hderived : relayed.Derived digest) (hsome : (relayed.toProto mockCodec).isSome = true)
    (hsignatures : (relayed.signatures.map (signatureToProto mockCodec)).mapM (signatureFromProto mockCodec) =
      some relayed.signatures) : Header.tryFromAny digest mockCodec (mockWire relayed) sampleAny = .ok relayed := by
  obtain ⟨msg, hmsg⟩ := Option.isSome_iff_exists.mp hsome
  have hread : Header.tryFrom digest mockCodec msg = some relayed := by
    refine (Header.tryFromImpl_eq_some mockCodec_reads).mpr ⟨Header.toProto_from hderived hmsg none, ?_⟩
    rw [(Header.toProto_eq_some.mp hmsg).2.2.2, hsignatures]
  have hurl : Proto.Header.ibcTypeUrl.isSuffixOf sampleAny.typeUrl = true := by decide
  simp only [Header.tryFromAny, tryFromAny, hurl, if_true, Header.decode, decodeWith, mockWire, hmsg, Option.elim_some,
    Except.mapError, bind, Except.bind, hread]

theorem sampleAny_read : Header.tryFromAny sampleDigest mockCodec sampleWire sampleAny = .ok sampleRelayed :=
  mockWire_read (Header.new_derived _ _ _ _ _) (by decide) (by decide)

/-- The third validator is not honest. -/
def sampleHonest (pk : MockPubKey) : Prop := pk ≠ 3

instance : DecidablePred sampleHonest := fun pk => inferInstanceAs (Decidable (pk ≠ 3))

theorem sampleRun_unforged : sampleRun.map (fun s =>
    decide (sampleEpochEnd ∈ s.blocks sampleGenesis.header) &&
    (s.blocks sampleGenesis.header).all (fun b =>
      decide (sampleDigest sampleEpochEnd.serialize = sampleDigest b.serialize → sampleEpochEnd.serialize = b.serialize)) &&
    (s.epochs sampleEpoch).all (fun e =>
      decide (sampleDigest sampleEpoch.serialize = sampleDigest e.serialize → sampleEpoch.serialize = e.serialize) &&
        decide (e.corruptStake sampleHonest < e.quorumStake.get))) = some true := by
  decide +kernel

theorem sampleAny_relayable {chain : ChainRun MockPubKey MockSignature} (h : sampleRun = some chain) :
    Relayable sampleDigest mockCodec sampleWire MockSignature.verify sampleHonest sampleGenesis.header sampleEpoch chain
      sampleAny ∧
    ∀ e ∈ chain.epochs sampleEpoch, e.corruptStake sampleHonest < e.quorumStake.get := by
  have hall := sampleRun_unforged
  rw [h, Option.map_some, Option.some_inj, Bool.and_eq_true, Bool.and_eq_true] at hall
  obtain ⟨⟨hmem, hblocks⟩, hepochs⟩ := hall
  rw [List.all_eq_true] at hblocks hepochs
  simp only [Bool.and_eq_true, decide_eq_true_eq] at hmem hblocks hepochs
  refine ⟨relayable_of_block sampleAny_read hmem ?_ hblocks fun e he => (hepochs e he).1, fun e he => (hepochs e he).2⟩
  rw [sampleGenesis_hash]
  rfl

/-- The chain is four blocks further on when the last block of its first epoch is relayed. -/
theorem honest_chain_is_relayed_sample :
    ∃ chain r ctx, sampleRun = some chain ∧
      (sampleContext.clientState.updateState sampleDigest mockCodec sampleWire sampleAny).run sampleContext = (r, ctx) ∧
      (ctx.states.entries.map fun e => e.1.revisionHeight) = [1, 3] ∧
      Faithful sampleDigest (sampleGenesis.header.calcHash sampleDigest) (chain.blocks sampleGenesis.header)
        (chain.epochs sampleEpoch) ctx := by
  have hsome : sampleRun.isSome = true := by decide +kernel
  obtain ⟨chain, hchain⟩ := Option.isSome_iff_exists.mp hsome
  obtain ⟨m, hnew, hcalls⟩ := sampleRun_manager hchain
  obtain ⟨hany, hshort⟩ := sampleAny_relayable hchain
  have hread := ClientMessage.tryFromAny_header sampleAny_read
  have hverify : (clientState sampleContext).verifyClientMessage sampleDigest mockCodec sampleWire MockSignature.verify
      sampleAny = .ok () := by
    have hheader : sampleClient.verifyHeader MockSignature.verify sampleRelayed = .ok () := by decide
    rw [ClientState.verifyClientMessage, hread]
    exact congrArg (Except.mapError HandlerError.context) hheader
  have hcheck : ClientState.checkForMisbehaviour sampleDigest mockCodec sampleWire sampleContext sampleAny =
      .ok false := by
    have hheader : ClientState.doCheckForMisbehaviour sampleContext (.header sampleRelayed) = .ok false := by
      decide
    rw [ClientState.checkForMisbehaviour, hread]
    exact congrArg (Except.mapError HandlerError.context) hheader
  have hopened : Opened sampleDigest sampleGenesis.header sampleContext := ⟨sampleContext_initialised, rfl, rfl⟩
  have hheights : (((sampleContext.clientState.doUpdateState sampleRelayed).run sampleContext).2.states.entries.map
      fun e => e.1.revisionHeight) = [1, 3] := by decide
  rcases hrun : (sampleContext.clientState.updateState sampleDigest mockCodec sampleWire sampleAny).run sampleContext
    with ⟨r, ctx⟩
  have hcalled : Relation.ReflTransGen (RelayStep sampleDigest mockCodec sampleWire MockSignature.verify sampleHonest
      sampleGenesis.header sampleEpoch UpdateCandidateError) ⟨ChainRun.start m, fun _ : Unit => sampleContext⟩
      ⟨chain, fun _ => sampleContext⟩ := RelayStep.calls sampleCalls hcalls
  have hmoved := hcalled.tail (c := ⟨chain, fun _ => ctx⟩)
    (.move () rfl (fun _ hne => absurd rfl hne) (.update sampleAny r hany hverify hcheck hrun))
  refine ⟨chain, r, ctx, hchain, rfl, ?_, ?_⟩
  · rw [ClientState.updateState, sampleAny_read] at hrun
    rw [← (Prod.mk.inj hrun).2]
    exact hheights
  · exact (honest_chain_is_relayed mockCodec_reads hnew rfl (fun _ => hopened) hmoved hshort).2.1 ()

end CfGuest
