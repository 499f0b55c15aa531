import EmulatedLightClient.ObservedRollup

/-!
# Clients of the rollup

The host with the program, what is frozen of it slot by slot and any number of clients take steps in any order. Whoever
relays messages decides which client gets what, when and how often; what they cannot do is make up bank hashes. Clients
then hold nothing but what the program wrote, and no message makes them take the rollup for one which forked.
-/

namespace ObservedRollup

open ByteBits CfSolana FailingState MachineInts Nodes WitnessedTrie
open CfGuest (Any IbcHeight)
open CfSolana.LawfulContext (clientState stored)
open SealableTrie (emptyTrieRoot)
open WriteAccount (Host Pubkey systemProgram)

section

variable {ε Ctx AnyState : Type} [LawfulContext Ctx AnyState] {host : Host} {programId : Pubkey}
  {digest : List Byte → CryptoHash} {B : Blake3} {W : Proto.Wire ε} {S T : Set (List Byte)} {followed : Set Pubkey}
  {snapshots snapshots' : List Snapshot} {s : Snapshot} {root witness : Pubkey} {ctx ctx' : Ctx} {header : Header}

variable (host programId digest S) in
/-- All that the client knows was so on the rollup. -/
structure Follows (snapshots : List Snapshot) (root : Pubkey) (ctx : Ctx) : Prop where
  account : ∃ witness bump, findWitnessAccount host programId root = .ok (witness, bump) ∧
    (clientState ctx).witnessAccount = toPubKey witness
  active : (clientState ctx).isFrozen = false
  decodes : Decodes ctx
  states : ∀ h state, StateAt ctx h state → ∃ s ∈ snapshots, h = s.height ∧ Shows digest S s root state

theorem Follows.mono (h : Follows host programId digest S snapshots root ctx) (hsub : snapshots ⊆ snapshots') :
    Follows host programId digest S snapshots' root ctx := by
  refine ⟨h.account, h.active, h.decodes, ?_⟩
  intro k state hstate
  obtain ⟨s, hs, hheight, hshows⟩ := h.states k state hstate
  exact ⟨s, hsub hs, hheight, hshows⟩

theorem Follows.kept (h : Follows host programId digest S snapshots root ctx) (hkept : Kept ctx ctx') :
    Follows host programId digest S snapshots root ctx' := by
  obtain ⟨haccount, hactive, hdecodes, hstates⟩ := h
  rw [← hkept.client] at haccount hactive
  exact ⟨haccount, hactive, hdecodes.kept hkept, fun k state hstate => hstates k state (hstate.kept hkept)⟩

theorem Follows.applied {consensus : ConsensusState} (h : Follows host programId digest S snapshots root ctx)
    (hs : s ∈ snapshots) (htells : Tells digest S s root witness header)
    (happlied : Applied (clientState ctx) header consensus ctx ctx') :
    Follows host programId digest S snapshots root ctx' := by
  refine ⟨?_, ?_, h.decodes.applied happlied, ?_⟩
  · rw [happlied.client]
    exact h.account
  · rw [happlied.client]
    exact h.active
  · intro k state hstate
    rcases hstate.applied happlied with ⟨rfl, rfl⟩ | ⟨-, hold⟩
    · exact ⟨s, hs, htells.height, htells.shows happlied.state⟩
    · exact h.states k state hold

/-- A header which tells what was is not at odds with what the client holds. -/
theorem Follows.check_header (h : Follows host programId digest S snapshots root ctx)
    (hchronicle : Chronicle host programId digest B S T followed snapshots) (hs : s ∈ snapshots)
    (htells : Tells digest S s root witness header) : checkForMisbehaviourInHeader ctx header = .ok false := by
  refine checkForMisbehaviour_agrees h.decodes ?_ ?_ ?_
  · intro state hstate
    obtain ⟨s', hs', hheight, hshows⟩ := h.states _ state hstate
    cases hchronicle.eq_of_slot hs' hs (Snapshot.slot_of_height (hheight.symm.trans htells.height))
    obtain ⟨state', hstate', hshows'⟩ := htells.used hshows.used
    rw [hshows.unique hshows']
    exact hstate'
  · intro k hk state hstate time htime
    obtain ⟨s', hs', rfl, hshows⟩ := h.states k state hstate
    obtain ⟨state', hshows', rfl⟩ := htells.shows_of_time htime
    rw [htells.height, Snapshot.height_lt_iff] at hk
    exact hchronicle.times hs' hs hk hshows hshows'
  · intro k hk state hstate time htime
    obtain ⟨s', hs', rfl, hshows⟩ := h.states k state hstate
    obtain ⟨state', hshows', rfl⟩ := htells.shows_of_time htime
    rw [htells.height, Snapshot.height_lt_iff] at hk
    exact hchronicle.times hs hs' hk hshows' hshows

variable (digest B S T W) in
/-- No header in the message has a bank hash which was made up. -/
def Relayable (snapshots : List Snapshot) (any : Any) : Prop :=
  ∀ message, ClientMessage.tryFromAny W any.typeUrl any.value = pure message →
    ∀ header ∈ message.headers, Genuine digest B S T snapshots header

variable {any : Any}

/-- What was verified tells what was. -/
theorem Follows.tells (hc : Collisionless digest B S T) (hstreams : B.Streams)
    (h : Follows host programId digest S snapshots root ctx)
    (hchronicle : Chronicle host programId digest B S T followed snapshots) (hroot : root ∈ followed)
    (hany : Relayable digest B W S T snapshots any)
    (hverify : (clientState ctx).verifyClientMessage W digest B any = .ok ()) :
    ∃ message witness, ClientMessage.tryFromAny W any.typeUrl any.value = pure message ∧
      ∀ header ∈ message.headers, ∃ s ∈ snapshots, Tells digest S s root witness header := by
  obtain ⟨message, hmessage, hverified⟩ := ClientState.Full.verifyClientMessage_ok hverify
  obtain ⟨witness, bump, hfind, haccount⟩ := h.account
  refine ⟨message, witness, hmessage, fun header hheader => ?_⟩
  have hgenuine := hany message hmessage header hheader
  exact hgenuine.tells hc hstreams hchronicle hroot hfind (haccount ▸ hverified header hheader)

/-- Nothing that is relayed is taken for evidence. -/
theorem Follows.check (hc : Collisionless digest B S T) (hstreams : B.Streams)
    (h : Follows host programId digest S snapshots root ctx)
    (hchronicle : Chronicle host programId digest B S T followed snapshots) (hroot : root ∈ followed)
    (hany : Relayable digest B W S T snapshots any)
    (hverify : (clientState ctx).verifyClientMessage W digest B any = .ok ()) :
    checkForMisbehaviour W ctx any = .ok false := by
  obtain ⟨message, witness, hmessage, htells⟩ := h.tells hc hstreams hchronicle hroot hany hverify
  have hcheck : doCheckForMisbehaviour ctx message = .ok false := by
    cases message with
    | header header =>
      obtain ⟨s, hs, htells⟩ := htells header List.mem_cons_self
      exact h.check_header hchronicle hs htells
    | misbehaviour m =>
      obtain ⟨s, hs, htells₁⟩ := htells m.header1 List.mem_cons_self
      obtain ⟨s', hs', htells₂⟩ := htells m.header2 (List.mem_cons_of_mem _ List.mem_cons_self)
      exact congrArg Except.ok (htells₁.check hchronicle hs hs' htells₂)
  rw [checkForMisbehaviour, hmessage]
  exact mapError_ok.mpr hcheck

variable (digest B S T W) in
/-- IBC verifies the message and either updates the client or freezes it. -/
inductive ClientMove (snapshots : List Snapshot) (ctx ctx' : Ctx) : Prop
  | update (any : Any) (r : Except (HandlerError ε) (List IbcHeight)) (hany : Relayable digest B W S T snapshots any)
      (hverify : (clientState ctx).verifyClientMessage W digest B any = .ok ())
      (hcheck : checkForMisbehaviour W ctx any = .ok false) (hrun : ((clientState ctx).updateState W any).run ctx = (r, ctx'))
  | freeze (any : Any) (r : Except (HandlerError ε) Unit) (hany : Relayable digest B W S T snapshots any)
      (hverify : (clientState ctx).verifyClientMessage W digest B any = .ok ())
      (hcheck : checkForMisbehaviour W ctx any = .ok true)
      (hrun : ((clientState ctx).updateStateOnMisbehaviour any).run ctx = (r, ctx'))
  | wait (hkept : Kept ctx ctx')

theorem Follows.move (hc : Collisionless digest B S T) (hstreams : B.Streams)
    (h : Follows host programId digest S snapshots root ctx)
    (hchronicle : Chronicle host programId digest B S T followed snapshots) (hroot : root ∈ followed)
    (hmove : ClientMove digest B W S T snapshots ctx ctx') : Follows host programId digest S snapshots root ctx' := by
  cases hmove with
  | update any r hany hverify hcheck hrun =>
    obtain ⟨message, witness, hmessage, htells⟩ := h.tells hc hstreams hchronicle hroot hany hverify
    rcases updateState_run hrun with rfl | ⟨header, r', hread, hrun⟩
    · exact h
    cases hmessage.symm.trans (ClientMessage.tryFromAny_header hread)
    obtain ⟨s, hs, htells⟩ := htells header List.mem_cons_self
    have hends := (clientState ctx).doUpdateState_ends header ctx
    cases r' with
    | error e => exact h.kept (hends.of_error hrun)
    | ok heights =>
      obtain ⟨-, ⟨-, hkept⟩ | ⟨consensus, happlied⟩⟩ := hends.of_ok hrun
      · exact h.kept hkept
      · exact h.applied hs htells happlied
  | freeze any r hany hverify hcheck hrun =>
    -- There is no evidence to freeze the client with.
    cases (h.check hc hstreams hchronicle hroot hany hverify).symm.trans hcheck
  | wait hkept => exact h.kept hkept

end

/-- The host, what has been frozen of it and those of the clients which have been created. -/
structure World (ι Ctx : Type) where
  ledger : Ledger
  snapshots : List Snapshot
  clients : ι → Option Ctx

section

variable {ι ε Ctx AnyState : Type} [LawfulContext Ctx AnyState] (host : Host) (programId : Pubkey)
  (digest : List Byte → CryptoHash) (B : Blake3) (W : Proto.Wire ε) (S T : Set (List Byte)) (follows : ι → Pubkey)

/-- Something is done on the host, a slot is frozen, a client is created with what is so, or one of the clients moves. -/
inductive WorldStep (w w' : World ι Ctx) : Prop
  | execute (hledger : LedgerStep host programId digest S w.ledger w'.ledger) (hsnapshots : w'.snapshots = w.snapshots)
      (hclients : w'.clients = w.clients)
  | freeze (f : FrozenSlot) (hlater : ∀ s ∈ w.snapshots, s.slot < f.slot)
      (hfreezes : Freezes digest B S T w.ledger.bank f) (hledger : w'.ledger = w.ledger)
      (hsnapshots : w'.snapshots = w.snapshots ++ [⟨f, w.ledger⟩]) (hclients : w'.clients = w.clients)
  | create (i : ι) (ctx : Ctx) (hnew : w.clients i = none)
      (hfollows : Follows host programId digest S w.snapshots (follows i) ctx) (hledger : w'.ledger = w.ledger)
      (hsnapshots : w'.snapshots = w.snapshots) (hclient : w'.clients i = some ctx)
      (hothers : ∀ j ≠ i, w'.clients j = w.clients j)
  | move (i : ι) (ctx ctx' : Ctx) (hold : w.clients i = some ctx) (hmove : ClientMove digest B W S T w.snapshots ctx ctx')
      (hledger : w'.ledger = w.ledger) (hsnapshots : w'.snapshots = w.snapshots) (hclient : w'.clients i = some ctx')
      (hothers : ∀ j ≠ i, w'.clients j = w.clients j)

/-- What holds of the host and its clients throughout. -/
structure Sound (w : World ι Ctx) : Prop where
  ledger : LedgerInv host programId digest S w.ledger
  chronicle : Chronicle host programId digest B S T (Set.range follows) w.snapshots
  past : ∀ s ∈ w.snapshots, s.ledger.done <+: w.ledger.done
  clients : ∀ i ctx, w.clients i = some ctx → Follows host programId digest S w.snapshots (follows i) ctx

end

section

variable {ι ε Ctx AnyState : Type} [LawfulContext Ctx AnyState] {host : Host} {programId : Pubkey}
  {digest : List Byte → CryptoHash} {B : Blake3} {W : Proto.Wire ε} {S T : Set (List Byte)} {follows : ι → Pubkey}
  {w w' : World ι Ctx}

theorem WorldStep.done_prefix (h : WorldStep host programId digest B W S T follows w w') :
    w.ledger.done <+: w'.ledger.done := by
  cases h with
  | execute hledger =>
    obtain ⟨later, hlater⟩ := hledger.done_sub
    exact ⟨later, hlater.symm⟩
  | freeze f hlater hfreezes hledger => rw [hledger]
  | create i ctx hnew hfollows hledger => rw [hledger]
  | move i ctx ctx' hold hmove hledger => rw [hledger]

theorem Chronicle.freeze {followed : Set Pubkey} {snapshots : List Snapshot} {s : Snapshot}
    (h : Chronicle host programId digest B S T followed snapshots) (hledger : LedgerInv host programId digest S s.ledger)
    (horderly : Orderly host programId followed s.ledger.done) (hfreezes : Freezes digest B S T s.ledger.bank s.frozen)
    (hlater : ∀ s' ∈ snapshots, s'.slot < s.slot) (hpast : ∀ s' ∈ snapshots, s'.ledger.done <+: s.ledger.done) :
    Chronicle host programId digest B S T followed (snapshots ++ [s]) where
  ledger := List.forall_mem_append.mpr ⟨h.ledger, List.forall_mem_singleton.mpr hledger⟩
  orderly := List.forall_mem_append.mpr ⟨h.orderly, List.forall_mem_singleton.mpr horderly⟩
  freezes := List.forall_mem_append.mpr ⟨h.freezes, List.forall_mem_singleton.mpr hfreezes⟩
  ordered := by
    refine List.pairwise_append.mpr ⟨h.ordered, List.pairwise_singleton _ _, fun s' hs' => ?_⟩
    exact List.forall_mem_singleton.mpr ⟨hlater s' hs', hpast s' hs'⟩

theorem Sound.step (hd : ∀ b, digest b ≠ emptyTrieRoot) (hsystem : programId ≠ systemProgram)
    (hc : Collisionless digest B S T) (hstreams : B.Streams) (h : Sound host programId digest B S T follows w)
    (horderly : Orderly host programId (Set.range follows) w'.ledger.done)
    (hstep : WorldStep host programId digest B W S T follows w w') : Sound host programId digest B S T follows w' := by
  have hpre := hstep.done_prefix
  obtain ⟨ledger, snapshots, clients⟩ := w
  obtain ⟨ledger', snapshots', clients'⟩ := w'
  cases hstep with
  | execute hledger hsnapshots hclients =>
    cases hsnapshots
    cases hclients
    refine ⟨h.ledger.step hd hsystem (horderly.separate.mono Set.subset_union_right) hledger, h.chronicle, ?_, h.clients⟩
    exact fun s hs => (h.past s hs).trans hpre
  | freeze f hlater hfreezes hledger hsnapshots hclients =>
    cases hledger
    cases hsnapshots
    cases hclients
    refine ⟨h.ledger, h.chronicle.freeze h.ledger horderly hfreezes hlater h.past, ?_, ?_⟩
    · exact List.forall_mem_append.mpr ⟨h.past, List.forall_mem_singleton.mpr (List.prefix_refl _)⟩
    · exact fun i ctx hctx => (h.clients i ctx hctx).mono (List.subset_append_left _ _)
  | create i ctx hnew hfollows hledger hsnapshots hclient hothers =>
    cases hledger
    cases hsnapshots
    refine ⟨h.ledger, h.chronicle, h.past, fun j ctx' hctx' => ?_⟩
    by_cases hj : j = i
    · subst hj
      cases hclient.symm.trans hctx'
      exact hfollows
    · exact h.clients j ctx' ((hothers j hj).symm.trans hctx')
  | move i ctx ctx' hold hmove hledger hsnapshots hclient hothers =>
    cases hledger
    cases hsnapshots
    refine ⟨h.ledger, h.chronicle, h.past, fun j ctx₁ hctx₁ => ?_⟩
    by_cases hj : j = i
    · subst hj
      cases hclient.symm.trans hctx₁
      exact (h.clients j ctx hold).move hc hstreams h.chronicle ⟨j, rfl⟩ hmove
    · exact h.clients j ctx₁ ((hothers j hj).symm.trans hctx₁)

/-- To begin with nothing is frozen and nobody follows. -/
theorem Sound.start {bank : Bank} (hfresh : ∀ key, Derived host programId key → (bank key).Unused) :
    Sound host programId digest B S T follows (⟨⟨bank, []⟩, [], fun _ => none⟩ : World ι Ctx) := by
  refine ⟨.start hfresh, ⟨?_, ?_, ?_, .nil⟩, ?_, ?_⟩
  · exact List.forall_mem_nil _
  · exact List.forall_mem_nil _
  · exact List.forall_mem_nil _
  · exact List.forall_mem_nil _
  · rintro i ctx ⟨⟩

theorem Sound.run (hd : ∀ b, digest b ≠ emptyTrieRoot) (hsystem : programId ≠ systemProgram)
    (hc : Collisionless digest B S T) (hstreams : B.Streams) (h : Sound host programId digest B S T follows w)
    (horderly : Orderly host programId (Set.range follows) w'.ledger.done)
    (hrun : Relation.ReflTransGen (WorldStep host programId digest B W S T follows) w w') :
    Sound host programId digest B S T follows w' := by
  induction hrun with
  | refl => exact h
  | tail _ hstep ih => exact (ih (horderly.of_prefix hstep.done_prefix)).step hd hsystem hc hstreams horderly hstep

/-- However instructions, slots and messages come, clients hold what the program wrote, those of one trie agree, none of
them is frozen and nothing that is relayed and verified is taken for evidence. -/
theorem rollup_is_followed (hd : ∀ b, digest b ≠ emptyTrieRoot) (hsystem : programId ≠ systemProgram)
    (hc : Collisionless digest B S T) (hstreams : B.Streams) {bank : Bank}
    (hfresh : ∀ key, Derived host programId key → (bank key).Unused)
    (hrun : Relation.ReflTransGen (WorldStep host programId digest B W S T follows)
      (⟨⟨bank, []⟩, [], fun _ => none⟩ : World ι Ctx) w)
    (horderly : Orderly host programId (Set.range follows) w.ledger.done) :
    (∀ i ctx, w.clients i = some ctx → Follows host programId digest S w.snapshots (follows i) ctx) ∧
    (∀ i j ctx ctx', w.clients i = some ctx → w.clients j = some ctx' → follows i = follows j →
      ∀ h a b, StateAt ctx h a → StateAt ctx' h b → a = b) ∧
    ∀ i ctx any, w.clients i = some ctx → Relayable digest B W S T w.snapshots any →
      (clientState ctx).verifyClientMessage W digest B any = .ok () → checkForMisbehaviour W ctx any = .ok false := by
  have hsound := (Sound.start hfresh).run hd hsystem hc hstreams horderly hrun
  refine ⟨hsound.clients, ?_, ?_⟩
  · intro i j ctx ctx' hctx hctx' hsame h a b ha hb
    obtain ⟨s, hs, rfl, hshows⟩ := (hsound.clients i ctx hctx).states h a ha
    obtain ⟨s', hs', hheight, hshows'⟩ := (hsound.clients j ctx' hctx').states _ b hb
    cases hsound.chronicle.eq_of_slot hs hs' (Snapshot.slot_of_height hheight)
    exact hshows.unique (hsame ▸ hshows')
  · intro i ctx any hctx hany hverify
    exact (hsound.clients i ctx hctx).check hc hstreams hsound.chronicle ⟨i, rfl⟩ hany hverify

end

namespace FollowedSample

open CfSolana.HashAccount SealableTrie
open SolanaTrie (Stored blockSize)
open SolanaTrie.Sample (hash)
open WitnessedTrie.ProgramSample
open RollupSample (any read_wireOf wireOf)

def key : List Byte := TrieIds.sampleCommitment.key

/-- Sets the commitment of a packet. -/
def ops : List Op := [.set key hash]

def instruction : List Byte := [1#8, 97#8, 254#8, 1#8, 0#8, 22#8] ++ key ++ hash.bytes

/-- SHA-256 of the only node of the trie. -/
def trieRoot : CryptoHash := hashOf 0xd4034cae06ac6c7e705c32a4644bd7601b5d7f0ea6b9b6ab2738ecdd6c5bb5fb

/-- BLAKE3 of the data of the two accounts. -/
def rootHash : CryptoHash := hashOf 0x5f407660a4222bc1811be007ad083f17411699aa21050dd15065c0e155c0155a

def witnessHash : CryptoHash := hashOf 0x497e676fff0bf7597272a43b74a0a33e63895bac6de094d74df32fd341b80e59

def accountsHash : CryptoHash := hashOf 0x0adc7ecbd2c18511af6fdfa4c0029de99df635e315e626d416d1a5af0fb10513

/-- SHA-256 of the node, of a block which is not used, of the hashes of the accounts and of the slot. -/
def table : List (List Byte × CryptoHash) :=
  [(extPreimage 0 (bitsOf key) (true, hash), trieRoot),
    (List.replicate 65 0#8, hashOf 0x98ce42deef51d40269d542f5314bef2c7468d401ad5d85168bfab4c0108f75f7),
    (concatHashes [witnessHash, rootHash], accountsHash),
    ((hashOf 1).bytes ++ accountsHash.bytes ++ leBytes 8 1 ++ (hashOf 2).bytes,
      hashOf 0x05406796e31475a845200081c689a07bba010a0a742e31b2ed8b7425bb89e12d)]

def digest : List Byte → CryptoHash := tableDigest table

def hashed : List (List Byte) := table.map Prod.fst

theorem digest_ne (b : List Byte) : digest b ≠ emptyTrieRoot := tableDigest_ne (by decide) b

theorem fromSlice_instruction : Data.fromSlice instruction = .ok ⟨[97#8], 254#8, ops⟩ := by decide +kernel

def witnessData : AccountHashData :=
  .new 1169280 (toPubKey program) false 0 (SolanaTrie.Witness.Data.new trieRoot clock).bytes (toPubKey witnessAccount)

def frozen : FrozenSlot where
  slot := NonZero.clamp 5
  parentBlockhash := hashOf 1
  numSigs := 1
  blockhash := hashOf 2
  epochAccountsHash := none
  accounts := [(toPubKey rootAccount, rootHash), (toPubKey witnessAccount, witnessHash)]

theorem frozen_inputs : ∀ b ∈ frozen.inputs digest, b ∈ hashed := by decide +kernel

def merkleProof : MerkleProof := (MerkleProof.default.pushLevel [witnessHash, rootHash] 0).getD .default

def header : Header := slotHeader digest frozen ⟨witnessData, merkleProof, by decide⟩

/-- The path leads to the hash of all accounts, and all that is hashed on it is in the table. -/
theorem merkleProof_leads : merkleProof.expectedRoot digest witnessHash = some (frozen.accountsDeltaHash digest) ∧
    ∀ b ∈ merkleProof.inputs digest witnessHash, b ∈ hashed := by
  decide +kernel

def client : ClientState.Full := { RollupSample.client with witnessAccount := toPubKey witnessAccount }

def created : MapContext := ⟨client, .empty⟩

def relayed : MapContext := ((client.updateState (wireOf header) any).run created).2

theorem relayed_eq : relayed = ((client.doUpdateState header).run created).2 :=
  updateState_of_header (read_wireOf header) client created

theorem relayed_slots : (relayed.states.entries.map fun e => e.1.revisionHeight) = [5] := by
  rw [relayed_eq]
  decide +kernel

theorem findWitnessAccount_root : findWitnessAccount host program rootAccount = .ok (witnessAccount, 255#8) := by
  decide

theorem header_agrees : checkForMisbehaviourInHeader created header = .ok false := by decide +kernel

/-- The block which is used. -/
def block : List Byte :=
  [0x85#8, 0x80#8] ++ key ++ List.replicate 12 0#8 ++ [0x40#8, 0#8, 0#8, 0#8] ++ hash.bytes

def zeros : List Byte := List.replicate 10096 0#8

/-- There is nothing but zeros behind the first two blocks. -/
def Padded (head bytes : List Byte) : Prop :=
  bytes.length = 10240 ∧ bytes.take 144 = head ∧ (bytes.drop 144).all (· = 0#8) = true

instance padded_decidable (head bytes : List Byte) : Decidable (Padded head bytes) :=
  inferInstanceAs (Decidable (_ ∧ _ ∧ _))

theorem Padded.eq {head bytes : List Byte} (h : Padded head bytes) : bytes = head ++ zeros := by
  obtain ⟨hlength, hhead, hzero⟩ := h
  have hdrop : bytes.drop 144 = zeros := by
    refine List.eq_replicate_iff.mpr ⟨?_, fun b hb => of_decide_eq_true (List.all_eq_true.mp hzero b hb)⟩
    rw [List.length_drop, hlength]
  rw [← hhead, ← hdrop, List.take_append_drop]

theorem length_zeroBlock : (List.replicate 72 0#8 : List Byte).length = 72 := List.length_replicate

theorem length_block : block.length = 72 := by decide

/-- Of the account nothing can be read but the node and blocks of zeros. -/
theorem decodes_of_stored {ptr : Option Memory.Ptr} {root : CryptoHash} {a : SolanaTrie.Allocator SolanaTrie.FixedData}
    (hdata : a.data.bytes = List.replicate 72 0#8 ++ block ++ zeros) {b : List Byte}
    (h : Stored (⟨ptr, root, .live a⟩ : Trie (SolanaTrie.Account SolanaTrie.FixedData)) b) :
    Decodes ⟨block, length_block⟩ b ∨ Decodes ⟨List.replicate 72 0#8, length_zeroBlock⟩ b := by
  obtain ⟨p, raw, hget, hdecodes⟩ := h
  obtain ⟨addr, haddr, hget⟩ := Option.bind_eq_some_iff.mp hget
  obtain ⟨bytes, hbytes, hget⟩ := Option.bind_eq_some_iff.mp hget
  split at hget
  swap
  · cases hget
  cases hget
  have husize := SolanaTrie.ofPtr_usize haddr
  have hnonzero : p.num.toNat ≠ 0 := fun h => p.nonzero (BitVec.eq_of_toNat_eq h)
  unfold SolanaTrie.DataRef.get at hbytes
  split at hbytes
  swap
  · cases hbytes
  rename_i hin
  have hlen : SolanaTrie.DataRef.len a.data = 10240 := by
    change a.data.bytes.length = 10240
    rw [hdata, zeros, List.length_append, List.length_append, List.length_replicate, List.length_replicate, length_block]
  have hslice : Buffers.slice (List.replicate 72 0#8 ++ block ++ zeros) addr.usize blockSize = bytes := by
    rw [← hdata]
    exact Option.some.inj hbytes
  have hoffset := SolanaTrie.offset_eq p
  have hsize : blockSize = 72 := rfl
  rcases Nat.lt_or_ge addr.usize 144 with hlt | hge
  · left
    have hat : addr.usize = 72 := by omega
    rw [hat] at hslice
    have hblock : bytes = block := by
      rw [← hslice]
      decide
    subst hblock
    exact hdecodes
  · right
    have hzero : bytes = List.replicate 72 0#8 := by
      have hhead : (List.replicate 72 0#8 ++ block).length = 144 := by
        rw [List.length_append, List.length_replicate, length_block]
      rw [← hslice, Buffers.slice, List.drop_append, hhead, List.drop_eq_nil_of_le (by omega), List.nil_append, zeros,
        List.drop_replicate, List.take_replicate, Nat.min_eq_left (by omega), hsize]
    subst hzero
    exact hdecodes

theorem mem_of_decodes {b : List Byte}
    (h : Decodes ⟨block, length_block⟩ b ∨ Decodes ⟨List.replicate 72 0#8, length_zeroBlock⟩ b) : b ∈ hashed := by
  have hblock : (RawNode.decode ⟨block, length_block⟩).toOption.map Node.preimage = hashed[0]? := by decide +kernel
  have hzero : (RawNode.decode ⟨List.replicate 72 0#8, length_zeroBlock⟩).toOption.map Node.preimage = hashed[1]? := by
    decide
  rcases h with ⟨node, hdecode, rfl⟩ | ⟨node, hdecode, rfl⟩
  · rw [hdecode] at hblock
    exact List.mem_of_getElem? hblock.symm
  · rw [hdecode] at hzero
    exact List.mem_of_getElem? hzero.symm

theorem hashes_differ : (hashed.map digest ++ [CryptoHash.default, rootHash, witnessHash]).Nodup := by decide +kernel

def ledger : Ledger where
  bank := ((execute host program digest clock bank accounts instruction).toOption.map Prod.fst).getD bank
  done := [⟨rootAccount, ops, clock⟩]

def rootHead : List Byte :=
  SolanaTrie.Header.magicV1 ++ [1#8, 0#8, 0#8, 0#8] ++ trieRoot.bytes ++ 144#8 :: List.replicate 27 0#8 ++ block

/-- Nothing was written behind the node. -/
def paddedAccount : SolanaTrie.Account SolanaTrie.FixedData → Bool
  | .live a => decide (Padded (List.replicate 72 0#8 ++ block) a.data.bytes)
  | .panicked => true

/-- What the instruction has made of the accounts, and what it has made of the trie on the way. -/
theorem ledger_accounts :
    (((ledger.bank rootAccount).lamports = 72161280 ∧ (ledger.bank rootAccount).data.take 144 = rootHead) ∧
      (ledger.bank witnessAccount).lamports = 1169280 ∧ (ledger.bank witnessAccount).owner = program ∧
      (ledger.bank witnessAccount).executable = false ∧ (ledger.bank witnessAccount).rentEpoch = 0 ∧
      (ledger.bank witnessAccount).data = (SolanaTrie.Witness.Data.new trieRoot clock).bytes) ∧
    (SolanaTrie.openTrie (SolanaTrie.FixedData.mk (WitnessedTrie.rootData program (bank rootAccount)))).all fun t =>
      (visited digest ops t).all fun t' => paddedAccount t'.alloc := by
  refine ⟨?_, ?_⟩
  · decide +kernel
  · decide +kernel

theorem opened_stores : ∀ t, SolanaTrie.openTrie (SolanaTrie.FixedData.mk (WitnessedTrie.rootData program (bank rootAccount))) = some t →
    ∀ t' ∈ visited digest ops t, ∀ b, Stored t' b → b ∈ hashed := by
  intro t ht t' ht' b hb
  have hvisited := ledger_accounts.2
  rw [ht, Option.all_some, List.all_eq_true] at hvisited
  have hpadded := hvisited t' ht'
  obtain ⟨ptr, root, alloc⟩ := t'
  cases alloc with
  | live a => exact mem_of_decodes (decodes_of_stored (of_decide_eq_true hpadded).eq hb)
  | panicked =>
    obtain ⟨p, raw, hget, -⟩ := hb
    cases hget

theorem ledger_steps : LedgerStep host program digest {b | b ∈ hashed} ⟨bank, []⟩ ledger := by
  have hsome : (execute host program digest clock bank accounts instruction).toOption.isSome = true := by
    cases hrun : (execute host program digest clock bank accounts instruction).toOption with
    | some _ => rfl
    | none =>
      have hlamports := ledger_accounts.1.1.1
      unfold ledger at hlamports
      rw [hrun] at hlamports
      exact absurd hlamports (by decide)
  have hnonzero : Nonzero ops := by
    intro op hop
    rw [List.mem_singleton.mp hop]
    change hash ≠ emptyTrieRoot
    decide
  exact ledger_step fromSlice_instruction hnonzero opened_stores hsome

def rootData : AccountHashData := hashData rootAccount (ledger.bank rootAccount)

def snapshot : Snapshot := ⟨frozen, ledger⟩

theorem hash_of_funded {B : Blake3} (hstreams : B.Streams) {a : Account} (h : a.lamports ≠ 0) (key : Pubkey) :
    a.hash B key = some (B.hash (hashData key a).bytes) :=
  hashAccount_of_ne_zero _ _ _ _ _ hstreams fun hzero => h (congrArg Fin.val hzero)

theorem hashData_eq {a : Account} {lamports rentEpoch : Fin (2 ^ 64)} {owner : Pubkey} {executable : Bool} {data : List Byte}
    (hlamports : a.lamports = lamports.val) (howner : a.owner = owner) (hexecutable : a.executable = executable)
    (hepoch : a.rentEpoch = rentEpoch) (hdata : a.data = data) (key : Pubkey) :
    hashData key a = .new lamports (toPubKey owner) executable rentEpoch data (toPubKey key) := by
  subst howner hexecutable hepoch hdata
  have hfits : (⟨a.lamports, a.fits⟩ : Fin (2 ^ 64)) = lamports := Fin.ext hlamports
  rw [hashData, hfits]

theorem hashData_root : hashData rootAccount (ledger.bank rootAccount) = rootData := rfl

theorem hashData_witness : hashData witnessAccount (ledger.bank witnessAccount) = witnessData := by
  obtain ⟨-, hlamports, howner, hexecutable, hepoch, hdata⟩ := ledger_accounts.1
  exact hashData_eq hlamports howner hexecutable hepoch hdata witnessAccount

theorem bytes_ne : rootData.bytes ≠ witnessData.bytes := by
  intro h
  have hdata : rootData.data = witnessData.data := by
    simp only [AccountHashData.data, h]
  rw [rootData, witnessData, hashData, AccountHashData.data_new, AccountHashData.data_new] at hdata
  have hhead := ledger_accounts.1.1.2
  rw [hdata] at hhead
  exact absurd hhead (by decide)

def accountHash : List Byte → CryptoHash := tableDigest [(rootData.bytes, rootHash), (witnessData.bytes, witnessHash)]

def hasher : Blake3 := ⟨List Byte, [], (· ++ ·), accountHash, accountHash⟩

theorem hasher_streams : hasher.Streams := by
  intro pieces
  have hfold : ∀ acc : List Byte, pieces.foldl (· ++ ·) acc = acc ++ pieces.flatten := by
    induction pieces with
    | nil => exact fun acc => (List.append_nil acc).symm
    | cons piece pieces ih =>
      intro acc
      rw [List.foldl_cons, ih, List.flatten_cons, List.append_assoc]
  exact congrArg accountHash (hfold [])

theorem tableDigest_first {b : List Byte} {h : CryptoHash} (table : List (List Byte × CryptoHash)) :
    tableDigest ((b, h) :: table) b = h := by
  simp [tableDigest]

theorem tableDigest_second {a b : List Byte} {h h' : CryptoHash} (hne : a ≠ b) : tableDigest [(a, h), (b, h')] b = h' := by
  simp [tableDigest, hne]

theorem hash_rootData : hasher.hash rootData.bytes = rootHash := tableDigest_first _

theorem hash_witnessData : hasher.hash witnessData.bytes = witnessHash := tableDigest_second bytes_ne

def hashedAccounts : List (List Byte) := [rootData.bytes, witnessData.bytes]

theorem hash_cases {d : List Byte} (hd : d ∈ hashedAccounts) :
    (d = rootData.bytes ∧ hasher.hash d = rootHash) ∨ (d = witnessData.bytes ∧ hasher.hash d = witnessHash) := by
  rcases List.mem_cons.mp hd with rfl | hd
  · exact .inl ⟨rfl, hash_rootData⟩
  · cases List.mem_singleton.mp hd
    exact .inr ⟨rfl, hash_witnessData⟩

theorem collisionless : Collisionless digest hasher {b | b ∈ hashed} {d | d ∈ hashedAccounts} := by
  obtain ⟨hinj, hothers, hdisjoint⟩ := List.nodup_append.mp hashes_differ
  obtain ⟨hnonzero, hne⟩ := List.nodup_cons.mp hothers
  have hne : rootHash ≠ witnessHash := fun heq => (List.nodup_cons.mp hne).1 (List.mem_singleton.mpr heq)
  have hseparate : ∀ b ∈ hashed, ∀ h ∈ [CryptoHash.default, rootHash, witnessHash], digest b ≠ h := by
    intro b hb h hh
    exact hdisjoint _ (List.mem_map_of_mem hb) h hh
  have hroot : rootHash ≠ CryptoHash.default := fun heq => hnonzero (heq ▸ List.mem_cons_self)
  have hwitness : witnessHash ≠ CryptoHash.default := fun heq => hnonzero (heq ▸ List.mem_cons_of_mem _ List.mem_cons_self)
  refine ⟨fun b hb b' hb' => List.inj_on_of_nodup_map hinj hb hb', ?_, ?_, ?_⟩
  · intro d hd d' hd' heq
    rcases hash_cases hd with ⟨rfl, hash⟩ | ⟨rfl, hash⟩
    · rcases hash_cases hd' with ⟨rfl, -⟩ | ⟨rfl, hash'⟩
      · rfl
      · exact absurd (hash.symm.trans (heq.trans hash')) hne
    · rcases hash_cases hd' with ⟨rfl, hash'⟩ | ⟨rfl, -⟩
      · exact absurd (hash'.symm.trans (heq.symm.trans hash)) hne
      · rfl
  · intro b hb
    refine ⟨hseparate b hb _ List.mem_cons_self, fun d hd => ?_⟩
    rcases hash_cases hd with ⟨-, hash⟩ | ⟨-, hash⟩
    · rw [hash]
      exact hseparate b hb _ (by simp)
    · rw [hash]
      exact hseparate b hb _ (by simp)
  · intro d hd
    rcases hash_cases hd with ⟨-, hash⟩ | ⟨-, hash⟩
    · rwa [hash]
    · rwa [hash]

theorem freezes : Freezes digest hasher {b | b ∈ hashed} {d | d ∈ hashedAccounts} ledger.bank frozen := by
  refine ⟨?_, frozen_inputs⟩
  intro a ha
  rcases List.mem_cons.mp ha with rfl | ha
  · have hlamports : (ledger.bank rootAccount).lamports ≠ 0 := by
      rw [ledger_accounts.1.1.1]
      decide
    refine ⟨rootAccount, rfl, (hash_of_funded hasher_streams hlamports _).trans ?_, ?_⟩
    · rw [hashData_root, hash_rootData]
    · rw [hashData_root]
      exact List.mem_cons_self
  · cases List.mem_singleton.mp ha
    have hlamports : (ledger.bank witnessAccount).lamports ≠ 0 := by
      rw [ledger_accounts.1.2.1]
      decide
    refine ⟨witnessAccount, rfl, (hash_of_funded hasher_streams hlamports _).trans ?_, ?_⟩
    · rw [hashData_witness, hash_witnessData]
    · rw [hashData_witness]
      exact List.mem_cons_of_mem _ List.mem_cons_self

theorem header_verified : header.Verified digest hasher client.witnessAccount := by
  have hroot := merkleProof_leads.1
  have hkey : witnessData.key = toPubKey witnessAccount := by rw [witnessData, AccountHashData.key_new]
  rw [← hash_witnessData] at hroot
  exact slotHeader_verified hroot hkey

theorem header_genuine : Genuine digest hasher {b | b ∈ hashed} {d | d ∈ hashedAccounts} [snapshot] header := by
  have hinputs := merkleProof_leads.2
  rw [← hash_witnessData] at hinputs
  exact slotHeader_genuine (List.mem_singleton_self snapshot) freezes hinputs (List.mem_cons_of_mem _ List.mem_cons_self)

theorem header_relayable :
    Relayable digest hasher (wireOf header) {b | b ∈ hashed} {d | d ∈ hashedAccounts} [snapshot] any := by
  intro message hmessage header' hheader'
  cases (ClientMessage.tryFromAny_header (read_wireOf header)).symm.trans hmessage
  cases List.mem_singleton.mp hheader'
  exact header_genuine

theorem created_follows : Follows host program digest {b | b ∈ hashed} [snapshot] rootAccount created := by
  have hnone : ∀ h s, stored created h ≠ some s := by
    rintro h s ⟨⟩
  refine ⟨⟨witnessAccount, 255#8, findWitnessAccount_root, rfl⟩, rfl, fun h s hs => absurd hs (hnone h s), ?_⟩
  rintro h state ⟨s, hs, -⟩
  exact absurd hs (hnone h s)

theorem orderly : Orderly host program (Set.range fun _ : Unit => rootAccount) ledger.done := by
  refine ⟨separate ?_, List.pairwise_singleton _ _, ?_⟩
  · rintro r (⟨-, rfl⟩ | hr)
    · rfl
    · exact rootsOf_one r hr
  · intro d hd
    cases List.mem_singleton.mp hd
    decide

/-- The packet is committed to, the slot is frozen, and the client which has been created gets the header. -/
theorem world_run : Relation.ReflTransGen
    (WorldStep host program digest hasher (wireOf header) {b | b ∈ hashed} {d | d ∈ hashedAccounts} fun _ : Unit => rootAccount)
    (⟨⟨bank, []⟩, [], fun _ => none⟩ : World Unit MapContext) ⟨ledger, [snapshot], fun _ => some relayed⟩ := by
  refine .tail (b := ⟨ledger, [snapshot], fun _ => some created⟩) (.tail (b := ⟨ledger, [snapshot], fun _ => none⟩)
    (.tail (b := ⟨ledger, [], fun _ => none⟩) (.single ?_) ?_) ?_) ?_
  · exact .execute ledger_steps rfl rfl
  · exact .freeze frozen (List.forall_mem_nil _) freezes rfl rfl rfl
  · exact .create () created rfl created_follows rfl rfl rfl fun j hj => absurd rfl hj
  · refine .move () created relayed rfl ?_ rfl rfl rfl fun j hj => absurd rfl hj
    exact .update any ((client.updateState (wireOf header) any).run created).1 header_relayable
      (verifyClientMessage_of_header (read_wireOf header) header_verified)
      (checkForMisbehaviour_of_header (read_wireOf header) header_agrees) Prod.mk.eta.symm

end FollowedSample

open FollowedSample WitnessedTrie.ProgramSample in
/-- The root account has the packet's commitment, and the witness account the root. -/
theorem program_keeps_tries_sample : TrieKept host program digest {b | b ∈ hashed} ledger rootAccount :=
  (program_keeps_tries hasher digest_ne (by decide) bank_fresh (.single ledger_steps) (separate rootsOf_one)).1
    ⟨rootAccount, ops, clock⟩ List.mem_cons_self

open FollowedSample WitnessedTrie.ProgramSample in
/-- The client has the state of slot five, which is what the program wrote. -/
theorem rollup_is_followed_sample : (relayed.states.entries.map fun e => e.1.revisionHeight) = [5] ∧
    Follows host program digest {b | b ∈ hashed} [snapshot] rootAccount relayed := by
  refine ⟨relayed_slots, ?_⟩
  exact (rollup_is_followed digest_ne (by decide) collisionless hasher_streams bank_fresh world_run orderly).1 () relayed rfl

end ObservedRollup
