import EmulatedLightClient.FollowedRollup
import EmulatedLightClient.MessageOrder
import EmulatedLightClient.ProvenState

/-!
# Proofs about the rollup

What a client takes for proven the program had written, and what the program has written can be proven: the plugin of
the host records of a slot what is needed for a header, and the root account with it is enough to make proofs.
-/

namespace ObservedRollup

open ByteBits CfSolana FailingState MachineInts Memory Nodes SealableTrie TrieProof WitnessedTrie
open CfGuest (IbcHeight Opening Readable ValueHashOf generateForTrie generateImpl getRoot_none isPacketCommitment key_length_le
  sequencesTail serialiseProof serialiseProof_eq_some serialize_of_verify valueOf_of_agrees verifyForTrie verifyHashed
  verifyImpl_eq_ok)
open CfSolana.LawfulContext (clientState stored)
open SolanaTrie (Carries FixedData openTrie)
open TrieIds (Path PathInfo)
open WriteAccount (Host Pubkey systemProgram)

section

variable {digest : List Byte → CryptoHash} {DecodeError : Type}
  {decodeU64 : List Byte → Except DecodeError (Fin (2 ^ 64))} {S : Set (List Byte)}

variable (digest decodeU64) in
/-- The map binds the key of the path to what stands for the value, or to nothing if there is no value. -/
def Binds (m : Bindings) (path : Path) (value : Option (List Byte)) : Prop :=
  ∃ info ending, PathInfo.tryFrom path = .ok info ∧
    ValueHashOf digest decodeU64 info (isPacketCommitment path) value (m.valueOf info.key) ending

variable {D : Type} [SolanaTrie.DataRef D] {t : SealableTrie.Trie (SolanaTrie.Account D)} {m : Bindings} {path : Path}

theorem binds_of_accepted (hd : ∀ b, digest b ≠ emptyTrieRoot) (hinj : Set.InjOn digest S) (hcarries : Carries digest S t m)
    {proof : List Byte} {value : Option (List Byte)}
    (hin : ∀ b ∈ verifyHashed digest decodeU64 false proof t.rootHash.bytes path value, b ∈ S)
    (h : verifyForTrie digest decodeU64 [] proof t.rootHash.bytes path value = .ok ()) :
    Binds digest decodeU64 m path value := by
  obtain ⟨-, o, hblock, hroot⟩ := verifyImpl_eq_ok.mp h
  rw [← hblock, ← hroot] at hin
  have hcontext : o.context = none := Option.isNone_iff_eq_none.mp (Option.isSome_eq_false_iff.mp hblock)
  have hstate := o.root_eq
  rw [hcontext, getRoot_none] at hstate
  have hv := o.verified
  rw [hstate, CryptoHash.eq_of_bytes hroot] at hv
  refine ⟨o.info, o.ending, o.info_eq, ?_⟩
  rw [hcarries.verify hd hinj (o.nodes_mem hin) hv]
  exact o.hash_eq

/-- Proofs of what can be looked up can be written. -/
theorem generate_of_get (hd : ∀ b, digest b ≠ emptyTrieRoot) (hcarries : Carries digest S t m) {info : PathInfo}
    (hinfo : PathInfo.tryFrom path = .ok info) {found : Option CryptoHash} (hget : t.get digest info.key = .ok found) :
    ∃ proof, Readable proof ∧ proof.verify digest t.rootHash info.key found = true ∧
      generateForTrie digest t path = .ok ⟨proof.layout ++ sequencesTail found info.seqKind, t.rootHash, found⟩ := by
  have hk : info.key.length ≤ maxKeyBytes := (key_length_le hinfo).trans (by decide)
  obtain ⟨proof, hprove, hwritable, hv⟩ := hcarries.prove hd hk hget
  have hserialize : proof.serialize = some proof.layout := by
    rcases serialize_of_verify hinfo hv with hserialize | ⟨hempty, -⟩
    · exact hserialize
    · obtain ⟨slice, hslice, -⟩ := sliceOf_spec hk
      have hempty : t.rootHash = emptyTrieRoot := hempty
      simp only [Trie.prove, Trie.getImpl, hslice, hempty, if_true, Except.ok.injEq, Prod.mk.injEq] at hprove
      rw [← hprove.2]
      rfl
  have hentries : proof.entries < 8192 :=
    (serialiseProof_eq_some (show serialiseProof none proof = some proof.layout from hserialize)).2
  refine ⟨proof, ⟨hwritable, hentries.trans (by decide)⟩, hv, ?_⟩
  simp only [generateForTrie, generateImpl, CfGuest.getRoot, hinfo, hprove, serialiseProof, hserialize, CfGuest.okOr,
    Except.mapError, bind, Except.bind]
  rfl

theorem accepted_of_binds (hd : ∀ b, digest b ≠ emptyTrieRoot) (hcarries : Carries digest S t m) {info : PathInfo}
    (hinfo : PathInfo.tryFrom path = .ok info) {found : Option CryptoHash} (hget : t.get digest info.key = .ok found) :
    ∃ p, generateForTrie digest t path = .ok p ∧ ∀ value, Binds digest decodeU64 m path value →
      verifyForTrie digest decodeU64 [] p.proof t.rootHash.bytes path value = .ok () := by
  have hk : info.key.length ≤ maxKeyBytes := (key_length_le hinfo).trans (by decide)
  obtain ⟨proof, hreadable, hv, hgenerate⟩ := generate_of_get hd hcarries hinfo hget
  have hagrees := hcarries.get hd hk
  rw [hget] at hagrees
  refine ⟨_, hgenerate, ?_⟩
  rintro value ⟨info', ending, hinfo', hbinds⟩
  cases hinfo.symm.trans hinfo'
  rw [valueOf_of_agrees hagrees] at hbinds
  have hending := hbinds.ending_eq
  rw [hending] at hbinds
  let o : Opening digest decodeU64 (proof.layout ++ sequencesTail found info.seqKind) path value :=
    { context := none
      proof := proof
      ending := sequencesTail found info.seqKind
      root := t.rootHash
      stateRoot := t.rootHash
      info := info
      hash := found
      bytes_eq := rfl
      readable := hreadable
      root_eq := getRoot_none.mpr rfl
      info_eq := hinfo
      hash_eq := hbinds
      verified := hv }
  exact verifyImpl_eq_ok.mpr ⟨rfl, o, rfl, rfl⟩

end

section

variable {ι ε Ctx AnyState : Type} [LawfulContext Ctx AnyState] {host : Host} {programId : Pubkey}
  {digest : List Byte → CryptoHash} {B : Blake3} {W : Proto.Wire ε} {S T : Set (List Byte)} {follows : ι → Pubkey}
  {bank : Bank} {w : World ι Ctx} {DecodeError : Type} {decodeU64 : List Byte → Except DecodeError (Fin (2 ^ 64))}

/-- Whatever is proven to a client under a state which it stores, the program had written by the slot of the state. -/
theorem proven_was_written (hd : ∀ b, digest b ≠ emptyTrieRoot) (hsystem : programId ≠ systemProgram)
    (hc : Collisionless digest B S T) (hstreams : B.Streams)
    (hfresh : ∀ key, Derived host programId key → (bank key).Unused)
    (hrun : Relation.ReflTransGen (WorldStep host programId digest B W S T follows)
      (⟨⟨bank, []⟩, [], fun _ => none⟩ : World ι Ctx) w)
    (horderly : Orderly host programId (Set.range follows) w.ledger.done) {i : ι} {ctx : Ctx}
    (hctx : w.clients i = some ctx) {h : IbcHeight} {state : ConsensusState} (hstate : StateAt ctx h state) :
    ∃ s ∈ w.snapshots, h = s.height ∧ s.ledger.done <+: w.ledger.done ∧ ∀ commitmentPrefix proof path,
      (∀ value, (∀ b ∈ verifyHashed digest decodeU64 false proof state.trieRoot path (some value), b ∈ S) →
        verifyMembership digest decodeU64 commitmentPrefix proof state.trieRoot path value = .ok () →
        Binds digest decodeU64 (bindings s.ledger.done (follows i)) path (some value)) ∧
      ((∀ b ∈ verifyHashed digest decodeU64 false proof state.trieRoot path none, b ∈ S) →
        verifyNonMembership digest decodeU64 commitmentPrefix proof state.trieRoot path = .ok () →
        Binds digest decodeU64 (bindings s.ledger.done (follows i)) path none) := by
  have hsound := (Sound.start hfresh).run hd hsystem hc hstreams horderly hrun
  obtain ⟨s, hs, hheight, trie, last, -, hcarries, -, hroot, -⟩ := (hsound.clients i ctx hctx).states h state hstate
  rw [hroot]
  refine ⟨s, hs, hheight, hsound.past s hs, fun commitmentPrefix proof path => ⟨?_, ?_⟩⟩
  · intro value hin hok
    exact binds_of_accepted hd hc.digest_injOn hcarries hin (mapError_ok.mp hok)
  · intro hin hok
    exact binds_of_accepted hd hc.digest_injOn hcarries hin (mapError_ok.mp hok)

end

namespace FollowedSample

open TrieIds (samplePath)

def path : Path := samplePath (.commitment · · 7)

/-- The only node has all of the key. -/
def proof : List Byte := [0x01#8, 0x00#8, 0x20#8, 0xb0#8]

def state : ConsensusState := ConsensusState.new trieRoot (NonZero.clamp 1000)

theorem relayed_state : StateAt relayed snapshot.height state := by
  have hstored : relayed.states.get snapshot.height = some state := by
    rw [relayed_eq]
    decide +kernel
  exact ⟨state, hstored, rfl⟩

end FollowedSample

open FollowedSample in
open WitnessedTrie.ProgramSample (bank_fresh rootAccount) in
/-- That the packet is committed to is proven to the client, and so it is. -/
theorem proven_was_written_sample :
    Binds digest CfGuest.decodeSmall (bindings ledger.done rootAccount) path (some SolanaTrie.Sample.hash.bytes) := by
  have hin : ∀ b ∈ verifyHashed digest CfGuest.decodeSmall false proof state.trieRoot path (some SolanaTrie.Sample.hash.bytes),
      b ∈ hashed := by decide +kernel
  have hverify : verifyForTrie digest CfGuest.decodeSmall [] proof state.trieRoot path (some SolanaTrie.Sample.hash.bytes) =
      .ok () := by decide +kernel
  obtain ⟨s, hs, -, -, htruth⟩ := proven_was_written digest_ne (by decide) collisionless hasher_streams bank_fresh world_run
    orderly (i := ()) rfl relayed_state
  cases List.mem_singleton.mp hs
  exact (htruth [] proof path).1 _ hin (congrArg (Except.mapError CfGuest.VerifyError.toCommitmentError) hverify)

section

open TrieGeyser (AccountUpdateInfo BlockInfo Config Delivered DistinctVersions Iteration Latest Message Outcome Received
  Recorded Records SlotData Updated Worker about accountSet blocks sigCounts updates)

/-- The header made of what is recorded for a slot. -/
def headerOf (slot : NonZero 64) (bankHash : CryptoHash) (data : SlotData) : Header where
  slot := slot
  bankHash := bankHash
  deltaHashProof := data.deltaHashProof
  witnessProof := data.witnessProof

/-- What is told about the slot is what it was. An epoch's hash of all accounts is not told. -/
structure Told (B : Blake3) (s : Snapshot) (ms : List Message) : Prop where
  accounts : (accountSet B (updates ms)).Perm s.frozen.accounts
  data : ∀ u, Latest (updates ms) u → ∃ key, u.account = hashData key (s.ledger.bank key)
  versions : DistinctVersions (updates ms)
  block : blocks ms = [⟨s.frozen.parentBlockhash, s.frozen.blockhash⟩]
  numSigs : (sigCounts ms).sum % 2 ^ 64 = s.frozen.numSigs
  epochAccountsHash : s.frozen.epochAccountsHash = none

variable {ι ε Ctx AnyState : Type} [LawfulContext Ctx AnyState] {host : Host} {programId : Pubkey}
  {digest : List Byte → CryptoHash} {B : Blake3} {W : Proto.Wire ε} {S T : Set (List Byte)} {followed : Set Pubkey}
  {snapshots : List Snapshot} {s : Snapshot} {root witness : Pubkey} {ms : List Message} {config : Config}
  {data : SlotData}

/-- An account which is told is known by its key. -/
theorem Told.account (h : Told B s ms) {u : AccountUpdateInfo} (hu : Latest (updates ms) u) {key : Pubkey}
    (hkey : u.account.key = toPubKey key) : u.account = hashData key (s.ledger.bank key) := by
  obtain ⟨key', hdata⟩ := h.data u hu
  rw [hdata, hashData, AccountHashData.key_new] at hkey
  cases toPubKey_injective hkey
  exact hdata

theorem Told.deltaHashProof (h : Told B s ms)
    (hrecorded : Recorded digest B config (updates ms) (sigCounts ms).sum ⟨s.frozen.parentBlockhash, s.frozen.blockhash⟩ data) :
    data.deltaHashProof = s.frozen.deltaHashProof digest := by
  have hroot : data.deltaHashProof.accountsDeltaHash = s.frozen.accountsDeltaHash digest := by
    rw [hrecorded.accountsDeltaHash, FrozenSlot.accountsDeltaHash,
      sortAccounts_congr h.accounts (TrieGeyser.nodup_accountSet B h.versions)]
  have hsigs : data.deltaHashProof.numSigs = s.frozen.numSigs := Fin.ext (hrecorded.numSigs.trans h.numSigs)
  have hparent := hrecorded.parentBlockhash
  have hblock := hrecorded.blockhash
  have hepoch := hrecorded.epochAccountsHash.trans h.epochAccountsHash.symm
  generalize data.deltaHashProof = p at *
  obtain ⟨parent, delta, sigs, block, epoch⟩ := p
  cases hroot
  cases hsigs
  cases hparent
  cases hblock
  cases hepoch
  rfl

theorem Told.verified (h : Told B s ms)
    (hrecorded : Recorded digest B config (updates ms) (sigCounts ms).sum ⟨s.frozen.parentBlockhash, s.frozen.blockhash⟩ data) :
    (headerOf s.slot (s.frozen.bankHash digest) data).Verified digest B config.witnessAccount := by
  have hheader : headerOf s.slot (s.frozen.bankHash digest) data = slotHeader digest s.frozen data.witnessProof := by
    rw [headerOf, h.deltaHashProof hrecorded]
    rfl
  have hroot := hrecorded.expectedRoot
  rw [h.deltaHashProof hrecorded] at hroot
  obtain ⟨u, -, hkey, hdata⟩ := hrecorded.witness
  rw [hheader]
  exact slotHeader_verified hroot ((congrArg AccountHashData.key hdata).trans hkey)

theorem Told.tells (h : Told B s ms)
    (hrecorded : Recorded digest B config (updates ms) (sigCounts ms).sum ⟨s.frozen.parentBlockhash, s.frozen.blockhash⟩ data)
    (hwitness : config.witnessAccount = toPubKey witness) (hledger : LedgerInv host programId digest S s.ledger)
    (horderly : Orderly host programId followed s.ledger.done) (hused : root ∈ rootsOf s.ledger.done) {bump : Byte}
    (hfind : findWitnessAccount host programId root = .ok (witness, bump)) :
    Tells digest S s root witness (headerOf s.slot (s.frozen.bankHash digest) data) := by
  obtain ⟨u, hu, hkey, hdata⟩ := hrecorded.witness
  have haccount : data.witnessProof.accountHashData = hashData witness (s.ledger.bank witness) :=
    hdata.trans (h.account hu (hkey.trans hwitness))
  have hbytes : data.witnessProof.accountHashData.data = (s.ledger.bank witness).data := by
    rw [haccount]
    exact AccountHashData.data_new _ _ _ _ _ _
  exact ⟨rfl, haccount, fun hused => exists_shows hledger horderly hused hfind hbytes, fun hunused => absurd hused hunused⟩

end

namespace FollowedSample

open SealableTrie (hashOf)
open TrieIds (sampleCommitment)
open TrieGeyser (AccountUpdateInfo Config Delivered DistinctVersions Latest Received Records SlotData Worker about accountSet
  forwards latest updates)
open WitnessedTrie.ProgramSample (rootAccount witnessAccount)

def config : Config := ⟨toPubKey rootAccount, toPubKey witnessAccount⟩

def rootUpdate : AccountUpdateInfo := ⟨5, 1, rootData⟩

def witnessUpdate : AccountUpdateInfo := ⟨5, 2, witnessData⟩

def received : List Received :=
  [(forwards, .account rootUpdate), (forwards, .account witnessUpdate), (forwards, .transaction 5 1),
    (forwards, .block 5 ⟨hashOf 1, hashOf 2⟩)]

theorem info_path : PathInfo.tryFrom path = .ok sampleCommitment := TrieIds.samplePath_commitment

theorem bindings_key : bindings ledger.done rootAccount sampleCommitment.key = some (SolanaTrie.Sample.hash, false) := by
  decide

/-- The program has bound the path to the commitment. -/
theorem bound : Binds digest CfGuest.decodeSmall (bindings ledger.done rootAccount) path (some SolanaTrie.Sample.hash.bytes) := by
  refine ⟨sampleCommitment, [], info_path, ?_⟩
  rw [Bindings.valueOf, bindings_key]
  exact ⟨rfl, rfl⟩

end FollowedSample

end ObservedRollup
