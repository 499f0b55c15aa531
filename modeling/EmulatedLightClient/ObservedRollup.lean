import EmulatedLightClient.BankHashes
import EmulatedLightClient.WitnessedRun

/-!
# The rollup and its clients

The host freezes its accounts slot by slot and publishes bank hashes. Whoever relays headers takes bank hashes from the
host, and clients check the rest. All a client then holds is what the program wrote to the witness account by some slot,
and nothing that is relayed makes it take the rollup for one which forked.
-/

namespace ObservedRollup

open ByteBits CfSolana FailingState MachineInts Nodes WitnessedTrie
open CfGuest (Any IbcHeight IsNext IsPrev)
open SealableTrie (Bindings emptyTrieRoot)
open SolanaIbc (Clock)
open SolanaTrie (Carries FixedData Witness.Data Witness.Data.decode_new Witness.decodeWitness_eq_some openTrie)
open WriteAccount (Host Pubkey systemProgram)

/-- A slot with the accounts as they were when it was frozen. -/
structure Snapshot where
  frozen : FrozenSlot
  ledger : Ledger

namespace Snapshot

def slot (s : Snapshot) : NonZero 64 := s.frozen.slot

theorem slot_nonzero (s : Snapshot) : s.slot.get ≠ 0 := Nat.pos_iff_ne_zero.mp s.slot.pos

def height (s : Snapshot) : IbcHeight := ⟨1, s.slot.get, s.slot_nonzero⟩

theorem height_lt_iff {s s' : Snapshot} : s.height < s'.height ↔ s.slot < s'.slot := by
  rw [show s.height < s'.height ↔ s.height.key < s'.height.key from Iff.rfl, IbcHeight.key, IbcHeight.key,
    Prod.Lex.toLex_lt_toLex]
  simp [height, NonZero.lt_iff]

theorem slot_of_height {s s' : Snapshot} (h : s.height = s'.height) : s.slot = s'.slot :=
  NonZero.get_injective (congrArg IbcHeight.revisionHeight h)

end Snapshot

/-- What is hashed for an account which has lamports. -/
def hashData (key : Pubkey) (a : WitnessedTrie.Account) : AccountHashData :=
  AccountHashData.new ⟨a.lamports, a.fits⟩ (toPubKey a.owner) a.executable a.rentEpoch a.data (toPubKey key)

theorem toPubKey_injective : Function.Injective toPubKey := fun _ _ h => Subtype.ext (congrArg CryptoHash.bytes h)

section

variable (digest : List Byte → CryptoHash) (B : Blake3) (S T : Set (List Byte))

/-- The bank hash is of accounts as they are. Whatever is hashed for it is among what does not collide. -/
structure Freezes (bank : Bank) (f : FrozenSlot) : Prop where
  accounts : ∀ a ∈ f.accounts, ∃ key, a.1 = toPubKey key ∧ (bank key).hash B key = some a.2 ∧ (hashData key (bank key)).bytes ∈ T
  inputs : ∀ b ∈ f.inputs digest, b ∈ S

/-- The bank hash of the header comes from the host. -/
structure Genuine (snapshots : List Snapshot) (header : Header) : Prop where
  published : ∃ s ∈ snapshots, header.slot = s.slot ∧ header.bankHash = s.frozen.bankHash digest
  inputs : ∀ b ∈ header.inputs digest B, b ∈ S
  data : header.witnessProof.accountHashData.bytes ∈ T

/-- The consensus state is what the program wrote to the witness account of the trie by the slot. -/
def Shows (s : Snapshot) (root : Pubkey) (state : ConsensusState) : Prop :=
  ∃ trie last, openTrie (FixedData.mk (s.ledger.bank root).data) = some trie ∧
    Carries digest S trie (bindings s.ledger.done root) ∧ lastFor s.ledger.done root = some last ∧
    state.trieRoot = trie.rootHash.bytes ∧ (state.timestampSec.get : Int) = last.clock.unixTimestamp

end

section

variable {host : Host} {programId : Pubkey} {digest : List Byte → CryptoHash} {B : Blake3} {S T : Set (List Byte)}
  {followed : Set Pubkey}

theorem Shows.unique {s : Snapshot} {root : Pubkey} {a b : ConsensusState} (ha : Shows digest S s root a)
    (hb : Shows digest S s root b) : a = b := by
  obtain ⟨trie, last, hopen, -, hlast, hroot, htime⟩ := ha
  obtain ⟨trie', last', hopen', -, hlast', hroot', htime'⟩ := hb
  cases hopen.symm.trans hopen'
  cases hlast.symm.trans hlast'
  obtain ⟨aroot, atime⟩ := a
  obtain ⟨broot, btime⟩ := b
  have hsame : atime = btime := NonZero.get_injective (Int.ofNat_inj.mp (htime.trans htime'.symm))
  rw [hsame]
  congr 1
  exact hroot.trans hroot'.symm

variable (digest) in
/-- What there is to be known of the slot, with a proof of an account. -/
def slotHeader (f : FrozenSlot) (proof : AccountProof) : Header where
  slot := f.slot
  bankHash := f.bankHash digest
  deltaHashProof := f.deltaHashProof digest
  witnessProof := proof

section

variable {d : AccountHashData} {p : MerkleProof} {hp : p.levels.isSome}

theorem slotHeader_verified {f : FrozenSlot} {witness : CryptoHash}
    (hroot : p.expectedRoot digest (B.hash d.bytes) = some (f.accountsDeltaHash digest)) (hkey : d.key = witness) :
    (slotHeader digest f ⟨d, p, hp⟩).Verified digest B witness := ⟨rfl, hroot, hkey⟩

theorem slotHeader_genuine {snapshots : List Snapshot} {s : Snapshot} (hs : s ∈ snapshots)
    (hfreezes : Freezes digest B S T s.ledger.bank s.frozen) (hinputs : ∀ b ∈ p.inputs digest (B.hash d.bytes), b ∈ S)
    (hdata : d.bytes ∈ T) : Genuine digest B S T snapshots (slotHeader digest s.frozen ⟨d, p, hp⟩) := by
  refine ⟨⟨s, hs, rfl, rfl⟩, fun b hb => ?_, hdata⟩
  rcases List.mem_append.mp hb with hb | hb
  · exact hfreezes.inputs b (List.mem_append_left _ hb)
  · exact hinputs b hb

end

variable (host programId followed) in
/-- Addresses of tries are apart, of those which clients follow as well. The clock of the host does not go back and stays
in the range which a witness can hold. -/
structure Orderly (done : List Performed) : Prop where
  separate : Separate host programId (followed ∪ rootsOf done)
  clocks : done.Pairwise fun a b => a.clock.unixTimestamp ≤ b.clock.unixTimestamp
  times : ∀ d ∈ done, 0 < d.clock.unixTimestamp ∧ d.clock.unixTimestamp < 2 ^ 48

theorem Orderly.of_prefix {done done' : List Performed} (h : Orderly host programId followed done') (hpre : done <+: done') :
    Orderly host programId followed done := by
  obtain ⟨later, rfl⟩ := hpre
  exact ⟨h.separate.mono (Set.union_subset_union_right _ (rootsOf_append _ _)), (List.pairwise_append.mp h.clocks).1,
    fun d hd => h.times d (List.mem_append_left _ hd)⟩

theorem lastFor_mem {done : List Performed} {root : Pubkey} {d : Performed} (h : lastFor done root = some d) :
    d ∈ done ∧ d.root = root := by
  have hmem := List.mem_filter.mp (List.mem_of_getLast? h)
  exact ⟨hmem.1, of_decide_eq_true hmem.2⟩

/-- The last instruction for a trie is not followed by an earlier one. -/
theorem lastFor_le {done done' : List Performed} (hclocks : done'.Pairwise fun a b => a.clock.unixTimestamp ≤ b.clock.unixTimestamp)
    (hpre : done <+: done') {root : Pubkey} {d d' : Performed} (h : lastFor done root = some d)
    (h' : lastFor done' root = some d') : d.clock.unixTimestamp ≤ d'.clock.unixTimestamp := by
  obtain ⟨later, rfl⟩ := hpre
  rw [lastFor, doneFor, List.filter_append, List.getLast?_append] at h'
  cases hlater : (later.filter fun d => d.root = root).getLast? with
  | none =>
    rw [hlater, Option.none_or] at h'
    cases h.symm.trans h'
    exact le_rfl
  | some e =>
    rw [hlater, Option.some_or, Option.some_inj] at h'
    subst h'
    exact (List.pairwise_append.mp hclocks).2.2 d (lastFor_mem h).1 e (List.mem_filter.mp (List.mem_of_getLast? hlater)).1

theorem Shows.used {s : Snapshot} {root : Pubkey} {state : ConsensusState} (h : Shows digest S s root state) :
    root ∈ rootsOf s.ledger.done := by
  obtain ⟨-, last, -, -, hlast, -⟩ := h
  exact ⟨last, lastFor_mem hlast⟩

variable (host programId digest B S T followed) in
/-- What has been frozen, slot after slot. -/
structure Chronicle (snapshots : List Snapshot) : Prop where
  ledger : ∀ s ∈ snapshots, LedgerInv host programId digest S s.ledger
  orderly : ∀ s ∈ snapshots, Orderly host programId followed s.ledger.done
  freezes : ∀ s ∈ snapshots, Freezes digest B S T s.ledger.bank s.frozen
  ordered : snapshots.Pairwise fun a b => a.slot < b.slot ∧ a.ledger.done <+: b.ledger.done

section

variable {snapshots : List Snapshot} {s s' : Snapshot} {root : Pubkey}

theorem Chronicle.eq_of_slot (h : Chronicle host programId digest B S T followed snapshots) (hs : s ∈ snapshots)
    (hs' : s' ∈ snapshots) (hslot : s.slot = s'.slot) : s = s' := by
  by_contra hne
  have hapart : snapshots.Pairwise fun a b => a.slot ≠ b.slot := h.ordered.imp fun hab => hab.1.ne
  have hsymm : Std.Symm fun a b : Snapshot => a.slot ≠ b.slot := ⟨fun _ _ hab => hab.symm⟩
  exact hapart.forall hs hs' hne hslot

theorem Chronicle.prefix_of_lt (h : Chronicle host programId digest B S T followed snapshots) (hs : s ∈ snapshots)
    (hs' : s' ∈ snapshots) (hslot : s.slot < s'.slot) : s.ledger.done <+: s'.ledger.done := by
  obtain ⟨before, after, rfl⟩ := List.append_of_mem hs
  have hordered := List.pairwise_append.mp h.ordered
  rcases List.mem_append.mp hs' with hbefore | hafter
  · exact absurd ((hordered.2.2 s' hbefore s List.mem_cons_self).1.trans hslot) (lt_irrefl _)
  · rcases List.mem_cons.mp hafter with rfl | hafter
    · exact absurd hslot (lt_irrefl _)
    · exact ((List.pairwise_cons.mp hordered.2.1).1 s' hafter).2

/-- Times follow the slots. -/
theorem Chronicle.times (h : Chronicle host programId digest B S T followed snapshots) (hs : s ∈ snapshots) (hs' : s' ∈ snapshots)
    (hslot : s.slot < s'.slot) {a b : ConsensusState} (ha : Shows digest S s root a) (hb : Shows digest S s' root b) :
    a.timestampSec ≤ b.timestampSec := by
  obtain ⟨-, last, -, -, hlast, -, htime⟩ := ha
  obtain ⟨-, last', -, -, hlast', -, htime'⟩ := hb
  have hle := lastFor_le (h.orderly s' hs').clocks (h.prefix_of_lt hs hs' hslot) hlast hlast'
  rw [NonZero.le_iff]
  omega

/-- The state which the witness account holds, if the trie is there. -/
theorem exists_shows (h : LedgerInv host programId digest S s.ledger) (horderly : Orderly host programId followed s.ledger.done)
    (hroot : root ∈ rootsOf s.ledger.done) {witness : Pubkey} {bump : Byte}
    (hfind : findWitnessAccount host programId root = .ok (witness, bump)) {header : Header}
    (hdata : header.witnessProof.accountHashData.data = (s.ledger.bank witness).data) :
    ∃ state, ConsensusState.ofHeader header = .ok state ∧ Shows digest S s root state := by
  obtain ⟨d, hd, rfl⟩ := hroot
  obtain ⟨-, trie, witness', bump', last, hopen, hcarries, hfind', -, -, -, hlast, hwitness⟩ := h.kept d hd
  cases hfind.symm.trans hfind'
  rw [hwitness] at hdata
  obtain ⟨hpos, hlt⟩ := horderly.times last (lastFor_mem hlast).1
  obtain ⟨n, hn⟩ := Int.eq_ofNat_of_zero_le hpos.le
  have hfits : n < 2 ^ 64 := by omega
  let t : NonZero 64 := ⟨n, by omega, hfits⟩
  have hnew : (Witness.Data.new trie.rootHash last.clock).decode = .ok (trie.rootHash, ⟨n, hfits⟩) :=
    Witness.Data.decode_new hn (by dsimp only; omega)
  have hdecode := Witness.decodeWitness_eq_some (t := t) hdata |>.mpr hnew
  refine ⟨ConsensusState.new trie.rootHash t, ?_, trie, last, hopen, hcarries, hlast, rfl, hn.symm⟩
  unfold ConsensusState.ofHeader
  rw [hdecode]

/-- Without the trie there is nothing in the account. -/
theorem decodeWitness_of_unused (h : LedgerInv host programId digest S s.ledger)
    (hsep : Separate host programId (insert root (rootsOf s.ledger.done))) (hroot : root ∉ rootsOf s.ledger.done)
    {witness : Pubkey} {bump : Byte} (hfind : findWitnessAccount host programId root = .ok (witness, bump)) {header : Header}
    (hdata : header.witnessProof.accountHashData.data = (s.ledger.bank witness).data) : header.decodeWitness = none := by
  have hunused : (s.ledger.bank witness).Unused := by
    refine h.unused witness (.witness hfind) fun d hd => ⟨?_, fun bump' hfind' => ?_⟩
    · rintro rfl
      exact hsep.roots root (Set.mem_insert _ _) d.root (Set.mem_insert_of_mem _ ⟨d, hd, rfl⟩) bump hfind
    · exact hroot ⟨d, hd, hsep.witnesses d.root (Set.mem_insert_of_mem _ ⟨d, hd, rfl⟩) root (Set.mem_insert _ _) witness
        bump' bump hfind' hfind⟩
  unfold Header.decodeWitness
  rw [hdata, hunused.data]
  rfl

/-- A header from the host has the witness account as it was in the slot. -/
theorem Genuine.account (hc : Collisionless digest B S T) (hstreams : B.Streams)
    (h : Chronicle host programId digest B S T followed snapshots) {header : Header} (hgenuine : Genuine digest B S T snapshots header)
    {witness : Pubkey} (hverified : header.Verified digest B (toPubKey witness)) :
    ∃ s ∈ snapshots, header.slot = s.slot ∧
      header.witnessProof.accountHashData = hashData witness (s.ledger.bank witness) := by
  obtain ⟨s, hs, hslot, hbank⟩ := hgenuine.published
  have hfreezes := h.freezes s hs
  have hash_cases : ∀ key hash, (s.ledger.bank key).hash B key = some hash →
      hash = CryptoHash.default ∨ hash = B.hash (hashData key (s.ledger.bank key)).bytes := by
    intro key hash hhash
    by_cases hzero : (⟨(s.ledger.bank key).lamports, (s.ledger.bank key).fits⟩ : Fin (2 ^ 64)) = 0
    · rw [Account.hash, hashAccount, if_pos hzero, Option.some_inj] at hhash
      exact .inl hhash.symm
    · rw [Account.hash, hashAccount_of_ne_zero _ _ _ _ _ hstreams hzero, Option.some_inj] at hhash
      exact .inr hhash.symm
  have haccounts : ∀ a ∈ s.frozen.accounts, a.2 = CryptoHash.default ∨ ∃ d ∈ T, a.2 = B.hash d := by
    intro a ha
    obtain ⟨key, -, hhash, hT⟩ := hfreezes.accounts a ha
    rcases hash_cases key a.2 hhash with hzero | heq
    · exact .inl hzero
    · exact .inr ⟨_, hT, heq⟩
  obtain ⟨a, ha, heq⟩ := account_of_verified hc hbank hverified hgenuine.inputs hgenuine.data hfreezes.inputs haccounts
  obtain ⟨key, -, hhash, hT⟩ := hfreezes.accounts a ha
  have hbytes : header.witnessProof.accountHashData.bytes = (hashData key (s.ledger.bank key)).bytes := by
    rcases hash_cases key a.2 hhash with hzero | hsame
    · exact absurd (heq.symm.trans hzero) (hc.nonzero _ hgenuine.data)
    · exact hc.blake3_injOn hgenuine.data hT (heq.symm.trans hsame)
  have hdata : header.witnessProof.accountHashData = hashData key (s.ledger.bank key) := by
    rw [AccountHashData.mk.injEq]
    exact hbytes
  have hkey := hverified.account
  rw [hdata, hashData, AccountHashData.key_new] at hkey
  cases toPubKey_injective hkey
  exact ⟨s, hs, hslot, hdata⟩

variable (digest S) in
/-- The header tells what the witness account of the trie was in the slot, if there was one. -/
structure Tells (s : Snapshot) (root witness : Pubkey) (header : Header) : Prop where
  slot : header.slot = s.slot
  accountHashData : header.witnessProof.accountHashData = hashData witness (s.ledger.bank witness)
  used : root ∈ rootsOf s.ledger.done → ∃ state, ConsensusState.ofHeader header = .ok state ∧ Shows digest S s root state
  unused : root ∉ rootsOf s.ledger.done → header.decodeWitness = none

theorem Genuine.tells (hc : Collisionless digest B S T) (hstreams : B.Streams)
    (h : Chronicle host programId digest B S T followed snapshots) {header : Header}
    (hgenuine : Genuine digest B S T snapshots header) (hroot : root ∈ followed) {witness : Pubkey} {bump : Byte}
    (hfind : findWitnessAccount host programId root = .ok (witness, bump))
    (hverified : header.Verified digest B (toPubKey witness)) : ∃ s ∈ snapshots, Tells digest S s root witness header := by
  obtain ⟨s, hs, hslot, hdata⟩ := hgenuine.account hc hstreams h hverified
  have hbytes : header.witnessProof.accountHashData.data = (s.ledger.bank witness).data := by
    rw [hdata]
    exact AccountHashData.data_new _ _ _ _ _ _
  refine ⟨s, hs, hslot, hdata, ?_, ?_⟩
  · intro hused
    exact exists_shows (h.ledger s hs) (h.orderly s hs) hused hfind hbytes
  · intro hunused
    refine decodeWitness_of_unused (h.ledger s hs) ((h.orderly s hs).separate.mono ?_) hunused hfind hbytes
    exact Set.insert_subset (Set.mem_union_left _ hroot) Set.subset_union_right

section

variable {witness : Pubkey} {header header' : Header}

theorem Tells.height (h : Tells digest S s root witness header) : header.ibcHeight = s.height := by
  unfold Header.ibcHeight Snapshot.height
  simp only [h.slot]

theorem Tells.shows (h : Tells digest S s root witness header) {state : ConsensusState}
    (hstate : ConsensusState.ofHeader header = .ok state) : Shows digest S s root state := by
  by_cases hused : root ∈ rootsOf s.ledger.done
  · obtain ⟨state', hstate', hshows⟩ := h.used hused
    cases hstate.symm.trans hstate'
    exact hshows
  · obtain ⟨_, hdecode, -⟩ := decodeWitness_of_ofHeader hstate
    cases (h.unused hused).symm.trans hdecode

theorem Tells.witnessTime_of_unused (h : Tells digest S s root witness header) (hunused : root ∉ rootsOf s.ledger.done) :
    header.witnessTime = none :=
  congrArg (Option.map Prod.snd) (h.unused hunused)

theorem Tells.shows_of_time (h : Tells digest S s root witness header) {time : NonZero 64} (htime : time ∈ header.witnessTime) :
    ∃ state, Shows digest S s root state ∧ state.timestampSec = time := by
  by_cases hused : root ∈ rootsOf s.ledger.done
  · obtain ⟨state, hstate, hshows⟩ := h.used hused
    rw [ofHeader_ok hstate] at htime
    exact ⟨state, hshows, Option.some_inj.mp htime⟩
  · rw [h.witnessTime_of_unused hused] at htime
    cases htime

/-- A trie which is there does not go away. -/
theorem Tells.time_le (hchronicle : Chronicle host programId digest B S T followed snapshots) (hs : s ∈ snapshots)
    (hs' : s' ∈ snapshots) (hslot : s.slot < s'.slot) (h : Tells digest S s root witness header)
    (h' : Tells digest S s' root witness header') : ¬ Option.lt (· < ·) header'.witnessTime header.witnessTime := by
  by_cases hused : root ∈ rootsOf s.ledger.done
  · obtain ⟨later, hlater⟩ := hchronicle.prefix_of_lt hs hs' hslot
    have hused' : root ∈ rootsOf s'.ledger.done := hlater ▸ rootsOf_append _ later hused
    obtain ⟨state, hstate, hshows⟩ := h.used hused
    obtain ⟨state', hstate', hshows'⟩ := h'.used hused'
    rw [ofHeader_ok hstate, ofHeader_ok hstate']
    exact not_lt.mpr (hchronicle.times hs hs' hslot hshows hshows')
  · rw [h.witnessTime_of_unused hused]
    cases header'.witnessTime with
    | none => exact id
    | some _ => exact id

/-- Two headers which tell what was are not evidence against the rollup. -/
theorem Tells.check (hchronicle : Chronicle host programId digest B S T followed snapshots) (hs : s ∈ snapshots)
    (hs' : s' ∈ snapshots) (h : Tells digest S s root witness header) (h' : Tells digest S s' root witness header') :
    checkForMisbehaviourInMisbehaviour ⟨header, header'⟩ = false := by
  rcases lt_trichotomy s.slot s'.slot with hlt | heq | hgt
  · rw [check_of_slot_lt (by rw [h.slot, h'.slot]; exact hlt)]
    exact decide_eq_false (h.time_le hchronicle hs hs' hlt h')
  · cases hchronicle.eq_of_slot hs hs' heq
    rw [check_of_slot_eq (h.slot.trans h'.slot.symm), h.accountHashData, h'.accountHashData]
    exact decide_eq_false (not_not.mpr rfl)
  · rw [check_of_slot_gt (by rw [h.slot, h'.slot]; exact hgt)]
    exact decide_eq_false (h'.time_le hchronicle hs' hs hgt h)

end

end

end

end ObservedRollup
