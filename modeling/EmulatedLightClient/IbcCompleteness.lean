import EmulatedLightClient.IbcSoundness

/-!
# Proofs which are made are proofs which are accepted

What the generator writes is read back by the verifier, which looks for the hash the generator has found. With the
soundness of what is accepted this makes the verifier accept exactly the values the hash stands for.
-/

namespace CfGuest

open Buffers ByteBits Bits FailingState GuestChain MachineInts Memory Nodes Readers SealableTrie TrieIds TrieProof

variable {digest : List Byte → CryptoHash} {S : Set (List Byte)} {DecodeError : Type}
  {decodeU64 : List Byte → Except DecodeError (Fin (2 ^ 64))} {A : Type} [LawfulAllocator A RawNode]

theorem encoded_key (key : ExtKey) : (key.encodeInto 0#8).1.take (key.encodeInto 0#8).2 =
    ExtKey.numHigh key.offset key.bits.length :: ExtKey.numLow key.offset key.bits.length ::
      ExtKey.bitBytes key.offset key.bits := by
  rw [ExtKey.encodeInto_eq, BitVec.xor_zero, Nat.add_comm]
  simp only [List.take_succ_cons, List.take_left]

theorem ofLeBytes_num (key : ExtKey) :
    ofLeBytes [ExtKey.numLow key.offset key.bits.length, ExtKey.numHigh key.offset key.bits.length] =
      8 * key.bits.length + key.offset.val := by
  have hnum := key.num_lt
  simp only [ofLeBytes, numHigh_eq hnum, numLow_eq, BitVec.toNat_ofNat]
  rw [ExtKey.num] at *
  omega

theorem encoded_key_bytes (key : ExtKey) : KeyBytes ((key.encodeInto 0#8).1.take (key.encodeInto 0#8).2) := by
  have hfits := key.fits
  have hbits : key.bits.length = key.slice.length := Slice.length_bits _
  have hpos : key.bits.length ≠ 0 := hbits ▸ key.nonempty
  have hlen : keyLen [ExtKey.numHigh key.offset key.bits.length, ExtKey.numLow key.offset key.bits.length] =
      bytesLen key.offset key.bits.length := by
    have hoffset := key.offset.isLt
    simp only [keyLen, List.reverse_cons, List.reverse_nil, List.nil_append, List.cons_append, ofLeBytes_num]
    rw [bytesLen_of_pos _ hpos]
    omega
  rw [encoded_key]
  refine ⟨?_, ?_⟩
  · rw [List.length_cons, List.length_cons, ExtKey.length_bitBytes, List.take_succ_cons, List.take_succ_cons, List.take_zero,
      hlen]
    omega
  · rw [List.take_succ_cons, List.take_succ_cons, List.take_zero, hlen, hbits]
    exact hfits

theorem nonZeroU16_new_len (key : ExtKey) :
    TrieProof.NonZeroU16.new key.len = some ⟨key.len, key.nonempty, key.slice.length_lt⟩ := nonZeroU16_new_eq_some.mpr rfl

theorem extension_writable (key : ExtKey) : (Item.extension ⟨key.len, key.nonempty, key.slice.length_lt⟩).Writable := by
  have hfits := key.fits
  rw [bytesLen_of_pos _ key.nonempty, maxExtensionKeySize] at hfits
  have hlen : key.slice.length < 512 := by omega
  exact hlen

/-- All items of the builder can be written. -/
def BuilderWritable (builder : Option Builder) : Prop := ∀ b, builder = some b → ∀ item ∈ b.items, item.Writable

theorem BuilderWritable.push {builder : Option Builder} (h : BuilderWritable builder) {item : Item} (hitem : item.Writable) :
    BuilderWritable (builder.map (·.push item)) := by
  intro b hb
  obtain ⟨b', rfl, rfl⟩ := Option.map_eq_some_iff.mp hb
  intro item' hmem
  rcases List.mem_append.mp hmem with hmem | hmem
  · exact h b' rfl item' hmem
  · rw [List.mem_singleton.mp hmem]
    exact hitem

theorem BuilderWritable.negative {b : Builder} (h : BuilderWritable (some b)) {actual : Actual} (hactual : actual.Writable) :
    (b.reversed.negative actual).Writable := by
  refine ⟨?_, ?_⟩
  · rintro _ ⟨⟩
    exact hactual
  · exact fun item hitem => h b rfl item (List.mem_reverse.mp hitem)

theorem BuilderWritable.build {b : Builder} (h : BuilderWritable (some b)) : (b.reversed.build).Writable :=
  ⟨nofun, fun item hitem => h b rfl item (List.mem_reverse.mp hitem)⟩

def ProofWritable (res : SealableTrie.Result (Option CryptoHash × Option Proof)) : Prop :=
  ∀ value proof, res = .ok (value, some proof) → proof.Writable

theorem ProofWritable.of_map {value : Option CryptoHash} {builder : Option Builder} {finish : Builder → Proof}
    (h : ∀ b, builder = some b → (finish b).Writable) : ProofWritable (.ok (value, builder.map finish)) := by
  intro value' proof heq
  obtain ⟨-, hproof⟩ := Prod.mk.inj (Except.ok.inj heq)
  obtain ⟨b, hb, rfl⟩ := Option.map_eq_some_iff.mp hproof
  exact h b hb

theorem getLoop_writable (alloc : A) (key : Slice) (nodePtr : Option Ptr) (nodeHash : CryptoHash) (builder : Option Builder) :
    BuilderWritable builder → ProofWritable (getLoop digest alloc key nodePtr nodeHash builder) := by
  induction key, nodePtr, nodeHash, builder using getLoop.induct digest alloc
    (fun key ref builder => BuilderWritable builder → ProofWritable (getLoop.afterChild digest alloc key ref builder)) with
  | case1 key builder nref ih h =>
    rw [getLoop.afterChild_node]
    exact ih h
  | case2 key builder vref hsealed h =>
    rw [getLoop.afterChild_value, if_pos hsealed]
    exact nofun
  | case3 key builder vref hsealed len hlen h =>
    rw [getLoop.afterChild_value, if_neg hsealed]
    simp only [hlen]
    refine .of_map ?_
    rintro b rfl
    exact h.negative trivial
  | case4 key builder vref hsealed hlen h =>
    rw [getLoop.afterChild_value, if_neg hsealed]
    simp only [hlen]
    refine .of_map ?_
    rintro b rfl
    exact h.build
  | case5 key nodeHash builder =>
    intro h
    rw [getLoop_none]
    exact nofun
  | case6 key nodeHash builder ptr e hread =>
    intro h
    rw [getLoop_of_error digest hread]
    exact nofun
  | case7 key nodeHash builder ptr left right hread hpop =>
    intro h
    rw [getLoop_branch_end hread hpop]
    refine .of_map ?_
    rintro b rfl
    exact h.negative trivial
  | case8 key nodeHash builder ptr left right hread us key' hpop hlen ih =>
    intro h
    rw [getLoop_branch hread hpop]
    exact ih (h.push trivial)
  | case9 key nodeHash builder ptr extKey child hread hstrip =>
    intro h
    rw [getLoop_ext_end hread hstrip]
    refine .of_map ?_
    rintro b rfl
    exact h.negative (encoded_key_bytes extKey)
  | case10 key nodeHash builder ptr extKey child hread key' hstrip hlen hne hnew =>
    exact absurd hnew (nonZeroU16_new_len extKey ▸ Option.some_ne_none _)
  | case11 key nodeHash builder ptr extKey child hread key' hstrip hlen hne len hnew ih =>
    intro h
    obtain rfl := Option.some.inj ((nonZeroU16_new_len extKey).symm.trans hnew)
    rw [getLoop_ext hread hstrip]
    exact ih (h.push (extension_writable extKey))

/-- Whatever proof is made can be written as far as the form of its entries is concerned. -/
theorem prove_writable {t : Trie A} {key : List Byte} {value : Option CryptoHash} {proof : Proof}
    (h : t.prove digest key = .ok (value, proof)) : proof.Writable := by
  unfold Trie.prove at h
  split at h
  · cases h
  · cases h
  · rename_i value' proof' hget
    cases h
    unfold Trie.getImpl at hget
    split at hget
    · cases hget
    · split at hget
      · cases hget
        exact ⟨nofun, nofun⟩
      · refine getLoop_writable _ _ _ _ _ ?_ _ _ hget
        rintro b ⟨⟩
        exact nofun

theorem serialiseProof_eq_some {context : Option BlockHeader} {proof : Proof} {bytes : List Byte}
    (h : serialiseProof context proof = some bytes) : bytes = headerBytes context ++ proof.layout ∧ proof.entries < 8192 := by
  have hproof : ∀ {b}, proof.serialize = some b → b = proof.layout ∧ proof.entries < 8192 := by
    intro b hb
    unfold Proof.serialize at hb
    split at hb
    · rename_i hentries
      exact ⟨(Option.some.inj hb).symm, hentries⟩
    · cases hb
  cases context with
  | none => exact hproof h
  | some header =>
    obtain ⟨b, hb, rfl⟩ := Option.map_eq_some_iff.mp h
    obtain ⟨rfl, hentries⟩ := hproof hb
    exact ⟨rfl, hentries⟩

theorem generateImpl_ok {context : Option BlockHeader} {trie : Trie A} {path : Path} {p : IbcProof}
    (h : generateImpl digest context trie path = .ok p) :
    ∃ info proof, getRoot digest context trie.rootHash = .ok p.root ∧ PathInfo.tryFrom path = .ok info ∧
      trie.prove digest info.key = .ok (p.value, proof) ∧ Readable proof ∧
      p.proof = headerBytes context ++ (proof.layout ++ sequencesTail p.value info.seqKind) := by
  simp only [generateImpl, bind_eq_ok, mapError_ok, okOr_ok] at h
  obtain ⟨root, hroot, info, hinfo, ⟨value, proof⟩, hprove, bytes, hbytes, h⟩ := h
  cases h
  obtain ⟨rfl, hentries⟩ := serialiseProof_eq_some hbytes
  have hlt : proof.entries < 2 ^ nonMembershipShift := hentries.trans (by decide)
  refine ⟨info, proof, hroot, hinfo, hprove, ⟨prove_writable hprove, hlt⟩, ?_⟩
  exact List.append_assoc _ _ _

/-- The bytes can be taken apart in one way. -/
theorem Opening.eq_of_bytes {bytes : List Byte} {path : Path} {value : Option (List Byte)}
    (o : Opening digest decodeU64 bytes path value) {context : Option BlockHeader} {proof : Proof} {ending : List Byte}
    (hbytes : bytes = headerBytes context ++ (proof.layout ++ ending)) (hproof : Readable proof)
    (hkind : o.context.isSome = context.isSome) : o.context = context ∧ o.proof = proof ∧ o.ending = ending := by
  have heq := o.bytes_eq.symm.trans hbytes
  have hrest : o.context = context ∧ o.proof.layout ++ o.ending = proof.layout ++ ending := by
    cases hc : o.context with
    | none =>
      rw [hc] at hkind heq
      cases context with
      | none => exact ⟨rfl, heq⟩
      | some header => cases hkind
    | some header =>
      rw [hc] at hkind heq
      cases context with
      | none => cases hkind
      | some header' =>
        obtain ⟨rfl, hrest⟩ := readHeader_reads.write_append_inj trivial trivial heq
        exact ⟨rfl, hrest⟩
  obtain ⟨hproof, hending⟩ := readProof_reads.write_append_inj o.readable hproof hrest.2
  exact ⟨hrest.1, hproof, hending⟩

/-- The right values are accepted, and no others for which what is hashed is in the set. -/
def AcceptsExactly (digest : List Byte → CryptoHash) (decodeU64 : List Byte → Except DecodeError (Fin (2 ^ 64)))
    (S : Set (List Byte)) (withBlock : Bool) (p : IbcProof) (path : Path) (right : Option (List Byte) → Prop) : Prop :=
  ∀ value, (right value → verifyImpl digest decodeU64 withBlock [] p.proof p.root.bytes path value = .ok ()) ∧
    ((∀ b ∈ verifyHashed digest decodeU64 withBlock p.proof p.root.bytes path value, b ∈ S) →
      verifyImpl digest decodeU64 withBlock [] p.proof p.root.bytes path value = .ok () → right value)

theorem AcceptsExactly.congr {withBlock : Bool} {p : IbcProof} {path : Path} {right right' : Option (List Byte) → Prop}
    (h : AcceptsExactly digest decodeU64 S withBlock p path right) (hright : ∀ value, right value ↔ right' value) :
    AcceptsExactly digest decodeU64 S withBlock p path right' := by
  intro value
  rw [← hright value]
  exact h value

theorem valueOf_of_agrees {m : Bindings} {key : List Byte} {value : Option CryptoHash}
    (h : GetAgrees m key (.ok value)) : m.valueOf key = value := by
  unfold GetAgrees at h
  unfold Bindings.valueOf
  split at h
  · rename_i hash hm
    cases h
    rw [hm]
    rfl
  · cases h
  · rename_i hm
    rcases h with h | ⟨h, -⟩
    · cases h
      rw [hm]
      rfl
    · cases h

theorem getRoot_inj {context : Option BlockHeader} {stateRoot stateRoot' root : CryptoHash}
    (h : getRoot digest context stateRoot = .ok root) (h' : getRoot digest context stateRoot' = .ok root) :
    stateRoot = stateRoot' := by
  cases context with
  | none => rw [getRoot_none.mp h, getRoot_none.mp h']
  | some header => rw [(getRoot_some.mp h).1, (getRoot_some.mp h').1]

variable (decodeU64) in
/-- What the generator writes is accepted for the values which stand for the hash it has found, and for no others. -/
theorem acceptsExactly (hd : ∀ b, digest b ≠ emptyTrieRoot) (hinj : Set.InjOn digest S) {a : A}
    (hempty : ∀ p, cell a p = none) {calls : List Call}
    (hS : ∀ t ∈ (State.empty a).visited digest calls, ∀ b, t.Stores b → b ∈ S) {context : Option BlockHeader} {path : Path}
    {p : IbcProof} (h : generateImpl digest context ((State.empty a).run digest calls).trie path = .ok p) :
    ∃ info, PathInfo.tryFrom path = .ok info ∧ ((State.empty a).run digest calls).bindings.valueOf info.key = p.value ∧
      AcceptsExactly digest decodeU64 S context.isSome p path fun value =>
        ValueHashOf digest decodeU64 info (isPacketCommitment path) value p.value (sequencesTail p.value info.seqKind) := by
  obtain ⟨info, proof, hroot, hinfo, hprove, hproof, hbytes⟩ := generateImpl_ok h
  have hreach : Reachable digest ((State.empty a).run digest calls) := Reachable.intro hempty calls
  have hk : info.key.length ≤ maxKeyBytes := (key_length_le hinfo).trans (by decide)
  have hstored : ((State.empty a).run digest calls).bindings.valueOf info.key = p.value := by
    obtain ⟨root, hholds⟩ := hreach.holds hd
    have hagrees := getAgrees_of_holds hd hholds hk
    rw [get_of_prove hd hreach hk hprove] at hagrees
    exact valueOf_of_agrees hagrees
  refine ⟨info, hinfo, hstored, fun value => ⟨?_, ?_⟩⟩
  · intro hvalue
    let o : Opening digest decodeU64 p.proof path value :=
      { context := context
        proof := proof
        ending := sequencesTail p.value info.seqKind
        root := p.root
        stateRoot := ((State.empty a).run digest calls).trie.rootHash
        info := info
        hash := p.value
        bytes_eq := hbytes
        readable := hproof
        root_eq := hroot
        info_eq := hinfo
        hash_eq := hvalue
        verified := verify_of_prove hd hreach hk hprove }
    exact verifyImpl_eq_ok.mpr ⟨rfl, o, rfl, rfl⟩
  · intro hin haccepted
    obtain ⟨-, o, hblock, horoot⟩ := verifyImpl_eq_ok.mp haccepted
    rw [← hblock, ← horoot] at hin
    obtain ⟨hcontext, -, hending⟩ := o.eq_of_bytes hbytes hproof hblock
    obtain rfl := Except.ok.inj (hinfo.symm.trans o.info_eq)
    have hstate : o.stateRoot = ((State.empty a).run digest calls).trie.rootHash := by
      have horoot' := o.root_eq
      rw [hcontext, CryptoHash.eq_of_bytes horoot] at horoot'
      exact getRoot_inj horoot' hroot
    have hv := o.verified
    rw [hstate] at hv
    have hhash := verify_bindings hd hinj hempty hS (o.nodes_mem hin) hv
    have hvalue := o.hash_eq
    rwa [hending, ← hhash, hstored] at hvalue

section

open SolanaIbc.Storage (SequenceTriple)

theorem SequenceTriple.get_lt (t : SequenceTriple) (seqKind : SequenceKind) : (t.get seqKind).getD 0 < 2 ^ 64 := by
  unfold SequenceTriple.get
  cases t.sequences seqKind with
  | none => exact Nat.two_pow_pos 64
  | some n => exact n.lt

/-- The hash the storage keeps for a channel is the one for which the verifier looks, whichever the sequence is. -/
theorem SequenceTriple.toHash_eq (t : SequenceTriple) (seqKind : SequenceKind) :
    ∃ a b, a.length = 8 ∧ b.length = 8 ∧ t.toHash = sequencesHash seqKind (t.bytes seqKind) a b := by
  have hlen : ∀ kind, (t.bytes kind).length = 8 := fun kind => length_beBytes 8 _
  have hhash : ∀ a b, a.length = 8 → b.length = 8 →
      t.bytes .send ++ t.bytes .recv ++ t.bytes .ack = sequenceWords seqKind (t.bytes seqKind) a b →
        t.toHash = sequencesHash seqKind (t.bytes seqKind) a b := by
    intro a b ha hb hwords
    refine CryptoHash.eq_of_bytes ?_
    rw [bytes_sequencesHash (hlen seqKind) ha hb, ← hwords]
    rfl
  cases seqKind with
  | send => exact ⟨_, _, hlen .recv, hlen .ack, hhash _ _ (hlen .recv) (hlen .ack) rfl⟩
  | recv => exact ⟨_, _, hlen .send, hlen .ack, hhash _ _ (hlen .send) (hlen .ack) rfl⟩
  | ack => exact ⟨_, _, hlen .send, hlen .recv, hhash _ _ (hlen .send) (hlen .recv) rfl⟩

variable {info : PathInfo} {packetCommitment : Bool} {value : Option (List Byte)} {stored : CryptoHash} {ending : List Byte}

theorem valueHashOf_none : ValueHashOf digest decodeU64 info packetCommitment value none [] ↔ value = none := by
  cases value with
  | none => exact iff_of_true rfl rfl
  | some v => exact iff_of_false id nofun

theorem valueHashOf_some : ValueHashOf digest decodeU64 info packetCommitment value (some stored) ending ↔
    ∃ v, value = some v ∧ HashOf digest decodeU64 info packetCommitment v stored ending := by
  cases value with
  | none => exact iff_of_false id nofun
  | some v =>
    constructor
    · intro h
      exact ⟨v, rfl, h⟩
    · rintro ⟨_, ⟨⟩, h⟩
      exact h

theorem hashOf_sequence {v : List Byte} {seqKind : SequenceKind} {t : SequenceTriple} (hkind : info.seqKind = some seqKind) :
    HashOf digest decodeU64 info packetCommitment v t.toHash (otherSequences t.toHash seqKind) ↔
      ∃ n, decodeU64 v = .ok n ∧ n.val = (t.get seqKind).getD 0 := by
  obtain ⟨a, b, ha, hb, hhash⟩ := SequenceTriple.toHash_eq t seqKind
  have hlen : ∀ n, (beBytes 8 n).length = 8 := length_beBytes 8
  simp only [HashOf, hkind]
  constructor
  · rintro ⟨n, a', b', hv, ha', hb', -, hhash'⟩
    obtain ⟨hbytes, -⟩ := sequencesHash_inj (hlen _) ha hb (hlen n) ha' hb' (hhash.symm.trans hhash')
    exact ⟨n, hv, (beBytes_inj (SequenceTriple.get_lt t seqKind) n.isLt hbytes).symm⟩
  · rintro ⟨n, hv, hn⟩
    have hbytes : t.bytes seqKind = beBytes 8 n := congrArg (beBytes 8) hn.symm
    rw [hbytes] at hhash
    refine ⟨n, a, b, hv, ha, hb, ?_, hhash⟩
    rw [hhash, otherSequences_sequencesHash (hlen n) ha hb]

theorem hashOf_client {v id : List Byte} (hkind : info.seqKind = none) (hid : info.clientId = some id) :
    HashOf digest decodeU64 info packetCommitment v stored [] ↔
      stored = SolanaIbc.Storage.IbcStorage.digestWithClientId digest id v := by
  simp only [HashOf, hkind, hid, and_true]

theorem hashOf_packet {v : List Byte} (hkind : info.seqKind = none) (hid : info.clientId = none) :
    HashOf digest decodeU64 info true v stored [] ↔ v = stored.bytes := by
  simp only [HashOf, hkind, hid, if_true, and_true, eq_comm]

theorem hashOf_other {v : List Byte} (hkind : info.seqKind = none) (hid : info.clientId = none) :
    HashOf digest decodeU64 info false v stored [] ↔ digest v = stored := by
  simp only [HashOf, hkind, hid, Bool.false_eq_true, if_false, and_true, eq_comm]

end

theorem withClient_seqKind {clientId : List Byte} {make : Counter → List Byte} {info : PathInfo}
    (h : PathInfo.withClient clientId make = .ok info) : info.seqKind = none := by
  unfold PathInfo.withClient at h
  split at h
  · cases h
    rfl
  · cases h

theorem withChannel_plain {tag : Tag} {portId channelId : List Byte} {info : PathInfo}
    (h : PathInfo.withChannel tag portId channelId = .ok info) : info.seqKind = none ∧ info.clientId = none := by
  obtain ⟨pk, -, rfl⟩ := map_eq_ok h
  exact ⟨rfl, rfl⟩

theorem forSequence_clientId {seqKind : SequenceKind} {portId channelId : List Byte} {info : PathInfo}
    (h : PathInfo.forSequence seqKind portId channelId = .ok info) : info.clientId = none := by
  obtain ⟨info', h', rfl⟩ := map_eq_ok h
  exact (withChannel_plain h').2

theorem withSeq_plain {tag : Tag} {portId channelId : List Byte} {seq : Fin (2 ^ 64)} {info : PathInfo}
    (h : PathInfo.withSeq tag portId channelId seq = .ok info) : info.seqKind = none ∧ info.clientId = none := by
  obtain ⟨pk, -, rfl⟩ := map_eq_ok h
  exact ⟨rfl, rfl⟩

/-- A path leads to a sequence or has the identifier of a client, but not both. -/
theorem seqKind_of_clientId {path : Path} {info : PathInfo} {id : List Byte} (h : PathInfo.tryFrom path = .ok info)
    (hid : info.clientId = some id) : info.seqKind = none := by
  cases path with
  | clientState clientId => exact withClient_seqKind h
  | clientConsensusState clientId height => exact withClient_seqKind h
  | connection connectionId =>
    simp only [PathInfo.tryFrom] at h
    split at h
    · cases h
      rfl
    · cases h
  | channelEnd portId channelId => exact (withChannel_plain h).1
  | seqSend portId channelId => exact absurd ((forSequence_clientId h).symm.trans hid) (Option.some_ne_none id).symm
  | seqRecv portId channelId => exact absurd ((forSequence_clientId h).symm.trans hid) (Option.some_ne_none id).symm
  | seqAck portId channelId => exact absurd ((forSequence_clientId h).symm.trans hid) (Option.some_ne_none id).symm
  | commitment portId channelId sequence => exact (withSeq_plain h).1
  | ack portId channelId sequence => exact (withSeq_plain h).1
  | receipt portId channelId sequence => exact (withSeq_plain h).1
  | upgradeClient path =>
    cases h
    rfl
  | _ => cases h

theorem info_of_packet {path : Path} {info : PathInfo} (h : PathInfo.tryFrom path = .ok info)
    (hpacket : isPacketCommitment path = true) : info.seqKind = none ∧ info.clientId = none := by
  cases path with
  | commitment portId channelId sequence => exact withSeq_plain h
  | ack portId channelId sequence => exact withSeq_plain h
  | receipt portId channelId sequence => exact withSeq_plain h
  | _ => cases hpacket

variable (decodeU64) in
/-- With what the generator has made, the verifier accepts exactly the right value: none if nothing is stored, for a
sequence the number in its place among the three which are stored, and otherwise what has the stored hash, with the
identifier of a client if the path has one, or the hash itself for a packet. -/
theorem generate_verifies (hd : ∀ b, digest b ≠ emptyTrieRoot) (hinj : Set.InjOn digest S) {a : A}
    (hempty : ∀ p, cell a p = none) {calls : List Call}
    (hS : ∀ t ∈ (State.empty a).visited digest calls, ∀ b, t.Stores b → b ∈ S) {context : Option BlockHeader} {path : Path}
    {p : IbcProof} (h : generateImpl digest context ((State.empty a).run digest calls).trie path = .ok p) :
    ∃ info, PathInfo.tryFrom path = .ok info ∧ ((State.empty a).run digest calls).bindings.valueOf info.key = p.value ∧
      (p.value = none → AcceptsExactly digest decodeU64 S context.isSome p path fun value => value = none) ∧
      ∀ stored, p.value = some stored →
        (∀ (seqKind : SequenceKind) (t : SolanaIbc.Storage.SequenceTriple), info.seqKind = some seqKind → stored = t.toHash →
          AcceptsExactly digest decodeU64 S context.isSome p path fun value =>
            ∃ v, value = some v ∧ ∃ n, decodeU64 v = .ok n ∧ n.val = (t.get seqKind).getD 0) ∧
        (∀ id, info.clientId = some id →
          AcceptsExactly digest decodeU64 S context.isSome p path fun value =>
            ∃ v, value = some v ∧ stored = SolanaIbc.Storage.IbcStorage.digestWithClientId digest id v) ∧
        (isPacketCommitment path = true →
          AcceptsExactly digest decodeU64 S context.isSome p path fun value => ∃ v, value = some v ∧ v = stored.bytes) ∧
        (info.seqKind = none → info.clientId = none → isPacketCommitment path = false →
          AcceptsExactly digest decodeU64 S context.isSome p path fun value => ∃ v, value = some v ∧ digest v = stored) := by
  obtain ⟨info, hinfo, hstored, haccepts⟩ := acceptsExactly decodeU64 hd hinj hempty hS h
  refine ⟨info, hinfo, hstored, ?_, ?_⟩
  · intro hnone
    rw [hnone] at haccepts
    exact haccepts.congr fun value => valueHashOf_none
  · intro stored hvalue
    rw [hvalue] at haccepts
    have hexactly : ∀ right : List Byte → Prop,
        (∀ v, HashOf digest decodeU64 info (isPacketCommitment path) v stored (sequencesTail (some stored) info.seqKind) ↔
          right v) →
        AcceptsExactly digest decodeU64 S context.isSome p path fun value => ∃ v, value = some v ∧ right v := by
      intro right hright
      refine haccepts.congr fun value => ?_
      rw [valueHashOf_some]
      simp only [hright]
    refine ⟨?_, ?_, ?_, ?_⟩
    · rintro seqKind t hkind rfl
      refine hexactly _ fun v => ?_
      rw [hkind]
      exact hashOf_sequence hkind
    · intro id hid
      have hkind := seqKind_of_clientId hinfo hid
      refine hexactly _ fun v => ?_
      rw [hkind]
      exact hashOf_client hkind hid
    · intro hpacket
      obtain ⟨hkind, hid⟩ := info_of_packet hinfo hpacket
      refine hexactly _ fun v => ?_
      rw [hkind, hpacket]
      exact hashOf_packet hkind hid
    · intro hkind hid hpacket
      refine hexactly _ fun v => ?_
      rw [hkind, hpacket]
      exact hashOf_other hkind hid

/-- The sequences of the sample channel. -/
def channelSequences : SolanaIbc.Storage.SequenceTriple :=
  ((SolanaIbc.Storage.SequenceTriple.default.set .send (u64 7)).set .recv (u64 4)).set .ack (u64 5)

def channelTrie : Trie (TestAllocator RawNode) := ((State.empty sampleAlloc).run channelDigest channelCalls).trie

def recvGenerated : IbcProof := ⟨recvProof, (channelHeader channelRoot).calcHash channelDigest, some channelTriple⟩

theorem generate_verifies_sample :
    generateForBlock channelDigest (channelHeader channelRoot) channelTrie (samplePath .seqRecv) = .ok recvGenerated ∧
      AcceptsExactly channelDigest decodeSmall {b | b ∈ channelHashed} true recvGenerated (samplePath .seqRecv)
        fun value => ∃ v, value = some v ∧ ∃ n, decodeSmall v = .ok n ∧ n.val = (channelSequences.get .recv).getD 0 := by
  have hgenerate : generateImpl channelDigest (some (channelHeader channelRoot)) channelTrie (samplePath .seqRecv) =
      .ok recvGenerated := by decide +kernel
  have hstores : ∀ t ∈ (State.empty sampleAlloc).visited channelDigest channelCalls, storesOnly channelHashed t = true := by
    decide +kernel
  have hS : ∀ t ∈ (State.empty sampleAlloc).visited channelDigest channelCalls, ∀ b, t.Stores b → b ∈ {b | b ∈ channelHashed} :=
    fun t ht b hb => mem_of_storesOnly (hstores t ht) hb
  have hinfo := samplePath_seqRecv
  have htriple : channelTriple = channelSequences.toHash := by decide
  refine ⟨hgenerate, ?_⟩
  obtain ⟨info, hinfo', -, -, hstored⟩ := generate_verifies decodeSmall channelDigest_ne channelDigest_injOn
    sampleAlloc_empty hS hgenerate
  obtain rfl := Except.ok.inj (hinfo.symm.trans hinfo')
  exact (hstored channelTriple rfl).1 .recv channelSequences rfl htriple

end CfGuest
