import EmulatedLightClient.IbcProofs
import EmulatedLightClient.ProofBinding

/-!
# Accepted proofs for IBC paths tell the truth

Whatever bytes are accepted consist of a header with the root as its hash, of a proof and, for the sequences of a
channel, of the other two of them. They bind the key of the path to one hash and so to one value.
-/

namespace CfGuest

open ByteBits Bits FailingState GuestChain MachineInts Memory Nodes Readers SealableTrie TrieIds TrieProof

variable {digest : List Byte → CryptoHash} {S : Set (List Byte)} {DecodeError : Type}
  {decodeU64 : List Byte → Except DecodeError (Fin (2 ^ 64))}

theorem itemNode_shorter {s s₁ : Slice} {want : OwnedRef} {item : Item} {node : Node Unit Unit}
    (h : itemNode s want item = some (s₁, node)) : s₁.bits.length < s.bits.length := by
  cases item with
  | branch child =>
    simp only [itemNode, Option.map_eq_some_iff, Prod.exists, Prod.mk.injEq] at h
    obtain ⟨bit, s', hpop, rfl, -⟩ := h
    rw [Slice.popBack_inv hpop, List.length_append, List.length_singleton]
    exact Nat.lt_succ_self _
  | extension length =>
    simp only [itemNode, Option.bind_eq_some_iff, Option.map_eq_some_iff, Prod.exists, Prod.mk.injEq] at h
    obtain ⟨suffix, s', hpop, key, -, rfl, -⟩ := h
    obtain ⟨hbits, hlen, -⟩ := Slice.popBackSlice_inv hpop
    rw [hbits, List.length_append, hlen]
    exact Nat.lt_add_of_pos_right (Nat.pos_of_ne_zero length.nonzero)

theorem climb_shorter {items : List Item} {s s' : Slice} {want want' : OwnedRef}
    (h : climb digest s want items = some (s', want')) : items.length ≤ s.bits.length := by
  induction items generalizing s want with
  | nil => exact Nat.zero_le _
  | cons item items ih =>
    simp only [climb] at h
    cases hitem : itemNode s want item with
    | none =>
      rw [hitem] at h
      cases h
    | some r =>
      rw [hitem] at h
      exact (Nat.succ_le_succ (ih h)).trans (itemNode_shorter hitem)

theorem actualReference_shorter {s s₁ : Slice} {want : OwnedRef} {actual : Actual}
    (h : actualReference digest s actual = some (s₁, want)) : s₁.bits.length ≤ s.bits.length := by
  cases actual with
  | branch left right =>
    simp only [actualReference, actualNode, Option.map_some, Option.some.injEq, Prod.mk.injEq] at h
    obtain ⟨rfl, -⟩ := h
    exact le_rfl
  | extension left keyBuf child =>
    simp only [actualReference, Option.map_eq_some_iff, Prod.exists, Prod.mk.injEq] at h
    obtain ⟨s₂, node, hnode, rfl, -⟩ := h
    simp only [actualNode, Option.bind_eq_some_iff, Prod.exists] at hnode
    obtain ⟨suffix, s₃, hpop, key, -, hif⟩ := hnode
    split at hif
    · cases hif
    · cases hif
      rw [(Slice.popBackSlice_inv hpop).1, List.length_append]
      exact Nat.le_add_right _ _
  | lookupKeyLeft len hash =>
    simp only [actualReference, Option.map_eq_some_iff, Prod.exists, Prod.mk.injEq] at h
    obtain ⟨suffix, s₂, hpop, rfl, -⟩ := h
    rw [(Slice.popBackSlice_inv hpop).1, List.length_append]
    exact Nat.le_add_right _ _

/-- Unless the trie is empty, each item stands for at least one bit of the key. -/
theorem entries_le {proof : Proof} {root : CryptoHash} {key : List Byte} {hash : Option CryptoHash}
    (hroot : root ≠ CryptoHash.default) (hv : proof.verify digest root key hash = true) :
    proof.entries ≤ 8 * key.length + 1 := by
  obtain ⟨s, s₁, want, s', hs, hstart, hclimb, -⟩ := (verify_iff hroot).mp hv
  obtain ⟨-, hbits⟩ := bitsOf_of_fromBytes hs
  have hlen : s.bits.length = 8 * key.length := by rw [hbits, length_bitsOf, Nat.mul_comm]
  have hitems := climb_shorter hclimb
  cases proof with
  | positive p =>
    cases hash with
    | none => cases hstart
    | some hash =>
      simp only [Proof.start, Option.some.injEq, Prod.mk.injEq] at hstart
      obtain ⟨rfl, -⟩ := hstart
      simp only [Proof.items] at hitems
      simp only [Proof.entries]
      omega
  | negative p =>
    cases hash with
    | some hash => cases hstart
    | none =>
      obtain ⟨actual, items⟩ := p
      simp only [Proof.start, Option.bind_eq_some_iff] at hstart
      obtain ⟨actual, rfl, hact⟩ := hstart
      have hshorter := actualReference_shorter hact
      simp only [Proof.items] at hitems
      simp only [Proof.entries, Option.toList_some, List.length_singleton]
      omega

theorem key_length_le {path : Path} {info : PathInfo} (h : PathInfo.tryFrom path = .ok info) : info.key.length ≤ 22 := by
  obtain ⟨target, -, hkey⟩ := PathInfo.tryFrom_ok h
  exact Target.length_key_le hkey

/-- The proof can be written, except for one which the empty trie does not look at. -/
theorem serialize_of_verify {path : Path} {info : PathInfo} (hinfo : PathInfo.tryFrom path = .ok info) {proof : Proof}
    {root : CryptoHash} {hash : Option CryptoHash} (hv : proof.verify digest root info.key hash = true) :
    proof.serialize = some proof.layout ∨ root = CryptoHash.default ∧ 8192 ≤ proof.entries := by
  by_cases hentries : proof.entries < 8192
  · exact .inl (if_pos hentries)
  · refine .inr ⟨?_, not_lt.mp hentries⟩
    by_contra hroot
    have hle := entries_le hroot hv
    have hkey := key_length_le hinfo
    omega

section

variable {info info' : PathInfo} {packetCommitment packetCommitment' : Bool} {value value' ending ending' : List Byte}
  {hash : CryptoHash}

theorem HashOf.length_ending (h : HashOf digest decodeU64 info packetCommitment value hash ending) :
    ending.length = if info.seqKind.isSome then 16 else 0 := by
  unfold HashOf at h
  split at h
  · rename_i hkind
    obtain ⟨seq, a, b, -, ha, hb, rfl, -⟩ := h
    rw [List.length_append, ha, hb, hkind]
    rfl
  · rename_i hkind _
    rw [h.2, hkind]
    rfl
  · rename_i hkind _
    rw [h.2, hkind]
    rfl

theorem HashOf.number_unique (h : HashOf digest decodeU64 info packetCommitment value hash ending)
    (h' : HashOf digest decodeU64 info' packetCommitment' value' hash ending') (hsame : info'.seqKind = info.seqKind)
    (hseq : info.seqKind.isSome) : decodeU64 value' = decodeU64 value := by
  obtain ⟨seqKind, hkind⟩ := Option.isSome_iff_exists.mp hseq
  simp only [HashOf, hsame, hkind] at h h'
  obtain ⟨seq, a, b, hvalue, ha, hb, -, hhash⟩ := h
  obtain ⟨seq', a', b', hvalue', ha', hb', -, hhash'⟩ := h'
  have hlen : ∀ n : Fin (2 ^ 64), (beBytes 8 n).length = 8 := fun n => length_beBytes 8 n
  obtain ⟨hseq, -⟩ := sequencesHash_inj (hlen seq) ha hb (hlen seq') ha' hb' (hhash.symm.trans hhash')
  have heq : seq = seq' := Fin.ext (beBytes_inj seq.isLt seq'.isLt hseq)
  rw [hvalue, hvalue', heq]

end

section

variable {info info' : PathInfo} {packetCommitment packetCommitment' : Bool} {value value' : Option (List Byte)}
  {ending ending' : List Byte}
  {hash : Option CryptoHash}

theorem ValueHashOf.isSome (h : ValueHashOf digest decodeU64 info packetCommitment value hash ending) :
    hash.isSome = value.isSome := by
  unfold ValueHashOf at h
  split at h
  · rfl
  · rfl
  · exact h.elim

theorem ValueHashOf.length_ending (h : ValueHashOf digest decodeU64 info packetCommitment value hash ending) :
    ending.length = if value.isSome ∧ info.seqKind.isSome then 16 else 0 := by
  unfold ValueHashOf at h
  split at h
  · rw [h]
    rfl
  · rw [h.length_ending]
    simp only [Option.isSome_some, true_and]
  · exact h.elim

theorem ValueHashOf.number_unique (h : ValueHashOf digest decodeU64 info packetCommitment value hash ending)
    (h' : ValueHashOf digest decodeU64 info' packetCommitment' value' hash ending') (hsame : info'.seqKind = info.seqKind)
    (hseq : info.seqKind.isSome) : value'.map decodeU64 = value.map decodeU64 := by
  unfold ValueHashOf at h h'
  cases hash with
  | none =>
    cases value with
    | some v => exact h.elim
    | none =>
      cases value' with
      | some v => exact h'.elim
      | none => rfl
  | some hash =>
    cases value with
    | none => exact h.elim
    | some v =>
      cases value' with
      | none => exact h'.elim
      | some v' => exact congrArg some (h.number_unique h' hsame hseq)

end

variable (digest decodeU64)

def headerHashed (withBlock : Bool) (bytes : List Byte) : List (List Byte) :=
  if withBlock then
    match readHeader bytes with
    | .ok (header, _) => [header.serialize]
    | .error _ => []
  else []

def nodesHashed (withBlock : Bool) (bytes root : List Byte) (path : Path) (value : Option (List Byte)) : List (List Byte) :=
  match CryptoHash.tryFrom root, PathInfo.tryFrom path with
  | some rootHash, .ok info =>
    match (readCommitted digest withBlock rootHash bytes : Except (VerifyError DecodeError) _) with
    | .error _ => []
    | .ok (_, proof, tail) =>
      match expectedValue digest decodeU64 info (isPacketCommitment path) tail value with
      | .error _ => []
      | .ok (hash, _) => proof.hashed digest info.key hash
  | _, _ => []

/-- Byte strings which are hashed for the header and for nodes of the trie while the bytes are verified. -/
def verifyHashed (withBlock : Bool) (bytes root : List Byte) (path : Path) (value : Option (List Byte)) : List (List Byte) :=
  headerHashed withBlock bytes ++ nodesHashed digest decodeU64 withBlock bytes root path value

variable {digest decodeU64}

theorem headerHashed_eq (context : Option BlockHeader) (rest : List Byte) :
    headerHashed context.isSome (headerBytes context ++ rest) = context.toList.map BlockHeader.serialize := by
  cases context with
  | none => rfl
  | some header =>
    have hread : readHeader (header.serialize ++ rest) = .ok (header, rest) := (readHeader_reads _ _ _).mpr ⟨trivial, rfl⟩
    simp only [headerHashed, headerBytes, Option.isSome_some, if_true, Option.elim_some, hread]
    rfl

namespace Opening

variable {bytes bytes' : List Byte} {path path' : Path} {value value' : Option (List Byte)}

theorem nodesHashed_eq (o : Opening digest decodeU64 bytes path value) :
    nodesHashed digest decodeU64 o.context.isSome bytes o.root.bytes path value = o.proof.hashed digest o.info.key o.hash := by
  have hread : (readCommitted digest o.context.isSome o.root bytes : Except (VerifyError DecodeError) _) =
      .ok (o.stateRoot, o.proof, o.ending) :=
    readCommitted_eq_ok.mpr ⟨o.context, rfl, o.root_eq, o.readable, o.bytes_eq⟩
  simp only [nodesHashed, CryptoHash.tryFrom_bytes, o.info_eq, hread, expectedValue_eq_ok.mpr o.hash_eq]

theorem verifyHashed_eq (o : Opening digest decodeU64 bytes path value) :
    verifyHashed digest decodeU64 o.context.isSome bytes o.root.bytes path value =
      o.context.toList.map BlockHeader.serialize ++ o.proof.hashed digest o.info.key o.hash := by
  have hheader := headerHashed_eq o.context (o.proof.layout ++ o.ending)
  rw [← o.bytes_eq] at hheader
  rw [verifyHashed, o.nodesHashed_eq, hheader]

theorem header_mem (o : Opening digest decodeU64 bytes path value)
    (hin : ∀ b ∈ verifyHashed digest decodeU64 o.context.isSome bytes o.root.bytes path value, b ∈ S) {header : BlockHeader}
    (h : o.context = some header) : header.serialize ∈ S := by
  refine hin _ ?_
  rw [o.verifyHashed_eq, h]
  exact List.mem_cons_self ..

theorem nodes_mem (o : Opening digest decodeU64 bytes path value)
    (hin : ∀ b ∈ verifyHashed digest decodeU64 o.context.isSome bytes o.root.bytes path value, b ∈ S) :
    ∀ b ∈ o.proof.hashed digest o.info.key o.hash, b ∈ S := by
  intro b hb
  refine hin b ?_
  rw [o.verifyHashed_eq]
  exact List.mem_append_right _ hb

/-- Only one header has the root for its hash, so there is one root of the trie. -/
theorem stateRoot_unique (hinj : Set.InjOn digest S) (o : Opening digest decodeU64 bytes path value)
    (o' : Opening digest decodeU64 bytes' path' value') (hkind : o'.context.isSome = o.context.isSome)
    (hroot : o'.root = o.root) (hin : ∀ header, o.context = some header → header.serialize ∈ S)
    (hin' : ∀ header, o'.context = some header → header.serialize ∈ S) : o'.stateRoot = o.stateRoot := by
  have hr := o.root_eq
  have hr' := o'.root_eq
  cases hc : o.context with
  | none =>
    cases hc' : o'.context with
    | some header' =>
      rw [hc, hc'] at hkind
      cases hkind
    | none =>
      rw [hc, getRoot_none] at hr
      rw [hc', getRoot_none] at hr'
      rw [hr, hr', hroot]
  | some header =>
    cases hc' : o'.context with
    | none =>
      rw [hc, hc'] at hkind
      cases hkind
    | some header' =>
      rw [hc] at hr
      rw [hc'] at hr'
      obtain ⟨hstate, hhash⟩ := getRoot_some.mp hr
      obtain ⟨hstate', hhash'⟩ := getRoot_some.mp hr'
      have hbytes := hinj (hin' _ hc') (hin _ hc) (hhash'.trans (hroot.trans hhash.symm))
      obtain ⟨rfl, -⟩ := readHeader_reads.write_append_inj trivial trivial (congrArg (· ++ ([] : List Byte)) hbytes)
      rw [hstate, hstate']

/-- Bytes accepted for paths with one key under one root stand for one hash. -/
theorem hash_unique (hinj : Set.InjOn digest S) (o : Opening digest decodeU64 bytes path value)
    (o' : Opening digest decodeU64 bytes' path' value') (hkind : o'.context.isSome = o.context.isSome)
    (hroot : o'.root = o.root) (hkey : o'.info.key = o.info.key)
    (hin : ∀ b ∈ verifyHashed digest decodeU64 o.context.isSome bytes o.root.bytes path value, b ∈ S)
    (hin' : ∀ b ∈ verifyHashed digest decodeU64 o'.context.isSome bytes' o'.root.bytes path' value', b ∈ S) :
    o'.hash = o.hash := by
  have hstate := o.stateRoot_unique hinj o' hkind hroot (fun _ => o.header_mem hin) (fun _ => o'.header_mem hin')
  have hv := o.verified
  have hv' := o'.verified
  have hnodes' := o'.nodes_mem hin'
  rw [hkey] at hnodes' hv'
  rw [hstate] at hv'
  exact verify_agree hinj hnodes' (o.nodes_mem hin) hv' hv

end Opening

theorem Opening.serialize_eq {bytes : List Byte} {path : Path} {value : Option (List Byte)}
    (o : Opening digest decodeU64 bytes path value) :
    o.proof.serialize = some o.proof.layout ∨
      value = none ∧ o.stateRoot = CryptoHash.default ∧ 8192 ≤ o.proof.entries := by
  rcases serialize_of_verify o.info_eq o.verified with hserialize | ⟨hroot, hentries⟩
  · exact .inl hserialize
  · refine .inr ⟨?_, hroot, hentries⟩
    have hv := o.verified
    rw [hroot] at hv
    have hsome := o.hash_eq.isSome
    rw [verify_default hv] at hsome
    exact Option.isNone_iff_eq_none.mp (Option.isSome_eq_false_iff.mp hsome.symm)

/-- Accepted bytes are a header with the root as its hash, a proof and, for a sequence which is there, sixteen bytes
more. The proof is as it is serialised, except for a long one under the root of the empty trie, which is not looked
at. The root of the trie in the header binds the key to what stands for the value, or to nothing if there is no value:
that is what a trie with the root holds and what anything accepted for the key under the root of the header is for. -/
theorem verifyForBlock_sound (hd : ∀ b, digest b ≠ emptyTrieRoot) (hinj : Set.InjOn digest S)
    {commitmentPrefix bytes root : List Byte} {path : Path} {value : Option (List Byte)}
    (hin : ∀ b ∈ verifyHashed digest decodeU64 true bytes root path value, b ∈ S)
    (h : verifyForBlock digest decodeU64 commitmentPrefix bytes root path value = .ok ()) :
    ∃ (info : PathInfo) (header : BlockHeader) (proof : Proof) (ending : List Byte) (hash : Option CryptoHash),
      PathInfo.tryFrom path = .ok info ∧ (header.calcHash digest).bytes = root ∧
      bytes = header.serialize ++ (proof.layout ++ ending) ∧
      (proof.serialize = some proof.layout ∨
        value = none ∧ header.stateRoot = CryptoHash.default ∧ 8192 ≤ proof.entries) ∧
      ending.length = (if value.isSome ∧ info.seqKind.isSome then 16 else 0) ∧
      ValueHashOf digest decodeU64 info (isPacketCommitment path) value hash ending ∧
      (∀ (A : Type) [LawfulAllocator A RawNode] (a : A) (calls : List Call), (∀ p, cell a p = none) →
        (∀ t ∈ (State.empty a).visited digest calls, ∀ b, t.Stores b → b ∈ S) →
        ((State.empty a).run digest calls).trie.rootHash = header.stateRoot →
        ((State.empty a).run digest calls).bindings.valueOf info.key = hash) ∧
      ∀ commitmentPrefix' bytes' path' info' value', PathInfo.tryFrom path' = .ok info' → info'.key = info.key →
        (∀ b ∈ verifyHashed digest decodeU64 true bytes' root path' value', b ∈ S) →
        verifyForBlock digest decodeU64 commitmentPrefix' bytes' root path' value' = .ok () →
        (∃ ending', ValueHashOf digest decodeU64 info' (isPacketCommitment path') value' hash ending') ∧
          value'.isSome = value.isSome ∧
          (info'.seqKind = info.seqKind → info.seqKind.isSome → value'.map decodeU64 = value.map decodeU64) := by
  obtain ⟨-, o, hblock, rfl⟩ := verifyImpl_eq_ok.mp h
  obtain ⟨header, hheader⟩ := Option.isSome_iff_exists.mp hblock
  rw [← hblock] at hin
  have hroot := o.root_eq
  have hbytes := o.bytes_eq
  rw [hheader] at hroot hbytes
  obtain ⟨hstate, hhash⟩ := getRoot_some.mp hroot
  refine ⟨o.info, header, o.proof, o.ending, o.hash, o.info_eq, congrArg CryptoHash.bytes hhash, hbytes, ?_,
    o.hash_eq.length_ending, o.hash_eq, ?_, ?_⟩
  · rw [← hstate]
    exact o.serialize_eq
  · intro A _ a calls hempty hS hrun
    have hv := o.verified
    rw [hstate, ← hrun] at hv
    exact verify_bindings hd hinj hempty hS (o.nodes_mem hin) hv
  · intro commitmentPrefix' bytes' path' info' value' hinfo' hkey hin' h'
    obtain ⟨-, o', hblock', hroot'⟩ := verifyImpl_eq_ok.mp h'
    obtain rfl := Except.ok.inj (hinfo'.symm.trans o'.info_eq)
    rw [← hblock', ← hroot'] at hin'
    have hsame := o.hash_unique hinj o' (hblock'.trans hblock.symm) (CryptoHash.eq_of_bytes hroot') hkey hin hin'
    have hvalue' := o'.hash_eq
    rw [hsame] at hvalue'
    exact ⟨⟨o'.ending, hvalue'⟩, hvalue'.isSome.symm.trans o.hash_eq.isSome, o.hash_eq.number_unique hvalue'⟩

/-- The value which a varint of one byte in the first field holds, or the default if there is no field. -/
def decodeSmall : List Byte → Except Unit (Fin (2 ^ 64))
  | [] => .ok (u64 0)
  | [field, value] => if field = 0x08#8 ∧ value < 0x80#8 then .ok (u64 value.toNat) else .error ()
  | _ => .error ()

/-- Of the channel the next packets are the seventh to be sent, the fourth to be received and the fifth to be acknowledged. -/
def channelTriple : CryptoHash := sequencesHash .send (beBytes 8 7) (beBytes 8 4) (beBytes 8 5)

def channelRoot : CryptoHash := hashOf 0xcc9a99e8160842573cd240c9e4e78a86b0ad63a88111d17897d7313bca1826ce

def channelHeader (stateRoot : CryptoHash) : BlockHeader :=
  BlockHeader.generateGenesis (Height.clamp 1) (Height.clamp 42) (NonZero.clamp 24) stateRoot (hashOf 86)

/-- Hashes of the only node and of headers of the trie with it and of the empty one. -/
def channelTable : List (List Byte × CryptoHash) :=
  [(extPreimage 0 (bitsOf sampleSequences.key) (true, channelTriple), channelRoot),
    ((channelHeader channelRoot).serialize, hashOf 0x5d7d795fed2c3de6867426ab45ea3a782e8f9ea64a39a3861e5d83f71c20396f),
    ((channelHeader CryptoHash.default).serialize, hashOf 0x3ae8166ee20c6b60b3f7a07de7405d86dd22c97f6386e3da2f13db5ef4e2ceb9)]

def channelDigest : List Byte → CryptoHash := tableDigest channelTable

def channelCalls : List Call := [.set sampleSequences.key channelTriple]

theorem channelDigest_ne (b : List Byte) : channelDigest b ≠ emptyTrieRoot := tableDigest_ne (by decide) b

def channelHashed : List (List Byte) := channelTable.map Prod.fst

theorem channelDigest_injOn : Set.InjOn channelDigest {b | b ∈ channelHashed} := tableDigest_injOn (by decide +kernel)

/-- The proof that the fourth packet is the next one to be received. -/
def recvProof : List Byte :=
  (channelHeader channelRoot).serialize ++ [0x01#8, 0x00#8, 0x20#8, 0x70#8] ++ beBytes 8 7 ++ beBytes 8 5

def channelBlock : List Byte := ((channelHeader channelRoot).calcHash channelDigest).bytes

/-- With the proof of the number four nothing can be accepted for another one. -/
theorem verifyForBlock_sound_sample :
    verifyForBlock channelDigest decodeSmall [] recvProof channelBlock (samplePath .seqRecv) (some [0x08#8, 0x04#8]) =
        .ok () ∧
      ∀ bytes value, (∀ b ∈ verifyHashed channelDigest decodeSmall true bytes channelBlock (samplePath .seqRecv) (some value),
          b ∈ channelHashed) →
        verifyForBlock channelDigest decodeSmall [] bytes channelBlock (samplePath .seqRecv) (some value) = .ok () →
        decodeSmall value = .ok (u64 4) := by
  have haccepted : verifyForBlock channelDigest decodeSmall [] recvProof channelBlock (samplePath .seqRecv)
      (some [0x08#8, 0x04#8]) = .ok () := by decide +kernel
  have hhashed : ∀ b ∈ verifyHashed channelDigest decodeSmall true recvProof channelBlock (samplePath .seqRecv)
      (some [0x08#8, 0x04#8]), b ∈ channelHashed := by decide +kernel
  have hinfo := samplePath_seqRecv
  refine ⟨haccepted, ?_⟩
  intro bytes value hin hvalue
  obtain ⟨info, header, proof, ending, hash, hinfo', -, -, -, -, -, -, hother⟩ :=
    verifyForBlock_sound channelDigest_ne channelDigest_injOn hhashed haccepted
  obtain rfl := Except.ok.inj (hinfo.symm.trans hinfo')
  obtain ⟨-, -, hnumber⟩ := hother [] bytes _ _ _ hinfo rfl hin hvalue
  exact Option.some.inj (hnumber rfl rfl)

/-- A proof of nothing being there, with items at which the empty trie does not look. -/
def longProof (n : Nat) : Proof := .negative ⟨none, List.replicate n (.branch (OwnedRef.node CryptoHash.default))⟩

theorem longProof_entries (n : Nat) : (longProof n).entries = n := List.length_replicate

theorem longProof_readable {n : Nat} (h : n < 2 ^ nonMembershipShift) : Readable (longProof n) := by
  refine ⟨⟨nofun, ?_⟩, (longProof_entries n).trans_lt h⟩
  intro item hitem
  rw [List.eq_of_mem_replicate hitem]
  trivial

/-- From 8192 entries on nothing which is written is the layout of the proof. -/
theorem layout_ne_longProof {n : Nat} (hn : 8192 ≤ n) (h : n < 2 ^ nonMembershipShift) {proof : Proof} {bytes : List Byte}
    (hbytes : proof.serialize = some bytes) : (longProof n).layout ≠ bytes := by
  unfold Proof.serialize at hbytes
  split at hbytes
  · rename_i hentries
    cases hbytes
    intro hlayout
    rw [Proof.layout_eq, Proof.layout_eq] at hlayout
    obtain ⟨hbytes, -⟩ := List.append_inj hlayout (by rw [length_leBytes, length_leBytes])
    obtain ⟨hlt, -, heq⟩ := (tag_eq_iff ((longProof_entries n).trans_lt h)).mp rfl
    obtain ⟨hlt', -, heq'⟩ := (tag_eq_iff (hentries.trans (by decide))).mp rfl
    rw [longProof_entries, leBytes_inj hlt hlt' hbytes, ← heq'] at heq
    omega
  · cases hbytes

theorem verify_longProof (n : Nat) (digest : List Byte → CryptoHash) (key : List Byte) :
    (longProof n).verify digest CryptoHash.default key none = true := by
  rw [longProof, Proof.verify, NonMembership.verify, if_pos rfl]

theorem verifyForBlock_longProof {n : Nat} (h : n < 2 ^ nonMembershipShift) (header : BlockHeader)
    (hroot : header.stateRoot = CryptoHash.default) :
    verifyForBlock channelDigest decodeSmall [] (header.serialize ++ (longProof n).layout) (header.calcHash channelDigest).bytes
      (samplePath .seqRecv) none = .ok () := by
  have hinfo := samplePath_seqRecv
  let o : Opening channelDigest decodeSmall (header.serialize ++ (longProof n).layout) (samplePath .seqRecv) none :=
    { context := some header
      proof := longProof n
      ending := []
      root := header.calcHash channelDigest
      stateRoot := CryptoHash.default
      info := { sampleSequences with seqKind := some .recv }
      hash := none
      bytes_eq := by
        rw [List.append_nil]
        rfl
      readable := longProof_readable h
      root_eq := getRoot_some.mpr ⟨hroot.symm, rfl⟩
      info_eq := hinfo
      hash_eq := rfl
      verified := verify_longProof n _ _ }
  exact verifyImpl_eq_ok.mpr ⟨rfl, o, rfl, rfl⟩

/-- Under a header of the empty trie a proof of 8192 items is accepted for there being nothing, though no serialised
proof comes after the header. -/
theorem long_proof_accepted :
    verifyForBlock channelDigest decodeSmall [] ((channelHeader CryptoHash.default).serialize ++ (longProof 8192).layout)
        ((channelHeader CryptoHash.default).calcHash channelDigest).bytes (samplePath .seqRecv) none = .ok () ∧
      ¬ ∃ (header : BlockHeader) (proof : Proof) (bytes : List Byte), proof.serialize = some bytes ∧
        (channelHeader CryptoHash.default).serialize ++ (longProof 8192).layout = header.serialize ++ bytes := by
  have hlt : 8192 < 2 ^ nonMembershipShift := by decide
  refine ⟨verifyForBlock_longProof hlt _ rfl, ?_⟩
  rintro ⟨header, proof, bytes, hbytes, heq⟩
  obtain ⟨-, hlayout⟩ := readHeader_reads.write_append_inj trivial trivial heq
  exact layout_ne_longProof le_rfl hlt hbytes hlayout

end CfGuest
