import EmulatedLightClient.GuestChainInvariant
import EmulatedLightClient.GuestClient
import EmulatedLightClient.Weights

/-!
# Headers which a client accepts

The client goes through signatures until stake of those who signed reaches
quorum; nothing after that matters. Any two accepted headers of one epoch have a
validator in common who signed both.
-/

namespace CfGuest

open ByteBits MachineInts Nodes GuestChain FailingState Weights
open SealableTrie (hashOf tableDigest)

variable {PK Sig : Type} {verifier : Verifier PK Sig}

/-- The validator at given position unless they have been taken. -/
def slot (validators : List (Option (Validator PK))) (i : Nat) : Option (Validator PK) :=
  (validators[i]?).join

theorem slot_set (validators : List (Option (Validator PK))) (i j : Nat) :
    slot (validators.set i none) j = if i = j then none else slot validators j := by
  unfold slot
  rw [List.getElem?_set]
  split
  · split <;> rfl
  · rfl

theorem slot_map_some (validators : List (Validator PK)) (i : Nat) :
    slot (validators.map some) i = validators[i]? := by
  unfold slot
  rw [List.getElem?_map]
  cases validators[i]? <;> rfl

/-- Different validators made the signatures and all of them are valid. -/
structure Counted (verifier : Verifier PK Sig) (fp : Fingerprint)
    (validators : List (Option (Validator PK))) (signatures : List (Fin (2 ^ 16) × Sig)) : Prop where
  distinct : (signatures.map Prod.fst).Nodup
  valid : ∀ s ∈ signatures, ∃ v, slot validators s.1.val = some v ∧
    verifier fp.bytes v.pubkey s.2 = true

def countedStake (validators : List (Option (Validator PK)))
    (signatures : List (Fin (2 ^ 16) × Sig)) : Nat :=
  (signatures.map fun s => (slot validators s.1.val).elim 0 (·.stake.get)).sum

section

variable {fp : Fingerprint} {validators : List (Option (Validator PK))} {idx : Fin (2 ^ 16)}
  {sig : Sig} {signatures : List (Fin (2 ^ 16) × Sig)} {v : Validator PK}

theorem counted_nil : Counted verifier fp validators [] :=
  ⟨List.nodup_nil, fun _ h => nomatch h⟩

/-- Counting a signature takes the validator out. -/
theorem Counted.cons (hv : slot validators idx.val = some v)
    (hverify : verifier fp.bytes v.pubkey sig = true)
    (h : Counted verifier fp (validators.set idx.val none) signatures) :
    Counted verifier fp validators ((idx, sig) :: signatures) := by
  constructor
  · refine List.nodup_cons.mpr ⟨?_, h.distinct⟩
    intro hmem
    obtain ⟨s, hs, rfl⟩ := List.mem_map.mp hmem
    obtain ⟨w, hw, -⟩ := h.valid s hs
    rw [slot_set, if_pos rfl] at hw
    cases hw
  · intro s hs
    rcases List.mem_cons.mp hs with rfl | hs
    · exact ⟨v, hv, hverify⟩
    · obtain ⟨w, hw, hws⟩ := h.valid s hs
      rw [slot_set] at hw
      split at hw
      · cases hw
      · exact ⟨w, hw, hws⟩

theorem Counted.ne_of_mem (h : Counted verifier fp validators ((idx, sig) :: signatures))
    {s : Fin (2 ^ 16) × Sig} (hs : s ∈ signatures) : idx.val ≠ s.1.val := by
  intro heq
  refine (List.nodup_cons.mp h.distinct).1 (List.mem_map.mpr ⟨s, hs, ?_⟩)
  exact (Fin.ext heq).symm

theorem Counted.tail (h : Counted verifier fp validators ((idx, sig) :: signatures)) :
    Counted verifier fp (validators.set idx.val none) signatures := by
  refine ⟨(List.nodup_cons.mp h.distinct).2, fun s hs => ?_⟩
  rw [slot_set, if_neg (h.ne_of_mem hs)]
  exact h.valid s (List.mem_cons_of_mem _ hs)

theorem Counted.stake_cons (h : Counted verifier fp validators ((idx, sig) :: signatures))
    (hv : slot validators idx.val = some v) :
    countedStake validators ((idx, sig) :: signatures) =
      v.stake.get + countedStake (validators.set idx.val none) signatures := by
  unfold countedStake
  rw [List.map_cons, List.sum_cons, hv]
  congr 2
  refine List.map_congr_left fun s hs => ?_
  rw [slot_set, if_neg (h.ne_of_mem hs)]

end

/-- Signatures reach quorum exactly when some of the first ones do. -/
theorem verifySignatures_ok {fp : Fingerprint} {quorum : Nat} (hquorum : 0 < quorum)
    {validators : List (Option (Validator PK))} {signatures : List (Fin (2 ^ 16) × Sig)} :
    verifySignatures verifier fp quorum validators signatures = .ok () ↔
      ∃ counted, counted <+: signatures ∧ Counted verifier fp validators counted ∧
        quorum ≤ countedStake validators counted := by
  induction signatures generalizing quorum validators with
  | nil =>
    constructor
    · intro h
      cases h
    · rintro ⟨counted, hcounted, -, hle⟩
      rw [List.prefix_nil.mp hcounted] at hle
      exact absurd hle (not_le.mpr hquorum)
  | cons s signatures ih =>
    obtain ⟨idx, sig⟩ := s
    rw [verifySignatures]
    constructor
    · intro h
      split at h
      · cases h
      · cases h
      · rename_i v hv
        have hv' : slot validators idx.val = some v := by rw [slot, hv]; rfl
        split at h
        · cases h
        · rename_i hverify
          have hverify : verifier fp.bytes v.pubkey sig = true := by simpa using hverify
          split at h
          · rename_i hreached
            have hone := Counted.cons hv' hverify counted_nil
            refine ⟨[(idx, sig)], ⟨signatures, rfl⟩, hone, ?_⟩
            rw [hone.stake_cons hv']
            omega
          · rename_i hleft
            obtain ⟨counted, hcounted, hvalid, hle⟩ := (ih (Nat.pos_of_ne_zero hleft)).mp h
            have hall := Counted.cons hv' hverify hvalid
            refine ⟨(idx, sig) :: counted, List.cons_prefix_cons.mpr ⟨rfl, hcounted⟩, hall, ?_⟩
            rw [hall.stake_cons hv']
            omega
    · rintro ⟨counted, hcounted, hvalid, hle⟩
      cases counted with
      | nil => exact absurd hle (not_le.mpr hquorum)
      | cons s' counted =>
        obtain ⟨rfl, htail⟩ := List.cons_prefix_cons.mp hcounted
        obtain ⟨v, hv, hverify⟩ := hvalid.valid _ List.mem_cons_self
        rw [hvalid.stake_cons hv] at hle
        have hget : validators[idx.val]? = some (some v) := Option.join_eq_some_iff.mp hv
        rw [hget]
        simp only [hverify, Bool.not_true, Bool.false_eq_true, if_false]
        split
        · rfl
        · rename_i hleft
          exact (ih (Nat.pos_of_ne_zero hleft)).mpr ⟨counted, htail, hvalid.tail, by omega⟩

/-- Different validators of the epoch made the signatures, all of them are valid and
stake of those who signed reaches quorum. -/
structure QuorumSigned (verifier : Verifier PK Sig) (fp : Fingerprint) (epoch : Epoch PK)
    (signatures : List (Fin (2 ^ 16) × Sig)) : Prop where
  distinct : (signatures.map Prod.fst).Nodup
  valid : ∀ s ∈ signatures, ∃ v, epoch.validators[s.1.val]? = some v ∧
    verifier fp.bytes v.pubkey s.2 = true
  quorum : epoch.quorumStake.get ≤
    (signatures.map fun s => weightAt (·.stake.get) epoch.validators s.1.val).sum

theorem quorumSigned_iff {fp : Fingerprint} {epoch : Epoch PK}
    {signatures : List (Fin (2 ^ 16) × Sig)} :
    QuorumSigned verifier fp epoch signatures ↔
      Counted verifier fp (epoch.validators.map some) signatures ∧
        epoch.quorumStake.get ≤ countedStake (epoch.validators.map some) signatures := by
  constructor
  · intro h
    refine ⟨⟨h.distinct, fun s hs => ?_⟩, ?_⟩
    · rw [slot_map_some]
      exact h.valid s hs
    · simp only [countedStake, slot_map_some]
      exact h.quorum
  · rintro ⟨hcounted, hquorum⟩
    refine ⟨hcounted.distinct, fun s hs => ?_, ?_⟩
    · rw [← slot_map_some]
      exact hcounted.valid s hs
    · simp only [countedStake, slot_map_some] at hquorum
      exact hquorum

/-- What signatures of the header are made over. -/
def Header.fingerprint (header : Header PK Sig) : Fingerprint :=
  Fingerprint.fromHash header.genesisHash header.blockHeader.blockHeight header.blockHash

theorem mapError_eq_ok {α ε ε' : Type} {f : ε → ε'} {r : Except ε α} {a : α} :
    r.mapError f = .ok a ↔ r = .ok a := by
  cases r with
  | ok b => exact ⟨fun h => congrArg _ (Except.ok.inj h), fun h => congrArg _ (Except.ok.inj h)⟩
  | error e => exact ⟨fun h => (nomatch h), fun h => (nomatch h)⟩

theorem verifyHeader_ok {c : ClientState} {header : Header PK Sig} :
    c.verifyHeader verifier header = .ok () ↔
      header.genesisHash = c.genesisHash ∧
      (header.epochCommitment = c.epochCommitment ∨
        header.epochCommitment = c.prevEpochCommitment) ∧
      ∃ counted, counted <+: header.signatures ∧
        QuorumSigned verifier header.fingerprint header.epoch counted := by
  unfold ClientState.verifyHeader
  simp only [quorumSigned_iff]
  split
  · rename_i hgenesis
    exact ⟨fun h => (nomatch h), fun h => absurd h.1 hgenesis⟩
  · rename_i hgenesis
    split
    · rename_i hepoch
      refine ⟨fun h => (nomatch h), fun h => ?_⟩
      rcases h.2.1 with hcur | hprev
      · exact absurd hcur hepoch.1
      · exact absurd hprev hepoch.2
    · rename_i hepoch
      rw [mapError_eq_ok, verifySignatures_ok header.epoch.quorumStake.pos]
      constructor
      · intro h
        refine ⟨not_not.mp hgenesis, ?_, h⟩
        by_contra hneither
        exact hepoch (not_or.mp hneither)
      · exact fun h => h.2.2

theorem NonZero.leBytes_inj {a b : NonZeroU128} (h : leBytes 16 a.get = leBytes 16 b.get) : a = b :=
  have hpow : 2 ^ 128 = 256 ^ 16 := by decide
  NonZero.get_injective (MachineInts.leBytes_inj (a.lt.trans_eq hpow) (b.lt.trans_eq hpow) h)

section

variable [PubKey PK]

theorem Validator.selfDelimiting (hpk : SelfDelimiting (PubKey.serialize : PK → List Byte)) :
    SelfDelimiting (Validator.serialize : Validator PK → List Byte) := by
  rintro ⟨pk, stake⟩ ⟨pk', stake'⟩ rest rest' h
  simp only [Validator.serialize, List.cons_append, List.append_assoc, List.cons.injEq,
    true_and] at h
  obtain ⟨rfl, hrest⟩ := hpk _ _ _ _ h
  obtain ⟨hstake, rfl⟩ := List.append_inj hrest (by simp)
  cases NonZero.leBytes_inj hstake
  exact ⟨rfl, rfl⟩

/-- Two lists of validators, each followed by a quorum: quorum is too short to be taken for a
validator. -/
theorem validators_eq (hpk : SelfDelimiting (PubKey.serialize : PK → List Byte))
    {vs ws : List (Validator PK)} {q r : NonZeroU128}
    (h : vs.flatMap Validator.serialize ++ leBytes 16 q.get =
      ws.flatMap Validator.serialize ++ leBytes 16 r.get) : vs = ws ∧ q = r := by
  induction vs generalizing ws with
  | nil =>
    cases ws with
    | nil => exact ⟨rfl, NonZero.leBytes_inj h⟩
    | cons w ws =>
      have hlength := congrArg List.length h
      simp [Validator.serialize] at hlength
      omega
  | cons v vs ih =>
    cases ws with
    | nil =>
      have hlength := congrArg List.length h
      simp [Validator.serialize] at hlength
      omega
    | cons w ws =>
      rw [List.flatMap_cons, List.flatMap_cons, List.append_assoc, List.append_assoc] at h
      obtain ⟨rfl, hrest⟩ := Validator.selfDelimiting hpk _ _ _ _ h
      obtain ⟨rfl, rfl⟩ := ih hrest
      exact ⟨rfl, rfl⟩

theorem Epoch.eq_of_serialize (hpk : SelfDelimiting (PubKey.serialize : PK → List Byte))
    {e e' : Epoch PK} (h : e.serialize = e'.serialize) :
    e.validators = e'.validators ∧ e.quorumStake = e'.quorumStake := by
  simp only [Epoch.serialize, List.cons_append, List.append_assoc, List.cons.injEq, true_and] at h
  exact validators_eq hpk (List.append_inj h (by simp)).2

/-- Hashes of the header are hashes of what it carries. This is so for headers which come
from `Header.new` and from the wire. -/
structure Header.Derived (digest : List Byte → CryptoHash) (header : Header PK Sig) : Prop where
  blockHash : header.blockHash = header.blockHeader.calcHash digest
  epochCommitment : header.epochCommitment = header.epoch.calcCommitment digest

theorem Header.new_derived (digest : List Byte → CryptoHash) (genesisHash : CryptoHash)
    (blockHeader : BlockHeader) (epoch : Epoch PK) (signatures : List (Fin (2 ^ 16) × Sig)) :
    (Header.new digest genesisHash blockHeader epoch signatures).Derived digest :=
  ⟨rfl, rfl⟩

end

/-- One validator signed both. -/
def CommonSigner (verifier : Verifier PK Sig) (h₁ h₂ : Header PK Sig) : Prop :=
  ∃ idx v sig₁ sig₂, h₁.epoch.validators[idx]? = some v ∧ h₂.epoch.validators[idx]? = some v ∧
    (∃ s ∈ h₁.signatures, s.1.val = idx ∧ s.2 = sig₁) ∧
    (∃ s ∈ h₂.signatures, s.1.val = idx ∧ s.2 = sig₂) ∧
    verifier h₁.fingerprint.bytes v.pubkey sig₁ = true ∧
    verifier h₂.fingerprint.bytes v.pubkey sig₂ = true

theorem fingerprint_ne {h₁ h₂ : Header PK Sig} (h : h₁.blockHash ≠ h₂.blockHash) :
    h₁.fingerprint ≠ h₂.fingerprint := by
  intro heq
  refine h (CryptoHash.eq_of_bytes ?_)
  have hbytes := congrArg Fingerprint.bytes heq
  exact (List.append_inj' hbytes (by rw [h₁.blockHash.size, h₂.blockHash.size])).2

theorem QuorumSigned.common {fp₁ fp₂ : Fingerprint} {epoch : Epoch PK}
    {signatures₁ signatures₂ : List (Fin (2 ^ 16) × Sig)}
    (h₁ : QuorumSigned verifier fp₁ epoch signatures₁)
    (h₂ : QuorumSigned verifier fp₂ epoch signatures₂)
    (hhalf : epoch.totalStake.get < 2 * epoch.quorumStake.get) :
    ∃ s₁ ∈ signatures₁, ∃ s₂ ∈ signatures₂, s₁.1 = s₂.1 := by
  have hnodup : ∀ {signatures : List (Fin (2 ^ 16) × Sig)}, (signatures.map Prod.fst).Nodup →
      (signatures.map fun s => s.1.val).Nodup := by
    intro signatures h
    have hmap := h.map Fin.val_injective
    rw [List.map_map] at hmap
    exact hmap
  have hsum := h₁.quorum
  have hsum' := h₂.quorum
  obtain ⟨i, hi, hi'⟩ := exists_common (·.stake.get) epoch.validators (hnodup h₁.distinct)
    (hnodup h₂.distinct) (by
      rw [List.map_map, List.map_map]
      have htotal := epoch.total_eq
      simp only [totalOf] at htotal
      simp only [Function.comp_def]
      omega)
  obtain ⟨s₁, hs₁, rfl⟩ := List.mem_map.mp hi
  obtain ⟨s₂, hs₂, heq⟩ := List.mem_map.mp hi'
  exact ⟨s₁, hs₁, s₂, hs₂, (Fin.ext heq).symm⟩

theorem QuorumSigned.commonSigner {h₁ h₂ : Header PK Sig} (hepoch : h₁.epoch.validators = h₂.epoch.validators)
    (hquorum : h₁.epoch.quorumStake = h₂.epoch.quorumStake)
    {signatures₁ signatures₂ : List (Fin (2 ^ 16) × Sig)}
    (hsub₁ : signatures₁ ⊆ h₁.signatures) (hsub₂ : signatures₂ ⊆ h₂.signatures)
    (hsigned₁ : QuorumSigned verifier h₁.fingerprint h₁.epoch signatures₁)
    (hsigned₂ : QuorumSigned verifier h₂.fingerprint h₂.epoch signatures₂)
    (hhalf : h₁.epoch.totalStake.get < 2 * h₁.epoch.quorumStake.get) :
    CommonSigner verifier h₁ h₂ := by
  have hsigned₂' : QuorumSigned verifier h₂.fingerprint h₁.epoch signatures₂ := by
    obtain ⟨hdistinct, hvalid, hstake⟩ := hsigned₂
    rw [← hepoch] at hvalid hstake
    rw [← hquorum] at hstake
    exact ⟨hdistinct, hvalid, hstake⟩
  obtain ⟨s₁, hs₁, s₂, hs₂, heq⟩ := hsigned₁.common hsigned₂' hhalf
  obtain ⟨v, hv, hverify₁⟩ := hsigned₁.valid s₁ hs₁
  obtain ⟨w, hw, hverify₂⟩ := hsigned₂'.valid s₂ hs₂
  rw [← heq, hv] at hw
  cases hw
  exact ⟨s₁.1.val, v, s₁.2, s₂.2, hv, hepoch ▸ hv, ⟨s₁, hsub₁ hs₁, rfl, rfl⟩,
    ⟨s₂, hsub₂ hs₂, by rw [heq], rfl⟩, hverify₁, hverify₂⟩

variable (verifier) in
/-- Exactly the headers of a known epoch which carry its quorum are accepted and whenever
two headers of an epoch are, one validator signed both. The client may have changed
between the two. -/
theorem accepted_headers_accountable [PubKey PK] (digest : List Byte → CryptoHash)
    (hpk : SelfDelimiting (PubKey.serialize : PK → List Byte)) :
    (∀ (c : ClientState) (header : Header PK Sig), c.verifyHeader verifier header = .ok () ↔
      header.genesisHash = c.genesisHash ∧
      (header.epochCommitment = c.epochCommitment ∨
        header.epochCommitment = c.prevEpochCommitment) ∧
      ∃ counted, counted <+: header.signatures ∧
        QuorumSigned verifier header.fingerprint header.epoch counted) ∧
    ∀ (c₁ c₂ : ClientState) (h₁ h₂ : Header PK Sig), h₁.Derived digest → h₂.Derived digest →
      c₁.verifyHeader verifier h₁ = .ok () → c₂.verifyHeader verifier h₂ = .ok () →
      h₁.epochCommitment = h₂.epochCommitment →
      (digest h₁.epoch.serialize = digest h₂.epoch.serialize →
        h₁.epoch.serialize = h₂.epoch.serialize) →
      h₁.epoch.totalStake.get < 2 * h₁.epoch.quorumStake.get →
      CommonSigner verifier h₁ h₂ ∧
        (h₁.blockHeader.blockHeight = h₂.blockHeader.blockHeight → h₁.blockHash ≠ h₂.blockHash →
          h₁.fingerprint ≠ h₂.fingerprint) := by
  refine ⟨fun _ _ => verifyHeader_ok, ?_⟩
  intro c₁ c₂ h₁ h₂ hd₁ hd₂ hok₁ hok₂ hcommitment hcollision hhalf
  obtain ⟨-, -, signatures₁, hsub₁, hsigned₁⟩ := verifyHeader_ok.mp hok₁
  obtain ⟨-, -, signatures₂, hsub₂, hsigned₂⟩ := verifyHeader_ok.mp hok₂
  rw [hd₁.epochCommitment, hd₂.epochCommitment] at hcommitment
  obtain ⟨hvalidators, hquorum⟩ := Epoch.eq_of_serialize hpk (hcollision hcommitment)
  exact ⟨hsigned₁.commonSigner hvalidators hquorum hsub₁.subset hsub₂.subset hsigned₂ hhalf,
    fun _ hne => fingerprint_ne hne⟩

theorem MockPubKey.selfDelimiting : SelfDelimiting (PubKey.serialize : MockPubKey → List Byte) := by
  have hpow : 2 ^ 32 = 256 ^ 4 := by decide
  refine SelfDelimiting.of_length ?_ fun pk : MockPubKey => length_leBytes 4 pk.val
  intro a b h
  exact Fin.ext (leBytes_inj (a.isLt.trans_eq hpow) (b.isLt.trans_eq hpow) h)

def sampleGenesisHash : CryptoHash :=
  hashOf 0x01ca52fefbff33b06f017f02bd792032c3999451cb68e0990e2cae035bcdd93e

def sampleBlock (root : Byte) : BlockHeader where
  prevBlockHash := sampleGenesisHash
  blockHeight := Height.clamp 2
  hostHeight := Height.clamp 5
  timestampNs := NonZero.clamp 2
  stateRoot := sampleRoot root
  epochId := sampleGenesisHash
  nextEpochCommitment := none

/-- SHA-256 of the chain and of another block at height two. -/
def forkDigest : List Byte → CryptoHash :=
  tableDigest (((sampleBlock 2#8).serialize,
    hashOf 0x91784378b61f6678c5ffde0a3dcf58ed7469a37d9d4072441c998b7d94ed532e) :: sampleHashes)

/-- Header of a block with signatures of given validators. -/
def sampleHeader (digest : List Byte → CryptoHash) (block : BlockHeader) (epoch : Epoch MockPubKey)
    (signers : List (Fin (2 ^ 16) × MockPubKey)) : Header MockPubKey MockSignature :=
  let fp := Fingerprint.new digest sampleGenesisHash block
  Header.new digest sampleGenesisHash block epoch
    (signers.map fun s => (s.1, ⟨MockSignature.shortFp fp.bytes, s.2⟩))

def sampleClient : ClientState :=
  ClientState.new sampleGenesisHash (Height.clamp 1) 1000 (sampleEpoch.calcCommitment sampleDigest)
    none false

/-- The first two validators sign one block and the last two sign another. -/
theorem accepted_headers_accountable_sample :
    let h₁ := sampleHeader forkDigest (sampleBlock 1#8) sampleEpoch [(0, 1), (1, 2)]
    let h₂ := sampleHeader forkDigest (sampleBlock 2#8) sampleEpoch [(2, 3), (1, 2), (7, 7)]
    CommonSigner MockSignature.verify h₁ h₂ ∧ h₁.fingerprint ≠ h₂.fingerprint := by
  intro h₁ h₂
  have hok₁ : sampleClient.verifyHeader MockSignature.verify h₁ = .ok () := by decide
  have hok₂ : sampleClient.verifyHeader MockSignature.verify h₂ = .ok () := by decide
  have haccountable := (accepted_headers_accountable MockSignature.verify forkDigest
    MockPubKey.selfDelimiting).2 sampleClient sampleClient h₁ h₂ (Header.new_derived _ _ _ _ _)
    (Header.new_derived _ _ _ _ _) hok₁ hok₂ rfl (fun _ => rfl) (by decide)
  exact ⟨haccountable.1, haccountable.2 rfl (by decide)⟩

end CfGuest
