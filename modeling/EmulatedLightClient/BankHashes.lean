import EmulatedLightClient.MerkleRoots
import EmulatedLightClient.RollupStore

/-!
# Bank hashes

The host hashes the accounts which a slot has written into a tree, and the root of the tree with more of the slot into
the bank hash. A header with that bank hash shows an account as it was hashed.
-/

namespace CfSolana

open ByteBits HashTrees MachineInts Nodes

/-- What the bank hash of a slot covers. Accounts are given by their keys and hashes. -/
structure FrozenSlot where
  slot : NonZero 64
  parentBlockhash : CryptoHash
  numSigs : Fin (2 ^ 64)
  blockhash : CryptoHash
  epochAccountsHash : Option CryptoHash
  accounts : List (CryptoHash × CryptoHash)

section

variable (digest : List Byte → CryptoHash)

namespace FrozenSlot

def accountsDeltaHash (f : FrozenSlot) : CryptoHash := computeMerkleRoot digest (sortAccounts f.accounts)

def deltaHashProof (f : FrozenSlot) : DeltaHashProof where
  parentBlockhash := f.parentBlockhash
  accountsDeltaHash := f.accountsDeltaHash digest
  numSigs := f.numSigs
  blockhash := f.blockhash
  epochAccountsHash := f.epochAccountsHash

def bankHash (f : FrozenSlot) : CryptoHash := (f.deltaHashProof digest).calculateBankHash digest

end FrozenSlot

def DeltaHashProof.inputs (p : DeltaHashProof) : List (List Byte) :=
  p.bankBytes :: (p.epochAccountsHash.map fun hash => (digest p.bankBytes).bytes ++ hash.bytes).toList

def FrozenSlot.inputs (f : FrozenSlot) : List (List Byte) :=
  (f.deltaHashProof digest).inputs digest ++ rootInputs digest (sortAccounts f.accounts)

def Header.inputs (B : Blake3) (header : Header) : List (List Byte) :=
  header.deltaHashProof.inputs digest ++
    header.witnessProof.proof.inputs digest (header.witnessProof.accountHashData.calculateHash B)

end

variable {digest : List Byte → CryptoHash} {B : Blake3}

namespace DeltaHashProof

theorem toBinary_bankBytes (p : DeltaHashProof) : { p with epochAccountsHash := none }.toBinary = p.bankBytes :=
  List.append_nil _

theorem bankBytes_inj {p p' : DeltaHashProof} (h : p.bankBytes = p'.bankBytes) :
    { p with epochAccountsHash := none } = { p' with epochAccountsHash := none } := by
  rw [← toBinary_bankBytes, ← toBinary_bankBytes] at h
  have hread := congrArg fromBinary h
  rwa [fromBinary_toBinary, fromBinary_toBinary, Option.some_inj] at hread

theorem length_bankBytes (p : DeltaHashProof) : p.bankBytes.length = 104 := by
  simp only [bankBytes, List.length_append, CryptoHash.size, length_leBytes]

/-- The bank hash tells everything it was made of. Bytes hashed for an epoch are not as many as others. -/
theorem calculateBankHash_inj {S : Set (List Byte)} (hinj : Set.InjOn digest S) {p p' : DeltaHashProof}
    (hp : ∀ b ∈ p.inputs digest, b ∈ S) (hp' : ∀ b ∈ p'.inputs digest, b ∈ S)
    (h : p.calculateBankHash digest = p'.calculateBankHash digest) : p = p' := by
  have hbank : p.bankBytes ∈ S := hp _ List.mem_cons_self
  have hbank' : p'.bankBytes ∈ S := hp' _ List.mem_cons_self
  have hlen : ∀ a b : CryptoHash, (a.bytes ++ b.bytes).length = 64 := by
    intro a b
    rw [List.length_append, a.size, b.size]
  obtain ⟨parent, delta, sigs, block, epoch⟩ := p
  obtain ⟨parent', delta', sigs', block', epoch'⟩ := p'
  cases epoch with
  | none =>
    cases epoch' with
    | none => exact bankBytes_inj (hinj hbank hbank' h)
    | some e' =>
      have hmixed' := hp' _ (List.mem_cons_of_mem _ (List.mem_singleton.mpr rfl))
      have hlength := congrArg List.length (hinj hbank hmixed' h)
      rw [length_bankBytes, hlen] at hlength
      cases hlength
  | some e =>
    have hmixed := hp _ (List.mem_cons_of_mem _ (List.mem_singleton.mpr rfl))
    cases epoch' with
    | none =>
      have hlength := congrArg List.length (hinj hmixed hbank' h)
      rw [length_bankBytes, hlen] at hlength
      cases hlength
    | some e' =>
      have hmixed' := hp' _ (List.mem_cons_of_mem _ (List.mem_singleton.mpr rfl))
      obtain ⟨hinner, hepoch⟩ := List.append_inj (hinj hmixed hmixed' h) (by rw [CryptoHash.size, CryptoHash.size])
      have hsame := bankBytes_inj (hinj hbank hbank' (CryptoHash.eq_of_bytes hinner))
      cases CryptoHash.eq_of_bytes hepoch
      simp only [mk.injEq, and_true] at hsame ⊢
      exact hsame

end DeltaHashProof

/-- Neither hash function has collisions, on what is hashed with it, and no string is the hash of data of an account and
of something else. -/
structure Collisionless (digest : List Byte → CryptoHash) (B : Blake3) (S T : Set (List Byte)) : Prop where
  digest_injOn : Set.InjOn digest S
  blake3_injOn : Set.InjOn B.hash T
  separate : ∀ b ∈ S, digest b ≠ CryptoHash.default ∧ ∀ d ∈ T, digest b ≠ B.hash d
  nonzero : ∀ d ∈ T, B.hash d ≠ CryptoHash.default

/-- A proof of the root of accounts is of one of them. -/
theorem Collisionless.mem_accounts {S T : Set (List Byte)} (hc : Collisionless digest B S T)
    {accounts : List (CryptoHash × CryptoHash)}
    (haccounts : ∀ a ∈ accounts, a.2 = CryptoHash.default ∨ ∃ d ∈ T, a.2 = B.hash d)
    (hroot : ∀ b ∈ rootInputs digest accounts, b ∈ S) {p : MerkleProof} {d : List Byte} (hd : d ∈ T)
    (hproof : ∀ b ∈ p.inputs digest (B.hash d), b ∈ S)
    (h : p.expectedRoot digest (B.hash d) = some (computeMerkleRoot digest accounts)) : ∃ a ∈ accounts, a.2 = B.hash d := by
  rw [expectedRoot_eq] at h
  obtain ⟨ls, hls, hclimb⟩ := Option.map_eq_some_iff.mp h
  have hsteps : ∀ c ∈ pathInputs (nodeHash digest) ls (B.hash d), c ∈ {chunk | concatHashes chunk ∈ S} := by
    intro c hc
    refine hproof _ (List.mem_map_of_mem ?_)
    rwa [hls]
  rw [computeMerkleRoot_eq] at hclimb
  cases htop : (topmost merkleFanout (nodeHash digest) (chunkCount merkleFanout accounts.length)
      (level merkleFanout (nodeHash digest) (leaves accounts))).head? with
  | none =>
    -- Without accounts the root is zero, which is the hash of nothing.
    rw [htop] at hclimb
    exact absurd (start_of_climb hsteps (fun c hc' => (hc.separate _ hc').1) hclimb) (hc.nonzero d hd)
  | some root =>
    rw [htop, Option.getD_some] at hclimb
    have hleaf : B.hash d ∈ leaves accounts := by
      refine mem_of_climb (nodeHash_injOn digest hc.digest_injOn) (fun c hc' => (hc.separate _ hc').2 d hd) ?_
        (fun c hc' => hroot _ (List.mem_map_of_mem (List.mem_append_left _ hc')))
        (fun c hc' => hroot _ (List.mem_map_of_mem (List.mem_append_right _ hc'))) hsteps ?_
      · intro y hy c hc' heq
        obtain ⟨a, ha, rfl⟩ := List.mem_map.mp hy
        rcases haccounts a ha with hzero | ⟨d', hd', hdata⟩
        · exact (hc.separate _ hc').1 (heq.trans hzero)
        · exact (hc.separate _ hc').2 d' hd' (heq.trans hdata)
      · rw [hclimb]
        exact List.mem_of_head? htop
    exact List.mem_map.mp hleaf

/-- A header with the bank hash of a slot has the data of one of the accounts of the slot. -/
theorem account_of_verified {S T : Set (List Byte)} (hc : Collisionless digest B S T) {f : FrozenSlot} {header : Header}
    {witness : CryptoHash} (hbank : header.bankHash = f.bankHash digest) (hverified : header.Verified digest B witness)
    (hheader : ∀ b ∈ header.inputs digest B, b ∈ S) (hbytes : header.witnessProof.accountHashData.bytes ∈ T)
    (hslot : ∀ b ∈ f.inputs digest, b ∈ S) (haccounts : ∀ a ∈ f.accounts, a.2 = CryptoHash.default ∨ ∃ d ∈ T, a.2 = B.hash d) :
    ∃ a ∈ f.accounts, a.2 = B.hash header.witnessProof.accountHashData.bytes := by
  have hsame : header.deltaHashProof = f.deltaHashProof digest :=
    DeltaHashProof.calculateBankHash_inj hc.digest_injOn (fun b hb => hheader b (List.mem_append_left _ hb))
      (fun b hb => hslot b (List.mem_append_left _ hb)) (hverified.bankHash.symm.trans hbank)
  have hroot := hverified.root
  rw [hsame] at hroot
  obtain ⟨a, ha, heq⟩ := hc.mem_accounts (fun a ha => haccounts a ((sortAccounts_perm _).mem_iff.mp ha))
    (fun b hb => hslot b (List.mem_append_right _ hb)) hbytes (fun b hb => hheader b (List.mem_append_right _ hb)) hroot
  exact ⟨a, (sortAccounts_perm _).mem_iff.mp ha, heq⟩

end CfSolana
