import EmulatedLightClient.HeaderCodec

/-!
# Reading epochs

The total stake of an epoch is not serialised. It is calculated again by the constructor, which refuses
validators and a quorum that make no epoch.
-/

namespace GuestChain

open ByteBits MachineInts Readers TrieProof

variable {PK : Type} [PubKey PK] (readPubKey : ByteReader PK)

def readNonZeroU128 : ByteReader NonZeroU128 := do
  let n ← readNum 16
  Reader.ofOption .zero (NonZero.ofNum n)

def readValidator : ByteReader (Validator PK) := do
  readVersionZero
  let pubkey ← readPubKey
  let stake ← readNonZeroU128
  return { pubkey, stake }

/-- The number of validators comes first. -/
def readValidators : ByteReader (List (Validator PK)) := do
  let len ← readNum 4
  Reader.many (readValidator readPubKey) len

def readEpoch : ByteReader (Epoch PK) := do
  readVersionZero
  let validators ← readValidators readPubKey
  let quorumStake ← readNonZeroU128
  Reader.ofOption .invalidData (Epoch.new validators quorumStake)

theorem readNonZeroU128_eq_ok {a : NonZeroU128} {s rest : List Byte} :
    readNonZeroU128 s = .ok (a, rest) ↔ s = leBytes 16 a.get ++ rest := by
  simp only [readNonZeroU128, Reader.bind_eq_ok, readNum_eq_ok, Reader.ofOption_eq_ok, NonZero.ofNum_eq_some]
  constructor
  · rintro ⟨n, mid, ⟨-, rfl⟩, rfl, rfl⟩
    rfl
  · rintro rfl
    exact ⟨a.get, rest, ⟨a.lt, rfl⟩, rfl, rfl⟩

omit [PubKey PK] in
theorem Epoch.sumStake_validators (e : Epoch PK) : Epoch.sumStake e.validators = some e.totalStake.get := by
  have hlt := e.totalStake.lt
  rw [e.total_eq] at hlt ⊢
  refine (foldlM_checkedAdd_eq_some (by decide)).mpr ?_
  rw [Nat.zero_add]
  exact ⟨hlt, rfl⟩

omit [PubKey PK] in
/-- An epoch is what its validators and its quorum make. -/
theorem Epoch.new_eq_some {validators : List (Validator PK)} {quorumStake : NonZeroU128} {e : Epoch PK} :
    Epoch.new validators quorumStake = some e ↔ validators = e.validators ∧ quorumStake = e.quorumStake := by
  constructor
  · intro h
    obtain ⟨hvalidators, hquorum⟩ := Epoch.newWith_eq_some h
    exact ⟨hvalidators.symm, hquorum.symm⟩
  · rintro ⟨rfl, rfl⟩
    have hsum := e.sumStake_validators
    unfold Epoch.new Epoch.newWith
    split
    · rename_i hnone
      cases hsum.symm.trans hnone
    · rename_i total hsome
      cases hsum.symm.trans hsome
      rw [dif_pos e.totalStake.pos]
      exact dif_pos e.quorum_le

section

variable {readPubKey} (hpk : Reader.Reads readPubKey (fun _ => True) PubKey.serialize)

include hpk

theorem readValidator_reads : Reader.Reads (readValidator readPubKey) (fun _ => True) Validator.serialize := by
  intro s v rest
  simp only [readValidator, Reader.bind_eq_ok, Reader.pure_eq_ok, readVersionZero_eq_ok, hpk _ _ _,
    readNonZeroU128_eq_ok, Validator.serialize, true_and, List.cons_append, List.append_assoc]
  constructor
  · rintro ⟨-, mid, rfl, pubkey, mid, rfl, stake, mid, rfl, rfl, rfl⟩
    rfl
  · rintro rfl
    exact ⟨(), _, rfl, _, _, rfl, _, _, rfl, rfl, rfl⟩

theorem readValidators_eq_ok {validators : List (Validator PK)} {s rest : List Byte} :
    readValidators readPubKey s = .ok (validators, rest) ↔ validators.length < 2 ^ 32 ∧
      s = leBytes 4 validators.length ++ (validators.flatMap Validator.serialize ++ rest) := by
  simp only [readValidators, Reader.bind_eq_ok, readNum_eq_ok, (readValidator_reads hpk).many _ _ _ _]
  constructor
  · rintro ⟨len, mid, ⟨hlen, rfl⟩, ⟨rfl, -⟩, rfl⟩
    exact ⟨hlen, rfl⟩
  · rintro ⟨hlen, rfl⟩
    exact ⟨validators.length, _, ⟨hlen, rfl⟩, ⟨rfl, fun _ _ => trivial⟩, rfl⟩

/-- Reading epochs accepts exactly serialised epochs of which the number of validators fits. -/
theorem readEpoch_reads :
    Reader.Reads (readEpoch readPubKey) (fun e => e.validators.length < 2 ^ 32) Epoch.serialize := by
  intro s e rest
  simp only [readEpoch, Reader.bind_eq_ok, Reader.ofOption_eq_ok, readVersionZero_eq_ok, readValidators_eq_ok hpk,
    readNonZeroU128_eq_ok, Epoch.new_eq_some, Epoch.serialize, List.cons_append, List.append_assoc]
  constructor
  · rintro ⟨-, mid, rfl, validators, mid, ⟨hlen, rfl⟩, quorumStake, mid, rfl, ⟨rfl, rfl⟩, rfl⟩
    exact ⟨hlen, rfl⟩
  · rintro ⟨hlen, rfl⟩
    exact ⟨(), _, rfl, _, _, ⟨hlen, rfl⟩, _, _, rfl, ⟨rfl, rfl⟩, rfl⟩

end

end GuestChain
