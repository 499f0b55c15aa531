import EmulatedLightClient.AccountHashes
import EmulatedLightClient.ChainData

/-!
# Data of the witness account

The witness account holds the root of the trie and eight bytes, of which six are the time of the host, one
comes from the slot and the last is reserved. The program which writes them and the client of the host each
have a decoder.
-/

namespace SolanaTrie.Witness

open ByteBits MachineInts Nodes CfSolana
open SolanaIbc (Clock)

/-- Encoding of the data in the witness account. -/
structure Data where
  trieRoot : CryptoHash
  rest : List Byte
  size_rest : rest.length = 8

namespace Data

/-- Size of the witness account data. -/
def size : Nat := 40

theorem length_rest (t slot : Nat) : (((leBytes 8 t).set 6 (BitVec.ofNat 8 slot)).set 7 0#8).length = 8 := by simp

/-- The time is written as a signed number, in two's complement. -/
def new (trieRoot : CryptoHash) (clock : Clock) : Data where
  trieRoot := trieRoot
  rest := ((leBytes 8 (clock.unixTimestamp % 2 ^ 64).toNat).set 6 (BitVec.ofNat 8 clock.slot)).set 7 0#8
  size_rest := length_rest _ _

def bytes (d : Data) : List Byte := d.trieRoot.bytes ++ d.rest

theorem length_ofBytes {bytes : List Byte} (h : bytes.length = size) :
    (bytes.take 32).length = 32 ∧ (bytes.drop 32).length = 8 := by
  have hsize : size = 40 := rfl
  rw [List.length_take, List.length_drop]
  omega

def tryFrom (bytes : List Byte) : Option Data :=
  if h : bytes.length = size then
    some ⟨⟨bytes.take 32, (length_ofBytes h).1⟩, bytes.drop 32, (length_ofBytes h).2⟩
  else none

def timestampMask : Nat := 0xffffffffffff

/-- Root of the trie and the timestamp in seconds; malformed data come back as the error. -/
def decode (d : Data) : Except (List Byte) (CryptoHash × Fin (2 ^ 64)) :=
  if d.rest[7]? = some 0#8 then .ok (d.trieRoot, Fin.ofNat (2 ^ 64) (ofLeBytes d.rest &&& timestampMask))
  else .error d.bytes

theorem length_bytes (d : Data) : d.bytes.length = size := by
  rw [bytes, List.length_append, d.trieRoot.size, d.size_rest]
  rfl

theorem tryFrom_bytes (d : Data) : tryFrom d.bytes = some d := by
  obtain ⟨⟨root, hroot⟩, rest, hrest⟩ := d
  have htake : (root ++ rest).take 32 = root := List.take_left' hroot
  have hdrop : (root ++ rest).drop 32 = rest := List.drop_left' hroot
  simp only [tryFrom, dif_pos (length_bytes ⟨⟨root, hroot⟩, rest, hrest⟩)]
  simp only [bytes, htake, hdrop]

theorem bytes_of_tryFrom {s : List Byte} {d : Data} (h : tryFrom s = some d) : d.bytes = s := by
  unfold tryFrom at h
  split at h
  · cases h
    exact List.take_append_drop 32 s
  · cases h

/-- The mask keeps the first six bytes. -/
theorem and_timestampMask {s t : List Byte} (h : s.length = 6) :
    ofLeBytes (s ++ t) &&& timestampMask = ofLeBytes s := by
  have hmask : timestampMask = 2 ^ 48 - 1 := rfl
  have hpow : (256 : Nat) ^ 6 = 2 ^ 48 := by decide
  have hlt := ofLeBytes_lt h.le
  rw [hmask, Nat.and_two_pow_sub_one_eq_mod, ofLeBytes_append, h, ← hpow, Nat.add_mul_mod_self_left,
    Nat.mod_eq_of_lt hlt]

/-- Six bytes of the time, one of the slot and a zero. -/
theorem rest_new (root : CryptoHash) (clock : Clock) : (new root clock).rest =
    leBytes 6 (clock.unixTimestamp % 2 ^ 64).toNat ++ [BitVec.ofNat 8 clock.slot, 0#8] := by
  have hsplit := leBytes_add 6 2 (clock.unixTimestamp % 2 ^ 64).toNat
  simp only [new]
  rw [hsplit, List.set_append_right _ _ (by simp), List.set_append_right _ _ (by simp)]
  simp [leBytes, List.range_succ]

/-- The time is decoded as it was encoded. -/
theorem decode_new {root : CryptoHash} {clock : Clock} {t : Fin (2 ^ 64)} (h : clock.unixTimestamp = t.val)
    (hlt : t.val < 2 ^ 48) :
    (new root clock).decode = .ok (root, t) := by
  have htime : (clock.unixTimestamp % 2 ^ 64).toNat = t.val := by
    rw [h]
    omega
  have hpow : (256 : Nat) ^ 6 = 2 ^ 48 := by decide
  have hzero : (new root clock).rest[7]? = some 0#8 := by
    rw [rest_new, List.getElem?_append_right (by simp)]
    simp
  rw [decode, if_pos hzero, rest_new, and_timestampMask (length_leBytes 6 _), htime, ofLeBytes_leBytes (by omega),
    Fin.ofNat_val_eq_self]
  rfl

/-- Data of blocks with the same root and second but in different slots differ in the byte of the slot. -/
theorem slot_of_bytes_eq {root : CryptoHash} {clock clock' : Clock}
    (h : (new root clock).bytes = (new root clock').bytes) :
    clock.slot.val % 256 = clock'.slot.val % 256 := by
  have hrest : (new root clock).rest = (new root clock').rest := List.append_cancel_left h
  rw [rest_new, rest_new] at hrest
  have hslot := (List.append_inj hrest (by simp)).2
  simpa using congrArg BitVec.toNat (List.cons.inj hslot).1

end Data

/-- Both decoders take the same bytes for the root and apply the same test and mask. -/
theorem decodeWitness_eq {h : Header} {d : Data} (hdata : h.witnessProof.accountHashData.data = d.bytes) :
    h.decodeWitness = d.decode.toOption.bind fun p => (NonZero.new p.2).map fun t => (p.1, t) := by
  obtain ⟨root, rest, hrest⟩ := d
  have htake : (root.bytes ++ rest).take 32 = root.bytes := List.take_left' root.size
  have hdrop : (root.bytes ++ rest).drop 32 = rest := List.drop_left' root.size
  have hlength : (root.bytes ++ rest).length = 40 := Data.length_bytes ⟨root, rest, hrest⟩
  simp only [Header.decodeWitness, Data.decode, hdata, Data.bytes, hlength, htake, hdrop, if_true,
    CryptoHash.tryFrom_bytes]
  by_cases hzero : rest[7]? = some 0#8
  · rw [if_pos hzero, if_pos hzero]
    simp only [Option.bind_eq_bind, Option.bind_some, Except.toOption, Option.map_eq_bind]
    rfl
  · rw [if_neg hzero, if_neg hzero]
    rfl

theorem decodeWitness_eq_some {h : Header} {d : Data} {root : CryptoHash} {t : NonZero 64}
    (hdata : h.witnessProof.accountHashData.data = d.bytes) :
    h.decodeWitness = some (root, t) ↔ d.decode = .ok (root, ⟨t.get, t.lt⟩) := by
  rw [decodeWitness_eq hdata]
  rcases d.decode with e | ⟨root', t'⟩
  · exact iff_of_false nofun nofun
  · simp only [Except.toOption, Option.bind_some, Option.map_eq_some_iff, Prod.mk.injEq, Except.ok.injEq]
    constructor
    · rintro ⟨u, hu, rfl, rfl⟩
      exact ⟨rfl, Fin.ext (NonZero.new_eq_some hu).symm⟩
    · rintro ⟨rfl, rfl⟩
      exact ⟨t, dif_pos t.pos, rfl, rfl⟩

theorem decodeWitness_eq_none {h : Header} {d : Data} (hdata : h.witnessProof.accountHashData.data = d.bytes) :
    h.decodeWitness = none ↔ d.decode = .error d.bytes ∨ ∃ root, d.decode = .ok (root, 0) := by
  rw [decodeWitness_eq hdata, Data.decode]
  split
  · simp only [Except.toOption, Option.bind_some, Option.map_eq_none_iff, Except.ok.injEq, Prod.mk.injEq]
    constructor
    · intro hnew
      exact .inr ⟨d.trieRoot, rfl, Fin.ext (NonZero.new_eq_none hnew)⟩
    · rintro (h | ⟨root, -, hzero⟩)
      · cases h
      · rw [hzero]
        rfl
  · exact iff_of_true rfl (.inl rfl)

theorem data_test (slot : NonZero 64) (data : List Byte) :
    (Header.test slot data).witnessProof.accountHashData.data = data :=
  AccountHashData.data_new _ _ _ _ data _

/-- What the program writes both decoders read back; they agree on every string of the right size but for the
time zero, which the client does not take; and the data change with the slot. -/
theorem decoders_agree :
    (∀ (root : CryptoHash) (clock : Clock), 0 < clock.unixTimestamp → clock.unixTimestamp < 2 ^ 48 →
      ∃ t : NonZero 64, t.get = clock.unixTimestamp ∧ (Data.new root clock).bytes.length = 40 ∧
        (Data.new root clock).decode = .ok (root, ⟨t.get, t.lt⟩) ∧
        ∀ h : Header, h.witnessProof.accountHashData.data = (Data.new root clock).bytes →
          h.decodeWitness = some (root, t)) ∧
    (∀ s : List Byte, s.length = 40 → ∃ d, Data.tryFrom s = some d ∧
      ∀ h : Header, h.witnessProof.accountHashData.data = s →
        (∀ root t, h.decodeWitness = some (root, t) ↔ d.decode = .ok (root, ⟨t.get, t.lt⟩)) ∧
        (h.decodeWitness = none ↔ d.decode = .error s ∨ ∃ root, d.decode = .ok (root, 0))) ∧
    ∀ (root : CryptoHash) (clock clock' : Clock), clock'.slot.val = clock.slot.val + 1 →
      clock'.unixTimestamp = clock.unixTimestamp → (Data.new root clock).bytes ≠ (Data.new root clock').bytes := by
  refine ⟨fun root clock hpos hlt => ?_, fun s hs => ?_, fun root clock clock' hslot _ hbytes => ?_⟩
  · have hnat : (clock.unixTimestamp.toNat : Int) = clock.unixTimestamp := Int.toNat_of_nonneg (by omega)
    let t : NonZero 64 := ⟨clock.unixTimestamp.toNat, by omega, by omega⟩
    have hdecode : (Data.new root clock).decode = .ok (root, ⟨t.get, t.lt⟩) :=
      Data.decode_new hnat.symm (by simp only [t]; omega)
    exact ⟨t, hnat, Data.length_bytes _, hdecode, fun h hdata => (decodeWitness_eq_some hdata).mpr hdecode⟩
  · obtain ⟨d, hd⟩ : ∃ d, Data.tryFrom s = some d := ⟨_, dif_pos hs⟩
    obtain rfl := Data.bytes_of_tryFrom hd
    exact ⟨d, hd, fun h hdata => ⟨fun root t => decodeWitness_eq_some hdata, decodeWitness_eq_none hdata⟩⟩
  · have hmod := Data.slot_of_bytes_eq hbytes
    omega

/-- A block at second 258. -/
theorem decoders_agree_sample : ∃ t : NonZero 64, t.get = (258 : Int) ∧
    (Header.test (NonZero.clamp 1) (Data.new CryptoHash.default ⟨7, 258⟩).bytes).decodeWitness =
      some (CryptoHash.default, t) := by
  obtain ⟨t, ht, -, -, hclient⟩ := decoders_agree.1 CryptoHash.default ⟨7, 258⟩ (by decide) (by decide)
  exact ⟨t, ht, hclient _ (data_test _ _)⟩

end SolanaTrie.Witness
