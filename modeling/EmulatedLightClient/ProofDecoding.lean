import EmulatedLightClient.IbcCompleteness

/-!
# Deserialisation of proofs, with what may panic

Arithmetic on sixteen bits and ranges of a buffer may panic while a proof is deserialised. They never do, so that
a proof deserialises from what it is serialised as and from nothing else.
-/

namespace TrieProof

open ByteBits Bits ExtKey Nodes MachineInts Memory Readers SealableTrie

/-- How deserialisation ends without a value. -/
inductive Fault where
  | invalid (e : ReadError)
  | panic
  deriving DecidableEq

abbrev Deserializer (α : Type) := Reader Fault Byte α

/-- The part which panics nowhere. -/
def reading {α : Type} (x : ByteReader α) : Deserializer α := x.mapError .invalid

/-- A missing value is a panic. -/
def checked {α : Type} (o : Option α) : Deserializer α := Reader.ofOption .panic o

def deserializeKey : Deserializer (List Byte) := do
  let head ← reading (Reader.take .unexpectedLength 2)
  let tag := ofLeBytes head.reverse
  let sum ← checked ((checkedAdd 16 (tag % 8) (tag / 8)).bind (checkedAdd 16 · 7))
  let len := sum / 8
  -- the buffer holds the longest key, of which `len` bytes are read
  if len ≤ maxExtensionKeySize then
    let tail ← reading (Reader.take .unexpectedLength len)
    let buf := head ++ (tail ++ List.replicate (maxExtensionKeySize - len) 0#8)
    checked (if len + 2 ≤ buf.length then some (buf.take (len + 2)) else none)
  else throw (.invalid (.keyTooLong len))

def deserializeActualCont (first : Byte) : Deserializer Actual :=
  if 0x80#8 ≤ first ∧ first ≤ 0x83#8 then do
    let left ← reading (readOwnedRef (first &&& 2#8 ≠ 0#8))
    let right ← reading (readOwnedRef (first &&& 1#8 ≠ 0#8))
    return .branch left right
  else if first = 0x84#8 ∨ first = 0x85#8 then do
    let left ← reading (readNum 2)
    let key ← deserializeKey
    let child ← reading (readOwnedRef (first = 0x85#8))
    return .extension (Fin.ofNat (2 ^ 16) left) key child
  else if first = 0x86#8 then do
    let left ← reading readNonZeroU16
    let hash ← reading readHash
    return .lookupKeyLeft left hash
  else throw (.invalid (.invalidActualTag first))

def deserializeItemOrActual : Deserializer (Item ⊕ Actual) := do
  let tag ← reading readU8
  if tag &&& 0x80#8 = 0#8 then return .inl (← reading (readItemCont tag))
  else return .inr (← deserializeActualCont tag)

/-- Membership proofs can only have items. -/
def deserializeFirst (isMembership : Bool) : Deserializer (Item ⊕ Actual) :=
  if isMembership then Sum.inl <$> reading readItem else deserializeItemOrActual

def deserializeEntries (isMembership : Bool) (len : Nat) : Deserializer Proof :=
  if len = 0 then return .ofParts isMembership none []
  else do
    let first ← deserializeFirst isMembership
    -- the capacity of the list of items
    let _ ← checked (checkedSub len (if first.isRight then 1 else 0))
    let items ← Reader.many (reading readItem) (len - 1)
    return .ofParts isMembership (splitFirst first).1 ((splitFirst first).2 ++ items)

def deserializeProof : Deserializer Proof := do
  let tag ← reading (readNum 2)
  deserializeEntries (!tag.testBit nonMembershipShift) (tag % 2 ^ nonMembershipShift)

variable {α β : Type}

theorem reading_bind (x : ByteReader α) (f : α → ByteReader β) :
    reading (x >>= f) = reading x >>= fun a => reading (f a) := Reader.mapError_bind ..

theorem reading_pure (a : α) : reading (pure a) = pure a := rfl

theorem reading_map (x : ByteReader α) (f : α → β) : reading (f <$> x) = f <$> reading x := by
  rw [← bind_pure_comp, ← bind_pure_comp, reading_bind]
  rfl

theorem checked_some (a : α) : checked (some a) = pure a := rfl

theorem deserializeKey_eq : deserializeKey = reading readKey := by
  funext s
  unfold deserializeKey readKey
  rw [reading_bind]
  refine Reader.bind_congr fun head rest hhead => ?_
  obtain ⟨hlen, -⟩ := Reader.take_eq_ok.mp ((Reader.mapError_eq_ok _).mp hhead)
  have htag : ofLeBytes head.reverse < 256 ^ 2 := ofLeBytes_lt (by rw [List.length_reverse, hlen])
  have hsum : (checkedAdd 16 (ofLeBytes head.reverse % 8) (ofLeBytes head.reverse / 8)).bind (checkedAdd 16 · 7) =
      some (ofLeBytes head.reverse % 8 + ofLeBytes head.reverse / 8 + 7) := by
    rw [Option.bind_eq_some_iff]
    refine ⟨_, checkedAdd_eq_some.mpr ⟨?_, rfl⟩, checkedAdd_eq_some.mpr ⟨?_, rfl⟩⟩ <;> omega
  rw [hsum, checked_some, pure_bind]
  change (if keyLen head ≤ maxExtensionKeySize then _ else _ : Deserializer (List Byte)) rest = _
  split
  · rw [reading_bind]
    refine Reader.bind_congr fun tail rest htail => ?_
    have htail : tail.length = keyLen head := (Reader.take_eq_ok.mp ((Reader.mapError_eq_ok _).mp htail)).1
    change checked (if keyLen head + 2 ≤ _ then _ else _) rest = _
    have hbuf : (head ++ (tail ++ List.replicate (maxExtensionKeySize - keyLen head) 0#8)).take (keyLen head + 2) =
        head ++ tail := by
      rw [← List.append_assoc]
      exact List.take_left' (by rw [List.length_append, hlen, htail, Nat.add_comm])
    rw [if_pos (by rw [List.length_append, List.length_append, hlen, htail]; omega), checked_some]
    exact congrArg (fun key => (pure key : Deserializer (List Byte)) rest) hbuf
  · rfl

theorem deserializeActualCont_eq (first : Byte) : deserializeActualCont first = reading (readActualCont first) := by
  unfold deserializeActualCont readActualCont
  rw [deserializeKey_eq]
  split
  · simp only [reading_bind, reading_pure]
  · split
    · simp only [reading_bind, reading_pure]
    · split
      · simp only [reading_bind, reading_pure]
      · rfl

theorem deserializeItemOrActual_eq : deserializeItemOrActual = reading readItemOrActual := by
  unfold deserializeItemOrActual readItemOrActual
  rw [reading_bind]
  congr 1
  funext tag
  rw [deserializeActualCont_eq]
  split <;> simp only [reading_bind, reading_pure]

theorem deserializeFirst_eq (isMembership : Bool) : deserializeFirst isMembership =
    reading (if isMembership then Sum.inl <$> readItem else readItemOrActual) := by
  unfold deserializeFirst
  rw [deserializeItemOrActual_eq]
  cases isMembership with
  | false => rfl
  | true => exact (reading_map readItem Sum.inl).symm

theorem deserializeEntries_eq (isMembership : Bool) (len : Nat) :
    deserializeEntries isMembership len = reading (readEntries isMembership len) := by
  unfold deserializeEntries readEntries
  split
  · rfl
  · rename_i hlen
    have hcapacity : ∀ first : Item ⊕ Actual, checkedSub len (if first.isRight then 1 else 0) =
        some (len - if first.isRight then 1 else 0) := by
      intro first
      refine checkedSub_eq_some.mpr ⟨?_, rfl⟩
      split <;> omega
    have hmany : Reader.many (reading readItem) (len - 1) = reading (Reader.many readItem (len - 1)) :=
      (Reader.mapError_many ..).symm
    rw [deserializeFirst_eq, readFirst, ← bind_pure_comp splitFirst]
    simp only [hcapacity, hmany, checked_some, pure_bind, reading_bind, reading_pure, bind_assoc]

/-- Deserialisation is reading. -/
theorem deserializeProof_eq : deserializeProof = reading readProof := by
  unfold deserializeProof readProof
  rw [reading_bind]
  congr 1
  funext tag
  exact deserializeEntries_eq _ _

theorem deserializeProof_ne_panic (bytes : List Byte) : deserializeProof bytes ≠ .error .panic := by
  rw [deserializeProof_eq]
  intro h
  change (readProof bytes).mapError Fault.invalid = .error .panic at h
  cases hread : readProof bytes with
  | error e =>
    rw [hread] at h
    cases h
  | ok r =>
    rw [hread] at h
    cases h

theorem deserializeProof_eq_ok {bytes rest : List Byte} {proof : Proof} :
    deserializeProof bytes = .ok (proof, rest) ↔
      (proof.Writable ∧ proof.entries < 2 ^ nonMembershipShift) ∧ bytes = proof.layout ++ rest := by
  rw [deserializeProof_eq, reading, Reader.mapError_eq_ok, readProof_reads _ _ _]

/-- The number of entries is what the first two bytes hold, the bit for non-membership aside. -/
theorem count_layout {proof : Proof} (h : proof.entries < 2 ^ nonMembershipShift) (rest : List Byte) :
    ofLeBytes ((proof.layout ++ rest).take 2) % 2 ^ nonMembershipShift = proof.entries := by
  obtain ⟨htag, -, hentries⟩ := (tag_eq_iff h).mp rfl
  have htake : (proof.layout ++ rest).take 2 = leBytes 2 proof.tag := by
    rw [proof.layout_eq, List.append_assoc]
    exact List.take_left' (length_leBytes 2 _)
  rw [htake, ofLeBytes_leBytes htag, hentries]

/-- Proofs which the trie gives are deserialised from what they are serialised as, whatever comes behind it, if they
are not too long. Deserialisation never panics and, unless the count is too large, what it takes off the front is
what the result serialises to. -/
theorem proof_codec_exact {A : Type} [LawfulAllocator A RawNode] :
    (∀ (digest : List Byte → CryptoHash) (t : Trie A) (key : List Byte) (value : Option CryptoHash) (proof : Proof),
        t.prove digest key = .ok (value, proof) → proof.entries < 8192 →
        ∃ bytes, proof.serialize = some bytes ∧ ∀ rest, deserializeProof (bytes ++ rest) = .ok (proof, rest)) ∧
      (∀ bytes, deserializeProof bytes ≠ .error .panic) ∧
      ∀ bytes proof rest, deserializeProof bytes = .ok (proof, rest) →
        ofLeBytes (bytes.take 2) % 2 ^ nonMembershipShift < 8192 →
        ∃ consumed, proof.serialize = some consumed ∧ bytes = consumed ++ rest := by
  refine ⟨?_, deserializeProof_ne_panic, ?_⟩
  · intro digest t key value proof hprove hentries
    have hlt : proof.entries < 2 ^ nonMembershipShift := hentries.trans (by decide)
    refine ⟨proof.layout, if_pos hentries, fun rest => deserializeProof_eq_ok.mpr ⟨⟨?_, hlt⟩, rfl⟩⟩
    exact CfGuest.prove_writable hprove
  · intro bytes proof rest h hcount
    obtain ⟨⟨-, hlt⟩, rfl⟩ := deserializeProof_eq_ok.mp h
    rw [count_layout hlt] at hcount
    exact ⟨proof.layout, if_pos hcount, rfl⟩

/-- The proof of a stored value, as the trie gives it. -/
theorem proof_codec_exact_sample :
    ∃ bytes, sampleProof.serialize = some bytes ∧ ∀ rest, deserializeProof (bytes ++ rest) = .ok (sampleProof, rest) := by
  have hprove : sampleState.trie.prove sampleDigest [0x62#8] = .ok (some (sampleValue 2#8), sampleProof) := by
    decide +kernel
  exact proof_codec_exact.1 sampleDigest sampleState.trie [0x62#8] _ sampleProof hprove (by decide)

end TrieProof
