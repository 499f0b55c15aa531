import EmulatedLightClient.MachineInts
import EmulatedLightClient.Readers
import EmulatedLightClient.TrieProof

/-!
# Serialisation of proofs

A proof is a tag with the number of its entries, what the lookup has run into if there is such, and the
items. The first byte of an entry tells which kind it is of.
-/

namespace TrieProof

open ByteBits Bits ExtKey Nodes MachineInts Readers

/-- Why bytes cannot be read. -/
inductive ReadError where
  | unexpectedLength
  | invalidVersion (byte : Byte)
  | invalidOption (byte : Byte)
  | zero
  | emptyExtension
  | invalidItemTag (first : Byte)
  | keyTooLong (len : Nat)
  | invalidActualTag (first : Byte)
  | invalidData
  deriving DecidableEq

abbrev ByteReader (α : Type) := Reader ReadError Byte α

def readU8 : ByteReader Byte := Reader.one .unexpectedLength

/-- Little endian. -/
def readNum (size : Nat) : ByteReader Nat := ofLeBytes <$> Reader.take .unexpectedLength size

def readHash : ByteReader CryptoHash := do
  let bytes ← Reader.take .unexpectedLength 32
  Reader.ofOption .unexpectedLength (CryptoHash.tryFrom bytes)

def readNonZeroU16 : ByteReader NonZeroU16 := do
  let n ← readNum 2
  Reader.ofOption .zero (NonZeroU16.new n)

/-- The flag of a reference is kept in some other byte. -/
def readOwnedRef (isValue : Bool) : ByteReader OwnedRef := do
  let hash ← readHash
  return ⟨isValue, hash⟩

def Item.serialize : Item → List Byte
  | .branch child => (ofBool child.isValue <<< 4) :: child.hash.bytes
  | .extension keyLen => toBeBytes (BitVec.ofNat 16 keyLen.get ||| 0x2000#16)

/-- An item with the first byte already read. -/
def readItemCont (first : Byte) : ByteReader Item :=
  if first = 0x00#8 ∨ first = 0x10#8 then return .branch (← readOwnedRef (first ≠ 0x00#8))
  else if first = 0x20#8 ∨ first = 0x21#8 then do
    let second ← readU8
    let len ← Reader.ofOption .emptyExtension (NonZeroU16.new ((first &&& 1#8) ++ second).toNat)
    return .extension len
  else throw (.invalidItemTag first)

def readItem : ByteReader Item := do readItemCont (← readU8)

def Actual.serialize : Actual → List Byte
  | .branch left right =>
    (0x80#8 ||| ((ofBool left.isValue <<< 1) ||| ofBool right.isValue)) :: (left.hash.bytes ++ right.hash.bytes)
  | .extension left key child => (0x84#8 ||| ofBool child.isValue) :: (leBytes 2 left ++ key ++ child.hash.bytes)
  | .lookupKeyLeft left hash => 0x86#8 :: (leBytes 2 left.get ++ hash.bytes)

/-- How many bytes of a key follow its first two. -/
def keyLen (head : List Byte) : Nat :=
  let tag := ofLeBytes head.reverse
  (tag % 8 + tag / 8 + 7) / 8

/-- The length of the key is not written, since its first two bytes tell it. -/
def readKey : ByteReader (List Byte) := do
  let head ← Reader.take .unexpectedLength 2
  if keyLen head ≤ maxExtensionKeySize then
    let tail ← Reader.take .unexpectedLength (keyLen head)
    return head ++ tail
  else throw (.keyTooLong (keyLen head))

/-- An `Actual` with the first byte already read. -/
def readActualCont (first : Byte) : ByteReader Actual :=
  if 0x80#8 ≤ first ∧ first ≤ 0x83#8 then do
    let left ← readOwnedRef (first &&& 2#8 ≠ 0#8)
    let right ← readOwnedRef (first &&& 1#8 ≠ 0#8)
    return .branch left right
  else if first = 0x84#8 ∨ first = 0x85#8 then do
    let left ← readNum 2
    let key ← readKey
    let child ← readOwnedRef (first = 0x85#8)
    return .extension (Fin.ofNat (2 ^ 16) left) key child
  else if first = 0x86#8 then do
    let left ← readNonZeroU16
    let hash ← readHash
    return .lookupKeyLeft left hash
  else throw (.invalidActualTag first)

def nonMembershipShift : Nat := 15

/-- How many entries there are, which is what the tag says. -/
def Proof.entries : Proof → Nat
  | .positive proof => proof.items.length
  | .negative proof => proof.items.length + proof.actual.toList.length

def Proof.tag (proof : Proof) : Nat :=
  match proof with
  | .positive _ => proof.entries
  | .negative _ => proof.entries ||| 1 <<< nonMembershipShift

/-- The layout of a proof. -/
def Proof.layout (proof : Proof) : List Byte :=
  let (actual, items) :=
    match proof with
    | .positive proof => (none, proof.items)
    | .negative proof => (proof.actual, proof.items)
  leBytes 2 proof.tag ++ actual.toList.flatMap Actual.serialize ++ items.flatMap Item.serialize

/-- Proofs which are too long are not written. -/
def Proof.serialize (proof : Proof) : Option (List Byte) :=
  if proof.entries < 8192 then some proof.layout else none

/-- Bytes with the most significant bit set start an `Actual`. -/
def readItemOrActual : ByteReader (Item ⊕ Actual) := do
  let tag ← readU8
  if tag &&& 0x80#8 = 0#8 then return .inl (← readItemCont tag)
  else return .inr (← readActualCont tag)

/-- What the first entry contributes to the proof. -/
def splitFirst : Item ⊕ Actual → Option Actual × List Item
  | .inl item => (none, [item])
  | .inr actual => (some actual, [])

/-- The first entry; a membership proof can only have items. -/
def readFirst (isMembership : Bool) : ByteReader (Option Actual × List Item) :=
  splitFirst <$> if isMembership then Sum.inl <$> readItem else readItemOrActual

def Proof.ofParts (isMembership : Bool) (actual : Option Actual) (items : List Item) : Proof :=
  if isMembership then .positive ⟨items⟩ else .negative ⟨actual, items⟩

def readEntries (isMembership : Bool) (len : Nat) : ByteReader Proof :=
  if len = 0 then return .ofParts isMembership none []
  else do
    let first ← readFirst isMembership
    let rest ← Reader.many readItem (len - 1)
    return .ofParts isMembership first.1 (first.2 ++ rest)

def readProof : ByteReader Proof := do
  let tag ← readNum 2
  readEntries (!tag.testBit nonMembershipShift) (tag % 2 ^ nonMembershipShift)

theorem readU8_eq_ok {b : Byte} {s rest : List Byte} : readU8 s = .ok (b, rest) ↔ s = b :: rest := Reader.one_eq_ok

theorem map_eq_ok {α β : Type} {x : ByteReader α} {f : α → β} {s rest : List Byte} {b : β} :
    (f <$> x) s = .ok (b, rest) ↔ ∃ a, x s = .ok (a, rest) ∧ f a = b := by
  rw [← bind_pure_comp, Reader.bind_eq_ok]
  constructor
  · rintro ⟨a, mid, ha, hb⟩
    obtain ⟨rfl, rfl⟩ := Reader.pure_eq_ok.mp hb
    exact ⟨a, ha, rfl⟩
  · rintro ⟨a, ha, rfl⟩
    exact ⟨a, rest, ha, Reader.pure_eq_ok.mpr ⟨rfl, rfl⟩⟩

theorem readNum_eq_ok {size n : Nat} {s rest : List Byte} :
    readNum size s = .ok (n, rest) ↔ n < 256 ^ size ∧ s = leBytes size n ++ rest := by
  unfold readNum
  rw [map_eq_ok]
  simp only [Reader.take_eq_ok]
  constructor
  · rintro ⟨bytes, ⟨rfl, rfl⟩, rfl⟩
    exact ⟨ofLeBytes_lt le_rfl, by rw [leBytes_ofLeBytes]⟩
  · rintro ⟨hlt, rfl⟩
    exact ⟨leBytes size n, ⟨length_leBytes size n, rfl⟩, ofLeBytes_leBytes hlt⟩

theorem readHash_eq_ok {hash : CryptoHash} {s rest : List Byte} :
    readHash s = .ok (hash, rest) ↔ s = hash.bytes ++ rest := by
  simp only [readHash, Reader.bind_eq_ok, Reader.take_eq_ok, Reader.ofOption_eq_ok]
  constructor
  · rintro ⟨bytes, mid, ⟨hlen, rfl⟩, hhash, rfl⟩
    rw [CryptoHash.bytes_of_tryFrom hhash]
  · rintro rfl
    exact ⟨hash.bytes, rest, ⟨hash.size, rfl⟩, CryptoHash.tryFrom_bytes hash, rfl⟩

theorem nonZeroU16_new_eq_some {n : Nat} {a : NonZeroU16} : NonZeroU16.new n = some a ↔ n = a.get := by
  unfold NonZeroU16.new
  split
  · rename_i h
    constructor
    · intro heq
      cases heq
      rfl
    · rintro rfl
      rfl
  · rename_i h
    refine iff_of_false (Option.some_ne_none a).symm ?_
    rintro rfl
    exact h ⟨a.nonzero, a.lt⟩

theorem readNonZeroU16_eq_ok {n : NonZeroU16} {s rest : List Byte} :
    readNonZeroU16 s = .ok (n, rest) ↔ s = leBytes 2 n.get ++ rest := by
  simp only [readNonZeroU16, Reader.bind_eq_ok, readNum_eq_ok, Reader.ofOption_eq_ok, nonZeroU16_new_eq_some]
  constructor
  · rintro ⟨m, mid, ⟨hlt, rfl⟩, rfl, rfl⟩
    rfl
  · rintro rfl
    exact ⟨n.get, rest, ⟨n.lt, rfl⟩, rfl, rfl⟩

theorem readOwnedRef_eq_ok {isValue : Bool} {child : OwnedRef} {s rest : List Byte} :
    readOwnedRef isValue s = .ok (child, rest) ↔ child.isValue = isValue ∧ s = child.hash.bytes ++ rest := by
  simp only [readOwnedRef, Reader.bind_eq_ok, readHash_eq_ok, Reader.pure_eq_ok]
  constructor
  · rintro ⟨hash, mid, rfl, rfl, rfl⟩
    exact ⟨rfl, rfl⟩
  · rintro ⟨rfl, rfl⟩
    exact ⟨child.hash, rest, rfl, rfl, rfl⟩

/-- The tag of an extension leaves nine bits for its length. -/
def Item.Writable : Item → Prop
  | .branch _ => True
  | .extension len => len.get < 512

/-- Lengths below the limit survive in the bytes of an extension. -/
theorem extension_bytes : ∀ n : Fin 512, ∃ first second : Byte,
    toBeBytes (BitVec.ofNat 16 n ||| 0x2000#16) = [first, second] ∧ (first = 0x20#8 ∨ first = 0x21#8) ∧
      ((first &&& 1#8) ++ second).toNat = n := by
  intro n
  refine ⟨_, _, rfl, ?_⟩
  revert n
  decide +kernel

/-- Bytes of an extension are those of the length in them. -/
theorem extension_of_bytes : ∀ first : Fin 2, ∀ second : Fin 256,
    ((BitVec.ofNat 8 (0x20 + first) &&& 1#8) ++ BitVec.ofNat 8 second).toNat < 512 ∧
      toBeBytes (BitVec.ofNat 16 ((BitVec.ofNat 8 (0x20 + first) &&& 1#8) ++ BitVec.ofNat 8 second).toNat ||| 0x2000#16) =
        [BitVec.ofNat 8 (0x20 + first), BitVec.ofNat 8 second] := by
  decide +kernel

theorem readItem_serialize {item : Item} (h : item.Writable) (rest : List Byte) :
    readItem (item.serialize ++ rest) = .ok (item, rest) := by
  unfold readItem
  rw [Reader.bind_eq_ok]
  cases item with
  | branch child =>
    refine ⟨_, _, readU8_eq_ok.mpr rfl, ?_⟩
    have hfirst : ofBool child.isValue <<< 4 = 0x00#8 ∨ ofBool child.isValue <<< 4 = 0x10#8 := by
      cases child.isValue
      · exact .inl rfl
      · exact .inr rfl
    have hflag : decide (ofBool child.isValue <<< 4 ≠ 0x00#8) = child.isValue := by
      cases child.isValue <;> rfl
    unfold readItemCont
    rw [if_pos hfirst, hflag, Reader.bind_eq_ok]
    exact ⟨child, rest, readOwnedRef_eq_ok.mpr ⟨rfl, rfl⟩, rfl⟩
  | extension len =>
    obtain ⟨first, second, hbytes, hfirst, hlen⟩ := extension_bytes ⟨len.get, h⟩
    have hs : (Item.extension len).serialize ++ rest = first :: second :: rest := congrArg (· ++ rest) hbytes
    refine ⟨first, second :: rest, readU8_eq_ok.mpr hs, ?_⟩
    have hbranch : ¬ (first = 0x00#8 ∨ first = 0x10#8) := by
      rcases hfirst with rfl | rfl <;> decide
    unfold readItemCont
    rw [if_neg hbranch, if_pos hfirst]
    simp only [Reader.bind_eq_ok, Reader.pure_eq_ok, readU8_eq_ok, Reader.ofOption_eq_ok]
    exact ⟨second, rest, rfl, len, rest, ⟨nonZeroU16_new_eq_some.mpr hlen, rfl⟩, rfl, rfl⟩

theorem readItemCont_sound {first : Byte} {item : Item} {s rest : List Byte}
    (h : readItemCont first s = .ok (item, rest)) : item.Writable ∧ first :: s = item.serialize ++ rest := by
  unfold readItemCont at h
  split at h
  · rename_i hfirst
    obtain ⟨child, mid, hchild, hitem⟩ := Reader.bind_eq_ok.mp h
    obtain ⟨hflag, rfl⟩ := readOwnedRef_eq_ok.mp hchild
    obtain ⟨rfl, rfl⟩ := Reader.pure_eq_ok.mp hitem
    refine ⟨trivial, ?_⟩
    have htag : ofBool child.isValue <<< 4 = first := by
      rcases hfirst with rfl | rfl <;> rw [hflag] <;> rfl
    rw [Item.serialize, htag, List.cons_append]
  · split at h
    · rename_i hfirst
      simp only [Reader.bind_eq_ok, Reader.pure_eq_ok, readU8_eq_ok, Reader.ofOption_eq_ok, nonZeroU16_new_eq_some] at h
      obtain ⟨second, mid, rfl, len, mid, ⟨hlen, rfl⟩, rfl, rfl⟩ := h
      obtain ⟨k, rfl⟩ : ∃ k : Fin 2, first = BitVec.ofNat 8 (0x20 + k) := by
        rcases hfirst with rfl | rfl
        · exact ⟨0, rfl⟩
        · exact ⟨1, rfl⟩
      have hsecond : BitVec.ofNat 8 second.toNat = second := (BitVec.ofNat_toNat 8 second).trans (BitVec.setWidth_eq second)
      have hbytes := extension_of_bytes k ⟨second.toNat, second.isLt⟩
      simp only [hsecond, hlen] at hbytes
      exact ⟨hbytes.1, by rw [Item.serialize, hbytes.2]; rfl⟩
    · cases h

theorem readItem_reads : Reader.Reads readItem Item.Writable Item.serialize := by
  intro s item rest
  constructor
  · intro h
    obtain ⟨first, mid, hfirst, hitem⟩ := Reader.bind_eq_ok.mp h
    rw [readU8_eq_ok.mp hfirst]
    exact readItemCont_sound hitem
  · rintro ⟨hw, rfl⟩
    exact readItem_serialize hw rest

/-- The bytes of a key have the length which the first two of them tell. -/
def KeyBytes (key : List Byte) : Prop :=
  key.length = 2 + keyLen (key.take 2) ∧ keyLen (key.take 2) ≤ maxExtensionKeySize

def Actual.Writable : Actual → Prop
  | .extension _ key _ => KeyBytes key
  | _ => True

theorem readKey_eq_ok {key s rest : List Byte} : readKey s = .ok (key, rest) ↔ KeyBytes key ∧ s = key ++ rest := by
  unfold readKey
  rw [Reader.bind_eq_ok]
  constructor
  · rintro ⟨head, mid, hhead, htail⟩
    obtain ⟨hlen, rfl⟩ := Reader.take_eq_ok.mp hhead
    split at htail
    · rename_i hle
      simp only [Reader.bind_eq_ok, Reader.take_eq_ok, Reader.pure_eq_ok] at htail
      obtain ⟨tail, mid, ⟨htail, rfl⟩, rfl, rfl⟩ := htail
      have htake : (head ++ tail).take 2 = head := List.take_left' hlen
      refine ⟨⟨?_, ?_⟩, (List.append_assoc _ _ _).symm⟩
      · rw [List.length_append, hlen, htail, htake]
      · rw [htake]
        exact hle
    · cases htail
  · rintro ⟨⟨hlen, hle⟩, rfl⟩
    refine ⟨key.take 2, key.drop 2 ++ rest, Reader.take_eq_ok.mpr ⟨?_, ?_⟩, ?_⟩
    · rw [List.length_take]
      omega
    · rw [← List.append_assoc, List.take_append_drop]
    · rw [if_pos hle]
      simp only [Reader.bind_eq_ok, Reader.take_eq_ok, Reader.pure_eq_ok]
      refine ⟨key.drop 2, rest, ⟨?_, rfl⟩, List.take_append_drop 2 key, rfl⟩
      rw [List.length_drop]
      omega

theorem branch_tag : ∀ left right : Bool,
    0x80#8 ≤ 0x80#8 ||| ((ofBool left <<< 1) ||| ofBool right) ∧
      0x80#8 ||| ((ofBool left <<< 1) ||| ofBool right) ≤ 0x83#8 ∧
      decide ((0x80#8 ||| ((ofBool left <<< 1) ||| ofBool right)) &&& 2#8 ≠ 0#8) = left ∧
      decide ((0x80#8 ||| ((ofBool left <<< 1) ||| ofBool right)) &&& 1#8 ≠ 0#8) = right := by
  decide

theorem branch_of_tag : ∀ first : Fin 256, 0x80#8 ≤ BitVec.ofFin first → BitVec.ofFin first ≤ 0x83#8 →
    0x80#8 ||| ((ofBool (BitVec.ofFin first &&& 2#8 ≠ 0#8) <<< 1) ||| ofBool (BitVec.ofFin first &&& 1#8 ≠ 0#8)) =
      BitVec.ofFin first := by
  decide +kernel

theorem readActualCont_serialize {actual : Actual} (h : actual.Writable) (rest : List Byte) :
    ∃ first s, actual.serialize ++ rest = first :: s ∧ first &&& 0x80#8 ≠ 0#8 ∧
      readActualCont first s = .ok (actual, rest) := by
  cases actual with
  | branch left right =>
    obtain ⟨hge, hle, hleft, hright⟩ := branch_tag left.isValue right.isValue
    refine ⟨_, _, List.cons_append, ?_, ?_⟩
    · cases left.isValue <;> cases right.isValue <;> decide
    · unfold readActualCont
      rw [if_pos ⟨hge, hle⟩, hleft, hright]
      simp only [Reader.bind_eq_ok, Reader.pure_eq_ok, readOwnedRef_eq_ok]
      refine ⟨left, right.hash.bytes ++ rest, ⟨rfl, ?_⟩, right, rest, ⟨rfl, rfl⟩, rfl, rfl⟩
      rw [List.append_assoc]
  | extension left key child =>
    have hfirst : 0x84#8 ||| ofBool child.isValue = 0x84#8 ∨ 0x84#8 ||| ofBool child.isValue = 0x85#8 := by
      cases child.isValue
      · exact .inl rfl
      · exact .inr rfl
    have hflag : decide (0x84#8 ||| ofBool child.isValue = 0x85#8) = child.isValue := by
      cases child.isValue <;> rfl
    have hbranch : ¬ (0x80#8 ≤ 0x84#8 ||| ofBool child.isValue ∧ 0x84#8 ||| ofBool child.isValue ≤ 0x83#8) := by
      cases child.isValue <;> decide
    refine ⟨_, _, List.cons_append, ?_, ?_⟩
    · cases child.isValue <;> decide
    · unfold readActualCont
      rw [if_neg hbranch, if_pos hfirst, hflag]
      simp only [Reader.bind_eq_ok, Reader.pure_eq_ok, readNum_eq_ok, readKey_eq_ok, readOwnedRef_eq_ok]
      refine ⟨left, key ++ (child.hash.bytes ++ rest), ⟨left.isLt, ?_⟩, key, child.hash.bytes ++ rest, ⟨h, rfl⟩, child, rest,
        ⟨rfl, rfl⟩, ?_, rfl⟩
      · rw [List.append_assoc, List.append_assoc]
      · rw [Fin.ofNat_val_eq_self]
  | lookupKeyLeft left hash =>
    refine ⟨_, _, List.cons_append, by decide, ?_⟩
    unfold readActualCont
    rw [if_neg (by decide), if_neg (by decide), if_pos rfl]
    simp only [Reader.bind_eq_ok, Reader.pure_eq_ok, readNonZeroU16_eq_ok, readHash_eq_ok]
    refine ⟨left, hash.bytes ++ rest, ?_, hash, rest, rfl, rfl, rfl⟩
    rw [List.append_assoc]

theorem readActualCont_sound {first : Byte} {actual : Actual} {s rest : List Byte}
    (h : readActualCont first s = .ok (actual, rest)) : actual.Writable ∧ first :: s = actual.serialize ++ rest := by
  unfold readActualCont at h
  split at h
  · rename_i hfirst
    simp only [Reader.bind_eq_ok, Reader.pure_eq_ok, readOwnedRef_eq_ok] at h
    obtain ⟨left, mid, ⟨hleft, rfl⟩, right, mid, ⟨hright, rfl⟩, rfl, rfl⟩ := h
    have htag := branch_of_tag first.toFin hfirst.1 hfirst.2
    refine ⟨trivial, ?_⟩
    rw [Actual.serialize, hleft, hright, List.cons_append, List.append_assoc]
    exact congrArg (· :: _) htag.symm
  · split at h
    · rename_i hfirst
      simp only [Reader.bind_eq_ok, Reader.pure_eq_ok, readNum_eq_ok, readKey_eq_ok, readOwnedRef_eq_ok] at h
      obtain ⟨left, mid, ⟨hleft, rfl⟩, key, mid, ⟨hkey, rfl⟩, child, mid, ⟨hflag, rfl⟩, rfl, rfl⟩ := h
      have htag : 0x84#8 ||| ofBool child.isValue = first := by
        rcases hfirst with rfl | rfl <;> rw [hflag] <;> rfl
      refine ⟨hkey, ?_⟩
      rw [Actual.serialize, htag, Fin.val_ofNat, Nat.mod_eq_of_lt (Nat.lt_of_lt_of_eq hleft (by decide)), List.cons_append, List.append_assoc,
        List.append_assoc]
    · split at h
      · rename_i hfirst
        simp only [Reader.bind_eq_ok, Reader.pure_eq_ok, readNonZeroU16_eq_ok, readHash_eq_ok] at h
        obtain ⟨left, mid, rfl, hash, mid, rfl, rfl, rfl⟩ := h
        refine ⟨trivial, ?_⟩
        rw [Actual.serialize, hfirst, List.cons_append, List.append_assoc]
      · cases h

namespace Proof

/-- The part behind the tag. -/
def parts : Proof → Option Actual × List Item
  | positive proof => (none, proof.items)
  | negative proof => (proof.actual, proof.items)

/-- Whether the entries have a form which can be read back. -/
structure Writable (proof : Proof) : Prop where
  actual : ∀ actual ∈ proof.parts.1, actual.Writable
  items : ∀ item ∈ proof.parts.2, item.Writable

def isMembership : Proof → Bool
  | positive _ => true
  | negative _ => false

/-- What follows the tag. -/
def body (proof : Proof) : List Byte :=
  proof.parts.1.toList.flatMap Actual.serialize ++ proof.parts.2.flatMap Item.serialize

theorem entries_eq (proof : Proof) : proof.entries = proof.parts.2.length + proof.parts.1.toList.length := by
  cases proof <;> rfl

theorem layout_eq (proof : Proof) : proof.layout = leBytes 2 proof.tag ++ proof.body := by
  cases proof <;> exact List.append_assoc _ _ _

end Proof

theorem tag_eq {proof : Proof} (h : proof.entries < 2 ^ nonMembershipShift) :
    proof.tag = (if proof.isMembership then 0 else 2 ^ nonMembershipShift) + proof.entries := by
  cases proof with
  | positive p => exact (Nat.zero_add _).symm
  | negative p =>
    have hor := Nat.two_pow_add_eq_or_of_lt h 1
    rw [Nat.mul_one] at hor
    exact (Nat.or_comm _ _).trans hor.symm

/-- The tag tells the number of entries and the kind of the proof. -/
theorem tag_eq_iff {proof : Proof} (h : proof.entries < 2 ^ nonMembershipShift) {tag : Nat} :
    proof.tag = tag ↔ tag < 256 ^ 2 ∧ proof.isMembership = !tag.testBit nonMembershipShift ∧
      proof.entries = tag % 2 ^ nonMembershipShift := by
  rw [tag_eq h, Nat.testBit_eq_decide_div_mod_eq]
  unfold nonMembershipShift at *
  by_cases hbit : tag / 2 ^ 15 % 2 = 1
  · cases proof.isMembership
    · simp only [hbit, decide_true, Bool.not_true, Bool.false_eq_true, if_false, true_and]
      omega
    · simp only [hbit, decide_true, Bool.not_true, Bool.true_eq_false, if_true, false_and, and_false, iff_false]
      omega
  · cases proof.isMembership
    · simp only [hbit, decide_false, Bool.not_false, Bool.false_eq_true, if_false, false_and, and_false, iff_false]
      omega
    · simp only [hbit, decide_false, Bool.not_false, if_true, true_and]
      omega

theorem readItemCont_first {first : Byte} {item : Item} {s rest : List Byte}
    (h : readItemCont first s = .ok (item, rest)) : first &&& 0x80#8 = 0#8 := by
  unfold readItemCont at h
  split at h
  · rename_i hfirst
    rcases hfirst with rfl | rfl <;> rfl
  · split at h
    · rename_i hfirst
      rcases hfirst with rfl | rfl <;> rfl
    · cases h

theorem readItemOrActual_eq_ok {entry : Item ⊕ Actual} {s rest : List Byte} :
    readItemOrActual s = .ok (entry, rest) ↔
      (∃ item, entry = .inl item ∧ item.Writable ∧ s = item.serialize ++ rest) ∨
        ∃ actual, entry = .inr actual ∧ actual.Writable ∧ s = actual.serialize ++ rest := by
  unfold readItemOrActual
  rw [Reader.bind_eq_ok]
  simp only [readU8_eq_ok]
  constructor
  · rintro ⟨first, mid, rfl, h⟩
    split at h
    · obtain ⟨item, mid', hitem, heq⟩ := Reader.bind_eq_ok.mp h
      obtain ⟨rfl, rfl⟩ := Reader.pure_eq_ok.mp heq
      exact .inl ⟨item, rfl, readItemCont_sound hitem⟩
    · obtain ⟨actual, mid', hactual, heq⟩ := Reader.bind_eq_ok.mp h
      obtain ⟨rfl, rfl⟩ := Reader.pure_eq_ok.mp heq
      exact .inr ⟨actual, rfl, readActualCont_sound hactual⟩
  · rintro (⟨item, rfl, hw, rfl⟩ | ⟨actual, rfl, hw, rfl⟩)
    · obtain ⟨first, mid, hfirst, hitem⟩ := Reader.bind_eq_ok.mp (readItem_serialize hw rest)
      refine ⟨first, mid, readU8_eq_ok.mp hfirst, ?_⟩
      rw [if_pos (readItemCont_first hitem), Reader.bind_eq_ok]
      exact ⟨item, rest, hitem, rfl⟩
    · obtain ⟨first, mid, hfirst, hbit, hactual⟩ := readActualCont_serialize hw rest
      refine ⟨first, mid, hfirst, ?_⟩
      rw [if_neg hbit, Reader.bind_eq_ok]
      exact ⟨actual, rest, hactual, rfl⟩

theorem readFirst_eq_ok {isMembership : Bool} {s rest : List Byte} {actual : Option Actual} {items : List Item} :
    readFirst isMembership s = .ok ((actual, items), rest) ↔
      (∃ item, actual = none ∧ items = [item] ∧ item.Writable ∧ s = item.serialize ++ rest) ∨
        (isMembership = false ∧ ∃ a, actual = some a ∧ items = [] ∧ a.Writable ∧ s = a.serialize ++ rest) := by
  unfold readFirst
  rw [map_eq_ok]
  cases isMembership with
  | true =>
    simp only [if_true, map_eq_ok, readItem_reads _ _ _, Bool.true_eq_false, false_and, or_false]
    constructor
    · rintro ⟨_, ⟨item, ⟨hw, rfl⟩, rfl⟩, heq⟩
      cases heq
      exact ⟨item, rfl, rfl, hw, rfl⟩
    · rintro ⟨item, rfl, rfl, hw, rfl⟩
      exact ⟨.inl item, ⟨item, ⟨hw, rfl⟩, rfl⟩, rfl⟩
  | false =>
    simp only [Bool.false_eq_true, if_false, readItemOrActual_eq_ok, true_and]
    constructor
    · rintro ⟨_, ⟨item, rfl, hw, rfl⟩ | ⟨a, rfl, hw, rfl⟩, heq⟩
      · cases heq
        exact .inl ⟨item, rfl, rfl, hw, rfl⟩
      · cases heq
        exact .inr ⟨a, rfl, rfl, hw, rfl⟩
    · rintro (⟨item, rfl, rfl, hw, rfl⟩ | ⟨a, rfl, rfl, hw, rfl⟩)
      · exact ⟨.inl item, .inl ⟨item, rfl, hw, rfl⟩, rfl⟩
      · exact ⟨.inr a, .inr ⟨a, rfl, hw, rfl⟩, rfl⟩

/-- Membership proofs have no `Actual`. -/
theorem Proof.eq_ofParts_iff {proof : Proof} {isMembership : Bool} {actual : Option Actual} {items : List Item}
    (h : isMembership = true → actual = none) :
    Proof.ofParts isMembership actual items = proof ↔ proof.isMembership = isMembership ∧ proof.parts = (actual, items) := by
  cases isMembership with
  | true =>
    rw [h rfl]
    cases proof with
    | positive p =>
      obtain ⟨items'⟩ := p
      simp [ofParts, Proof.isMembership, parts, eq_comm]
    | negative p => exact iff_of_false nofun nofun
  | false =>
    cases proof with
    | positive p => exact iff_of_false nofun nofun
    | negative p =>
      obtain ⟨actual', items'⟩ := p
      simp [ofParts, Proof.isMembership, parts, eq_comm]

theorem Proof.actual_eq_none {proof : Proof} (h : proof.isMembership = true) : proof.parts.1 = none := by
  cases proof with
  | positive p => rfl
  | negative p => cases h

/-- What reading has to find, entry by entry. -/
theorem Proof.entries_iff {proof : Proof} {actual : Option Actual} {items : List Item} (h : proof.parts = (actual, items))
    {len : Nat} {s rest : List Byte} : proof.entries = len ∧ proof.Writable ∧ s = proof.body ++ rest ↔
      items.length + actual.toList.length = len ∧ ((∀ a ∈ actual, a.Writable) ∧ ∀ item ∈ items, item.Writable) ∧
        s = actual.toList.flatMap Actual.serialize ++ (items.flatMap Item.serialize ++ rest) := by
  rw [entries_eq, body, h, List.append_assoc]
  have hw : proof.Writable ↔ (∀ a ∈ actual, a.Writable) ∧ ∀ item ∈ items, item.Writable := by
    constructor
    · rintro ⟨ha, hi⟩
      rw [h] at ha hi
      exact ⟨ha, hi⟩
    · rintro ⟨ha, hi⟩
      exact ⟨by rw [h]; exact ha, by rw [h]; exact hi⟩
  rw [hw]

theorem readEntries_eq_ok {isMembership : Bool} {len : Nat} {proof : Proof} {s rest : List Byte} :
    readEntries isMembership len s = .ok (proof, rest) ↔
      proof.isMembership = isMembership ∧ proof.entries = len ∧ proof.Writable ∧ s = proof.body ++ rest := by
  rcases hparts : proof.parts with ⟨actual, items⟩
  rw [Proof.entries_iff hparts]
  unfold readEntries
  split
  · rename_i hlen
    rw [Reader.pure_eq_ok, Proof.eq_ofParts_iff fun _ => rfl, hparts, hlen]
    constructor
    · rintro ⟨⟨hkind, heq⟩, rfl⟩
      cases heq
      exact ⟨hkind, rfl, ⟨nofun, nofun⟩, rfl⟩
    · rintro ⟨hkind, hentries, -, rfl⟩
      rw [Nat.add_eq_zero_iff, List.length_eq_zero_iff, List.length_eq_zero_iff, Option.toList_eq_nil_iff] at hentries
      obtain ⟨rfl, rfl⟩ := hentries
      exact ⟨⟨hkind, rfl⟩, rfl⟩
  · rename_i hlen
    simp only [Reader.bind_eq_ok, Reader.pure_eq_ok, readItem_reads.many _ _ _ _]
    constructor
    · rintro ⟨⟨actual', items'⟩, mid, hfirst, more, rest', ⟨⟨hmore, hwmore⟩, rfl⟩, hproof, rfl⟩
      rcases readFirst_eq_ok.mp hfirst with ⟨item, rfl, rfl, hw, rfl⟩ | ⟨rfl, a, rfl, rfl, hw, rfl⟩
      · obtain ⟨hkind, heq⟩ := (Proof.eq_ofParts_iff fun _ => rfl).mp hproof
        cases hparts.symm.trans heq
        refine ⟨hkind, ?_, ⟨nofun, List.forall_mem_cons.mpr ⟨hw, hwmore⟩⟩, ?_⟩
        · rw [Option.toList_none, List.length_nil, Nat.add_zero, List.cons_append, List.length_cons, List.nil_append]
          omega
        · rw [Option.toList_none, List.flatMap_nil, List.nil_append, List.cons_append, List.flatMap_cons, List.nil_append,
            List.append_assoc]
      · obtain ⟨hkind, heq⟩ := (Proof.eq_ofParts_iff (Bool.noConfusion ·)).mp hproof
        cases hparts.symm.trans heq
        refine ⟨hkind, ?_, ⟨?_, hwmore⟩, ?_⟩
        · rw [Option.toList_some, List.length_singleton, List.nil_append]
          omega
        · rintro _ ⟨⟩
          exact hw
        · rw [Option.toList_some, List.flatMap_singleton, List.nil_append]
    · rintro ⟨hkind, hentries, ⟨hwactual, hwitems⟩, rfl⟩
      cases actual with
      | none =>
        cases items with
        | nil => exact absurd hentries.symm hlen
        | cons item more =>
          obtain ⟨hw, hwmore⟩ := List.forall_mem_cons.mp hwitems
          refine ⟨(none, [item]), _, readFirst_eq_ok.mpr (.inl ⟨item, rfl, rfl, hw, ?_⟩), more, rest,
            ⟨⟨?_, hwmore⟩, rfl⟩, (Proof.eq_ofParts_iff fun _ => rfl).mpr ⟨hkind, hparts⟩, rfl⟩
          · rw [Option.toList_none, List.flatMap_nil, List.nil_append, List.flatMap_cons, List.append_assoc]
          · rw [Option.toList_none, List.length_nil, Nat.add_zero, List.length_cons] at hentries
            omega
      | some a =>
        have hfalse : isMembership = false := by
          refine Bool.eq_false_iff.mpr fun htrue => ?_
          have hnone := Proof.actual_eq_none (hkind.trans htrue)
          rw [hparts] at hnone
          cases hnone
        refine ⟨(some a, []), _, readFirst_eq_ok.mpr (.inr ⟨hfalse, a, rfl, rfl, hwactual a rfl, ?_⟩), items, rest,
          ⟨⟨?_, hwitems⟩, rfl⟩, (Proof.eq_ofParts_iff ?_).mpr ⟨hkind, hparts⟩, rfl⟩
        · rw [Option.toList_some, List.flatMap_singleton]
        · rw [Option.toList_some, List.length_singleton] at hentries
          omega
        · rw [hfalse]
          nofun

/-- Reading accepts exactly the layouts of proofs with entries that can be written, up to the greatest number
of entries which fits in the tag. -/
theorem readProof_reads :
    Reader.Reads readProof (fun proof => proof.Writable ∧ proof.entries < 2 ^ nonMembershipShift) Proof.layout := by
  intro s proof rest
  unfold readProof
  simp only [Reader.bind_eq_ok, readNum_eq_ok, readEntries_eq_ok]
  constructor
  · rintro ⟨tag, mid, ⟨htag, rfl⟩, hkind, hentries, hw, rfl⟩
    have hlt : proof.entries < 2 ^ nonMembershipShift := hentries ▸ Nat.mod_lt _ (Nat.two_pow_pos _)
    refine ⟨⟨hw, hlt⟩, ?_⟩
    rw [proof.layout_eq, (tag_eq_iff hlt).mpr ⟨htag, hkind, hentries⟩, List.append_assoc]
  · rintro ⟨⟨hw, hlt⟩, rfl⟩
    obtain ⟨htag, hkind, hentries⟩ := (tag_eq_iff hlt).mp rfl
    refine ⟨proof.tag, proof.body ++ rest, ⟨htag, ?_⟩, hkind, hentries, hw, rfl⟩
    rw [proof.layout_eq, List.append_assoc]

end TrieProof
