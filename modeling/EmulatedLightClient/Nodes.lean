import EmulatedLightClient.ExtKeys
import EmulatedLightClient.Memory

/-!
# Trie nodes: hashing and the stored representation

The hash of a node covers the kinds and hashes of its references and the bits
and offset of its key, but neither pointers nor sealed flags. The stored
representation, two references or a key and a reference of 36 bytes each, keeps
everything.
-/

namespace Nodes

open ByteBits Bits Memory

structure CryptoHash where
  bytes : List Byte
  size : bytes.length = 32
  deriving DecidableEq

namespace CryptoHash

/-- The all-zero hash. -/
def default : CryptoHash := ⟨List.replicate 32 0#8, rfl⟩

def tryFrom (bytes : List Byte) : Option CryptoHash :=
  if h : bytes.length = 32 then some ⟨bytes, h⟩ else none

theorem tryFrom_bytes (h : CryptoHash) : tryFrom h.bytes = some h := dif_pos h.size

theorem bytes_of_tryFrom {bytes : List Byte} {h : CryptoHash} (ht : tryFrom bytes = some h) : h.bytes = bytes := by
  unfold tryFrom at ht
  split at ht
  · cases ht
    rfl
  · cases ht

theorem eq_of_bytes {h h' : CryptoHash} (he : h.bytes = h'.bytes) : h = h' := by
  cases h
  cases h'
  cases he
  rfl

end CryptoHash

structure NodeRef (P : Type) where
  ptr : P
  hash : CryptoHash
  deriving DecidableEq

structure ValueRef (S : Type) where
  isSealed : S
  hash : CryptoHash
  deriving DecidableEq

/-- Reference either to a node or a value. -/
inductive Reference (P S : Type) where
  | node (nref : NodeRef P)
  | value (vref : ValueRef S)
  deriving DecidableEq

inductive Node (P S : Type) where
  | branch (left right : Reference P S)
  | extension (key : ExtKey) (child : Reference P S)

/-- References as stored: a missing pointer means a sealed node. -/
abbrev Ref := Reference (Option Ptr) Bool

namespace Reference

variable {P S : Type}

/-- Whether the reference is a value reference and its hash. -/
def parts : Reference P S → Bool × CryptoHash
  | node nref => (false, nref.hash)
  | value vref => (true, vref.hash)

def isSealed : Ref → Bool
  | node nref => nref.ptr.isNone
  | value vref => vref.isSealed

end Reference

def ofBool (b : Bool) : Byte := if b then 1#8 else 0#8

namespace Node

variable {P S : Type}

/-- The bytes which are hashed. -/
def preimage : Node P S → List Byte
  | branch left right =>
    let (left, right) := (left.parts, right.parts)
    ((ofBool left.1 <<< 1) ||| ofBool right.1) :: (left.2.bytes ++ right.2.bytes)
  | extension key child =>
    let child := child.parts
    let tag := 0x80#8 ||| (ofBool child.1 <<< 4)
    let (buf, len) := key.encodeInto tag
    buf.take len ++ child.2.bytes

def hash (digest : List Byte → CryptoHash) (node : Node P S) : CryptoHash := digest node.preimage

end Node

/-- What a branch over references with given kinds and hashes hashes to. -/
def branchPreimage (left right : Bool × CryptoHash) : List Byte :=
  ((ofBool left.1 <<< 1) ||| ofBool right.1) :: (left.2.bytes ++ right.2.bytes)

/-- What an extension hashes to, in terms of the offset and bits of its key. -/
def extPreimage (offset : U3) (bits : List Bool) (child : Bool × CryptoHash) : List Byte :=
  (ExtKey.numHigh offset bits.length ^^^ (0x80#8 ||| (ofBool child.1 <<< 4))) ::
    ExtKey.numLow offset bits.length :: (ExtKey.bitBytes offset bits ++ child.2.bytes)

@[simp] theorem preimage_branch {P S : Type} (left right : Reference P S) :
    (Node.branch left right).preimage = branchPreimage left.parts right.parts := rfl

@[simp] theorem preimage_extension {P S : Type} (key : ExtKey) (child : Reference P S) :
    (Node.extension key child).preimage = extPreimage key.offset key.bits child.parts := by
  simp only [Node.preimage, ExtKey.encodeInto_eq, extPreimage, Nat.add_comm 2,
    List.take_succ_cons, List.take_left, List.cons_append]

theorem append_hash_inj {as bs : List Byte} {h h' : CryptoHash}
    (he : as ++ h.bytes = bs ++ h'.bytes) : as = bs ∧ h = h' := by
  obtain ⟨ha, hb⟩ := List.append_inj' he (h.size.trans h'.size.symm)
  exact ⟨ha, CryptoHash.eq_of_bytes hb⟩

theorem branch_tag_inj : ∀ a b c d : Bool,
    (ofBool a <<< 1) ||| ofBool b = (ofBool c <<< 1) ||| ofBool d → a = c ∧ b = d := by
  decide

theorem branchPreimage_inj {l r l' r' : Bool × CryptoHash}
    (h : branchPreimage l r = branchPreimage l' r') : l = l' ∧ r = r' := by
  obtain ⟨htag, hrest⟩ := List.cons.inj h
  obtain ⟨hl, hr⟩ := branch_tag_inj _ _ _ _ htag
  obtain ⟨hlb, hrh⟩ := append_hash_inj hrest
  exact ⟨Prod.ext hl (CryptoHash.eq_of_bytes hlb), Prod.ext hr hrh⟩

/-- Keys of extension nodes leave the upper half of their first byte to the tag. -/
theorem high_tag_inj : ∀ n m : Fin 16, ∀ a b : Bool,
    BitVec.ofNat 8 n ^^^ (0x80#8 ||| (ofBool a <<< 4)) =
      BitVec.ofNat 8 m ^^^ (0x80#8 ||| (ofBool b <<< 4)) → n = m ∧ a = b := by
  decide

theorem numHigh_eq {offset : U3} {length : Nat} (h : ExtKey.num offset length < 2 ^ 12) :
    ExtKey.numHigh offset length = BitVec.ofNat 8 (ExtKey.num offset length / 256) := by
  apply BitVec.eq_of_toNat_eq
  simp only [ExtKey.numHigh, BitVec.extractLsb'_toNat, BitVec.toNat_ofNat, Nat.shiftRight_eq_div_pow]
  omega

theorem numLow_eq (offset : U3) (length : Nat) :
    (ExtKey.numLow offset length).toNat = ExtKey.num offset length % 256 := by
  simp only [ExtKey.numLow, BitVec.extractLsb'_toNat, BitVec.toNat_ofNat, Nat.shiftRight_zero]
  omega

theorem extPreimage_inj {o o' : U3} {k k' : List Bool} {c c' : Bool × CryptoHash}
    (hk : ExtKey.num o k.length < 2 ^ 12) (hk' : ExtKey.num o' k'.length < 2 ^ 12)
    (h : extPreimage o k c = extPreimage o' k' c') : o = o' ∧ k = k' ∧ c = c' := by
  unfold extPreimage at h
  obtain ⟨htag, hrest⟩ := List.cons.inj h
  obtain ⟨hlow, hrest⟩ := List.cons.inj hrest
  obtain ⟨hbytes, hhash⟩ := append_hash_inj hrest
  rw [numHigh_eq hk, numHigh_eq hk'] at htag
  obtain ⟨hhigh, hkind⟩ := high_tag_inj ⟨ExtKey.num o k.length / 256, by omega⟩
    ⟨ExtKey.num o' k'.length / 256, by omega⟩ c.1 c'.1 htag
  have hhigh : ExtKey.num o k.length / 256 = ExtKey.num o' k'.length / 256 :=
    congrArg Fin.val hhigh
  have hlow : ExtKey.num o k.length % 256 = ExtKey.num o' k'.length % 256 := by
    rw [← numLow_eq, ← numLow_eq, hlow]
  have hnum : 8 * k.length + o.val = 8 * k'.length + o'.val := by
    simp only [ExtKey.num] at *
    omega
  have ho : o = o' := Fin.ext (by have := o.isLt; have := o'.isLt; omega)
  have hlen : k.length = k'.length := by rw [ho] at hnum; omega
  refine ⟨ho, ?_, Prod.ext hkind hhash⟩
  rw [← ExtKey.window_bitBytes o k, ← ExtKey.window_bitBytes o' k', hbytes, ho, hlen]

theorem branch_tag_ne_ext_tag : ∀ a b c : Bool, ∀ n : Fin 16,
    (ofBool a <<< 1) ||| ofBool b ≠ BitVec.ofNat 8 n ^^^ (0x80#8 ||| (ofBool c <<< 4)) := by
  decide

theorem branchPreimage_ne_extPreimage {l r c : Bool × CryptoHash} {o : U3} {k : List Bool}
    (hk : ExtKey.num o k.length < 2 ^ 12) : branchPreimage l r ≠ extPreimage o k c := by
  intro h
  obtain ⟨htag, -⟩ := List.cons.inj h
  rw [numHigh_eq hk] at htag
  exact branch_tag_ne_ext_tag l.1 r.1 c.1 ⟨ExtKey.num o k.length / 256, by omega⟩ htag

inductive DecodeError where
  | badExtensionKey
  | badNodeRef
  | badValueRef
  deriving DecidableEq

structure RawNode where
  bytes : List Byte
  size : bytes.length = 72
  deriving DecidableEq

def u32ToBeBytes (num : BitVec 32) : List Byte :=
  [num.extractLsb' 24 8, num.extractLsb' 16 8, num.extractLsb' 8 8, num.extractLsb' 0 8]

def u32FromBeBytes : List Byte → BitVec 32
  | [a, b, c, d] => a ++ b ++ c ++ d
  | _ => 0#32

theorem u32FromBeBytes_toBeBytes (num : BitVec 32) :
    u32FromBeBytes (u32ToBeBytes num) = num := by
  apply BitVec.eq_of_getLsbD_eq
  intro i hi
  simp only [u32FromBeBytes, u32ToBeBytes, BitVec.getLsbD_append, BitVec.getLsbD_extractLsb']
  by_cases h1 : i < 8
  · simp [h1]
  by_cases h2 : i < 16
  · simp [h1, show i - 8 < 8 by omega, show 8 + (i - 8) = i by omega]
  by_cases h3 : i < 24
  · simp [h1, show ¬ i - 8 < 8 by omega, show i - 8 - 8 < 8 by omega,
      show 16 + (i - 8 - 8) = i by omega]
  · simp [h1, show ¬ i - 8 < 8 by omega, show ¬ i - 8 - 8 < 8 by omega,
      show i - 8 - 8 - 8 < 8 by omega, show 24 + (i - 8 - 8 - 8) = i by omega]

namespace Reference

/-- The number which, in four bytes, precedes the hash. -/
def encodeNum : Ref → BitVec 32
  | node nref => nref.ptr.elim 0#32 Ptr.num
  | value vref => 0x40000000#32 ||| ((if vref.isSealed then 1#32 else 0#32) <<< 29)

def encode (r : Ref) : List Byte := u32ToBeBytes r.encodeNum ++ r.parts.2.bytes

theorem length_encode (r : Ref) : r.encode.length = 36 := by
  simp [encode, u32ToBeBytes, r.parts.2.size]

/-- The hash part of the 36 bytes; shorter strings are not passed. -/
def rawHash (bytes : List Byte) : CryptoHash :=
  if h : (bytes.drop 4).length = 32 then ⟨bytes.drop 4, h⟩ else CryptoHash.default

def intoParts (bytes : List Byte) : BitVec 32 × CryptoHash :=
  (u32FromBeBytes (bytes.take 4), rawHash bytes)

def fromRaw (bytes : List Byte) : Except DecodeError Ref :=
  let (ptr, hash) := intoParts bytes
  if ptr &&& 0x40000000#32 = 0#32 then
    match Ptr.new ptr with
    | .ok ptr => .ok (node ⟨ptr, hash⟩)
    | .error _ => .error .badNodeRef
  else if ptr &&& ~~~0x20000000#32 ≠ 0x40000000#32 then .error .badValueRef
  else .ok (value ⟨ptr &&& 0x20000000#32 != 0#32, hash⟩)

theorem intoParts_encode (r : Ref) : intoParts r.encode = (r.encodeNum, r.parts.2) := by
  have hdrop : r.encode.drop 4 = r.parts.2.bytes := by simp [encode, u32ToBeBytes]
  have htake : r.encode.take 4 = u32ToBeBytes r.encodeNum := by simp [encode, u32ToBeBytes]
  have hsize := r.parts.2.size
  simp only [intoParts, rawHash, hdrop, htake, u32FromBeBytes_toBeBytes, hsize, dif_pos]

theorem ptr_and_value_bit (p : Ptr) : p.num &&& 0x40000000#32 = 0#32 := by
  have hbit : p.num.getLsbD 30 = false := by
    rw [BitVec.getLsbD]
    exact Nat.testBit_lt_two_pow (by have := p.fits; omega)
  rw [show 0x40000000#32 = BitVec.twoPow 32 30 from rfl, BitVec.and_twoPow, hbit]
  rfl

theorem fromRaw_encode (r : Ref) : fromRaw r.encode = .ok r := by
  unfold fromRaw
  rw [intoParts_encode]
  cases r with
  | node nref =>
    obtain ⟨ptr, hash⟩ := nref
    cases ptr with
    | none => simp [encodeNum, parts, Ptr.new]
    | some p => simp [encodeNum, parts, ptr_and_value_bit, Ptr.new_num]
  | value vref =>
    obtain ⟨isSealed, hash⟩ := vref
    cases isSealed <;> simp [encodeNum, parts]

theorem encode_head (r : Ref) : (r.encode.headD 0#8) &&& 0x80#8 = 0#8 := by
  have hmsb : r.encodeNum.getLsbD 31 = false := by
    cases r with
    | node nref =>
      obtain ⟨ptr, hash⟩ := nref
      cases ptr with
      | none => simp [encodeNum]
      | some p =>
        simp only [encodeNum, Option.elim, BitVec.getLsbD]
        exact Nat.testBit_lt_two_pow (by have := p.fits; omega)
    | value vref =>
      obtain ⟨isSealed, hash⟩ := vref
      cases isSealed <;> simp [encodeNum]
  have hhead : r.encode.headD 0#8 = r.encodeNum.extractLsb' 24 8 := rfl
  rw [hhead, show 0x80#8 = BitVec.twoPow 8 7 from rfl, BitVec.and_twoPow,
    BitVec.getLsbD_extractLsb', hmsb]
  rfl

end Reference

namespace RawNode

def branch (left right : Ref) : RawNode :=
  ⟨left.encode ++ right.encode, by simp [Reference.length_encode]⟩

def extension (key : ExtKey) (child : Ref) : RawNode :=
  ⟨(key.encodeInto 0x80#8).1 ++ child.encode, by
    simp [Reference.length_encode, ExtKey.length_encodeInto]⟩

def halfs (raw : RawNode) : List Byte × List Byte := (raw.bytes.take 36, raw.bytes.drop 36)

def decode (raw : RawNode) : Except DecodeError (Node (Option Ptr) Bool) := do
  let (left, right) := raw.halfs
  let right ← Reference.fromRaw right
  if left.headD 0#8 &&& 0x80#8 = 0#8 then
    return .branch (← Reference.fromRaw left) right
  else
    match ExtKey.decode left 0x80#8 with
    | some key => return .extension key right
    | none => throw .badExtensionKey

theorem halfs_append {as bs : List Byte} {h : (as ++ bs).length = 72} (ha : as.length = 36) :
    halfs ⟨as ++ bs, h⟩ = (as, bs) := by
  simp [halfs, List.take_left' ha, List.drop_left' ha]

theorem decode_branch (left right : Ref) :
    (branch left right).decode = .ok (.branch left right) := by
  unfold decode branch
  rw [halfs_append left.length_encode]
  simp only [Reference.fromRaw_encode, Reference.encode_head, if_true]
  rfl

theorem ext_head : ∀ n : Fin 16, (BitVec.ofNat 8 n ^^^ 0x80#8) &&& 0x80#8 ≠ 0#8 := by
  decide

/-- Decoding gives the key's offset and bits back; the memory around them is
not the one it was encoded from. -/
theorem decode_extension (key : ExtKey) (child : Ref) :
    ∃ key', (extension key child).decode = .ok (.extension key' child) ∧
      key'.offset = key.offset ∧ key'.bits = key.bits := by
  obtain ⟨key', hdec, ho, hb⟩ := ExtKey.decode_encodeInto key 0x80#8
  refine ⟨key', ?_, ho, hb⟩
  have hnum := ExtKey.num_lt key
  have hhead : ((key.encodeInto 0x80#8).1.headD 0#8) &&& 0x80#8 ≠ 0#8 := by
    rw [ExtKey.encodeInto_eq, List.headD_cons, numHigh_eq hnum]
    exact ext_head ⟨ExtKey.num key.offset key.bits.length / 256, by omega⟩
  unfold decode extension
  rw [halfs_append (ExtKey.length_encodeInto key _)]
  simp only [Reference.fromRaw_encode, hhead, if_false, hdec]
  rfl

theorem extension_congr {key key' : ExtKey} (child : Ref) (ho : key.offset = key'.offset)
    (hb : key.bits = key'.bits) : extension key child = extension key' child := by
  simp only [extension, ExtKey.encodeInto_congr 0x80#8 ho hb]

end RawNode

end Nodes
