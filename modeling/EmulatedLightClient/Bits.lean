import EmulatedLightClient.ByteBits

/-!
# Slices of bits

A slice points at bytes, skips `offset` most significant bits and spans
`length` bits. The memory a slice points at is the list of bytes from its
pointer on; bits outside of the slice are unspecified and no result below
depends on them. Slices with different offsets are different even when they
hold the same bits.
-/

namespace Bits

open ByteBits

abbrev U3 := Fin 8

instance U3.neZero : NeZero 8 := ⟨by decide⟩

namespace U3

/-- Truncating the value to a byte first does not change it modulo eight. -/
def wrap (value : Nat) : U3 := Fin.ofNat 8 value

def wrappingAdd (x : U3) (rhs : Nat) : U3 := wrap (x.val + rhs)

def wrappingInc (x : U3) : U3 := wrappingAdd x 1

def wrappingDec (x : U3) : U3 := wrappingAdd x 7

def neg (x : U3) : U3 := wrap (256 - x.val)

@[simp] theorem val_wrap (value : Nat) : (wrap value).val = value % 8 := rfl

@[simp] theorem val_wrappingAdd (x : U3) (rhs : Nat) :
    (wrappingAdd x rhs).val = (x.val + rhs) % 8 := rfl

@[simp] theorem val_wrappingInc (x : U3) : (wrappingInc x).val = (x.val + 1) % 8 := rfl

@[simp] theorem val_wrappingDec (x : U3) : (wrappingDec x).val = (x.val + 7) % 8 := rfl

@[simp] theorem val_neg (x : U3) : (neg x).val = (256 - x.val) % 8 := rfl

end U3

/-- Underlying bytes length of a slice with given offset and length. -/
def bytesLen (offset : U3) (length : Nat) : Nat :=
  match length with
  | 0 => 0
  | length + 1 => (offset.val + (length + 1) + 7) / 8

theorem bytesLen_of_pos (offset : U3) {length : Nat} (h : length ≠ 0) :
    bytesLen offset length = (offset.val + length + 7) / 8 := by
  cases length with
  | zero => exact absurd rfl h
  | succ length => rfl

theorem bytesLen_mono (offset : U3) {m n : Nat} (h : m ≤ n) :
    bytesLen offset m ≤ bytesLen offset n := by
  cases m with
  | zero => exact Nat.zero_le _
  | succ m =>
    rw [bytesLen_of_pos offset (by omega), bytesLen_of_pos offset (show n ≠ 0 by omega)]
    omega

structure Slice where
  offset : U3
  length : Nat
  ptr : List Byte
  length_lt : length < 2 ^ 16
  valid : bytesLen offset length ≤ ptr.length

namespace Slice

def bits (s : Slice) : List Bool := window s.ptr s.offset.val s.length

@[simp] theorem length_bits (s : Slice) : s.bits.length = s.length := length_window ..

theorem bits_eq_nil {s : Slice} : s.bits = [] ↔ s.length = 0 := window_eq_nil

/-- Returns bytes underlying the bit slice. -/
def bytes (s : Slice) : List Byte := s.ptr.take (bytesLen s.offset s.length)

theorem length_bytes (s : Slice) : s.bytes.length = bytesLen s.offset s.length := by
  simp [bytes, s.valid]

theorem bitAt_bytes (s : Slice) {i : Nat} (h : i < s.offset.val + s.length)
    (hpos : s.length ≠ 0) : bitAt s.bytes i = bitAt s.ptr i := by
  apply bitAt_take
  rw [bytesLen_of_pos s.offset hpos]
  omega

theorem window_bytes (s : Slice) : window s.bytes s.offset.val s.length = s.bits := by
  by_cases hpos : s.length = 0
  · simp [bits, hpos]
  · apply window_take
    rw [bytesLen_of_pos s.offset hpos]
    omega

def isEmpty (s : Slice) : Bool := s.length == 0

theorem isEmpty_iff {s : Slice} : s.isEmpty = true ↔ s.bits = [] := by
  rw [bits_eq_nil, isEmpty, beq_iff_eq]

def new (bytes : List Byte) (offset : U3) (length : Nat) : Option Slice :=
  if h : bytesLen offset length ≤ bytes.length ∧ length < 2 ^ 16 then
    some ⟨offset, length, bytes, h.2, h.1⟩
  else none

/-- Fails if the slice is too long; the maximum length is 8191 bytes. -/
def fromBytes (bytes : List Byte) : Option Slice :=
  if h : bytes.length * 8 < 2 ^ 16 then
    some
      { offset := 0
        length := bytes.length * 8
        ptr := bytes
        length_lt := h
        valid := by
          cases bytes with
          | nil => simp [bytesLen]
          | cons b bs => rw [bytesLen_of_pos _ (by simp)]; simp; omega }
  else none

/-- Masks of bits in the first and in the last byte that are part of a slice. -/
def masks (offset : U3) (length : Nat) : Byte × Byte :=
  let tail := U3.neg (U3.wrappingAdd offset length)
  (0xFF#8 >>> offset.val, 0xFF#8 <<< tail.val)

/-- Like `new` but also checks that all bits outside of the slice are cleared. -/
def newCheckZeros (bytes : List Byte) (offset : U3) (length : Nat) : Option Slice :=
  (new bytes offset length).filter fun slice =>
    let (front, back) := masks offset length
    let used := slice.bytes
    let first := used.headD 0#8
    let last := used.getLastD 0#8
    (first &&& ~~~front == 0#8) && (last &&& ~~~back == 0#8) &&
      (bytes.drop used.length).all (· == 0#8)

/-- A non-empty slice without its first bit. -/
def advance (s : Slice) (h : s.length ≠ 0) : Slice :=
  let offset := U3.wrappingInc s.offset
  { offset := offset
    length := s.length - 1
    ptr := if offset = 0 then s.ptr.tail else s.ptr
    length_lt := by have := s.length_lt; omega
    valid := by
      have hv := s.valid
      have := s.offset.isLt
      rw [bytesLen_of_pos _ h] at hv
      by_cases h1 : s.length - 1 = 0
      · simp [h1, bytesLen]
      · rw [bytesLen_of_pos _ h1]
        split
        · rename_i hz
          have ho : (s.offset.val + 1) % 8 = 0 := congrArg Fin.val hz
          rw [List.length_tail, hz, Fin.val_zero]
          omega
        · rename_i hz
          have ho : (s.offset.val + 1) % 8 ≠ 0 := fun he => hz (Fin.ext he)
          simp only [offset, U3.val_wrappingInc]
          omega }

/-- The first `n` bits of a slice. -/
def head (s : Slice) (n : Nat) (h : n ≤ s.length) : Slice :=
  { s with
    length := n
    length_lt := by have := s.length_lt; omega
    valid := Nat.le_trans (bytesLen_mono s.offset h) s.valid }

/-- A slice without its first `n` bits. -/
def rest (s : Slice) (n : Nat) (h : n ≤ s.length) : Slice :=
  { offset := U3.wrappingAdd s.offset n
    length := s.length - n
    ptr := s.ptr.drop ((s.offset.val + n) / 8)
    length_lt := by have := s.length_lt; omega
    valid := by
      have hv := s.valid
      by_cases h1 : s.length - n = 0
      · simp [h1, bytesLen]
      · rw [bytesLen_of_pos _ (show s.length ≠ 0 by omega)] at hv
        rw [bytesLen_of_pos _ h1, List.length_drop, U3.val_wrappingAdd]
        omega }

def popFront (s : Slice) : Option (Bool × Slice) :=
  if h : s.length = 0 then none
  else
    let first := s.ptr.headD 0#8
    some (first &&& (0x80#8 >>> s.offset.val) != 0#8, s.advance h)

def popBack (s : Slice) : Option (Bool × Slice) :=
  if s.length = 0 then none
  else
    let length := s.length - 1
    let totalBits := s.offset.val + length
    let byte := s.ptr.getD (totalBits / 8) 0#8
    let mask := 0x80#8 >>> (totalBits % 8)
    some (byte &&& mask != 0#8, s.head length (Nat.sub_le _ _))

/-- Splits slice into two at given index; fails if the slice is too short. -/
def splitAt (s : Slice) (length : Nat) : Option (Slice × Slice) :=
  if h : length ≤ s.length then some (s.head length h, s.rest length h) else none

/-- The first component is the returned head, the second the shortened slice. -/
def popFrontSlice (s : Slice) (length : Nat) : Option (Slice × Slice) := s.splitAt length

/-- The first component is the returned tail, the second the shortened slice. -/
def popBackSlice (s : Slice) (length : Nat) : Option (Slice × Slice) :=
  if length ≤ s.length then
    (s.splitAt (s.length - length)).map fun (head, tail) => (tail, head)
  else none

theorem bitAt_headD (bytes : List Byte) {i : Nat} (h : i < 8) :
    (bytes.headD 0#8).getMsbD i = bitAt bytes i := by
  cases bytes with
  | nil => simp [bitAt_past_end]
  | cons b bs => exact (bitAt_cons_head b bs h).symm

theorem popFront_of_nil {s : Slice} (h : s.bits = []) : s.popFront = none := by
  simp [popFront, bits_eq_nil.mp h]

theorem advance_bits (s : Slice) (h : s.length ≠ 0) :
    s.bits = bitAt s.ptr s.offset.val :: (s.advance h).bits := by
  obtain ⟨n, hn⟩ := Nat.exists_eq_succ_of_ne_zero h
  have := s.offset.isLt
  simp only [bits, advance, hn, Nat.succ_eq_add_one, window_succ, U3.val_wrappingInc,
    Nat.add_sub_cancel, List.cons.injEq, true_and]
  split
  · rename_i hz
    have ho : (s.offset.val + 1) % 8 = 0 := congrArg Fin.val hz
    have h7 : s.offset.val = 7 := by omega
    rw [ho, ← List.drop_one, window_drop, h7]
  · rename_i hz
    have ho : (s.offset.val + 1) % 8 ≠ 0 := fun he => hz (Fin.ext he)
    rw [Nat.mod_eq_of_lt (by omega)]

theorem head_bits (s : Slice) {n : Nat} (h : n ≤ s.length) :
    (s.head n h).bits = s.bits.take n :=
  (take_window _ _ _ _ h).symm

theorem rest_bits (s : Slice) {n : Nat} (h : n ≤ s.length) :
    (s.rest n h).bits = s.bits.drop n := by
  have he : 8 * ((s.offset.val + n) / 8) + (s.offset.val + n) % 8 = s.offset.val + n := by
    omega
  simp only [bits, rest, U3.val_wrappingAdd]
  rw [drop_window _ _ _ _ h, window_drop, he]

theorem popFront_of_cons {s : Slice} {b : Bool} {bs : List Bool} (h : s.bits = b :: bs) :
    ∃ s', s.popFront = some (b, s') ∧ s'.bits = bs ∧
      s'.offset.val = (s.offset.val + 1) % 8 := by
  have hpos : s.length ≠ 0 := by rw [← length_bits, h]; simp
  obtain ⟨hb, hbs⟩ := List.cons.inj (h.symm.trans (s.advance_bits hpos))
  refine ⟨s.advance hpos, ?_, hbs.symm, rfl⟩
  rw [popFront, dif_neg hpos]
  simp only
  rw [and_bit_ne_zero _ s.offset, bitAt_headD _ s.offset.isLt, ← hb]

theorem popFront_length {s s' : Slice} {b : Bool} (h : s.popFront = some (b, s')) :
    s'.length + 1 = s.length := by
  unfold popFront at h
  split at h
  · cases h
  · cases h
    simp only [advance]
    omega

theorem popBack_of_nil {s : Slice} (h : s.bits = []) : s.popBack = none := by
  simp [popBack, bits_eq_nil.mp h]

theorem popBack_of_concat {s : Slice} {b : Bool} {bs : List Bool} (h : s.bits = bs ++ [b]) :
    ∃ s', s.popBack = some (b, s') ∧ s'.bits = bs ∧ s'.offset = s.offset := by
  have hlen : s.length = bs.length + 1 := by rw [← length_bits, h]; simp
  have hb : bitAt s.ptr (s.offset.val + (s.length - 1)) = b := by
    have hi : bs.length < s.bits.length := by simp [hlen]
    have hg : s.bits[bs.length] = bitAt s.ptr (s.offset.val + bs.length) := getElem_window ..
    rw [hlen, Nat.add_sub_cancel, ← hg]
    simp [h]
  have hmod : (s.offset.val + (s.length - 1)) % 8 =
      (U3.wrap (s.offset.val + (s.length - 1))).val := rfl
  refine ⟨s.head (s.length - 1) (Nat.sub_le _ _), ?_, ?_, rfl⟩
  · rw [popBack, if_neg (by omega)]
    simp only
    rw [hmod, and_bit_ne_zero, ← hb]
    rfl
  · rw [head_bits, h, hlen]
    simp

theorem splitAt_spec {s : Slice} {n : Nat} (h : n ≤ s.length) :
    ∃ l r, s.splitAt n = some (l, r) ∧ l.bits = s.bits.take n ∧ l.offset = s.offset ∧
      r.bits = s.bits.drop n ∧ r.offset.val = (s.offset.val + n) % 8 :=
  ⟨s.head n h, s.rest n h, dif_pos h, s.head_bits h, rfl, s.rest_bits h, rfl⟩

theorem splitAt_length {s l r : Slice} {n : Nat} (h : s.splitAt n = some (l, r)) :
    l.length = n ∧ n + r.length = s.length := by
  unfold splitAt at h
  split at h
  · cases h
    refine ⟨rfl, ?_⟩
    simp only [rest]
    omega
  · cases h

theorem popBackSlice_spec {s : Slice} {n : Nat} (h : n ≤ s.length) :
    ∃ t s', s.popBackSlice n = some (t, s') ∧ s'.bits = s.bits.take (s.length - n) ∧
      s'.offset = s.offset ∧ t.bits = s.bits.drop (s.length - n) ∧
      t.offset.val = (s.offset.val + (s.length - n)) % 8 := by
  obtain ⟨l, r, hs, hl, hlo, hr, hro⟩ := splitAt_spec (Nat.sub_le s.length n)
  refine ⟨r, l, ?_, hl, hlo, hr, hro⟩
  rw [popBackSlice, if_pos h, hs]
  rfl

theorem popBackSlice_none {s : Slice} {n : Nat} (h : s.length < n) :
    s.popBackSlice n = none := by
  rw [popBackSlice, if_neg (by omega)]

theorem fromBytes_spec {bytes : List Byte} (h : bytes.length * 8 < 2 ^ 16) :
    ∃ s, fromBytes bytes = some s ∧ s.offset = 0 ∧
      s.bits = window bytes 0 (bytes.length * 8) := by
  rw [fromBytes, dif_pos h]
  exact ⟨_, rfl, rfl, rfl⟩

/-- Compares underlying bytes of two non-empty slices of one offset and length. -/
def eqBytes (offset : U3) (length : Nat) (lhs rhs : List Byte) : Bool :=
  let (front, back) := masks offset length
  let len := lhs.length
  if len = 1 then
    (lhs.getD 0 0#8 ^^^ rhs.getD 0 0#8) &&& front &&& back == 0#8
  else
    ((lhs.getD 0 0#8 ^^^ rhs.getD 0 0#8) &&& front == 0#8) &&
      ((lhs.getD (len - 1) 0#8 ^^^ rhs.getD (len - 1) 0#8) &&& back == 0#8) &&
      ((lhs.take (len - 1)).drop 1 == (rhs.take (len - 1)).drop 1)

/-- Compares two slices to see if they hold the same bits at the same offset. -/
def eq (lhs rhs : Slice) : Bool :=
  if lhs.offset ≠ rhs.offset ∨ lhs.length ≠ rhs.length then false
  else if lhs.length = 0 then true
  else eqBytes lhs.offset lhs.length lhs.bytes rhs.bytes

def startsWith (s pre : Slice) : Bool :=
  if s.offset ≠ pre.offset then false
  else
    match s.splitAt pre.length with
    | some (head, _) => head.eq pre
    | none => false

/-- The slice without the prefix, or nothing when it does not start with it. -/
def stripPrefix (s pre : Slice) : Option Slice :=
  if s.offset = pre.offset then
    match s.splitAt pre.length with
    | some (head, tail) => if head.eq pre then some tail else none
    | none => none
  else none

end Slice

/-- Maximum length in bytes of a key in an Extension node. -/
def maxExtensionKeySize : Nat := 34

/-- A slice which is not empty and covers no more than 34 bytes. -/
structure ExtKey where
  slice : Slice
  nonempty : slice.length ≠ 0
  fits : bytesLen slice.offset slice.length ≤ maxExtensionKeySize

namespace ExtKey

inductive Error where
  | empty
  | tooLong
  deriving DecidableEq

def tryFrom (slice : Slice) : Except Error ExtKey :=
  if h : slice.length = 0 then .error .empty
  else if h' : bytesLen slice.offset slice.length > maxExtensionKeySize then .error .tooLong
  else .ok ⟨slice, h, Nat.le_of_not_lt h'⟩

def len (key : ExtKey) : Nat := key.slice.length

def offset (key : ExtKey) : U3 := key.slice.offset

def bits (key : ExtKey) : List Bool := key.slice.bits

end ExtKey

namespace Slice

/-- Number of leading zero bits of a byte. -/
def leadingZeros (b : Byte) : Nat :=
  ((List.range 8).takeWhile fun t => !b.getMsbD t).length

/-- Number of leading bits, those skipped by the offset included, in which two
non-empty byte strings of one length agree. -/
def totalBitsMatched (offset : U3) (l r : Byte) (lhs rhs : List Byte) : Nat :=
  let fst := (l ^^^ r) &&& (0xFF#8 >>> offset.val)
  if fst ≠ 0#8 then leadingZeros fst
  else
    match (lhs.zip rhs).findIdx? fun p => p.1 != p.2 with
    | some n => 8 + n * 8 + leadingZeros (lhs.getD n 0#8 ^^^ rhs.getD n 0#8)
    | none => 8 + lhs.length * 8

/-- Number of leading bits two byte strings agree in, counted from the offset
and up to bit number `length`. -/
def commonBits (offset : U3) (length : Nat) : List Byte → List Byte → Nat
  | l :: lhs, r :: rhs => min (totalBitsMatched offset l r lhs rhs) length - offset.val
  | _, _ => 0

/-- Number of bits the two slices have in common at their front, computed on
the underlying bytes. No value stands for the panic of splitting a byte slice
past its end. -/
def commonLength (s other : Slice) : Option Nat :=
  let offset := s.offset
  if offset ≠ other.offset then some 0
  else
    let length := min s.length other.length + offset.val
    let count := (length + 7) / 8
    if s.bytes.length < count ∨ other.bytes.length < count then none
    else some (commonBits offset length (s.bytes.take count) (other.bytes.take count))

/-- Returns the common prefix and the rest of `other`, either of them missing
when it is empty, and the slice with the prefix stripped. No value stands for
a panic. -/
def forwardCommonPrefix (s : Slice) (other : ExtKey) :
    Option (Option ExtKey × Option ExtKey × Slice) :=
  match s.commonLength other.slice with
  | none => none
  | some 0 => some (none, some other, s)
  | some length =>
    match other.slice.popFrontSlice length, s.popFrontSlice length with
    | some (_, suffix), some (pre, s) =>
      some ((ExtKey.tryFrom pre).toOption, (ExtKey.tryFrom suffix).toOption, s)
    | _, _ => none

end Slice

end Bits
