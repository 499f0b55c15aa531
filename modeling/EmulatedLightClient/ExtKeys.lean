import EmulatedLightClient.SliceCompare

/-!
# Extension keys: binary form and chunks of long keys

A key of an Extension node spans at most 34 bytes. Longer keys are cut into
chunks, all but the first of which start at a byte boundary.
-/

namespace Bits

open ByteBits

namespace ExtKey

/-- The `0000_llll llll_looo` number of the key with the first byte xored with
the tag. -/
def encodeNum (key : ExtKey) (tag : Byte) : BitVec 16 :=
  let num := (BitVec.ofNat 16 key.slice.length <<< 3) ||| BitVec.ofNat 16 key.slice.offset.val
  num ^^^ (tag.setWidth 16 <<< 8)

def toBeBytes (num : BitVec 16) : List Byte := [num.extractLsb' 8 8, num.extractLsb' 0 8]

/-- Bytes of the slice with the bits outside of it cleared. -/
def maskedBytes (key : ExtKey) : List Byte :=
  let bytes := key.slice.bytes
  let (front, back) := Slice.masks key.slice.offset key.slice.length
  (bytes.modify 0 (· &&& front)).modify (bytes.length - 1) (· &&& back)

/-- The filled 36-byte buffer and the length of its relevant portion. -/
def encodeInto (key : ExtKey) (tag : Byte) : List Byte × Nat :=
  let bytes := key.maskedBytes
  (toBeBytes (key.encodeNum tag) ++ (bytes ++ List.replicate (34 - bytes.length) 0#8),
    2 + bytes.length)

/-- Inverse of `encodeInto`. -/
def decode (src : List Byte) (tag : Byte) : Option ExtKey :=
  match src with
  | high :: low :: bytes =>
    let tag := ((high ^^^ tag) ++ low).toNat
    (Slice.newCheckZeros bytes (U3.wrap tag) (tag / 8)).bind fun slice =>
      (tryFrom slice).toOption
  | _ => none

/-- The bytes which hold given bits from the offset on and are clear elsewhere. -/
def bitBytes (offset : U3) (bits : List Bool) : List Byte :=
  pack (bytesLen offset bits.length) fun i =>
    decide (offset.val ≤ i) && bits.getD (i - offset.val) false

theorem length_bitBytes (offset : U3) (bits : List Bool) :
    (bitBytes offset bits).length = bytesLen offset bits.length := length_pack ..

theorem length_maskedBytes (key : ExtKey) :
    key.maskedBytes.length = bytesLen key.offset key.bits.length := by
  simp [maskedBytes, Slice.length_bytes, bits, offset]

theorem getD_modify (bytes : List Byte) (f : Byte → Byte) (i q : Nat) (hf : f 0#8 = 0#8) :
    (bytes.modify i f).getD q 0#8 =
      if i = q then f (bytes.getD q 0#8) else bytes.getD q 0#8 := by
  rw [List.getD_eq_getElem?_getD, List.getElem?_modify, List.getD_eq_getElem?_getD]
  by_cases h : i = q
  · cases hq : bytes[q]? <;> simp [h, hf]
  · cases hq : bytes[q]? <;> simp [h]

/-- Masking makes the bytes a function of the offset and the bits. -/
theorem maskedBytes_eq (key : ExtKey) : key.maskedBytes = bitBytes key.offset key.bits := by
  apply eq_of_bitAt (by rw [length_maskedBytes, length_bitBytes])
  intro i hi
  rw [length_maskedBytes] at hi
  have hlen : key.bits.length = key.slice.length := Slice.length_bits _
  have hpos := key.nonempty
  have hval := bytesLen_of_pos key.slice.offset hpos
  have ht : i % 8 < 8 := by omega
  have hoff : key.offset = key.slice.offset := rfl
  rw [bitBytes, bitAt_pack _ _ hi, bitAt, maskedBytes, getD_modify _ _ _ _ (by simp),
    getD_modify _ _ _ _ (by simp)]
  rw [hoff, hlen] at hi
  have hbit : (key.slice.bytes.getD (i / 8) 0#8).getMsbD (i % 8) = bitAt key.slice.bytes i := rfl
  have hfront := Slice.front_mask key.slice.offset key.slice.length ht
  have hback := Slice.back_mask key.slice.offset hpos ht
  have hclen := Slice.length_bytes key.slice
  have hgoal : (decide (key.offset.val ≤ i) && key.bits.getD (i - key.offset.val) false) =
      (decide (key.slice.offset.val ≤ i) &&
        (decide (i < key.slice.offset.val + key.slice.length) && bitAt key.slice.bytes i)) := by
    rw [hoff]
    by_cases h1 : key.slice.offset.val ≤ i
    · by_cases h2 : i < key.slice.offset.val + key.slice.length
      · have h3 : i - key.slice.offset.val < key.bits.length := by omega
        have hg : key.bits[i - key.slice.offset.val] = bitAt key.slice.ptr i := by
          have := getElem_window key.slice.ptr key.slice.offset.val key.slice.length
            (i - key.slice.offset.val) (by simpa [hlen] using h3)
          rwa [show key.slice.offset.val + (i - key.slice.offset.val) = i by omega] at this
        rw [Slice.bitAt_bytes _ h2 hpos]
        simp [h1, h2, List.getElem?_eq_getElem h3, hg]
      · simp [h1, h2, List.getElem?_eq_none (show key.bits.length ≤ i - key.slice.offset.val by
          omega)]
    · simp [h1]
  rw [hgoal]
  have hi8 : 8 * (i / 8) + i % 8 = i := by omega
  by_cases hfirst : 0 = i / 8
  · by_cases hlast : key.slice.bytes.length - 1 = i / 8
    · rw [if_pos hlast, if_pos hfirst, BitVec.getMsbD_and, BitVec.getMsbD_and, hfront, hback,
        hbit, ← hclen, hlast, hi8]
      have h0 : i % 8 = i := by omega
      rw [h0, Bool.and_comm (bitAt _ _), Bool.and_assoc, Bool.and_comm (bitAt _ _)]
    · rw [if_neg hlast, if_pos hfirst, BitVec.getMsbD_and, hfront, hbit]
      have h0 : i % 8 = i := by omega
      have h2 : i < key.slice.offset.val + key.slice.length := by omega
      simp [h0, h2, Bool.and_comm]
  · have h1 : key.slice.offset.val ≤ i := by have := key.slice.offset.isLt; omega
    by_cases hlast : key.slice.bytes.length - 1 = i / 8
    · rw [if_pos hlast, if_neg hfirst, BitVec.getMsbD_and, hback, hbit, ← hclen, hlast, hi8]
      simp [h1, Bool.and_comm]
    · rw [if_neg hlast, if_neg hfirst, hbit]
      have h2 : i < key.slice.offset.val + key.slice.length := by omega
      simp [h1, h2]

/-- The number of a key: nine bits of length and three of offset. -/
def num (offset : U3) (length : Nat) : Nat := 8 * length + offset.val

def numHigh (offset : U3) (length : Nat) : Byte :=
  (BitVec.ofNat 16 (num offset length)).extractLsb' 8 8

def numLow (offset : U3) (length : Nat) : Byte :=
  (BitVec.ofNat 16 (num offset length)).extractLsb' 0 8

theorem num_lt (key : ExtKey) : num key.offset key.bits.length < 2 ^ 12 := by
  have hfits := key.fits
  have hlen : key.bits.length = key.slice.length := Slice.length_bits _
  have hoff : key.offset = key.slice.offset := rfl
  rw [bytesLen_of_pos _ key.nonempty, maxExtensionKeySize] at hfits
  rw [num, hlen, hoff]
  omega

theorem encodeNum_zero (key : ExtKey) :
    (BitVec.ofNat 16 key.slice.length <<< 3) ||| BitVec.ofNat 16 key.slice.offset.val =
      BitVec.ofNat 16 (num key.offset key.bits.length) := by
  have hlt := key.slice.offset.isLt
  have hnum := num_lt key
  have hlen : key.bits.length = key.slice.length := Slice.length_bits _
  have hoff : key.offset = key.slice.offset := rfl
  rw [num, hlen, hoff] at hnum
  rw [num, hlen, hoff]
  apply BitVec.eq_of_toNat_eq
  have hor := Nat.two_pow_add_eq_or_of_lt (i := 3) hlt key.slice.length
  have h1 : (key.slice.length <<< 3) % 2 ^ 16 = 2 ^ 3 * key.slice.length := by
    rw [Nat.shiftLeft_eq]
    omega
  have h2 : key.slice.length % 2 ^ 16 = key.slice.length := by omega
  have h3 : key.slice.offset.val % 2 ^ 16 = key.slice.offset.val := by omega
  simp only [BitVec.toNat_or, BitVec.toNat_shiftLeft, BitVec.toNat_ofNat, h2, h3]
  rw [h1, ← hor, Nat.mod_eq_of_lt (by omega)]

theorem toBeBytes_encodeNum (key : ExtKey) (tag : Byte) :
    toBeBytes (key.encodeNum tag) =
      [numHigh key.offset key.bits.length ^^^ tag, numLow key.offset key.bits.length] := by
  rw [encodeNum, encodeNum_zero, numHigh, numLow]
  generalize BitVec.ofNat 16 (num key.offset key.bits.length) = n
  simp only [toBeBytes, List.cons.injEq, and_true]
  constructor
  · apply BitVec.eq_of_getLsbD_eq
    intro i hi
    simp [hi, show 8 + i < 16 by omega]
  · apply BitVec.eq_of_getLsbD_eq
    intro i hi
    simp [hi, show i < 16 by omega]

theorem append_numLow (offset : U3) (length : Nat) :
    numHigh offset length ++ numLow offset length = BitVec.ofNat 16 (num offset length) := by
  rw [numHigh, numLow]
  generalize BitVec.ofNat 16 (num offset length) = n
  apply BitVec.eq_of_getLsbD_eq
  intro i hi
  rw [BitVec.getLsbD_append]
  by_cases h : i < 8
  · simp [h]
  · simp [h, show 8 + (i - 8) = i by omega, show i - 8 < 8 by omega]

/-- The encoding depends on the offset and the bits of a key only. -/
theorem encodeInto_eq (key : ExtKey) (tag : Byte) :
    key.encodeInto tag =
      ((numHigh key.offset key.bits.length ^^^ tag) :: numLow key.offset key.bits.length ::
        (bitBytes key.offset key.bits ++
          List.replicate (34 - (bitBytes key.offset key.bits).length) 0#8),
        2 + (bitBytes key.offset key.bits).length) := by
  rw [encodeInto, toBeBytes_encodeNum, maskedBytes_eq]
  rfl

theorem encodeInto_congr {key key' : ExtKey} (tag : Byte) (ho : key.offset = key'.offset)
    (hb : key.bits = key'.bits) : key.encodeInto tag = key'.encodeInto tag := by
  rw [encodeInto_eq, encodeInto_eq, ho, hb]

theorem length_bitBytes_le (key : ExtKey) : (bitBytes key.offset key.bits).length ≤ 34 := by
  rw [length_bitBytes, bits, Slice.length_bits]
  exact key.fits

theorem length_encodeInto (key : ExtKey) (tag : Byte) : (key.encodeInto tag).1.length = 36 := by
  have := length_bitBytes_le key
  rw [encodeInto_eq]
  simp
  omega

theorem bitAt_bitBytes (offset : U3) (bits : List Bool) {i : Nat}
    (h : i < 8 * bytesLen offset bits.length) :
    bitAt (bitBytes offset bits) i =
      (decide (offset.val ≤ i) && bits.getD (i - offset.val) false) :=
  bitAt_pack _ _ h

theorem window_bitBytes (offset : U3) (bits : List Bool) :
    window (bitBytes offset bits) offset.val bits.length = bits := by
  apply List.ext_getElem (by simp)
  intro i hi hi'
  have hpos : bits.length ≠ 0 := by omega
  rw [getElem_window, bitAt_bitBytes _ _ (by rw [bytesLen_of_pos _ hpos]; omega)]
  simp [List.getElem?_eq_getElem hi']

theorem newCheckZeros_bitBytes (offset : U3) {bits : List Bool} (hpos : bits.length ≠ 0)
    (hlt : bits.length < 2 ^ 16) (pad : Nat) :
    ∃ s, Slice.newCheckZeros (bitBytes offset bits ++ List.replicate pad 0#8) offset
        bits.length = some s ∧ s.offset = offset ∧ s.length = bits.length ∧ s.bits = bits := by
  have hlen := length_bitBytes offset bits
  have hval := bytesLen_of_pos offset hpos
  have holt := offset.isLt
  have hle : bytesLen offset bits.length ≤
      (bitBytes offset bits ++ List.replicate pad 0#8).length := by simp [hlen]
  have hnew : Slice.new (bitBytes offset bits ++ List.replicate pad 0#8) offset bits.length =
      some ⟨offset, bits.length, _, hlt, hle⟩ := dif_pos ⟨hle, hlt⟩
  have hbytes : Slice.bytes ⟨offset, bits.length,
      bitBytes offset bits ++ List.replicate pad 0#8, hlt, hle⟩ = bitBytes offset bits := by
    rw [Slice.bytes, ← hlen, List.take_left]
  have hcheck : ∀ q t, q < bytesLen offset bits.length → t < 8 →
      ¬ (offset.val ≤ 8 * q + t ∧ 8 * q + t < offset.val + bits.length) →
      ((bitBytes offset bits).getD q 0#8).getMsbD t = false := by
    intro q t hq ht hout
    rw [← Slice.bitAt_getD _ _ ht, bitAt_bitBytes _ _ (by omega)]
    by_cases h1 : offset.val ≤ 8 * q + t
    · have h2 : bits.length ≤ 8 * q + t - offset.val := by omega
      simp [List.getElem?_eq_none h2]
    · simp [h1]
  refine ⟨⟨offset, bits.length, _, hlt, hle⟩, ?_, rfl, rfl, ?_⟩
  · rw [Slice.newCheckZeros, hnew]
    apply Option.filter_eq_some_iff.mpr
    refine ⟨rfl, ?_⟩
    simp only [hbytes, Bool.and_eq_true, beq_iff_eq, eq_zero_iff_getMsbD]
    refine ⟨⟨?_, ?_⟩, ?_⟩
    · intro t ht
      rw [BitVec.getMsbD_and, BitVec.getMsbD_not, Slice.front_mask _ _ ht]
      by_cases h : offset.val ≤ t
      · simp [h, ht]
      · rw [Slice.bitAt_headD _ ht, show t = 8 * 0 + t by omega, Slice.bitAt_getD _ _ ht,
          hcheck 0 t (by omega) ht (by omega)]
        simp
    · intro t ht
      have hlast : (bitBytes offset bits).getLastD 0#8 =
          (bitBytes offset bits).getD (bytesLen offset bits.length - 1) 0#8 := by
        rw [← hlen, List.getLastD_eq_getLast?, List.getLast?_eq_getElem?,
          List.getD_eq_getElem?_getD]
      rw [BitVec.getMsbD_and, BitVec.getMsbD_not, Slice.back_mask _ hpos ht, hlast]
      by_cases h : 8 * (bytesLen offset bits.length - 1) + t < offset.val + bits.length
      · simp [h, ht]
      · rw [hcheck _ t (by omega) ht (by omega)]
        simp
    · rw [List.drop_left]
      simp
  · rw [← Slice.window_bytes, hbytes]
    exact window_bitBytes offset bits

/-- Decoding gives back the offset and the bits of the encoded key, whatever
number of zero bytes follows them. -/
theorem decode_append (key : ExtKey) (tag : Byte) (pad : Nat) :
    ∃ key', decode ((key.encodeInto tag).1.take (key.encodeInto tag).2 ++
        List.replicate pad 0#8) tag = some key' ∧
      key'.offset = key.offset ∧ key'.bits = key.bits := by
  have hnum := num_lt key
  have hlen : key.bits.length = key.slice.length := Slice.length_bits _
  have hpos : key.bits.length ≠ 0 := by rw [hlen]; exact key.nonempty
  have holt := key.offset.isLt
  have htag : (((numHigh key.offset key.bits.length ^^^ tag) ^^^ tag) ++
      numLow key.offset key.bits.length).toNat = num key.offset key.bits.length := by
    rw [BitVec.xor_assoc, BitVec.xor_self, BitVec.xor_zero, append_numLow, BitVec.toNat_ofNat,
      Nat.mod_eq_of_lt (by omega)]
  have htake : (key.encodeInto tag).1.take (key.encodeInto tag).2 =
      (numHigh key.offset key.bits.length ^^^ tag) :: numLow key.offset key.bits.length ::
        bitBytes key.offset key.bits := by
    rw [encodeInto_eq, Nat.add_comm]
    simp
  obtain ⟨s, hs, hso, hsl, hsb⟩ :=
    newCheckZeros_bitBytes key.offset hpos (by rw [num] at hnum; omega) pad
  have hfits : bytesLen s.offset s.length ≤ maxExtensionKeySize := by
    rw [hso, hsl, hlen]
    exact key.fits
  have hk := tryFrom_toOption hfits
  have hu3 : U3.wrap (num key.offset key.bits.length) = key.offset := by
    apply Fin.ext
    rw [U3.val_wrap, num]
    omega
  have hdiv : num key.offset key.bits.length / 8 = key.bits.length := by rw [num]; omega
  rw [htake, List.cons_append, List.cons_append, decode]
  simp only [htag, hu3, hdiv, hs, Option.bind_some]
  cases hc : (tryFrom s).toOption with
  | none =>
    rw [hc] at hk
    have hnil : s.bits = [] := hk
    rw [hsb] at hnil
    exact absurd (congrArg List.length hnil) hpos
  | some key' =>
    rw [hc] at hk
    refine ⟨key', rfl, ?_, hk.1.trans hsb⟩
    apply Fin.ext
    rw [hk.2, hso, Nat.mod_eq_of_lt holt]

theorem decode_encodeInto (key : ExtKey) (tag : Byte) :
    ∃ key', decode (key.encodeInto tag).1 tag = some key' ∧
      key'.offset = key.offset ∧ key'.bits = key.bits := by
  have hfull : (key.encodeInto tag).1.take (key.encodeInto tag).2 ++
      List.replicate (34 - (bitBytes key.offset key.bits).length) 0#8 =
      (key.encodeInto tag).1 := by
    rw [encodeInto_eq, Nat.add_comm]
    simp
  rw [← hfull]
  exact decode_append key tag _

theorem decode_encodeInto_take (key : ExtKey) (tag : Byte) :
    ∃ key', decode ((key.encodeInto tag).1.take (key.encodeInto tag).2) tag = some key' ∧
      key'.offset = key.offset ∧ key'.bits = key.bits := by
  have h := decode_append key tag 0
  simpa using h

end ExtKey

/-- Position, in bytes, of the last of the 34-byte chunks of `n` bytes. -/
def lastChunk (n : Nat) : Nat := (n - 1) / maxExtensionKeySize * maxExtensionKeySize

namespace Slice

/-- Number of bits in the last chunk when there is more than one of them. -/
def lastLength (s : Slice) : Nat :=
  let tail := U3.wrappingAdd s.offset s.length
  (s.bytes.length - lastChunk s.bytes.length) * 8 - (U3.neg tail).val

theorem bytes_length_eq_zero {s : Slice} : s.bytes.length = 0 ↔ s.length = 0 := by
  rw [length_bytes]
  by_cases h : s.length = 0
  · simp [h, bytesLen]
  · rw [bytesLen_of_pos _ h]
    omega

theorem lastLength_add (s : Slice) (h : s.length ≠ 0) :
    s.lastLength + 8 * lastChunk s.bytes.length = s.offset.val + s.length := by
  have hb := length_bytes s
  rw [bytesLen_of_pos _ h] at hb
  simp only [lastLength, U3.val_neg, U3.val_wrappingAdd, lastChunk, maxExtensionKeySize] at *
  omega

theorem lastChunk_lt {n : Nat} (h : n ≠ 0) :
    lastChunk n < n ∧ n ≤ lastChunk n + maxExtensionKeySize := by
  simp only [lastChunk, maxExtensionKeySize]
  omega

/-- The last chunk as a slice of its own. -/
def lastSlice (s : Slice) (h : s.length ≠ 0) (hc : lastChunk s.bytes.length ≠ 0) : Slice :=
  { offset := 0
    length := s.lastLength
    ptr := s.ptr.drop (lastChunk s.bytes.length)
    length_lt := by
      have := lastLength_add s h
      have := s.length_lt
      have := s.offset.isLt
      have : 34 ≤ lastChunk s.bytes.length := by
        simp only [lastChunk, maxExtensionKeySize] at *; omega
      omega
    valid := by
      have hv := s.valid
      have hadd := lastLength_add s h
      rw [bytesLen_of_pos _ h] at hv
      by_cases hz : s.lastLength = 0
      · simp [hz, bytesLen]
      · rw [bytesLen_of_pos _ hz, List.length_drop, Fin.val_zero]
        omega }

/-- What is left in front of the last chunk. -/
def frontSlice (s : Slice) : Slice := s.head (s.length - s.lastLength) (Nat.sub_le _ _)

theorem length_ne_zero {s : Slice} (h : ¬ s.bytes.length = 0) : s.length ≠ 0 :=
  fun hz => h (bytes_length_eq_zero.mpr hz)

theorem fits_of_lastChunk_eq_zero {s : Slice} (h : ¬ s.bytes.length = 0)
    (hc : lastChunk s.bytes.length = 0) : bytesLen s.offset s.length ≤ maxExtensionKeySize := by
  have := lastChunk_lt h
  rw [length_bytes] at *
  omega

theorem lastSlice_nonempty {s : Slice} (h : ¬ s.bytes.length = 0)
    (hc : ¬ lastChunk s.bytes.length = 0) : (s.lastSlice (length_ne_zero h) hc).length ≠ 0 := by
  have hadd := lastLength_add s (length_ne_zero h)
  have hlt := lastChunk_lt h
  have hb := length_bytes s
  rw [bytesLen_of_pos _ (length_ne_zero h)] at hb
  simp only [lastSlice]
  omega

theorem lastSlice_fits {s : Slice} (h : ¬ s.bytes.length = 0)
    (hc : ¬ lastChunk s.bytes.length = 0) :
    bytesLen (s.lastSlice (length_ne_zero h) hc).offset (s.lastSlice (length_ne_zero h) hc).length ≤
      maxExtensionKeySize := by
  have hadd := lastLength_add s (length_ne_zero h)
  have hlt := lastChunk_lt h
  have hb := length_bytes s
  rw [bytesLen_of_pos _ (length_ne_zero h)] at hb
  by_cases hz : s.lastLength = 0
  · simp [lastSlice, hz, bytesLen]
  · simp only [lastSlice]
    rw [bytesLen_of_pos _ hz, Fin.val_zero]
    omega

/-- Takes the last chunk off: returns it and the slice without it. -/
def nextBack (s : Slice) : Option (ExtKey × Slice) :=
  if h : s.bytes.length = 0 then none
  else if hc : lastChunk s.bytes.length = 0 then
    let empty : Slice :=
      { offset := 0, length := 0, ptr := s.ptr
        length_lt := Nat.zero_lt_of_lt s.length_lt
        valid := Nat.zero_le _ }
    some (⟨s, length_ne_zero h, fits_of_lastChunk_eq_zero h hc⟩, empty)
  else
    some (⟨s.lastSlice (length_ne_zero h) hc, lastSlice_nonempty h hc, lastSlice_fits h hc⟩,
      s.frontSlice)

theorem nextBack_of_nil {s : Slice} (h : s.bits = []) : s.nextBack = none := by
  rw [nextBack, dif_pos (bytes_length_eq_zero.mpr (bits_eq_nil.mp h))]

/-- Where the last chunk of a non-empty bit string at given offset starts. -/
structure ChunkCut (offset : Nat) (front back : List Bool) : Prop where
  nonempty : back ≠ []
  start : front = [] ∨ 272 ∣ offset + front.length
  short : (offset + front.length) % 272 + back.length ≤ 272

theorem nextBack_spec {s : Slice} (h : s.bits ≠ []) :
    ∃ key s', s.nextBack = some (key, s') ∧ s.bits = s'.bits ++ key.bits ∧
      key.offset.val = (s.offset.val + s'.length) % 8 ∧
      (s'.bits ≠ [] → s'.offset = s.offset) ∧ ChunkCut s.offset.val s'.bits key.bits := by
  have hpos : s.length ≠ 0 := fun hz => h (bits_eq_nil.mpr hz)
  have hb0 : s.bytes.length ≠ 0 := fun hz => hpos (bytes_length_eq_zero.mp hz)
  have holt := s.offset.isLt
  have hlt := lastChunk_lt hb0
  have hb := length_bytes s
  rw [bytesLen_of_pos _ hpos] at hb
  by_cases hc : lastChunk s.bytes.length = 0
  · rw [nextBack, dif_neg hb0, dif_pos hc]
    refine ⟨_, _, rfl, ?_, ?_, ?_, ?_⟩
    · simp [ExtKey.bits, bits]
    · simp only [ExtKey.offset]
      omega
    · simp [bits]
    · refine ⟨h, Or.inl (by simp [bits]), ?_⟩
      simp only [bits, window_zero, List.length_nil, ExtKey.bits, length_window]
      simp only [maxExtensionKeySize] at hlt
      omega
  · have hadd := lastLength_add s hpos
    have hmul : lastChunk s.bytes.length % 34 = 0 := by
      simp only [lastChunk, maxExtensionKeySize]; omega
    simp only [maxExtensionKeySize] at hlt
    have hfront : s.frontSlice.length = s.length - s.lastLength := rfl
    have hfl : s.offset.val + s.frontSlice.length = 8 * lastChunk s.bytes.length := by omega
    have hkey : window (s.ptr.drop (lastChunk s.bytes.length)) 0 s.lastLength =
        s.bits.drop (s.length - s.lastLength) := by
      rw [window_drop, bits, drop_window _ _ _ _ (Nat.sub_le _ _)]
      congr 1 <;> omega
    rw [nextBack, dif_neg hb0, dif_neg hc]
    refine ⟨_, _, rfl, ?_, ?_, fun _ => rfl, ?_⟩
    · rw [frontSlice, head_bits]
      exact (List.take_append_drop (s.length - s.lastLength) s.bits).symm.trans
        (congrArg _ hkey.symm)
    · rw [hfl]
      simp only [ExtKey.offset, lastSlice, Fin.val_zero]
      omega
    · refine ⟨ExtKey.bits_ne_nil _, Or.inr ?_, ?_⟩
      · rw [length_bits, hfl]
        omega
      · simp only [ExtKey.bits, length_bits, lastSlice, hfl]
        omega

theorem nextBack_length {s s' : Slice} {key : ExtKey} (h : s.nextBack = some (key, s')) :
    s'.length < s.length := by
  have hne : s.bits ≠ [] := fun hz => by rw [nextBack_of_nil hz] at h; cases h
  obtain ⟨key', s'', hs, hbits, -⟩ := nextBack_spec hne
  rw [h] at hs
  cases hs
  have hlen := congrArg List.length hbits
  have hpos := List.length_pos_iff.mpr key.bits_ne_nil
  simp only [List.length_append, length_bits] at hlen
  omega

/-- All chunks of a slice, from the last one to the first. -/
def chunksRev (s : Slice) : List ExtKey :=
  match _h : s.nextBack with
  | none => []
  | some (key, s') => key :: chunksRev s'
  termination_by s.length
  decreasing_by exact nextBack_length _h

theorem chunksRev_of_nil {s : Slice} (h : s.bits = []) : s.chunksRev = [] := by
  unfold chunksRev
  split
  · rfl
  · rename_i hs
    rw [nextBack_of_nil h] at hs
    cases hs

theorem chunksRev_cons {s s' : Slice} {key : ExtKey} (h : s.nextBack = some (key, s')) :
    s.chunksRev = key :: s'.chunksRev := by
  conv_lhs => unfold chunksRev
  split
  · rename_i hs
    rw [h] at hs
    cases hs
  · rename_i hs
    rw [h] at hs
    cases hs
    rfl

end Slice

end Bits
