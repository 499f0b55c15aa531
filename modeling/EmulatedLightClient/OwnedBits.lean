import EmulatedLightClient.Bits

/-!
# Owned slices of bits and their concatenation

The suffix of a concatenation has to start at the bit offset the prefix ends
at and the length of the result has to fit sixteen bits.
-/

namespace Bits

open ByteBits

structure Owned where
  offset : U3
  length : Nat
  bytes : List Byte
  length_lt : length < 2 ^ 16
  size : bytes.length = bytesLen offset length

/-- Error during concatenation of two slice-like objects. -/
inductive ConcatError where
  | sliceTooLong
  | misaligned
  deriving DecidableEq

namespace Owned

def bits (s : Owned) : List Bool := window s.bytes s.offset.val s.length

def asSlice (s : Owned) : Slice :=
  ⟨s.offset, s.length, s.bytes, s.length_lt, Nat.le_of_eq s.size.symm⟩

@[simp] theorem asSlice_bits (s : Owned) : s.asSlice.bits = s.bits := rfl

@[simp] theorem asSlice_offset (s : Owned) : s.asSlice.offset = s.offset := rfl

def ofSlice (slice : Slice) : Owned :=
  ⟨slice.offset, slice.length, slice.bytes, slice.length_lt, slice.length_bytes⟩

@[simp] theorem ofSlice_bits (slice : Slice) : (ofSlice slice).bits = slice.bits :=
  slice.window_bytes

@[simp] theorem ofSlice_offset (slice : Slice) : (ofSlice slice).offset = slice.offset := rfl

theorem bit_length_lt : 1 < 2 ^ 16 := by decide

/-- Constructs a new one-bit owned slice. -/
def bit (bit : Bool) (offset : U3) : Owned :=
  { offset := offset
    length := 1
    bytes := [if bit then 255#8 else 0#8]
    length_lt := bit_length_lt
    size := by rw [bytesLen_of_pos _ (by decide), List.length_singleton]; omega }

@[simp] theorem bit_bits (b : Bool) (offset : U3) : (bit b offset).bits = [b] := by
  have h := offset.isLt
  simp only [bits, bit, window_succ, window_zero, bitAt_cons_head _ _ h]
  cases b
  · simp
  · simp [getMsbD_ff h]

@[simp] theorem bit_offset (b : Bool) (offset : U3) : (bit b offset).offset = offset := rfl

def prependBytes (bit : Bool) (suffix : Slice) : List Byte :=
  let offset := U3.wrappingDec suffix.offset
  if suffix.length = 0 then [if bit then 255#8 else 0#8]
  else if offset = 7 then (if bit then 1#8 else 0#8) :: suffix.bytes
  else
    suffix.bytes.modify 0 fun first =>
      (first &&& (0x7F#8 >>> offset.val)) ||| ((if bit then 0x80#8 else 0#8) >>> offset.val)

theorem length_prependBytes (bit : Bool) (suffix : Slice) :
    (prependBytes bit suffix).length =
      bytesLen (U3.wrappingDec suffix.offset) (1 + suffix.length) := by
  have hlt := suffix.offset.isLt
  rw [bytesLen_of_pos _ (by omega), U3.val_wrappingDec]
  unfold prependBytes
  split
  · simp only [List.length_cons, List.length_nil]
    omega
  · rename_i hpos
    have hb := suffix.length_bytes
    rw [bytesLen_of_pos _ hpos] at hb
    simp only
    split
    · rename_i h7
      have : (suffix.offset.val + 7) % 8 = 7 := congrArg Fin.val h7
      simp only [List.length_cons, hb]
      omega
    · rename_i h7
      have : (suffix.offset.val + 7) % 8 ≠ 7 := fun he => h7 (Fin.ext he)
      simp only [List.length_modify, hb]
      omega

/-- `Concat<Slice>` for `bool`: prepends given slice by a bit. -/
def concatBit (bit : Bool) (suffix : Slice) : Except ConcatError Owned :=
  if h : 1 + suffix.length < 2 ^ 16 then
    .ok
      { offset := U3.wrappingDec suffix.offset
        length := 1 + suffix.length
        bytes := prependBytes bit suffix
        length_lt := h
        size := length_prependBytes bit suffix }
  else .error .sliceTooLong

theorem getMsbD_7f_shiftRight :
    ∀ o t : Fin 8, (0x7F#8 >>> o.val).getMsbD t.val = decide (o < t) := by
  decide

theorem getMsbD_bit_shiftRight : ∀ (b : Bool) (o t : Fin 8),
    ((if b then 0x80#8 else 0#8) >>> o.val).getMsbD t.val = (b && decide (t = o)) := by
  decide

theorem getMsbD_prepended (first : Byte) (b : Bool) (o t : Fin 8) :
    ((first &&& (0x7F#8 >>> o.val)) ||| ((if b then 0x80#8 else 0#8) >>> o.val)).getMsbD t.val =
      if t < o then false else if t = o then b else first.getMsbD t.val := by
  rw [BitVec.getMsbD_or, BitVec.getMsbD_and, getMsbD_7f_shiftRight, getMsbD_bit_shiftRight]
  by_cases hlt : t < o
  · simp [hlt, Fin.ne_of_lt hlt, Fin.not_lt.mpr (Fin.le_of_lt hlt)]
  · by_cases heq : t = o
    · simp [heq]
    · have hgt : o < t := Fin.lt_def.mpr (by
        have := Fin.lt_def.not.mp hlt
        have := fun h => heq (Fin.ext h)
        omega)
      simp [hlt, heq, hgt]

theorem window_prependBytes (bit : Bool) (suffix : Slice) :
    window (prependBytes bit suffix) (U3.wrappingDec suffix.offset).val (1 + suffix.length) =
      bit :: suffix.bits := by
  have hlt := suffix.offset.isLt
  have holt := (U3.wrappingDec suffix.offset).isLt
  rw [Nat.add_comm, window_succ, ← suffix.window_bytes]
  unfold prependBytes
  split
  · rename_i hz
    rw [hz, bitAt_cons_head _ _ holt, window_zero, window_zero]
    cases bit
    · simp
    · rw [if_pos rfl, getMsbD_ff holt]
  · rename_i hpos
    have hb := suffix.length_bytes
    rw [bytesLen_of_pos _ hpos] at hb
    simp only
    split
    · rename_i h7
      have h8 : (suffix.offset.val + 7) % 8 = 7 := congrArg Fin.val h7
      have h0 : suffix.offset.val = 0 := by omega
      rw [h7, h0, bitAt_cons_head _ _ (by decide)]
      congr 1
      · cases bit <;> rfl
      · rw [window_ext]
        intro i _
        rw [show ((7 : U3).val + 1 + i) = 8 + i from rfl, bitAt_cons_tail, Nat.zero_add]
    · rename_i h7
      have h8 : (suffix.offset.val + 7) % 8 ≠ 7 := fun he => h7 (Fin.ext he)
      have ho : (U3.wrappingDec suffix.offset).val + 1 = suffix.offset.val := by
        rw [U3.val_wrappingDec]; omega
      match hbytes : suffix.bytes with
      | [] => rw [hbytes] at hb; simp at hb; omega
      | first :: rest =>
        rw [List.modify_zero_cons]
        congr 1
        · rw [bitAt_cons_head _ _ holt,
            getMsbD_prepended first bit _ (U3.wrappingDec suffix.offset)]
          simp
        · rw [ho, window_ext]
          intro i _
          by_cases hi : suffix.offset.val + i < 8
          · rw [bitAt_cons_head _ _ hi, bitAt_cons_head _ _ hi,
              getMsbD_prepended first bit _ ⟨_, hi⟩]
            have h1 : ¬ (⟨suffix.offset.val + i, hi⟩ : Fin 8) < U3.wrappingDec suffix.offset :=
              fun he => by have := Fin.lt_def.mp he; simp only at this; omega
            have h2 : (⟨suffix.offset.val + i, hi⟩ : Fin 8) ≠ U3.wrappingDec suffix.offset :=
              fun he => by have := congrArg Fin.val he; simp only at this; omega
            rw [if_neg h1, if_neg h2]
          · obtain ⟨j, hj⟩ := Nat.exists_eq_add_of_le (Nat.le_of_not_lt hi)
            rw [hj, bitAt_cons_tail, bitAt_cons_tail]

theorem concatBit_spec (bit : Bool) {suffix : Slice} (h : 1 + suffix.length < 2 ^ 16) :
    ∃ s, concatBit bit suffix = .ok s ∧ s.bits = bit :: suffix.bits ∧
      s.offset.val = (suffix.offset.val + 7) % 8 := by
  rw [concatBit, dif_pos h]
  exact ⟨_, rfl, window_prependBytes bit suffix, rfl⟩

def checkLength (preLen sufLen : Nat) : Except ConcatError Nat :=
  if preLen + sufLen < 2 ^ 16 then .ok (preLen + sufLen) else .error .sliceTooLong

def checkAlignment (preOff : U3) (preLen : Nat) (sufOff : U3) : Except ConcatError Unit :=
  if U3.wrappingAdd (U3.wrap preLen) preOff.val ≠ sufOff then .error .misaligned else .ok ()

def checkAlignmentAndLength (preOff : U3) (preLen : Nat) (sufOff : U3) (sufLen : Nat) :
    Except ConcatError Nat :=
  match checkAlignment preOff preLen sufOff with
  | .error err => .error err
  | .ok () => checkLength preLen sufLen

/-- Appends bytes of a suffix, merging the byte the two strings share. -/
def extendBytes (this : List Byte) (offset : U3) (suffix : List Byte) : List Byte :=
  match this.getLast?, suffix with
  | some last, first :: rest =>
    if offset ≠ 0 then
      let mask := 255#8 >>> offset.val
      this.dropLast ++ [(last &&& ~~~mask) ||| (first &&& mask)] ++ rest
    else this ++ suffix
  | _, _ => this ++ suffix

theorem checkAlignmentAndLength_eq (preOff sufOff : U3) (preLen sufLen : Nat) :
    checkAlignmentAndLength preOff preLen sufOff sufLen =
      if sufOff = U3.wrappingAdd preOff preLen then checkLength preLen sufLen
      else .error .misaligned := by
  have hstop : U3.wrappingAdd (U3.wrap preLen) preOff.val = U3.wrappingAdd preOff preLen := by
    apply Fin.ext
    rw [U3.val_wrappingAdd, U3.val_wrappingAdd, U3.val_wrap]
    omega
  unfold checkAlignmentAndLength checkAlignment
  rw [hstop]
  by_cases h : sufOff = U3.wrappingAdd preOff preLen
  · rw [if_neg (not_not.mpr h.symm), if_pos h]
  · rw [if_pos (Ne.symm h), if_neg h]

theorem checkAlignmentAndLength_ok {preOff sufOff : U3} {preLen sufLen n : Nat}
    (h : checkAlignmentAndLength preOff preLen sufOff sufLen = .ok n) :
    sufOff.val = (preOff.val + preLen) % 8 ∧ preLen + sufLen < 2 ^ 16 := by
  rw [checkAlignmentAndLength_eq] at h
  split at h
  · rename_i hal
    unfold checkLength at h
    split at h
    · rename_i hlen
      exact ⟨congrArg Fin.val hal, hlen⟩
    · cases h
  · cases h

theorem length_extendBytes {this : Owned} {suffix : Slice}
    (hal : suffix.offset.val = (this.offset.val + this.length) % 8) :
    (extendBytes this.bytes suffix.offset suffix.bytes).length =
      bytesLen this.offset (this.length + suffix.length) := by
  have hsize := this.size
  have hsuf := suffix.length_bytes
  have holt := this.offset.isLt
  by_cases hs : suffix.length = 0
  · have hnil : suffix.bytes = [] := List.length_eq_zero_iff.mp (by rw [hsuf, hs]; rfl)
    rw [hnil, hs, Nat.add_zero, ← hsize]
    unfold extendBytes
    cases this.bytes.getLast? <;> simp
  rw [bytesLen_of_pos _ hs] at hsuf
  rw [bytesLen_of_pos _ (by omega)]
  by_cases ht : this.length = 0
  · have hnil : this.bytes = [] := List.length_eq_zero_iff.mp (by rw [hsize, ht]; rfl)
    rw [hnil]
    simp only [extendBytes, List.getLast?_nil, List.nil_append, hsuf]
    omega
  rw [bytesLen_of_pos _ ht] at hsize
  have hne : this.bytes ≠ [] := List.ne_nil_of_length_pos (by omega)
  match hb : suffix.bytes with
  | [] => rw [hb] at hsuf; simp at hsuf; omega
  | first :: rest =>
    rw [hb] at hsuf
    simp only [extendBytes, List.getLast?_eq_some_getLast hne]
    split
    · rename_i ho
      have ho : suffix.offset.val ≠ 0 := fun he => ho (Fin.ext he)
      simp only [List.length_append, List.length_dropLast, List.length_cons,
        List.length_nil] at hsuf ⊢
      omega
    · rename_i ho
      have ho : suffix.offset.val = 0 := by rw [not_not.mp ho]; rfl
      simp only [List.length_append, List.length_cons] at hsuf ⊢
      omega

/-- Extends owned slice with given suffix. -/
def extend (this : Owned) (suffix : Slice) : Except ConcatError Owned :=
  match h : checkAlignmentAndLength this.offset this.length suffix.offset suffix.length with
  | .error err => .error err
  | .ok _ =>
    have hok := checkAlignmentAndLength_ok h
    .ok
      { offset := this.offset
        length := this.length + suffix.length
        bytes := extendBytes this.bytes suffix.offset suffix.bytes
        length_lt := hok.2
        size := length_extendBytes hok.1 }

/-- `Concat<Slice>` for `Slice`. -/
def concat (pre suffix : Slice) : Except ConcatError Owned :=
  match checkAlignmentAndLength pre.offset pre.length suffix.offset suffix.length with
  | .error err => .error err
  | .ok _ => extend (ofSlice pre) suffix

theorem bitAt_merged {this : List Byte} {last first : Byte} {rest : List Byte} {offset : U3}
    (hlast : this.getLast? = some last) (j : Nat) :
    bitAt (this.dropLast ++ [(last &&& ~~~(255#8 >>> offset.val)) |||
        (first &&& (255#8 >>> offset.val))] ++ rest) j =
      if j < 8 * (this.length - 1) + offset.val then bitAt this j
      else bitAt (first :: rest) (j - 8 * (this.length - 1)) := by
  have holt := offset.isLt
  have hlen : this.dropLast.length = this.length - 1 := List.length_dropLast ..
  have hthis : this = this.dropLast ++ [last] := by
    obtain ⟨init, rfl⟩ := List.getLast?_eq_some_iff.mp hlast
    simp
  rw [List.append_assoc, List.singleton_append]
  by_cases hj : j < 8 * (this.length - 1)
  · rw [bitAt_append_left _ _ (by omega), if_pos (by omega)]
    conv_rhs => rw [hthis]
    rw [bitAt_append_left _ _ (by omega)]
  · obtain ⟨t, rfl⟩ := Nat.exists_eq_add_of_le (Nat.le_of_not_lt hj)
    rw [← hlen, bitAt_append_right, Nat.add_sub_cancel_left]
    by_cases ht : t < 8
    · rw [bitAt_cons_head _ _ ht, BitVec.getMsbD_or, BitVec.getMsbD_and, BitVec.getMsbD_and,
        BitVec.getMsbD_not, getMsbD_ff_shiftRight _ ht, bitAt_cons_head _ _ ht]
      by_cases hto : t < offset.val
      · rw [if_pos (by omega), hthis, List.dropLast_concat, bitAt_append_right,
          bitAt_cons_head _ _ ht]
        simp [ht, Nat.not_le.mpr hto]
      · rw [if_neg (by omega)]
        simp [Nat.le_of_not_lt hto]
    · obtain ⟨i, rfl⟩ := Nat.exists_eq_add_of_le (Nat.le_of_not_lt ht)
      rw [if_neg (by omega), bitAt_cons_tail, bitAt_cons_tail]

theorem window_extendBytes {this : Owned} {suffix : Slice}
    (hal : suffix.offset.val = (this.offset.val + this.length) % 8) :
    window (extendBytes this.bytes suffix.offset suffix.bytes) this.offset.val
        (this.length + suffix.length) = this.bits ++ suffix.bits := by
  have hsize := this.size
  have hsuf := suffix.length_bytes
  have holt := this.offset.isLt
  by_cases hs : suffix.length = 0
  · have hnil : suffix.bytes = [] := List.length_eq_zero_iff.mp (by rw [hsuf, hs]; rfl)
    have hb : suffix.bits = [] := Slice.bits_eq_nil.mpr hs
    have hext : extendBytes this.bytes suffix.offset [] = this.bytes := by
      unfold extendBytes
      cases this.bytes.getLast? <;> simp
    rw [hnil, hs, hb, hext, List.append_nil]
    rfl
  rw [bytesLen_of_pos _ hs] at hsuf
  by_cases ht : this.length = 0
  · have hnil : this.bytes = [] := List.length_eq_zero_iff.mp (by rw [hsize, ht]; rfl)
    have hoff : this.offset.val = suffix.offset.val := by omega
    rw [hnil, bits, ht]
    simp only [extendBytes, List.getLast?_nil, List.nil_append, Nat.zero_add, window_zero, hoff]
    exact suffix.window_bytes
  rw [bytesLen_of_pos _ ht] at hsize
  have hne : this.bytes ≠ [] := List.ne_nil_of_length_pos (by omega)
  rw [window_append, ← suffix.window_bytes]
  match hb : suffix.bytes with
  | [] => rw [hb] at hsuf; simp at hsuf; omega
  | first :: rest =>
    simp only [extendBytes, List.getLast?_eq_some_getLast hne]
    split
    · rename_i ho
      have ho : suffix.offset.val ≠ 0 := fun he => ho (Fin.ext he)
      congr 1
      · rw [bits, window_ext]
        intro i hi
        rw [bitAt_merged (List.getLast?_eq_some_getLast hne), if_pos (by omega)]
      · rw [window_ext]
        intro i hi
        rw [bitAt_merged (List.getLast?_eq_some_getLast hne), if_neg (by omega)]
        congr 1
        omega
    · rename_i ho
      have ho : suffix.offset.val = 0 := by rw [not_not.mp ho]; rfl
      have hfull : this.offset.val + this.length = 8 * this.bytes.length := by omega
      congr 1
      · rw [bits, window_ext]
        intro i hi
        exact bitAt_append_left _ _ (by omega)
      · rw [hfull, ho, window_ext]
        intro i hi
        rw [bitAt_append_right, Nat.zero_add]

theorem checkAlignmentAndLength_of_aligned {preOff sufOff : U3} {preLen sufLen : Nat}
    (hal : sufOff.val = (preOff.val + preLen) % 8) (hlen : preLen + sufLen < 2 ^ 16) :
    checkAlignmentAndLength preOff preLen sufOff sufLen = .ok (preLen + sufLen) := by
  rw [checkAlignmentAndLength_eq, if_pos (Fin.ext hal)]
  exact if_pos hlen

theorem extend_spec (this : Owned) {suffix : Slice}
    (hal : suffix.offset.val = (this.offset.val + this.length) % 8)
    (hlen : this.length + suffix.length < 2 ^ 16) :
    ∃ s, extend this suffix = .ok s ∧ s.bits = this.bits ++ suffix.bits ∧
      s.offset = this.offset := by
  have hcheck := checkAlignmentAndLength_of_aligned hal hlen
  unfold extend
  split
  · rename_i herr
    rw [hcheck] at herr
    cases herr
  · exact ⟨_, rfl, window_extendBytes hal, rfl⟩

theorem concat_spec {pre suffix : Slice}
    (hal : suffix.offset.val = (pre.offset.val + pre.length) % 8)
    (hlen : pre.length + suffix.length < 2 ^ 16) :
    ∃ s, concat pre suffix = .ok s ∧ s.bits = pre.bits ++ suffix.bits ∧
      s.offset = pre.offset := by
  have hcheck := checkAlignmentAndLength_of_aligned hal hlen
  obtain ⟨s, hs, hb, ho⟩ := extend_spec (ofSlice pre) hal hlen
  refine ⟨s, ?_, by rw [hb, ofSlice_bits], ho⟩
  rw [concat, hcheck]
  exact hs

end Owned

end Bits
