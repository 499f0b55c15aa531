import EmulatedLightClient.OwnedBits

/-!
# Editing an owned slice of bits in place

Appending a bit, dropping bits off the end and replacing the last bit. Bits
past the end of a slice may be anything, hence appending clears the bit first.
-/

namespace Bits

open ByteBits

def Slice.default : Slice :=
  { offset := 0
    length := 0
    ptr := [0#8]
    length_lt := Nat.two_pow_pos 16
    valid := Nat.zero_le _ }

@[simp] theorem Slice.default_length : Slice.default.length = 0 := rfl

@[simp] theorem Slice.default_isEmpty : Slice.default.isEmpty = true := rfl

namespace Owned

@[simp] theorem length_bits (s : Owned) : s.bits.length = s.length := length_window ..

def default : Owned :=
  { offset := 0
    length := 0
    bytes := []
    length_lt := Nat.two_pow_pos 16
    size := rfl }

@[simp] theorem default_bits : default.bits = [] := rfl

@[simp] theorem default_offset : default.offset = 0 := rfl

@[simp] theorem default_length : default.length = 0 := rfl

def mask (off : U3) : Byte := 0x80#8 >>> off.val

/-- The mask times the bit. -/
def masked (off : U3) (bit : Bool) : Byte := mask off * (if bit then 1#8 else 0#8)

def writeBit (byte : Byte) (off : U3) (bit : Bool) : Byte :=
  (byte &&& ~~~mask off) ||| masked off bit

theorem getMsbD_mask : ∀ o t : Fin 8, (mask o).getMsbD t.val = decide (t = o) := by
  decide

theorem getMsbD_masked : ∀ (bit : Bool) (o t : Fin 8),
    (masked o bit).getMsbD t.val = (bit && decide (t = o)) := by
  decide

theorem getMsbD_writeBit (byte : Byte) (o t : U3) (bit : Bool) :
    (writeBit byte o bit).getMsbD t.val = if t = o then bit else byte.getMsbD t.val := by
  rw [writeBit, BitVec.getMsbD_or, BitVec.getMsbD_and, BitVec.getMsbD_not, getMsbD_mask,
    getMsbD_masked]
  have ht := t.isLt
  by_cases h : t = o
  · simp [h]
  · simp [h, ht]

/-- Writing a bit of the last byte changes that bit alone. -/
theorem bitAt_writeBit (init : List Byte) (last : Byte) (o : U3) (bit : Bool) (i : Nat) :
    bitAt (init ++ [writeBit last o bit]) i =
      if i = 8 * init.length + o.val then bit else bitAt (init ++ [last]) i := by
  have ho := o.isLt
  by_cases hi : i < 8 * init.length
  · rw [if_neg (by omega), bitAt_append_left _ _ hi, bitAt_append_left _ _ hi]
  · obtain ⟨t, rfl⟩ := Nat.exists_eq_add_of_le (Nat.le_of_not_lt hi)
    rw [bitAt_append_right, bitAt_append_right]
    by_cases ht : t < 8
    · have heq : (8 * init.length + t = 8 * init.length + o.val) ↔ (⟨t, ht⟩ : U3) = o := by
        rw [Fin.ext_iff]
        exact Nat.add_left_cancel_iff
      rw [bitAt_cons_head _ _ ht, bitAt_cons_head _ _ ht, getMsbD_writeBit last o ⟨t, ht⟩]
      simp only [heq]
    · obtain ⟨j, rfl⟩ := Nat.exists_eq_add_of_le (Nat.le_of_not_lt ht)
      rw [if_neg (by omega), bitAt_cons_tail, bitAt_cons_tail]

theorem bytes_eq_nil {s : Owned} : s.bytes = [] ↔ s.length = 0 := by
  rw [← List.length_eq_zero_iff, s.size]
  constructor
  · intro h
    by_contra hpos
    rw [bytesLen_of_pos _ hpos] at h
    omega
  · intro h
    rw [h]
    rfl

/-- The last bit of a slice lies in its last byte. -/
theorem exists_last {this : Owned} {length : Nat} (h : this.length = length + 1) :
    ∃ init last, this.bytes = init ++ [last] ∧
      this.offset.val + length = 8 * init.length + (U3.wrappingAdd this.offset length).val := by
  have hne : this.bytes ≠ [] := fun hnil => by rw [bytes_eq_nil] at hnil; omega
  refine ⟨_, _, (List.dropLast_concat_getLast hne).symm, ?_⟩
  rw [List.length_dropLast, this.size, bytesLen_of_pos _ (by omega), U3.val_wrappingAdd]
  omega

def pushBackBytes (this : Owned) (bit : Bool) : List Byte :=
  let off := U3.wrappingAdd this.offset this.length
  match this.bytes.getLast? with
  | some byte =>
    -- Unless a new byte starts, the bit goes to the last byte.
    if off ≠ 0 then this.bytes.dropLast ++ [writeBit byte off bit]
    else this.bytes ++ [masked off bit]
  | none => this.bytes ++ [masked off bit]

/-- A new bit right after the last one leaves those in front of it. -/
theorem window_pushed {this : Owned} {kept : List Byte} {byte : Byte} {bit : Bool}
    (hat : this.offset.val + this.length =
      8 * kept.length + (U3.wrappingAdd this.offset this.length).val)
    (hbit : byte.getMsbD (U3.wrappingAdd this.offset this.length).val = bit)
    (hagree : ∀ i, i < this.length → bitAt (kept ++ [byte]) (this.offset.val + i) =
      bitAt this.bytes (this.offset.val + i)) :
    (kept ++ [byte]).length = bytesLen this.offset (this.length + 1) ∧
      window (kept ++ [byte]) this.offset.val (this.length + 1) = this.bits ++ [bit] := by
  have hlt := (U3.wrappingAdd this.offset this.length).isLt
  constructor
  · rw [bytesLen_of_pos _ (by omega), List.length_append, List.length_singleton]
    omega
  · rw [window_append, window_one, hat, bitAt_append_right, bitAt_cons_head _ _ hlt, hbit, bits,
      window_ext.mpr hagree]

/-- Without a byte to write to the bit starts a new one. -/
theorem pushBackBytes_of_aligned {this : Owned}
    (h : this.length = 0 ∨ U3.wrappingAdd this.offset this.length = 0) (bit : Bool) :
    pushBackBytes this bit =
      this.bytes ++ [masked (U3.wrappingAdd this.offset this.length) bit] := by
  unfold pushBackBytes
  cases hlast : this.bytes.getLast? with
  | none => rfl
  | some byte =>
    have hoff : U3.wrappingAdd this.offset this.length = 0 := by
      apply h.resolve_left
      intro hz
      rw [bytes_eq_nil.mpr hz] at hlast
      cases hlast
    exact if_neg (not_not.mpr hoff)

theorem pushBackBytes_spec (this : Owned) (bit : Bool) :
    (pushBackBytes this bit).length = bytesLen this.offset (this.length + 1) ∧
      window (pushBackBytes this bit) this.offset.val (this.length + 1) = this.bits ++ [bit] := by
  have hsize := this.size
  have holt := this.offset.isLt
  have hval : (U3.wrappingAdd this.offset this.length).val =
      (this.offset.val + this.length) % 8 := U3.val_wrappingAdd _ _
  by_cases haligned : this.length = 0 ∨ U3.wrappingAdd this.offset this.length = 0
  · have hzero : this.length = 0 ∨ (U3.wrappingAdd this.offset this.length).val = 0 :=
      haligned.imp_right (congrArg Fin.val)
    have hat : this.offset.val + this.length =
        8 * this.bytes.length + (U3.wrappingAdd this.offset this.length).val := by
      by_cases hz : this.length = 0
      · rw [bytes_eq_nil.mpr hz, List.length_nil]
        omega
      · rw [hsize, bytesLen_of_pos _ hz]
        omega
    rw [pushBackBytes_of_aligned haligned]
    apply window_pushed hat
    · rw [getMsbD_masked bit, decide_eq_true rfl, Bool.and_true]
    · intro i hi
      exact bitAt_append_left _ _ (by omega)
  · obtain ⟨hpos, hoff⟩ := not_or.mp haligned
    obtain ⟨n, hn⟩ := Nat.exists_eq_succ_of_ne_zero hpos
    obtain ⟨init, last, hbytes, hat⟩ := exists_last hn
    have hne : (U3.wrappingAdd this.offset this.length).val ≠ 0 := fun h => hoff (Fin.ext h)
    rw [U3.val_wrappingAdd] at hat
    have hpush : pushBackBytes this bit =
        init ++ [writeBit last (U3.wrappingAdd this.offset this.length) bit] := by
      unfold pushBackBytes
      rw [hbytes, List.getLast?_concat]
      simp only
      rw [if_pos hoff, List.dropLast_concat]
    rw [hpush]
    apply window_pushed (by omega)
    · rw [getMsbD_writeBit, if_pos rfl]
    · intro i hi
      rw [hbytes, bitAt_writeBit, if_neg (by omega)]

/-- Appends the given bit to the slice. -/
def pushBack (this : Owned) (bit : Bool) : Except ConcatError Owned :=
  if h : this.length + 1 < 2 ^ 16 then
    .ok
      { offset := this.offset
        length := this.length + 1
        bytes := pushBackBytes this bit
        length_lt := h
        size := (pushBackBytes_spec this bit).1 }
  else .error .sliceTooLong

theorem pushBack_spec (this : Owned) (bit : Bool) (h : this.length + 1 < 2 ^ 16) :
    ∃ s, pushBack this bit = .ok s ∧ s.bits = this.bits ++ [bit] ∧ s.offset = this.offset := by
  rw [pushBack, dif_pos h]
  exact ⟨_, rfl, (pushBackBytes_spec this bit).2, rfl⟩

theorem pushBack_length {this s : Owned} {bit : Bool} (h : pushBack this bit = .ok s) :
    s.length = this.length + 1 := by
  unfold pushBack at h
  split at h
  · cases h
    rfl
  · cases h

theorem extend_length {this s : Owned} {suffix : Slice} (h : extend this suffix = .ok s) :
    s.length = this.length + suffix.length := by
  unfold extend at h
  split at h
  · cases h
  · cases h
    rfl

/-- Bytes left once the slice is `length` bits long, one bit shorter. -/
def popBackBytes (offset : U3) (length : Nat) (bytes : List Byte) : List Byte :=
  if U3.wrappingAdd offset length = 0 ∨ length = 0 then bytes.dropLast else bytes

theorem length_popBackBytes {this : Owned} (h : this.length ≠ 0) :
    (popBackBytes this.offset (this.length - 1) this.bytes).length =
      bytesLen this.offset (this.length - 1) := by
  have holt := this.offset.isLt
  have hsize := this.size
  rw [bytesLen_of_pos _ h] at hsize
  unfold popBackBytes
  split
  · rename_i hlast
    rw [List.length_dropLast, hsize]
    by_cases hz : this.length - 1 = 0
    · rw [hz, bytesLen]
      omega
    · have hoff := congrArg Fin.val (hlast.resolve_right hz)
      rw [U3.val_wrappingAdd, Fin.val_zero] at hoff
      rw [bytesLen_of_pos _ hz]
      omega
  · rename_i hlast
    obtain ⟨hoff, hz⟩ := not_or.mp hlast
    have hval : (this.offset.val + (this.length - 1)) % 8 ≠ 0 := fun he => hoff (Fin.ext he)
    rw [hsize, bytesLen_of_pos _ hz]
    omega

/-- Returns the last bit in the slice and the slice shrunk by one bit. -/
def popBack (this : Owned) : Option (Bool × Owned) :=
  if h : this.length = 0 then none
  else
    let length := this.length - 1
    let off := U3.wrappingAdd this.offset length
    let last := this.bytes.getLast fun hnil => h (bytes_eq_nil.mp hnil)
    some
      (last &&& (0x80#8 >>> off.val) != 0#8,
        { offset := this.offset
          length := length
          bytes := popBackBytes this.offset length this.bytes
          length_lt := Nat.lt_of_le_of_lt (Nat.sub_le _ _) this.length_lt
          size := length_popBackBytes h })

theorem popBack_some {this : Owned} {length : Nat} (h : this.length = length + 1) :
    ∃ last s, this.bytes.getLast? = some last ∧
      popBack this =
        some (last &&& (0x80#8 >>> (U3.wrappingAdd this.offset length).val) != 0#8, s) ∧
      s.offset = this.offset ∧ s.length = length ∧
      s.bytes = popBackBytes this.offset length this.bytes := by
  have hne : this.bytes ≠ [] := fun hnil => by rw [bytes_eq_nil] at hnil; omega
  obtain ⟨offset, len, bytes, hlt, hsize⟩ := this
  cases h
  exact ⟨bytes.getLast hne, _, List.getLast?_eq_some_getLast hne, rfl, rfl, rfl, rfl⟩

theorem popBack_of_nil {this : Owned} (h : this.bits = []) : popBack this = none :=
  dif_pos (by rw [← length_bits, h, List.length_nil])

/-- The last bit and the bits in front of it. -/
theorem split_last {this : Owned} {front : List Bool} {b : Bool} (h : this.bits = front ++ [b]) :
    this.length = front.length + 1 ∧ window this.bytes this.offset.val front.length = front ∧
      bitAt this.bytes (this.offset.val + front.length) = b := by
  have hlen : this.length = front.length + 1 := by rw [← length_bits, h]; simp
  rw [bits, hlen, window_append, window_one] at h
  obtain ⟨hfront, hlast⟩ := List.append_inj h (length_window ..)
  exact ⟨hlen, hfront, (List.cons.inj hlast).1⟩

theorem popBack_of_concat {this : Owned} {front : List Bool} {b : Bool}
    (h : this.bits = front ++ [b]) :
    ∃ s, popBack this = some (b, s) ∧ s.bits = front ∧ s.offset = this.offset := by
  obtain ⟨hlen, hfront, hlast⟩ := split_last h
  obtain ⟨init, last, hbytes, hat⟩ := exists_last hlen
  obtain ⟨last', s, hget, hpop, hoff, hslen, hsbytes⟩ := popBack_some hlen
  have hsame : last' = last := by
    rw [hbytes, List.getLast?_concat] at hget
    exact (Option.some.inj hget).symm
  have hbit : (last &&& (0x80#8 >>> (U3.wrappingAdd this.offset front.length).val) != 0#8) = b := by
    rw [and_bit_ne_zero, ← bitAt_cons_head last [] (Fin.isLt _), ← bitAt_append_right init, ← hat,
      ← hbytes]
    exact hlast
  refine ⟨s, by rw [hpop, hsame, hbit], ?_, hoff⟩
  rw [bits, hoff, hslen, hsbytes, popBackBytes]
  split
  · rename_i hdrop
    conv_rhs => rw [← hfront]
    rw [hbytes, List.dropLast_concat, window_ext]
    intro i hi
    have hzero := congrArg Fin.val (hdrop.resolve_right (by omega))
    rw [Fin.val_zero] at hzero
    exact (bitAt_append_left _ _ (by omega)).symm
  · exact hfront

/-- Shortens the slice keeping the first `len` bits and dropping the rest. -/
def truncate (this : Owned) (len : Nat) : Owned :=
  if h : len < this.length then
    { offset := this.offset
      length := len
      bytes := this.bytes.take (bytesLen this.offset len)
      length_lt := Nat.lt_trans h this.length_lt
      size := List.length_take_of_le (this.size.symm ▸ bytesLen_mono _ (Nat.le_of_lt h)) }
  else this

theorem truncate_length {this : Owned} {len : Nat} (h : len ≤ this.length) :
    (truncate this len).length = len := by
  unfold truncate
  split
  · rfl
  · omega

@[simp] theorem truncate_offset (this : Owned) (len : Nat) :
    (truncate this len).offset = this.offset := by
  unfold truncate
  split <;> rfl

@[simp] theorem truncate_bits (this : Owned) (len : Nat) :
    (truncate this len).bits = this.bits.take len := by
  unfold truncate
  split
  · rename_i h
    rw [bits, bits, take_window _ _ _ _ (Nat.le_of_lt h)]
    simp only
    by_cases hz : len = 0
    · rw [hz]
      rfl
    · apply window_take
      rw [bytesLen_of_pos _ hz]
      omega
  · rename_i h
    rw [List.take_of_length_le]
    rw [length_bits]
    omega

theorem length_replaceLast {bytes : List Byte} {last : Byte} (h : bytes.getLast? = some last)
    (byte : Byte) : (bytes.dropLast ++ [byte]).length = bytes.length := by
  obtain ⟨init, rfl⟩ := List.getLast?_eq_some_iff.mp h
  simp

/-- Sets the last bit in the slice. No value stands for the panic on an empty slice. -/
def setLast (this : Owned) (bit : Bool) : Option Owned :=
  let shft := U3.wrappingDec (U3.wrappingAdd this.offset this.length)
  match h : this.bytes.getLast? with
  | none => none
  | some last =>
    some
      { this with
        bytes := this.bytes.dropLast ++ [writeBit last shft bit]
        size := (length_replaceLast h _).trans this.size }

theorem setLast_of_nil {this : Owned} {bit : Bool} (h : this.bits = []) :
    setLast this bit = none := by
  have hnil : this.bytes = [] := by rw [bytes_eq_nil, ← length_bits, h, List.length_nil]
  unfold setLast
  simp only
  split
  · rfl
  · rename_i hlast
    rw [hnil] at hlast
    cases hlast

theorem setLast_some {this : Owned} {last : Byte} (bit : Bool)
    (h : this.bytes.getLast? = some last) :
    ∃ s, setLast this bit = some s ∧ s.offset = this.offset ∧ s.length = this.length ∧
      s.bytes = this.bytes.dropLast ++
        [writeBit last (U3.wrappingDec (U3.wrappingAdd this.offset this.length)) bit] := by
  unfold setLast
  simp only
  split
  · rename_i hnone
    rw [h] at hnone
    cases hnone
  · rename_i hlast
    rw [h] at hlast
    cases hlast
    exact ⟨_, rfl, rfl, rfl, rfl⟩

theorem setLast_length {this s : Owned} {bit : Bool} (h : setLast this bit = some s) :
    s.length = this.length := by
  unfold setLast at h
  simp only at h
  split at h
  · cases h
  · cases h
    rfl

theorem setLast_spec {this : Owned} {front : List Bool} {old : Bool} (bit : Bool)
    (h : this.bits = front ++ [old]) :
    ∃ s, setLast this bit = some s ∧ s.bits = front ++ [bit] ∧ s.offset = this.offset := by
  obtain ⟨hlen, hfront, -⟩ := split_last h
  obtain ⟨init, last, hbytes, hat⟩ := exists_last hlen
  have hlast : this.bytes.getLast? = some last := by rw [hbytes, List.getLast?_concat]
  obtain ⟨s, hs, hoff, hslen, hsbytes⟩ := setLast_some bit hlast
  have hshft : U3.wrappingDec (U3.wrappingAdd this.offset this.length) =
      U3.wrappingAdd this.offset front.length := by
    apply Fin.ext
    rw [U3.val_wrappingDec, U3.val_wrappingAdd, U3.val_wrappingAdd]
    omega
  rw [hshft, hbytes, List.dropLast_concat] at hsbytes
  refine ⟨s, hs, ?_, hoff⟩
  rw [bits, hoff, hslen, hlen, hsbytes, window_append, window_one]
  congr 1
  · conv_rhs => rw [← hfront, hbytes]
    rw [window_ext]
    intro i hi
    rw [bitAt_writeBit, if_neg (by omega)]
  · rw [hat, bitAt_writeBit, if_pos rfl]

end Owned

end Bits
