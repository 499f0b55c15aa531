import Mathlib.Algebra.Ring.Nat
import Mathlib.Data.List.Basic
import Mathlib.Tactic.Common

/-!
# Byte strings read as strings of bits

Bits are numbered from the most significant bit of the first byte. A window is
the list of bits between two positions; nothing here depends on what the bytes
outside of a window hold.
-/

namespace ByteBits

abbrev Byte := BitVec 8

/-- Bit number `i` of a byte string, `false` past its end. -/
def bitAt (bytes : List Byte) (i : Nat) : Bool :=
  (bytes.getD (i / 8) 0#8).getMsbD (i % 8)

def window (bytes : List Byte) (start len : Nat) : List Bool :=
  (List.range len).map fun i => bitAt bytes (start + i)

@[simp] theorem length_window (bytes : List Byte) (start len : Nat) :
    (window bytes start len).length = len := by
  simp [window]

@[simp] theorem getElem_window (bytes : List Byte) (start len i : Nat)
    (h : i < (window bytes start len).length) :
    (window bytes start len)[i] = bitAt bytes (start + i) := by
  simp [window]

theorem window_ext {as bs : List Byte} {s t len : Nat} :
    window as s len = window bs t len ↔
      ∀ i, i < len → bitAt as (s + i) = bitAt bs (t + i) := by
  simp [window]

@[simp] theorem window_zero (bytes : List Byte) (start : Nat) :
    window bytes start 0 = [] := rfl

theorem window_succ (bytes : List Byte) (start len : Nat) :
    window bytes start (len + 1) = bitAt bytes start :: window bytes (start + 1) len := by
  simp only [window, List.range_succ_eq_map, List.map_cons, List.map_map, Nat.add_zero]
  congr 1
  apply List.map_congr_left
  intro i _
  simp [Nat.add_assoc, Nat.add_comm 1]

theorem window_one (bytes : List Byte) (start : Nat) :
    window bytes start 1 = [bitAt bytes start] := rfl

theorem window_append (bytes : List Byte) (start m n : Nat) :
    window bytes start (m + n) = window bytes start m ++ window bytes (start + m) n := by
  induction m generalizing start with
  | zero => simp
  | succ m ih =>
    rw [show m + 1 + n = m + n + 1 by omega, window_succ, window_succ, ih,
      List.cons_append, show start + 1 + m = start + (m + 1) by omega]

theorem window_eq_nil {bytes : List Byte} {start len : Nat} :
    window bytes start len = [] ↔ len = 0 := by
  rw [← List.length_eq_zero_iff, length_window]

theorem bitAt_drop (bytes : List Byte) (q i : Nat) :
    bitAt (bytes.drop q) i = bitAt bytes (8 * q + i) := by
  have hd : (8 * q + i) / 8 = q + i / 8 := by omega
  have hm : (8 * q + i) % 8 = i % 8 := by omega
  simp [bitAt, hd, hm, List.getElem?_drop]

theorem bitAt_take (bytes : List Byte) {q i : Nat} (h : i < 8 * q) :
    bitAt (bytes.take q) i = bitAt bytes i := by
  have hq : i / 8 < q := by omega
  simp [bitAt, hq]

theorem bitAt_append_left (as bs : List Byte) {i : Nat} (h : i < 8 * as.length) :
    bitAt (as ++ bs) i = bitAt as i := by
  have hq : i / 8 < as.length := by omega
  simp [bitAt, List.getElem?_append_left hq]

theorem bitAt_append_right (as bs : List Byte) (i : Nat) :
    bitAt (as ++ bs) (8 * as.length + i) = bitAt bs i := by
  have hd : (8 * as.length + i) / 8 = as.length + i / 8 := by omega
  have hm : (8 * as.length + i) % 8 = i % 8 := by omega
  simp [bitAt, hd, hm, List.getElem?_append_right]

theorem bitAt_cons_head (b : Byte) (bs : List Byte) {i : Nat} (h : i < 8) :
    bitAt (b :: bs) i = b.getMsbD i := by
  have hd : i / 8 = 0 := by omega
  have hm : i % 8 = i := by omega
  simp [bitAt, hd, hm]

theorem bitAt_cons_tail (b : Byte) (bs : List Byte) (i : Nat) :
    bitAt (b :: bs) (8 + i) = bitAt bs i := by
  have hd : (8 + i) / 8 = i / 8 + 1 := by omega
  have hm : (8 + i) % 8 = i % 8 := by omega
  simp [bitAt, hd, hm]

theorem bitAt_past_end {bytes : List Byte} {i : Nat} (h : 8 * bytes.length ≤ i) :
    bitAt bytes i = false := by
  have hq : bytes.length ≤ i / 8 := by omega
  simp [bitAt, List.getElem?_eq_none hq]

theorem bitAt_of_lt (bytes : List Byte) {q t : Nat} (hq : q < bytes.length) (ht : t < 8) :
    bitAt bytes (8 * q + t) = bytes[q].getMsbD t := by
  have hd : (8 * q + t) / 8 = q := by omega
  have hm : (8 * q + t) % 8 = t := by omega
  simp [bitAt, hd, hm, List.getElem?_eq_getElem hq]

/-- Two byte strings of one length are equal once all their bits are. -/
theorem eq_of_bitAt {as bs : List Byte} (hlen : as.length = bs.length)
    (h : ∀ i, i < 8 * as.length → bitAt as i = bitAt bs i) : as = bs := by
  apply List.ext_getElem hlen
  intro q ha hb
  apply BitVec.eq_of_getMsbD_eq
  intro t ht
  rw [← bitAt_of_lt as ha ht, ← bitAt_of_lt bs hb ht]
  exact h _ (by omega)

theorem drop_window (bytes : List Byte) (start len n : Nat) (h : n ≤ len) :
    (window bytes start len).drop n = window bytes (start + n) (len - n) := by
  obtain ⟨m, rfl⟩ := Nat.exists_eq_add_of_le h
  rw [window_append, List.drop_left' (length_window _ _ _)]
  simp

theorem take_window (bytes : List Byte) (start len n : Nat) (h : n ≤ len) :
    (window bytes start len).take n = window bytes start n := by
  obtain ⟨m, rfl⟩ := Nat.exists_eq_add_of_le h
  rw [window_append, List.take_left' (length_window _ _ _)]

/-- Moving the start of a window by whole bytes. -/
theorem window_drop (bytes : List Byte) (q start len : Nat) :
    window (bytes.drop q) start len = window bytes (8 * q + start) len := by
  rw [window_ext]
  intro i _
  rw [bitAt_drop, Nat.add_assoc]

theorem window_take (bytes : List Byte) {q start len : Nat} (h : start + len ≤ 8 * q) :
    window (bytes.take q) start len = window bytes start len := by
  rw [window_ext]
  intro i hi
  exact bitAt_take bytes (by omega)

def byteOf (f : Nat → Bool) : Byte :=
  BitVec.ofBoolListBE [f 0, f 1, f 2, f 3, f 4, f 5, f 6, f 7]

@[simp] theorem getMsbD_byteOf (f : Nat → Bool) {t : Nat} (h : t < 8) :
    (byteOf f).getMsbD t = f t := by
  rw [byteOf, BitVec.getMsbD_ofBoolListBE]
  match t, h with
  | 0, _ | 1, _ | 2, _ | 3, _ | 4, _ | 5, _ | 6, _ | 7, _ => rfl

/-- The `n`-byte string whose bit number `i` is `f i`. -/
def pack (n : Nat) (f : Nat → Bool) : List Byte :=
  (List.range n).map fun q => byteOf fun t => f (8 * q + t)

@[simp] theorem length_pack (n : Nat) (f : Nat → Bool) : (pack n f).length = n := by
  simp [pack]

theorem bitAt_pack (n : Nat) (f : Nat → Bool) {i : Nat} (h : i < 8 * n) :
    bitAt (pack n f) i = f i := by
  have hq : i / 8 < (pack n f).length := by rw [length_pack]; omega
  have hi : 8 * (i / 8) + i % 8 = i := by omega
  have ht : i % 8 < 8 := by omega
  rw [← hi, bitAt_of_lt _ hq ht]
  simp [pack, ht, hi]

def bitsOf (bytes : List Byte) : List Bool := window bytes 0 (bytes.length * 8)

@[simp] theorem length_bitsOf (bytes : List Byte) : (bitsOf bytes).length = bytes.length * 8 :=
  length_window ..

theorem bitsOf_injective : Function.Injective bitsOf := by
  intro as bs h
  have hlen : as.length = bs.length := by
    have := congrArg List.length h
    simp only [length_bitsOf] at this
    omega
  apply eq_of_bitAt hlen
  intro i hi
  unfold bitsOf at h
  rw [hlen, window_ext] at h
  simpa using h i (by omega)

theorem bitsOf_append (as bs : List Byte) : bitsOf (as ++ bs) = bitsOf as ++ bitsOf bs := by
  unfold bitsOf
  rw [List.length_append, Nat.add_mul, window_append]
  congr 1
  · rw [window_ext]
    intro i hi
    exact bitAt_append_left _ _ (by omega)
  · rw [window_ext]
    intro i hi
    rw [Nat.zero_add, Nat.zero_add, Nat.mul_comm, bitAt_append_right]

/-- Every bit string of whole bytes is one of a byte string. -/
theorem exists_bitsOf {bits : List Bool} (h : 8 ∣ bits.length) : ∃ bytes, bitsOf bytes = bits := by
  obtain ⟨n, hn⟩ := h
  refine ⟨pack n fun i => bits.getD i false, ?_⟩
  apply List.ext_getElem
  · simp [hn, Nat.mul_comm]
  · intro i h1 h2
    have hg : (bitsOf (pack n fun i => bits.getD i false))[i] =
        bitAt (pack n fun i => bits.getD i false) (0 + i) := getElem_window ..
    rw [hg, Nat.zero_add, bitAt_pack _ _ (by omega), List.getD_eq_getElem?_getD,
      List.getElem?_eq_getElem h2, Option.getD_some]

theorem prefix_bitsOf_iff {as bs : List Byte} : bitsOf as <+: bitsOf bs ↔ as <+: bs := by
  constructor
  · rintro ⟨rest, h⟩
    have hlen := congrArg List.length h
    simp only [List.length_append, length_bitsOf] at hlen
    have hdvd : 8 ∣ rest.length := by omega
    obtain ⟨cs, rfl⟩ := exists_bitsOf hdvd
    rw [← bitsOf_append] at h
    exact ⟨cs, bitsOf_injective h⟩
  · rintro ⟨cs, rfl⟩
    exact ⟨bitsOf cs, (bitsOf_append as cs).symm⟩

theorem getMsbD_ff {t : Nat} (h : t < 8) : (0xFF#8).getMsbD t = true := by
  match t, h with
  | 0, _ | 1, _ | 2, _ | 3, _ | 4, _ | 5, _ | 6, _ | 7, _ => rfl

theorem getMsbD_ff_shiftRight (o : Nat) {t : Nat} (h : t < 8) :
    (0xFF#8 >>> o).getMsbD t = decide (o ≤ t) := by
  rw [BitVec.getMsbD_ushiftRight]
  by_cases ho : o ≤ t
  · simp [h, ho, getMsbD_ff (show t - o < 8 by omega)]
  · simp [ho, Nat.lt_of_not_le ho]

theorem getMsbD_ff_shiftLeft (o : Nat) (t : Nat) :
    (0xFF#8 <<< o).getMsbD t = decide (t + o < 8) := by
  rw [BitVec.getMsbD_shiftLeft]
  by_cases ho : t + o < 8
  · simp [ho, getMsbD_ff ho]
  · simp [ho, BitVec.getMsbD_of_ge _ _ (Nat.le_of_not_lt ho)]

theorem eq_zero_iff_getMsbD (b : Byte) : b = 0#8 ↔ ∀ t, t < 8 → b.getMsbD t = false := by
  constructor
  · rintro rfl t _
    simp
  · intro h
    apply BitVec.eq_of_getMsbD_eq
    intro t ht
    simp [h t ht]

/-- A masked exclusive or vanishes when the bytes agree under the mask. -/
theorem xor_and_eq_zero (a b m : Byte) :
    (a ^^^ b) &&& m = 0#8 ↔
      ∀ t, t < 8 → m.getMsbD t = true → a.getMsbD t = b.getMsbD t := by
  rw [eq_zero_iff_getMsbD]
  apply forall_congr'
  intro t
  apply forall_congr'
  intro _
  rw [BitVec.getMsbD_and, BitVec.getMsbD_xor]
  cases a.getMsbD t <;> cases b.getMsbD t <;> cases m.getMsbD t <;> simp

theorem and_bit_ne_zero (b : Byte) (o : Fin 8) :
    ((b &&& (0x80#8 >>> o.val)) != 0#8) = b.getMsbD o.val := by
  revert b o
  decide +kernel

end ByteBits
