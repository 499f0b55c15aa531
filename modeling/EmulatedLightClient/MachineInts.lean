import EmulatedLightClient.ByteBits
import Mathlib.Order.Lattice
import Mathlib.Tactic.Ring

/-!
# Numbers of fixed width

Values are natural numbers below a power of two. A checked operation has no
value where the machine's result would not fit.
-/

namespace MachineInts

open ByteBits

/-! The widths of the machine have an instance each. -/

instance neZero_u16 : NeZero (2 ^ 16) := ⟨Nat.two_pow_pos 16 |>.ne'⟩

instance neZero_u32 : NeZero (2 ^ 32) := ⟨Nat.two_pow_pos 32 |>.ne'⟩

instance neZero_u64 : NeZero (2 ^ 64) := ⟨Nat.two_pow_pos 64 |>.ne'⟩

instance neZero_u128 : NeZero (2 ^ 128) := ⟨Nat.two_pow_pos 128 |>.ne'⟩

structure NonZero (w : Nat) where
  get : Nat
  pos : 0 < get
  lt : get < 2 ^ w

namespace NonZero

variable {w : Nat}

theorem get_injective : Function.Injective (NonZero.get (w := w)) := by
  rintro ⟨a, _, _⟩ ⟨b, _, _⟩ h
  cases h
  rfl

instance linearOrder : LinearOrder (NonZero w) := LinearOrder.lift' NonZero.get get_injective

def new (n : Fin (2 ^ w)) : Option (NonZero w) :=
  if h : 0 < n.val then some ⟨n.val, h, n.isLt⟩ else none

theorem new_eq_some {n : Fin (2 ^ w)} {a : NonZero w} (h : new n = some a) : a.get = n.val := by
  unfold new at h
  split at h
  · cases h
    rfl
  · cases h

theorem new_eq_none {n : Fin (2 ^ w)} (h : new n = none) : n.val = 0 := by
  unfold new at h
  split at h
  · cases h
  · omega

/-- The number, if it is in range. -/
def ofNum (n : Nat) : Option (NonZero w) :=
  if h : 0 < n ∧ n < 2 ^ w then some ⟨n, h.1, h.2⟩ else none

theorem ofNum_eq_some {n : Nat} {a : NonZero w} : ofNum n = some a ↔ n = a.get := by
  unfold ofNum
  split
  · constructor
    · intro h
      cases h
      rfl
    · rintro rfl
      rfl
  · rename_i h
    refine iff_of_false (Option.some_ne_none _).symm ?_
    rintro rfl
    exact h ⟨a.pos, a.lt⟩

theorem le_iff {a b : NonZero w} : a ≤ b ↔ a.get ≤ b.get := Iff.rfl

theorem lt_iff {a b : NonZero w} : a < b ↔ a.get < b.get := Iff.rfl

theorem get_max (a b : NonZero w) : (max a b).get = max a.get b.get := by
  rcases le_total a b with h | h
  · rw [max_eq_right h, max_eq_right (le_iff.mp h)]
  · rw [max_eq_left h, max_eq_left (le_iff.mp h)]

theorem get_min (a b : NonZero w) : (min a b).get = min a.get b.get := by
  rcases le_total a b with h | h
  · rw [min_eq_left h, min_eq_left (le_iff.mp h)]
  · rw [min_eq_right h, min_eq_right (le_iff.mp h)]

theorem clamp_pos (n : Nat) : 0 < min (max n 1) (2 ^ (w + 1) - 1) := by
  have := Nat.one_lt_two_pow (n := w + 1) (by omega)
  omega

theorem clamp_lt (n : Nat) : min (max n 1) (2 ^ (w + 1) - 1) < 2 ^ (w + 1) := by
  have := Nat.two_pow_pos (w + 1)
  omega

/-- The value closest to `n`. -/
def clamp (n : Nat) : NonZero (w + 1) := ⟨min (max n 1) (2 ^ (w + 1) - 1), clamp_pos n, clamp_lt n⟩

end NonZero

def checkedAdd (w a b : Nat) : Option Nat := if a + b < 2 ^ w then some (a + b) else none

def checkedMul (w a b : Nat) : Option Nat := if a * b < 2 ^ w then some (a * b) else none

def checkedSub (a b : Nat) : Option Nat := if b ≤ a then some (a - b) else none

/-- Adds a signed number to an unsigned one. -/
def checkedAddSigned (w a : Nat) (b : Int) : Option (Fin (2 ^ w)) :=
  let n := (a + b).toNat
  if a + b < 0 then none else if h : n < 2 ^ w then some ⟨n, h⟩ else none

theorem checkedAdd_eq_some {w a b n : Nat} :
    checkedAdd w a b = some n ↔ a + b < 2 ^ w ∧ a + b = n := by
  unfold checkedAdd
  split <;> simp [*]

theorem checkedSub_eq_some {a b n : Nat} : checkedSub a b = some n ↔ b ≤ a ∧ a - b = n := by
  unfold checkedSub
  split <;> simp [*]

theorem checkedAddSigned_eq_some {w a : Nat} {b : Int} {n : Fin (2 ^ w)} :
    checkedAddSigned w a b = some n ↔ (n.val : Int) = a + b := by
  unfold checkedAddSigned
  have hn := n.isLt
  simp only
  split
  · refine iff_of_false (fun h => by cases h) ?_
    omega
  · split
    · rw [Option.some.injEq, Fin.ext_iff]
      change (a + b).toNat = n.val ↔ _
      omega
    · refine iff_of_false (fun h => by cases h) ?_
      omega

/-- Adding one number at a time overflows if and only if the sum does not fit. -/
theorem foldlM_checkedAdd_eq_some {w : Nat} {l : List Nat} {a n : Nat} (ha : a < 2 ^ w) :
    l.foldlM (checkedAdd w) a = some n ↔ a + l.sum < 2 ^ w ∧ a + l.sum = n := by
  induction l generalizing a with
  | nil => simp [ha, eq_comm]
  | cons x l ih =>
    rw [List.foldlM_cons, List.sum_cons, ← Nat.add_assoc]
    by_cases hx : a + x < 2 ^ w
    · simp only [checkedAdd, hx, if_true]
      exact ih hx
    · simp only [checkedAdd, hx, if_false]
      constructor
      · intro h
        cases h
      · rintro ⟨h, -⟩
        omega

def leBytes (size n : Nat) : List Byte :=
  (List.range size).map fun i => BitVec.ofNat 8 (n / 256 ^ i)

@[simp] theorem length_leBytes (size n : Nat) : (leBytes size n).length = size := by
  simp [leBytes]

def ofLeBytes : List Byte → Nat
  | [] => 0
  | b :: bytes => b.toNat + 256 * ofLeBytes bytes

theorem leBytes_succ (size n : Nat) :
    leBytes (size + 1) n = BitVec.ofNat 8 n :: leBytes size (n / 256) := by
  unfold leBytes
  rw [List.range_succ_eq_map, List.map_cons, List.map_map, Nat.pow_zero, Nat.div_one]
  congr 1
  refine List.map_congr_left fun i _ => ?_
  rw [Function.comp_apply, Nat.succ_eq_add_one, Nat.pow_succ', Nat.div_div_eq_div_mul]

theorem ofLeBytes_leBytes {size n : Nat} (h : n < 256 ^ size) : ofLeBytes (leBytes size n) = n := by
  induction size generalizing n with
  | zero =>
    rw [Nat.pow_zero, Nat.lt_one_iff] at h
    rw [h]
    rfl
  | succ size ih =>
    rw [leBytes_succ, ofLeBytes, ih, BitVec.toNat_ofNat]
    · exact Nat.mod_add_div n 256
    · rw [Nat.div_lt_iff_lt_mul (by decide), ← Nat.pow_succ]
      exact h

theorem ofLeBytes_lt {bytes : List Byte} {size : Nat} (h : bytes.length ≤ size) : ofLeBytes bytes < 256 ^ size := by
  induction bytes generalizing size with
  | nil => exact Nat.pow_pos (by decide)
  | cons b bytes ih =>
    obtain ⟨size, rfl⟩ : ∃ n, size = n + 1 := ⟨size - 1, by rw [List.length_cons] at h; omega⟩
    have hlt := ih (Nat.le_of_succ_le_succ h)
    have hb := b.isLt
    rw [ofLeBytes, Nat.pow_succ]
    omega

theorem leBytes_ofLeBytes (bytes : List Byte) : leBytes bytes.length (ofLeBytes bytes) = bytes := by
  induction bytes with
  | nil => rfl
  | cons b bytes ih =>
    have hb := b.isLt
    have hdiv : ofLeBytes (b :: bytes) / 256 = ofLeBytes bytes := by
      rw [ofLeBytes]
      omega
    have hmod : BitVec.ofNat 8 (ofLeBytes (b :: bytes)) = b := by
      apply BitVec.eq_of_toNat_eq
      rw [BitVec.toNat_ofNat, ofLeBytes]
      omega
    rw [List.length_cons, leBytes_succ, hdiv, hmod, ih]

theorem ofLeBytes_inj {s t : List Byte} (hlength : s.length = t.length) (h : ofLeBytes s = ofLeBytes t) : s = t := by
  rw [← leBytes_ofLeBytes s, ← leBytes_ofLeBytes t, hlength, h]

theorem leBytes_inj {size m n : Nat} (hm : m < 256 ^ size) (hn : n < 256 ^ size)
    (h : leBytes size m = leBytes size n) : m = n := by
  rw [← ofLeBytes_leBytes hm, h, ofLeBytes_leBytes hn]

theorem ofLeBytes_append (s t : List Byte) : ofLeBytes (s ++ t) = ofLeBytes s + 256 ^ s.length * ofLeBytes t := by
  induction s with
  | nil => simp [ofLeBytes]
  | cons b s ih =>
    rw [List.cons_append, ofLeBytes, ofLeBytes, ih, List.length_cons, Nat.pow_succ']
    ring

/-- Less significant bytes come first. -/
theorem leBytes_add (k l n : Nat) : leBytes (k + l) n = leBytes k n ++ leBytes l (n / 256 ^ k) := by
  induction k generalizing n with
  | zero => simp [leBytes]
  | succ k ih =>
    rw [Nat.add_right_comm, leBytes_succ, leBytes_succ, ih, List.cons_append, Nat.div_div_eq_div_mul, Nat.pow_succ']

/-- With the most significant byte first. -/
def beBytes (size n : Nat) : List Byte := (leBytes size n).reverse

@[simp] theorem length_beBytes (size n : Nat) : (beBytes size n).length = size := by
  simp [beBytes]

theorem beBytes_inj {size m n : Nat} (hm : m < 256 ^ size) (hn : n < 256 ^ size)
    (h : beBytes size m = beBytes size n) : m = n :=
  leBytes_inj hm hn (List.reverse_injective h)

/-- The end of a serialised value can be told from what follows it. -/
def SelfDelimiting {α : Type} (serialize : α → List Byte) : Prop :=
  ∀ a b rest rest', serialize a ++ rest = serialize b ++ rest' → a = b ∧ rest = rest'

/-- Values of fixed size delimit themselves. -/
theorem SelfDelimiting.of_length {α : Type} {serialize : α → List Byte} {size : Nat}
    (hinj : Function.Injective serialize) (hsize : ∀ a, (serialize a).length = size) :
    SelfDelimiting serialize := by
  intro a b rest rest' h
  obtain ⟨hser, hrest⟩ := List.append_inj h ((hsize a).trans (hsize b).symm)
  exact ⟨hinj hser, hrest⟩

end MachineInts
