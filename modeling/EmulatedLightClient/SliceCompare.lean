import EmulatedLightClient.Bits
import EmulatedLightClient.ListPrefix

/-!
# Comparing slices byte by byte

Equality and the common prefix of two slices are computed on whole bytes with
masks for the partial ones. Both agree with the comparison of the bits.
-/

namespace Bits

open ByteBits ListPrefix

namespace Slice

theorem bitAt_getD (bytes : List Byte) (q : Nat) {t : Nat} (h : t < 8) :
    bitAt bytes (8 * q + t) = (bytes.getD q 0#8).getMsbD t := by
  have hd : (8 * q + t) / 8 = q := by omega
  have hm : (8 * q + t) % 8 = t := by omega
  rw [bitAt, hd, hm]

/-- Two windows agree when they agree within each byte. -/
theorem window_eq_iff_bytes (as bs : List Byte) (o n : Nat) :
    window as o n = window bs o n ↔ ∀ q t, t < 8 → o ≤ 8 * q + t → 8 * q + t < o + n →
      (as.getD q 0#8).getMsbD t = (bs.getD q 0#8).getMsbD t := by
  rw [window_ext]
  constructor
  · intro h q t ht hlo hhi
    have hi := h (8 * q + t - o) (by omega)
    rw [show o + (8 * q + t - o) = 8 * q + t by omega] at hi
    rwa [bitAt_getD _ _ ht, bitAt_getD _ _ ht] at hi
  · intro h i hi
    have hsplit : o + i = 8 * ((o + i) / 8) + (o + i) % 8 := by omega
    have ht : (o + i) % 8 < 8 := by omega
    rw [hsplit, bitAt_getD _ _ ht, bitAt_getD _ _ ht]
    exact h _ _ ht (by omega) (by omega)

theorem front_mask (offset : U3) (length : Nat) {t : Nat} (h : t < 8) :
    (masks offset length).1.getMsbD t = decide (offset.val ≤ t) :=
  getMsbD_ff_shiftRight _ h

theorem back_mask (offset : U3) {length : Nat} (hpos : length ≠ 0) {t : Nat} (h : t < 8) :
    (masks offset length).2.getMsbD t =
      decide (8 * (bytesLen offset length - 1) + t < offset.val + length) := by
  rw [bytesLen_of_pos _ hpos]
  simp only [masks, getMsbD_ff_shiftLeft, U3.val_neg, U3.val_wrappingAdd, decide_eq_decide]
  omega

theorem middle_eq_iff {as bs : List Byte} {n : Nat} (ha : as.length = n)
    (hb : bs.length = n) :
    (as.take (n - 1)).drop 1 = (bs.take (n - 1)).drop 1 ↔
      ∀ q, 1 ≤ q → q < n - 1 → as.getD q 0#8 = bs.getD q 0#8 := by
  constructor
  · intro h q h1 h2
    obtain ⟨q, rfl⟩ := Nat.exists_eq_add_of_le' h1
    have hq := congrArg (fun l => l.getD q 0#8) h
    simpa [List.getElem?_take, h2] using hq
  · intro h
    apply List.ext_getElem
    · simp [ha, hb]
    · intro i hi hi'
      have hi2 : i + 1 < n - 1 := by simp at hi; omega
      have hq := h (i + 1) (by omega) hi2
      have hai : i + 1 < as.length := by omega
      have hbi : i + 1 < bs.length := by omega
      simpa [List.getElem?_eq_getElem hai, List.getElem?_eq_getElem hbi] using hq

theorem eqBytes_iff {offset : U3} {length : Nat} (hpos : length ≠ 0) {lhs rhs : List Byte}
    (hl : lhs.length = bytesLen offset length) (hr : rhs.length = bytesLen offset length) :
    eqBytes offset length lhs rhs = true ↔
      window lhs offset.val length = window rhs offset.val length := by
  have hval := bytesLen_of_pos offset hpos
  have hlt := offset.isLt
  rw [window_eq_iff_bytes]
  by_cases h1 : bytesLen offset length = 1
  · simp only [eqBytes, hl, h1, if_true, beq_iff_eq]
    rw [BitVec.and_assoc, xor_and_eq_zero]
    constructor
    · intro h q t ht hlo hhi
      have hq : q = 0 := by omega
      subst hq
      apply h t ht
      rw [BitVec.getMsbD_and, front_mask _ _ ht, back_mask _ hpos ht, h1]
      simp only [Bool.and_eq_true, decide_eq_true_eq]
      omega
    · intro h t ht hm
      rw [BitVec.getMsbD_and, front_mask _ _ ht, back_mask _ hpos ht, h1] at hm
      simp only [Bool.and_eq_true, decide_eq_true_eq] at hm
      exact h 0 t ht (by omega) (by omega)
  · simp only [eqBytes, hl, h1, if_false, Bool.and_eq_true, beq_iff_eq]
    rw [xor_and_eq_zero, xor_and_eq_zero, middle_eq_iff hl hr]
    constructor
    · rintro ⟨⟨hfirst, hlast⟩, hmid⟩ q t ht hlo hhi
      by_cases hq0 : q = 0
      · subst hq0
        apply hfirst t ht
        rw [front_mask _ _ ht, decide_eq_true_eq]
        omega
      by_cases hqc : q = bytesLen offset length - 1
      · rw [hqc]
        apply hlast t ht
        rw [back_mask _ hpos ht, ← hqc, decide_eq_true_eq]
        exact hhi
      · rw [hmid q (by omega) (by omega)]
    · intro h
      refine ⟨⟨?_, ?_⟩, ?_⟩
      · intro t ht hm
        rw [front_mask _ _ ht, decide_eq_true_eq] at hm
        exact h 0 t ht (by omega) (by omega)
      · intro t ht hm
        rw [back_mask _ hpos ht, decide_eq_true_eq] at hm
        exact h _ t ht (by omega) hm
      · intro q hq1 hq2
        apply BitVec.eq_of_getMsbD_eq
        intro t ht
        exact h q t ht (by omega) (by omega)

/-- `PartialEq` of slices compares offsets and bits. -/
theorem eq_iff {lhs rhs : Slice} :
    lhs.eq rhs = true ↔ lhs.offset = rhs.offset ∧ lhs.bits = rhs.bits := by
  by_cases ho : lhs.offset = rhs.offset
  swap
  · simp [eq, ho]
  by_cases hn : lhs.length = rhs.length
  swap
  · have hne : lhs.bits ≠ rhs.bits := fun h => hn (by rw [← length_bits, h, length_bits])
    simp [eq, hn, hne]
  by_cases hpos : lhs.length = 0
  · have hl : lhs.bits = [] := bits_eq_nil.mpr hpos
    have hr : rhs.bits = [] := bits_eq_nil.mpr (hn ▸ hpos)
    simp [eq, ho, ← hn, hpos, hl, hr]
  have he : lhs.eq rhs = eqBytes lhs.offset lhs.length lhs.bytes rhs.bytes := by
    simp [eq, ho, hn, hn ▸ hpos]
  have hr : rhs.bytes.length = bytesLen lhs.offset lhs.length := by
    rw [length_bytes, ho, hn]
  rw [he, eqBytes_iff hpos lhs.length_bytes hr, window_bytes, ho, hn, window_bytes]
  simp

theorem stripPrefix_spec {s pre : Slice} {s' : Slice} (h : s.stripPrefix pre = some s') :
    s.offset = pre.offset ∧ s.bits = pre.bits ++ s'.bits ∧
      s'.offset.val = (s.offset.val + pre.length) % 8 := by
  unfold stripPrefix at h
  split at h
  swap
  · cases h
  rename_i ho
  split at h
  swap
  · cases h
  rename_i hd tl hs
  split at h
  swap
  · cases h
  rename_i heq
  cases h
  have hle : pre.length ≤ s.length := by have := splitAt_length hs; omega
  obtain ⟨l, r, hs', hl, -, hr, hro⟩ := splitAt_spec hle
  rw [hs'] at hs
  cases hs
  refine ⟨ho, ?_, hro⟩
  rw [← (eq_iff.mp heq).2, hl, hr, List.take_append_drop]

theorem stripPrefix_of_append {s pre : Slice} {rest : List Bool} (ho : s.offset = pre.offset)
    (h : s.bits = pre.bits ++ rest) : ∃ s', s.stripPrefix pre = some s' ∧ s'.bits = rest ∧
      s'.offset.val = (s.offset.val + pre.length) % 8 := by
  have hlen : s.length = pre.length + rest.length := by
    rw [← length_bits, h, List.length_append, length_bits]
  obtain ⟨l, r, hs, hl, hlo, hr, hro⟩ := splitAt_spec (show pre.length ≤ s.length by omega)
  have heq : l.eq pre = true := by
    rw [eq_iff, hlo, hl, h]
    exact ⟨ho, List.take_left' (length_bits pre)⟩
  refine ⟨r, ?_, ?_, hro⟩
  · rw [stripPrefix, if_pos ho, hs]
    simp [heq]
  · rw [hr, h, List.drop_left' (length_bits pre)]

theorem stripPrefix_none {s pre : Slice} (ho : s.offset = pre.offset) :
    s.stripPrefix pre = none ↔ ¬ pre.bits <+: s.bits := by
  constructor
  · rintro h ⟨rest, hrest⟩
    obtain ⟨s', hs, -⟩ := stripPrefix_of_append ho hrest.symm
    rw [h] at hs
    cases hs
  · intro h
    cases hs : s.stripPrefix pre with
    | none => rfl
    | some s' => exact absurd ⟨s'.bits, (stripPrefix_spec hs).2.1.symm⟩ h

theorem stripPrefix_length {s pre s' : Slice} (h : s.stripPrefix pre = some s') :
    pre.length + s'.length = s.length := by
  rw [← length_bits s, (stripPrefix_spec h).2.1, List.length_append, length_bits, length_bits]

theorem startsWith_iff {s pre : Slice} :
    s.startsWith pre = true ↔ s.offset = pre.offset ∧ pre.bits <+: s.bits := by
  have hstrip : s.startsWith pre = (s.stripPrefix pre).isSome := by
    unfold startsWith stripPrefix
    by_cases ho : s.offset = pre.offset
    · cases hs : s.splitAt pre.length with
      | none => simp [ho]
      | some p => cases he : p.1.eq pre <;> simp [ho, he]
    · simp [ho]
  rw [hstrip]
  cases hs : s.stripPrefix pre with
  | some s' =>
    have hp := stripPrefix_spec hs
    simp only [Option.isSome_some, true_iff]
    exact ⟨hp.1, s'.bits, hp.2.1.symm⟩
  | none =>
    simp only [Option.isSome_none, Bool.false_eq_true, false_iff, not_and]
    exact fun ho => (stripPrefix_none ho).mp hs

theorem leadingZeros_spec (b : Byte) (hb : b ≠ 0#8) :
    leadingZeros b < 8 ∧ b.getMsbD (leadingZeros b) = true ∧
      ∀ t : Fin 8, t.val < leadingZeros b → b.getMsbD t.val = false := by
  revert b
  decide

/-- Position of the first differing bit of two byte strings. -/
structure FirstDiff (o : Nat) (as bs : List Byte) (n : Nat) : Prop where
  start : o ≤ n
  agree : ∀ j, o ≤ j → j < n → bitAt as j = bitAt bs j
  differ : n < 8 * as.length → bitAt as n ≠ bitAt bs n

theorem xor_leadingZeros {a b : Byte} (h : a ≠ b) :
    leadingZeros (a ^^^ b) < 8 ∧
      a.getMsbD (leadingZeros (a ^^^ b)) ≠ b.getMsbD (leadingZeros (a ^^^ b)) ∧
      ∀ t, t < leadingZeros (a ^^^ b) → a.getMsbD t = b.getMsbD t := by
  have hne : a ^^^ b ≠ 0#8 := fun he => h (BitVec.xor_eq_zero_iff.mp he)
  obtain ⟨hlt, hset, hclear⟩ := leadingZeros_spec _ hne
  refine ⟨hlt, ?_, ?_⟩
  · intro he
    rw [BitVec.getMsbD_xor, he] at hset
    simp at hset
  · intro t ht
    have := hclear ⟨t, by omega⟩ ht
    rw [BitVec.getMsbD_xor] at this
    simpa using this

/-- The first byte decides where it differs past the offset. -/
theorem firstDiff_head (offset : U3) {l r : Byte} (lhs rhs : List Byte)
    (hfst : (l ^^^ r) &&& (0xFF#8 >>> offset.val) ≠ 0#8) :
    FirstDiff offset.val (l :: lhs) (r :: rhs)
      (leadingZeros ((l ^^^ r) &&& (0xFF#8 >>> offset.val))) := by
  obtain ⟨hlt, hset, hclear⟩ := leadingZeros_spec _ hfst
  rw [BitVec.getMsbD_and, getMsbD_ff_shiftRight _ hlt, BitVec.getMsbD_xor,
    Bool.and_eq_true, decide_eq_true_eq] at hset
  refine ⟨hset.2, ?_, ?_⟩
  · intro j hj hjn
    have hj8 : j < 8 := by omega
    have hc := hclear ⟨j, hj8⟩ hjn
    rw [BitVec.getMsbD_and, getMsbD_ff_shiftRight _ hj8, BitVec.getMsbD_xor] at hc
    rw [bitAt_cons_head _ _ hj8, bitAt_cons_head _ _ hj8]
    simpa [hj] using hc
  · intro _
    rw [bitAt_cons_head _ _ hlt, bitAt_cons_head _ _ hlt]
    simpa using hset.1

/-- The other bytes decide where the first one does not. -/
theorem FirstDiff.cons {offset : U3} {l r : Byte} {lhs rhs : List Byte} {n : Nat}
    (h : FirstDiff 0 lhs rhs n) (hfst : (l ^^^ r) &&& (0xFF#8 >>> offset.val) = 0#8) :
    FirstDiff offset.val (l :: lhs) (r :: rhs) (8 + n) := by
  have ho := offset.isLt
  refine ⟨by omega, ?_, ?_⟩
  · intro j hj hjn
    by_cases hj8 : j < 8
    · rw [bitAt_cons_head _ _ hj8, bitAt_cons_head _ _ hj8]
      exact (xor_and_eq_zero _ _ _).mp hfst j hj8
        (by rw [getMsbD_ff_shiftRight _ hj8, decide_eq_true_eq]; exact hj)
    · obtain ⟨i, rfl⟩ := Nat.exists_eq_add_of_le (Nat.le_of_not_lt hj8)
      rw [bitAt_cons_tail, bitAt_cons_tail]
      exact h.agree i (Nat.zero_le i) (by omega)
  · intro hn
    rw [List.length_cons] at hn
    rw [bitAt_cons_tail, bitAt_cons_tail]
    exact h.differ (by omega)

theorem bitAt_eq_of_bytes {lhs rhs : List Byte} {n : Nat}
    (hpre : ∀ q, q < n → lhs.getD q 0#8 = rhs.getD q 0#8) {i : Nat} (hi : i < n * 8) :
    bitAt lhs i = bitAt rhs i := by
  rw [bitAt, bitAt, hpre (i / 8) (by omega)]

theorem firstDiff_byte {lhs rhs : List Byte} {n : Nat}
    (hpre : ∀ q, q < n → lhs.getD q 0#8 = rhs.getD q 0#8)
    (hne : lhs.getD n 0#8 ≠ rhs.getD n 0#8) :
    FirstDiff 0 lhs rhs (n * 8 + leadingZeros (lhs.getD n 0#8 ^^^ rhs.getD n 0#8)) := by
  obtain ⟨hlt, hset, hclear⟩ := xor_leadingZeros hne
  rw [Nat.mul_comm]
  refine ⟨Nat.zero_le _, ?_, ?_⟩
  · intro j _ hj
    by_cases hjn : j < n * 8
    · exact bitAt_eq_of_bytes hpre hjn
    · obtain ⟨t, rfl⟩ := Nat.exists_eq_add_of_le (Nat.le_of_not_lt hjn)
      have ht8 : t < 8 := by omega
      rw [Nat.mul_comm, bitAt_getD _ _ ht8, bitAt_getD _ _ ht8]
      exact hclear t (by omega)
  · intro _
    rw [bitAt_getD _ _ hlt, bitAt_getD _ _ hlt]
    exact hset

theorem totalBitsMatched_spec (offset : U3) (l r : Byte) {lhs rhs : List Byte}
    (hlen : lhs.length = rhs.length) :
    FirstDiff offset.val (l :: lhs) (r :: rhs) (totalBitsMatched offset l r lhs rhs) := by
  by_cases hfst : (l ^^^ r) &&& (0xFF#8 >>> offset.val) = 0#8
  swap
  · simp only [totalBitsMatched, ne_eq, hfst, not_false_eq_true, if_true]
    exact firstDiff_head offset lhs rhs hfst
  have hzip : (lhs.zip rhs).length = lhs.length := by simp [hlen]
  have hget : ∀ (q : Nat) (h : q < (lhs.zip rhs).length),
      (lhs.zip rhs)[q] = (lhs.getD q 0#8, rhs.getD q 0#8) := by
    intro q h
    have hl : q < lhs.length := by omega
    have hr : q < rhs.length := by omega
    simp [List.getElem_zip, List.getElem?_eq_getElem hl, List.getElem?_eq_getElem hr]
  cases hfind : (lhs.zip rhs).findIdx? fun p => p.1 != p.2 with
  | some n =>
    obtain ⟨hn, hdiff, hbefore⟩ := List.findIdx?_eq_some_iff_getElem.mp hfind
    rw [hget n hn] at hdiff
    have hne : lhs.getD n 0#8 ≠ rhs.getD n 0#8 := by simpa using hdiff
    have hpre : ∀ q, q < n → lhs.getD q 0#8 = rhs.getD q 0#8 := by
      intro q hq
      have := hbefore q hq
      rw [hget q (by omega)] at this
      simpa using this
    simp only [totalBitsMatched, ne_eq, hfst, not_true_eq_false, if_false, hfind, Nat.add_assoc]
    exact (firstDiff_byte hpre hne).cons hfst
  | none =>
    have hall := List.findIdx?_eq_none_iff.mp hfind
    have hpre : ∀ q, q < lhs.length → lhs.getD q 0#8 = rhs.getD q 0#8 := by
      intro q hq
      have := hall _ (List.getElem_mem (show q < (lhs.zip rhs).length by omega))
      rw [hget q (by omega)] at this
      simpa using this
    simp only [totalBitsMatched, ne_eq, hfst, not_true_eq_false, if_false, hfind]
    have hsame : FirstDiff 0 lhs rhs (lhs.length * 8) :=
      ⟨Nat.zero_le _, fun _ _ hj => bitAt_eq_of_bytes hpre hj, fun h => by omega⟩
    exact hsame.cons hfst

theorem commonBits_spec {offset : U3} {m : Nat} {as bs : List Byte} (hm : 0 < m)
    (hlen : as.length = bs.length) (hcover : offset.val + m ≤ 8 * as.length) :
    commonBits offset (m + offset.val) as bs =
      (commonPrefix (window as offset.val m) (window bs offset.val m)).length := by
  match as, bs with
  | [], _ => simp at hcover; omega
  | _ :: _, [] => simp at hlen
  | l :: lhs, r :: rhs =>
    have hdiff := totalBitsMatched_spec offset l r (Nat.succ.inj hlen)
    have hstart := hdiff.start
    have hget : ∀ (bytes : List Byte) (i : Nat), i < m →
        (window bytes offset.val m)[i]? = some (bitAt bytes (offset.val + i)) := by
      intro bytes i hi
      rw [List.getElem?_eq_getElem (by simpa using hi), getElem_window]
    simp only [commonBits]
    symm
    apply length_commonPrefix
    · rw [length_window]; omega
    · rw [length_window]; omega
    · intro i hi
      rw [hget _ i (by omega), hget _ i (by omega),
        hdiff.agree (offset.val + i) (by omega) (by omega)]
    · intro hi _
      rw [length_window] at hi
      rw [hget _ _ hi, hget _ _ hi]
      have hn : offset.val + (min (totalBitsMatched offset l r lhs rhs) (m + offset.val) -
        offset.val) = totalBitsMatched offset l r lhs rhs := by omega
      rw [hn]
      exact fun he => hdiff.differ (by omega) (Option.some.inj he)

/-- The common prefix reaches no further than the shorter of the lists. -/
theorem commonPrefix_take {as bs : List Bool} {m : Nat} (h : m = min as.length bs.length) :
    commonPrefix (as.take m) (bs.take m) = commonPrefix as bs := by
  induction as generalizing bs m with
  | nil => simp
  | cons a as ih =>
    cases bs with
    | nil => simp
    | cons b bs =>
      have hm : m = min as.length bs.length + 1 := by
        rw [h, List.length_cons, List.length_cons, Nat.succ_min_succ]
      rw [hm, List.take_succ_cons, List.take_succ_cons, commonPrefix_cons, commonPrefix_cons, ih rfl]

theorem commonLength_spec {s other : Slice} (ho : s.offset = other.offset)
    (hs : s.length ≠ 0) (hother : other.length ≠ 0) :
    s.commonLength other = some (commonPrefix s.bits other.bits).length := by
  have hls : s.bytes.length = (s.offset.val + s.length + 7) / 8 := by
    rw [length_bytes, bytesLen_of_pos _ hs]
  have hlo : other.bytes.length = (s.offset.val + other.length + 7) / 8 := by
    rw [length_bytes, bytesLen_of_pos _ hother, ho]
  have hm : min s.length other.length = min s.bits.length other.bits.length := by
    rw [length_bits, length_bits]
  have hwindow : ∀ (t : Slice) (count : Nat), t.offset = s.offset →
      min s.length other.length ≤ t.length →
      s.offset.val + min s.length other.length ≤ 8 * count →
      window (t.bytes.take count) s.offset.val (min s.length other.length) =
        t.bits.take (min s.length other.length) := by
    intro t count hto htl hcover
    rw [window_take _ hcover, ← window_bytes t, take_window _ _ _ _ htl, hto]
  simp only [commonLength, ne_eq, ho, not_true_eq_false, if_false]
  rw [← ho, if_neg (by omega), commonBits_spec (by omega)]
  · rw [hwindow s _ rfl (Nat.min_le_left _ _) (by omega),
      hwindow other _ ho.symm (Nat.min_le_right _ _) (by omega), commonPrefix_take hm]
  · simp only [List.length_take]
    omega
  · simp only [List.length_take]
    omega

/-- Missing extension keys stand for empty bit strings. -/
def KeyOf (key : Option ExtKey) (offset : Nat) (bits : List Bool) : Prop :=
  match key with
  | none => bits = []
  | some key => key.bits = bits ∧ key.offset.val = offset % 8

end Slice

theorem ExtKey.bits_ne_nil (key : ExtKey) : key.bits ≠ [] :=
  fun h => key.nonempty (Slice.bits_eq_nil.mp h)

theorem ExtKey.tryFrom_toOption {slice : Slice}
    (hfits : bytesLen slice.offset slice.length ≤ maxExtensionKeySize) :
    Slice.KeyOf (ExtKey.tryFrom slice).toOption slice.offset.val slice.bits := by
  unfold ExtKey.tryFrom
  by_cases h : slice.length = 0
  · simp [h, Except.toOption, Slice.KeyOf, Slice.bits_eq_nil]
  · have hlt := slice.offset.isLt
    simp [h, Nat.not_lt.mpr hfits, Except.toOption, Slice.KeyOf, ExtKey.bits, ExtKey.offset,
      Nat.mod_eq_of_lt hlt]

namespace Slice

theorem bytesLen_rest_le (offset : U3) {n length : Nat} (h : n ≤ length) :
    bytesLen (U3.wrappingAdd offset n) (length - n) ≤ bytesLen offset length := by
  by_cases hz : length - n = 0
  · simp [hz, bytesLen]
  · rw [bytesLen_of_pos _ hz, bytesLen_of_pos _ (show length ≠ 0 by omega), U3.val_wrappingAdd]
    have := offset.isLt
    omega

/-- On a non-empty slice at the key's offset the split is at the longest common
prefix of the bits. -/
theorem forwardCommonPrefix_spec {s : Slice} {key : ExtKey} (ho : s.offset = key.offset)
    (hs : s.bits ≠ []) :
    ∃ pre suf s', s.forwardCommonPrefix key = some (pre, suf, s') ∧
      KeyOf pre s.offset.val (commonPrefix s.bits key.bits) ∧
      KeyOf suf (s.offset.val + (commonPrefix s.bits key.bits).length)
        (key.bits.drop (commonPrefix s.bits key.bits).length) ∧
      s'.bits = s.bits.drop (commonPrefix s.bits key.bits).length ∧
      s'.offset.val = (s.offset.val + (commonPrefix s.bits key.bits).length) % 8 := by
  have hlt := s.offset.isLt
  have hcl : s.commonLength key.slice = some (commonPrefix s.bits key.bits).length :=
    commonLength_spec ho (fun h => hs (bits_eq_nil.mpr h)) key.nonempty
  have hle1 : (commonPrefix s.bits key.bits).length ≤ s.length := by
    rw [← length_bits]; exact (commonPrefix_left _ _).length_le
  have hle2 : (commonPrefix s.bits key.bits).length ≤ key.slice.length := by
    rw [← length_bits]; exact (commonPrefix_right _ _).length_le
  have htake1 : s.bits.take (commonPrefix s.bits key.bits).length =
      commonPrefix s.bits key.bits := (List.prefix_iff_eq_take.mp (commonPrefix_left _ _)).symm
  unfold forwardCommonPrefix
  rw [hcl]
  generalize hp : commonPrefix s.bits key.bits = p at *
  cases hn : p.length with
  | zero =>
    have hnil : p = [] := List.length_eq_zero_iff.mp hn
    refine ⟨none, some key, s, rfl, hnil, ⟨by simp, ?_⟩, by simp, by omega⟩
    rw [← ho]
    omega
  | succ n =>
    simp only
    rw [← hn, popFrontSlice, popFrontSlice, splitAt, splitAt, dif_pos hle1, dif_pos hle2]
    refine ⟨_, _, _, rfl, ?_, ?_, rest_bits s hle1, rfl⟩
    · have hfits : bytesLen (s.head p.length hle1).offset (s.head p.length hle1).length ≤
          maxExtensionKeySize := by
        have hmono := bytesLen_mono key.slice.offset hle2
        have hso : s.offset = key.slice.offset := ho
        simp only [head, hso]
        exact Nat.le_trans hmono key.fits
      have hk := ExtKey.tryFrom_toOption hfits
      rwa [head_bits, htake1] at hk
    · have hfits : bytesLen (key.slice.rest p.length hle2).offset
          (key.slice.rest p.length hle2).length ≤ maxExtensionKeySize :=
        Nat.le_trans (bytesLen_rest_le key.slice.offset hle2) key.fits
      have hk := ExtKey.tryFrom_toOption hfits
      rw [rest_bits] at hk
      have hoff : (key.slice.rest p.length hle2).offset.val =
          (s.offset.val + p.length) % 8 := by rw [ho]; rfl
      cases hc : (ExtKey.tryFrom (key.slice.rest p.length hle2)).toOption with
      | none => rw [hc] at hk; exact hk
      | some k =>
        rw [hc] at hk
        exact ⟨hk.1, by rw [hk.2, hoff, Nat.mod_mod]⟩

/-- Whenever the whole key matched, the slice got shorter. -/
theorem forwardCommonPrefix_length {s s' : Slice} {key : ExtKey} {pre : Option ExtKey}
    (h : s.forwardCommonPrefix key = some (pre, none, s')) : s'.length < s.length := by
  unfold forwardCommonPrefix at h
  split at h
  · cases h
  · cases h
  · rename_i n hn _
    split at h
    · rename_i _ _ hs
      simp only [Option.some.injEq, Prod.mk.injEq] at h
      rw [← h.2.2]
      have hlen := splitAt_length hs
      have hpos : n ≠ 0 := by rintro rfl; exact hn rfl
      omega
    · cases h

end Slice

end Bits
