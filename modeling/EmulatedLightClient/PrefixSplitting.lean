import EmulatedLightClient.SliceCompare

/-!
# Splitting at the common prefix

The bits a slice shares with a key are found on the bytes of both. An empty
slice has no bytes whatever its offset is, yet the bits skipped by the offset
take one to be read.
-/

namespace Bits

open ByteBits ListPrefix

namespace Slice

/-- The bits a slice and a key both begin with; slices at different offsets share
none. -/
def Shares (s : Slice) (key : ExtKey) (p : List Bool) : Prop :=
  if s.offset = key.offset then Longest s.bits key.bits p else p = []

/-- Splitting does not panic and returns the shared bits and the rest of the key,
with the shared bits stripped from the slice. -/
def SplitsExactly (s : Slice) (key : ExtKey) : Prop :=
  ∃ p pre suf s', s.Shares key p ∧ s.forwardCommonPrefix key = some (pre, suf, s') ∧
    KeyOf pre s.offset.val p ∧ KeyOf suf (key.offset.val + p.length) (key.bits.drop p.length) ∧
    s'.bits = s.bits.drop p.length ∧ s'.offset.val = (s.offset.val + p.length) % 8

theorem shares_of_eq {s : Slice} {key : ExtKey} (ho : s.offset = key.offset) :
    s.Shares key (commonPrefix s.bits key.bits) := by
  rw [Shares, if_pos ho]
  exact commonPrefix_longest s.bits key.bits

/-- Nothing is split off where no bits are shared. -/
theorem splitsExactly_of_zero {s : Slice} {key : ExtKey} (hshares : s.Shares key [])
    (hlen : s.commonLength key.slice = some 0) : SplitsExactly s key := by
  have hkey : KeyOf (some key) key.offset.val key.bits :=
    ⟨rfl, (Nat.mod_eq_of_lt key.offset.isLt).symm⟩
  refine ⟨[], none, some key, s, hshares, ?_, rfl, hkey, rfl, ?_⟩
  · rw [forwardCommonPrefix, hlen]
    rfl
  · exact (Nat.mod_eq_of_lt s.offset.isLt).symm

theorem commonLength_of_ne {s other : Slice} (ho : s.offset ≠ other.offset) :
    s.commonLength other = some 0 := if_pos ho

/-- Bytes needed by an empty slice: none when nothing is skipped, else one more
than there are. -/
theorem commonLength_of_empty {s other : Slice} (hs : s.length = 0)
    (ho : s.offset = other.offset) :
    s.commonLength other = if s.offset = 0 then some 0 else none := by
  have hbytes : s.bytes = [] := List.length_eq_zero_iff.mp (by rw [length_bytes, hs, bytesLen])
  have holt := s.offset.isLt
  simp only [commonLength, ne_eq, ho, not_true_eq_false, if_false, hs, Nat.zero_min,
    Nat.zero_add, hbytes, List.length_nil]
  rw [← ho]
  by_cases hz : s.offset = 0
  · rw [if_pos hz, hz]
    rfl
  · have hpos : s.offset.val ≠ 0 := fun h => hz (Fin.ext h)
    rw [if_neg hz, if_pos (Or.inl (by omega))]

/-- The split is right except for empty slices which skip bits of a byte they do
not have. -/
theorem splitsExactly_iff (s : Slice) (key : ExtKey) :
    SplitsExactly s key ↔ ¬ (s.length = 0 ∧ s.offset = key.offset ∧ s.offset ≠ 0) := by
  constructor
  · rintro ⟨p, pre, suf, s', -, hsplit, -⟩ ⟨hs, ho, hz⟩
    rw [forwardCommonPrefix, commonLength_of_empty hs ho, if_neg hz] at hsplit
    cases hsplit
  · intro hnot
    by_cases ho : s.offset = key.offset
    · by_cases hs : s.length = 0
      · have hz : s.offset = 0 := by_contra fun hz => hnot ⟨hs, ho, hz⟩
        have hnil : commonPrefix s.bits key.bits = [] :=
          List.prefix_nil.mp (bits_eq_nil.mpr hs ▸ commonPrefix_left s.bits key.bits)
        apply splitsExactly_of_zero (hnil ▸ shares_of_eq ho)
        rw [commonLength_of_empty hs ho, if_pos hz]
      · obtain ⟨pre, suf, s', hsplit, hpre, hsuf, hbits, hoff⟩ :=
          forwardCommonPrefix_spec ho fun h => hs (bits_eq_nil.mp h)
        rw [ho] at hsuf
        exact ⟨_, pre, suf, s', shares_of_eq ho, hsplit, hpre, hsuf, hbits, hoff⟩
    · have hshares : s.Shares key [] := by rw [Shares, if_neg ho]
      exact splitsExactly_of_zero hshares (commonLength_of_ne ho)

def emptyAtFour : Slice := ⟨4, 0, [], by decide, by decide⟩

def keyAtFour : ExtKey := ⟨⟨4, 4, [0xFF#8], by decide, by decide⟩, by decide, by decide⟩

/-- An empty slice and a key, both skipping four bits. -/
theorem empty_slice_panics : Slice.new [] 4 0 = some emptyAtFour ∧
    emptyAtFour.forwardCommonPrefix keyAtFour = none ∧
    ¬ SplitsExactly emptyAtFour keyAtFour := by
  have hpanic : emptyAtFour.forwardCommonPrefix keyAtFour = none := rfl
  refine ⟨rfl, hpanic, ?_⟩
  rintro ⟨p, pre, suf, s', -, hsplit, -⟩
  rw [hpanic] at hsplit
  cases hsplit

end Slice

end Bits
