import EmulatedLightClient.ExtKeys
import EmulatedLightClient.BitLists
import EmulatedLightClient.DoubleEnded

/-!
# Chunks from both ends

From the front the iterator counts bits up to the end of a 34-byte chunk, from
the back it counts bytes. Both cut a slice at the same bits.
-/

namespace Bits

open ByteBits AlignedLists DoubleEnded

theorem ExtKey.eq_of_slice {key key' : ExtKey} (h : key.slice = key'.slice) : key = key' := by
  cases key
  cases key'
  cases h
  rfl

namespace Slice

theorem eq_of_fields {s t : Slice} (ho : s.offset = t.offset) (hl : s.length = t.length)
    (hp : s.ptr = t.ptr) : s = t := by
  cases s
  cases t
  cases ho
  cases hl
  cases hp
  rfl

theorem rest_rest (s : Slice) {n m : Nat} (hn : n ≤ m) (hm : m ≤ s.length) :
    (s.rest n (Nat.le_trans hn hm)).rest (m - n) (Nat.sub_le_sub_right hm n) = s.rest m hm := by
  apply eq_of_fields
  · apply Fin.ext
    simp only [rest, U3.val_wrappingAdd]
    omega
  · simp only [rest]
    omega
  · simp only [rest, U3.val_wrappingAdd, List.drop_drop]
    congr 1
    omega

/-- The slice as a whole is what follows none of its bits. -/
theorem rest_zero (s : Slice) : s.rest 0 (Nat.zero_le _) = s := by
  have holt := s.offset.isLt
  apply eq_of_fields
  · apply Fin.ext
    simp only [rest, U3.val_wrappingAdd]
    omega
  · rfl
  · simp only [rest]
    rw [Nat.div_eq_of_lt (by omega), List.drop_zero]

theorem head_all (s : Slice) {n : Nat} (hn : n ≤ s.length) (h : n = s.length) :
    s.head n hn = s := eq_of_fields rfl h rfl

/-- Bits up to the end of the chunk the slice starts in. -/
def nextLength (s : Slice) : Nat := min (maxExtensionKeySize * 8 - s.offset.val) s.length

theorem nextLength_le (s : Slice) : s.nextLength ≤ s.length := Nat.min_le_right ..

theorem nextLength_eq_zero {s : Slice} : s.nextLength = 0 ↔ s.length = 0 := by
  have holt := s.offset.isLt
  unfold nextLength maxExtensionKeySize
  omega

theorem head_fits (s : Slice) :
    bytesLen s.offset s.nextLength ≤ maxExtensionKeySize := by
  by_cases hz : s.nextLength = 0
  · rw [hz]
    exact Nat.zero_le _
  · rw [bytesLen_of_pos _ hz]
    unfold nextLength maxExtensionKeySize at *
    have holt := s.offset.isLt
    omega

theorem popFrontSlice_parts {s l r : Slice} {n : Nat} (h : s.popFrontSlice n = some (l, r)) :
    ∃ hn : n ≤ s.length, l = s.head n hn ∧ r = s.rest n hn := by
  unfold popFrontSlice splitAt at h
  split at h
  · rename_i hn
    cases h
    exact ⟨hn, rfl, rfl⟩
  · cases h

theorem popFrontSlice_nonempty {s l r : Slice} {n : Nat} (hn : ¬ n = 0)
    (h : s.popFrontSlice n = some (l, r)) : l.length ≠ 0 := by
  obtain ⟨_, rfl, -⟩ := popFrontSlice_parts h
  exact hn

theorem popFrontSlice_fits {s l r : Slice} (h : s.popFrontSlice s.nextLength = some (l, r)) :
    bytesLen l.offset l.length ≤ maxExtensionKeySize := by
  obtain ⟨_, rfl, -⟩ := popFrontSlice_parts h
  exact s.head_fits

/-- Takes the first chunk off: returns it and the slice without it. -/
def next (s : Slice) : Option (ExtKey × Slice) :=
  let length := s.nextLength
  if hz : length = 0 then none
  else
    match h : s.popFrontSlice length with
    | none => none
    | some (head, tail) =>
      some (⟨head, popFrontSlice_nonempty hz h, popFrontSlice_fits h⟩, tail)

theorem next_of_empty {s : Slice} (h : s.length = 0) : s.next = none :=
  dif_pos (nextLength_eq_zero.mpr h)

/-- The first chunk and the slice after it. -/
theorem next_of_pos {s : Slice} (h : s.length ≠ 0) :
    ∃ key, s.next = some (key, s.rest s.nextLength s.nextLength_le) ∧
      key.slice = s.head s.nextLength s.nextLength_le := by
  unfold next
  simp only
  rw [dif_neg fun hz => h (nextLength_eq_zero.mp hz)]
  split
  · rename_i hnone
    rw [popFrontSlice, splitAt, dif_pos s.nextLength_le] at hnone
    cases hnone
  · rename_i hsome
    obtain ⟨_, rfl, rfl⟩ := popFrontSlice_parts hsome
    exact ⟨_, rfl, rfl⟩

theorem next_length {s s' : Slice} {key : ExtKey} (h : s.next = some (key, s')) :
    s'.length < s.length := by
  by_cases hz : s.length = 0
  · rw [next_of_empty hz] at h
    cases h
  · obtain ⟨key', hs, -⟩ := next_of_pos hz
    rw [h] at hs
    cases hs
    have hpos : s.nextLength ≠ 0 := fun hn => hz (nextLength_eq_zero.mp hn)
    simp only [rest]
    omega

/-- All chunks of a slice, from the first one to the last. -/
def chunks (s : Slice) : List ExtKey :=
  match _h : s.next with
  | none => []
  | some (key, s') => key :: chunks s'
  termination_by s.length
  decreasing_by exact next_length _h

theorem chunks_of_none {s : Slice} (h : s.next = none) : s.chunks = [] := by
  unfold chunks
  split
  · rfl
  · rename_i hs
    rw [h] at hs
    cases hs

theorem chunks_cons {s s' : Slice} {key : ExtKey} (h : s.next = some (key, s')) :
    s.chunks = key :: s'.chunks := by
  conv_lhs => unfold chunks
  split
  · rename_i hs
    rw [h] at hs
    cases hs
  · rename_i hs
    rw [h] at hs
    cases hs
    rfl

theorem chunks_of_empty {s : Slice} (h : s.length = 0) : s.chunks = [] :=
  chunks_of_none (next_of_empty h)

/-- Bits in front of the last chunk. -/
def cut (s : Slice) : Nat := 8 * lastChunk s.bytes.length - s.offset.val

theorem cut_lt {s : Slice} (h : s.length ≠ 0) : s.cut < s.length := by
  have hlt := lastChunk_lt fun hz => h (bytes_length_eq_zero.mp hz)
  have hb := length_bytes s
  rw [bytesLen_of_pos _ h] at hb
  unfold cut
  omega

theorem cut_le {s : Slice} (h : s.length ≠ 0) : s.cut ≤ s.length := Nat.le_of_lt (cut_lt h)

theorem lastSlice_eq_rest {s : Slice} (h : s.length ≠ 0) (hc : lastChunk s.bytes.length ≠ 0) :
    s.lastSlice h hc = s.rest s.cut (cut_le h) ∧ s.frontSlice = s.head s.cut (cut_le h) := by
  have holt := s.offset.isLt
  have hadd := lastLength_add s h
  have hcut : s.offset.val + s.cut = 8 * lastChunk s.bytes.length := by
    unfold cut
    omega
  constructor
  · apply eq_of_fields
    · apply Fin.ext
      simp only [lastSlice, rest, U3.val_wrappingAdd, Fin.val_zero]
      omega
    · simp only [lastSlice, rest]
      omega
    · simp only [lastSlice, rest]
      congr 1
      omega
  · have hlen : s.length - s.lastLength = s.cut := by omega
    exact eq_of_fields rfl hlen rfl

/-- The last chunk and a slice with the chunks in front of it. -/
theorem nextBack_of_pos {s : Slice} (h : s.length ≠ 0) :
    ∃ key s', s.nextBack = some (key, s') ∧ key.slice = s.rest s.cut (cut_le h) ∧
      s'.chunks = (s.head s.cut (cut_le h)).chunks := by
  have hb : s.bytes.length ≠ 0 := fun hz => h (bytes_length_eq_zero.mp hz)
  unfold nextBack
  rw [dif_neg hb]
  by_cases hc : lastChunk s.bytes.length = 0
  · have hcut : s.cut = 0 := by rw [cut, hc, Nat.mul_zero, Nat.zero_sub]
    rw [dif_pos hc]
    refine ⟨_, _, rfl, ?_, ?_⟩
    · simp only [hcut]
      exact s.rest_zero.symm
    · rw [chunks_of_empty rfl, chunks_of_empty hcut]
  · obtain ⟨hlast, hfront⟩ := lastSlice_eq_rest h hc
    rw [dif_neg hc]
    exact ⟨_, _, rfl, hlast, by rw [hfront]⟩

theorem nextLength_head {s : Slice} {m : Nat} (hm : m ≤ s.length) (h : s.nextLength ≤ m) :
    (s.head m hm).nextLength = s.nextLength := by
  unfold nextLength at *
  simp only [head]
  omega

/-- The bits in front of the last chunk begin with the first chunk. -/
theorem next_head {s : Slice} {m : Nat} (h : s.length ≠ 0) (hm : m ≤ s.length)
    (hn : s.nextLength ≤ m) :
    ∃ key, (s.head m hm).next = some (key, (s.rest s.nextLength s.nextLength_le).head
        (m - s.nextLength) (Nat.sub_le_sub_right hm _)) ∧
      key.slice = s.head s.nextLength s.nextLength_le := by
  have hpos : (s.head m hm).length ≠ 0 := by
    have hz := nextLength_eq_zero.not.mpr h
    simp only [head]
    omega
  obtain ⟨key, hnext, hkey⟩ := next_of_pos hpos
  simp only [nextLength_head hm hn] at hnext hkey
  exact ⟨key, hnext, hkey⟩

/-- A slice without bits in front of the last chunk is one chunk. -/
theorem nextLength_of_cut_eq_zero {s : Slice} (h : s.length ≠ 0) (hc : s.cut = 0) :
    s.nextLength = s.length := by
  have hlt := lastChunk_lt fun hz => h (bytes_length_eq_zero.mp hz)
  have hb := length_bytes s
  rw [bytesLen_of_pos _ h] at hb
  have holt := s.offset.isLt
  have hmul : lastChunk s.bytes.length % 34 = 0 := Nat.mul_mod_left ..
  unfold nextLength cut maxExtensionKeySize at *
  omega

/-- The first chunk takes 34 bytes unless there are fewer. -/
theorem rest_bytes_length {s : Slice} (h : s.length ≠ 0) :
    (s.rest s.nextLength s.nextLength_le).bytes.length =
      s.bytes.length - maxExtensionKeySize := by
  have holt := s.offset.isLt
  rw [length_bytes, length_bytes, bytesLen_of_pos s.offset h]
  simp only [rest]
  by_cases hz : s.length - s.nextLength = 0
  · rw [hz, bytesLen]
    unfold nextLength maxExtensionKeySize at *
    omega
  · rw [bytesLen_of_pos _ hz, U3.val_wrappingAdd]
    unfold nextLength maxExtensionKeySize at *
    omega

/-- Without the first chunk there are that many bits less in front of the last. -/
theorem cut_rest {s : Slice} (h : s.length ≠ 0) (hc : s.cut ≠ 0) : s.nextLength ≤ s.cut ∧
    (s.rest s.nextLength s.nextLength_le).cut = s.cut - s.nextLength := by
  have hlt := lastChunk_lt fun hz => h (bytes_length_eq_zero.mp hz)
  have hb := length_bytes s
  rw [bytesLen_of_pos _ h] at hb
  have holt := s.offset.isLt
  have hmul : lastChunk s.bytes.length % 34 = 0 := Nat.mul_mod_left ..
  have hn : s.nextLength = 272 - s.offset.val := by
    unfold nextLength cut maxExtensionKeySize at *
    omega
  have hrest := rest_bytes_length h
  have hlast : lastChunk (s.bytes.length - maxExtensionKeySize) = lastChunk s.bytes.length - 34 := by
    unfold lastChunk maxExtensionKeySize at *
    omega
  have hoff : (s.rest s.nextLength s.nextLength_le).offset.val = 0 := by
    simp only [rest, U3.val_wrappingAdd]
    omega
  constructor
  · unfold cut maxExtensionKeySize at *
    omega
  · rw [cut, hrest, hlast, hoff, cut]
    omega

/-- The last chunk is the one after the cut. -/
theorem chunks_cut {s : Slice} {key : ExtKey} (h : s.length ≠ 0)
    (hkey : key.slice = s.rest s.cut (cut_le h)) :
    s.chunks = (s.head s.cut (cut_le h)).chunks ++ [key] := by
  induction hlen : s.length using Nat.strongRecOn generalizing s with
  | ind n ih =>
    obtain ⟨first, hnext, hfirst⟩ := next_of_pos h
    rw [chunks_cons hnext]
    by_cases hc : s.cut = 0
    · have hall := nextLength_of_cut_eq_zero h hc
      have hsame : first = key := by
        apply ExtKey.eq_of_slice
        simp only [hkey, hc, rest_zero]
        rw [hfirst, head_all _ _ hall]
      have hempty : (s.rest s.nextLength s.nextLength_le).length = 0 := by
        simp only [rest]
        omega
      rw [chunks_of_empty hempty, chunks_of_empty (show (s.head s.cut (cut_le h)).length = 0 from hc),
        hsame]
      rfl
    · obtain ⟨hle, hcut⟩ := cut_rest h hc
      have hlt := cut_lt h
      have hn := nextLength_eq_zero.not.mpr h
      have hpos : (s.rest s.nextLength s.nextLength_le).length ≠ 0 := by
        simp only [rest]
        omega
      have hrest : key.slice = (s.rest s.nextLength s.nextLength_le).rest
          (s.rest s.nextLength s.nextLength_le).cut (cut_le hpos) := by
        simp only [hcut]
        rw [hkey, rest_rest s hle]
      obtain ⟨first', hnext', hfirst'⟩ := next_head h (cut_le h) hle
      have hsame : first' = first := ExtKey.eq_of_slice (hfirst'.trans hfirst.symm)
      have hrec := ih _ (by simp only [rest]; omega) hpos hrest rfl
      simp only [hcut] at hrec
      rw [hrec, chunks_cons hnext', hsame]
      rfl

/-- Taking the last chunk leaves the other chunks as they are. -/
theorem chunks_of_nextBack {s s' : Slice} {key : ExtKey} (h : s.nextBack = some (key, s')) :
    s.chunks = s'.chunks ++ [key] := by
  by_cases hz : s.length = 0
  · rw [nextBack_of_nil (bits_eq_nil.mpr hz)] at h
    cases h
  · obtain ⟨key', s'', hs, hkey, hchunks⟩ := nextBack_of_pos hz
    rw [h] at hs
    cases hs
    rw [hchunks]
    exact chunks_cut hz hkey

/-- Number of the 34-byte chunks which the bytes of the slice make. -/
def chunksLen (s : Slice) : Nat :=
  (s.bytes.length + (maxExtensionKeySize - 1)) / maxExtensionKeySize

theorem next_eq_none_iff {s : Slice} : s.next = none ↔ s.length = 0 := by
  constructor
  · intro h
    by_contra hz
    obtain ⟨key, hs, -⟩ := next_of_pos hz
    rw [h] at hs
    cases hs
  · exact next_of_empty

theorem length_chunks (s : Slice) : s.chunks.length = s.chunksLen := by
  fun_induction chunks s with
  | case1 s h =>
    rw [chunksLen, bytes_length_eq_zero.mpr (next_eq_none_iff.mp h)]
    rfl
  | case2 s key s' h ih =>
    have hz : s.length ≠ 0 := fun hz => by rw [next_of_empty hz] at h; cases h
    obtain ⟨key', hs, -⟩ := next_of_pos hz
    rw [h] at hs
    cases hs
    have hb := bytes_length_eq_zero.not.mpr hz
    rw [chunksLen, rest_bytes_length hz] at ih
    rw [List.length_cons, ih, chunksLen]
    unfold maxExtensionKeySize
    omega

/-- The chunks are the slice cut into parts which follow one another. -/
theorem joined_chunks (s : Slice) :
    Aligned.joined s.offset (s.chunks.map fun key => key.slice.view) = some s.view := by
  fun_induction chunks s with
  | case1 s h =>
    rw [view, bits_eq_nil.mpr (next_eq_none_iff.mp h)]
    rfl
  | case2 s key s' h ih =>
    have hz : s.length ≠ 0 := fun hz => by rw [next_of_empty hz] at h; cases h
    obtain ⟨key', hs, hkey⟩ := next_of_pos hz
    rw [h] at hs
    cases hs
    have hview : key.slice.view = s.view.take s.nextLength := by rw [hkey, head_view]
    have hstop : (s.view.take s.nextLength).stop =
        (s.rest s.nextLength s.nextLength_le).offset := by
      rw [Aligned.stop, Aligned.take, view_items, List.length_take_of_le]
      · rfl
      · rw [length_bits]
        exact s.nextLength_le
    have hle : s.nextLength ≤ s.view.items.length := by
      rw [view_items, length_bits]
      exact s.nextLength_le
    have hoff : (s.view.take s.nextLength).offset = s.offset := rfl
    rw [List.map_cons, hview, Aligned.joined, if_pos hoff, hstop, ih, rest_view]
    exact Aligned.take_append_drop s.view hle

theorem chunks_iterates : Iterates next nextBack chunks where
  next_none := chunks_of_none
  next_some := chunks_cons
  nextBack_none := by
    intro s h
    by_contra hne
    have hz : s.length ≠ 0 := fun hz => hne (chunks_of_empty hz)
    obtain ⟨key, s', hs, -⟩ := nextBack_of_pos hz
    rw [h] at hs
    cases hs
  nextBack_some := chunks_of_nextBack

/-- Iterating from the back gives the chunks in reverse. -/
theorem chunksRev_eq_reverse (s : Slice) : s.chunksRev = s.chunks.reverse := by
  fun_induction chunksRev s with
  | case1 s h =>
    rw [chunks_iterates.nextBack_none h]
    rfl
  | case2 s key s' h ih =>
    rw [chunks_of_nextBack h, List.reverse_append, ih]
    rfl

/-- What holds of the chunks of a slice after that many calls at either end. -/
structure ChunksConsistent (s : Slice) (count : Nat) (p : Progress Slice ExtKey) : Prop where
  /-- The chunks are those of forward iteration, none lost or given twice. -/
  items : p.fronts ++ p.rest.chunks ++ p.backs.reverse = s.chunks
  len : p.rest.chunksLen = p.rest.chunks.length
  remaining : p.rest.chunksLen = s.chunksLen - count
  ends : p.rest.next = none ↔ p.rest.nextBack = none
  exhausted : p.rest.next = none → p.fronts ++ p.backs.reverse = s.chunks ∧
    Aligned.joined s.offset ((p.fronts ++ p.backs.reverse).map fun key => key.slice.view) =
      some s.view
  fits : ∀ key ∈ p.fronts ++ p.backs,
    key.slice.bits ≠ [] ∧ key.slice.bytes.length ≤ maxExtensionKeySize

theorem chunks_consistent (s : Slice) (calls : List Call) :
    ChunksConsistent s calls.length (.run next nextBack calls (.start s)) := by
  have hall := chunks_iterates.run_all calls (.start s)
  have hlength := chunks_iterates.run_length calls (.start s)
  generalize Progress.run next nextBack calls (.start s) = p at *
  have hitems : p.fronts ++ p.rest.chunks ++ p.backs.reverse = s.chunks := by
    simpa [Progress.all, Progress.start] using hall
  refine ⟨hitems, (length_chunks p.rest).symm, ?_, ?_, ?_, ?_⟩
  · rw [← length_chunks, ← length_chunks]
    exact hlength
  · rw [chunks_iterates.next_eq_none_iff, chunks_iterates.nextBack_eq_none_iff]
  · intro hnone
    rw [chunks_of_none hnone, List.append_nil] at hitems
    rw [hitems]
    exact ⟨rfl, s.joined_chunks⟩
  · intro key _
    exact ⟨key.bits_ne_nil, by rw [length_bytes]; exact key.fits⟩

end Slice

end Bits
