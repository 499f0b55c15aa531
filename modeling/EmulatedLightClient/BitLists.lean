import EmulatedLightClient.OwnedEdits
import EmulatedLightClient.SliceCompare
import EmulatedLightClient.AlignedLists

/-!
# Slices as lists of bits

A slice stands for its bits together with the offset they start at. Each
operation on slices is an operation on those lists, so bits outside of a slice
decide nothing.
-/

namespace Bits

open ByteBits AlignedLists

abbrev BitList := Aligned 8 Bool

theorem shift_eq (o : U3) (n : Nat) : Aligned.shift o n = U3.wrappingAdd o n := rfl

/-- Lengths of slices take sixteen bits. -/
def checked (l : BitList) : Except ConcatError BitList :=
  if l.items.length < 2 ^ 16 then .ok l else .error .sliceTooLong

def concatenated (pre suffix : BitList) : Except ConcatError BitList :=
  match pre.append suffix with
  | none => .error .misaligned
  | some whole => checked whole

namespace Slice

def view (s : Slice) : BitList := ⟨s.offset, s.bits⟩

@[simp] theorem view_offset (s : Slice) : s.view.offset = s.offset := rfl

@[simp] theorem view_items (s : Slice) : s.view.items = s.bits := rfl

theorem view_eq {s : Slice} {o : U3} {bits : List Bool} (ho : s.offset.val = o.val)
    (hb : s.bits = bits) : s.view = ⟨o, bits⟩ := by
  rw [view, Fin.ext ho, hb]

theorem popFront_view (s : Slice) :
    s.popFront.map (Prod.map id view) = s.view.popFront := by
  cases hb : s.bits with
  | nil => simp [popFront_of_nil hb, Aligned.popFront, hb]
  | cons b bits =>
    obtain ⟨s', hs, hbits, hoff⟩ := popFront_of_cons hb
    have hview : s'.view = ⟨U3.wrappingAdd s.offset 1, bits⟩ := view_eq hoff hbits
    simp [hs, hview, Aligned.popFront, hb, shift_eq]

theorem popBack_view (s : Slice) : s.popBack.map (Prod.map id view) = s.view.popBack := by
  cases List.eq_nil_or_concat' s.bits with
  | inl hb => simp [popBack_of_nil hb, Aligned.popBack, hb]
  | inr hconcat =>
    obtain ⟨bits, b, hb⟩ := hconcat
    obtain ⟨s', hs, hbits, hoff⟩ := popBack_of_concat hb
    have hview : s'.view = ⟨s.offset, bits⟩ := view_eq (congrArg Fin.val hoff) hbits
    rw [hs, view, hb, Aligned.popBack_concat]
    simp [hview]

theorem head_view (s : Slice) {n : Nat} (h : n ≤ s.length) :
    (s.head n h).view = s.view.take n := by
  rw [view, head_bits]
  rfl

theorem rest_view (s : Slice) {n : Nat} (h : n ≤ s.length) :
    (s.rest n h).view = s.view.drop n := by
  rw [view, rest_bits]
  rfl

theorem splitAt_view (s : Slice) (n : Nat) :
    (s.splitAt n).map (Prod.map view view) = s.view.splitAt n := by
  unfold splitAt Aligned.splitAt
  by_cases h : n ≤ s.length
  · simp [h, head_view, rest_view]
  · simp [h]

theorem popBackSlice_view (s : Slice) (n : Nat) :
    (s.popBackSlice n).map (Prod.map view view) = s.view.splitBack n := by
  unfold popBackSlice splitAt Aligned.splitBack
  by_cases h : n ≤ s.length
  · simp [h, head_view, rest_view]
  · simp [h]

theorem eq_view {lhs rhs : Slice} : lhs.eq rhs = true ↔ lhs.view = rhs.view := by
  rw [eq_iff, Aligned.ext_iff]
  rfl

theorem startsWith_view {s pre : Slice} :
    s.startsWith pre = true ↔ s.view.Begins pre.view := startsWith_iff

theorem stripPrefix_view (s pre : Slice) :
    (s.stripPrefix pre).map view = s.view.without pre.view := by
  unfold Aligned.without
  cases hs : s.stripPrefix pre with
  | none =>
    have hnot : ¬ s.view.Begins pre.view := fun h => (stripPrefix_none h.1).mp hs h.2
    rw [if_neg hnot]
    rfl
  | some s' =>
    obtain ⟨ho, hb, hoff⟩ := stripPrefix_spec hs
    have hbegins : s.view.Begins pre.view := ⟨ho, s'.bits, hb.symm⟩
    have hdrop : s.bits.drop pre.length = s'.bits := by
      rw [hb, List.drop_left' (length_bits pre)]
    rw [if_pos hbegins, Aligned.drop, view_items, view_items, length_bits, hdrop]
    exact congrArg some (view_eq hoff rfl)

end Slice

namespace Owned

def view (s : Owned) : BitList := ⟨s.offset, s.bits⟩

@[simp] theorem view_offset (s : Owned) : s.view.offset = s.offset := rfl

@[simp] theorem view_items (s : Owned) : s.view.items = s.bits := rfl

theorem view_asSlice (s : Owned) : s.asSlice.view = s.view := rfl

theorem view_ofSlice (slice : Slice) : (ofSlice slice).view = slice.view := by
  rw [view, Slice.view, ofSlice_bits, ofSlice_offset]

theorem view_eq {s : Owned} {o : U3} {bits : List Bool} (ho : s.offset.val = o.val)
    (hb : s.bits = bits) : s.view = ⟨o, bits⟩ := by
  rw [view, Fin.ext ho, hb]

/-- `PartialEq` of owned slices. -/
def eq (lhs rhs : Owned) : Bool := lhs.asSlice.eq rhs.asSlice

theorem eq_view {lhs rhs : Owned} : lhs.eq rhs = true ↔ lhs.view = rhs.view := Slice.eq_view

theorem concatBit_view (bit : Bool) (suffix : Slice) :
    (concatBit bit suffix).map view = checked (suffix.view.cons bit) := by
  unfold checked
  have hlen : (suffix.view.cons bit).items.length = 1 + suffix.length := by
    rw [Aligned.cons, List.length_cons, Slice.view_items, Slice.length_bits, Nat.add_comm]
  rw [hlen]
  by_cases h : 1 + suffix.length < 2 ^ 16
  · obtain ⟨s, hs, hbits, hoff⟩ := concatBit_spec bit h
    rw [hs, if_pos h]
    exact congrArg Except.ok (view_eq hoff hbits)
  · rw [concatBit, dif_neg h, if_neg h]
    rfl

theorem extend_error {this : Owned} {suffix : Slice} {err : ConcatError}
    (h : checkAlignmentAndLength this.offset this.length suffix.offset suffix.length =
      .error err) : extend this suffix = .error err := by
  unfold extend
  split
  · rename_i herr
    rw [h] at herr
    cases herr
    rfl
  · rename_i hok
    rw [h] at hok
    cases hok

theorem extend_view (this : Owned) (suffix : Slice) :
    (extend this suffix).map view = concatenated this.view suffix.view := by
  have hcheck := checkAlignmentAndLength_eq this.offset suffix.offset this.length suffix.length
  have hstop : this.view.stop = U3.wrappingAdd this.offset this.length := by
    rw [Aligned.stop, view_items, length_bits]
    rfl
  unfold concatenated Aligned.append
  rw [hstop]
  by_cases hal : suffix.offset = U3.wrappingAdd this.offset this.length
  · rw [if_pos hal, checkLength] at hcheck
    rw [Slice.view_offset, if_pos hal]
    simp only [checked, view_items, Slice.view_items, List.length_append, length_bits,
      Slice.length_bits]
    by_cases hlen : this.length + suffix.length < 2 ^ 16
    · obtain ⟨s, hs, hbits, hoff⟩ := extend_spec this (congrArg Fin.val hal) hlen
      rw [hs, if_pos hlen]
      exact congrArg Except.ok (view_eq (congrArg Fin.val hoff) hbits)
    · rw [if_neg hlen] at hcheck
      rw [extend_error hcheck, if_neg hlen]
      rfl
  · rw [if_neg hal] at hcheck
    rw [extend_error hcheck, Slice.view_offset, if_neg hal]
    rfl

theorem concat_eq_extend (pre suffix : Slice) :
    concat pre suffix = extend (ofSlice pre) suffix := by
  unfold concat
  split
  · rename_i err h
    exact (extend_error h).symm
  · rfl

theorem concat_view (pre suffix : Slice) :
    (concat pre suffix).map view = concatenated pre.view suffix.view := by
  rw [concat_eq_extend, extend_view, view_ofSlice]

theorem pushBack_view (this : Owned) (bit : Bool) :
    (pushBack this bit).map view = checked (this.view.push bit) := by
  unfold checked
  have hlen : (this.view.push bit).items.length = this.length + 1 := by
    rw [Aligned.push, List.length_append, view_items, length_bits, List.length_singleton]
  rw [hlen]
  by_cases h : this.length + 1 < 2 ^ 16
  · obtain ⟨s, hs, hbits, hoff⟩ := pushBack_spec this bit h
    rw [hs, if_pos h]
    exact congrArg Except.ok (view_eq (congrArg Fin.val hoff) hbits)
  · rw [pushBack, dif_neg h, if_neg h]
    rfl

theorem popBack_view (this : Owned) :
    (popBack this).map (Prod.map id view) = this.view.popBack := by
  cases List.eq_nil_or_concat' this.bits with
  | inl hb => simp [popBack_of_nil hb, Aligned.popBack, hb]
  | inr hconcat =>
    obtain ⟨bits, b, hb⟩ := hconcat
    obtain ⟨s, hs, hbits, hoff⟩ := popBack_of_concat hb
    have hview : s.view = ⟨this.offset, bits⟩ := view_eq (congrArg Fin.val hoff) hbits
    rw [hs, view, hb, Aligned.popBack_concat]
    simp [hview]

theorem truncate_view (this : Owned) (len : Nat) :
    (truncate this len).view = this.view.take len :=
  view_eq (congrArg Fin.val (truncate_offset this len)) (truncate_bits this len)

theorem setLast_view (this : Owned) (bit : Bool) :
    (setLast this bit).map view = this.view.setLast bit := by
  cases List.eq_nil_or_concat' this.bits with
  | inl hb => simp [setLast_of_nil hb, Aligned.setLast, hb]
  | inr hconcat =>
    obtain ⟨bits, old, hb⟩ := hconcat
    obtain ⟨s, hs, hbits, hoff⟩ := setLast_spec bit hb
    rw [hs, view, hb, Aligned.setLast_concat]
    exact congrArg some (view_eq (congrArg Fin.val hoff) hbits)

end Owned

end Bits
