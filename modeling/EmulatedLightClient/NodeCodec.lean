import EmulatedLightClient.FailingState
import EmulatedLightClient.Nodes

/-!
# Raw nodes and nodes correspond

Decoding undoes encoding and, as every bit which a node does not use is checked to be clear, encoding undoes
decoding. What is hashed for a node tells the node up to pointers and sealed flags.
-/

namespace Bits

open ByteBits

namespace Slice

variable {bytes : List Byte} {offset : U3} {length : Nat} {s : Slice}

theorem newCheckZeros_slice (h : newCheckZeros bytes offset length = some s) :
    s.offset = offset ∧ s.length = length ∧ s.ptr = bytes ∧ bytesLen offset length ≤ bytes.length := by
  obtain ⟨hnew, -⟩ := Option.filter_eq_some_iff.mp h
  unfold new at hnew
  split at hnew
  · rename_i hfits
    cases hnew
    exact ⟨rfl, rfl, rfl, hfits.1⟩
  · cases hnew

/-- Bits of the memory of a checked slice are clear unless they are in the slice. -/
theorem newCheckZeros_clear (h : newCheckZeros bytes offset length = some s) (hpos : length ≠ 0) {i : Nat}
    (hout : i < offset.val ∨ offset.val + length ≤ i) : bitAt bytes i = false := by
  obtain ⟨ho, hl, hptr, hfits⟩ := newCheckZeros_slice h
  obtain ⟨-, hcheck⟩ := Option.filter_eq_some_iff.mp h
  have hused : s.bytes = bytes.take (bytesLen offset length) := by rw [Slice.bytes, ho, hl, hptr]
  have hlen : (bytes.take (bytesLen offset length)).length = bytesLen offset length := List.length_take_of_le hfits
  simp only [hused, hlen, Bool.and_eq_true, beq_iff_eq, List.all_eq_true] at hcheck
  obtain ⟨⟨hfirst, hlast⟩, hrest⟩ := hcheck
  have hval := bytesLen_of_pos offset hpos
  have ht : i % 8 < 8 := Nat.mod_lt _ (by omega)
  by_cases hused : i < 8 * bytesLen offset length
  · rw [← bitAt_take bytes hused]
    rcases hout with hout | hout
    · have hi : i < 8 := by have := offset.isLt; omega
      have hbit := (eq_zero_iff_getMsbD _).mp hfirst i hi
      rw [BitVec.getMsbD_and, BitVec.getMsbD_not, front_mask _ _ hi, bitAt_headD _ hi] at hbit
      simpa [hi, Nat.not_le.mpr hout] using hbit
    · have hi : i / 8 = bytesLen offset length - 1 := by omega
      have hbit := (eq_zero_iff_getMsbD _).mp hlast (i % 8) ht
      rw [BitVec.getMsbD_and, BitVec.getMsbD_not, back_mask _ hpos ht, List.getLastD_eq_getLast?,
        List.getLast?_eq_getElem?, ← List.getD_eq_getElem?_getD, hlen, ← hi, ← bitAt_getD _ _ ht, Nat.div_add_mod] at hbit
      simpa [ht, Nat.not_lt.mpr hout] using hbit
  · have hzero : bytes.getD (i / 8) 0#8 = 0#8 := by
      rw [List.getD_eq_getElem?_getD]
      cases hi : bytes[i / 8]? with
      | none => rfl
      | some b =>
        have hmem : b ∈ bytes.drop (bytesLen offset length) := by
          refine List.mem_of_getElem? (i := i / 8 - bytesLen offset length) ?_
          rw [List.getElem?_drop, ← hi]
          congr 1
          omega
        exact hrest b hmem
    rw [bitAt, hzero]
    exact BitVec.getMsbD_zero

end Slice

namespace ExtKey

/-- Bytes which are clear outside of some bits are those which hold these bits, followed by zeros. -/
theorem eq_bitBytes_append {bytes : List Byte} {offset : U3} {bits : List Bool}
    (hfits : bytesLen offset bits.length ≤ bytes.length) (hpos : bits.length ≠ 0)
    (hbits : window bytes offset.val bits.length = bits)
    (hclear : ∀ i, i < offset.val ∨ offset.val + bits.length ≤ i → bitAt bytes i = false) :
    bitBytes offset bits ++ List.replicate (bytes.length - (bitBytes offset bits).length) 0#8 = bytes := by
  have hlen := length_bitBytes offset bits
  have hval := bytesLen_of_pos offset hpos
  apply eq_of_bitAt
  · rw [List.length_append, List.length_replicate, hlen]
    omega
  · intro i hi
    by_cases hin : offset.val ≤ i ∧ i < offset.val + bits.length
    · have hi' : i - offset.val < bits.length := by omega
      have hwindow : bits.getD (i - offset.val) false = bitAt bytes i := by
        have hget := getElem_window bytes offset.val bits.length (i - offset.val) (by rw [length_window]; exact hi')
        rw [show offset.val + (i - offset.val) = i by omega] at hget
        rw [← hget, List.getD_eq_getElem?_getD, List.getElem?_eq_getElem hi', Option.getD_some]
        exact List.getElem_of_eq hbits.symm hi'
      rw [bitAt_append_left _ _ (by omega), bitAt_bitBytes _ _ (by omega), hwindow]
      simp [hin.1]
    · have hout : i < offset.val ∨ offset.val + bits.length ≤ i := by omega
      rw [hclear i hout]
      by_cases hused : i < 8 * bytesLen offset bits.length
      · rw [bitAt_append_left _ _ (by omega), bitAt_bitBytes _ _ hused]
        rcases hout with hout | hout
        · simp [Nat.not_le.mpr hout]
        · rw [List.getD_eq_getElem?_getD, List.getElem?_eq_none (by omega)]
          simp
      · have hzero : ∀ n q, (List.replicate n 0#8).getD q 0#8 = (0#8 : Byte) := by
          intro n q
          rw [List.getD_eq_getElem?_getD, List.getElem?_replicate]
          split <;> rfl
        obtain ⟨j, rfl⟩ : ∃ j, i = 8 * (bitBytes offset bits).length + j := ⟨i - 8 * bytesLen offset bits.length, by omega⟩
        rw [bitAt_append_right, bitAt, hzero]
        exact BitVec.getMsbD_zero

/-- Encoding is the inverse of decoding: no other 36 bytes decode to a key with these offset and bits. -/
theorem encodeInto_of_decode {src : List Byte} {tag : Byte} {key : ExtKey} (hsrc : src.length = 36)
    (h : decode src tag = some key) : (key.encodeInto tag).1 = src := by
  match src, h with
  | high :: low :: bytes, h =>
    unfold decode at h
    simp only at h
    obtain ⟨s, hs, hkey⟩ := Option.bind_eq_some_iff.mp h
    obtain ⟨ho, hl, hptr, hfits⟩ := Slice.newCheckZeros_slice hs
    have hslice : key.slice = s := by
      unfold tryFrom at hkey
      split at hkey
      · cases hkey
      · split at hkey
        · cases hkey
        · cases hkey
          rfl
    have hoff : key.offset = U3.wrap ((high ^^^ tag) ++ low).toNat := (congrArg Slice.offset hslice).trans ho
    have hlen : key.bits.length = ((high ^^^ tag) ++ low).toNat / 8 := by
      rw [bits, Slice.length_bits, hslice, hl]
    have hpos : key.bits.length ≠ 0 := fun hz => key.bits_ne_nil (List.length_eq_zero_iff.mp hz)
    have hnum : BitVec.ofNat 16 (num key.offset key.bits.length) = (high ^^^ tag) ++ low := by
      apply BitVec.eq_of_toNat_eq
      have hlt := ((high ^^^ tag) ++ low).isLt
      rw [num, hoff, hlen, U3.val_wrap, BitVec.toNat_ofNat]
      omega
    have hhigh : numHigh key.offset key.bits.length = high ^^^ tag := by
      rw [numHigh, hnum]
      exact BitVec.extractLsb'_append_eq_left
    have hlow : numLow key.offset key.bits.length = low := by
      rw [numLow, hnum]
      exact BitVec.extractLsb'_append_eq_right
    rw [← hoff, ← hlen] at hs hfits
    have hbits : window bytes key.offset.val key.bits.length = key.bits := by
      rw [bits, Slice.length_bits, Slice.bits, hslice, hptr, offset, hslice]
    have hbytes : bytes.length = 34 := by simpa using hsrc
    have hall := eq_bitBytes_append hfits hpos hbits fun i => Slice.newCheckZeros_clear hs hpos
    rw [hbytes] at hall
    rw [encodeInto_eq, hhigh, hlow, hall, BitVec.xor_assoc, BitVec.xor_self, BitVec.xor_zero]

end ExtKey

end Bits

namespace Nodes

open ByteBits Bits Memory

theorem u32ToBeBytes_fromBeBytes {bytes : List Byte} (h : bytes.length = 4) :
    u32ToBeBytes (u32FromBeBytes bytes) = bytes := by
  match bytes, h with
  | [a, b, c, d], _ =>
    simp only [u32ToBeBytes, u32FromBeBytes, List.cons.injEq, and_true]
    refine ⟨?_, ?_, ?_, ?_⟩ <;>
      · apply BitVec.eq_of_getLsbD_eq
        intro i hi
        simp only [BitVec.getLsbD_extractLsb', BitVec.getLsbD_append]
        grind

namespace Reference

/-- The flag is one of the bits of the number; the other ones are fixed. -/
theorem flag_of_value {num : BitVec 32} (h : num &&& ~~~0x20000000#32 = 0x40000000#32) :
    0x40000000#32 ||| ((if num &&& 0x20000000#32 != 0#32 then 1#32 else 0#32) <<< 29) = num := by
  have hsplit : num = (num &&& ~~~0x20000000#32) ||| (num &&& 0x20000000#32) := by
    apply BitVec.eq_of_getLsbD_eq
    intro i hi
    rw [BitVec.getLsbD_or, BitVec.getLsbD_and, BitVec.getLsbD_and, BitVec.getLsbD_not, decide_eq_true hi]
    cases num.getLsbD i <;> simp
  have hflag : num &&& 0x20000000#32 = if num.getLsbD 29 then 0x20000000#32 else 0#32 := BitVec.and_twoPow num 29
  conv_rhs => rw [hsplit, h]
  rw [hflag]
  split <;> rfl

/-- The hash part is where it was. -/
theorem rawHash_bytes {bytes : List Byte} (h : bytes.length = 36) : (rawHash bytes).bytes = bytes.drop 4 := by
  have hdrop : (bytes.drop 4).length = 32 := by rw [List.length_drop, h]
  rw [rawHash, dif_pos hdrop]

theorem encode_of_fromRaw {bytes : List Byte} {r : Ref} (hsize : bytes.length = 36) (h : fromRaw bytes = .ok r) :
    r.encode = bytes := by
  have hnum : u32ToBeBytes (u32FromBeBytes (bytes.take 4)) = bytes.take 4 :=
    u32ToBeBytes_fromBeBytes (by rw [List.length_take, hsize]; rfl)
  suffices hparts : r.encodeNum = u32FromBeBytes (bytes.take 4) ∧ r.parts.2 = rawHash bytes by
    rw [encode, hparts.1, hparts.2, hnum, rawHash_bytes hsize, List.take_append_drop]
  unfold fromRaw intoParts at h
  simp only at h
  split at h
  · split at h
    · rename_i ptr hptr
      cases h
      refine ⟨?_, rfl⟩
      unfold Ptr.new at hptr
      split at hptr
      · rename_i hzero
        cases hptr
        exact hzero.symm
      · split at hptr
        · cases hptr
          rfl
        · cases hptr
    · cases h
  · split at h
    · cases h
    · rename_i hvalue
      cases h
      exact ⟨flag_of_value (not_not.mp hvalue), rfl⟩

end Reference

namespace Node

variable {P S P' S' : Type}

/-- Builds raw representation of given node. -/
def encode : Node (Option Ptr) Bool → RawNode
  | branch left right => RawNode.branch left right
  | extension key child => RawNode.extension key child

/-- Keys are compared as slices are, which leaves their memory aside. -/
def eq [DecidableEq P] [DecidableEq S] : Node P S → Node P S → Bool
  | branch left right, branch left' right' => left == left' && right == right'
  | extension key child, extension key' child' => key.slice.eq key'.slice && child == child'
  | _, _ => false

theorem eq_branch [DecidableEq P] [DecidableEq S] {left right left' right' : Reference P S} :
    (branch left right).eq (branch left' right') = true ↔ left = left' ∧ right = right' := by
  simp [eq]

theorem eq_extension [DecidableEq P] [DecidableEq S] {key key' : ExtKey} {child child' : Reference P S} :
    (extension key child).eq (extension key' child') = true ↔
      (key.offset = key'.offset ∧ key.bits = key'.bits) ∧ child = child' := by
  simp only [eq, Bool.and_eq_true, Slice.eq_iff, beq_iff_eq]
  rfl

theorem encode_congr {node node' : Node (Option Ptr) Bool} (h : node.eq node' = true) : node.encode = node'.encode := by
  cases node with
  | branch left right =>
    cases node' with
    | branch left' right' =>
      obtain ⟨rfl, rfl⟩ := eq_branch.mp h
      rfl
    | extension key' child' => cases h
  | extension key child =>
    cases node' with
    | branch left' right' => cases h
    | extension key' child' =>
      obtain ⟨⟨ho, hb⟩, rfl⟩ := eq_extension.mp h
      exact RawNode.extension_congr child ho hb

end Node

namespace RawNode

theorem decode_encode (node : Node (Option Ptr) Bool) :
    ∃ node', node.encode.decode = .ok node' ∧ node'.eq node = true := by
  cases node with
  | branch left right => exact ⟨_, decode_branch left right, Node.eq_branch.mpr ⟨rfl, rfl⟩⟩
  | extension key child =>
    obtain ⟨key', hdec, ho, hb⟩ := decode_extension key child
    exact ⟨_, hdec, Node.eq_extension.mpr ⟨⟨ho, hb⟩, rfl⟩⟩

theorem eq_of_bytes {raw raw' : RawNode} (h : raw.bytes = raw'.bytes) : raw = raw' := by
  cases raw
  cases raw'
  cases h
  rfl

theorem encode_of_decode {raw : RawNode} {node : Node (Option Ptr) Bool} (h : raw.decode = .ok node) :
    node.encode = raw := by
  have hleft : (raw.bytes.take 36).length = 36 := by rw [List.length_take, raw.size]; rfl
  have hright : (raw.bytes.drop 36).length = 36 := by rw [List.length_drop, raw.size]
  unfold decode halfs at h
  simp only at h
  obtain ⟨right, hr, h⟩ := FailingState.bind_eq_ok.mp h
  have hrbytes := Reference.encode_of_fromRaw hright hr
  apply eq_of_bytes
  split at h
  · obtain ⟨left, hl, hnode⟩ := FailingState.bind_eq_ok.mp h
    cases hnode
    change left.encode ++ right.encode = raw.bytes
    rw [Reference.encode_of_fromRaw hleft hl, hrbytes, List.take_append_drop]
  · split at h
    · rename_i key hkey
      cases h
      change (key.encodeInto 0x80#8).1 ++ right.encode = raw.bytes
      rw [ExtKey.encodeInto_of_decode hleft hkey, hrbytes, List.take_append_drop]
    · cases h

/-- Nodes are decoded from what they are encoded as, and what is decoded encodes to the same bytes. Equal nodes
are decoded from one byte string only. -/
theorem codec_bijective :
    (∀ node : Node (Option Ptr) Bool, ∃ node', node.encode.decode = .ok node' ∧ node'.eq node = true) ∧
      (∀ (raw : RawNode) (node : Node (Option Ptr) Bool), raw.decode = .ok node → node.encode = raw) ∧
      ∀ (raw raw' : RawNode) (node node' : Node (Option Ptr) Bool), raw.decode = .ok node → raw'.decode = .ok node' →
        node.eq node' = true → raw = raw' := by
  refine ⟨decode_encode, fun raw node => encode_of_decode, ?_⟩
  intro raw raw' node node' h h' heq
  rw [← encode_of_decode h, ← encode_of_decode h', Node.encode_congr heq]

end RawNode

namespace Reference

variable {P S : Type}

/-- The reference without its pointer or its flag. -/
def erase : Reference P S → Reference Unit Unit
  | node nref => .node ⟨(), nref.hash⟩
  | value vref => .value ⟨(), vref.hash⟩

theorem parts_erase (r : Reference P S) : r.erase.parts = r.parts := by
  cases r <;> rfl

theorem eq_of_parts {r r' : Reference Unit Unit} (h : r.parts = r'.parts) : r = r' := by
  cases r with
  | node nref =>
    cases r' with
    | node nref' =>
      obtain ⟨-, hhash⟩ := Prod.mk.inj h
      obtain ⟨⟨⟩, hash⟩ := nref
      obtain ⟨⟨⟩, hash'⟩ := nref'
      cases hhash
      rfl
    | value vref' => cases (Prod.mk.inj h).1
  | value vref =>
    cases r' with
    | node nref' => cases (Prod.mk.inj h).1
    | value vref' =>
      obtain ⟨-, hhash⟩ := Prod.mk.inj h
      obtain ⟨⟨⟩, hash⟩ := vref
      obtain ⟨⟨⟩, hash'⟩ := vref'
      cases hhash
      rfl

theorem erase_eq_iff {P' S' : Type} {r : Reference P S} {r' : Reference P' S'} :
    r.erase = r'.erase ↔ r.parts = r'.parts := by
  rw [← parts_erase r, ← parts_erase r']
  exact ⟨congrArg parts, eq_of_parts⟩

end Reference

namespace Node

variable {P S P' S' : Type}

/-- The node without pointers and sealed flags. -/
def erase : Node P S → Node Unit Unit
  | branch left right => branch left.erase right.erase
  | extension key child => extension key child.erase

/-- What is hashed is the same for nodes which differ in pointers and sealed flags at most, and for no others. -/
theorem preimage_eq_iff (node : Node P S) (node' : Node P' S') :
    node.preimage = node'.preimage ↔ node.erase.eq node'.erase = true := by
  cases node with
  | branch left right =>
    cases node' with
    | branch left' right' =>
      rw [preimage_branch, preimage_branch, erase, erase, eq_branch, Reference.erase_eq_iff, Reference.erase_eq_iff]
      constructor
      · exact branchPreimage_inj
      · rintro ⟨hl, hr⟩
        rw [hl, hr]
    | extension key' child' =>
      rw [preimage_branch, preimage_extension]
      exact iff_of_false (branchPreimage_ne_extPreimage (ExtKey.num_lt key')) nofun
  | extension key child =>
    cases node' with
    | branch left' right' =>
      rw [preimage_branch, preimage_extension]
      exact iff_of_false (branchPreimage_ne_extPreimage (ExtKey.num_lt key)).symm nofun
    | extension key' child' =>
      rw [preimage_extension, preimage_extension, erase, erase, eq_extension, Reference.erase_eq_iff]
      constructor
      · intro h
        obtain ⟨ho, hb, hc⟩ := extPreimage_inj (ExtKey.num_lt key) (ExtKey.num_lt key') h
        exact ⟨⟨ho, hb⟩, hc⟩
      · rintro ⟨⟨ho, hb⟩, hc⟩
        rw [ho, hb, hc]

/-- Bytes which are hashed tell the node up to pointers and sealed flags; those of branches and those of extensions
never meet. -/
theorem preimage_exact (node : Node P S) (node' : Node P' S') :
    (node.preimage = node'.preimage ↔ node.erase.eq node'.erase = true) ∧
      ∀ (left right : Reference P S) (key : ExtKey) (child : Reference P' S'),
        (branch left right).preimage ≠ (extension key child).preimage := by
  refine ⟨preimage_eq_iff node node', ?_⟩
  intro left right key child h
  have heq := (preimage_eq_iff _ _).mp h
  cases heq

end Node

end Nodes
