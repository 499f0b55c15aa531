import EmulatedLightClient.AccountAllocator

/-!
# The account as a heap

What the allocator is for: contents of live blocks and the list of released ones. The
account represents a heap if the links in the released blocks spell that list, the live
blocks hold the contents and together they are all the blocks below the next one. Every
call keeps that, and so does closing the account and opening it again.
-/

namespace SolanaTrie

open ByteBits Buffers Nodes Memory MachineInts SealableTrie

namespace Addr

theorem new_eq_some {n : BitVec 32} {a : Addr} : new n = some a ↔ a.num = n := by
  unfold new
  split
  · rename_i h
    constructor
    · intro he
      cases he
    · intro he
      exact absurd (he.trans h) a.nonzero
  · constructor
    · intro he
      cases he
      rfl
    · rintro rfl
      rfl

theorem ext_usize {a b : Addr} (h : a.usize = b.usize) : a = b := by
  obtain ⟨m, hm⟩ := a
  obtain ⟨n, hn⟩ := b
  obtain rfl : m = n := BitVec.eq_of_toNat_eq h
  rfl

theorem usize_pos (a : Addr) : 0 < a.usize :=
  Nat.pos_of_ne_zero fun h => a.nonzero (BitVec.eq_of_toNat_eq h)

theorem usize_lt (a : Addr) : a.usize < 2 ^ 32 := a.num.isLt

/-- The address with given value. -/
theorem exists_new {n : Nat} (hpos : 0 < n) (hlt : n < 2 ^ 32) : ∃ a, new (BitVec.ofNat 32 n) = some a ∧ a.usize = n := by
  have hval : (BitVec.ofNat 32 n).toNat = n := by
    rw [BitVec.toNat_ofNat, Nat.mod_eq_of_lt hlt]
  have hne : BitVec.ofNat 32 n ≠ 0#32 := by
    intro h
    have hzero := congrArg BitVec.toNat h
    rw [hval] at hzero
    exact absurd hzero (Nat.pos_iff_ne_zero.mp hpos)
  exact ⟨⟨_, hne⟩, new_eq_some.mpr rfl, hval⟩

end Addr

theorem ptr_pos (p : Ptr) : 0 < p.num.toNat :=
  Nat.pos_of_ne_zero fun h => p.nonzero (BitVec.eq_of_toNat_eq h)

theorem ptr_ext {p q : Ptr} (h : p.num.toNat = q.num.toNat) : p = q := by
  obtain ⟨m, hm, hm'⟩ := p
  obtain ⟨n, hn, hn'⟩ := q
  obtain rfl : m = n := BitVec.eq_of_toNat_eq h
  rfl

/-- Where the pointer's block starts. -/
def offset (p : Ptr) : Nat := blockSize * p.num.toNat

theorem offset_eq (p : Ptr) : offset p = 72 * p.num.toNat := rfl

theorem ofPtr_of_lt {p : Ptr} (h : offset p < 2 ^ 32) : ∃ a, Addr.ofPtr p = some a ∧ a.usize = offset p := by
  have hmul : p.num.toNat * blockSize = offset p := Nat.mul_comm _ _
  have hpos := ptr_pos p
  rw [Addr.ofPtr, checkedMul, hmul, if_pos h]
  exact Addr.exists_new (by rw [offset_eq]; omega) h

theorem ofPtr_usize {p : Ptr} {a : Addr} (h : Addr.ofPtr p = some a) : a.usize = offset p := by
  by_cases hlt : offset p < 2 ^ 32
  · obtain ⟨b, hb, husize⟩ := ofPtr_of_lt hlt
    rw [h] at hb
    cases hb
    exact husize
  · have hmul : p.num.toNat * blockSize = offset p := Nat.mul_comm _ _
    rw [Addr.ofPtr, checkedMul, hmul, if_neg hlt] at h
    cases h

theorem ofPtr_inj {p q : Ptr} {a : Addr} (hp : Addr.ofPtr p = some a) (hq : Addr.ofPtr q = some a) : p = q := by
  have h := (ofPtr_usize hp).symm.trans (ofPtr_usize hq)
  rw [offset_eq, offset_eq] at h
  exact ptr_ext (by omega)

/-- Addresses of blocks have pointers. -/
theorem toPtr_of_aligned {a : Addr} {n : Nat} (h : a.usize = blockSize * n) :
    ∃ p, a.toPtr = some p ∧ p.num.toNat = n ∧ Addr.ofPtr p = some a := by
  change a.usize = 72 * n at h
  have hpos := a.usize_pos
  have hlt := a.usize_lt
  have hval : (BitVec.ofNat 32 n).toNat = n := by
    rw [BitVec.toNat_ofNat, Nat.mod_eq_of_lt (by omega)]
  have hne : BitVec.ofNat 32 n ≠ 0#32 := by
    intro hz
    have hzero := congrArg BitVec.toNat hz
    rw [hval, BitVec.toNat_ofNat, Nat.zero_mod] at hzero
    omega
  have hmax : (BitVec.ofNat 32 n).toNat ≤ Ptr.max := by
    rw [hval, Ptr.max]
    omega
  refine ⟨⟨_, hne, hmax⟩, ?_, hval, ?_⟩
  · have hdiv : a.usize / blockSize = n := by
      change a.usize / 72 = n
      omega
    have hmod : ¬ a.usize % blockSize ≠ 0 := by
      change ¬ a.usize % 72 ≠ 0
      omega
    rw [Addr.toPtr, if_neg hmod, hdiv, Ptr.new, dif_neg hne, dif_pos hmax]
  · have hoffset : offset ⟨BitVec.ofNat 32 n, hne, hmax⟩ = a.usize := by
      rw [offset_eq, h, hval]
    obtain ⟨b, hb, husize⟩ := ofPtr_of_lt (hoffset.trans_lt hlt)
    rw [hb, Addr.ext_usize (husize.trans hoffset)]

theorem toPtr_of_ofPtr {p : Ptr} {a : Addr} (h : Addr.ofPtr p = some a) : a.toPtr = some p := by
  obtain ⟨q, hq, -, hofPtr⟩ := toPtr_of_aligned (ofPtr_usize h)
  rw [hq, ofPtr_inj h hofPtr]

namespace Allocator

variable {D : Type} [DataRef D] {a : Allocator D} {p : Ptr}

theorem get_eq_some {v : RawNode} (hlt : offset p < 2 ^ 32) (hfits : offset p + blockSize ≤ DataRef.len a.data)
    (hslice : slice (DataRef.bytes a.data) (offset p) blockSize = v.bytes) : a.get p = some v := by
  obtain ⟨addr, haddr, husize⟩ := ofPtr_of_lt hlt
  obtain ⟨bytes, hsize⟩ := v
  change slice _ _ _ = bytes at hslice
  rw [← husize] at hfits hslice
  rw [get, haddr, Option.bind_eq_bind, Option.bind_some, DataRef.get_eq hfits, hslice, Option.bind_eq_bind,
    Option.bind_some, dif_pos hsize]

theorem setBytes_eq {bytes : List Byte} (hlt : offset p < 2 ^ 32)
    (hfits : offset p + bytes.length ≤ DataRef.len a.data) :
    ∃ data, a.setBytes p bytes = some { a with data := data } ∧
      DataRef.bytes data = splice (DataRef.bytes a.data) (offset p) bytes := by
  obtain ⟨addr, haddr, husize⟩ := ofPtr_of_lt hlt
  rw [← husize] at hfits ⊢
  obtain ⟨data, hdata, hbytes⟩ := DataRef.getMut_eq hfits
  refine ⟨data, ?_, hbytes⟩
  rw [setBytes, haddr, Option.bind_eq_bind, Option.bind_some, hdata]
  rfl

end Allocator

structure Heap where
  cell : Ptr → Option RawNode
  freed : List Ptr

namespace Heap

def empty : Heap := ⟨fun _ => none, []⟩

def alloc (h : Heap) (ptr : Ptr) (value : RawNode) : Heap :=
  ⟨Function.update h.cell ptr (some value), h.freed.erase ptr⟩

def set (h : Heap) (ptr : Ptr) (value : RawNode) : Heap := { h with cell := Function.update h.cell ptr (some value) }

def free (h : Heap) (ptr : Ptr) : Heap := ⟨Function.update h.cell ptr none, ptr :: h.freed⟩

variable (h : Heap) (p : Ptr) (v : RawNode)

@[simp] theorem alloc_cell : (h.alloc p v).cell = Function.update h.cell p (some v) := rfl

@[simp] theorem alloc_freed : (h.alloc p v).freed = h.freed.erase p := rfl

@[simp] theorem set_cell : (h.set p v).cell = Function.update h.cell p (some v) := rfl

@[simp] theorem set_freed : (h.set p v).freed = h.freed := rfl

@[simp] theorem free_cell : (h.free p).cell = Function.update h.cell p none := rfl

@[simp] theorem free_freed : (h.free p).freed = p :: h.freed := rfl

end Heap

/-- The links from the given one on lead through the blocks of the list and end. -/
def FreeList (bytes : List Byte) : Option Addr → List Ptr → Prop
  | none, [] => True
  | some addr, p :: ps =>
    Addr.ofPtr p = some addr ∧ FreeList bytes (Addr.new (u32FromNeBytes (slice bytes addr.usize 4))) ps
  | _, _ => False

theorem FreeList.congr {bytes bytes' : List Byte} {first : Option Addr} {ps : List Ptr}
    (h : FreeList bytes first ps)
    (hsame : ∀ p ∈ ps, slice bytes' (offset p) 4 = slice bytes (offset p) 4) : FreeList bytes' first ps := by
  induction ps generalizing first with
  | nil =>
    cases first with
    | none => trivial
    | some addr => exact h
  | cons p ps ih =>
    cases first with
    | none => exact h
    | some addr =>
      obtain ⟨hp, hrest⟩ := h
      refine ⟨hp, ?_⟩
      rw [ofPtr_usize hp, hsame p (List.mem_cons_self ..), ← ofPtr_usize hp]
      exact ih hrest fun q hq => hsame q (List.mem_cons_of_mem _ hq)

/-- The account holds the heap in its first `n` blocks, of which one is the header. -/
structure Represents {D : Type} [DataRef D] (a : Allocator D) (h : Heap) (n : Nat) : Prop where
  aligned : a.nextBlock.usize = blockSize * n
  header : 1 ≤ n
  fits : blockSize * n ≤ DataRef.len a.data
  links : FreeList (DataRef.bytes a.data) a.firstFree h.freed
  nodup : h.freed.Nodup
  live_or_freed : ∀ p : Ptr, p.num.toNat < n ↔ p ∈ h.freed ∨ ∃ v, h.cell p = some v
  not_freed : ∀ {p v}, h.cell p = some v → p ∉ h.freed
  contents : ∀ {p v}, h.cell p = some v → slice (DataRef.bytes a.data) (offset p) blockSize = v.bytes

namespace Represents

variable {D : Type} [DataRef D] {a : Allocator D} {h : Heap} {n : Nat}

theorem cell_lt (hr : Represents a h n) {p : Ptr} {v : RawNode} (hp : h.cell p = some v) : p.num.toNat < n :=
  (hr.live_or_freed p).mpr (Or.inr ⟨v, hp⟩)

theorem freed_lt (hr : Represents a h n) {p : Ptr} (hp : p ∈ h.freed) : p.num.toNat < n :=
  (hr.live_or_freed p).mpr (Or.inl hp)

theorem cell_of_freed (hr : Represents a h n) {p : Ptr} (hp : p ∈ h.freed) : h.cell p = none := by
  cases hv : h.cell p with
  | none => rfl
  | some v => exact absurd hp (hr.not_freed hv)

theorem bounds (hr : Represents a h n) {p : Ptr} (hp : p.num.toNat < n) :
    offset p < 2 ^ 32 ∧ offset p + 72 ≤ DataRef.len a.data := by
  have haligned := hr.aligned
  have hfits := hr.fits
  have hlt := a.nextBlock.usize_lt
  simp only [blockSize] at haligned hfits
  rw [offset_eq]
  omega

/-- Live blocks hold the last value written to them. -/
theorem get_eq (hr : Represents a h n) {p : Ptr} {v : RawNode} (hp : h.cell p = some v) : a.get p = some v := by
  obtain ⟨hlt, hfits⟩ := hr.bounds (hr.cell_lt hp)
  exact Allocator.get_eq_some hlt hfits (hr.contents hp)

theorem disjoint {p q : Ptr} (hne : q ≠ p) : offset q + 72 ≤ offset p ∨ offset p + 72 ≤ offset q := by
  have hnum : q.num.toNat ≠ p.num.toNat := fun he => hne (ptr_ext he)
  rw [offset_eq, offset_eq]
  omega

/-- Writing a block leaves the others as they are. -/
theorem slice_of_ne (hr : Represents a h n) {p q : Ptr} {bytes : List Byte} (hp : p.num.toNat < n)
    (hsize : bytes.length = 72) (hne : q ≠ p) {k : Nat} (hk : k ≤ blockSize) :
    slice (splice (DataRef.bytes a.data) (offset p) bytes) (offset q) k = slice (DataRef.bytes a.data) (offset q) k := by
  obtain ⟨-, hfits⟩ := hr.bounds hp
  have hdisjoint := disjoint hne
  simp only [blockSize] at hk
  refine slice_splice_of_disjoint ?_ (by omega)
  rw [hsize]
  exact hfits

theorem slice_self (hr : Represents a h n) {p : Ptr} {bytes : List Byte} (hp : p.num.toNat < n)
    (hsize : bytes.length = 72) :
    slice (splice (DataRef.bytes a.data) (offset p) bytes) (offset p) blockSize = bytes := by
  obtain ⟨-, hfits⟩ := hr.bounds hp
  refine slice_splice_self ?_ hsize
  rw [hsize]
  exact hfits

theorem len_splice (hr : Represents a h n) {p : Ptr} {bytes : List Byte} (hp : p.num.toNat < n)
    (hsize : bytes.length = 72) : (splice (DataRef.bytes a.data) (offset p) bytes).length = DataRef.len a.data := by
  obtain ⟨-, hfits⟩ := hr.bounds hp
  refine length_splice ?_
  rw [hsize]
  exact hfits

/-- What a write to a block below the next one comes to. -/
theorem setBytes_eq (hr : Represents a h n) {p : Ptr} {bytes : List Byte} (hp : p.num.toNat < n)
    (hsize : bytes.length = 72) :
    ∃ data, a.setBytes p bytes = some { a with data := data } ∧
      DataRef.bytes data = splice (DataRef.bytes a.data) (offset p) bytes := by
  obtain ⟨hlt, hfits⟩ := hr.bounds hp
  refine Allocator.setBytes_eq hlt ?_
  rw [hsize]
  exact hfits

theorem set_spec (hr : Represents a h n) {p : Ptr} {v : RawNode} (hp : h.cell p = some v) (value : RawNode) :
    ∃ a', a.set p value = some a' ∧ Represents a' (h.set p value) n := by
  have hlt := hr.cell_lt hp
  obtain ⟨data, hset, hbytes⟩ := hr.setBytes_eq hlt value.size
  refine ⟨_, hset, ?_⟩
  constructor
  case aligned => exact hr.aligned
  case header => exact hr.header
  case fits =>
    refine hr.fits.trans (Nat.le_of_eq ?_)
    rw [DataRef.len, DataRef.len, hbytes, hr.len_splice hlt value.size, DataRef.len]
  case links =>
    refine hr.links.congr fun q hq => ?_
    rw [hbytes, hr.slice_of_ne hlt value.size (fun he => hr.not_freed hp (he ▸ hq)) (by decide)]
  case nodup => exact hr.nodup
  case live_or_freed =>
    intro q
    rw [hr.live_or_freed q]
    by_cases hq : q = p
    · rw [hq]
      constructor
      · intro _
        exact Or.inr ⟨value, Function.update_self ..⟩
      · intro _
        exact Or.inr ⟨v, hp⟩
    · rw [Heap.set_cell, Heap.set_freed, Function.update_of_ne hq]
  case not_freed =>
    intro q w hq
    by_cases he : q = p
    · rw [he]
      exact hr.not_freed hp
    · rw [Heap.set_cell, Function.update_of_ne he] at hq
      exact hr.not_freed hq
  case contents =>
    intro q w hq
    rw [hbytes]
    by_cases he : q = p
    · subst he
      rw [Heap.set_cell, Function.update_self] at hq
      cases hq
      exact hr.slice_self hlt value.size
    · rw [Heap.set_cell, Function.update_of_ne he] at hq
      rw [hr.slice_of_ne hlt value.size he (Nat.le_refl _)]
      exact hr.contents hq

theorem length_freeRawNode (nextFree : Option Addr) (node : RawNode) :
    (Allocator.freeRawNode nextFree node.bytes).length = 72 := by
  have hsize := node.size
  rw [Allocator.freeRawNode, List.length_append, List.length_append, length_u32ToNeBytes,
    length_slice (by omega), List.length_replicate]

theorem new_elim (first : Option Addr) : Addr.new (first.elim 0#32 Addr.num) = first := by
  cases first with
  | none => rfl
  | some addr => exact Addr.new_eq_some.mpr rfl

/-- The released block links to what was the first one. -/
theorem link_of_freed (hr : Represents a h n) {p : Ptr} (hp : p.num.toNat < n) (node : RawNode) :
    Addr.new (u32FromNeBytes (slice (splice (DataRef.bytes a.data) (offset p)
      (Allocator.freeRawNode a.firstFree node.bytes)) (offset p) 4)) = a.firstFree := by
  have hsize := length_freeRawNode a.firstFree node
  rw [← take_slice (n := blockSize) (by decide), hr.slice_self hp hsize, Allocator.freeRawNode, List.append_assoc,
    List.take_left' (length_u32ToNeBytes _), u32FromNeBytes_toNeBytes, new_elim]

theorem release_spec (hr : Represents a h n) {p : Ptr} {v : RawNode} (hp : h.cell p = some v) :
    ∃ a', a.release p v = some a' ∧ Represents a' (h.free p) n := by
  have hlt := hr.cell_lt hp
  have hsize := length_freeRawNode a.firstFree v
  obtain ⟨data, hset, hbytes⟩ := hr.setBytes_eq hlt hsize
  obtain ⟨addr, haddr, husize⟩ := ofPtr_of_lt (hr.bounds hlt).1
  refine ⟨{ a with data := data, firstFree := some addr }, ?_, ?_⟩
  · rw [Allocator.release, hset, haddr]
    rfl
  constructor
  case aligned => exact hr.aligned
  case header => exact hr.header
  case fits =>
    refine hr.fits.trans (Nat.le_of_eq ?_)
    rw [DataRef.len, DataRef.len, hbytes, hr.len_splice hlt hsize, DataRef.len]
  case links =>
    refine ⟨haddr, ?_⟩
    rw [hbytes, husize, hr.link_of_freed hlt v]
    refine hr.links.congr fun q hq => ?_
    rw [hr.slice_of_ne hlt hsize (fun he => hr.not_freed hp (he ▸ hq)) (by decide)]
  case nodup => exact List.nodup_cons.mpr ⟨hr.not_freed hp, hr.nodup⟩
  case live_or_freed =>
    intro q
    rw [hr.live_or_freed q, Heap.free_freed, List.mem_cons]
    by_cases hq : q = p
    · rw [hq]
      constructor
      · intro _
        exact Or.inl (Or.inl rfl)
      · intro _
        exact Or.inr ⟨v, hp⟩
    · rw [Heap.free_cell, Function.update_of_ne hq]
      simp only [hq, false_or]
  case not_freed =>
    intro q w hq
    by_cases he : q = p
    · rw [he, Heap.free_cell, Function.update_self] at hq
      cases hq
    · rw [Heap.free_cell, Function.update_of_ne he] at hq
      rw [Heap.free_freed, List.mem_cons]
      rintro (hqp | hmem)
      · exact he hqp
      · exact hr.not_freed hq hmem
  case contents =>
    intro q w hq
    by_cases he : q = p
    · rw [he, Heap.free_cell, Function.update_self] at hq
      cases hq
    · rw [Heap.free_cell, Function.update_of_ne he] at hq
      rw [hbytes, hr.slice_of_ne hlt hsize he (Nat.le_refl _)]
      exact hr.contents hq

theorem free_eq (hr : Represents a h n) {p : Ptr} {v : RawNode} (hp : h.cell p = some v)
    (hmarker : Allocator.marker v.bytes ≠ List.replicate 32 0#8) : a.free p = a.release p v := by
  rw [Allocator.free, hr.get_eq hp, Option.bind_eq_bind, Option.bind_some, if_neg hmarker]

theorem free_spec (hr : Represents a h n) {p : Ptr} {v : RawNode} (hp : h.cell p = some v)
    (hmarker : Allocator.marker v.bytes ≠ List.replicate 32 0#8) :
    ∃ a', a.free p = some a' ∧ Represents a' (h.free p) n := by
  rw [hr.free_eq hp hmarker]
  exact hr.release_spec hp

/-- The block as it is found when it is handed out. -/
theorem exists_junk {bytes : List Byte} {off : Nat} (hfits : off + 72 ≤ bytes.length) : ∃ junk : RawNode, slice bytes off blockSize = junk.bytes :=
  ⟨⟨slice bytes off blockSize, length_slice hfits⟩, rfl⟩

/-- A block of the free list can be handed out. -/
theorem pop_spec (hr : Represents a h n) {addr : Addr} (hfirst : a.firstFree = some addr) :
    ∃ a' p junk, a.allocFromFreelist = some (some addr, a') ∧ addr.toPtr = some p ∧ h.cell p = none ∧
      Represents a' (h.alloc p junk) n := by
  have hlinks := hr.links
  rw [hfirst] at hlinks
  cases hfreed : h.freed with
  | nil =>
    rw [hfreed] at hlinks
    exact hlinks.elim
  | cons p ps =>
    rw [hfreed] at hlinks
    obtain ⟨hp, hrest⟩ := hlinks
    have hmem : p ∈ h.freed := hfreed ▸ List.mem_cons_self ..
    have hnodup := hr.nodup
    rw [hfreed, List.nodup_cons] at hnodup
    obtain ⟨-, hfits⟩ := hr.bounds (hr.freed_lt hmem)
    obtain ⟨junk, hjunk⟩ := exists_junk hfits
    have hcell := hr.cell_of_freed hmem
    have herase : (h.alloc p junk).freed = ps := by
      rw [Heap.alloc_freed, hfreed, List.erase_cons_head]
    refine ⟨{ a with firstFree := Addr.new (u32FromNeBytes (slice (DataRef.bytes a.data) addr.usize 4)) }, p, junk, ?_,
      toPtr_of_ofPtr hp, hcell, ?_⟩
    · rw [← ofPtr_usize hp] at hfits
      simp only [Allocator.allocFromFreelist, hfirst]
      rw [DataRef.get_eq (by omega), Option.map_some]
    constructor
    case aligned => exact hr.aligned
    case header => exact hr.header
    case fits => exact hr.fits
    case links =>
      rw [herase]
      exact hrest
    case nodup =>
      rw [herase]
      exact hnodup.2
    case live_or_freed =>
      intro q
      rw [hr.live_or_freed q, herase, hfreed, List.mem_cons, Heap.alloc_cell]
      by_cases hq : q = p
      · rw [hq]
        constructor
        · intro _
          exact Or.inr ⟨junk, Function.update_self ..⟩
        · intro _
          exact Or.inl (Or.inl rfl)
      · rw [Function.update_of_ne hq]
        simp only [hq, false_or]
    case not_freed =>
      intro q w hq
      rw [herase]
      by_cases he : q = p
      · rw [he]
        exact hnodup.1
      · rw [Heap.alloc_cell, Function.update_of_ne he] at hq
        intro hqps
        exact hr.not_freed hq (hfreed ▸ List.mem_cons_of_mem _ hqps)
    case contents =>
      intro q w hq
      by_cases he : q = p
      · subst he
        rw [Heap.alloc_cell, Function.update_self] at hq
        cases hq
        exact hjunk
      · rw [Heap.alloc_cell, Function.update_of_ne he] at hq
        exact hr.contents hq

/-- The account grows by one block when none has been released. -/
theorem grow_spec (hr : Represents a h n) (hfirst : a.firstFree = none) {data : D} {rest : List Byte} {next : Addr}
    (hbytes : DataRef.bytes data = DataRef.bytes a.data ++ rest) (hnext : next.usize = blockSize * (n + 1))
    (hroom : blockSize * (n + 1) ≤ DataRef.len data) :
    ∃ p junk, a.nextBlock.toPtr = some p ∧ h.cell p = none ∧
      Represents { a with data := data, nextBlock := next } (h.alloc p junk) (n + 1) := by
  obtain ⟨p, htoPtr, hnum, -⟩ := toPtr_of_aligned hr.aligned
  have hfreed : h.freed = [] := by
    have hlinks := hr.links
    rw [hfirst] at hlinks
    cases hf : h.freed with
    | nil => rfl
    | cons q qs =>
      rw [hf] at hlinks
      exact hlinks.elim
  have hcell : h.cell p = none := by
    cases hv : h.cell p with
    | none => rfl
    | some v =>
      have := hr.cell_lt hv
      omega
  have hblock : offset p + 72 ≤ (DataRef.bytes data).length := by
    rw [offset_eq, hnum]
    simp only [blockSize, DataRef.len] at hroom
    omega
  obtain ⟨junk, hjunk⟩ := exists_junk hblock
  refine ⟨p, junk, htoPtr, hcell, ?_⟩
  constructor
  case aligned => exact hnext
  case header => omega
  case fits => exact hroom
  case links =>
    rw [Heap.alloc_freed, hfreed, hfirst]
    trivial
  case nodup =>
    rw [Heap.alloc_freed, hfreed]
    exact List.nodup_nil
  case live_or_freed =>
    intro q
    rw [Heap.alloc_freed, hfreed, Heap.alloc_cell]
    have hq := hr.live_or_freed q
    rw [hfreed] at hq
    by_cases he : q = p
    · rw [he, hnum]
      constructor
      · intro _
        exact Or.inr ⟨junk, Function.update_self ..⟩
      · intro _
        omega
    · have hne : q.num.toNat ≠ n := fun hqn => he (ptr_ext (hqn.trans hnum.symm))
      rw [Function.update_of_ne he, List.erase_nil, ← hq]
      omega
  case not_freed =>
    intro q w _
    rw [Heap.alloc_freed, hfreed]
    exact List.not_mem_nil
  case contents =>
    intro q w hq
    by_cases he : q = p
    · subst he
      rw [Heap.alloc_cell, Function.update_self] at hq
      cases hq
      exact hjunk
    · rw [Heap.alloc_cell, Function.update_of_ne he] at hq
      have hfits : offset q + blockSize ≤ (DataRef.bytes a.data).length := (hr.bounds (hr.cell_lt hq)).2
      rw [hbytes, slice_append_left hfits]
      exact hr.contents hq

/-- A block which is about to be handed out is written. -/
theorem place_spec {a' : Allocator D} {addr : Addr} {p : Ptr} {junk : RawNode} (hr : Represents a' (h.alloc p junk) n)
    (haddr : addr.toPtr = some p) (value : RawNode) :
    ∃ a'', Allocator.place value (some addr, a') = some (.ok p, a'') ∧ Represents a'' (h.alloc p value) n := by
  obtain ⟨a'', hset, hr'⟩ := hr.set_spec (Function.update_self ..) value
  refine ⟨a'', ?_, ?_⟩
  · rw [Allocator.place, haddr, Option.bind_eq_bind, Option.bind_some, hset]
    rfl
  · have hheap : (h.alloc p junk).set p value = h.alloc p value := by
      rw [Heap.set, Heap.alloc_cell, Function.update_idem]
      rfl
    rwa [hheap] at hr'

end Represents

/-- Nothing which the allocator keeps in the account or beside it differs. -/
structure Same {D : Type} [DataRef D] (a a' : Allocator D) : Prop where
  bytes : DataRef.bytes a'.data = DataRef.bytes a.data
  nextBlock : a'.nextBlock = a.nextBlock
  firstFree : a'.firstFree = a.firstFree

section

variable {D : Type} [DataRef D] {a : Allocator D} {h : Heap} {n : Nat}

theorem succ_eq_some {addr next : Addr} (hs : addr.succ = some next) : next.usize = addr.usize + blockSize := by
  have hpos := addr.usize_pos
  by_cases hlt : addr.usize + blockSize < 2 ^ 32
  · obtain ⟨b, hb, husize⟩ := Addr.exists_new (Nat.lt_of_lt_of_le hpos (Nat.le_add_right _ blockSize)) hlt
    rw [Addr.succ, checkedAdd, if_pos hlt, Option.bind_some, hb] at hs
    cases hs
    exact husize
  · rw [Addr.succ, checkedAdd, if_neg hlt] at hs
    cases hs

theorem allocNextBlock_spec (hr : Represents a h n) (hfirst : a.firstFree = none) :
    (∃ a', a.allocNextBlock = (none, a') ∧ Same a a') ∨
      ∃ addr a' p junk, a.allocNextBlock = (some addr, a') ∧ addr.toPtr = some p ∧ h.cell p = none ∧
        Represents a' (h.alloc p junk) (n + 1) := by
  unfold Allocator.allocNextBlock
  split
  · exact Or.inl ⟨a, rfl, rfl, rfl, rfl⟩
  · rename_i next hsucc
    have hnext : next.usize = blockSize * (n + 1) := by
      rw [succ_eq_some hsucc, hr.aligned, Nat.mul_succ]
    split
    · rename_i hroom
      rw [hnext] at hroom
      obtain ⟨p, junk, hptr, hcell, hr'⟩ := hr.grow_spec hfirst (List.append_nil _).symm hnext hroom
      exact Or.inr ⟨_, _, p, junk, rfl, hptr, hcell, hr'⟩
    · split
      · rename_i data henlarge
        exact Or.inl ⟨_, rfl, DataRef.enlarge_failed henlarge, rfl, rfl⟩
      · rename_i data henlarge
        obtain ⟨hroom, rest, hbytes⟩ := DataRef.enlarge_ok henlarge
        rw [hnext] at hroom
        obtain ⟨p, junk, hptr, hcell, hr'⟩ := hr.grow_spec hfirst hbytes hnext hroom
        exact Or.inr ⟨_, _, p, junk, rfl, hptr, hcell, hr'⟩

/-- Either a block is handed out which was not live or nothing changes. -/
theorem Represents.alloc_spec (hr : Represents a h n) (value : RawNode) :
    (∃ e a', a.alloc value = some (.error e, a') ∧ Same a a') ∨
      ∃ p a' n', a.alloc value = some (.ok p, a') ∧ h.cell p = none ∧ Represents a' (h.alloc p value) n' := by
  cases hfirst : a.firstFree with
  | some addr =>
    obtain ⟨a', p, junk, hpop, hptr, hcell, hr'⟩ := hr.pop_spec hfirst
    obtain ⟨a'', hplace, hr''⟩ := hr'.place_spec hptr value
    refine Or.inr ⟨p, a'', n, ?_, hcell, hr''⟩
    rw [Allocator.alloc, hpop]
    exact hplace
  | none =>
    have hpop : a.allocFromFreelist = some (none, a) := by
      rw [Allocator.allocFromFreelist, hfirst]
    rcases allocNextBlock_spec hr hfirst with ⟨a', hnext, hsame⟩ | ⟨addr, a', p, junk, hnext, hptr, hcell, hr'⟩
    · refine Or.inl ⟨.outOfMemory, a', ?_, hsame⟩
      simp only [Allocator.alloc, hpop, hnext]
      rfl
    · obtain ⟨a'', hplace, hr''⟩ := hr'.place_spec hptr value
      refine Or.inr ⟨p, a'', n + 1, ?_, hcell, hr''⟩
      simp only [Allocator.alloc, hpop, hnext]
      exact hplace

theorem Represents.of_same {a' : Allocator D} (hr : Represents a h n) (hs : Same a a') : Represents a' h n := by
  obtain ⟨hbytes, hnext, hfirst⟩ := hs
  constructor
  case aligned => exact (congrArg Addr.usize hnext).trans hr.aligned
  case header => exact hr.header
  case fits => exact hr.fits.trans (Nat.le_of_eq (congrArg List.length hbytes.symm))
  case links =>
    rw [hbytes, hfirst]
    exact hr.links
  case nodup => exact hr.nodup
  case live_or_freed => exact hr.live_or_freed
  case not_freed => exact hr.not_freed
  case contents =>
    rw [hbytes]
    exact hr.contents

theorem length_encode (hdr : Header) : hdr.encode.length = 72 := by
  have hsize := hdr.rootHash.size
  simp only [Header.encode, Header.magicV1, List.length_append, length_u32ToNeBytes, hsize, List.length_replicate,
    List.length_cons, List.length_nil]

theorem ptr_new_elim (root : Option Ptr) : Ptr.new (root.elim 0#32 Ptr.num) = .ok root := by
  cases root with
  | none => rfl
  | some p => exact Ptr.new_num p

/-- Where the fields of a header are found. -/
theorem encode_fields (hdr : Header) :
    hdr.encode.take 8 = Header.magicV1 ∧ slice hdr.encode 8 4 = u32ToNeBytes (hdr.rootPtr.elim 0#32 Ptr.num) ∧
      slice hdr.encode 12 32 = hdr.rootHash.bytes ∧ slice hdr.encode 44 4 = u32ToNeBytes hdr.nextBlock ∧
      slice hdr.encode 48 4 = u32ToNeBytes hdr.firstFree := by
  have hmagic : Header.magicV1.length = 8 := rfl
  have hsize := hdr.rootHash.size
  have hu32 := length_u32ToNeBytes
  refine ⟨?_, ?_, ?_, ?_, ?_⟩
  · simp only [Header.encode, List.append_assoc]
    exact List.take_left' hmagic
  · rw [Header.encode, List.append_assoc, List.append_assoc, List.append_assoc]
    exact slice_append_mid hmagic (hu32 _)
  · rw [Header.encode, List.append_assoc, List.append_assoc]
    refine slice_append_mid ?_ hsize
    rw [List.length_append, hmagic, hu32]
  · rw [Header.encode, List.append_assoc]
    refine slice_append_mid ?_ (hu32 _)
    rw [List.length_append, List.length_append, hmagic, hu32, hsize]
  · rw [Header.encode]
    refine slice_append_mid ?_ (hu32 _)
    rw [List.length_append, List.length_append, List.length_append, hmagic, hu32, hsize, hu32]

/-- A header which has been written is read back. -/
theorem decode_of_slice {d : D} {hdr : Header} (hlen : blockSize ≤ DataRef.len d)
    (hslice : slice (DataRef.bytes d) 0 blockSize = hdr.encode) : Header.decode d = some hdr := by
  have hget : DataRef.get d 0 Header.encodedSize = some (slice (DataRef.bytes d) 0 blockSize) :=
    DataRef.get_eq (by rw [Nat.zero_add]; exact hlen)
  have hne : Header.magicV1 ≠ Header.magicUninitialised := by decide
  have hsize := hdr.rootHash.size
  obtain ⟨htake, hroot, hhash, hnext, hfree⟩ := encode_fields hdr
  rw [Header.decode, hget, hslice, Option.bind_eq_bind, Option.bind_some, htake, if_neg hne, if_pos rfl, hroot,
    u32FromNeBytes_toNeBytes, ptr_new_elim, hnext, hfree]
  simp only [hhash, u32FromNeBytes_toNeBytes, hsize, dif_pos]

theorem new_of_decode {d : D} {hdr : Header} {next : Addr} (hdecode : Header.decode d = some hdr)
    (hnext : Addr.new hdr.nextBlock = some next) :
    TrieAccount.new d = some ⟨hdr.rootPtr, hdr.rootHash, ⟨d, next, Addr.new hdr.firstFree⟩⟩ := by
  have hnew : Allocator.new d = some (⟨d, next, Addr.new hdr.firstFree⟩, (hdr.rootPtr, hdr.rootHash)) := by
    rw [Allocator.new, hdecode, Option.bind_eq_bind, Option.bind_some, hnext]
    rfl
  rw [TrieAccount.new, hnew]
  rfl

/-- Whatever root is written with the header is found again and so is the heap. -/
theorem Represents.reopen_spec (hr : Represents a h n) (rootPtr : Option Ptr) (rootHash : CryptoHash) :
    ∃ closed, TrieAccount.drop ⟨rootPtr, rootHash, a⟩ = some closed ∧
      ∀ (d : D) (rest : List Byte), DataRef.bytes d = DataRef.bytes closed ++ rest →
        ∃ a', TrieAccount.new d = some ⟨rootPtr, rootHash, a'⟩ ∧ a'.nextBlock = a.nextBlock ∧
          a'.firstFree = a.firstFree ∧ Represents a' h n := by
  let hdr : Header := ⟨rootPtr, rootHash, a.nextBlock.num, a.firstFree.elim 0#32 Addr.num⟩
  have hheader := hr.header
  have hfits := hr.fits
  simp only [blockSize, DataRef.len] at hfits
  have hroom : 0 + hdr.encode.length ≤ (DataRef.bytes a.data).length := by
    rw [length_encode]
    omega
  obtain ⟨closed, hclosed, hbytes⟩ := DataRef.getMut_eq hroom
  have hlen : (DataRef.bytes closed).length = (DataRef.bytes a.data).length := by
    rw [hbytes, length_splice hroom]
  refine ⟨closed, hclosed, ?_⟩
  intro d rest hd
  have hslice : ∀ {p : Ptr} {k : Nat}, p.num.toNat < n → k ≤ blockSize →
      slice (DataRef.bytes d) (offset p) k = slice (DataRef.bytes a.data) (offset p) k := by
    intro p k hp hk
    have hpos := ptr_pos p
    have hbounds := (hr.bounds hp).2
    rw [offset_eq] at hbounds ⊢
    simp only [blockSize, DataRef.len] at hk hbounds
    rw [hd, slice_append_left (by omega), hbytes, slice_splice_of_disjoint hroom]
    rw [length_encode]
    omega
  have hdecode : Header.decode d = some hdr := by
    refine decode_of_slice ?_ ?_
    · rw [DataRef.len, hd, List.length_append, hlen]
      simp only [blockSize]
      omega
    · have hsize : hdr.encode.length = blockSize := length_encode hdr
      rw [hd, slice_append_left, hbytes, slice_splice_self hroom hsize]
      rw [hlen]
      simp only [blockSize]
      omega
  refine ⟨⟨d, a.nextBlock, a.firstFree⟩, ?_, rfl, rfl, ?_⟩
  · have hfirst : Addr.new hdr.firstFree = a.firstFree := Represents.new_elim a.firstFree
    rw [new_of_decode hdecode (Addr.new_eq_some.mpr rfl), hfirst]
  · constructor
    case aligned => exact hr.aligned
    case header => exact hr.header
    case fits =>
      refine hr.fits.trans ?_
      rw [DataRef.len, DataRef.len, hd, List.length_append, hlen]
      exact Nat.le_add_right _ _
    case links => exact hr.links.congr fun p hp => hslice (hr.freed_lt hp) (by decide)
    case nodup => exact hr.nodup
    case live_or_freed => exact hr.live_or_freed
    case not_freed => exact hr.not_freed
    case contents =>
      intro p v hp
      rw [hslice (hr.cell_lt hp) (Nat.le_refl _)]
      exact hr.contents hp

/-- An account which has not been used yet is an empty heap. -/
theorem new_of_zeros {data : D} (hlen : blockSize ≤ DataRef.len data) (hzero : ∀ b ∈ DataRef.bytes data, b = 0#8) :
    ∃ a, TrieAccount.new data = some ⟨none, emptyTrieRoot, a⟩ ∧ Represents a Heap.empty 1 := by
  have hget : DataRef.get data 0 Header.encodedSize = some (slice (DataRef.bytes data) 0 blockSize) :=
    DataRef.get_eq (by rw [Nat.zero_add]; exact hlen)
  have hmagic : (slice (DataRef.bytes data) 0 blockSize).take 8 = Header.magicUninitialised := by
    rw [take_slice (by decide)]
    refine List.eq_replicate_iff.mpr ⟨length_slice ?_, fun b hb => ?_⟩
    · exact Nat.le_trans (by decide) hlen
    · exact hzero b (List.mem_of_mem_drop (List.mem_of_mem_take hb))
  obtain ⟨next, hnext, husize⟩ := Addr.exists_new (n := Header.encodedSize) (by decide) (by decide)
  refine ⟨⟨data, next, none⟩, ?_, ?_⟩
  · have hdecode : Header.decode data = some ⟨none, emptyTrieRoot, BitVec.ofNat 32 Header.encodedSize, 0#32⟩ := by
      rw [Header.decode, hget, Option.bind_eq_bind, Option.bind_some, if_pos hmagic]
      rfl
    exact new_of_decode hdecode hnext
  · constructor
    case aligned => exact husize
    case header => exact Nat.le_refl 1
    case fits => exact hlen
    case links => trivial
    case nodup => exact List.nodup_nil
    case live_or_freed =>
      intro p
      have hpos := ptr_pos p
      constructor
      · intro hlt
        omega
      · rintro (hmem | ⟨v, hv⟩)
        · cases hmem
        · cases hv
    case not_freed =>
      intro p v hp
      cases hp
    case contents =>
      intro p v hp
      cases hp

end

/-- `reopen` ends the session, with given root of the trie, and starts the next one with the
account as it is by then. -/
inductive Call (D : Type) where
  | alloc (value : RawNode)
  | set (ptr : Ptr) (value : RawNode)
  | free (ptr : Ptr)
  | reopen (rootPtr : Option Ptr) (rootHash : CryptoHash) (reload : D → D)

inductive Answer where
  | allocated (result : Except OutOfMemory Ptr)
  | done
  | opened (rootPtr : Option Ptr) (rootHash : CryptoHash)
  deriving DecidableEq

section

variable {D : Type} [DataRef D]

def Allocator.step (a : Allocator D) : Call D → Option (Answer × Allocator D)
  | .alloc value => (a.alloc value).map fun (result, a) => (.allocated result, a)
  | .set ptr value => (a.set ptr value).map fun a => (.done, a)
  | .free ptr => (a.free ptr).map fun a => (.done, a)
  | .reopen rootPtr rootHash reload => do
    let closed ← TrieAccount.drop ⟨rootPtr, rootHash, a⟩
    let trie ← TrieAccount.new (reload closed)
    return (.opened trie.rootPtr trie.rootHash, trie.alloc)

omit [DataRef D] in
/-- What the call does to the heap. -/
def Heap.after (h : Heap) : Call D → Answer → Heap
  | .alloc value, .allocated (.ok ptr) => h.alloc ptr value
  | .set ptr value, _ => h.set ptr value
  | .free ptr, _ => h.free ptr
  | _, _ => h

/-- Between sessions the account may have grown but it keeps its bytes. -/
def Reloads (reload : D → D) : Prop := ∀ d, ∃ rest, DataRef.bytes (reload d) = DataRef.bytes d ++ rest

/-- Only live blocks are written and released, the latter only if they do not look released. -/
def Allowed (h : Heap) : Call D → Prop
  | .alloc _ => True
  | .set ptr _ => ∃ v, h.cell ptr = some v
  | .free ptr => ∃ v, h.cell ptr = some v ∧ Allocator.marker v.bytes ≠ List.replicate 32 0#8
  | .reopen _ _ reload => Reloads reload

/-- States a run of calls from a zeroed account leads to and what was written up to then. -/
inductive Reached : Allocator D → Heap → Prop
  | start {data : D} {a : Allocator D} {rootPtr : Option Ptr} {rootHash : CryptoHash}
      (hlen : blockSize ≤ DataRef.len data) (hzero : ∀ b ∈ DataRef.bytes data, b = 0#8)
      (hnew : TrieAccount.new data = some ⟨rootPtr, rootHash, a⟩) : Reached a Heap.empty
  | step {a a' : Allocator D} {h : Heap} {call : Call D} {answer : Answer} (hreached : Reached a h)
      (hallowed : Allowed h call) (hstep : a.step call = some (answer, a')) : Reached a' (h.after call answer)

/-- What is promised of an answer besides that the heap it leads to is represented. -/
def Meets (a : Allocator D) (h : Heap) : Call D → Answer → Allocator D → Prop
  | .alloc _, .allocated (.ok p), a' =>
    h.cell p = none ∧ blockSize ≤ offset p ∧ offset p + blockSize ≤ DataRef.len a'.data
  | .alloc _, .allocated (.error _), a' => Same a a'
  | .set _ _, .done, a' | .free _, .done, a' => a'.nextBlock = a.nextBlock
  | .reopen rootPtr rootHash _, .opened rootPtr' rootHash', a' =>
    rootPtr' = rootPtr ∧ rootHash' = rootHash ∧ a'.nextBlock = a.nextBlock ∧ a'.firstFree = a.firstFree ∧
      (∀ p v, h.cell p = some v → a'.get p = some v) ∧ FreeList (DataRef.bytes a'.data) a'.firstFree h.freed
  | _, _, _ => False

variable {a : Allocator D} {h : Heap} {n : Nat}

theorem Represents.step_spec (hr : Represents a h n) {call : Call D} (hallowed : Allowed h call) :
    ∃ answer a' n', a.step call = some (answer, a') ∧ Meets a h call answer a' ∧
      Represents a' (h.after call answer) n' := by
  cases call with
  | alloc value =>
    rcases hr.alloc_spec value with ⟨e, a', halloc, hsame⟩ | ⟨p, a', n', halloc, hcell, hr'⟩
    · refine ⟨.allocated (.error e), a', n, ?_, hsame, hr.of_same hsame⟩
      rw [Allocator.step, halloc, Option.map_some]
    · refine ⟨.allocated (.ok p), a', n', ?_, ⟨hcell, ?_, ?_⟩, hr'⟩
      · rw [Allocator.step, halloc, Option.map_some]
      · exact Nat.le_mul_of_pos_right _ (ptr_pos p)
      · exact (hr'.bounds (hr'.cell_lt (Function.update_self ..))).2
  | set ptr value =>
    obtain ⟨v, hv⟩ := hallowed
    obtain ⟨a', hset, hr'⟩ := hr.set_spec hv value
    refine ⟨.done, a', n, ?_, Addr.ext_usize (hr'.aligned.trans hr.aligned.symm), hr'⟩
    rw [Allocator.step, hset, Option.map_some]
  | free ptr =>
    obtain ⟨v, hv, hmarker⟩ := hallowed
    obtain ⟨a', hfree, hr'⟩ := hr.free_spec hv hmarker
    refine ⟨.done, a', n, ?_, Addr.ext_usize (hr'.aligned.trans hr.aligned.symm), hr'⟩
    rw [Allocator.step, hfree, Option.map_some]
  | reopen rootPtr rootHash reload =>
    obtain ⟨closed, hclosed, hopen⟩ := hr.reopen_spec rootPtr rootHash
    obtain ⟨rest, hrest⟩ := hallowed closed
    obtain ⟨a', hnew, hnext, hfirst, hr'⟩ := hopen (reload closed) rest hrest
    refine ⟨.opened rootPtr rootHash, a', n, ?_, ⟨rfl, rfl, hnext, hfirst, fun _ _ => hr'.get_eq, hr'.links⟩, hr'⟩
    rw [Allocator.step, hclosed, Option.bind_eq_bind, Option.bind_some, hnew]
    rfl

theorem Reached.represents (hreached : Reached a h) : ∃ n, Represents a h n := by
  induction hreached with
  | start hlen hzero hnew =>
    obtain ⟨a', hnew', hr⟩ := new_of_zeros hlen hzero
    rw [hnew] at hnew'
    cases hnew'
    exact ⟨1, hr⟩
  | step _ hallowed hstep ih =>
    obtain ⟨n, hr⟩ := ih
    obtain ⟨answer, a', n', hstep', -, hr'⟩ := hr.step_spec hallowed
    rw [hstep] at hstep'
    cases hstep'
    exact ⟨n', hr'⟩

variable (D) in
/-- A zeroed account can be opened. In every state calls lead to from there, over any number of
sessions, no call panics, live blocks hold what was written to them last, the links go through
exactly the released blocks and end, and each answer is as the heap asks for. -/
theorem account_refines_heap :
    (∀ data : D, blockSize ≤ DataRef.len data → (∀ b ∈ DataRef.bytes data, b = 0#8) →
      ∃ a, TrieAccount.new data = some ⟨none, emptyTrieRoot, a⟩) ∧
    ∀ (a : Allocator D) (h : Heap), Reached a h →
      (∀ p v, h.cell p = some v → a.get p = some v) ∧
      FreeList (DataRef.bytes a.data) a.firstFree h.freed ∧ h.freed.Nodup ∧ (∀ p ∈ h.freed, h.cell p = none) ∧
      ∀ call, Allowed h call → ∃ answer a', a.step call = some (answer, a') ∧ Meets a h call answer a' := by
  constructor
  · intro data hlen hzero
    obtain ⟨a, hnew, -⟩ := new_of_zeros hlen hzero
    exact ⟨a, hnew⟩
  · intro a h hreached
    obtain ⟨n, hr⟩ := hreached.represents
    refine ⟨fun _ _ => hr.get_eq, hr.links, hr.nodup, fun _ => hr.cell_of_freed, ?_⟩
    intro call hallowed
    obtain ⟨answer, a', -, hstep, hmeets, -⟩ := hr.step_spec hallowed
    exact ⟨answer, a', hstep, hmeets⟩

/-- The state after a call; the same one if it panics. -/
def Allocator.next (a : Allocator D) (call : Call D) : Allocator D := ((a.step call).map Prod.snd).getD a

theorem Reached.next {a : Allocator D} {h : Heap} (hreached : Reached a h) (call : Call D) (answer : Answer)
    (hallowed : Allowed h call) (hanswer : (a.step call).map Prod.fst = some answer) :
    Reached (a.next call) (h.after call answer) := by
  obtain ⟨⟨answer', a'⟩, hstep, hfst⟩ := Option.map_eq_some_iff.mp hanswer
  cases hfst
  have hnext : a.next call = a' := by
    rw [Allocator.next, hstep, Option.map_some, Option.getD_some]
  rw [hnext]
  exact hreached.step hallowed hstep

end

namespace Sample

def data : VecData := ⟨List.replicate 72 0#8, 200⟩

theorem length_ones : (List.replicate 32 1#8).length = 32 := rfl

def hash : CryptoHash := ⟨List.replicate 32 1#8, length_ones⟩

def node : RawNode := RawNode.branch (.value ⟨false, hash⟩) (.value ⟨false, hash⟩)

theorem one_ne : (1#32 : BitVec 32) ≠ 0#32 := by decide

theorem one_le : (1#32 : BitVec 32).toNat ≤ 2 ^ 30 - 1 := by decide

def ptr : Ptr := ⟨1#32, one_ne, one_le⟩

theorem size_ne : (72#32 : BitVec 32) ≠ 0#32 := by decide

/-- The account right after it has been opened. -/
def opened : Allocator VecData := ⟨data, ⟨72#32, size_ne⟩, none⟩

end Sample

open Sample in
/-- One block is allocated, the next does not fit; the first one is released and, in the next
session, found in the list. -/
theorem account_refines_heap_sample :
    ∃ (a : Allocator VecData) (h : Heap), Reached a h ∧ h.cell ptr = some node ∧ a.get ptr = some node := by
  have hnew : TrieAccount.new data = some ⟨none, emptyTrieRoot, opened⟩ := rfl
  have hopened : Reached opened Heap.empty := Reached.start (by decide) (by decide) hnew
  have halloc := hopened.next (.alloc node) (.allocated (.ok ptr)) trivial (by decide +kernel)
  have hfull := halloc.next (.alloc node) (.allocated (.error .outOfMemory)) trivial (by decide +kernel)
  have hlive : Function.update Heap.empty.cell ptr (some node) ptr = some node := Function.update_self ..
  have hfree := hfull.next (.free ptr) .done ⟨node, hlive, by decide⟩ (by decide +kernel)
  have hreopened := hfree.next (.reopen none hash id) (.opened none hash) (fun d => ⟨[], (List.append_nil _).symm⟩)
    (by decide +kernel)
  have hagain := hreopened.next (.alloc node) (.allocated (.ok ptr)) trivial (by decide +kernel)
  have hcell : (((Heap.empty.alloc ptr node).free ptr).alloc ptr node).cell ptr = some node := by
    rw [Heap.alloc_cell, Function.update_self]
  exact ⟨_, _, hagain, hcell, ((account_refines_heap VecData).2 _ _ hagain).1 ptr node hcell⟩

end SolanaTrie
