import EmulatedLightClient.FailingState
import EmulatedLightClient.MachineInts
import Mathlib.Algebra.Order.Ring.Nat
import Mathlib.Data.List.Pairwise
import Mathlib.Data.List.Perm.Basic

/-!
# The bump allocator

Memory is handed out from the end of what is in use. The allocator keeps nothing but that end, from which it tells
whether a block is the last one.
-/

namespace BumpAllocator

open ByteBits FailingState MachineInts

/-- Why a call does not return. -/
inductive Fault where
  | headerOutsideHeap
  | badAlignment
  | outOfRange
  | overlap
  | segfault
  deriving DecidableEq

def wrappingAdd (a b : Nat) : Nat := (a + b) % 2 ^ 64

def wrappingSub (a b : Nat) : Nat := (a + (2 ^ 64 - b)) % 2 ^ 64

def withAddr (ptr addr : Nat) : Nat := wrappingAdd ptr (wrappingSub addr ptr)

/-- Where the heap is and how the program was built. What is mapped beyond the heap is not up to the allocator, but
nothing is in the upper half of the addresses. -/
structure Heap where
  test : Bool
  debugAssertions : Bool
  start : Nat
  size : Nat
  headerSize : Nat
  readable : Nat → Bool
  start_pos : 0 < start
  header_ge : 8 ≤ headerSize
  range_le : start + size ≤ 2 ^ 63
  header_le : start + 7 + headerSize ≤ 2 ^ 63
  readable_lt : ∀ addr, readable addr = true → addr < 2 ^ 63

/-- Sizes and alignments which may be asked for. -/
structure Layout where
  size : Nat
  align : Nat
  size_pos : 0 < size
  align_pow : ∃ k, align = 2 ^ k
  fits : (size + align - 1) / align * align < 2 ^ 63

/-- The null pointer is where the last block ends before there is any. -/
structure State where
  endPos : Nat
  mem : Nat → Byte

namespace Heap

variable (heap : Heap)

/-- Aligns the pointer. -/
def align (ptr align : Nat) : Except Fault Nat :=
  let mask := align - 1
  if heap.debugAssertions ∧ ¬ (align ≠ 0 ∧ align &&& mask = 0) then .error .badAlignment
  else .ok (withAddr ptr (wrappingAdd ptr mask &&& (2 ^ 64 - 1 - mask)))

def endAddrOfVal (header : Nat) : Nat := wrappingAdd header heap.headerSize

def heapEnd : Nat := wrappingAdd heap.start heap.size

def copied (mem : Nat → Byte) (dst src size a : Nat) : Byte :=
  if dst ≤ a ∧ a < dst + size then mem (src + (a - dst)) else mem a

/-- Copies between ranges which do not overlap. -/
def memcpy (s : State) (dst src size : Nat) : Except Fault State :=
  let inside := fun addr => dst ≤ addr ∧ addr < wrappingAdd dst size
  if heap.debugAssertions ∧ (inside src ∨ inside (wrappingAdd src size)) then .error .overlap
  else .ok { s with mem := copied s.mem dst src size }

/-- Where the header is. -/
def header : Except Fault Nat := do
  let ptr ← heap.align heap.start 8
  if wrappingAdd ptr 8 ≤ heap.heapEnd then return ptr else throw .headerOutsideHeap

/-- Whether the block from `ptr` up to `end` is available. -/
def available (ptr «end» : Nat) : Except Fault Bool :=
  if heap.test then
    if heap.start ≤ ptr ∧ ptr < heap.heapEnd then .ok («end» ≤ heap.heapEnd) else .error .outOfRange
  else if heap.readable (wrappingSub «end» 1) then .ok true
  else .error .segfault

/-- Ends what is in use with a block from the pointer on, if there is space. -/
def updateEndPos (s : State) (ptr size align : Nat) : Except Fault (Nat × State) := do
  let ptr ← heap.align ptr align
  match checkedAdd 64 ptr size with
  | none => return (0, s)
  | some addr =>
    let endPos := withAddr ptr addr
    if ← heap.available ptr endPos then return (ptr, { s with endPos }) else return (0, s)

def alloc (s : State) (layout : Layout) : Except Fault (Nat × State) := do
  let header ← heap.header
  let ptr := if s.endPos = 0 then withAddr heap.start (heap.endAddrOfVal header) else s.endPos
  heap.updateEndPos s ptr layout.size layout.align

def dealloc (s : State) (ptr : Nat) (layout : Layout) : Except Fault State := do
  let _ ← heap.header
  if wrappingAdd ptr layout.size = s.endPos then return { s with endPos := ptr } else return s

def realloc (s : State) (ptr : Nat) (layout : Layout) (newSize : Nat) : Except Fault (Nat × State) := do
  let _ ← heap.header
  let tail := s.endPos
  if wrappingAdd ptr layout.size = tail then heap.updateEndPos s ptr newSize layout.align
  else if newSize ≤ layout.size then return (ptr, s)
  else
    let (newPtr, s) ← heap.updateEndPos s tail newSize layout.align
    if newPtr = 0 then return (newPtr, s)
    else
      let s ← heap.memcpy s newPtr ptr layout.size
      return (newPtr, s)

end Heap

structure Block where
  ptr : Nat
  layout : Layout

/-- What is allowed: blocks have to be live, and keep their alignment when they are given another size. -/
inductive Call where
  | alloc (layout : Layout)
  | dealloc (index : Nat)
  | realloc (index : Nat) (layout : Layout)
  | store (index offset : Nat) (byte : Byte)

/-- The allocator with the blocks which are live. -/
structure Session where
  state : State
  live : List Block

inductive Stop where
  | contract
  | fault (f : Fault)

namespace Session

/-- The heap is zero to begin with. -/
def start : Session := ⟨⟨0, fun _ => 0#8⟩, []⟩

def lift {α : Type} (x : Except Fault α) : Except Stop α := x.mapError .fault

def step (heap : Heap) (s : Session) : Call → Except Stop Session
  | .alloc layout => do
    let (ptr, state) ← lift (heap.alloc s.state layout)
    if ptr = 0 then return { s with state } else return ⟨state, ⟨ptr, layout⟩ :: s.live⟩
  | .dealloc index =>
    match s.live[index]? with
    | none => .error .contract
    | some b => do
      let state ← lift (heap.dealloc s.state b.ptr b.layout)
      return ⟨state, s.live.eraseIdx index⟩
  | .realloc index layout =>
    match s.live[index]? with
    | none => .error .contract
    | some b =>
      if layout.align = b.layout.align then do
        let (ptr, state) ← lift (heap.realloc s.state b.ptr b.layout layout.size)
        if ptr = 0 then return { s with state } else return ⟨state, s.live.set index ⟨ptr, layout⟩⟩
      else .error .contract
  | .store index offset byte =>
    match s.live[index]? with
    | none => .error .contract
    | some b =>
      if offset < b.layout.size then .ok { s with state.mem := Function.update s.state.mem (b.ptr + offset) byte }
      else .error .contract

def run (heap : Heap) (calls : List Call) : Except Stop Session := calls.foldlM (step heap) start

end Session

theorem and_two_pow_mul (x k m : Nat) : x &&& 2 ^ k * m = 2 ^ k * (x / 2 ^ k &&& m) := by
  refine Nat.eq_of_testBit_eq fun i => ?_
  rw [Nat.testBit_and, Nat.testBit_two_pow_mul, Nat.testBit_two_pow_mul, Nat.testBit_and, Nat.testBit_div_two_pow]
  by_cases hi : k ≤ i
  · rw [Nat.sub_add_cancel hi, Bool.and_left_comm]
  · simp [hi]

theorem and_not_mask {x k : Nat} (hk : k ≤ 64) (hx : x < 2 ^ 64) :
    x &&& (2 ^ 64 - 1 - (2 ^ k - 1)) = 2 ^ k * (x / 2 ^ k) := by
  have hmask : 2 ^ 64 - 1 - (2 ^ k - 1) = 2 ^ k * (2 ^ (64 - k) - 1) := by
    have hpow : (2 : Nat) ^ 64 = 2 ^ k * 2 ^ (64 - k) := by rw [← Nat.pow_add, Nat.add_sub_cancel' hk]
    have hpos := Nat.two_pow_pos k
    rw [hpow, Nat.mul_sub, Nat.mul_one]
    omega
  have hdiv : x / 2 ^ k < 2 ^ (64 - k) := by
    rw [Nat.div_lt_iff_lt_mul (Nat.two_pow_pos k), ← Nat.pow_add, Nat.sub_add_cancel hk]
    exact hx
  rw [hmask, and_two_pow_mul, Nat.and_two_pow_sub_one_eq_mod, Nat.mod_eq_of_lt hdiv]

theorem wrappingAdd_eq {a b : Nat} (h : a + b < 2 ^ 64) : wrappingAdd a b = a + b := Nat.mod_eq_of_lt h

theorem withAddr_eq {ptr addr : Nat} (hptr : ptr < 2 ^ 64) (haddr : addr < 2 ^ 64) : withAddr ptr addr = addr := by
  unfold withAddr wrappingAdd wrappingSub
  omega

theorem Layout.align_lt (layout : Layout) : layout.align < 2 ^ 63 := by
  obtain ⟨k, hk⟩ := layout.align_pow
  have hpos : 0 < layout.align := hk ▸ Nat.two_pow_pos k
  have hsize := layout.size_pos
  have hone : 1 ≤ (layout.size + layout.align - 1) / layout.align :=
    (Nat.le_div_iff_mul_le hpos).mpr (by omega)
  have hle := Nat.mul_le_mul_right layout.align hone
  have hfits := layout.fits
  omega

namespace Heap

variable {heap : Heap}

variable (heap) in
/-- The least multiple of the alignment which is not less than the pointer. -/
theorem align_spec {ptr align : Nat} (hptr : ptr ≤ 2 ^ 63) (halign : align ≤ 2 ^ 63) (hpow : ∃ k, align = 2 ^ k) :
    ∃ p, heap.align ptr align = .ok p ∧ ptr ≤ p ∧ p < ptr + align ∧ align ∣ p := by
  obtain ⟨k, rfl⟩ := hpow
  have hpos := Nat.two_pow_pos k
  have hk : k ≤ 64 := Nat.le_trans ((Nat.pow_le_pow_iff_right (by decide)).mp halign) (by decide)
  have hassert : 2 ^ k &&& (2 ^ k - 1) = 0 := by rw [Nat.and_two_pow_sub_one_eq_mod, Nat.mod_self]
  have hdiv := Nat.div_add_mod (ptr + (2 ^ k - 1)) (2 ^ k)
  have hmod := Nat.mod_lt (ptr + (2 ^ k - 1)) hpos
  refine ⟨2 ^ k * ((ptr + (2 ^ k - 1)) / 2 ^ k), ?_, by omega, by omega, Nat.dvd_mul_right _ _⟩
  rw [align, if_neg (fun h => h.2 ⟨hpos.ne', hassert⟩), wrappingAdd_eq (by omega), and_not_mask hk (by omega),
    withAddr_eq (by omega) (by omega)]

theorem align_self {ptr align p : Nat} (hdvd : align ∣ ptr) (hle : ptr ≤ p) (hlt : p < ptr + align) (hp : align ∣ p) :
    p = ptr := by
  have hsub : align ∣ p - ptr := Nat.dvd_sub hp hdvd
  have hzero := Nat.eq_zero_of_dvd_of_lt hsub (by omega)
  omega

variable (heap) in
/-- Where the first block may start. -/
def headerEnd : Nat := (heap.start + 7) / 8 * 8 + heap.headerSize

theorem headerEnd_le : heap.headerEnd ≤ 2 ^ 63 := by
  have hle := heap.header_le
  have hdiv := Nat.div_mul_le_self (heap.start + 7) 8
  unfold headerEnd
  omega

theorem header_spec {header : Nat} (h : heap.header = .ok header) : heap.endAddrOfVal header = heap.headerEnd := by
  obtain ⟨p, hp, hle, hlt, hdvd⟩ := heap.align_spec (Nat.le_trans (Nat.le_add_right _ _) heap.range_le)
    (by decide : 8 ≤ 2 ^ 63) ⟨3, rfl⟩
  have hheader : p = (heap.start + 7) / 8 * 8 := by omega
  simp only [Heap.header, hp, bind, Except.bind] at h
  split at h
  · cases h
    rw [endAddrOfVal, wrappingAdd_eq, headerEnd, hheader]
    have hend := heap.header_le
    omega
  · cases h

/-- A block is put at the first aligned address, or nothing changes. -/
theorem updateEndPos_spec {s s' : State} {ptr size align p : Nat} (hptr : ptr ≤ 2 ^ 63) (halign : align ≤ 2 ^ 63)
    (hpow : ∃ k, align = 2 ^ k) (hsize : 0 < size) (h : heap.updateEndPos s ptr size align = .ok (p, s')) :
    (p = 0 ∧ s' = s) ∨
      ptr ≤ p ∧ p < ptr + align ∧ align ∣ p ∧ p + size ≤ 2 ^ 63 ∧ s' = { s with endPos := p + size } := by
  obtain ⟨q, hq, hle, hlt, hdvd⟩ := heap.align_spec hptr halign hpow
  simp only [updateEndPos, hq, bind, Except.bind] at h
  split at h
  · cases h
    exact .inl ⟨rfl, rfl⟩
  · rename_i addr haddr
    obtain ⟨hfits, rfl⟩ := checkedAdd_eq_some.mp haddr
    rw [withAddr_eq (by omega) hfits] at h
    cases havailable : heap.available q (q + size) with
    | error e =>
      rw [havailable] at h
      cases h
    | ok b =>
      rw [havailable] at h
      cases b with
      | false =>
        cases h
        exact .inl ⟨rfl, rfl⟩
      | true =>
        cases h
        refine .inr ⟨hle, hlt, hdvd, ?_, rfl⟩
        have hrange := heap.range_le
        unfold available heapEnd at havailable
        rw [wrappingAdd_eq (by omega)] at havailable
        split at havailable
        · split at havailable
          · have hend := of_decide_eq_true (Except.ok.inj havailable)
            omega
          · cases havailable
        · split at havailable
          · rename_i hread
            have hlast := heap.readable_lt _ hread
            rw [wrappingSub] at hlast
            omega
          · cases havailable

end Heap

namespace Block

def stop (b : Block) : Nat := b.ptr + b.layout.size

def Apart (b c : Block) : Prop := b.stop ≤ c.ptr ∨ c.stop ≤ b.ptr

theorem Apart.symm {b c : Block} (h : b.Apart c) : c.Apart b := Or.symm h

end Block

/-- Live blocks are aligned and apart, behind the header and below the end. -/
structure Sound (heap : Heap) (endPos : Nat) (live : List Block) : Prop where
  endPos_le : endPos ≤ 2 ^ 63
  started : endPos = 0 ∨ heap.headerEnd ≤ endPos
  placed : ∀ b ∈ live, b.layout.align ∣ b.ptr ∧ heap.headerEnd ≤ b.ptr ∧ b.stop ≤ endPos
  apart : live.Pairwise Block.Apart

namespace Sound

variable {heap : Heap} {endPos : Nat} {b : Block} {live live' : List Block} {layout : Layout}

theorem start (heap : Heap) : Sound heap 0 [] := ⟨Nat.zero_le _, .inl rfl, nofun, .nil⟩

theorem perm (h : Sound heap endPos live) (hperm : live.Perm live') : Sound heap endPos live' :=
  ⟨h.endPos_le, h.started, fun b hb => h.placed b (hperm.mem_iff.mpr hb), h.apart.perm hperm Block.Apart.symm⟩

theorem pop (h : Sound heap endPos (b :: live)) : Sound heap endPos live :=
  ⟨h.endPos_le, h.started, (List.forall_mem_cons.mp h.placed).2, (List.pairwise_cons.mp h.apart).2⟩

/-- A block which ends where what is in use ends is the last one. -/
theorem pop_last (h : Sound heap endPos (b :: live)) (hlast : b.stop = endPos) : Sound heap b.ptr live := by
  obtain ⟨hb, hlive⟩ := List.forall_mem_cons.mp h.placed
  obtain ⟨hapart, hrest⟩ := List.pairwise_cons.mp h.apart
  have hle := h.endPos_le
  have hptr : b.ptr ≤ b.stop := Nat.le_add_right _ _
  refine ⟨by omega, .inr hb.2.1, fun c hc => ?_, hrest⟩
  obtain ⟨hdvd, hheader, hstop⟩ := hlive c hc
  refine ⟨hdvd, hheader, ?_⟩
  rcases hapart c hc with hbefore | hafter
  · have hsize := c.layout.size_pos
    rw [Block.stop] at hstop
    omega
  · exact hafter

theorem push {ptr : Nat} (h : Sound heap endPos live) (hheader : heap.headerEnd ≤ ptr) (hend : endPos ≤ ptr)
    (hdvd : layout.align ∣ ptr) (hle : ptr + layout.size ≤ 2 ^ 63) :
    Sound heap (ptr + layout.size) (⟨ptr, layout⟩ :: live) := by
  refine ⟨hle, .inr (by omega), List.forall_mem_cons.mpr ⟨⟨hdvd, hheader, Nat.le_refl _⟩, fun c hc => ?_⟩,
    List.pairwise_cons.mpr ⟨fun c hc => ?_, h.apart⟩⟩
  · obtain ⟨hdvd, hheader, hstop⟩ := h.placed c hc
    exact ⟨hdvd, hheader, by omega⟩
  · exact .inr (Nat.le_trans (h.placed c hc).2.2 hend)

theorem shrink (h : Sound heap endPos (b :: live)) (halign : layout.align = b.layout.align)
    (hsize : layout.size ≤ b.layout.size) : Sound heap endPos (⟨b.ptr, layout⟩ :: live) := by
  obtain ⟨⟨hdvd, hheader, hstop⟩, hlive⟩ := List.forall_mem_cons.mp h.placed
  obtain ⟨hapart, hrest⟩ := List.pairwise_cons.mp h.apart
  have hle : Block.stop ⟨b.ptr, layout⟩ ≤ b.stop := Nat.add_le_add_left hsize _
  refine ⟨h.endPos_le, h.started, List.forall_mem_cons.mpr ⟨⟨halign ▸ hdvd, hheader, Nat.le_trans hle hstop⟩, hlive⟩,
    List.pairwise_cons.mpr ⟨fun c hc => ?_, hrest⟩⟩
  exact (hapart c hc).imp (Nat.le_trans hle) id

theorem headerEnd_le_endPos (h : Sound heap endPos (b :: live)) : heap.headerEnd ≤ endPos := by
  obtain ⟨-, hheader, hstop⟩ := h.placed b List.mem_cons_self
  exact Nat.le_trans hheader (Nat.le_trans (Nat.le_add_right _ _) hstop)

theorem stop_eq (h : Sound heap endPos (b :: live)) : wrappingAdd b.ptr b.layout.size = b.stop := by
  have hstop := (h.placed b List.mem_cons_self).2.2
  have hle := h.endPos_le
  rw [Block.stop] at hstop
  exact wrappingAdd_eq (by omega)

end Sound

theorem Heap.headerEnd_pos (heap : Heap) : 0 < heap.headerEnd :=
  Nat.lt_of_lt_of_le (Nat.lt_of_lt_of_le (by decide) heap.header_ge) (Nat.le_add_left _ _)

/-- The bytes of the block are as they were. -/
def Kept (mem mem' : Nat → Byte) (b : Block) : Prop := ∀ a, b.ptr ≤ a → a < b.stop → mem' a = mem a

section

variable {heap : Heap} {s s' : State} {b : Block} {live : List Block} {layout : Layout} {ptr : Nat}

theorem alloc_spec (hsound : Sound heap s.endPos live) (h : heap.alloc s layout = .ok (ptr, s')) :
    (ptr = 0 ∧ s' = s) ∨ ptr ≠ 0 ∧ s'.mem = s.mem ∧ Sound heap s'.endPos (⟨ptr, layout⟩ :: live) := by
  unfold Heap.alloc at h
  cases hheader : heap.header with
  | error e =>
    rw [hheader] at h
    cases h
  | ok header =>
    simp only [hheader, bind, Except.bind, Heap.header_spec hheader] at h
    have hend : heap.headerEnd ≤ 2 ^ 63 := Heap.headerEnd_le
    have hstart : heap.start ≤ 2 ^ 63 := Nat.le_trans (Nat.le_add_right _ _) heap.range_le
    rw [withAddr_eq (by omega) (by omega)] at h
    have hfrom : ∀ n, n = (if s.endPos = 0 then heap.headerEnd else s.endPos) →
        heap.headerEnd ≤ n ∧ s.endPos ≤ n ∧ n ≤ 2 ^ 63 := by
      rintro n rfl
      have hle := hsound.endPos_le
      rcases hsound.started with hzero | hstarted
      · rw [if_pos hzero]
        omega
      · rw [if_neg (by have := heap.headerEnd_pos; omega)]
        omega
    obtain ⟨hheaderEnd, hendPos, hle⟩ := hfrom _ rfl
    rcases Heap.updateEndPos_spec hle layout.align_lt.le layout.align_pow layout.size_pos h with
      hnull | ⟨hptr, -, hdvd, hstop, rfl⟩
    · exact .inl hnull
    · refine .inr ⟨?_, rfl, hsound.push (by omega) (by omega) hdvd hstop⟩
      have hpos := heap.headerEnd_pos
      omega

theorem dealloc_spec (hsound : Sound heap s.endPos (b :: live)) (h : heap.dealloc s b.ptr b.layout = .ok s') :
    s'.mem = s.mem ∧ Sound heap s'.endPos live := by
  unfold Heap.dealloc at h
  cases hheader : heap.header with
  | error e =>
    rw [hheader] at h
    cases h
  | ok header =>
    simp only [hheader, bind, Except.bind, hsound.stop_eq] at h
    split at h
    · rename_i hlast
      cases h
      exact ⟨rfl, hsound.pop_last hlast⟩
    · cases h
      exact ⟨rfl, hsound.pop⟩

/-- Copying to where nothing is in use yet. -/
theorem memcpy_spec {dst endPos : Nat} (hsound : Sound heap endPos (b :: live)) (hstop : b.stop < dst) :
    heap.memcpy s dst b.ptr b.layout.size = .ok { s with mem := Heap.copied s.mem dst b.ptr b.layout.size } := by
  unfold Heap.memcpy
  rw [if_neg]
  have hstop' := hsound.stop_eq
  rintro ⟨-, ⟨hstart, -⟩ | ⟨hend, -⟩⟩
  · rw [Block.stop] at hstop
    omega
  · rw [hstop'] at hend
    omega

/-- Memory below what is copied to is kept. -/
theorem kept_copied {mem : Nat → Byte} {dst src size : Nat} (hstop : b.stop ≤ dst) :
    Kept mem (Heap.copied mem dst src size) b := by
  intro a _ ha
  exact if_neg fun h => by omega

/-- The block which is given another size comes first. -/
theorem realloc_spec (hsound : Sound heap s.endPos (b :: live)) (halign : layout.align = b.layout.align)
    (h : heap.realloc s b.ptr b.layout layout.size = .ok (ptr, s')) :
    (ptr = 0 ∧ s' = s) ∨ ptr ≠ 0 ∧ Sound heap s'.endPos (⟨ptr, layout⟩ :: live) ∧
      (∀ i, i < min b.layout.size layout.size → s'.mem (ptr + i) = s.mem (b.ptr + i)) ∧
      ∀ c ∈ live, Kept s.mem s'.mem c := by
  obtain ⟨⟨hdvd, hheaderEnd, hstop⟩, hlive⟩ := List.forall_mem_cons.mp hsound.placed
  have hle := hsound.endPos_le
  have hpos := heap.headerEnd_pos
  have halignLe : b.layout.align ≤ 2 ^ 63 := b.layout.align_lt.le
  unfold Heap.realloc at h
  cases hheader : heap.header with
  | error e =>
    rw [hheader] at h
    cases h
  | ok header =>
    simp only [hheader, bind, Except.bind, hsound.stop_eq] at h
    split at h
    · rename_i hlast
      have hptr : b.ptr ≤ b.stop := Nat.le_add_right _ _
      rcases Heap.updateEndPos_spec (by omega) halignLe b.layout.align_pow layout.size_pos h with
        hnull | ⟨hge, hlt, hdvd', hend, rfl⟩
      · exact .inl hnull
      · obtain rfl := Heap.align_self hdvd hge hlt hdvd'
        refine .inr ⟨by omega, ?_, fun _ _ => rfl, fun _ _ _ _ _ => rfl⟩
        exact (hsound.pop_last hlast).push hheaderEnd (Nat.le_refl _) (halign ▸ hdvd) hend
    · rename_i hlast
      split at h
      · rename_i hsize
        cases h
        exact .inr ⟨by omega, hsound.shrink halign hsize, fun _ _ => rfl, fun _ _ _ _ _ => rfl⟩
      · rename_i hsize
        cases hupdate : heap.updateEndPos s s.endPos layout.size b.layout.align with
        | error e =>
          rw [hupdate] at h
          cases h
        | ok r =>
          obtain ⟨newPtr, mid⟩ := r
          rw [hupdate] at h
          rcases Heap.updateEndPos_spec hle halignLe b.layout.align_pow layout.size_pos hupdate with
            ⟨rfl, rfl⟩ | ⟨hge, -, hdvd', hend, rfl⟩
          · cases h
            exact .inl ⟨rfl, rfl⟩
          · have hstarted := hsound.headerEnd_le_endPos
            have hstopLt : b.stop < newPtr := by omega
            simp only [if_neg (show newPtr ≠ 0 by omega), memcpy_spec hsound hstopLt] at h
            cases h
            refine .inr ⟨by omega, hsound.pop.push (by omega) hge (halign ▸ hdvd') hend, fun i hi => ?_, fun c hc => ?_⟩
            · simp only [Heap.copied]
              rw [if_pos (by omega), Nat.add_sub_cancel_left]
            · exact kept_copied (Nat.le_trans (hlive c hc).2.2 hge)

theorem header_ne_overlap : heap.header ≠ .error .overlap := by
  obtain ⟨p, hp, -⟩ := heap.align_spec (Nat.le_trans (Nat.le_add_right _ _) heap.range_le) (by decide : 8 ≤ 2 ^ 63) ⟨3, rfl⟩
  simp only [Heap.header, hp, bind, Except.bind]
  split <;> nofun

theorem updateEndPos_ne_overlap {size align : Nat} (hptr : ptr ≤ 2 ^ 63) (halign : align ≤ 2 ^ 63)
    (hpow : ∃ k, align = 2 ^ k) : heap.updateEndPos s ptr size align ≠ .error .overlap := by
  obtain ⟨q, hq, -⟩ := heap.align_spec hptr halign hpow
  have havailable : ∀ endPos, heap.available q endPos ≠ .error .overlap := by
    intro endPos
    unfold Heap.available
    split
    · split <;> nofun
    · split <;> nofun
  simp only [Heap.updateEndPos, hq, bind, Except.bind]
  split
  · nofun
  · rename_i addr haddr
    cases hend : heap.available q (withAddr q addr) with
    | error e =>
      rintro h
      cases h
      exact havailable _ hend
    | ok b => cases b <;> nofun

/-- The blocks copied between never overlap. -/
theorem realloc_ne_overlap (hsound : Sound heap s.endPos (b :: live)) :
    heap.realloc s b.ptr b.layout layout.size ≠ .error .overlap := by
  obtain ⟨-, hheaderEnd, hstop⟩ := hsound.placed b List.mem_cons_self
  have hle := hsound.endPos_le
  have halign : b.layout.align ≤ 2 ^ 63 := b.layout.align_lt.le
  have hptr : b.ptr ≤ b.stop := Nat.le_add_right _ _
  unfold Heap.realloc
  cases hheader : heap.header with
  | error e =>
    intro h
    cases h
    exact header_ne_overlap hheader
  | ok header =>
    simp only [bind, Except.bind, hsound.stop_eq]
    split
    · exact updateEndPos_ne_overlap (by omega) halign b.layout.align_pow
    · rename_i hlast
      split
      · nofun
      · cases hupdate : heap.updateEndPos s s.endPos layout.size b.layout.align with
        | error e =>
          intro h
          cases h
          exact updateEndPos_ne_overlap hle halign b.layout.align_pow hupdate
        | ok r =>
          obtain ⟨newPtr, mid⟩ := r
          rcases Heap.updateEndPos_spec hle halign b.layout.align_pow layout.size_pos hupdate with
            ⟨rfl, rfl⟩ | ⟨hge, -⟩
          · nofun
          · have hstarted := hsound.headerEnd_le_endPos
            have hpos := heap.headerEnd_pos
            have hstopLt : b.stop < newPtr := by omega
            simp only [if_neg (show newPtr ≠ 0 by omega), memcpy_spec hsound hstopLt]
            nofun

end

namespace Session

variable {heap : Heap} {s s' : Session}

def Sound (heap : Heap) (s : Session) : Prop := BumpAllocator.Sound heap s.state.endPos s.live

/-- The block of given index comes first. -/
theorem Sound.front (h : s.Sound heap) {index : Nat} {b : Block} (hb : s.live[index]? = some b) :
    BumpAllocator.Sound heap s.state.endPos (b :: s.live.eraseIdx index) := by
  obtain ⟨hlt, rfl⟩ := List.getElem?_eq_some_iff.mp hb
  exact h.perm (List.getElem_cons_eraseIdx_perm hlt).symm

theorem Sound.step {c : Call} (h : s.Sound heap) (hstep : s.step heap c = .ok s') : s'.Sound heap := by
  cases c with
  | alloc layout =>
    obtain ⟨⟨ptr, state⟩, hcall, hrest⟩ := bind_eq_ok.mp hstep
    rcases alloc_spec h (mapError_ok.mp hcall) with ⟨rfl, rfl⟩ | ⟨hne, -, hsound⟩
    · cases hrest
      exact h
    · simp only [if_neg hne] at hrest
      cases hrest
      exact hsound
  | dealloc index =>
    simp only [Session.step] at hstep
    split at hstep
    · cases hstep
    · rename_i b hb
      obtain ⟨state, hcall, hrest⟩ := bind_eq_ok.mp hstep
      cases hrest
      exact (dealloc_spec (h.front hb) (mapError_ok.mp hcall)).2
  | realloc index layout =>
    simp only [Session.step] at hstep
    split at hstep
    · cases hstep
    · rename_i b hb
      split at hstep
      · rename_i halign
        obtain ⟨⟨ptr, state⟩, hcall, hrest⟩ := bind_eq_ok.mp hstep
        rcases realloc_spec (h.front hb) halign (mapError_ok.mp hcall) with ⟨rfl, rfl⟩ | ⟨hne, hsound, -⟩
        · cases hrest
          exact h
        · simp only [if_neg hne] at hrest
          cases hrest
          exact hsound.perm (List.set_perm_cons_eraseIdx (List.getElem?_eq_some_iff.mp hb).1 _).symm
      · cases hstep
  | store index offset byte =>
    simp only [Session.step] at hstep
    split at hstep
    · cases hstep
    · split at hstep
      · cases hstep
        exact h
      · cases hstep

theorem sound_run {calls : List Call} (h : run heap calls = .ok s) : s.Sound heap :=
  foldlM_invariant_of_ok (I := Sound heap) (fun _ _ _ h hstep => h.step hstep) (s := start) (BumpAllocator.Sound.start heap) h

/-- Whatever is allocated, given back and given another size, live blocks are aligned, apart, behind the header and
below the end of what is in use. A call which returns no block changes nothing, and a block which is given another
size keeps its bytes, as do the others. -/
theorem blocks_never_overlap (heap : Heap) (calls : List Call) (s : Session) (h : run heap calls = .ok s) :
    (∀ b ∈ s.live, b.layout.align ∣ b.ptr ∧ heap.headerEnd ≤ b.ptr ∧ b.stop ≤ s.state.endPos) ∧
    s.live.Pairwise Block.Apart ∧
    (∀ layout ptr state, heap.alloc s.state layout = .ok (ptr, state) →
      (ptr = 0 → state = s.state) ∧ ∀ c ∈ s.live, Kept s.state.mem state.mem c) ∧
    ∀ index b, s.live[index]? = some b →
      (∀ state, heap.dealloc s.state b.ptr b.layout = .ok state → state.mem = s.state.mem) ∧
      ∀ layout : Layout, layout.align = b.layout.align →
        heap.realloc s.state b.ptr b.layout layout.size ≠ .error .overlap ∧
        ∀ ptr state, heap.realloc s.state b.ptr b.layout layout.size = .ok (ptr, state) →
          (ptr = 0 → state = s.state) ∧
          (ptr ≠ 0 → ∀ i, i < min b.layout.size layout.size → state.mem (ptr + i) = s.state.mem (b.ptr + i)) ∧
          ∀ c ∈ s.live.eraseIdx index, Kept s.state.mem state.mem c := by
  have hsound := sound_run h
  refine ⟨hsound.placed, hsound.apart, fun layout ptr state hcall => ?_, fun index b hb => ?_⟩
  · rcases alloc_spec hsound hcall with ⟨rfl, rfl⟩ | ⟨hne, hmem, -⟩
    · exact ⟨fun _ => rfl, fun _ _ _ _ _ => rfl⟩
    · exact ⟨fun hnull => absurd hnull hne, fun _ _ a _ _ => congrFun hmem a⟩
  · have hfront := Sound.front hsound hb
    refine ⟨fun state hcall => (dealloc_spec hfront hcall).1, fun layout halign => ⟨realloc_ne_overlap hfront, ?_⟩⟩
    intro ptr state hcall
    rcases realloc_spec hfront halign hcall with ⟨rfl, rfl⟩ | ⟨hne, -, hbytes, hkept⟩
    · exact ⟨fun _ => rfl, fun hne => absurd rfl hne, fun _ _ _ _ _ => rfl⟩
    · exact ⟨fun hnull => absurd hnull hne, fun _ => hbytes, hkept⟩

/-- Heap of a unit test. -/
def sampleHeap : Heap where
  test := true
  debugAssertions := true
  start := 4096
  size := 64
  headerSize := 8
  readable := fun _ => false
  start_pos := by decide
  header_ge := by decide
  range_le := by decide
  header_le := by decide
  readable_lt := nofun

def sampleLayout (size : Nat) (hpos : 0 < size) (hfits : (size + 4 - 1) / 4 * 4 < 2 ^ 63) : Layout :=
  ⟨size, 4, hpos, ⟨2, rfl⟩, hfits⟩

/-- Three blocks, the first of which has to move when it grows. -/
def sampleCalls : List Call :=
  [.alloc (sampleLayout 5 (by decide) (by decide)), .store 0 4 7#8, .alloc (sampleLayout 5 (by decide) (by decide)),
    .realloc 1 (sampleLayout 10 (by decide) (by decide)), .alloc (sampleLayout 3 (by decide) (by decide))]

theorem blocks_never_overlap_sample :
    ∃ s, run sampleHeap sampleCalls = .ok s ∧ s.live.map Block.ptr = [4132, 4112, 4120] ∧
    s.state.mem 4124 = 7#8 ∧ s.live.Pairwise Block.Apart :=
  ⟨_, rfl, rfl, rfl, (blocks_never_overlap sampleHeap sampleCalls _ rfl).2.1⟩

end Session

end BumpAllocator
