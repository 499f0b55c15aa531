import EmulatedLightClient.AccountHeap
import EmulatedLightClient.OpSimulation
import EmulatedLightClient.WriteLogSpec

/-!
# Tries over an account

The allocator as the trie uses it; an account whose allocator panicked while handing out a
block stays that way. Beside it stands the same allocator together with the heap it
represents. It releases blocks without looking at them, so it behaves as a heap whatever
is stored. The two do the same as long as no block whose last bytes are zero is released,
which is so for nodes all of whose references have a hash other than zero.
-/

namespace SolanaTrie

open ByteBits Bits Buffers Nodes Memory SealableTrie FailingState FailingState.Op

variable {D : Type} [DataRef D]

inductive Account (D : Type) where
  | live (alloc : Allocator D)
  | panicked

namespace Account

def alloc : Account D → RawNode → Except OutOfMemory Ptr × Account D
  | live a, value =>
    match a.alloc value with
    | some (result, a) => (result, live a)
    | none => (.error .outOfMemory, panicked)
  | panicked, _ => (.error .outOfMemory, panicked)

def get : Account D → Ptr → Option RawNode
  | live a, ptr => a.get ptr
  | panicked, _ => none

def set : Account D → Ptr → RawNode → Option (Account D)
  | live a, ptr, value => (a.set ptr value).map live
  | panicked, _, _ => none

def free : Account D → Ptr → Option (Account D)
  | live a, ptr => (a.free ptr).map live
  | panicked, _ => none

end Account

instance accountAllocator : Memory.Allocator (Account D) RawNode where
  alloc := Account.alloc
  get := Account.get
  set := Account.set
  free := Account.free

structure Held (D : Type) [DataRef D] where
  alloc : Allocator D
  heap : Heap
  holds : ∃ n, Represents alloc heap n

namespace Held

theorem alloc_ok (l : Held D) {value : RawNode} {p : Ptr} {a : Allocator D} (h : l.alloc.alloc value = some (.ok p, a)) :
    l.heap.cell p = none ∧ ∃ n, Represents a (l.heap.alloc p value) n := by
  obtain ⟨n, hr⟩ := l.holds
  rcases hr.alloc_spec value with ⟨e, a', halloc, -⟩ | ⟨p', a', n', halloc, hcell, hr'⟩
  · rw [h] at halloc
    cases halloc
  · rw [h] at halloc
    cases halloc
    exact ⟨hcell, n', hr'⟩

theorem alloc_error (l : Held D) {value : RawNode} {e : OutOfMemory} {a : Allocator D}
    (h : l.alloc.alloc value = some (.error e, a)) : ∃ n, Represents a l.heap n := by
  obtain ⟨n, hr⟩ := l.holds
  rcases hr.alloc_spec value with ⟨e', a', halloc, hsame⟩ | ⟨p', a', n', halloc, -, -⟩
  · rw [h] at halloc
    cases halloc
    exact ⟨n, hr.of_same hsame⟩
  · rw [h] at halloc
    cases halloc

theorem alloc_ne_none (l : Held D) (value : RawNode) : l.alloc.alloc value ≠ none := by
  obtain ⟨n, hr⟩ := l.holds
  intro hnone
  rcases hr.alloc_spec value with ⟨e, a, halloc, -⟩ | ⟨p, a, n', halloc, -, -⟩
  · rw [hnone] at halloc
    cases halloc
  · rw [hnone] at halloc
    cases halloc

theorem set_ok (l : Held D) {value : RawNode} {p : Ptr} {a : Allocator D} (hp : (l.heap.cell p).isSome)
    (h : l.alloc.set p value = some a) : ∃ n, Represents a (l.heap.set p value) n := by
  obtain ⟨n, hr⟩ := l.holds
  obtain ⟨v, hv⟩ := Option.isSome_iff_exists.mp hp
  obtain ⟨a', hset, hr'⟩ := hr.set_spec hv value
  rw [h] at hset
  cases hset
  exact ⟨n, hr'⟩

theorem release_ok (l : Held D) {v : RawNode} {p : Ptr} {a : Allocator D} (hp : l.heap.cell p = some v)
    (h : l.alloc.release p v = some a) : ∃ n, Represents a (l.heap.free p) n := by
  obtain ⟨n, hr⟩ := l.holds
  obtain ⟨a', hrelease, hr'⟩ := hr.release_spec hp
  rw [h] at hrelease
  cases hrelease
  exact ⟨n, hr'⟩

/-- The last case does not happen. -/
def allocate (l : Held D) (value : RawNode) : Except OutOfMemory Ptr × Held D :=
  match h : l.alloc.alloc value with
  | some (.ok p, a) => (.ok p, ⟨a, l.heap.alloc p value, (l.alloc_ok h).2⟩)
  | some (.error e, a) => (.error e, ⟨a, l.heap, l.alloc_error h⟩)
  | none => (.error .outOfMemory, l)

/-- Only live blocks can be written. -/
def set (l : Held D) (p : Ptr) (value : RawNode) : Option (Held D) :=
  if hp : (l.heap.cell p).isSome then
    match h : l.alloc.set p value with
    | some a => some ⟨a, l.heap.set p value, l.set_ok hp h⟩
    | none => none
  else none

/-- Only live blocks can be released, whatever they hold. -/
def release (l : Held D) (p : Ptr) : Option (Held D) :=
  match hp : l.heap.cell p with
  | some v =>
    match h : l.alloc.release p v with
    | some a => some ⟨a, l.heap.free p, l.release_ok hp h⟩
    | none => none
  | none => none

theorem allocate_spec (l : Held D) (value : RawNode) :
    (∃ p a h, l.alloc.alloc value = some (.ok p, a) ∧ l.heap.cell p = none ∧
        l.allocate value = (.ok p, ⟨a, l.heap.alloc p value, h⟩)) ∨
      ∃ e a h, l.alloc.alloc value = some (.error e, a) ∧ l.allocate value = (.error e, ⟨a, l.heap, h⟩) := by
  unfold allocate
  split
  · rename_i p a h
    exact Or.inl ⟨p, a, (l.alloc_ok h).2, h, (l.alloc_ok h).1, rfl⟩
  · rename_i e a h
    exact Or.inr ⟨e, a, l.alloc_error h, h, rfl⟩
  · rename_i h
    exact absurd h (l.alloc_ne_none value)

theorem set_eq_some {l l' : Held D} {p : Ptr} {value : RawNode} (h : l.set p value = some l') :
    l.alloc.set p value = some l'.alloc ∧ l'.heap = l.heap.set p value := by
  unfold set at h
  split at h
  · split at h
    · rename_i a hset
      cases h
      exact ⟨hset, rfl⟩
    · cases h
  · cases h

theorem release_eq_some {l l' : Held D} {p : Ptr} (h : l.release p = some l') :
    ∃ v, l.heap.cell p = some v ∧ l.alloc.release p v = some l'.alloc ∧ l'.heap = l.heap.free p := by
  unfold release at h
  split at h
  · rename_i v hv
    split at h
    · rename_i a hrelease
      cases h
      exact ⟨v, hv, hrelease, rfl⟩
    · cases h
  · cases h

theorem set_of_cell (l : Held D) {p : Ptr} {v : RawNode} (hp : l.heap.cell p = some v) (value : RawNode) :
    ∃ l', l.set p value = some l' := by
  obtain ⟨n, hr⟩ := l.holds
  obtain ⟨a, hset, -⟩ := hr.set_spec hp value
  unfold set
  rw [dif_pos (Option.isSome_iff_exists.mpr ⟨v, hp⟩)]
  split
  · exact ⟨_, rfl⟩
  · rename_i hnone
    rw [hset] at hnone
    cases hnone

theorem release_of_cell (l : Held D) {p : Ptr} {v : RawNode} (hp : l.heap.cell p = some v) :
    ∃ l', l.release p = some l' := by
  obtain ⟨n, hr⟩ := l.holds
  obtain ⟨a, hrelease, -⟩ := hr.release_spec hp
  unfold release
  split
  · rename_i w hw
    rw [hp] at hw
    cases hw
    split
    · exact ⟨_, rfl⟩
    · rename_i hnone
      rw [hrelease] at hnone
      cases hnone
  · rename_i hnone
    rw [hp] at hnone
    cases hnone

theorem get_of_cell (l : Held D) {p : Ptr} {v : RawNode} (hp : l.heap.cell p = some v) : l.alloc.get p = some v := by
  obtain ⟨n, hr⟩ := l.holds
  exact hr.get_eq hp

end Held

instance heldAllocator : LawfulAllocator (Held D) RawNode where
  alloc := Held.allocate
  get l p := l.heap.cell p
  set := Held.set
  free := Held.release
  cell l := l.heap.cell
  get_of_cell h := h
  alloc_ok := by
    intro l l' v p h
    change l.allocate v = _ at h
    rcases l.allocate_spec v with ⟨p', a, hr, -, hcell, halloc⟩ | ⟨e, a, hr, -, halloc⟩
    · rw [halloc] at h
      cases h
      exact ⟨hcell, rfl⟩
    · rw [halloc] at h
      cases h
  alloc_error := by
    intro l l' v e h
    change l.allocate v = _ at h
    rcases l.allocate_spec v with ⟨p', a, hr, -, -, halloc⟩ | ⟨e, a, hr, -, halloc⟩
    · rw [halloc] at h
      cases h
    · rw [halloc] at h
      cases h
      rfl
  set_of_cell := by
    intro l p v v' h
    obtain ⟨l', hl'⟩ := l.set_of_cell h v'
    exact ⟨l', hl', congrArg Heap.cell (Held.set_eq_some hl').2⟩
  free_of_cell := by
    intro l p v h
    obtain ⟨l', hl'⟩ := l.release_of_cell h
    obtain ⟨-, -, -, hheap⟩ := Held.release_eq_some hl'
    exact ⟨l', hl', congrArg Heap.cell hheap⟩

/-- References of the node have hashes other than zero. -/
def CleanNode : Node (Option Ptr) Bool → Prop
  | .branch left right => left.parts.2 ≠ emptyTrieRoot ∧ right.parts.2 ≠ emptyTrieRoot
  | .extension _ child => child.parts.2 ≠ emptyTrieRoot

inductive Clean : RawNode → Prop
  | branch {left right : Ref} (hleft : left.parts.2 ≠ emptyTrieRoot) (hright : right.parts.2 ≠ emptyTrieRoot) :
    Clean (RawNode.branch left right)
  | extension {key : ExtKey} {child : Ref} (hchild : child.parts.2 ≠ emptyTrieRoot) :
    Clean (RawNode.extension key child)

theorem Clean.decode {raw : RawNode} {node : Node (Option Ptr) Bool} (h : Clean raw) (hdecode : raw.decode = .ok node) :
    CleanNode node := by
  cases h with
  | branch hleft hright =>
    rw [RawNode.decode_branch] at hdecode
    cases hdecode
    exact ⟨hleft, hright⟩
  | @extension key child hchild =>
    obtain ⟨key', hkey', -, -⟩ := RawNode.decode_extension key child
    rw [hkey'] at hdecode
    cases hdecode
    exact hchild

/-- The hash of the reference is all but the first four bytes. -/
theorem drop_encode (r : Ref) : r.encode.drop 4 = r.parts.2.bytes := by
  simp [Reference.encode, u32ToBeBytes]

theorem bytes_ne_zeros {h : CryptoHash} (hne : h ≠ emptyTrieRoot) : h.bytes ≠ List.replicate 32 0#8 :=
  fun he => hne (CryptoHash.eq_of_bytes he)

theorem marker_append {as : List Byte} (has : as.length = 36) (r : Ref) :
    Allocator.marker (as ++ r.encode) = r.parts.2.bytes := by
  rw [Allocator.marker, List.drop_append, List.drop_eq_nil_of_le (by omega), List.nil_append, has, drop_encode]

theorem Clean.marker {raw : RawNode} (h : Clean raw) : Allocator.marker raw.bytes ≠ List.replicate 32 0#8 := by
  cases h with
  | @branch left right hleft hright =>
    have hm : Allocator.marker (RawNode.branch left right).bytes = right.parts.2.bytes :=
      marker_append left.length_encode right
    rw [hm]
    exact bytes_ne_zeros hright
  | @extension key child hchild =>
    have hm : Allocator.marker (RawNode.extension key child).bytes = child.parts.2.bytes :=
      marker_append (ExtKey.length_encodeInto key _) child
    rw [hm]
    exact bytes_ne_zeros hchild

namespace Held

def account (l : Held D) : Account D := .live l.alloc

def AllClean (l : Held D) : Prop := ∀ p v, l.heap.cell p = some v → Clean v

theorem get_account {l : Held D} {p : Ptr} {v : RawNode} (h : Memory.Allocator.get l p = some v) :
    Memory.Allocator.get l.account p = some v :=
  l.get_of_cell h

theorem alloc_account (l : Held D) (value : RawNode) :
    Memory.Allocator.alloc l.account value =
      ((Memory.Allocator.alloc l value).1, (Memory.Allocator.alloc l value).2.account) := by
  change Account.alloc (.live l.alloc) value = ((l.allocate value).1, (l.allocate value).2.account)
  rcases l.allocate_spec value with ⟨p, a, hr, halloc, -, hsame⟩ | ⟨e, a, hr, halloc, hsame⟩
  · rw [hsame, Account.alloc, halloc]
    rfl
  · rw [hsame, Account.alloc, halloc]
    rfl

theorem set_account {l l' : Held D} {p : Ptr} {value : RawNode} (h : Memory.Allocator.set l p value = some l') :
    Memory.Allocator.set l.account p value = some l'.account := by
  change Account.set (.live l.alloc) p value = _
  rw [Account.set, (Held.set_eq_some h).1]
  rfl

theorem free_account {l l' : Held D} {p : Ptr} (hclean : l.AllClean) (h : Memory.Allocator.free l p = some l') :
    Memory.Allocator.free l.account p = some l'.account := by
  obtain ⟨v, hv, hrelease, -⟩ := Held.release_eq_some h
  obtain ⟨n, hr⟩ := l.holds
  change Account.free (.live l.alloc) p = _
  rw [Account.free, hr.free_eq hv (hclean p v hv).marker, hrelease]
  rfl

theorem AllClean.update {l l' : Held D} (hclean : l.AllClean) {p : Ptr} {o : Option RawNode} (ho : ∀ v, o = some v → Clean v)
    (hcell : l'.heap.cell = Function.update l.heap.cell p o) : l'.AllClean := by
  intro q w hq
  rw [hcell] at hq
  by_cases he : q = p
  · subst he
    rw [Function.update_self] at hq
    exact ho w hq
  · rw [Function.update_of_ne he] at hq
    exact hclean q w hq

theorem AllClean.alloc {l : Held D} (hclean : l.AllClean) {value : RawNode} (hvalue : Clean value) :
    (Memory.Allocator.alloc l value).2.AllClean := by
  change (l.allocate value).2.AllClean
  rcases l.allocate_spec value with ⟨p, a, hr, -, -, hsame⟩ | ⟨e, a, hr, -, hsame⟩
  · rw [hsame]
    refine hclean.update (p := p) (o := some value) ?_ rfl
    intro v hv
    cases hv
    exact hvalue
  · rw [hsame]
    exact hclean

theorem AllClean.set {l l' : Held D} (hclean : l.AllClean) {p : Ptr} {value : RawNode} (hvalue : Clean value)
    (h : Memory.Allocator.set l p value = some l') : l'.AllClean := by
  refine hclean.update (p := p) (o := some value) ?_ (congrArg Heap.cell (Held.set_eq_some h).2)
  intro v hv
  cases hv
  exact hvalue

theorem AllClean.free {l l' : Held D} (hclean : l.AllClean) {p : Ptr} (h : Memory.Allocator.free l p = some l') :
    l'.AllClean := by
  obtain ⟨-, -, -, hheap⟩ := Held.release_eq_some h
  refine hclean.update (p := p) (o := none) ?_ (congrArg Heap.cell hheap)
  intro v hv
  cases hv

end Held

end SolanaTrie
