import EmulatedLightClient.HeapOwnership

/-!
# Memory: pointers, allocators and the write log

An allocator hands out cells. Access to a block which is not allocated may
panic, which is the missing value. A write log collects writes and releases;
they reach the allocator on commit only, and all reads bypass the log.
-/

namespace Memory

/-- A pointer value. The value is 30-bit and always non-zero. -/
structure Ptr where
  num : BitVec 32
  nonzero : num ≠ 0#32
  fits : num.toNat ≤ 2 ^ 30 - 1
  deriving DecidableEq

namespace Ptr

def max : Nat := 2 ^ 30 - 1

/-- Zero is the null pointer; the error stands for an address which is too large. -/
def new (ptr : BitVec 32) : Except Unit (Option Ptr) :=
  if h : ptr = 0#32 then .ok none
  else if h' : ptr.toNat ≤ max then .ok (some ⟨ptr, h, h'⟩)
  else .error ()

theorem new_num (p : Ptr) : new p.num = .ok (some p) := by
  have hfits : p.num.toNat ≤ max := p.fits
  simp [new, p.nonzero, hfits]

end Ptr

inductive OutOfMemory where
  | outOfMemory
  deriving DecidableEq

class Allocator (A : Type) (V : outParam Type) where
  alloc : A → V → Except OutOfMemory Ptr × A
  get : A → Ptr → Option V
  set : A → Ptr → V → Option A
  free : A → Ptr → Option A

/-- Allocators which behave as a heap: `cell` is the contents of every allocated
block. Nothing is said about which requests run out of memory. -/
class LawfulAllocator (A : Type) (V : outParam Type) extends Allocator A V where
  cell : A → Ptr → Option V
  get_of_cell : ∀ {a p v}, cell a p = some v → get a p = some v
  alloc_ok : ∀ {a a' v p}, alloc a v = (.ok p, a') →
    cell a p = none ∧ cell a' = Function.update (cell a) p (some v)
  alloc_error : ∀ {a a' v e}, alloc a v = (.error e, a') → cell a' = cell a
  set_of_cell : ∀ {a p v} (v'), cell a p = some v →
    ∃ a', set a p v' = some a' ∧ cell a' = Function.update (cell a) p (some v')
  free_of_cell : ∀ {a p v}, cell a p = some v →
    ∃ a', free a p = some a' ∧ cell a' = Function.update (cell a) p none

export LawfulAllocator (cell)

/-- The allocator can satisfy `n` requests in a row. -/
def Serves {A V : Type} [Allocator A V] : Nat → A → Prop
  | 0, _ => True
  | n + 1, a => ∀ v, ∃ p a', Allocator.alloc a v = (.ok p, a') ∧ Serves n a'

section

variable {A V : Type}

theorem Serves.mono [Allocator A V] {m n : Nat} {a : A} (h : Serves n a) (hle : m ≤ n) :
    Serves m a := by
  induction m generalizing n a with
  | zero => trivial
  | succ m ih =>
    cases n with
    | zero => omega
    | succ n =>
      intro v
      obtain ⟨p, a', halloc, hs⟩ := h v
      exact ⟨p, a', halloc, ih hs (by omega)⟩

/-- Lists are kept in the order the source iterates over them: `writeLog` from
the oldest write on, `freed` with the last released block first. -/
structure WriteLog (A V : Type) where
  alloc : A
  writeLog : List (Ptr × V)
  allocated : List Ptr
  freed : List Ptr

namespace WriteLog

def new (alloc : A) : WriteLog A V := ⟨alloc, [], [], []⟩

variable [Allocator A V]

def set (w : WriteLog A V) (ptr : Ptr) (value : V) : WriteLog A V :=
  { w with writeLog := w.writeLog ++ [(ptr, value)] }

def free (w : WriteLog A V) (ptr : Ptr) : WriteLog A V := { w with freed := ptr :: w.freed }

def allocate (w : WriteLog A V) (value : V) : Except OutOfMemory Ptr × WriteLog A V :=
  match w.freed with
  | ptr :: freed => (.ok ptr, { w with freed := freed }.set ptr value)
  | [] =>
    match Allocator.alloc w.alloc value with
    | (.ok ptr, alloc) => (.ok ptr, { w with alloc := alloc, allocated := w.allocated ++ [ptr] })
    | (.error err, alloc) => (.error err, { w with alloc := alloc })

def setAll (alloc : A) : List (Ptr × V) → Option A
  | [] => some alloc
  | (ptr, value) :: rest => (Allocator.set alloc ptr value).bind (setAll · rest)

def freeAll (alloc : A) : List Ptr → Option A
  | [] => some alloc
  | ptr :: rest => (Allocator.free alloc ptr).bind (freeAll · rest)

/-- Applies all writes and then all releases. -/
def commit (w : WriteLog A V) : Option A :=
  (setAll w.alloc w.writeLog).bind (freeAll · w.freed.reverse)

/-- Releases everything allocated during the transaction. -/
def drop (w : WriteLog A V) : Option A := freeAll w.alloc w.allocated

end WriteLog

end

end Memory
