import EmulatedLightClient.AccountData
import EmulatedLightClient.MachineInts
import EmulatedLightClient.Trie

/-!
# The allocator over an account

Blocks have the size of a node. The first one is the header; blocks which have been
released form a list whose links are kept in the blocks themselves. The missing value is a
panic: a range out of bounds, a pointer or an address without a counterpart or a block
which looks like a released one already.
-/

namespace SolanaTrie

open ByteBits Buffers Nodes Memory MachineInts SealableTrie

/-- Size of a node and thus of a block. -/
def blockSize : Nat := 72

/-- In the order of a little-endian machine. -/
def u32ToNeBytes (n : BitVec 32) : List Byte := leBytes 4 n.toNat

def u32FromNeBytes (bytes : List Byte) : BitVec 32 := BitVec.ofNat 32 (ofLeBytes bytes)

@[simp] theorem length_u32ToNeBytes (n : BitVec 32) : (u32ToNeBytes n).length = 4 := length_leBytes 4 _

theorem u32FromNeBytes_toNeBytes (n : BitVec 32) : u32FromNeBytes (u32ToNeBytes n) = n := by
  rw [u32FromNeBytes, u32ToNeBytes, ofLeBytes_leBytes n.isLt, BitVec.ofNat_toNat, BitVec.setWidth_eq]

/-- Address within the trie data. -/
structure Addr where
  num : BitVec 32
  nonzero : num ≠ 0#32

namespace Addr

def new (addr : BitVec 32) : Option Addr := if h : addr = 0#32 then none else some ⟨addr, h⟩

def usize (a : Addr) : Nat := a.num.toNat

/-- The next properly aligned block, unless its address would overflow. -/
def succ (a : Addr) : Option Addr := (checkedAdd 32 a.usize blockSize).bind fun n => new (BitVec.ofNat 32 n)

def ofPtr (ptr : Ptr) : Option Addr := (checkedMul 32 ptr.num.toNat blockSize).bind fun n => new (BitVec.ofNat 32 n)

/-- Fails if the address is not properly aligned. -/
def toPtr (a : Addr) : Option Ptr :=
  if a.usize % blockSize ≠ 0 then none
  else
    match Ptr.new (BitVec.ofNat 32 (a.usize / blockSize)) with
    | .ok ptr => ptr
    | .error _ => none

end Addr

/-- Data stored at the beginning of the account describing the trie. -/
structure Header where
  rootPtr : Option Ptr
  rootHash : CryptoHash
  nextBlock : BitVec 32
  firstFree : BitVec 32

namespace Header

def encodedSize : Nat := blockSize

/-- The account's data has not been initialised yet. -/
def magicUninitialised : List Byte := List.replicate 8 0#8

def magicV1 : List Byte := [0xd2#8, 0x97#8, 0x1f#8, 0x41#8, 0x20#8, 0x4a#8, 0xd6#8, 0xed#8]

def decode {D : Type} [DataRef D] (data : D) : Option Header := do
  let raw ← DataRef.get data 0 encodedSize
  if raw.take 8 = magicUninitialised then
    return ⟨none, emptyTrieRoot, BitVec.ofNat 32 encodedSize, 0#32⟩
  else if raw.take 8 = magicV1 then
    match Ptr.new (u32FromNeBytes (slice raw 8 4)) with
    | .ok rootPtr =>
      if h : (slice raw 12 32).length = 32 then
        some ⟨rootPtr, ⟨slice raw 12 32, h⟩, u32FromNeBytes (slice raw 44 4), u32FromNeBytes (slice raw 48 4)⟩
      else none
    | .error _ => none
  else none

def encode (h : Header) : List Byte :=
  magicV1 ++ u32ToNeBytes (h.rootPtr.elim 0#32 Ptr.num) ++ h.rootHash.bytes ++ u32ToNeBytes h.nextBlock ++
    u32ToNeBytes h.firstFree ++ List.replicate 20 0#8

end Header

/-- The allocator over given data: the next block which was never handed out and the first
of the released ones. -/
structure Allocator (D : Type) where
  data : D
  nextBlock : Addr
  firstFree : Option Addr

namespace Allocator

variable {D : Type} [DataRef D]

/-- Initialises the allocator with data in given account; also gives the root of the trie. -/
def new (data : D) : Option (Allocator D × (Option Ptr × CryptoHash)) := do
  let hdr ← Header.decode data
  let nextBlock ← Addr.new hdr.nextBlock
  return (⟨data, nextBlock, Addr.new hdr.firstFree⟩, (hdr.rootPtr, hdr.rootHash))

/-- Grabs a block from the free list; there is no address if the list is empty. -/
def allocFromFreelist (a : Allocator D) : Option (Option Addr × Allocator D) :=
  match a.firstFree with
  | none => some (none, a)
  | some addr =>
    (DataRef.get a.data addr.usize 4).map fun next =>
      (some addr, { a with firstFree := Addr.new (u32FromNeBytes next) })

/-- Grabs the next available block; there is no address if the account ran out of space. -/
def allocNextBlock (a : Allocator D) : Option Addr × Allocator D :=
  match a.nextBlock.succ with
  | none => (none, a)
  | some next =>
    if next.usize ≤ DataRef.len a.data then (some a.nextBlock, { a with nextBlock := next })
    else
      match DataRef.enlarge a.data next.usize with
      | (false, data) => (none, { a with data := data })
      | (true, data) => (some a.nextBlock, { a with data := data, nextBlock := next })

def get (a : Allocator D) (ptr : Ptr) : Option RawNode := do
  let addr ← Addr.ofPtr ptr
  let bytes ← DataRef.get a.data addr.usize blockSize
  if h : bytes.length = 72 then some ⟨bytes, h⟩ else none

/-- Writes a whole block through the reference `get_mut` returns. -/
def setBytes (a : Allocator D) (ptr : Ptr) (bytes : List Byte) : Option (Allocator D) := do
  let addr ← Addr.ofPtr ptr
  let data ← DataRef.getMut a.data addr.usize bytes
  return { a with data := data }

def set (a : Allocator D) (ptr : Ptr) (value : RawNode) : Option (Allocator D) := a.setBytes ptr value.bytes

/-- The block the search ended with is turned into a pointer and written. -/
def place (value : RawNode) : Option Addr × Allocator D → Option (Except OutOfMemory Ptr × Allocator D)
  | (none, a) => some (.error .outOfMemory, a)
  | (some addr, a) => do
    let ptr ← addr.toPtr
    let a ← a.set ptr value
    return (.ok ptr, a)

def alloc (a : Allocator D) (value : RawNode) : Option (Except OutOfMemory Ptr × Allocator D) :=
  match a.allocFromFreelist with
  | none => none
  | some (none, a) => place value a.allocNextBlock
  | some (some addr, a) => place value (some addr, a)

/-- The last bytes of a block, which are zero if it has been released. -/
def marker (bytes : List Byte) : List Byte := bytes.drop 40

/-- Bytes of a released block. -/
def freeRawNode (nextFree : Option Addr) (bytes : List Byte) : List Byte :=
  u32ToNeBytes (nextFree.elim 0#32 Addr.num) ++ slice bytes 4 36 ++ List.replicate 32 0#8

/-- Puts the block at the front of the free list. -/
def release (a : Allocator D) (ptr : Ptr) (node : RawNode) : Option (Allocator D) := do
  let b ← a.setBytes ptr (freeRawNode a.firstFree node.bytes)
  return { b with firstFree := Addr.ofPtr ptr }

/-- Frees node at given pointer; panics if double-free is detected. -/
def free (a : Allocator D) (ptr : Ptr) : Option (Allocator D) := do
  let node ← a.get ptr
  if marker node.bytes = List.replicate 32 0#8 then none else a.release ptr node

end Allocator

namespace TrieAccount

variable {D : Type} [DataRef D]

/-- Creates a new trie from data in an account. -/
def new (data : D) : Option (Trie (Allocator D)) := do
  let (alloc, root) ← Allocator.new data
  return ⟨root.1, root.2, alloc⟩

/-- Updates the header in the account. -/
def drop (trie : Trie (Allocator D)) : Option D :=
  let hdr : Header :=
    { rootPtr := trie.rootPtr
      rootHash := trie.rootHash
      nextBlock := trie.alloc.nextBlock.num
      firstFree := trie.alloc.firstFree.elim 0#32 Addr.num }
  DataRef.getMut trie.alloc.data 0 hdr.encode

end TrieAccount

end SolanaTrie
