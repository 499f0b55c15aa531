import EmulatedLightClient.OwnedEdits
import EmulatedLightClient.Trie

/-!
# Listing the entries of a subtrie

The traversal first follows the key of the subtrie to the node it leads to. It
then visits the nodes below with one prefix which is extended on the way down
and cut back to the length it had on the way up.
-/

namespace SealableTrie

open ByteBits Bits Nodes Memory

namespace Iter

/-- A possibly sealed value; without a hash it is a sealed internal node. -/
structure Entry where
  isSealed : Bool
  subKey : Owned
  hash : Option CryptoHash

variable {A : Type} [Allocator A RawNode] (alloc : A)

/-- Reads the node at the pointer. Unlike lookups this does not check its hash. -/
def decodeNode (ptr : Ptr) : Result (Node (Option Ptr) Bool) :=
  match Allocator.get alloc ptr with
  | none => .error .panic
  | some raw =>
    match raw.decode with
    | .error err => .error (.err (.badRawNode err))
    | .ok node => .ok node

inductive GetSubtrieRootResult where
  | root (pre : Owned) (nodePtr : Option Ptr)
  | empty
  | single (entry : Entry)

theorem length_ne_zero {key : Slice} (h : ¬ key.isEmpty = true) : key.length ≠ 0 := by
  simpa [Slice.isEmpty] using h

/-- Locates root of the subtrie at the given key. The prefix is what the path to
the root has beyond the key. -/
def getSubtrieRoot (nodePtr : Option Ptr) (key : Slice) (pre : Owned) :
    Result GetSubtrieRootResult :=
  match nodePtr with
  | none => .ok (.root pre none)
  | some ptr =>
    if hkey : key.isEmpty then .ok (.root pre (some ptr))
    else
      match decodeNode alloc ptr with
      | .error e => .error e
      | .ok (.branch left right) =>
        match h : key.popFront with
        | none => .error .panic
        | some (us, key') =>
          have := Slice.popFront_length h
          afterChild key' pre (if us then right else left)
      | .ok (.extension extKey child) =>
        match h : key.stripPrefix extKey.slice with
        | some key' =>
          have := Slice.stripPrefix_length h
          have := extKey.nonempty
          afterChild key' pre child
        | none =>
          match extKey.slice.stripPrefix key with
          | some rest =>
            -- The key ends inside of the extension.
            have := length_ne_zero hkey
            have := Slice.default_length
            afterChild Slice.default (Owned.ofSlice rest) child
          | none => .ok .empty
  termination_by 2 * key.length
where
  afterChild (key : Slice) (pre : Owned) (child : Ref) : Result GetSubtrieRootResult :=
    match child with
    | .node nref => getSubtrieRoot nref.ptr key pre
    | .value vref =>
      if key.isEmpty then .ok (.single ⟨vref.isSealed, pre, some vref.hash⟩) else .ok .empty
  termination_by 2 * key.length + 1

structure Context where
  pre : Owned
  entries : List Entry

namespace Context

/-- Contexts whose prefix is of given length. -/
abbrev At (len : Nat) := { ctx : Context // ctx.pre.length = len }

/-- Pushes an entry at the prefix and cuts the prefix back. -/
def finish (ctx : Context) (isSealed : Bool) (hash : Option CryptoHash) (len : Nat)
    (h : len ≤ ctx.pre.length) : At len :=
  ⟨⟨ctx.pre.truncate len, ctx.entries ++ [⟨isSealed, ctx.pre, hash⟩]⟩, Owned.truncate_length h⟩

def handleValue (ctx : Context) (isSealed : Bool) (hash : CryptoHash) (len : Nat) :
    Result (At len) :=
  if h : len ≤ ctx.pre.length then .ok (ctx.finish isSealed (some hash) len h)
  else .error .panic

/-- Pushes the entries below the node and cuts the prefix back to `len` bits. A
cycle of nodes ends with the panic of a prefix which is too long. -/
def handleNode (ctx : Context) (nodePtr : Option Ptr) (len : Nat) : Result (At len) :=
  if h : len ≤ ctx.pre.length then
    match nodePtr with
    | none => .ok (ctx.finish true none len h)
    | some ptr =>
      match decodeNode alloc ptr with
      | .error e => .error e
      | .ok (.branch left right) =>
        match hpush : ctx.pre.pushBack false with
        | .error _ => .error .panic
        | .ok pre =>
          have := Owned.pushBack_length hpush
          have := pre.length_lt
          match handleRef { ctx with pre := pre } left pre.length with
          | .error e => .error e
          | .ok ctx' =>
            match hset : ctx'.val.pre.setLast true with
            | none => .error .panic
            | some pre' =>
              have := (Owned.setLast_length hset).trans ctx'.property
              handleRef { ctx'.val with pre := pre' } right len
      | .ok (.extension key child) =>
        match hext : ctx.pre.extend key.slice with
        | .error _ => .error .panic
        | .ok pre =>
          have := Owned.extend_length hext
          have := key.nonempty
          have := pre.length_lt
          handleRef { ctx with pre := pre } child len
  else .error .panic
  termination_by 2 * (2 ^ 16 - ctx.pre.length)
where
  handleRef (ctx : Context) (nref : Ref) (len : Nat) : Result (At len) :=
    match nref with
    | .node node => handleNode ctx node.ptr len
    | .value value => ctx.handleValue value.isSealed value.hash len
  termination_by 2 * (2 ^ 16 - ctx.pre.length) + 1

def get (ctx : Context) (nodePtr : Option Ptr) : Result (List Entry) :=
  match ctx.handleNode alloc nodePtr ctx.pre.length with
  | .error e => .error e
  | .ok ctx => .ok ctx.val.entries

end Context

/-- The entries at what has been found for the key. -/
def GetSubtrieRootResult.entries : GetSubtrieRootResult → Result (List Entry)
  | root pre nodePtr => Context.get alloc ⟨pre, []⟩ nodePtr
  | empty => .ok []
  | single entry => .ok [entry]

/-- Returns all entries of a subtrie at given key. -/
def getEntries (rootPtr : Option Ptr) (key : List Byte) : Result (List Entry) :=
  match Trie.sliceOf key with
  | .error e => .error e
  | .ok key =>
    match getSubtrieRoot alloc rootPtr key Owned.default with
    | .error e => .error e
    | .ok res => res.entries alloc

end Iter

/-- Returns entries of the trie whose keys start with given one. -/
def Trie.getSubtrie {A : Type} [Allocator A RawNode] (t : Trie A) (key : List Byte) :
    Result (List Iter.Entry) :=
  if t.rootHash = emptyTrieRoot then .ok []
  else Iter.getEntries t.alloc t.rootPtr key

end SealableTrie
