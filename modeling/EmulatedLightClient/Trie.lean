import EmulatedLightClient.TrieSet
import EmulatedLightClient.TrieDel
import EmulatedLightClient.TrieSeal
import EmulatedLightClient.TrieProof

/-!
# The sealable trie

The operations of the trie as its users call them.
-/

namespace SealableTrie

open ByteBits Bits Nodes Memory FailingState TrieProof

structure Trie (A : Type) where
  rootPtr : Option Ptr
  rootHash : CryptoHash
  alloc : A

variable {A : Type} [Allocator A RawNode] (digest : List Byte → CryptoHash)

/-- Looks the key up starting at the node with given pointer and hash. Items of
the proof are pushed in the order the nodes are visited in. -/
def getLoop (alloc : A) (key : Slice) (nodePtr : Option Ptr) (nodeHash : CryptoHash)
    (proof : Option Builder) : Result (Option CryptoHash × Option Proof) :=
  match nodePtr with
  | none => .error (.err .sealed)
  | some ptr =>
    match readNode digest alloc ptr nodeHash with
    | .error e => .error e
    | .ok (.branch left right) =>
      match h : key.popFront with
      | none => .ok (none, proof.map (·.reversed.reachedBranch left right))
      | some (us, key') =>
        have := Slice.popFront_length h
        afterChild key' (if us then right else left)
          (proof.map (·.push (Item.ofBranch us left right)))
    | .ok (.extension extKey child) =>
      match h : key.stripPrefix extKey.slice with
      | none =>
        .ok (none, proof.map (·.reversed.reachedExtension ⟨key.length, key.length_lt⟩ extKey child))
      | some key' =>
        have := Slice.stripPrefix_length h
        have := extKey.nonempty
        match NonZeroU16.new extKey.len with
        | none => .error .panic
        | some len => afterChild key' child (proof.map (·.push (.extension len)))
  termination_by 2 * key.length
where
  /-- Goes on at the reference the visited node leads to. -/
  afterChild (key : Slice) (child : Ref) (proof : Option Builder) :
      Result (Option CryptoHash × Option Proof) :=
    match child with
    | .node nref => getLoop alloc key nref.ptr nref.hash proof
    | .value vref =>
      if vref.isSealed then .error (.err .sealed)
      else
        match NonZeroU16.new key.length with
        | some len => .ok (none, proof.map (·.reversed.lookupKeyLeft len vref.hash))
        | none => .ok (some vref.hash, proof.map (·.reversed.build))
  termination_by 2 * key.length + 1

section

variable {alloc : A} {ptr : Ptr} {hash : CryptoHash} {key : Slice} {proof : Option Builder} {left right child : Ref}
  {extKey : ExtKey}

theorem getLoop_of_error {e : Failure} (hread : readNode digest alloc ptr hash = .error e) :
    getLoop digest alloc key (some ptr) hash proof = .error e := by
  rw [getLoop]
  simp only [hread]

theorem getLoop_of_branch (hread : readNode digest alloc ptr hash = .ok (.branch left right)) :
    getLoop digest alloc key (some ptr) hash proof =
      match key.popFront with
      | none => .ok (none, proof.map (·.reversed.reachedBranch left right))
      | some (us, rest) =>
        getLoop.afterChild digest alloc rest (if us then right else left)
          (proof.map (·.push (Item.ofBranch us left right))) := by
  conv_lhs => unfold getLoop
  simp only [hread]
  cases key.popFront with
  | none => rfl
  | some popped => rfl

theorem getLoop_of_extension (hread : readNode digest alloc ptr hash = .ok (.extension extKey child)) :
    getLoop digest alloc key (some ptr) hash proof =
      match key.stripPrefix extKey.slice with
      | none => .ok (none, proof.map (·.reversed.reachedExtension ⟨key.length, key.length_lt⟩ extKey child))
      | some rest =>
        match NonZeroU16.new extKey.len with
        | none => .error .panic
        | some len => getLoop.afterChild digest alloc rest child (proof.map (·.push (.extension len))) := by
  conv_lhs => unfold getLoop
  simp only [hread]
  cases key.stripPrefix extKey.slice with
  | none => rfl
  | some rest => rfl

end

section

variable (alloc : A) (key : Slice) (proof : Option Builder)

/-- Nothing below a sealed node can be looked up. -/
theorem getLoop_none (nodeHash : CryptoHash) : getLoop digest alloc key none nodeHash proof = .error (.err .sealed) := by
  rw [getLoop]

theorem getLoop.afterChild_node (nref : NodeRef (Option Ptr)) :
    getLoop.afterChild digest alloc key (.node nref) proof = getLoop digest alloc key nref.ptr nref.hash proof := by
  rw [getLoop.afterChild]

theorem getLoop.afterChild_value (vref : ValueRef Bool) :
    getLoop.afterChild digest alloc key (.value vref) proof =
      if vref.isSealed then .error (.err .sealed)
      else
        match NonZeroU16.new key.length with
        | some len => .ok (none, proof.map (·.reversed.lookupKeyLeft len vref.hash))
        | none => .ok (some vref.hash, proof.map (·.reversed.build)) := by
  rw [getLoop.afterChild]

end

namespace Trie

/-- Creates a new empty trie using given allocator. -/
def new (alloc : A) : Trie A := ⟨none, emptyTrieRoot, alloc⟩

def sliceOf (key : List Byte) : Result Slice :=
  match Slice.fromBytes key with
  | some key => .ok key
  | none => .error (.err .keyTooLong)

def getImpl (t : Trie A) (key : List Byte) (includeProof : Bool) :
    Result (Option CryptoHash × Option Proof) :=
  match sliceOf key with
  | .error e => .error e
  | .ok key =>
    if t.rootHash = emptyTrieRoot then
      .ok (none, if includeProof then some Proof.emptyTrie else none)
    else
      getLoop digest t.alloc key t.rootPtr t.rootHash
        (if includeProof then some Builder.new else none)

/-- Retrieves value at given key. -/
def get (t : Trie A) (key : List Byte) : Result (Option CryptoHash) :=
  match t.getImpl digest key false with
  | .error e => .error e
  | .ok (value, _) => .ok value

/-- Retrieves value at given key and provides proof of the result. -/
def prove (t : Trie A) (key : List Byte) : Result (Option CryptoHash × Proof) :=
  match t.getImpl digest key true with
  | .error e => .error e
  | .ok (_, none) => .error .panic
  | .ok (value, some proof) => .ok (value, proof)

def setImpl (t : Trie A) (key : Slice) (valueHash : CryptoHash) : Result Unit × Trie A :=
  match Set.set digest t.alloc key valueHash t.rootPtr t.rootHash with
  | (.error e, alloc) => (.error e, { t with alloc := alloc })
  | (.ok (ptr, hash), alloc) => (.ok (), ⟨some ptr, hash, alloc⟩)

/-- Inserts a new value hash at given key. -/
def set (t : Trie A) (key : List Byte) (valueHash : CryptoHash) : Result Unit × Trie A :=
  match sliceOf key with
  | .error e => (.error e, t)
  | .ok key => t.setImpl digest key valueHash

def sealImpl (t : Trie A) (key : Slice) : Result Unit × Trie A :=
  match (Seal.sealNode digest key ⟨t.rootPtr, t.rootHash⟩).run t.alloc with
  | (.error e, alloc) => (.error e, { t with alloc := alloc })
  | (.ok removed, alloc) =>
    (.ok (), if removed then ⟨none, t.rootHash, alloc⟩ else { t with alloc := alloc })

/-- Seals value at given key. -/
def sealValue (t : Trie A) (key : List Byte) : Result Unit × Trie A :=
  if t.rootHash = emptyTrieRoot then (.error (.err .notFound), t)
  else
    match sliceOf key with
    | .error e => (.error e, t)
    | .ok key => t.sealImpl digest key

/-- Inserts a new value hash at given key and immediately seals it. -/
def setAndSeal (t : Trie A) (key : List Byte) (valueHash : CryptoHash) : Result Unit × Trie A :=
  match sliceOf key with
  | .error e => (.error e, t)
  | .ok key =>
    match t.setImpl digest key valueHash with
    | (.error e, t) => (.error e, t)
    | (.ok (), t) => t.sealImpl digest key

/-- Deletes value at given key. Returns `false` if key was not found. -/
def del (t : Trie A) (key : List Byte) : Result Bool × Trie A :=
  match sliceOf key with
  | .error e => (.error e, t)
  | .ok key =>
    match Del.del digest t.alloc key t.rootPtr t.rootHash with
    | (.ok res, alloc) =>
      let (ptr, hash) := res.getD (none, emptyTrieRoot)
      (.ok true, ⟨ptr, hash, alloc⟩)
    | (.error (.err .notFound), alloc) => (.ok false, { t with alloc := alloc })
    | (.error e, alloc) => (.error e, { t with alloc := alloc })

end Trie

end SealableTrie
