import EmulatedLightClient.TrieBase

/-!
# Setting a value

The walk follows the key from the root, keeps what is left of the key as an
argument and rewrites the nodes of the path on its way back.
-/

namespace SealableTrie.Set

open ByteBits Bits Nodes Memory FailingState

inductive OwnedRef where
  | node (ptr : Ptr) (hash : CryptoHash)
  | value (hash : CryptoHash)

def OwnedRef.toRef : OwnedRef → Ref
  | node ptr hash => .node ⟨some ptr, hash⟩
  | value hash => .value ⟨false, hash⟩

variable {A : Type} [Allocator A RawNode] (digest : List Byte → CryptoHash)

/-- Sets value of a node cell at given address and returns its hash. -/
def setNode (ptr : Ptr) (node : RawNode) : LogOp A (Ptr × CryptoHash) :=
  match node.decode with
  | .error _ => Op.fail .panic
  | .ok decoded => do
    LogOp.set ptr node
    return (ptr, decoded.hash digest)

/-- Allocates a new node and sets it to given value. -/
def allocNode (node : RawNode) : LogOp A (Ptr × CryptoHash) :=
  match node.decode with
  | .error err => Op.fail (.err (.badRawNode err))
  | .ok decoded => do
    let ptr ← LogOp.alloc node
    return (ptr, decoded.hash digest)

def allocExtensionNode (key : ExtKey) (child : Ref) : LogOp A (Ptr × CryptoHash) :=
  allocNode digest (RawNode.extension key child)

/-- The loop of `insertValue` over the chunks of the key, the last chunk first. -/
def insertChunks : List ExtKey → Option Ptr → CryptoHash → LogOp A OwnedRef
  | [], some ptr, hash => pure (.node ptr hash)
  | [], none, hash => pure (.value hash)
  | chunk :: rest, ptr, hash => do
    let child : Ref :=
      match ptr with
      | none => .value ⟨false, hash⟩
      | some _ => .node ⟨ptr, hash⟩
    let (p, h) ← allocNode digest (RawNode.extension chunk child)
    insertChunks rest (some p) h

/-- Inserts one or more Extension nodes leading to the value; none at all when
the key is empty. -/
def insertValue (key : Slice) (valueHash : CryptoHash) : LogOp A OwnedRef :=
  insertChunks digest key.chunksRev none valueHash

/-- Reference to what is left of a split extension. -/
def theirRef (suffix : Slice) (child : Ref) : LogOp A Ref :=
  match ExtKey.tryFrom suffix with
  | .ok suffix => do
    let (ptr, hash) ← allocExtensionNode digest suffix child
    return .node ⟨some ptr, hash⟩
  | .error .empty => return child
  | .error .tooLong => Op.fail .panic

mutual

/-- Inserts value into the trie starting at node pointed by given reference. -/
def handle (key : Slice) (valueHash : CryptoHash) (nref : NodeRef (Option Ptr)) :
    LogOp A (Ptr × CryptoHash) :=
  match nref.ptr with
  | none => Op.fail (.err .sealed)
  | some nptr => do
    match ← LogOp.readNode digest nptr nref.hash with
    | .branch left right => handleBranch key valueHash nptr left right
    | .extension extKey child => handleExtension key valueHash nptr extKey child
  termination_by 3 * key.length + 1

def handleBranch (key : Slice) (valueHash : CryptoHash) (nptr : Ptr) (left right : Ref) :
    LogOp A (Ptr × CryptoHash) :=
  match h : key.popFront with
  | none => Op.fail (.err .badKeyPrefix)
  | some (bit, key') => do
    have := Slice.popFront_length h
    let ownedRef ← handleReference key' valueHash (if bit then right else left)
    let child := ownedRef.toRef
    if bit then setNode digest nptr (RawNode.branch left child)
    else setNode digest nptr (RawNode.branch child right)
  termination_by 3 * key.length

def handleExtension (key : Slice) (valueHash : CryptoHash) (nptr : Ptr) (extKey : ExtKey)
    (child : Ref) : LogOp A (Ptr × CryptoHash) :=
  if key.isEmpty then Op.fail (.err .badKeyPrefix)
  else
    match h : key.forwardCommonPrefix extKey with
    | none => Op.fail .panic
    | some (pre, none, key') =>
      -- The entire extension key matched.
      if ¬ pre.any fun pre => extKey.slice.eq pre.slice then Op.fail .panic
      else do
        have := Slice.forwardCommonPrefix_length h
        let ownedRef ← handleReference key' valueHash child
        setNode digest nptr (RawNode.extension extKey ownedRef.toRef)
    | some (pre, some suffix, key') =>
      match key'.popFront with
      | none => Op.fail (.err .badKeyPrefix)
      | some (our, key') =>
        match suffix.slice.popFront with
        | none => Op.fail .panic
        | some (theirs, suffix) =>
          if our = theirs then Op.fail .panic
          else do
            let ourRef ← insertValue digest key' valueHash
            let theirRef ← theirRef digest suffix child
            let node :=
              if our then RawNode.branch theirRef ourRef.toRef
              else RawNode.branch ourRef.toRef theirRef
            let (ptr, hash) ← setNode digest nptr node
            match pre with
            | some pre => allocExtensionNode digest pre (.node ⟨some ptr, hash⟩)
            | none => return (ptr, hash)
  termination_by 3 * key.length

def handleReference (key : Slice) (valueHash : CryptoHash) (child : Ref) : LogOp A OwnedRef :=
  match child with
  | .node nref => do
    let (p, h) ← handle key valueHash nref
    return .node p h
  | .value vref =>
    if ¬ key.isEmpty then Op.fail (.err .badKeyPrefix)
    else if vref.isSealed then Op.fail (.err .sealed)
    else return .value valueHash
  termination_by 3 * key.length + 2

end

/-- What the operation does on its write log. -/
def body (key : Slice) (valueHash : CryptoHash) (rootPtr : Option Ptr) (rootHash : CryptoHash) :
    LogOp A (Ptr × CryptoHash) :=
  match rootPtr with
  | some ptr => handle digest key valueHash ⟨some ptr, rootHash⟩
  | none =>
    if rootHash ≠ emptyTrieRoot then Op.fail (.err .sealed)
    else do
      match ← insertValue digest key valueHash with
      | .node ptr hash => return (ptr, hash)
      | .value _ => Op.fail (.err .emptyKey)

/-- Inserts value hash into the trie. -/
def set (alloc : A) (key : Slice) (valueHash : CryptoHash) (rootPtr : Option Ptr)
    (rootHash : CryptoHash) : Result (Ptr × CryptoHash) × A :=
  transact (body digest key valueHash rootPtr rootHash) alloc

end SealableTrie.Set
