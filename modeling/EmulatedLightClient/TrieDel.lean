import EmulatedLightClient.TrieBase
import EmulatedLightClient.OwnedBits

/-!
# Deleting a value

Handling a node reports to its parent what became of it. A branch left with
one child turns into an extension which travels up until it meets a branch and
is merged with every extension on its way.
-/

namespace SealableTrie.Del

open ByteBits Bits Nodes Memory FailingState

/-- The owned counterpart of a reference. -/
abbrev OwnedRef := Ref

/-- An internal representation of results of handling of a node. -/
inductive Action where
  | drop
  | ext (key : Owned) (child : OwnedRef)
  | ref (owned : OwnedRef)

variable {A : Type} [Allocator A RawNode] (digest : List Byte → CryptoHash)

def setNode (ptr : Ptr) (node : RawNode) : LogOp A OwnedRef :=
  match node.decode with
  | .error err => Op.fail (.err (.badRawNode err))
  | .ok decoded => do
    LogOp.set ptr node
    return .node ⟨some ptr, decoded.hash digest⟩

def delNode (ptr : Ptr) : LogOp A Unit := LogOp.free ptr

/-- The loop of `refFromAction` over the chunks of the key, the last chunk first. -/
def extendChunks : List ExtKey → OwnedRef → LogOp A OwnedRef
  | [], child => pure child
  | chunk :: rest, child => do
    let node := RawNode.extension chunk child
    let ptr ← LogOp.alloc node
    match node.decode with
    | .error err => Op.fail (.err (.badRawNode err))
    | .ok decoded => extendChunks rest (.node ⟨some ptr, decoded.hash digest⟩)

/-- Converts an action into a reference if it is not a `drop`. -/
def refFromAction : Action → LogOp A (Option OwnedRef)
  | .ext key child => do return some (← extendChunks digest key.asSlice.chunksRev child)
  | .ref owned => return some owned
  | .drop => return none

/-- If `child` points at an Extension node, pops that node and returns the
extension with the key put together by `makeKey`. -/
def maybePopExtension (child : Ref) (makeKey : ExtKey → Except ConcatError Owned) :
    LogOp A (Option Action) :=
  match child with
  | .node ⟨some ptr, hash⟩ => do
    match ← LogOp.readNode digest ptr hash with
    | .extension key child => do
      delNode ptr
      match makeKey key with
      | .ok key => return some (.ext key child)
      | .error _ => Op.fail .panic
    | .branch _ _ => return none
  | _ => return none

mutual

def handleReference (key : Slice) (child : Ref) : LogOp A Action :=
  match child with
  | .value vref =>
    if vref.isSealed then Op.fail (.err .sealed)
    else if key.isEmpty then return .drop
    else Op.fail (.err .notFound)
  | .node nref => handle key nref
  termination_by 3 * key.length + 2

def handle (key : Slice) (nref : NodeRef (Option Ptr)) : LogOp A Action :=
  match nref.ptr with
  | none => Op.fail (.err .sealed)
  | some ptr => do
    match ← LogOp.readNode digest ptr nref.hash with
    | .branch left right => handleBranch key ptr left right
    | .extension extKey child => handleExtension key ptr extKey child
  termination_by 3 * key.length + 1

def handleBranch (key : Slice) (ptr : Ptr) (left right : Ref) : LogOp A Action :=
  let keyOffset := key.offset
  match h : key.popFront with
  | none => Op.fail (.err .notFound)
  | some (side, key') => do
    have := Slice.popFront_length h
    let action ← handleReference key' (if side then right else left)
    match ← refFromAction digest action with
    | some child =>
      let node := if side then RawNode.branch left child else RawNode.branch child right
      return .ref (← setNode digest ptr node)
    | none => do
      delNode ptr
      let child := if side then left else right
      let popped ← maybePopExtension digest child fun key => Owned.concatBit (!side) key.slice
      return popped.getD (.ext (Owned.bit (!side) keyOffset) child)
  termination_by 3 * key.length

def handleExtension (key : Slice) (ptr : Ptr) (extKey : ExtKey) (child : Ref) :
    LogOp A Action :=
  match h : key.stripPrefix extKey.slice with
  | none => Op.fail (.err .notFound)
  | some key' => do
    have := Slice.stripPrefix_length h
    have := extKey.nonempty
    delNode ptr
    match ← handleReference key' child with
    | .drop => return .drop
    | .ref child => return .ext (Owned.ofSlice extKey.slice) child
    | .ext suffix child =>
      match Owned.concat extKey.slice suffix.asSlice with
      | .ok key => return .ext key child
      | .error _ => Op.fail .panic
  termination_by 3 * key.length

end

/-- What the operation does on its write log. -/
def body (key : Slice) (rootPtr : Option Ptr) (rootHash : CryptoHash) :
    LogOp A (Option (Option Ptr × CryptoHash)) :=
  if rootHash = emptyTrieRoot then Op.fail (.err .notFound)
  else do
    let action ← handle digest key ⟨rootPtr, rootHash⟩
    match ← refFromAction digest action with
    | some (.node nref) => return some (nref.ptr, nref.hash)
    | some (.value _) => Op.fail .panic
    | none => return none

/-- Deletes value from the trie. -/
def del (alloc : A) (key : Slice) (rootPtr : Option Ptr) (rootHash : CryptoHash) :
    Result (Option (Option Ptr × CryptoHash)) × A :=
  transact (body digest key rootPtr rootHash) alloc

end SealableTrie.Del
