import EmulatedLightClient.TrieBase

/-!
# Sealing a value

Sealing works on the allocator directly. A branch whose children are both
sealed is freed and sealed itself; extensions stay.
-/

namespace SealableTrie.Seal

open ByteBits Bits Nodes Memory FailingState

abbrev AllocOp (A α : Type) := Op Failure A α

inductive SealResult where
  | free
  | replace (node : RawNode)
  | done

variable {A : Type} [Allocator A RawNode] (digest : List Byte → CryptoHash)

def allocSet (ptr : Ptr) (node : RawNode) : AllocOp A Unit := fun a =>
  match Allocator.set a ptr node with
  | some a => (.ok (), a)
  | none => (.error .panic, a)

def allocFree (ptr : Ptr) : AllocOp A Unit := fun a =>
  match Allocator.free a ptr with
  | some a => (.ok (), a)
  | none => (.error .panic, a)

def readNode (ptr : Ptr) (hash : CryptoHash) : AllocOp A (Node (Option Ptr) Bool) := fun a =>
  (SealableTrie.readNode digest a ptr hash, a)

/-- Updates or frees the visited node; returns whether it has been freed. -/
def applyResult (ptr : Ptr) : SealResult → AllocOp A Bool
  | .replace node => do
    allocSet ptr node
    return false
  | .free => do
    allocFree ptr
    return true
  | .done => return false

mutual

/-- Seals value at the key; returns whether the node of the reference has been
sealed and thus freed. -/
def sealNode (key : Slice) (nref : NodeRef (Option Ptr)) : AllocOp A Bool :=
  match nref.ptr with
  | none => Op.fail (.err .sealed)
  | some ptr => do
    let node ← readNode digest ptr nref.hash
    let result ←
      match node with
      | .branch left right => sealBranch key left right
      | .extension extKey child => sealExtension key extKey child
    applyResult ptr result
  termination_by 3 * key.length + 1

def sealBranch (key : Slice) (left right : Ref) : AllocOp A SealResult :=
  match h : key.popFront with
  | none => Op.fail (.err .notFound)
  | some (side, key') => do
    have := Slice.popFront_length h
    match ← sealChild key' (if side then right else left) with
    | none => return .done
    | some child =>
      if (if side then left else right).isSealed then return .free
      else if side then return .replace (RawNode.branch left child)
      else return .replace (RawNode.branch child right)
  termination_by 3 * key.length

def sealExtension (key : Slice) (extKey : ExtKey) (child : Ref) : AllocOp A SealResult :=
  match h : key.stripPrefix extKey.slice with
  | none => Op.fail (.err .notFound)
  | some key' => do
    have := Slice.stripPrefix_length h
    have := extKey.nonempty
    match ← sealChild key' child with
    | some child => return .replace (RawNode.extension extKey child)
    | none => return .done
  termination_by 3 * key.length

/-- The sealed reference which replaces the child, if it has to be replaced. -/
def sealChild (key : Slice) (child : Ref) : AllocOp A (Option Ref) :=
  match child with
  | .node nref => do
    if ← sealNode key nref then return some (.node ⟨none, nref.hash⟩)
    else return none
  | .value vref =>
    if vref.isSealed then Op.fail (.err .sealed)
    else if key.isEmpty then return some (.value ⟨true, vref.hash⟩)
    else Op.fail (.err .notFound)
  termination_by 3 * key.length + 2

end

end SealableTrie.Seal
