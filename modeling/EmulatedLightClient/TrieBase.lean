import EmulatedLightClient.FailingState
import EmulatedLightClient.WriteLogSpec
import EmulatedLightClient.Nodes

/-!
# Errors, node access and transactions shared by the trie operations

Besides the errors of the source, operations may end with a panic: an access to
a block which is not allocated, a failed assertion or an `unwrap`. The debug
assertion on the hash of every visited node is part of the model.
-/

namespace SealableTrie

open ByteBits Nodes Memory FailingState

def emptyTrieRoot : CryptoHash := CryptoHash.default

inductive Error where
  | emptyKey
  | keyTooLong
  | sealed
  | badKeyPrefix
  | notFound
  | outOfMemory
  | badRawNode (err : DecodeError)
  deriving DecidableEq

inductive Failure where
  | err (error : Error)
  | panic
  deriving DecidableEq

abbrev Result (α : Type) := Except Failure α

variable {A : Type} [Allocator A RawNode] (digest : List Byte → CryptoHash)

/-- Reads and decodes the node at the pointer, which is referenced by `hash`. -/
def readNode (alloc : A) (ptr : Ptr) (hash : CryptoHash) : Result (Node (Option Ptr) Bool) :=
  match Allocator.get alloc ptr with
  | none => .error .panic
  | some raw =>
    match raw.decode with
    | .error err => .error (.err (.badRawNode err))
    | .ok node => if hash = node.hash digest then .ok node else .error .panic

abbrev LogOp (A α : Type) := Op Failure (WriteLog A RawNode) α

namespace LogOp

def readNode (ptr : Ptr) (hash : CryptoHash) : LogOp A (Node (Option Ptr) Bool) := fun w =>
  (SealableTrie.readNode digest w.alloc ptr hash, w)

def alloc (raw : RawNode) : LogOp A Ptr := fun w =>
  match w.allocate raw with
  | (.ok ptr, w) => (.ok ptr, w)
  | (.error _, w) => (.error (.err .outOfMemory), w)

def set (ptr : Ptr) (raw : RawNode) : LogOp A Unit := Op.modify (·.set ptr raw)

def free (ptr : Ptr) : LogOp A Unit := Op.modify (·.free ptr)

end LogOp

/-- Runs an operation on a fresh write log; the log is committed if the
operation succeeds and dropped otherwise. -/
def transact {α : Type} (op : LogOp A α) (alloc : A) : Result α × A :=
  match op.run (WriteLog.new alloc) with
  | (.ok a, w) =>
    match w.commit with
    | some alloc => (.ok a, alloc)
    | none => (.error .panic, w.alloc)
  | (.error e, w) =>
    match w.drop with
    | some alloc => (.error e, alloc)
    | none => (.error .panic, w.alloc)

end SealableTrie
