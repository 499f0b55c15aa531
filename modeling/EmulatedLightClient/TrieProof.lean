import EmulatedLightClient.Nodes

/-!
# Proofs of membership and non-membership

A proof lists the nodes from the one which holds the value up to the root, each
without what the verifier can compute. A non-membership proof additionally says
what the lookup has run into.
-/

namespace TrieProof

open ByteBits Bits Nodes

structure NonZeroU16 where
  get : Nat
  nonzero : get ≠ 0
  lt : get < 2 ^ 16
  deriving DecidableEq

def NonZeroU16.new (n : Nat) : Option NonZeroU16 :=
  if h : n ≠ 0 ∧ n < 2 ^ 16 then some ⟨n, h.1, h.2⟩ else none

/-- A reference to value or node. -/
structure OwnedRef where
  isValue : Bool
  hash : CryptoHash
  deriving DecidableEq

/-- A single item in a proof corresponding to a node in the trie. -/
inductive Item where
  | branch (child : OwnedRef)
  | extension (length : NonZeroU16)
  deriving DecidableEq

/-- Description of the condition at which the lookup failed. -/
inductive Actual where
  | branch (left right : OwnedRef)
  | extension (left : Fin (2 ^ 16)) (key : List Byte) (child : OwnedRef)
  | lookupKeyLeft (len : NonZeroU16) (hash : CryptoHash)
  deriving DecidableEq

structure Membership where
  items : List Item
  deriving DecidableEq

structure NonMembership where
  actual : Option Actual
  items : List Item
  deriving DecidableEq

inductive Proof where
  | positive (proof : Membership)
  | negative (proof : NonMembership)
  deriving DecidableEq

variable (digest : List Byte → CryptoHash)

namespace OwnedRef

def value (hash : CryptoHash) : OwnedRef := ⟨true, hash⟩

def node (hash : CryptoHash) : OwnedRef := ⟨false, hash⟩

/-- Creates a reference pointing at given node. -/
def toNode {P S : Type} (n : Node P S) : OwnedRef := node (n.hash digest)

def ofReference {P S : Type} (rf : Reference P S) : OwnedRef := ⟨rf.parts.1, rf.parts.2⟩

def toReference (rf : OwnedRef) : Reference Unit Unit :=
  if rf.isValue then .value ⟨(), rf.hash⟩ else .node ⟨(), rf.hash⟩

end OwnedRef

/-- The node a proof item stands for, given the reference to its child at the
end of the key, and the key without the part which leads through the node. -/
def itemNode (key : Slice) (want : OwnedRef) : Item → Option (Slice × Node Unit Unit)
  | .branch child =>
    key.popBack.map fun (bit, key) =>
      let us := want.toReference
      let them := child.toReference
      (key, if bit then .branch them us else .branch us them)
  | .extension length =>
    (key.popBackSlice length.get).bind fun (suffix, key) =>
      (ExtKey.tryFrom suffix).toOption.map fun extKey =>
        (key, .extension extKey want.toReference)

def verifyImpl (rootHash : CryptoHash) (key : Slice) (want : OwnedRef) :
    List Item → Option Unit
  | [] => if key.isEmpty && !want.isValue && rootHash == want.hash then some () else none
  | item :: proof =>
    (itemNode key want item).bind fun (key, node) =>
      verifyImpl rootHash key (OwnedRef.toNode digest node) proof

def Membership.verify (proof : Membership) (rootHash : CryptoHash) (key : List Byte)
    (valueHash : CryptoHash) : Bool :=
  if rootHash = CryptoHash.default then false
  else
    match Slice.fromBytes key with
    | some key => (verifyImpl digest rootHash key (OwnedRef.value valueHash) proof.items).isSome
    | none => false

/-- The node an `Actual` stands for, if it stands for one, with the part of the
lookup key at which it has been reached. -/
def actualNode (key : Slice) : Actual → Option (Slice × Node Unit Unit)
  | .branch left right => some (key, .branch left.toReference right.toReference)
  | .extension left keyBuf child =>
    (key.popBackSlice left.val).bind fun (suffix, key) =>
      (ExtKey.decode keyBuf 0#8).bind fun extKey =>
        if suffix.startsWith extKey.slice then none
        else some (key, .extension extKey child.toReference)
  | .lookupKeyLeft _ _ => none

/-- What an `Actual` says is found at which part of the lookup key. -/
def actualReference (key : Slice) : Actual → Option (Slice × OwnedRef)
  | .lookupKeyLeft len hash =>
    (key.popBackSlice len.get).map fun (_, key) => (key, OwnedRef.value hash)
  | actual => (actualNode key actual).map fun (key, node) => (key, OwnedRef.toNode digest node)

/-- Figures out reference to prove. -/
def NonMembership.getReference (proof : NonMembership) (key : List Byte) :
    Option (Slice × OwnedRef) :=
  (Slice.fromBytes key).bind fun key => proof.actual.bind (actualReference digest key)

def NonMembership.verify (proof : NonMembership) (rootHash : CryptoHash) (key : List Byte) :
    Bool :=
  if rootHash = CryptoHash.default then true
  else
    match proof.getReference digest key with
    | some (key, want) => (verifyImpl digest rootHash key want proof.items).isSome
    | none => false

/-- A missing value hash asks for a non-membership proof. -/
def Proof.verify (proof : Proof) (rootHash : CryptoHash) (key : List Byte)
    (valueHash : Option CryptoHash) : Bool :=
  match proof, valueHash with
  | .positive proof, some hash => proof.verify digest rootHash key hash
  | .negative proof, none => proof.verify digest rootHash key
  | _, _ => false

/-- Creates a non-membership proof for cases when trie is empty. -/
def Proof.emptyTrie : Proof := .negative ⟨none, []⟩

def Item.ofBranch {P S : Type} (us : Bool) (left right : Reference P S) : Item :=
  .branch (OwnedRef.ofReference (if us then left else right))

structure Builder where
  items : List Item

namespace Builder

def new : Builder := ⟨[]⟩

def push (b : Builder) (item : Item) : Builder := ⟨b.items ++ [item]⟩

def reversed (b : Builder) : Builder := ⟨b.items.reverse⟩

def build (b : Builder) : Proof := .positive ⟨b.items⟩

def negative (b : Builder) (actual : Actual) : Proof := .negative ⟨some actual, b.items⟩

def reachedBranch {P S : Type} (b : Builder) (left right : Reference P S) : Proof :=
  b.negative (.branch (OwnedRef.ofReference left) (OwnedRef.ofReference right))

def reachedExtension {P S : Type} (b : Builder) (left : Fin (2 ^ 16)) (key : ExtKey)
    (child : Reference P S) : Proof :=
  let (buf, len) := key.encodeInto 0#8
  b.negative (.extension left (buf.take len) (OwnedRef.ofReference child))

def lookupKeyLeft (b : Builder) (left : NonZeroU16) (value : CryptoHash) : Proof :=
  b.negative (.lookupKeyLeft left value)

end Builder

end TrieProof
