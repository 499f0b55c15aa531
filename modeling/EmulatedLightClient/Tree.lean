import EmulatedLightClient.BitMaps
import EmulatedLightClient.TrieBase

/-!
# The trie as a tree

A tree is what a reference stands for, with the branches which sealing has
removed still in it. Its operations are those of the trie with pointers and
the allocator left out. Depths are counted in bits from the root; they fix the
bit offsets of extension keys and how long keys are cut.
-/

namespace SealableTrie

open ByteBits Bits Nodes ListPrefix BitMaps

inductive Tree where
  | value (isSealed : Bool) (hash : CryptoHash)
  | pruned (left right : Tree)
  | branch (left right : Tree)
  | ext (key : List Bool) (child : Tree)
  deriving DecidableEq

namespace Tree

def isSealed : Tree → Bool
  | value isSealed _ => isSealed
  | pruned _ _ => true
  | branch _ _ => false
  | ext _ _ => false

/-- Maximum number of bits, those skipped by the offset included, in a key. -/
def maxBits : Nat := 272

/-- The longest key, in bits. -/
def maxKey : Nat := 65528

/-- Where the last chunk of `n` bits at given offset starts. -/
def cutAt (offset n : Nat) : Nat := (offset + n - 1) / maxBits * maxBits - offset

theorem cutAt_lt (offset : Nat) {n : Nat} (h : n ≠ 0) : cutAt offset n < n := by
  simp only [cutAt, maxBits]
  omega

/-- Extensions with given bits in front of the tree, cut into chunks. -/
def chain (d : Nat) (bits : List Bool) (t : Tree) : Tree :=
  if h : bits = [] then t
  else
    have := cutAt_lt (d % 8) (n := bits.length) (by simpa using h)
    chain d (bits.take (cutAt (d % 8) bits.length)) (ext (bits.drop (cutAt (d % 8) bits.length)) t)
  termination_by bits.length
  decreasing_by simp; omega

@[simp] theorem chain_nil (d : Nat) (t : Tree) : chain d [] t = t := by
  rw [chain, dif_pos rfl]

/-- The last chunk goes in front of the tree first. -/
theorem chain_append {d : Nat} {front back : List Bool} (t : Tree) (hne : back ≠ [])
    (hcut : cutAt (d % 8) (front.length + back.length) = front.length) :
    chain d (front ++ back) t = chain d front (ext back t) := by
  have hne' : front ++ back ≠ [] := by simp [hne]
  have hlen : cutAt (d % 8) (front ++ back).length = front.length := by
    rw [List.length_append, hcut]
  have htake : (front ++ back).take front.length = front := List.take_left
  have hdrop : (front ++ back).drop front.length = back := List.drop_left
  conv_lhs => unfold chain
  rw [dif_neg hne']
  simp only [hlen, htake, hdrop]

/-- An extension, unless its key would be empty. -/
def prepend (key : List Bool) (t : Tree) : Tree :=
  match key with
  | [] => t
  | bit :: key => ext (bit :: key) t

/-- The branch with given tree on the side of the bit. -/
def join (bit : Bool) (this other : Tree) : Tree :=
  if bit then branch other this else branch this other

/-- What the tree binds keys to: a hash and whether it has been sealed. -/
def lookup : Tree → List Bool → Option (CryptoHash × Bool)
  | value isSealed hash => Function.update (fun _ => none) [] (some (hash, isSealed))
  | pruned left right => fork left.lookup right.lookup
  | branch left right => fork left.lookup right.lookup
  | ext key child => under key child.lookup

/-- Well-formed trees below depth `d`: keys end at byte boundaries, keys of
extensions are neither empty nor too long, and all that was pruned is sealed. -/
def WF : Nat → Tree → Prop
  | d, value _ _ => 8 ∣ d ∧ d ≤ maxKey
  | d, pruned left right => left.WF (d + 1) ∧ right.WF (d + 1) ∧ left.isSealed ∧ right.isSealed
  | d, branch left right => left.WF (d + 1) ∧ right.WF (d + 1)
  | d, ext key child => key ≠ [] ∧ d % 8 + key.length ≤ maxBits ∧ child.WF (d + key.length)

def get : Tree → List Bool → Except Error (Option CryptoHash)
  | value isSealed hash, key =>
    if isSealed then .error .sealed else if key = [] then .ok (some hash) else .ok none
  | pruned _ _, _ => .error .sealed
  | branch _ _, [] => .ok none
  | branch left _, false :: key => left.get key
  | branch _ right, true :: key => right.get key
  | ext extKey child, key =>
    if extKey <+: key then child.get (key.drop extKey.length) else .ok none

def set (v : CryptoHash) : Tree → Nat → List Bool → Except Error Tree
  | value isSealed _, _, key =>
    if key ≠ [] then .error .badKeyPrefix
    else if isSealed then .error .sealed
    else .ok (value false v)
  | pruned _ _, _, _ => .error .sealed
  | branch _ _, _, [] => .error .badKeyPrefix
  | branch left right, d, false :: key => (left.set v (d + 1) key).map (branch · right)
  | branch left right, d, true :: key => (right.set v (d + 1) key).map (branch left)
  | ext extKey child, d, key =>
    if key = [] then .error .badKeyPrefix
    else
      let pre := commonPrefix key extKey
      match extKey.drop pre.length with
      | [] => (child.set v (d + extKey.length) (key.drop pre.length)).map (ext extKey)
      | _ :: suffix =>
        match key.drop pre.length with
        | [] => .error .badKeyPrefix
        | our :: rest =>
          .ok (prepend pre (join our (chain (d + pre.length + 1) rest (value false v))
            (prepend suffix child)))

inductive Action where
  | drop
  | ext (key : List Bool) (child : Tree)
  | ref (tree : Tree)
  deriving DecidableEq

def Action.lookup : Action → List Bool → Option (CryptoHash × Bool)
  | drop => fun _ => none
  | ext key child => under key child.lookup
  | ref tree => tree.lookup

def Action.toTree (d : Nat) : Action → Option Tree
  | drop => none
  | ext key child => some (chain d key child)
  | ref tree => some tree

/-- The extension left of a branch: its bit and the remaining child, the latter
merged if it is an extension. -/
def leftOver (bit : Bool) : Tree → Action
  | .ext key child => .ext (bit :: key) child
  | other => .ext [bit] other

/-- What becomes of an extension whose child has been handled. -/
def Action.extend (key : List Bool) : Action → Action
  | drop => drop
  | ext suffix child => ext (key ++ suffix) child
  | ref child => ext key child

/-- What becomes of a branch when its child on the side of the bit has. -/
def Action.inBranch (d : Nat) (bit : Bool) (other : Tree) (action : Action) : Action :=
  match action.toTree (d + 1) with
  | some child => ref (join bit child other)
  | none => leftOver (!bit) other

def del : Tree → Nat → List Bool → Except Error Action
  | value isSealed _, _, key =>
    if isSealed then .error .sealed else if key = [] then .ok .drop else .error .notFound
  | pruned _ _, _, _ => .error .sealed
  | branch _ _, _, [] => .error .notFound
  | branch left right, d, false :: key =>
    (left.del (d + 1) key).map (Action.inBranch d false right)
  | branch left right, d, true :: key =>
    (right.del (d + 1) key).map (Action.inBranch d true left)
  | ext extKey child, d, key =>
    if extKey <+: key then
      (child.del (d + extKey.length) (key.drop extKey.length)).map (Action.extend extKey)
    else .error .notFound

/-- A branch is pruned once both of its children are sealed. -/
def sealJoin (bit : Bool) (this other : Tree) : Tree :=
  if this.isSealed && other.isSealed then
    if bit then pruned other this else pruned this other
  else join bit this other

def sealKey : Tree → List Bool → Except Error Tree
  | value isSealed hash, key =>
    if isSealed then .error .sealed
    else if key = [] then .ok (value true hash)
    else .error .notFound
  | pruned _ _, _ => .error .sealed
  | branch _ _, [] => .error .notFound
  | branch left right, false :: key => (left.sealKey key).map (sealJoin false · right)
  | branch left right, true :: key => (right.sealKey key).map (sealJoin true · left)
  | ext extKey child, key =>
    if extKey <+: key then (child.sealKey (key.drop extKey.length)).map (ext extKey)
    else .error .notFound

end Tree

end SealableTrie
