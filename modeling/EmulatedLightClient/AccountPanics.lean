import EmulatedLightClient.TrieFollows
import EmulatedLightClient.TrieRefinement

/-!
# Calls on the trie of an account

Values are stored as they are given, and a block whose last bytes are zero cannot be
released. Runs which store no zero value never panic: over the heap the trie does not
panic, and the account does the same, whichever requests for memory fail and however often
the account is closed and opened. A value of zero makes its deletion panic.
-/

namespace SolanaTrie

open ByteBits Bits Nodes Memory SealableTrie FailingState FailingState.Op

section

variable {D : Type} [DataRef D] {digest : List Byte → CryptoHash}

theorem setAll_account {l l' : Held D} {writes : List (Ptr × RawNode)} (hl : l.AllClean)
    (hwrites : ∀ e ∈ writes, Clean e.2) (h : WriteLog.setAll l writes = some l') :
    WriteLog.setAll l.account writes = some l'.account ∧ l'.AllClean := by
  induction writes generalizing l with
  | nil =>
    cases h
    exact ⟨rfl, hl⟩
  | cons e writes ih =>
    obtain ⟨ptr, value⟩ := e
    obtain ⟨mid, hmid, h⟩ := Option.bind_eq_some_iff.mp h
    obtain ⟨hvalue, hrest⟩ := List.forall_mem_cons.mp hwrites
    obtain ⟨hall, hclean⟩ := ih (hl.set hvalue hmid) hrest h
    refine ⟨?_, hclean⟩
    rw [WriteLog.setAll, Held.set_account hmid, Option.bind_some, hall]

theorem freeAll_account {l l' : Held D} {ptrs : List Ptr} (hl : l.AllClean) (h : WriteLog.freeAll l ptrs = some l') :
    WriteLog.freeAll l.account ptrs = some l'.account ∧ l'.AllClean := by
  induction ptrs generalizing l with
  | nil =>
    cases h
    exact ⟨rfl, hl⟩
  | cons ptr ptrs ih =>
    obtain ⟨mid, hmid, h⟩ := Option.bind_eq_some_iff.mp h
    obtain ⟨hall, hclean⟩ := ih (hl.free hmid) h
    refine ⟨?_, hclean⟩
    rw [WriteLog.freeAll, Held.free_account hl hmid, Option.bind_some, hall]

theorem commit_account {w : WriteLog (Held D) RawNode} {l : Held D} (hw : CleanLog w) (h : w.commit = some l) :
    (Held.log w).commit = some l.account ∧ l.AllClean := by
  obtain ⟨mid, hmid, h⟩ := Option.bind_eq_some_iff.mp h
  obtain ⟨hset, hclean⟩ := setAll_account hw.alloc hw.writes hmid
  obtain ⟨hfree, hclean'⟩ := freeAll_account hclean h
  refine ⟨?_, hclean'⟩
  change (WriteLog.setAll w.alloc.account w.writeLog).bind (WriteLog.freeAll · w.freed.reverse) = _
  rw [hset, Option.bind_some, hfree]

theorem drop_account {w : WriteLog (Held D) RawNode} {l : Held D} (hw : CleanLog w) (h : w.drop = some l) :
    (Held.log w).drop = some l.account ∧ l.AllClean :=
  freeAll_account hw.alloc h

theorem follows_transact {α : Type} {x : LogOp (Account D) α} {y : LogOp (Held D) α} {Q : α → Prop}
    (h : LogFollows x y Q) :
    Follows Held.account Held.AllClean Failure.panic (transact x) (transact y) fun _ => True := by
  intro l hl
  have hrun := h (WriteLog.new l) ⟨hl, nofun⟩
  have hx : x.run (WriteLog.new l.account) = x (Held.log (WriteLog.new l)) := rfl
  unfold transact
  rw [hx]
  cases hy : y.run (WriteLog.new l) with
  | mk r w =>
    rw [show y (WriteLog.new l) = (r, w) from hy] at hrun
    dsimp only at hrun
    rcases hrun with rfl | ⟨hsame, hw, -⟩
    · dsimp only
      cases hdrop : w.drop with
      | none => exact Or.inl rfl
      | some l' => exact Or.inl rfl
    · rw [hsame]
      cases r with
      | ok a =>
        dsimp only
        cases hcommit : w.commit with
        | none => exact Or.inl rfl
        | some l' =>
          obtain ⟨haccount, hclean⟩ := commit_account hw hcommit
          rw [haccount]
          exact Or.inr ⟨rfl, hclean, fun _ _ => trivial⟩
      | error e =>
        dsimp only
        cases hdrop : w.drop with
        | none => exact Or.inl rfl
        | some l' =>
          obtain ⟨haccount, hclean⟩ := drop_account hw hdrop
          rw [haccount]
          exact Or.inr ⟨rfl, hclean, fun _ _ => trivial⟩

/-- The trie as the account has it. -/
def Held.trie (t : Trie (Held D)) : Trie (Account D) := ⟨t.rootPtr, t.rootHash, t.alloc.account⟩

abbrev TrieFollows {α : Type} (x : Op Failure (Trie (Account D)) α) (y : Op Failure (Trie (Held D)) α) : Prop :=
  Follows Held.trie (fun t => t.alloc.AllClean) Failure.panic x y fun _ => True

variable (hd : ∀ b, digest b ≠ emptyTrieRoot) {valueHash : CryptoHash} (hv : valueHash ≠ emptyTrieRoot)

include hd hv in
theorem follows_setImpl (key : Slice) :
    TrieFollows (D := D) (fun t => t.setImpl digest key valueHash) (fun t => t.setImpl digest key valueHash) := by
  intro t ht
  have h := follows_transact (FollowSet.follows_body hd hv key t.rootPtr t.rootHash) t.alloc ht
  dsimp only [Trie.setImpl, Set.set, Held.trie]
  cases htr : transact (Set.body digest key valueHash t.rootPtr t.rootHash) t.alloc with
  | mk r l =>
    rw [htr] at h
    dsimp only at h
    rcases h with rfl | ⟨hsame, hclean, -⟩
    · exact Or.inl rfl
    · rw [hsame]
      cases r with
      | ok r => exact Or.inr ⟨rfl, hclean, fun _ _ => trivial⟩
      | error e => exact Or.inr ⟨rfl, hclean, fun _ _ => trivial⟩

theorem follows_sealImpl (key : Slice) :
    TrieFollows (D := D) (fun t => t.sealImpl digest key) (fun t => t.sealImpl digest key) := by
  intro t ht
  have hnode : FollowSeal.AllocFollows (D := D) (Seal.sealNode digest key ⟨t.rootPtr, t.rootHash⟩)
      (Seal.sealNode digest key ⟨t.rootPtr, t.rootHash⟩) fun _ => True :=
    FollowSeal.follows_sealNode (fun key' _ => FollowSeal.follows_sealChild) _
  have h := hnode t.alloc ht
  dsimp only [Trie.sealImpl, Held.trie, Op.run]
  cases hrun : Seal.sealNode digest key ⟨t.rootPtr, t.rootHash⟩ t.alloc with
  | mk r l =>
    rw [hrun] at h
    dsimp only at h
    rcases h with rfl | ⟨hsame, hclean, -⟩
    · exact Or.inl rfl
    · rw [hsame]
      cases r with
      | ok removed =>
        cases removed with
        | true => exact Or.inr ⟨rfl, hclean, fun _ _ => trivial⟩
        | false => exact Or.inr ⟨rfl, hclean, fun _ _ => trivial⟩
      | error e => exact Or.inr ⟨rfl, hclean, fun _ _ => trivial⟩

include hd hv in
theorem follows_setTrie (key : List Byte) :
    TrieFollows (D := D) (fun t => t.set digest key valueHash) (fun t => t.set digest key valueHash) := by
  intro t ht
  dsimp only [Trie.set]
  cases Trie.sliceOf key with
  | error e => exact Or.inr ⟨rfl, ht, fun _ _ => trivial⟩
  | ok key => exact follows_setImpl hd hv key t ht

theorem follows_sealValue (key : List Byte) :
    TrieFollows (D := D) (fun t => t.sealValue digest key) (fun t => t.sealValue digest key) := by
  intro t ht
  have hroot : (Held.trie t).rootHash = t.rootHash := rfl
  dsimp only [Trie.sealValue]
  rw [hroot]
  split
  · exact Or.inr ⟨rfl, ht, fun _ _ => trivial⟩
  · cases Trie.sliceOf key with
    | error e => exact Or.inr ⟨rfl, ht, fun _ _ => trivial⟩
    | ok key => exact follows_sealImpl key t ht

include hd hv in
theorem follows_setAndSeal (key : List Byte) :
    TrieFollows (D := D) (fun t => t.setAndSeal digest key valueHash) (fun t => t.setAndSeal digest key valueHash) := by
  intro t ht
  dsimp only [Trie.setAndSeal]
  cases Trie.sliceOf key with
  | error e => exact Or.inr ⟨rfl, ht, fun _ _ => trivial⟩
  | ok key =>
    have h := follows_setImpl hd hv key t ht
    dsimp only at h ⊢
    cases hset : t.setImpl digest key valueHash with
    | mk r t' =>
      rw [hset] at h
      dsimp only at h
      rcases h with rfl | ⟨hsame, hclean, -⟩
      · exact Or.inl rfl
      · rw [hsame]
        cases r with
        | error e => exact Or.inr ⟨rfl, hclean, fun _ _ => trivial⟩
        | ok u => exact follows_sealImpl key t' hclean

include hd in
theorem follows_del (key : List Byte) :
    TrieFollows (D := D) (fun t => t.del digest key) (fun t => t.del digest key) := by
  intro t ht
  dsimp only [Trie.del]
  cases Trie.sliceOf key with
  | error e => exact Or.inr ⟨rfl, ht, fun _ _ => trivial⟩
  | ok key =>
    have h := follows_transact (FollowDel.follows_body hd key t.rootPtr t.rootHash) t.alloc ht
    dsimp only [Del.del, Held.trie]
    cases htr : transact (Del.body digest key t.rootPtr t.rootHash) t.alloc with
    | mk r l =>
      rw [htr] at h
      dsimp only at h
      rcases h with rfl | ⟨hsame, hclean, -⟩
      · exact Or.inl rfl
      · rw [hsame]
        cases r with
        | ok res => exact Or.inr ⟨rfl, hclean, fun _ _ => trivial⟩
        | error e =>
          cases e with
          | panic => exact Or.inl rfl
          | err error =>
            cases error with
            | notFound => exact Or.inr ⟨rfl, hclean, fun _ _ => trivial⟩
            | _ => exact Or.inr ⟨rfl, hclean, fun _ _ => trivial⟩

/-- Makes the call; the result tells `del` of a missing key from other calls. -/
def makeCall {A : Type} [Memory.Allocator A RawNode] (digest : List Byte → CryptoHash) (t : Trie A) :
    SealableTrie.Call → Result Bool × Trie A
  | .set key valueHash => ((t.set digest key valueHash).1.map fun _ => true, (t.set digest key valueHash).2)
  | .del key => t.del digest key
  | .sealValue key => ((t.sealValue digest key).1.map fun _ => true, (t.sealValue digest key).2)
  | .setAndSeal key valueHash =>
    ((t.setAndSeal digest key valueHash).1.map fun _ => true, (t.setAndSeal digest key valueHash).2)

/-- The call stores no zero value. -/
def StoresNonzero : SealableTrie.Call → Prop
  | .set _ valueHash | .setAndSeal _ valueHash => valueHash ≠ emptyTrieRoot
  | .del _ | .sealValue _ => True

omit hd hv in
theorem TrieFollows.map {α : Type} {x : Op Failure (Trie (Account D)) α} {y : Op Failure (Trie (Held D)) α}
    (h : TrieFollows x y) (f : α → Bool) :
    TrieFollows (fun t => ((x t).1.map f, (x t).2)) (fun t => ((y t).1.map f, (y t).2)) := by
  intro t ht
  rcases h t ht with hpanic | ⟨hsame, hclean, -⟩
  · left
    dsimp only
    rw [hpanic]
    rfl
  · right
    dsimp only
    rw [hsame]
    exact ⟨rfl, hclean, fun _ _ => trivial⟩

include hd in
theorem follows_makeCall {c : SealableTrie.Call} (hc : StoresNonzero c) :
    TrieFollows (D := D) (fun t => makeCall digest t c) (fun t => makeCall digest t c) := by
  cases c with
  | set key valueHash => exact (follows_setTrie hd hc key).map fun _ => true
  | del key => exact follows_del hd key
  | sealValue key => exact (follows_sealValue key).map fun _ => true
  | setAndSeal key valueHash => exact (follows_setAndSeal hd hc key).map fun _ => true

/-- `reopen` closes the account and opens it as it is by then. -/
inductive AccountCall (D : Type) where
  | call (c : SealableTrie.Call)
  | reopen (reload : D → D)

/-- The trie over the account which has just been opened. -/
def backed (t : Trie (Allocator D)) : Trie (Account D) := ⟨t.rootPtr, t.rootHash, .live t.alloc⟩

def openTrie (data : D) : Option (Trie (Account D)) := (TrieAccount.new data).map backed

def reopenTrie (t : Trie (Account D)) (reload : D → D) : Option (Trie (Account D)) :=
  match t.alloc with
  | .live a => (TrieAccount.drop ⟨t.rootPtr, t.rootHash, a⟩).bind fun closed => openTrie (reload closed)
  | .panicked => none

def AccountCall.make (digest : List Byte → CryptoHash) (t : Trie (Account D)) :
    AccountCall D → Result Bool × Trie (Account D)
  | .call c => makeCall digest t c
  | .reopen reload =>
    match reopenTrie t reload with
    | some t => (.ok true, t)
    | none => (.error .panic, t)

/-- Results of the calls and the trie they leave. -/
def runCalls (digest : List Byte → CryptoHash) (t : Trie (Account D)) :
    List (AccountCall D) → List (Result Bool) × Trie (Account D)
  | [] => ([], t)
  | c :: calls =>
    let (results, t') := runCalls digest (c.make digest t).2 calls
    ((c.make digest t).1 :: results, t')

/-- No call panics, neither itself nor in the allocator while it hands out a block. -/
def NeverPanics (digest : List Byte → CryptoHash) (t : Trie (Account D)) (calls : List (AccountCall D)) : Prop :=
  (∀ r ∈ (runCalls digest t calls).1, r ≠ .error .panic) ∧ ∃ a, (runCalls digest t calls).2.alloc = .live a

/-- Calls store no zero value, and between sessions the account keeps its bytes. -/
def AccountCall.Sound : AccountCall D → Prop
  | .call c => StoresNonzero c
  | .reopen reload => Reloads reload

/-- The account backs a trie over a heap of nodes which can be released. -/
def Backs (digest : List Byte → CryptoHash) (t : Trie (Account D)) : Prop :=
  ∃ (s : State (Held D)) (root : Root), t = Held.trie s.trie ∧ s.trie.alloc.AllClean ∧ s.Holds digest root

include hd in
theorem Backs.call {t : Trie (Account D)} (h : Backs digest t) {c : SealableTrie.Call} (hc : StoresNonzero c) :
    (makeCall digest t c).1 ≠ .error .panic ∧ Backs digest (makeCall digest t c).2 := by
  obtain ⟨s, root, rfl, hclean, hholds⟩ := h
  have hdone := Call.make_done hd hholds c
  have hfollows := follows_makeCall hd hc s.trie hclean
  have hmake : makeCall digest s.trie c = c.make digest s.trie := by
    cases c <;> rfl
  dsimp only at hfollows
  rw [hmake] at hfollows
  cases hcall : c.make digest s.trie with
  | mk r t' =>
    rw [hcall] at hdone hfollows
    dsimp only at hfollows
    cases r with
    | ok found =>
      obtain ⟨⟨root', -, -, hholds'⟩, -⟩ := hdone
      rcases hfollows with hpanic | ⟨hsame, hclean', -⟩
      · cases hpanic
      · rw [hsame]
        exact ⟨nofun, ⟨⟨t', c.apply s.bindings⟩, root', rfl, hclean', hholds'⟩⟩
    | error e =>
      obtain ⟨hun, err, rfl⟩ := hdone
      rcases hfollows with hpanic | ⟨hsame, hclean', -⟩
      · cases hpanic
      · rw [hsame]
        exact ⟨nofun, ⟨⟨t', s.bindings⟩, root, rfl, hclean', hholds.unchanged hun⟩⟩

omit hd hv in
theorem Backs.reopen {t : Trie (Account D)} (h : Backs digest t) {reload : D → D} (hreload : Reloads reload) :
    ∃ t', reopenTrie t reload = some t' ∧ Backs digest t' := by
  obtain ⟨⟨⟨rootPtr, rootHash, l⟩, bindings⟩, root, rfl, hclean, hholds⟩ := h
  obtain ⟨n, hr⟩ := l.holds
  obtain ⟨closed, hclosed, hopen⟩ := hr.reopen_spec rootPtr rootHash
  obtain ⟨rest, hrest⟩ := hreload closed
  obtain ⟨a, hnew, -, -, hr'⟩ := hopen (reload closed) rest hrest
  refine ⟨_, ?_, ⟨⟨⟨rootPtr, rootHash, ⟨a, l.heap, n, hr'⟩⟩, bindings⟩, root, rfl, hclean, ?_⟩⟩
  · change (TrieAccount.drop ⟨rootPtr, rootHash, l.alloc⟩).bind (fun closed => openTrie (reload closed)) = _
    rw [hclosed, Option.bind_some, openTrie, hnew]
    rfl
  · exact hholds.unchanged ⟨rfl, rfl, rfl⟩

include hd in
theorem Backs.step {t : Trie (Account D)} (h : Backs digest t) {c : AccountCall D} (hc : c.Sound) :
    (c.make digest t).1 ≠ .error .panic ∧ Backs digest (c.make digest t).2 := by
  cases c with
  | call c => exact h.call hd hc
  | reopen reload =>
    obtain ⟨t', ht', hbacks⟩ := h.reopen hc
    rw [AccountCall.make, ht']
    exact ⟨nofun, hbacks⟩

include hd in
theorem Backs.run {t : Trie (Account D)} (h : Backs digest t) {calls : List (AccountCall D)}
    (hcalls : ∀ c ∈ calls, c.Sound) : NeverPanics digest t calls := by
  induction calls generalizing t with
  | nil =>
    obtain ⟨s, root, rfl, -, -⟩ := h
    exact ⟨nofun, s.trie.alloc.alloc, rfl⟩
  | cons c calls ih =>
    obtain ⟨hc, hrest⟩ := List.forall_mem_cons.mp hcalls
    obtain ⟨hresult, hbacks⟩ := h.step hd hc
    obtain ⟨hresults, hlive⟩ := ih hbacks hrest
    refine ⟨?_, hlive⟩
    intro r hr
    rcases List.mem_cons.mp hr with rfl | hmem
    · exact hresult
    · exact hresults r hmem

variable (digest) in
omit hd hv in
theorem openTrie_backs {data : D} (hlen : blockSize ≤ DataRef.len data) (hzero : ∀ b ∈ DataRef.bytes data, b = 0#8) :
    ∃ t, openTrie data = some t ∧ Backs digest t := by
  obtain ⟨a, hnew, hr⟩ := new_of_zeros hlen hzero
  refine ⟨_, by rw [openTrie, hnew]; rfl, State.empty ⟨a, Heap.empty, 1, hr⟩, none, rfl, ?_, State.empty_holds fun _ => rfl⟩
  intro p v hp
  cases hp

include hd in
/-- Over any number of sessions, whichever requests for memory fail: calls which store no zero
value do not panic. -/
theorem account_calls_never_panic {data : D} (hlen : blockSize ≤ DataRef.len data)
    (hzero : ∀ b ∈ DataRef.bytes data, b = 0#8) {calls : List (AccountCall D)} (hcalls : ∀ c ∈ calls, c.Sound) :
    ∃ t, openTrie data = some t ∧ NeverPanics digest t calls := by
  obtain ⟨t, hopen, hbacks⟩ := openTrie_backs digest hlen hzero
  exact ⟨t, hopen, hbacks.run hd hcalls⟩

end

namespace Sample

/-- SHA-256 of the only node of a trie with a value of ones, or of zeros, at a key of one byte. -/
def nodes : List (List Byte × CryptoHash) :=
  [(extPreimage 0 (List.replicate 8 false) (true, hash),
      hashOf 0x51d5897b6faa3d77c03db334759a1ad70fa434721e27c9f81dd5fb2df55def28),
    (extPreimage 0 (List.replicate 8 false) (true, emptyTrieRoot),
      hashOf 0xd00fe7f909a89e43b42c2cb9339b7f1842f4c69b3b5048adc3405b8187f87702)]

def digest : List Byte → CryptoHash := tableDigest nodes

theorem digest_ne (bytes : List Byte) : digest bytes ≠ emptyTrieRoot := tableDigest_ne (by decide) bytes

def storeAndDelete (valueHash : CryptoHash) : List (AccountCall VecData) :=
  [.call (.set [0#8] valueHash), .reopen id, .call (.del [0#8])]

end Sample

open Sample in
/-- The value is stored, found in the next session and deleted. -/
theorem account_calls_never_panic_sample :
    (∀ c ∈ storeAndDelete hash, c.Sound) ∧
      (openTrie data).map (fun t => (runCalls digest t (storeAndDelete hash)).1) = some [.ok true, .ok true, .ok true] ∧
      ∃ t, openTrie data = some t ∧ NeverPanics digest t (storeAndDelete hash) := by
  have hcalls : ∀ c ∈ storeAndDelete hash, c.Sound := by
    intro c hc
    simp only [storeAndDelete, List.mem_cons, List.not_mem_nil, or_false] at hc
    rcases hc with rfl | rfl | rfl
    · change hash ≠ emptyTrieRoot
      decide
    · exact fun d => ⟨[], (List.append_nil _).symm⟩
    · trivial
  exact ⟨hcalls, by decide +kernel, account_calls_never_panic digest_ne (by decide) (by decide) hcalls⟩

open Sample in
/-- A value of zero, such as the one stored for every receipt, cannot be deleted. -/
theorem zero_value_panics :
    (∀ bytes, digest bytes ≠ emptyTrieRoot) ∧
      (openTrie data).map (fun t => (runCalls digest t (storeAndDelete emptyTrieRoot)).1) =
        some [.ok true, .ok true, .error .panic] ∧
      ¬ ∃ t, openTrie data = some t ∧ NeverPanics digest t (storeAndDelete emptyTrieRoot) := by
  have hrun : (openTrie data).map (fun t => (runCalls digest t (storeAndDelete emptyTrieRoot)).1) =
      some [.ok true, .ok true, .error .panic] := by
    decide +kernel
  refine ⟨digest_ne, hrun, ?_⟩
  rintro ⟨t, hopen, hresults, -⟩
  rw [hopen, Option.map_some] at hrun
  rw [Option.some.inj hrun] at hresults
  exact hresults (.error .panic) (by simp) rfl

end SolanaTrie
