import EmulatedLightClient.TrieState

/-!
# Calls on a trie and the map they maintain

The abstract state is a partial map from keys to a value hash and a sealed
flag. A call which succeeds updates the map at its key; one which fails leaves
the map, and the trie, alone. A run is any sequence of calls on an empty trie.
-/

namespace SealableTrie

open ByteBits Bits Nodes Memory ListPrefix FailingState HeapOwnership TrieProof

/-- The longest key, in bytes. -/
def maxKeyBytes : Nat := 8191

variable {digest : List Byte → CryptoHash} {A : Type} [LawfulAllocator A RawNode]
  {t t' : Trie A} {root : Root} {key : List Byte} {v : CryptoHash}

theorem sliceOf_spec (h : key.length ≤ maxKeyBytes) :
    ∃ s, Trie.sliceOf key = .ok s ∧ KeySlice s ∧ s.bits = bitsOf key := by
  have hlen : key.length * 8 < 2 ^ 16 := by
    simp only [maxKeyBytes] at h
    omega
  obtain ⟨s, hs, ho, hb⟩ := Slice.fromBytes_spec hlen
  have hb : s.bits = bitsOf key := hb
  refine ⟨s, by rw [Trie.sliceOf, hs], ⟨ho, ?_⟩, hb⟩
  rw [hb, length_bitsOf]
  omega

theorem sliceOf_too_long (h : maxKeyBytes < key.length) :
    Trie.sliceOf key = .error (.err .keyTooLong) := by
  have hnone : Slice.fromBytes key = none := by
    rw [Slice.fromBytes, dif_neg]
    simp [maxKeyBytes] at h
    omega
  rw [Trie.sliceOf, hnone]

/-- Requests which are enough to set a value at the key. -/
def setBudget (key : List Byte) : Nat := Set.budget (bitsOf key).length

theorem set_spec (hd : ∀ b, digest b ≠ emptyTrieRoot) (h : TrieRep digest t root)
    (hk : key.length ≤ maxKeyBytes) :
    match t.set digest key v with
    | (.ok _, t') => ∃ tree, root.set v (bitsOf key) = .ok tree ∧ TrieRep digest t' (some tree)
    | (.error e, t') => Unchanged t t' ∧
        ((e = .err .outOfMemory ∧ ¬ Serves (setBudget key) t.alloc ∧
            ∃ tree, root.set v (bitsOf key) = .ok tree) ∨
          ∃ err, e = .err err ∧ root.set v (bitsOf key) = .error err) := by
  obtain ⟨s, hs, hkey, hb⟩ := sliceOf_spec hk
  have hspec := setImpl_spec (v := v) hd h hkey
  unfold Trie.set setBudget
  rw [hs, ← hb]
  exact hspec

theorem sealValue_spec (hd : ∀ b, digest b ≠ emptyTrieRoot) (h : TrieRep digest t root)
    (hk : key.length ≤ maxKeyBytes) :
    match t.sealValue digest key with
    | (.ok _, t') => ∃ tree, root.sealKey (bitsOf key) = .ok tree ∧
        TrieRep digest t' (some tree) ∧ t'.rootHash = t.rootHash
    | (.error e, t') => t' = t ∧ ∃ err, e = .err err ∧ root.sealKey (bitsOf key) = .error err := by
  unfold Trie.sealValue
  cases root with
  | none =>
    rw [if_pos h.2.1]
    exact ⟨rfl, _, rfl, rfl⟩
  | some tree =>
    obtain ⟨s, hs, hkey, hb⟩ := sliceOf_spec hk
    have hspec := sealImpl_spec h hkey
    obtain ⟨cells, hrep, -⟩ := h
    rw [if_neg (hrep.hash_ne hd), hs, ← hb]
    exact hspec

theorem Root.lookup_set {key : List Bool} {tree : Tree} (h : root.set v key = .ok tree) :
    tree.lookup = Function.update root.lookup key (some (v, false)) := by
  cases root with
  | none =>
    simp only [Root.set] at h
    split at h
    · cases h
    · cases h
      rw [Tree.lookup_chain, Tree.lookup, BitMaps.under_single]
      rfl
  | some t₀ => exact Tree.set_lookup h

theorem Root.lookup_del {key : List Bool} {root' : Root} (h : root.del key = .ok root') :
    root'.lookup = Function.update root.lookup key none := by
  cases root with
  | none => cases h
  | some tree =>
    obtain ⟨a, ha, rfl⟩ := map_eq_ok h
    have hl := Tree.del_lookup ha
    rw [a.lookup_toTree 0] at hl
    cases ht : a.toTree 0 with
    | none => rw [ht] at hl; exact hl
    | some tree' => rw [ht] at hl; exact hl

/-- A value which has just been set can be sealed. -/
theorem sealKey_of_lookup {tree : Tree} {d : Nat} {key : List Bool} (hwf : tree.WF d)
    (h : tree.lookup key = some (v, false)) : ∃ tree', tree.sealKey key = .ok tree' := by
  cases hs : tree.sealKey key with
  | ok tree' => exact ⟨tree', rfl⟩
  | error e =>
    rcases Tree.sealKey_error hwf hs with ⟨-, hm⟩ | ⟨-, hn⟩
    · exact absurd h (hm.lookup_ne v)
    · rw [hn] at h
      cases h

/-- The second half of `setAndSeal` does not fail once the first one succeeded. -/
theorem setAndSeal_spec (hd : ∀ b, digest b ≠ emptyTrieRoot) (h : TrieRep digest t root)
    (hk : key.length ≤ maxKeyBytes) :
    match t.setAndSeal digest key v with
    | (.ok _, t') => ∃ mid tree tree', root.set v (bitsOf key) = .ok tree ∧
        t.set digest key v = (.ok (), mid) ∧ TrieRep digest mid (some tree) ∧
        tree.sealKey (bitsOf key) = .ok tree' ∧ TrieRep digest t' (some tree')
    | (.error e, t') => Unchanged t t' ∧ t.set digest key v = (.error e, t') ∧
        ((e = .err .outOfMemory ∧ ¬ Serves (setBudget key) t.alloc ∧
            ∃ tree, root.set v (bitsOf key) = .ok tree) ∨
          ∃ err, e = .err err ∧ root.set v (bitsOf key) = .error err) := by
  obtain ⟨s, hs, hkey, hb⟩ := sliceOf_spec hk
  have hspec := set_spec (v := v) hd h hk
  unfold Trie.setAndSeal
  unfold Trie.set at *
  rw [hs] at *
  simp only at *
  cases hset : t.setImpl digest s v with
  | mk r mid =>
    rw [hset] at hspec
    cases r with
    | error e => exact ⟨hspec.1, rfl, hspec.2⟩
    | ok u =>
      obtain ⟨tree, hok, hrep⟩ := hspec
      have hlook : tree.lookup (bitsOf key) = some (v, false) := by
        rw [Root.lookup_set hok, Function.update_self]
      obtain ⟨tree', hseal⟩ := sealKey_of_lookup hrep.wf hlook
      have hsspec := sealImpl_spec hrep hkey
      simp only
      cases hsi : mid.sealImpl digest s with
      | mk r' t'' =>
        rw [hsi] at hsspec
        cases r' with
        | ok u' =>
          obtain ⟨tree'', hseal', hrep', -⟩ := hsspec
          rw [hb] at hseal'
          exact ⟨mid, tree, tree'', hok, rfl, hrep, hseal', hrep'⟩
        | error e =>
          obtain ⟨-, err, -, herr⟩ := hsspec
          rw [hb, hseal] at herr
          cases herr

theorem del_key_spec (hd : ∀ b, digest b ≠ emptyTrieRoot) (h : TrieRep digest t root)
    (hk : key.length ≤ maxKeyBytes) :
    match t.del digest key with
    | (.ok true, t') => ∃ root', root.del (bitsOf key) = .ok root' ∧ TrieRep digest t' root'
    | (.ok false, t') => Unchanged t t' ∧ root.del (bitsOf key) = .error .notFound
    | (.error e, t') => Unchanged t t' ∧
        ((e = .err .outOfMemory ∧ ∃ root', root.del (bitsOf key) = .ok root') ∨
          ∃ err, e = .err err ∧ err ≠ .notFound ∧ root.del (bitsOf key) = .error err) := by
  obtain ⟨s, hs, hkey, hb⟩ := sliceOf_spec hk
  have hspec := del_spec hd h hkey
  unfold Trie.del
  rw [hs]
  simp only
  rw [hb] at hspec
  cases hdel : Del.del digest t.alloc s t.rootPtr t.rootHash with
  | mk r a' =>
    rw [hdel] at hspec
    cases r with
    | ok res => exact hspec
    | error e =>
      obtain ⟨hcell, hcase⟩ := hspec
      rcases hcase with ⟨rfl, hok⟩ | ⟨err, rfl, herr⟩
      · exact ⟨⟨rfl, rfl, hcell⟩, Or.inl ⟨rfl, hok⟩⟩
      · by_cases hn : err = .notFound
        · subst hn
          exact ⟨⟨rfl, rfl, hcell⟩, herr⟩
        · cases err <;> first
            | exact absurd rfl hn
            | exact ⟨⟨rfl, rfl, hcell⟩, Or.inr ⟨_, rfl, hn, herr⟩⟩

inductive Call where
  | set (key : List Byte) (valueHash : CryptoHash)
  | del (key : List Byte)
  | sealValue (key : List Byte)
  | setAndSeal (key : List Byte) (valueHash : CryptoHash)

/-- The abstract map: value hash and sealed flag of every key. -/
abbrev Bindings := List Byte → Option (CryptoHash × Bool)

namespace Call

def target : Call → List Byte
  | set key _ => key
  | del key => key
  | sealValue key => key
  | setAndSeal key _ => key

/-- What a successful call does to the map. -/
def apply (m : Bindings) : Call → Bindings
  | set key valueHash => Function.update m key (some (valueHash, false))
  | del key => Function.update m key none
  | sealValue key => Function.update m key ((m key).map fun (h, _) => (h, true))
  | setAndSeal key valueHash => Function.update m key (some (valueHash, true))

/-- Makes the call; the result tells `del` of a missing key from other calls. -/
def make (digest : List Byte → CryptoHash) (t : Trie A) : Call → Result Bool × Trie A
  | set key valueHash => ((t.set digest key valueHash).1.map fun _ => true,
      (t.set digest key valueHash).2)
  | del key => t.del digest key
  | sealValue key => ((t.sealValue digest key).1.map fun _ => true, (t.sealValue digest key).2)
  | setAndSeal key valueHash => ((t.setAndSeal digest key valueHash).1.map fun _ => true,
      (t.setAndSeal digest key valueHash).2)

end Call

structure State (A : Type) where
  trie : Trie A
  bindings : Bindings

def State.empty (a : A) : State A := ⟨Trie.new a, fun _ => none⟩

/-- A call on the trie and, if it succeeds, on the map. -/
def State.step (digest : List Byte → CryptoHash) (s : State A) (c : Call) : State A :=
  match c.make digest s.trie with
  | (.ok _, t) => ⟨t, c.apply s.bindings⟩
  | (.error _, t) => ⟨t, s.bindings⟩

def State.run (digest : List Byte → CryptoHash) (s : State A) (calls : List Call) : State A :=
  calls.foldl (State.step digest) s

/-- The trie holds the tree and the tree binds what the map does. -/
structure State.Holds (digest : List Byte → CryptoHash) (s : State A) (root : Root) : Prop where
  rep : TrieRep digest s.trie root
  bindings : ∀ k, s.bindings k = root.lookup (bitsOf k)

theorem update_bitsOf {m : Bindings} {f : List Bool → Option (CryptoHash × Bool)}
    (h : ∀ k, m k = f (bitsOf k)) (key : List Byte) (x : Option (CryptoHash × Bool)) (k : List Byte) :
    Function.update m key x k = Function.update f (bitsOf key) x (bitsOf k) := by
  by_cases hk : k = key
  · subst hk
    simp
  · have hne : bitsOf k ≠ bitsOf key := fun he => hk (bitsOf_injective he)
    rw [Function.update_of_ne hk, Function.update_of_ne hne, h]

theorem Call.make_too_long (digest : List Byte → CryptoHash) (t : Trie A) {c : Call}
    (h : maxKeyBytes < c.target.length) :
    ∃ e, c.make digest t = (.error (.err e), t) := by
  have hs := sliceOf_too_long h
  cases c with
  | set key valueHash =>
    have hs : Trie.sliceOf key = _ := hs
    exact ⟨.keyTooLong, by simp [make, Trie.set, hs, Except.map]⟩
  | del key =>
    have hs : Trie.sliceOf key = _ := hs
    exact ⟨.keyTooLong, by simp [make, Trie.del, hs]⟩
  | sealValue key =>
    have hs : Trie.sliceOf key = _ := hs
    by_cases hr : t.rootHash = emptyTrieRoot
    · exact ⟨.notFound, by simp [make, Trie.sealValue, hr, Except.map]⟩
    · exact ⟨.keyTooLong, by simp [make, Trie.sealValue, hr, hs, Except.map]⟩
  | setAndSeal key valueHash =>
    have hs : Trie.sliceOf key = _ := hs
    exact ⟨.keyTooLong, by simp [make, Trie.setAndSeal, hs, Except.map]⟩

theorem Call.make_set {r : Result Unit} (h : t.set digest key v = (r, t')) :
    (set key v).make digest t = (r.map fun _ => true, t') := by
  simp [make, h]

theorem Call.make_sealValue {r : Result Unit} (h : t.sealValue digest key = (r, t')) :
    (sealValue key).make digest t = (r.map fun _ => true, t') := by
  simp [make, h]

theorem Call.make_setAndSeal {r : Result Unit} (h : t.setAndSeal digest key v = (r, t')) :
    (setAndSeal key v).make digest t = (r.map fun _ => true, t') := by
  simp [make, h]

/-- What a successful call does to the tree of a trie. -/
inductive RootStep : Root → Call → Root → Prop
  | set {root : Root} {key : List Byte} {v : CryptoHash} {tree : Tree}
      (h : root.set v (bitsOf key) = .ok tree) : RootStep root (.set key v) (some tree)
  | del {root root' : Root} {key : List Byte}
      (h : root.del (bitsOf key) = .ok root') : RootStep root (.del key) root'
  | missing {root : Root} {key : List Byte}
      (h : root.del (bitsOf key) = .error .notFound) : RootStep root (.del key) root
  | sealValue {root : Root} {key : List Byte} {tree : Tree}
      (h : root.sealKey (bitsOf key) = .ok tree) : RootStep root (.sealValue key) (some tree)
  | setAndSeal {root : Root} {key : List Byte} {v : CryptoHash} {mid tree : Tree}
      (hset : root.set v (bitsOf key) = .ok mid) (hseal : mid.sealKey (bitsOf key) = .ok tree) :
    RootStep root (.setAndSeal key v) (some tree)

/-- What a call may do: succeed and update the map, or fail with an error of the
source and change nothing. -/
def CallDone (digest : List Byte → CryptoHash) (s : State A) (root : Root) (c : Call) :
    Result Bool × Trie A → Prop
  | (.ok found, t) => (∃ root', RootStep root c root' ∧ c.target.length ≤ maxKeyBytes ∧
      State.Holds digest ⟨t, c.apply s.bindings⟩ root') ∧ (found = false → Unchanged s.trie t)
  | (.error e, t) => Unchanged s.trie t ∧ ∃ err, e = .err err

theorem CallDone.failed {s : State A} {c : Call} {e : Failure} {p : Prop} {q : Error → Prop}
    (hun : Unchanged s.trie t') (he : (e = .err .outOfMemory ∧ p) ∨ ∃ err, e = .err err ∧ q err) :
    CallDone digest s root c (.error e, t') := by
  obtain ⟨he, -⟩ | ⟨err, he, -⟩ := he
  · exact ⟨hun, _, he⟩
  · exact ⟨hun, err, he⟩

theorem State.Holds.update {s : State A} {root' : Root} {x : Option (CryptoHash × Bool)}
    (h : s.Holds digest root) (hrep : TrieRep digest t' root')
    (hl : root'.lookup = Function.update root.lookup (bitsOf key) x) :
    State.Holds digest ⟨t', Function.update s.bindings key x⟩ root' :=
  ⟨hrep, fun k => (update_bitsOf h.bindings key x k).trans (congrFun hl (bitsOf k)).symm⟩

theorem State.Holds.unchanged {s : State A} {t' : Trie A} (h : s.Holds digest root)
    (hun : Unchanged s.trie t') : State.Holds digest ⟨t', s.bindings⟩ root :=
  ⟨hun.rep h.rep, h.bindings⟩

theorem State.Holds.bindings_eq_none {s : State A} (h : s.Holds digest root)
    (hnf : root.del (bitsOf key) = .error .notFound) : s.bindings key = none := by
  rw [h.bindings]
  cases root with
  | none => rfl
  | some tree =>
    rcases Tree.del_error h.rep.wf (map_eq_error hnf) with ⟨he, -⟩ | ⟨-, hl⟩
    · cases he
    · exact hl

section

variable {s : State A} (hd : ∀ b, digest b ≠ emptyTrieRoot) (h : s.Holds digest root)
  (hk : key.length ≤ maxKeyBytes)

include hd h hk

theorem Call.make_set_done : CallDone digest s root (.set key v) ((set key v).make digest s.trie) := by
  have hspec := set_spec (v := v) hd h.rep hk
  cases hset : s.trie.set digest key v with
  | mk r t' =>
    rw [make_set hset]
    rw [hset] at hspec
    cases r with
    | ok u =>
      obtain ⟨tree, hok, hrep⟩ := hspec
      exact ⟨⟨some tree, .set hok, hk, h.update hrep (Root.lookup_set hok)⟩, fun hf => by cases hf⟩
    | error e => exact .failed hspec.1 hspec.2

theorem Call.make_del_done : CallDone digest s root (.del key) ((del key).make digest s.trie) := by
  have hspec := del_key_spec hd h.rep hk
  cases hdel : s.trie.del digest key with
  | mk r t' =>
    rw [show make digest s.trie (del key) = (r, t') from hdel]
    rw [hdel] at hspec
    match r with
    | .ok true =>
      obtain ⟨root', hok, hrep⟩ := hspec
      exact ⟨⟨root', .del hok, hk, h.update hrep (Root.lookup_del hok)⟩, fun hf => by cases hf⟩
    | .ok false =>
      obtain ⟨hun, hnf⟩ := hspec
      have hsame : apply s.bindings (del key) = s.bindings := by
        change Function.update s.bindings key none = _
        rw [← h.bindings_eq_none hnf, Function.update_eq_self]
      refine ⟨⟨root, .missing hnf, hk, ?_⟩, fun _ => hun⟩
      rw [hsame]
      exact h.unchanged hun
    | .error e => exact .failed hspec.1 hspec.2

theorem Call.make_sealValue_done :
    CallDone digest s root (.sealValue key) ((sealValue key).make digest s.trie) := by
  have hspec := sealValue_spec hd h.rep hk
  cases hseal : s.trie.sealValue digest key with
  | mk r t' =>
    rw [make_sealValue hseal]
    rw [hseal] at hspec
    cases r with
    | ok u =>
      obtain ⟨tree, hok, hrep, -⟩ := hspec
      cases root with
      | none => cases hok
      | some tree₀ =>
        obtain ⟨v, hv, hl⟩ := Tree.sealKey_lookup hok
        have hb : s.bindings key = some (v, false) := (h.bindings key).trans hv
        have happly : apply s.bindings (sealValue key) = Function.update s.bindings key (some (v, true)) := by
          rw [apply, hb]
          rfl
        refine ⟨⟨some tree, .sealValue hok, hk, ?_⟩, fun hf => by cases hf⟩
        rw [happly]
        exact h.update hrep hl
    | error e =>
      obtain ⟨rfl, err, he, -⟩ := hspec
      exact ⟨Unchanged.refl _, err, he⟩

theorem Call.make_setAndSeal_done :
    CallDone digest s root (.setAndSeal key v) ((setAndSeal key v).make digest s.trie) := by
  have hspec := setAndSeal_spec (v := v) hd h.rep hk
  cases hset : s.trie.setAndSeal digest key v with
  | mk r t' =>
    rw [make_setAndSeal hset]
    rw [hset] at hspec
    cases r with
    | ok u =>
      obtain ⟨mid, tree, tree', hok, -, -, hseal, hrep⟩ := hspec
      obtain ⟨v', hv, hl⟩ := Tree.sealKey_lookup hseal
      have hmid := Root.lookup_set hok
      have hvv : v' = v := by
        rw [hmid, Function.update_self] at hv
        cases hv
        rfl
      rw [hmid, Function.update_idem, hvv] at hl
      exact ⟨⟨some tree', .setAndSeal hok hseal, hk, h.update hrep hl⟩, fun hf => by cases hf⟩
    | error e => exact .failed hspec.1 hspec.2.2

end

theorem Call.make_done {s : State A} (hd : ∀ b, digest b ≠ emptyTrieRoot)
    (h : s.Holds digest root) (c : Call) : CallDone digest s root c (c.make digest s.trie) := by
  by_cases hk : c.target.length ≤ maxKeyBytes
  · cases c with
    | set key valueHash => exact make_set_done hd h hk
    | del key => exact make_del_done hd h hk
    | sealValue key => exact make_sealValue_done hd h hk
    | setAndSeal key valueHash => exact make_setAndSeal_done hd h hk
  · obtain ⟨e, he⟩ := Call.make_too_long digest s.trie (Nat.lt_of_not_le hk)
    rw [he]
    exact ⟨Unchanged.refl _, e, rfl⟩

/-- Rule for invariants of the tree: what successful calls keep, runs keep. -/
theorem State.step_invariant {s : State A} (hd : ∀ b, digest b ≠ emptyTrieRoot)
    {I : Root → Prop} {c : Call}
    (hstep : ∀ root', c.target.length ≤ maxKeyBytes → RootStep root c root' → I root')
    (h : s.Holds digest root) (hI : I root) :
    ∃ root', (s.step digest c).Holds digest root' ∧ I root' := by
  have hdone := Call.make_done hd h c
  unfold State.step
  cases hm : c.make digest s.trie with
  | mk r t' =>
    rw [hm] at hdone
    cases r with
    | ok found =>
      obtain ⟨⟨root', hrs, hk, hholds⟩, -⟩ := hdone
      exact ⟨root', hholds, hstep root' hk hrs⟩
    | error e => exact ⟨root, h.unchanged hdone.1, hI⟩

theorem State.run_invariant {s : State A} (hd : ∀ b, digest b ≠ emptyTrieRoot)
    {I : Root → Prop} (calls : List Call)
    (hstep : ∀ c ∈ calls, ∀ root root', root.WF → I root → c.target.length ≤ maxKeyBytes →
      RootStep root c root' → I root')
    (h : s.Holds digest root) (hI : I root) :
    ∃ root', (s.run digest calls).Holds digest root' ∧ I root' := by
  induction calls generalizing s root with
  | nil => exact ⟨root, h, hI⟩
  | cons c calls ih =>
    obtain ⟨root', h', hI'⟩ := State.step_invariant hd
      (hstep c (List.mem_cons_self ..) root · h.rep.wf hI) h hI
    exact ih (fun c' hc' => hstep c' (List.mem_cons_of_mem _ hc')) h' hI'

theorem State.run_holds {s : State A} (hd : ∀ b, digest b ≠ emptyTrieRoot)
    (h : s.Holds digest root) (calls : List Call) :
    ∃ root', (s.run digest calls).Holds digest root' := by
  obtain ⟨root', h', -⟩ := State.run_invariant (I := fun _ => True) hd calls
    (fun _ _ _ _ _ _ _ _ => trivial) h trivial
  exact ⟨root', h'⟩

theorem State.empty_holds {a : A} (h : ∀ p, cell a p = none) :
    (State.empty a).Holds digest none :=
  ⟨trieRep_new h, fun _ => rfl⟩

/-- States of runs which start with an empty trie on an allocator without any
allocated block. -/
inductive Reachable (digest : List Byte → CryptoHash) : State A → Prop
  | intro {a : A} (hempty : ∀ p, cell a p = none) (calls : List Call) :
    Reachable digest ((State.empty a).run digest calls)

theorem Reachable.holds {s : State A} (hd : ∀ b, digest b ≠ emptyTrieRoot)
    (h : Reachable digest s) : ∃ root, s.Holds digest root := by
  obtain ⟨hempty, calls⟩ := h
  exact State.run_holds hd (State.empty_holds hempty) calls

theorem Reachable.run {s : State A} (h : Reachable digest s) (calls : List Call) :
    Reachable digest (s.run digest calls) := by
  obtain ⟨hempty, first⟩ := h
  rw [State.run, State.run, ← List.foldl_append]
  exact ⟨hempty, first ++ calls⟩

end SealableTrie
