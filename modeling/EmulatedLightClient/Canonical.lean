import EmulatedLightClient.TrieRefinement

/-!
# Canonical trees

With keys of at most 34 bytes every extension key fits one node. No extension is
then followed by another one, and such a tree is determined by the keys and the
hashes it binds them to. Sealing does not matter for hashes.
-/

namespace SealableTrie

open ByteBits Bits Nodes Memory ListPrefix BitMaps FailingState HeapOwnership TrieProof

namespace Tree

variable {t t' : Tree} {d : Nat} {key : List Bool} {v : CryptoHash}

def isExt : Tree → Bool
  | ext _ _ => true
  | _ => false

/-- No extension is followed by another one. -/
def Canon : Tree → Prop
  | value _ _ => True
  | pruned left right => left.Canon ∧ right.Canon
  | branch left right => left.Canon ∧ right.Canon
  | ext _ child => child.isExt = false ∧ child.Canon

theorem chain_eq_prepend {bits : List Bool} (h : d + bits.length ≤ maxBits) :
    chain d bits t = prepend bits t := by
  cases bits with
  | nil => exact chain_nil d t
  | cons bit bits =>
    have hcut : cutAt (d % 8) ([] ++ bit :: bits).length = 0 := by
      simp only [cutAt, maxBits, List.length_cons, List.nil_append] at *
      omega
    have hchain : chain d ([] ++ bit :: bits) t = chain d [] (ext (bit :: bits) t) :=
      chain_append t (by simp) (by simpa using hcut)
    rwa [List.nil_append, chain_nil] at hchain

theorem prepend_canon (hc : t.Canon) (hext : t.isExt = false) : (prepend key t).Canon := by
  cases key with
  | nil => exact hc
  | cons bit key => exact ⟨hext, hc⟩

theorem join_canon {bit : Bool} {this other : Tree} (h : this.Canon) (ho : other.Canon) :
    (join bit this other).Canon := by
  cases bit
  · exact ⟨h, ho⟩
  · exact ⟨ho, h⟩

theorem isExt_join (bit : Bool) (this other : Tree) : (join bit this other).isExt = false := by
  cases bit <;> rfl

theorem set_isExt (h : t.set v d key = .ok t') (hext : t.isExt = false) : t'.isExt = false := by
  cases t with
  | value s h₀ =>
    unfold set at h
    split at h
    · cases h
    · split at h
      · cases h
      · cases h
        rfl
  | pruned l r => cases h
  | branch l r =>
    rcases key with _ | ⟨_ | _, key⟩
    · cases h
    · obtain ⟨l', -, rfl⟩ := map_eq_ok h
      rfl
    · obtain ⟨r', -, rfl⟩ := map_eq_ok h
      rfl
  | ext key child => cases hext

theorem set_canon (hc : t.Canon) (hlen : d + key.length ≤ maxBits)
    (h : t.set v d key = .ok t') : t'.Canon := by
  induction t generalizing d key t' with
  | value s h₀ =>
    unfold set at h
    split at h
    · cases h
    · split at h
      · cases h
      · cases h
        trivial
  | pruned l r => cases h
  | branch l r ihl ihr =>
    rcases key with _ | ⟨_ | _, key⟩
    · cases h
    · rw [List.length_cons] at hlen
      obtain ⟨l', hl, rfl⟩ := map_eq_ok h
      exact ⟨ihl hc.1 (by omega) hl, hc.2⟩
    · rw [List.length_cons] at hlen
      obtain ⟨r', hr, rfl⟩ := map_eq_ok h
      exact ⟨hc.1, ihr hc.2 (by omega) hr⟩
  | ext extKey child ih =>
    unfold set at h
    split at h
    · cases h
    · simp only at h
      split at h
      · rename_i he
        obtain ⟨c, hset, rfl⟩ := map_eq_ok h
        have hkey := congrArg List.length (commonPrefix_append_left key extKey)
        rw [matched_key he, List.length_append] at hkey
        rw [matched_key he] at hset
        exact ⟨set_isExt hset hc.1, ih hc.2 (by omega) hset⟩
      · rename_i theirs suffix he
        split at h
        · cases h
        · rename_i our rest hk
          cases h
          have hlen' := congrArg List.length (split_keys hk he).1
          simp only [List.length_append, List.length_cons] at hlen'
          rw [chain_eq_prepend (by omega)]
          refine prepend_canon (join_canon ?_ ?_) (isExt_join ..)
          · exact prepend_canon trivial rfl
          · exact prepend_canon hc.2 hc.1

/-- All keys end within `maxBits` bits of the root. -/
def Fits (d : Nat) (f : List Bool → Option (CryptoHash × Bool)) : Prop :=
  ∀ k x, f k = some x → d + k.length ≤ maxBits

def Action.Canon : Action → Prop
  | drop => True
  | ext _ child => child.isExt = false ∧ child.Canon
  | ref tree => tree.isExt = false ∧ tree.Canon

theorem Action.fits_ext {child : Tree} (h : Fits d (Action.ext key child).lookup) :
    d + key.length ≤ maxBits := by
  obtain ⟨k, x, hk⟩ := exists_lookup child
  have := h (key ++ k) x (by rwa [Action.lookup, under_append_self])
  rw [List.length_append] at this
  omega

theorem Action.toTree_canon {a : Action} (hc : a.Canon) (hfits : Fits d a.lookup)
    (ht : a.toTree d = some t) : t.Canon := by
  cases a with
  | drop => cases ht
  | ext key child =>
    cases ht
    rw [chain_eq_prepend (fits_ext hfits)]
    exact prepend_canon hc.2 hc.1
  | ref tree =>
    cases ht
    exact hc.2

theorem leftOver_canon {bit : Bool} (hc : t.Canon) : (leftOver bit t).Canon := by
  cases t with
  | ext key child => exact hc
  | value s h₀ => exact ⟨rfl, hc⟩
  | pruned l r => exact ⟨rfl, hc⟩
  | branch l r => exact ⟨rfl, hc⟩

theorem Action.inBranch_canon {bit : Bool} {other : Tree} {a : Action} (ha : a.Canon)
    (hfits : Fits (d + 1) a.lookup) (ho : other.Canon) : (a.inBranch d bit other).Canon := by
  unfold Action.inBranch
  cases ht : a.toTree (d + 1) with
  | some child => exact ⟨isExt_join .., join_canon (toTree_canon ha hfits ht) ho⟩
  | none => exact leftOver_canon ho

theorem Action.extend_canon {extKey : List Bool} {a : Action} (h : a.Canon) :
    (a.extend extKey).Canon := by
  cases a with
  | drop => trivial
  | ext suffix child => exact h
  | ref tree => exact h

theorem fits_of_update {f g : List Bool → Option (CryptoHash × Bool)} (h : Fits d f)
    (hg : g = Function.update f key none) : Fits d g := by
  intro k x hk
  rw [hg] at hk
  by_cases he : k = key
  · rw [he, Function.update_self] at hk
    cases hk
  · rw [Function.update_of_ne he] at hk
    exact h k x hk

theorem Fits.left {l r : List Bool → Option (CryptoHash × Bool)} (h : Fits d (fork l r)) :
    Fits (d + 1) l := by
  intro k x hk
  have := h (false :: k) x hk
  rw [List.length_cons] at this
  omega

theorem Fits.right {l r : List Bool → Option (CryptoHash × Bool)} (h : Fits d (fork l r)) :
    Fits (d + 1) r := by
  intro k x hk
  have := h (true :: k) x hk
  rw [List.length_cons] at this
  omega

theorem Fits.under {f : List Bool → Option (CryptoHash × Bool)} (h : Fits d (under key f)) :
    Fits (d + key.length) f := by
  intro k x hk
  have := h (key ++ k) x (by rwa [under_append_self])
  rw [List.length_append] at this
  omega

theorem del_canon {a : Action} (hc : t.Canon) (hfits : Fits d t.lookup)
    (h : t.del d key = .ok a) : a.Canon := by
  induction t generalizing d key a with
  | value s h₀ =>
    unfold del at h
    split at h
    · cases h
    · split at h
      · cases h
        trivial
      · cases h
  | pruned l r => cases h
  | branch l r ihl ihr =>
    rcases key with _ | ⟨_ | _, key⟩
    · cases h
    · obtain ⟨a', ha, rfl⟩ := map_eq_ok h
      have hfa := fits_of_update hfits.left (del_lookup ha)
      exact Action.inBranch_canon (ihl hc.1 hfits.left ha) hfa hc.2
    · obtain ⟨a', ha, rfl⟩ := map_eq_ok h
      have hfa := fits_of_update hfits.right (del_lookup ha)
      exact Action.inBranch_canon (ihr hc.2 hfits.right ha) hfa hc.1
  | ext extKey child ih =>
    unfold del at h
    split at h
    · obtain ⟨a', ha, rfl⟩ := map_eq_ok h
      exact Action.extend_canon (ih hc.2 hfits.under ha)
    · cases h

theorem sealJoin_canon {bit : Bool} {this other : Tree} (h : this.Canon) (ho : other.Canon) :
    (sealJoin bit this other).Canon ∧ (sealJoin bit this other).isExt = false := by
  unfold sealJoin
  split
  · cases bit
    · exact ⟨⟨h, ho⟩, rfl⟩
    · exact ⟨⟨ho, h⟩, rfl⟩
  · exact ⟨join_canon h ho, isExt_join ..⟩

theorem sealKey_canon (hc : t.Canon) (h : t.sealKey key = .ok t') :
    t'.Canon ∧ t'.isExt = t.isExt := by
  induction t generalizing key t' with
  | value s h₀ =>
    unfold sealKey at h
    split at h
    · cases h
    · split at h
      · cases h
        exact ⟨trivial, rfl⟩
      · cases h
  | pruned l r => cases h
  | branch l r ihl ihr =>
    rcases key with _ | ⟨_ | _, key⟩
    · cases h
    · obtain ⟨l', hl, rfl⟩ := map_eq_ok h
      exact sealJoin_canon (ihl hc.1 hl).1 hc.2
    · obtain ⟨r', hr, rfl⟩ := map_eq_ok h
      exact sealJoin_canon (ihr hc.2 hr).1 hc.1
  | ext extKey child ih =>
    unfold sealKey at h
    split at h
    · obtain ⟨c, hs, rfl⟩ := map_eq_ok h
      obtain ⟨hcc, he⟩ := ih hc.2 hs
      exact ⟨⟨he.trans hc.1, hcc⟩, rfl⟩
    · cases h

/-- The tree before anything in it was sealed. -/
def erase : Tree → Tree
  | value _ hash => value false hash
  | pruned left right => branch left.erase right.erase
  | branch left right => branch left.erase right.erase
  | ext key child => ext key child.erase

theorem parts_erase (digest : List Byte → CryptoHash) (t : Tree) (d : Nat) :
    t.erase.parts digest d = t.parts digest d := by
  induction t generalizing d with
  | value s h => rfl
  | pruned l r ihl ihr => simp only [erase, parts, ihl, ihr]
  | branch l r ihl ihr => simp only [erase, parts, ihl, ihr]
  | ext key child ih => simp only [erase, parts, ih]

/-- The sealed flag is gone. -/
def asUnsealed (x : CryptoHash × Bool) : CryptoHash × Bool := (x.1, false)

theorem lookup_erase (t : Tree) : t.erase.lookup = fun k => (t.lookup k).map asUnsealed := by
  induction t with
  | value s h =>
    funext k
    by_cases hk : k = []
    · simp [erase, lookup, hk, asUnsealed]
    · simp [erase, lookup, hk]
  | pruned l r ihl ihr => simp only [erase, lookup, ihl, ihr, fork_map]
  | branch l r ihl ihr => simp only [erase, lookup, ihl, ihr, fork_map]
  | ext key child ih => simp only [erase, lookup, ih, under_map]

theorem isExt_erase (t : Tree) : t.erase.isExt = t.isExt := by
  cases t <;> rfl

theorem erase_canon (hc : t.Canon) : t.erase.Canon := by
  induction t with
  | value s h => trivial
  | pruned l r ihl ihr => exact ⟨ihl hc.1, ihr hc.2⟩
  | branch l r ihl ihr => exact ⟨ihl hc.1, ihr hc.2⟩
  | ext key child ih => exact ⟨(isExt_erase child).trans hc.1, ih hc.2⟩

theorem erase_wf (hwf : t.WF d) : t.erase.WF d := by
  induction t generalizing d with
  | value s h => exact hwf
  | pruned l r ihl ihr => exact ⟨ihl hwf.1, ihr hwf.2.1⟩
  | branch l r ihl ihr => exact ⟨ihl hwf.1, ihr hwf.2⟩
  | ext key child ih => exact ⟨hwf.1, hwf.2.1, ih hwf.2.2⟩

/-- Nothing in the tree is sealed. -/
def Plain : Tree → Prop
  | value isSealed _ => isSealed = false
  | pruned _ _ => False
  | branch left right => left.Plain ∧ right.Plain
  | ext _ child => child.Plain

theorem erase_plain (t : Tree) : t.erase.Plain := by
  induction t with
  | value s h => rfl
  | pruned l r ihl ihr => exact ⟨ihl, ihr⟩
  | branch l r ihl ihr => exact ⟨ihl, ihr⟩
  | ext key child ih => exact ih

theorem lookup_ext_nil {child : Tree} (hne : key ≠ []) : (ext key child).lookup [] = none := by
  apply under_eq_none
  rw [List.prefix_nil]
  exact hne

/-- Values have the empty key and branches have keys which start with either bit. -/
theorem lookup_ne_ext {child : Tree} (hext : t.isExt = false) (hne : key ≠ []) :
    t.lookup ≠ (ext key child).lookup := by
  intro h
  have hfork : ∀ l r : Tree, fork l.lookup r.lookup ≠ (ext key child).lookup := by
    intro l r h
    obtain ⟨bit, rest, rfl⟩ := List.exists_cons_of_ne_nil hne
    obtain ⟨k, x, hk⟩ := exists_lookup (if bit then l else r)
    have hother : (ext (bit :: rest) child).lookup ((!bit) :: k) = none := by
      apply under_eq_none
      rw [List.cons_prefix_cons]
      cases bit <;> simp
    rw [← h] at hother
    cases bit
    · rw [show fork l.lookup r.lookup ((!false) :: k) = r.lookup k from rfl] at hother
      rw [if_neg (by simp)] at hk
      rw [hother] at hk
      cases hk
    · rw [show fork l.lookup r.lookup ((!true) :: k) = l.lookup k from rfl] at hother
      rw [if_pos rfl] at hk
      rw [hother] at hk
      cases hk
  cases t with
  | value s h₀ =>
    have := congrFun h []
    rw [lookup_ext_nil hne, lookup, Function.update_self] at this
    cases this
  | pruned l r => exact hfork l r h
  | branch l r => exact hfork l r h
  | ext key child => cases hext

theorem ext_key_le {key' : List Bool} {c c' : Tree} (hext : c.isExt = false)
    (h : (ext key c).lookup = (ext key' c').lookup) (hpre : key <+: key') : key = key' := by
  obtain ⟨rest, rfl⟩ := hpre
  by_cases hr : rest = []
  · rw [hr, List.append_nil]
  · have hlook : under key c.lookup = under key (under rest c'.lookup) :=
      h.trans (under_append key rest c'.lookup)
    have hne : c.lookup ≠ (ext rest c').lookup := lookup_ne_ext hext hr
    exact absurd (under_injective key hlook) hne

/-- The key of an extension is all that the keys have in common. -/
theorem ext_key_eq {key' : List Bool} {c c' : Tree} (hext : c.isExt = false)
    (hext' : c'.isExt = false) (h : (ext key c).lookup = (ext key' c').lookup) : key = key' := by
  obtain ⟨k, x, hk⟩ := exists_lookup c
  have hb : (ext key c).lookup (key ++ k) = some x := by rwa [lookup, under_append_self]
  rw [h] at hb
  obtain ⟨rest, heq, -⟩ := under_eq_some.mp hb
  have hpre : key <+: key' ++ rest := heq ▸ List.prefix_append key k
  rcases List.prefix_or_prefix_of_prefix hpre (List.prefix_append key' rest) with hp | hp
  · exact ext_key_le hext h hp
  · exact (ext_key_le hext' h.symm hp).symm

theorem eq_of_lookup (hp : t.Plain) (hp' : t'.Plain) (hc : t.Canon) (hc' : t'.Canon)
    (hwf : t.WF d) (hwf' : t'.WF d) (h : t.lookup = t'.lookup) : t = t' := by
  induction t generalizing t' d with
  | value s h₀ =>
    have hnil : t'.lookup [] = some (h₀, s) := by rw [← h, lookup, Function.update_self]
    cases t' with
    | value s' h₀' =>
      obtain ⟨-, he⟩ := lookup_value.mp hnil
      cases he
      rfl
    | pruned l r => exact hp'.elim
    | branch l r => cases hnil
    | ext key' c' => exact absurd h (lookup_ne_ext rfl hwf'.1)
  | pruned l r => exact hp.elim
  | branch l r ihl ihr =>
    cases t' with
    | value s' h₀' =>
      have hnil : (branch l r).lookup [] = some (h₀', s') := by
        rw [h, lookup, Function.update_self]
      cases hnil
    | pruned l r => exact hp'.elim
    | branch l' r' =>
      obtain ⟨hl, hr⟩ := fork_inj h
      rw [ihl hp.1 hp'.1 hc.1 hc'.1 hwf.1 hwf'.1 hl, ihr hp.2 hp'.2 hc.2 hc'.2 hwf.2 hwf'.2 hr]
    | ext key' c' => exact absurd h (lookup_ne_ext rfl hwf'.1)
  | ext key c ih =>
    have hself : t'.isExt = true := by
      cases he : t'.isExt with
      | true => rfl
      | false => exact absurd h.symm (lookup_ne_ext he hwf.1)
    cases t' with
    | value s' h₀' => cases hself
    | pruned l r => cases hself
    | branch l r => cases hself
    | ext key' c' =>
      have hkey := ext_key_eq hc.1 hc'.1 h
      subst hkey
      have hchild : c = c' := ih hp hp' hc.2 hc'.2 hwf.2.2 hwf'.2.2 (under_injective _ h)
      rw [hchild]

end Tree

/-- The longest key, in bytes, all of whose bits fit one extension. -/
def shortKeyBytes : Nat := 34

structure Root.Canonical (root : Root) : Prop where
  canon : ∀ tree, root = some tree → tree.Canon
  fits : Tree.Fits 0 root.lookup

variable {digest : List Byte → CryptoHash} {A B : Type} [LawfulAllocator A RawNode]
  [LawfulAllocator B RawNode] {root root' : Root}

theorem fits_update_some {f g : List Bool → Option (CryptoHash × Bool)} {key : List Byte}
    {x : CryptoHash × Bool} (h : Tree.Fits 0 f) (hk : key.length ≤ shortKeyBytes)
    (hg : g = Function.update f (bitsOf key) (some x)) : Tree.Fits 0 g := by
  intro k y hy
  by_cases he : k = bitsOf key
  · rw [he, length_bitsOf]
    simp only [shortKeyBytes, Tree.maxBits] at *
    omega
  · rw [hg, Function.update_of_ne he] at hy
    exact h k y hy

theorem length_bitsOf_short {key : List Byte} (hk : key.length ≤ shortKeyBytes) :
    0 + (bitsOf key).length ≤ Tree.maxBits := by
  rw [length_bitsOf]
  simp only [shortKeyBytes, Tree.maxBits] at *
  omega

theorem Root.Canonical.set {key : List Byte} {v : CryptoHash} {tree : Tree} (h : root.Canonical)
    (hk : key.length ≤ shortKeyBytes) (hset : root.set v (bitsOf key) = .ok tree) :
    Root.Canonical (some tree) := by
  refine ⟨?_, fits_update_some h.fits hk (Root.lookup_set hset)⟩
  rintro _ ⟨⟩
  cases root with
  | none =>
    simp only [Root.set] at hset
    split at hset
    · cases hset
    · cases hset
      rw [Tree.chain_eq_prepend (length_bitsOf_short hk)]
      exact Tree.prepend_canon trivial rfl
  | some t₀ => exact Tree.set_canon (h.canon t₀ rfl) (length_bitsOf_short hk) hset

theorem Root.Canonical.sealKey {key : List Byte} {tree : Tree} (h : root.Canonical)
    (hk : key.length ≤ shortKeyBytes) (hseal : root.sealKey (bitsOf key) = .ok tree) :
    Root.Canonical (some tree) := by
  cases root with
  | none => cases hseal
  | some t₀ =>
    obtain ⟨v, -, hl⟩ := Tree.sealKey_lookup hseal
    refine ⟨?_, fits_update_some h.fits hk hl⟩
    rintro _ ⟨⟩
    exact (Tree.sealKey_canon (h.canon t₀ rfl) hseal).1

theorem Root.Canonical.del {key : List Bool} (h : root.Canonical)
    (hdel : root.del key = .ok root') : root'.Canonical := by
  have hfits := Tree.fits_of_update h.fits (Root.lookup_del hdel)
  refine ⟨?_, hfits⟩
  rintro tree rfl
  cases root with
  | none => cases hdel
  | some t₀ =>
    obtain ⟨a, ha, hact⟩ := map_eq_ok hdel
    have hlook := Tree.fits_of_update h.fits (Tree.del_lookup ha)
    exact Tree.Action.toTree_canon (Tree.del_canon (h.canon t₀ rfl) h.fits ha) hlook hact

theorem RootStep.canonical {c : Call} (hk : c.target.length ≤ shortKeyBytes)
    (h : root.Canonical) (hstep : RootStep root c root') : root'.Canonical := by
  cases hstep with
  | set hset => exact h.set hk hset
  | del hdel => exact h.del hdel
  | missing _ => exact h
  | sealValue hseal => exact h.sealKey hk hseal
  | setAndSeal hset hseal => exact (h.set hk hset).sealKey hk hseal

/-- Maps on byte strings determine the map of the tree, all of whose keys are
byte strings. -/
theorem lookup_eq_of_bindings {m m' : Bindings} (hwf : root.WF) (hwf' : root'.WF)
    (hm : ∀ k, m k = root.lookup (bitsOf k)) (hm' : ∀ k, m' k = root'.lookup (bitsOf k))
    (h : ∀ k, (m k).map Prod.fst = (m' k).map Prod.fst) (bits : List Bool) :
    (root.lookup bits).map Prod.fst = (root'.lookup bits).map Prod.fst := by
  by_cases hbyte : 8 ∣ bits.length
  · obtain ⟨k, rfl⟩ := exists_bitsOf hbyte
    rw [← hm, ← hm', h]
  · have hnone : ∀ {r : Root}, r.WF → r.lookup bits = none := by
      intro r hr
      cases hl : r.lookup bits with
      | none => rfl
      | some x =>
        cases r with
        | none => cases hl
        | some tree =>
          have := (Tree.lookup_length hr hl).1
          rw [Nat.zero_add] at this
          exact absurd this hbyte
    rw [hnone hwf, hnone hwf']

theorem erase_eq_of_lookup {tree tree' : Tree} (hc : tree.Canon) (hc' : tree'.Canon)
    (hwf : tree.WF 0) (hwf' : tree'.WF 0)
    (h : ∀ k, (tree.lookup k).map Prod.fst = (tree'.lookup k).map Prod.fst) :
    tree.erase = tree'.erase := by
  refine Tree.eq_of_lookup tree.erase_plain tree'.erase_plain (Tree.erase_canon hc)
    (Tree.erase_canon hc') (Tree.erase_wf hwf) (Tree.erase_wf hwf') ?_
  rw [Tree.lookup_erase, Tree.lookup_erase]
  funext k
  have := congrArg (Option.map fun hash => (hash, false)) (h k)
  rwa [Option.map_map, Option.map_map] at this

/-- Root hashes of tries with short keys depend on nothing but the hashes the
keys are bound to, whatever was set, deleted and sealed to get there. -/
theorem rootHash_history_independent (hd : ∀ b, digest b ≠ emptyTrieRoot) {a : A} {b : B}
    (hempty : ∀ p, cell a p = none) (hempty' : ∀ p, cell b p = none) (calls calls' : List Call)
    (hkeys : ∀ c ∈ calls ++ calls', c.target.length ≤ shortKeyBytes)
    (h : ∀ k, (((State.empty a).run digest calls).bindings k).map Prod.fst =
      (((State.empty b).run digest calls').bindings k).map Prod.fst) :
    ((State.empty a).run digest calls).trie.rootHash =
      ((State.empty b).run digest calls').trie.rootHash := by
  have hnone : Root.Canonical none := ⟨fun _ ht => (by cases ht), fun _ _ hl => (by cases hl)⟩
  obtain ⟨root, hholds, hcanon⟩ := State.run_invariant hd calls
    (fun c hc _ _ _ hI _ hstep => hstep.canonical (hkeys c (by simp [hc])) hI)
    (State.empty_holds hempty) hnone
  obtain ⟨root', hholds', hcanon'⟩ := State.run_invariant hd calls'
    (fun c hc _ _ _ hI _ hstep => hstep.canonical (hkeys c (by simp [hc])) hI)
    (State.empty_holds hempty') hnone
  have hlook := lookup_eq_of_bindings hholds.rep.wf hholds'.rep.wf hholds.bindings
    hholds'.bindings h
  cases root with
  | none =>
    cases root' with
    | none => rw [hholds.rep.2.1, hholds'.rep.2.1]
    | some tree' =>
      obtain ⟨k, x, hk⟩ := tree'.exists_lookup
      have := hlook k
      rw [show Root.lookup (some tree') k = some x from hk] at this
      cases this
  | some tree =>
    cases root' with
    | none =>
      obtain ⟨k, x, hk⟩ := tree.exists_lookup
      have := hlook k
      rw [show Root.lookup (some tree) k = some x from hk] at this
      cases this
    | some tree' =>
      have herase := erase_eq_of_lookup (hcanon.canon tree rfl) (hcanon'.canon tree' rfl)
        hholds.rep.wf hholds'.rep.wf hlook
      obtain ⟨cells, hrep, -⟩ := hholds.rep
      obtain ⟨cells', hrep', -⟩ := hholds'.rep
      have hparts := hrep.parts_eq
      have hparts' := hrep'.parts_eq
      rw [← Tree.parts_erase, herase, Tree.parts_erase, ← hparts'] at hparts
      exact (Prod.ext_iff.mp hparts).2

/-- A detour to the values of the sample, with the other one sealed. -/
def sampleDetour : List Call :=
  [.set [0x61#8] (sampleValue 1#8), .set [0x62#8] (sampleValue 2#8), .del [0x62#8],
    .set [0x61#8] (sampleValue 1#8), .setAndSeal [0x62#8] (sampleValue 2#8)]

theorem rootHash_history_independent_sample :
    ((State.empty sampleAlloc).run sampleDigest sampleDetour).trie.rootHash =
        hashOf 0x81c7cc1a08d1dfa7c0bb016a2aebf9d47afcff79e9e0bdc26e0ca4bc5005633e ∧
      ((State.empty sampleAlloc).run sampleDigest sampleDetour).trie.rootHash =
        sampleState.trie.rootHash := by
  refine ⟨by decide +kernel, rootHash_history_independent sampleDigest_ne sampleAlloc_empty
    sampleAlloc_empty sampleDetour sampleCalls (by decide) ?_⟩
  intro k
  by_cases ha : k = [0x61#8]
  · subst ha
    decide +kernel
  by_cases hb : k = [0x62#8]
  · subst hb
    decide +kernel
  rw [State.run_bindings_of_ne _ (by simp [sampleDetour, Call.target, Ne.symm ha, Ne.symm hb]),
    State.run_bindings_of_ne _ (by simp [sampleCalls, Call.target, Ne.symm ha, Ne.symm hb])]

end SealableTrie
