import EmulatedLightClient.SubtrieRefines
import EmulatedLightClient.TrieRefinement

/-!
# Subtries are listed exactly

What `getSubtrie` returns is the listing of what the map has below the key: in
order, without a value missing and with nothing made up. Of keys under a pruned
node only the place where they begin is told.
-/

namespace SealableTrie

open ByteBits Bits Nodes Memory ListPrefix HeapOwnership BitMaps

namespace Iter

variable {digest : List Byte → CryptoHash} {A : Type} [LawfulAllocator A RawNode] {d : Nat}
  {a : A} {cells : NodeCells} {ref : Ref} {t : Tree}

/-- The result leads to the entries of the listing. -/
def LeadsTo (a : A) (o : U3) (res : Result GetSubtrieRootResult)
    (listing : Listing (CryptoHash × Bool)) : Prop :=
  ∃ r es, res = .ok r ∧ r.entries a = .ok es ∧ Shows o es listing

theorem leadsTo_empty (o : U3) : LeadsTo a o (.ok .empty) [] :=
  ⟨_, [], rfl, rfl, shows_nil o⟩

theorem getSubtrieRoot_empty {key : Slice} (h : key.isEmpty = true) (nodePtr : Option Ptr)
    (pre : Owned) : getSubtrieRoot a nodePtr key pre = .ok (.root pre nodePtr) := by
  unfold getSubtrieRoot
  cases nodePtr with
  | none => rfl
  | some p =>
    simp only
    rw [dif_pos h]

theorem getSubtrieRoot_branch {p : Ptr} {left right : Ref} {key key' : Slice} {us : Bool}
    {pre : Owned} (hkey : ¬ key.isEmpty = true)
    (hdec : decodeNode a p = .ok (.branch left right)) (hpop : key.popFront = some (us, key')) :
    getSubtrieRoot a (some p) key pre =
      getSubtrieRoot.afterChild a key' pre (if us then right else left) := by
  conv_lhs => unfold getSubtrieRoot
  simp only
  rw [dif_neg hkey]
  simp only [hdec]
  split
  · rename_i hp
    rw [hpop] at hp
    cases hp
  · rename_i us₁ key₁ hp
    rw [hpop] at hp
    cases hp
    rfl

theorem getSubtrieRoot_ext {p : Ptr} {extKey : ExtKey} {child : Ref} {key key' : Slice}
    {pre : Owned} (hkey : ¬ key.isEmpty = true)
    (hdec : decodeNode a p = .ok (.extension extKey child))
    (hstrip : key.stripPrefix extKey.slice = some key') :
    getSubtrieRoot a (some p) key pre = getSubtrieRoot.afterChild a key' pre child := by
  conv_lhs => unfold getSubtrieRoot
  simp only
  rw [dif_neg hkey]
  simp only [hdec]
  split
  · rename_i key₁ hs
    rw [hstrip] at hs
    cases hs
    rfl
  · rename_i hs
    rw [hstrip] at hs
    cases hs

/-- The key is not longer than the extension it leads to. -/
theorem getSubtrieRoot_inside {p : Ptr} {extKey : ExtKey} {child : Ref} {key : Slice}
    (pre : Owned) (hkey : ¬ key.isEmpty = true)
    (hdec : decodeNode a p = .ok (.extension extKey child))
    (hstrip : key.stripPrefix extKey.slice = none) :
    (∀ rest, extKey.slice.stripPrefix key = some rest →
      getSubtrieRoot a (some p) key pre =
        getSubtrieRoot.afterChild a Slice.default (Owned.ofSlice rest) child) ∧
      (extKey.slice.stripPrefix key = none →
        getSubtrieRoot a (some p) key pre = .ok .empty) := by
  unfold getSubtrieRoot
  simp only
  rw [dif_neg hkey]
  simp only [hdec]
  split
  · rename_i key₁ hs
    rw [hstrip] at hs
    cases hs
  · refine ⟨?_, ?_⟩
    · intro rest hrest
      simp only [hrest]
    · intro hrest
      simp only [hrest]

/-- Once the key is used up, everything below the child is listed. -/
theorem leadsTo_child {key : Slice} {pre : Owned} (hkey : key.isEmpty = true)
    (hrep : Rep digest d ref t cells) (hbase : InBase (cell a) cells) (hwf : t.WF d)
    (hpre : AtDepth d pre) :
    LeadsTo a pre.offset (getSubtrieRoot.afterChild a key pre ref)
      (t.entries.under pre.bits) := by
  unfold getSubtrieRoot.afterChild
  cases ref with
  | value vref =>
    cases hrep
    simp only
    rw [if_pos hkey]
    exact ⟨_, _, rfl, rfl, shows_single (by simp [Iter.Entry.view, viewOf]) rfl⟩
  | node nref =>
    have hvisit : Visited ⟨pre, []⟩ pre.length t.entries _ :=
      handleRef_spec hrep hbase hwf hpre (Nat.le_refl pre.length)
    obtain ⟨ctx, es, hrun, hes, hshow, -⟩ := hvisit
    unfold Context.handleNode.handleRef at hrun
    refine ⟨_, es, getSubtrieRoot_empty hkey nref.ptr pre, ?_, hshow⟩
    rw [GetSubtrieRootResult.entries, Context.get, hrun]
    exact congrArg Except.ok hes

theorem aligned_default (h : 8 ∣ d) : AtDepth d Owned.default :=
  ⟨(Nat.mod_eq_zero_of_dvd h).symm, Nat.zero_le d⟩

/-- The key has led to the very node the entries are below of. -/
theorem leadsTo_here {key : Slice} (hrep : Rep digest d ref t cells)
    (hbase : InBase (cell a) cells) (hwf : t.WF d) (hbyte : 8 ∣ d + key.bits.length)
    (hnil : key.bits = []) :
    LeadsTo a 0 (getSubtrieRoot.afterChild a key Owned.default ref) (t.subtrie key.bits) := by
  rw [hnil, List.length_nil, Nat.add_zero] at hbyte
  have hlead := leadsTo_child (Slice.isEmpty_iff.mpr hnil) hrep hbase hwf (aligned_default hbyte)
  rw [Owned.default_bits, Listing.under_nil, Owned.default_offset] at hlead
  rwa [hnil, Tree.subtrie_nil hwf]

theorem afterChild_node (key : Slice) (pre : Owned) (nref : NodeRef (Option Ptr)) :
    getSubtrieRoot.afterChild a key pre (.node nref) = getSubtrieRoot a nref.ptr key pre := by
  unfold getSubtrieRoot.afterChild
  rfl

theorem isEmpty_of_ne {key : Slice} (h : key.bits ≠ []) : ¬ key.isEmpty = true :=
  fun he => h (Slice.isEmpty_iff.mp he)

/-- A key which ends inside an extension leaves the rest of it in front of the entries. -/
theorem leadsTo_inside {key rest : Slice} {extKey : ExtKey} {bits : List Bool}
    (hrep : Rep digest (d + bits.length) ref t cells) (hbase : InBase (cell a) cells)
    (hwf : t.WF (d + bits.length)) (hoff : extKey.offset = U3.wrap d) (hbits : extKey.bits = bits)
    (hbyte : 8 ∣ d + key.bits.length) (hrest : extKey.slice.stripPrefix key = some rest) :
    LeadsTo a 0 (getSubtrieRoot.afterChild a Slice.default (Owned.ofSlice rest) ref)
      (t.entries.under rest.bits) := by
  obtain ⟨-, hsplit, hroff⟩ := Slice.stripPrefix_spec hrest
  have hlen := congrArg List.length (hbits.symm.trans hsplit)
  rw [List.length_append, Slice.length_bits, Slice.length_bits] at hlen
  have hko : extKey.slice.offset.val = d % 8 := congrArg Fin.val hoff
  rw [Slice.length_bits] at hbyte
  have hzero : rest.offset = 0 := by
    apply Fin.ext
    rw [hroff, hko, Fin.val_zero]
    omega
  have hpre : AtDepth (d + bits.length) (Owned.ofSlice rest) := by
    refine ⟨?_, ?_⟩
    · rw [Owned.ofSlice_offset, hroff, hko]
      simp only [Owned.ofSlice]
      omega
    · simp only [Owned.ofSlice]
      omega
  have hlead := leadsTo_child Slice.default_isEmpty hrep hbase hwf hpre
  rwa [Owned.ofSlice_bits, Owned.ofSlice_offset, hzero] at hlead

/-- Following the key leads to what the tree has below it. -/
theorem afterChild_spec {key : Slice} (hrep : Rep digest d ref t cells)
    (hbase : InBase (cell a) cells) (hwf : t.WF d) (hoff : key.offset = U3.wrap d)
    (hbyte : 8 ∣ d + key.bits.length) :
    LeadsTo a 0 (getSubtrieRoot.afterChild a key Owned.default ref) (t.subtrie key.bits) := by
  induction t generalizing d ref cells key with
  | value s h =>
    rcases eq_or_ne key.bits [] with hnil | hne
    · exact leadsTo_here hrep hbase hwf hbyte hnil
    cases hrep
    unfold getSubtrieRoot.afterChild
    simp only
    rw [if_neg (isEmpty_of_ne hne), Tree.subtrie, if_neg hne]
    exact leadsTo_empty 0
  | pruned l r =>
    cases hrep
    rw [afterChild_node]
    unfold getSubtrieRoot
    refine ⟨_, _, rfl, ?_, shows_single (o := 0) (e := ⟨true, Owned.default, none⟩) rfl rfl⟩
    rw [GetSubtrieRootResult.entries, Context.get]
    unfold Context.handleNode
    rfl
  | branch l r ihl ihr =>
    rcases eq_or_ne key.bits [] with hnil | hne
    · exact leadsTo_here hrep hbase hwf hbyte hnil
    cases ref with
    | value vref => cases hrep
    | node nref =>
    obtain ⟨p, lref, rref, lcells, rcells, hptr, hread, hl, hr, hlb, hrb⟩ := hrep.reads_branch hbase
    rcases popFront_cases hoff with ⟨-, hnil⟩ | ⟨bit, key', hpop, hbits, hoff'⟩
    · exact absurd hnil hne
    rw [afterChild_node, hptr,
      getSubtrieRoot_branch (isEmpty_of_ne hne) (decodeNode_of_read hread) hpop, hbits]
    rw [hbits, List.length_cons] at hbyte
    cases bit with
    | false => exact ihl hl hlb hwf.1 hoff' (by omega)
    | true => exact ihr hr hrb hwf.2 hoff' (by omega)
  | ext bits c ih =>
    rcases eq_or_ne key.bits [] with hnil | hne
    · exact leadsTo_here hrep hbase hwf hbyte hnil
    cases ref with
    | value vref => cases hrep
    | node nref =>
    obtain ⟨p, extKey, cref, ccells, hptr, hread, hkoff, hkbits, hc, hcb⟩ := hrep.reads_ext hbase
    have hslice : extKey.slice.bits = bits := hkbits
    rw [afterChild_node, hptr, Tree.subtrie]
    rcases stripPrefix_cases hoff hkoff with ⟨hstrip, hno⟩ | ⟨key', hstrip, hkey, hoff'⟩
    · rw [hkbits] at hno
      have hinside := getSubtrieRoot_inside Owned.default (isEmpty_of_ne hne)
        (decodeNode_of_read hread) hstrip
      rw [if_neg hno]
      cases hrest : extKey.slice.stripPrefix key with
      | none =>
        have hno' := (Slice.stripPrefix_none (hkoff.trans hoff.symm)).mp hrest
        rw [hslice] at hno'
        rw [hinside.2 hrest, if_neg hno']
        exact leadsTo_empty 0
      | some rest =>
        obtain ⟨-, hsplit, hroff⟩ := Slice.stripPrefix_spec hrest
        rw [hslice] at hsplit
        rw [hinside.1 rest hrest, if_pos ⟨_, hsplit.symm⟩, hsplit, List.drop_left]
        exact leadsTo_inside hc hcb hwf.2.2 hkoff hkbits hbyte hrest
    · rw [hkbits] at hkey hoff'
      rw [getSubtrieRoot_ext (isEmpty_of_ne hne) (decodeNode_of_read hread) hstrip,
        if_pos ⟨_, hkey.symm⟩, hkey, List.drop_left]
      rw [hkey, List.length_append] at hbyte
      exact ih hc hcb hwf.2.2 hoff' (by omega)

end Iter

open Iter

variable {digest : List Byte → CryptoHash} {A : Type} [LawfulAllocator A RawNode]
  {t : Trie A} {root : Root} {s : State A} {p : List Byte}

def Root.subtrie : Root → List Bool → Listing (CryptoHash × Bool)
  | none, _ => []
  | some tree, key => tree.subtrie key

theorem Root.subtrie_lists (hwf : root.WF) (key : List Bool) :
    Lists Tree.Sealed (root.subtrie key) (below key root.lookup) := by
  cases root with
  | none => exact lists_none
  | some tree => exact Tree.subtrie_lists hwf key

theorem getSubtrie_spec (hd : ∀ b, digest b ≠ emptyTrieRoot) (h : TrieRep digest t root)
    (hp : p.length ≤ maxKeyBytes) :
    ∃ es, t.getSubtrie p = .ok es ∧ Shows 0 es (root.subtrie (bitsOf p)) := by
  unfold Trie.getSubtrie
  cases root with
  | none => exact ⟨[], if_pos h.2.1, shows_nil 0⟩
  | some tree =>
    obtain ⟨slice, hs, hslice, hb⟩ := sliceOf_spec hp
    obtain ⟨cells, hrep, hwf, hown⟩ := h
    have hbyte : 8 ∣ 0 + slice.bits.length := by
      rw [hb, length_bitsOf, Nat.zero_add]
      exact Nat.dvd_mul_left 8 _
    obtain ⟨res, es, hres, hes, hshow⟩ :=
      afterChild_spec hrep (Owns.inBase hown) hwf hslice.offset hbyte
    rw [afterChild_node] at hres
    rw [hb] at hshow
    refine ⟨es, ?_, hshow⟩
    rw [if_neg (hrep.hash_ne hd), getEntries, hs]
    simp only [hres, hes]

/-- The rest of a key is that of the entry or, if the entry has no hash, extends it. -/
def Iter.Entry.Covers (e : Iter.Entry) (rest : List Bool) : Prop :=
  e.subKey.bits = rest ∨ (e.hash = none ∧ e.subKey.bits <+: rest)

theorem Iter.Entry.Covers.isPrefix {e : Iter.Entry} {rest : List Bool} (h : e.Covers rest) :
    e.subKey.bits <+: rest := by
  rcases h with rfl | ⟨-, h⟩
  · exact List.prefix_rfl
  · exact h

theorem view_bound {e : Iter.Entry} {l : List Bool × Option (CryptoHash × Bool)}
    (h : e.view = viewOf l) {v : CryptoHash} {isSealed : Bool} (hl : l.2 = some (v, isSealed)) :
    e.isSealed = isSealed ∧ e.subKey.bits = l.1 ∧ e.hash = some v := by
  unfold Iter.Entry.view viewOf at h
  rw [hl] at h
  simpa using h

theorem view_pruned {e : Iter.Entry} {l : List Bool × Option (CryptoHash × Bool)}
    (h : e.view = viewOf l) (hl : l.2 = none) :
    e.isSealed = true ∧ e.subKey.bits = l.1 ∧ e.hash = none := by
  unfold Iter.Entry.view viewOf at h
  rw [hl] at h
  simpa using h

/-- Listed values are bound, with the flag they are listed with. -/
theorem bound_of_listed (h : s.Holds digest root) {es : List Iter.Entry}
    (hshow : Shows 0 es (root.subtrie (bitsOf p))) {e : Iter.Entry} (he : e ∈ es) {v : CryptoHash}
    (hv : e.hash = some v) :
    ∃ rest, e.subKey.bits = bitsOf rest ∧ s.bindings (p ++ rest) = some (v, e.isSealed) := by
  have hlists := Root.subtrie_lists h.rep.wf (bitsOf p)
  obtain ⟨⟨key, x⟩, hl, hview⟩ := hshow.mem_left he
  cases x with
  | none =>
    rw [(view_pruned hview rfl).2.2] at hv
    cases hv
  | some x =>
    obtain ⟨v', isSealed⟩ := x
    obtain ⟨hs, hk, hh⟩ := view_bound hview rfl
    rw [hh] at hv
    cases hv
    have hlook : root.lookup (bitsOf p ++ key) = some (v, isSealed) := hlists.sound key _ hl
    have hdvd : 8 ∣ key.length := by
      cases root with
      | none => cases hlook
      | some tree =>
        have hlen := (Tree.lookup_length h.rep.wf hlook).1
        rw [List.length_append, length_bitsOf] at hlen
        omega
    obtain ⟨rest, hrest⟩ := exists_bitsOf hdvd
    refine ⟨rest, hk.trans hrest.symm, ?_⟩
    rw [h.bindings, bitsOf_append, hrest, hlook, hs]

/-- Bindings below the key are listed, or covered by an entry without a hash. -/
theorem listed_of_bound (h : s.Holds digest root) {es : List Iter.Entry}
    (hshow : Shows 0 es (root.subtrie (bitsOf p))) {rest : List Byte} {v : CryptoHash}
    {isSealed : Bool} (hb : s.bindings (p ++ rest) = some (v, isSealed)) :
    (∃ e ∈ es, e.isSealed = isSealed ∧ e.subKey.bits = bitsOf rest ∧ e.hash = some v) ∨
      (isSealed = true ∧ ∃ e ∈ es, e.isSealed = true ∧ e.Covers (bitsOf rest)) := by
  have hlists := Root.subtrie_lists h.rep.wf (bitsOf p)
  rw [h.bindings, bitsOf_append] at hb
  rcases hlists.covers (bitsOf rest) (v, isSealed) hb with hl | ⟨key, hl, hkey⟩
  · obtain ⟨e, he, hview⟩ := hshow.mem_right hl
    exact Or.inl ⟨e, he, view_bound hview rfl⟩
  · obtain ⟨e, he, hview⟩ := hshow.mem_right hl
    obtain ⟨hs, hk, hh⟩ := view_pruned hview rfl
    have hsealed : isSealed = true := hlists.hidden key (bitsOf rest) (v, isSealed) hl hkey hb
    exact Or.inr ⟨hsealed, e, he, hs, Or.inr ⟨hh, by rw [hk]; exact hkey⟩⟩

/-- For every key of at most 8191 bytes the subtrie of a reachable trie is
listed. The entries are in lexicographic order and no sub-key is a prefix of
another one; the unsealed ones are the unsealed bindings at keys which start
with the given one; sealed ones with a hash are sealed bindings, and each sealed
binding is covered by exactly one sealed entry. -/
theorem getSubtrie_exact (hd : ∀ b, digest b ≠ emptyTrieRoot) (hs : Reachable digest s)
    (hp : p.length ≤ maxKeyBytes) :
    ∃ es, s.trie.getSubtrie p = .ok es ∧
      (es.Pairwise fun e e' => e.subKey.bits < e'.subKey.bits ∧
        ¬ e.subKey.bits <+: e'.subKey.bits ∧ ¬ e'.subKey.bits <+: e.subKey.bits) ∧
      (∀ e ∈ es, e.subKey.offset = 0) ∧
      (∀ subKey hash,
        (∃ e ∈ es, e.isSealed = false ∧ e.subKey.bits = subKey ∧ e.hash = hash) ↔
          ∃ rest v, subKey = bitsOf rest ∧ hash = some v ∧
            s.bindings (p ++ rest) = some (v, false)) ∧
      (∀ e ∈ es, e.isSealed = true → ∀ v, e.hash = some v →
        ∃ rest, e.subKey.bits = bitsOf rest ∧ s.bindings (p ++ rest) = some (v, true)) ∧
      ∀ rest v, s.bindings (p ++ rest) = some (v, true) →
        ∃! e, e ∈ es ∧ e.isSealed = true ∧ e.Covers (bitsOf rest) := by
  obtain ⟨root, hholds⟩ := hs.holds hd
  obtain ⟨es, hes, hshow⟩ := getSubtrie_spec hd hholds.rep hp
  have hord := hshow.ordered (Root.subtrie_lists hholds.rep.wf (bitsOf p)).ordered
  refine ⟨es, hes, hord.imp fun hb => ⟨hb.lt, hb.not_prefix⟩, hshow.offsets, ?_, ?_, ?_⟩
  · intro subKey hash
    constructor
    · rintro ⟨e, he, hus, rfl, rfl⟩
      cases hh : e.hash with
      | none =>
        obtain ⟨⟨key, x⟩, -, hview⟩ := hshow.mem_left he
        cases x with
        | none =>
          rw [(view_pruned hview rfl).1] at hus
          cases hus
        | some x =>
          rw [(view_bound hview rfl).2.2] at hh
          cases hh
      | some v =>
        obtain ⟨rest, hk, hb⟩ := bound_of_listed hholds hshow he hh
        exact ⟨rest, v, hk, rfl, by rw [hb, hus]⟩
    · rintro ⟨rest, v, rfl, rfl, hb⟩
      rcases listed_of_bound hholds hshow hb with ⟨e, he, hus, hk, hh⟩ | ⟨hsealed, -⟩
      · exact ⟨e, he, hus, hk, hh⟩
      · cases hsealed
  · intro e he hsealed v hv
    obtain ⟨rest, hk, hb⟩ := bound_of_listed hholds hshow he hv
    exact ⟨rest, hk, by rw [hb, hsealed]⟩
  · intro rest v hb
    obtain ⟨e, he, hsealed, hcov⟩ : ∃ e ∈ es, e.isSealed = true ∧ e.Covers (bitsOf rest) := by
      rcases listed_of_bound hholds hshow hb with ⟨e, he, hs, hk, -⟩ | ⟨-, hex⟩
      · exact ⟨e, he, hs, Or.inl hk⟩
      · exact hex
    refine ⟨e, ⟨he, hsealed, hcov⟩, ?_⟩
    rintro e' ⟨he', -, hcov'⟩
    exact eq_of_prefix hord he' he hcov'.isPrefix hcov.isPrefix

/-- The subtrie at `a` of the sample trie. -/
theorem getSubtrie_exact_sample :
    ∃ es, sampleState.trie.getSubtrie [0x61#8] = .ok es ∧
      ∃! e, e ∈ es ∧ e.isSealed = true ∧ e.Covers (bitsOf []) := by
  obtain ⟨es, hes, -, -, -, -, hsealed⟩ := getSubtrie_exact sampleDigest_ne
    (Reachable.intro sampleAlloc_empty sampleCalls) (p := [0x61#8]) (by decide)
  exact ⟨es, hes, hsealed [] (sampleValue 1#8) (by decide +kernel)⟩

end SealableTrie
