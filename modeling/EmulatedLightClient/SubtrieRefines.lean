import EmulatedLightClient.Represent
import EmulatedLightClient.Subtrie
import EmulatedLightClient.TreeListing

/-!
# The traversal lists the tree

Visiting a node pushes the entries of its tree, each with the prefix in front,
and leaves the prefix as it was up to the length asked for.
-/

namespace SealableTrie

open ByteBits Bits Nodes Memory ListPrefix HeapOwnership BitMaps

theorem Tree.WF.le_maxKey {t : Tree} {d : Nat} (hwf : t.WF d) : d ≤ Tree.maxKey := by
  obtain ⟨key, x, hx⟩ := t.exists_lookup
  exact Nat.le_trans (Nat.le_add_right d key.length) (Tree.lookup_length hwf hx).2

namespace Iter

variable {digest : List Byte → CryptoHash} {A : Type} [LawfulAllocator A RawNode] {d : Nat}
  {a : A} {cells : NodeCells} {ref : Ref} {t : Tree}

def Entry.view (e : Entry) : Bool × List Bool × Option CryptoHash :=
  (e.isSealed, e.subKey.bits, e.hash)

def viewOf (e : List Bool × Option (CryptoHash × Bool)) : Bool × List Bool × Option CryptoHash :=
  match e.2 with
  | some (hash, isSealed) => (isSealed, e.1, some hash)
  | none => (true, e.1, none)

/-- The entries are those of the listing, with sub-keys at one offset. -/
structure Shows (o : U3) (es : List Entry) (listing : Listing (CryptoHash × Bool)) : Prop where
  views : es.map Entry.view = listing.map viewOf
  offsets : ∀ e ∈ es, e.subKey.offset = o

theorem shows_nil (o : U3) : Shows o [] [] := ⟨rfl, fun _ he => absurd he List.not_mem_nil⟩

theorem shows_single {o : U3} {e : Entry} {l : List Bool × Option (CryptoHash × Bool)}
    (hv : e.view = viewOf l) (ho : e.subKey.offset = o) : Shows o [e] [l] := by
  refine ⟨congrArg (fun v => [v]) hv, ?_⟩
  intro e' he'
  rw [List.mem_singleton.mp he']
  exact ho

theorem Shows.append {o : U3} {es es' : List Entry} {ls ls' : Listing (CryptoHash × Bool)}
    (h : Shows o es ls) (h' : Shows o es' ls') : Shows o (es ++ es') (ls ++ ls') := by
  refine ⟨by rw [List.map_append, List.map_append, h.views, h'.views], ?_⟩
  intro e he
  rcases List.mem_append.mp he with he | he
  · exact h.offsets e he
  · exact h'.offsets e he

theorem Shows.mem_left {o : U3} {es : List Entry} {ls : Listing (CryptoHash × Bool)}
    (h : Shows o es ls) {e : Entry} (he : e ∈ es) : ∃ l ∈ ls, e.view = viewOf l := by
  have hmem : e.view ∈ ls.map viewOf := h.views ▸ List.mem_map_of_mem he
  obtain ⟨l, hl, heq⟩ := List.mem_map.mp hmem
  exact ⟨l, hl, heq.symm⟩

theorem Shows.mem_right {o : U3} {es : List Entry} {ls : Listing (CryptoHash × Bool)}
    (h : Shows o es ls) {l : List Bool × Option (CryptoHash × Bool)} (hl : l ∈ ls) :
    ∃ e ∈ es, e.view = viewOf l := by
  have hmem : viewOf l ∈ es.map Entry.view := h.views ▸ List.mem_map_of_mem hl
  exact List.mem_map.mp hmem

theorem viewOf_key (l : List Bool × Option (CryptoHash × Bool)) : (viewOf l).2.1 = l.1 := by
  unfold viewOf
  split <;> rfl

theorem Shows.ordered {o : U3} {es : List Entry} {ls : Listing (CryptoHash × Bool)}
    (h : Shows o es ls) (hord : ls.Pairwise fun l l' => Before l.1 l'.1) :
    es.Pairwise fun e e' => Before e.subKey.bits e'.subKey.bits := by
  have hviews : (ls.map viewOf).Pairwise fun v v' => Before v.2.1 v'.2.1 := by
    refine List.pairwise_map.mpr (hord.imp ?_)
    intro l l' hb
    rw [viewOf_key, viewOf_key]
    exact hb
  rw [← h.views] at hviews
  exact (List.pairwise_map (f := Entry.view)).mp hviews

theorem decodeNode_of_read {p : Ptr} {hash : CryptoHash} {node : Node (Option Ptr) Bool}
    (h : readNode digest a p hash = .ok node) : decodeNode a p = .ok node := by
  unfold readNode at h
  unfold decodeNode
  cases hget : Allocator.get a p with
  | none =>
    rw [hget] at h
    cases h
  | some raw =>
    rw [hget] at h
    simp only at h ⊢
    cases hdec : raw.decode with
    | error err =>
      rw [hdec] at h
      cases h
    | ok node' =>
      rw [hdec] at h
      simp only at h
      split at h
      · exact h
      · cases h

/-- The prefix on the way to a node at depth `d`. -/
structure AtDepth (d : Nat) (pre : Owned) : Prop where
  aligned : (pre.offset.val + pre.length) % 8 = d % 8
  length_le : pre.length ≤ d

/-- What visiting pushes and the prefix it leaves behind. -/
def Visited (ctx : Context) (len : Nat) (listing : Listing (CryptoHash × Bool))
    (res : Result (Context.At len)) : Prop :=
  ∃ ctx' es, res = .ok ctx' ∧ ctx'.val.entries = ctx.entries ++ es ∧
    Shows ctx.pre.offset es (listing.under ctx.pre.bits) ∧
    ctx'.val.pre.bits = ctx.pre.bits.take len ∧ ctx'.val.pre.offset = ctx.pre.offset

variable {ctx : Context} {len : Nat}

theorem visited_finish {l : List Bool × Option (CryptoHash × Bool)} {isSealed : Bool}
    {hash : Option CryptoHash} (h : len ≤ ctx.pre.length)
    (hv : viewOf l = (isSealed, [], hash)) :
    Visited ctx len [l] (.ok (ctx.finish isSealed hash len h)) := by
  have hkey : l.1 = [] := by rw [← viewOf_key, hv]
  have hview : viewOf (ctx.pre.bits ++ l.1, l.2) = (isSealed, ctx.pre.bits, hash) := by
    obtain ⟨key, x⟩ := l
    subst hkey
    rw [List.append_nil]
    unfold viewOf at *
    cases x with
    | none =>
      cases hv
      rfl
    | some x =>
      cases hv
      rfl
  exact ⟨_, _, rfl, rfl, shows_single hview.symm rfl, Owned.truncate_bits _ _,
    Owned.truncate_offset _ _⟩

theorem handleNode_branch {p : Ptr} {left right : Ref} {pre pre' : Owned}
    {ctx' : Context.At pre.length} (h : len ≤ ctx.pre.length)
    (hdec : decodeNode a p = .ok (.branch left right)) (hpush : ctx.pre.pushBack false = .ok pre)
    (hleft : Context.handleNode.handleRef a { ctx with pre := pre } left pre.length = .ok ctx')
    (hset : ctx'.val.pre.setLast true = some pre') :
    ctx.handleNode a (some p) len =
      Context.handleNode.handleRef a { ctx'.val with pre := pre' } right len := by
  conv_lhs => unfold Context.handleNode
  rw [dif_pos h]
  simp only [hdec]
  split
  · rename_i hp
    rw [hpush] at hp
    cases hp
  · rename_i pre₁ hp
    rw [hpush] at hp
    cases hp
    rw [hleft]
    simp only
    split
    · rename_i hs
      rw [hset] at hs
      cases hs
    · rename_i pre₁ hs
      rw [hset] at hs
      cases hs
      rfl

theorem handleNode_ext {p : Ptr} {key : ExtKey} {child : Ref} {pre : Owned}
    (h : len ≤ ctx.pre.length) (hdec : decodeNode a p = .ok (.extension key child))
    (hext : ctx.pre.extend key.slice = .ok pre) :
    ctx.handleNode a (some p) len =
      Context.handleNode.handleRef a { ctx with pre := pre } child len := by
  conv_lhs => unfold Context.handleNode
  rw [dif_pos h]
  simp only [hdec]
  split
  · rename_i he
    rw [hext] at he
    cases he
  · rename_i pre₁ he
    rw [hext] at he
    cases he
    rfl

/-- The subtree below a reference is visited from any context at its depth. -/
def Visits (a : A) (ref : Ref) (t : Tree) (d : Nat) : Prop :=
  ∀ (ctx : Context) (len : Nat), AtDepth d ctx.pre → len ≤ ctx.pre.length →
    Visited ctx len t.entries (Context.handleNode.handleRef a ctx ref len)

/-- Both children of a branch are visited, with one more bit in the prefix. -/
theorem visited_branch {p : Ptr} {lref rref : Ref} {l r : Tree} (hpre : AtDepth d ctx.pre)
    (hlen : len ≤ ctx.pre.length) (hdepth : d + 1 ≤ Tree.maxKey)
    (hdec : decodeNode a p = .ok (.branch lref rref)) (hl : Visits a lref l (d + 1))
    (hr : Visits a rref r (d + 1)) :
    Visited ctx len (Tree.branch l r).entries (ctx.handleNode a (some p) len) := by
  have hle := hpre.length_le
  have halign := hpre.aligned
  have hfit : ctx.pre.length + 1 < 2 ^ 16 := by
    simp only [Tree.maxKey] at hdepth
    omega
  -- The left child, one bit further down.
  obtain ⟨pre, hpush, hbits, hoff⟩ := Owned.pushBack_spec ctx.pre false hfit
  have hplen := Owned.pushBack_length hpush
  have hat : AtDepth (d + 1) pre := ⟨by rw [hoff]; omega, by omega⟩
  obtain ⟨ctx₁, es, hleft, hes, hshow, hbits₁, hoff₁⟩ :=
    hl ⟨pre, ctx.entries⟩ pre.length hat (Nat.le_refl pre.length)
  -- The right child, with the last bit of the prefix replaced.
  have hfull : ctx₁.val.pre.bits = ctx.pre.bits ++ [false] := by
    rw [hbits₁, List.take_of_length_le (Nat.le_of_eq (Owned.length_bits pre)), hbits]
  obtain ⟨pre', hset, hbits', hoff'⟩ := Owned.setLast_spec true hfull
  have hplen' : pre'.length = ctx.pre.length + 1 := by
    rw [Owned.setLast_length hset, ctx₁.property, hplen]
  have ho : pre'.offset = ctx.pre.offset := by rw [hoff', hoff₁, hoff]
  have hat' : AtDepth (d + 1) pre' := ⟨by rw [ho]; omega, by omega⟩
  obtain ⟨ctx₂, es', hright, hes', hshow', hbits₂, hoff₂⟩ :=
    hr ⟨pre', ctx₁.val.entries⟩ len hat' (show len ≤ pre'.length by omega)
  refine ⟨ctx₂, es ++ es', ?_, ?_, ?_, ?_, ?_⟩
  · rw [handleNode_branch hlen hdec hpush hleft hset]
    exact hright
  · rw [hes', hes, List.append_assoc]
  · have hsum : Listing.under ctx.pre.bits (Tree.branch l r).entries =
        Listing.under pre.bits l.entries ++ Listing.under pre'.bits r.entries := by
      rw [hbits, hbits', Tree.entries, ← Listing.under_under, ← Listing.under_under]
      exact List.map_append
    rw [hsum]
    refine Shows.append ?_ ?_
    · rw [← hoff]
      exact hshow
    · rw [← ho]
      exact hshow'
  · rw [hbits₂, hbits', List.take_append_of_le_length]
    rw [Owned.length_bits]
    exact hlen
  · rw [hoff₂, ho]

/-- The child of an extension is visited with the key added to the prefix. -/
theorem visited_ext {p : Ptr} {key : ExtKey} {cref : Ref} {bits : List Bool} {c : Tree}
    (hpre : AtDepth d ctx.pre) (hlen : len ≤ ctx.pre.length)
    (hdepth : d + bits.length ≤ Tree.maxKey)
    (hdec : decodeNode a p = .ok (.extension key cref)) (hkoff : key.offset = U3.wrap d)
    (hkbits : key.bits = bits) (hc : Visits a cref c (d + bits.length)) :
    Visited ctx len (Tree.ext bits c).entries (ctx.handleNode a (some p) len) := by
  have hle := hpre.length_le
  have halign := hpre.aligned
  have hkb : key.slice.bits = bits := hkbits
  have hklen : key.slice.length = bits.length := by rw [← Slice.length_bits, hkb]
  have hal : key.slice.offset.val = (ctx.pre.offset.val + ctx.pre.length) % 8 := by
    rw [halign]
    exact congrArg Fin.val hkoff
  obtain ⟨pre, hext, hpbits, hpoff⟩ := Owned.extend_spec ctx.pre hal (by
    simp only [Tree.maxKey] at hdepth
    omega)
  have hplen := Owned.extend_length hext
  have hat : AtDepth (d + bits.length) pre := ⟨by rw [hpoff]; omega, by omega⟩
  obtain ⟨ctx₁, es, hrun, hes, hshow, hbits₁, hoff₁⟩ :=
    hc ⟨pre, ctx.entries⟩ len hat (show len ≤ pre.length by omega)
  refine ⟨ctx₁, es, ?_, hes, ?_, ?_, hoff₁.trans hpoff⟩
  · rw [handleNode_ext hlen hdec hext]
    exact hrun
  · rw [Tree.entries, Listing.under_under, ← hkb, ← hpbits, ← hpoff]
    exact hshow
  · rw [hbits₁, hpbits, List.take_append_of_le_length]
    rw [Owned.length_bits]
    exact hlen

/-- The entries below a reference are those of the tree it stands for. -/
theorem handleRef_spec (hrep : Rep digest d ref t cells) (hbase : InBase (cell a) cells)
    (hwf : t.WF d) (hpre : AtDepth d ctx.pre) (hlen : len ≤ ctx.pre.length) :
    Visited ctx len t.entries (Context.handleNode.handleRef a ctx ref len) := by
  induction t generalizing d ref cells ctx len with
  | value s h =>
    cases hrep
    unfold Context.handleNode.handleRef Context.handleValue
    simp only
    rw [dif_pos hlen]
    exact visited_finish hlen rfl
  | pruned l r =>
    cases hrep
    unfold Context.handleNode.handleRef Context.handleNode
    simp only
    rw [dif_pos hlen]
    exact visited_finish hlen rfl
  | branch l r ihl ihr =>
    cases ref with
    | value vref => cases hrep
    | node nref =>
    obtain ⟨p, lref, rref, lcells, rcells, hptr, hread, hl, hr, hlb, hrb⟩ := hrep.reads_branch hbase
    unfold Context.handleNode.handleRef
    rw [hptr]
    exact visited_branch hpre hlen hwf.1.le_maxKey (decodeNode_of_read hread)
      (fun _ _ hat hle => ihl hl hlb hwf.1 hat hle) (fun _ _ hat hle => ihr hr hrb hwf.2 hat hle)
  | ext bits c ih =>
    cases ref with
    | value vref => cases hrep
    | node nref =>
    obtain ⟨p, key, cref, ccells, hptr, hread, hkoff, hkbits, hc, hcb⟩ := hrep.reads_ext hbase
    unfold Context.handleNode.handleRef
    rw [hptr]
    exact visited_ext hpre hlen hwf.2.2.le_maxKey (decodeNode_of_read hread) hkoff hkbits
      fun _ _ hat hle => ih hc hcb hwf.2.2 hat hle

end Iter

end SealableTrie
