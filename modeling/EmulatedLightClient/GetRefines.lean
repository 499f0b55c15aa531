import EmulatedLightClient.Represent
import EmulatedLightClient.ProofClimb
import EmulatedLightClient.Trie

/-!
# Lookups and the proofs they build

A lookup returns what the tree gives. The items it pushes on its way down are,
in reverse, a climb from where the lookup ended back to where it started.
-/

namespace SealableTrie

open ByteBits Bits Nodes Memory ListPrefix HeapOwnership TrieProof

variable {digest : List Byte → CryptoHash} {A : Type} [LawfulAllocator A RawNode] {d : Nat}
  {a : A} {cells frame : NodeCells}

/-- Kind and hash as the proofs have them. -/
def ownedRef (parts : Bool × CryptoHash) : OwnedRef := ⟨parts.1, parts.2⟩

@[simp] theorem parts_toReference (rf : OwnedRef) : rf.toReference.parts = (rf.isValue, rf.hash) := by
  obtain ⟨isValue, hash⟩ := rf
  cases isValue <;> rfl

theorem parts_ownedRef (parts : Bool × CryptoHash) : (ownedRef parts).toReference.parts = parts :=
  parts_toReference _

/-- The proof found by a lookup of `rest` in the tree, which was reached along
`pre`: the items `its`, leaf first, climb from the start of the proof to the tree. -/
def Climbs (digest : List Byte → CryptoHash) (d : Nat) (t : Tree) (rest : List Bool)
    (value : Option CryptoHash) (proof : Proof) (its : List Item) : Prop :=
  ∀ (s : Slice) (pre : List Bool), s.offset = 0 → s.bits = pre ++ rest → pre.length = d →
    ∃ s₁ want s', proof.start digest value s = some (s₁, want) ∧
      climb digest s₁ want its = some (s', ownedRef (t.parts digest d)) ∧
      s'.offset = 0 ∧ s'.bits = pre

/-- One more item on top of a climb. -/
theorem Climbs.step {d' : Nat} {t c : Tree} {rest rest' : List Bool} {value : Option CryptoHash}
    {proof : Proof} {its : List Item} {item : Item}
    (h : Climbs digest d' c rest' value proof its)
    (hitem : ∀ (s : Slice) (pre : List Bool), s.offset = 0 → s.bits = pre ++ rest → pre.length = d →
      ∃ mid, s.bits = mid ++ rest' ∧ mid.length = d' ∧
        ∀ s' : Slice, s'.offset = 0 → s'.bits = mid →
          ∃ s'' node, itemNode s' (ownedRef (c.parts digest d')) item = some (s'', node) ∧
            OwnedRef.toNode digest node = ownedRef (t.parts digest d) ∧ s''.offset = 0 ∧
            s''.bits = pre) :
    Climbs digest d t rest value proof (its ++ [item]) := by
  intro s pre ho hb hlen
  obtain ⟨mid, hmid, hmlen, hnode⟩ := hitem s pre ho hb hlen
  obtain ⟨s₁, want, s', hstart, hclimb, ho', hb'⟩ := h s mid ho hmid hmlen
  obtain ⟨s'', node, hi, hparts, ho'', hb''⟩ := hnode s' ho' hb'
  refine ⟨s₁, want, s'', hstart, ?_, ho'', hb''⟩
  rw [climb_append, hclimb]
  simp [climb, hi, hparts]

theorem Climbs.branch {l r : Tree} (bit : Bool) {rest : List Bool} {value : Option CryptoHash}
    {proof : Proof} {its : List Item}
    (h : Climbs digest (d + 1) (if bit then r else l) rest value proof its) :
    Climbs digest d (.branch l r) (bit :: rest) value proof
      (its ++ [.branch (ownedRef ((if bit then l else r).parts digest (d + 1)))]) := by
  refine h.step fun s pre _ hb hlen => ⟨pre ++ [bit], by simp [hb], by simp [hlen], ?_⟩
  intro s' ho' hb'
  obtain ⟨s'', hpop, hbits, ho''⟩ := Slice.popBack_of_concat hb'
  refine ⟨s'', _, by rw [itemNode, hpop]; rfl, ?_, ho''.trans ho', hbits⟩
  cases bit with
  | false =>
    simp only [OwnedRef.toNode, Node.hash, Bool.false_eq_true, if_false, preimage_branch,
      parts_ownedRef]
    rfl
  | true =>
    simp only [OwnedRef.toNode, Node.hash, if_true, preimage_branch, parts_ownedRef]
    rfl

theorem Climbs.ext {c : Tree} {key : ExtKey} {len : NonZeroU16} {rest : List Bool}
    {value : Option CryptoHash} {proof : Proof} {its : List Item}
    (hoff : key.offset = U3.wrap d) (hlen : len.get = key.bits.length)
    (h : Climbs digest (d + key.bits.length) c rest value proof its) :
    Climbs digest d (.ext key.bits c) (key.bits ++ rest) value proof (its ++ [.extension len]) := by
  refine h.step fun s pre _ hb hpre => ⟨pre ++ key.bits, by simp [hb], by simp [hpre], ?_⟩
  intro s' ho' hb'
  have hslen : s'.length = pre.length + key.bits.length := by
    rw [← Slice.length_bits, hb', List.length_append]
  obtain ⟨suffix, s'', hpop, hbits, ho'', hsb, hso⟩ :=
    Slice.popBackSlice_spec (show len.get ≤ s'.length by omega)
  have hcut : s'.length - len.get = pre.length := by omega
  rw [hcut, hb', List.take_left] at hbits
  rw [hcut, hb', List.drop_left] at hsb
  have hsoff : suffix.offset = U3.wrap d := by
    apply offset_wrap
    rw [hso, hcut, ho', hpre, Fin.val_zero, Nat.zero_add]
  have hslen' : suffix.length = key.slice.length := by
    rw [← Slice.length_bits, hsb, ExtKey.bits, Slice.length_bits]
  have hfits : bytesLen suffix.offset suffix.length ≤ maxExtensionKeySize := by
    rw [hsoff, ← hoff, hslen']
    exact key.fits
  have htry := ExtKey.tryFrom_toOption hfits
  cases hk : (ExtKey.tryFrom suffix).toOption with
  | none =>
    rw [hk] at htry
    have hnil : suffix.bits = [] := htry
    exact absurd (hsb.symm.trans hnil) key.bits_ne_nil
  | some k =>
    rw [hk] at htry
    have hko : k.offset = U3.wrap d := by
      apply offset_wrap
      rw [htry.2, hsoff, U3.val_wrap, Nat.mod_mod]
    refine ⟨s'', .extension k (ownedRef (c.parts digest (d + key.bits.length))).toReference,
      ?_, ?_, ho''.trans ho', hbits⟩
    · rw [itemNode, hpop]
      simp only [Option.bind_some, hk, Option.map_some]
    · rw [OwnedRef.toNode, Node.hash, preimage_extension, parts_ownedRef, hko, htry.1, hsb]
      rfl

section

variable {p : Ptr} {hash : CryptoHash} {left right child : Ref} {extKey : ExtKey}
  {key key' : Slice} {builder : Option Builder}

theorem getLoop_branch_end (hread : readNode digest a p hash = .ok (.branch left right))
    (hpop : key.popFront = none) :
    getLoop digest a key (some p) hash builder =
      .ok (none, builder.map (·.reversed.reachedBranch left right)) := by
  rw [getLoop_of_branch digest hread, hpop]

theorem getLoop_branch {us : Bool}
    (hread : readNode digest a p hash = .ok (.branch left right))
    (hpop : key.popFront = some (us, key')) :
    getLoop digest a key (some p) hash builder =
      getLoop.afterChild digest a key' (if us then right else left)
        (builder.map (·.push (Item.ofBranch us left right))) := by
  rw [getLoop_of_branch digest hread, hpop]

theorem getLoop_ext_end (hread : readNode digest a p hash = .ok (.extension extKey child))
    (hstrip : key.stripPrefix extKey.slice = none) :
    getLoop digest a key (some p) hash builder =
      .ok (none, builder.map (·.reversed.reachedExtension ⟨key.length, key.length_lt⟩
        extKey child)) := by
  rw [getLoop_of_extension digest hread, hstrip]

theorem getLoop_ext (hread : readNode digest a p hash = .ok (.extension extKey child))
    (hstrip : key.stripPrefix extKey.slice = some key') :
    getLoop digest a key (some p) hash builder =
      getLoop.afterChild digest a key' child (builder.map
        (·.push (.extension ⟨extKey.len, extKey.nonempty, extKey.slice.length_lt⟩))) := by
  have hlen : extKey.len ≠ 0 ∧ extKey.len < 2 ^ 16 := ⟨extKey.nonempty, extKey.slice.length_lt⟩
  have hnew : NonZeroU16.new extKey.len = some ⟨extKey.len, hlen.1, hlen.2⟩ := dif_pos hlen
  rw [getLoop_of_extension digest hread, hstrip, hnew]

end

/-- What a lookup of `rest` in the tree returns, the items pushed so far being
those of the builder. -/
def Found (digest : List Byte → CryptoHash) (d : Nat) (t : Tree) (rest : List Bool)
    (builder : Option Builder) (res : Result (Option CryptoHash × Option Proof)) : Prop :=
  match t.get rest with
  | .error e => res = .error (.err e)
  | .ok value =>
    match builder with
    | none => res = .ok (value, none)
    | some b => ∃ proof its, res = .ok (value, some proof) ∧
        proof.items = its ++ b.items.reverse ∧ Climbs digest d t rest value proof its

/-- Going on at a reference to the tree finds what is in the tree. -/
def Finds (digest : List Byte → CryptoHash) (A : Type) [LawfulAllocator A RawNode]
    (t : Tree) : Prop :=
  ∀ {d : Nat} {a : A} {cells : NodeCells} {ref : Ref} {key : Slice} {builder : Option Builder},
    Rep digest d ref t cells → InBase (cell a) cells → key.offset = U3.wrap d →
    Found digest d t key.bits builder (getLoop.afterChild digest a key ref builder)

theorem Found.push {t c : Tree} (d' : Nat) {rest rest' : List Bool} {builder : Option Builder}
    {item : Item} {res : Result (Option CryptoHash × Option Proof)} (hget : t.get rest = c.get rest')
    (hclimb : ∀ value proof its, Climbs digest d' c rest' value proof its →
      Climbs digest d t rest value proof (its ++ [item]))
    (h : Found digest d' c rest' (builder.map (·.push item)) res) :
    Found digest d t rest builder res := by
  unfold Found at *
  rw [hget]
  cases hg : c.get rest' with
  | error e =>
    rw [hg] at h
    exact h
  | ok value =>
    rw [hg] at h
    cases builder with
    | none => exact h
    | some b =>
      obtain ⟨proof, its, hres, hitems, hc⟩ := h
      refine ⟨proof, its ++ [item], hres, ?_, hclimb value proof its hc⟩
      simp [hitems, Builder.push]

/-- A lookup which ends at the tree without going through any further node. -/
theorem found_here {t : Tree} {rest : List Bool} {value : Option CryptoHash}
    {builder : Option Builder} {make : Builder → Proof} (hget : t.get rest = .ok value)
    (hitems : ∀ b, (make b).items = b.items.reverse)
    (hclimb : ∀ b, Climbs digest d t rest value (make b) []) :
    Found digest d t rest builder (.ok (value, builder.map make)) := by
  unfold Found
  rw [hget]
  cases builder with
  | none => rfl
  | some b => exact ⟨make b, [], rfl, by simp [hitems], hclimb b⟩

theorem climbs_branch_end {l r : Tree} {lref rref : Ref} {lcells rcells : NodeCells}
    (hl : Rep digest (d + 1) lref l lcells) (hr : Rep digest (d + 1) rref r rcells) (b : Builder) :
    Climbs digest d (.branch l r) [] none (b.reversed.reachedBranch lref rref) [] := by
  intro s pre ho hb hlen
  refine ⟨s, _, s, rfl, ?_, ho, by rw [hb, List.append_nil]⟩
  simp only [climb, OwnedRef.toNode, Node.hash, preimage_branch, parts_toReference,
    OwnedRef.ofReference, Option.some.injEq, Prod.mk.injEq, true_and]
  rw [hl.parts_eq, hr.parts_eq]
  rfl

theorem climbs_ext_end {c : Tree} {key : ExtKey} {cref : Ref} {ccells : NodeCells} {rest : Slice}
    (hoff : key.offset = U3.wrap d) (hc : Rep digest (d + key.bits.length) cref c ccells)
    (hno : ¬ key.bits <+: rest.bits) (b : Builder) :
    Climbs digest d (.ext key.bits c) rest.bits none
      (b.reversed.reachedExtension ⟨rest.length, rest.length_lt⟩ key cref) [] := by
  intro s pre ho hb hlen
  have hslen : s.length = pre.length + rest.length := by
    rw [← Slice.length_bits, hb, List.length_append, Slice.length_bits]
  obtain ⟨suffix, s', hpop, hbits, ho', hsb, hso⟩ :=
    Slice.popBackSlice_spec (show rest.length ≤ s.length by omega)
  have hcut : s.length - rest.length = pre.length := by omega
  rw [hcut, hb, List.take_left] at hbits
  rw [hcut, hb, List.drop_left] at hsb
  obtain ⟨key', hdec, hko, hkb⟩ := ExtKey.decode_encodeInto_take key 0#8
  have hstarts : ¬ suffix.startsWith key'.slice = true := by
    rw [Slice.startsWith_iff]
    rintro ⟨-, hp⟩
    rw [hsb, show key'.slice.bits = key.bits from hkb] at hp
    exact hno hp
  refine ⟨s', _, s', ?_, rfl, ho'.trans ho, hbits⟩
  simp only [Proof.start, Builder.reachedExtension, Builder.negative, Option.bind_some,
    actualReference, actualNode, hpop, hdec]
  rw [if_neg hstarts]
  simp only [Option.map_some, Option.some.injEq, Prod.mk.injEq, true_and]
  rw [OwnedRef.toNode, Node.hash, preimage_extension, parts_toReference, hko, hkb, hoff]
  simp only [OwnedRef.ofReference, hc.parts_eq]
  rfl

theorem climbs_value_end {s : Bool} {h : CryptoHash} {rest : Slice} {len : NonZeroU16}
    (hlen : len.get = rest.length) (b : Builder) :
    Climbs digest d (.value s h) rest.bits none (b.reversed.lookupKeyLeft len h) [] := by
  intro s₀ pre ho hb hpre
  have hslen : s₀.length = pre.length + rest.length := by
    rw [← Slice.length_bits, hb, List.length_append, Slice.length_bits]
  obtain ⟨suffix, s', hpop, hbits, ho', -, -⟩ :=
    Slice.popBackSlice_spec (show len.get ≤ s₀.length by omega)
  have hcut : s₀.length - len.get = pre.length := by omega
  rw [hcut, hb, List.take_left] at hbits
  refine ⟨s', _, s', ?_, rfl, ho'.trans ho, hbits⟩
  simp only [Proof.start, Builder.lookupKeyLeft, Builder.negative, Option.bind_some,
    actualReference, hpop, Option.map_some]
  rfl

theorem found_branch {l r : Tree} (hl : Finds digest A l) (hr : Finds digest A r)
    {p : Ptr} {hash : CryptoHash} {lref rref : Ref} {lcells rcells : NodeCells} {key : Slice}
    {builder : Option Builder} (hlrep : Rep digest (d + 1) lref l lcells)
    (hrrep : Rep digest (d + 1) rref r rcells) (hbase : InBase (cell a) (lcells + rcells))
    (hread : readNode digest a p hash = .ok (.branch lref rref)) (ho : key.offset = U3.wrap d) :
    Found digest d (.branch l r) key.bits builder (getLoop digest a key (some p) hash builder) := by
  obtain ⟨hpop, hnil⟩ | ⟨bit, key', hpop, hbits, ho'⟩ := popFront_cases ho
  · rw [getLoop_branch_end hread hpop, hnil]
    exact found_here rfl (fun b => rfl) (climbs_branch_end hlrep hrrep)
  · rw [getLoop_branch hread hpop, hbits]
    cases bit with
    | false =>
      refine Found.push (c := l) (d + 1) rfl ?_ (hl hlrep hbase.left ho')
      intro value proof its hc
      have := Climbs.branch (l := l) (r := r) false hc
      rwa [← show rref.parts = (if false = true then l else r).parts digest (d + 1) from
        hrrep.parts_eq] at this
    | true =>
      refine Found.push (c := r) (d + 1) rfl ?_ (hr hrrep hbase.right ho')
      intro value proof its hc
      have := Climbs.branch (l := l) (r := r) true hc
      rwa [← show lref.parts = (if true = true then l else r).parts digest (d + 1) from
        hlrep.parts_eq] at this

theorem found_ext {c : Tree} (hc : Finds digest A c) {p : Ptr} {hash : CryptoHash}
    {extKey : ExtKey} {cref : Ref} {ccells : NodeCells} {key : Slice} {builder : Option Builder}
    (hext : extKey.offset = U3.wrap d)
    (hcrep : Rep digest (d + extKey.bits.length) cref c ccells) (hbase : InBase (cell a) ccells)
    (hread : readNode digest a p hash = .ok (.extension extKey cref))
    (ho : key.offset = U3.wrap d) :
    Found digest d (.ext extKey.bits c) key.bits builder
      (getLoop digest a key (some p) hash builder) := by
  obtain ⟨hstrip, hno⟩ | ⟨key', hstrip, hbits, ho'⟩ := stripPrefix_cases ho hext
  · rw [getLoop_ext_end hread hstrip]
    exact found_here (by simp only [Tree.get, if_neg hno]) (fun b => rfl)
      (climbs_ext_end hext hcrep hno)
  · rw [getLoop_ext hread hstrip, hbits]
    refine Found.push (c := c) (d + extKey.bits.length) ?_ ?_ (hc hcrep hbase ho')
    · simp only [Tree.get, List.prefix_append, if_true, List.drop_left]
    · intro value proof its hcl
      exact hcl.ext hext (Slice.length_bits _).symm

theorem found_node {t : Tree} (hsub : ∀ c ∈ t.children, Finds digest A c)
    {nref : NodeRef (Option Ptr)} {key : Slice} {builder : Option Builder}
    (hrep : Rep digest d (.node nref) t cells) (hbase : InBase (cell a) cells)
    (ho : key.offset = U3.wrap d) :
    Found digest d t key.bits builder (getLoop digest a key nref.ptr nref.hash builder) := by
  cases hrep with
  | pruned hhash => exact getLoop_none digest a key builder _
  | branch hhash hl hr =>
    have hget := LawfulAllocator.get_of_cell hbase.head
    exact found_branch (hsub _ (by simp [Tree.children])) (hsub _ (by simp [Tree.children])) hl hr
      hbase.right (readNode_branch hget (Rep.hash_branch hhash hl hr)) ho
  | ext hhash hoff hc =>
    have hget := LawfulAllocator.get_of_cell hbase.head
    obtain ⟨key', hread, ho', hb'⟩ := readNode_ext hget (Rep.hash_ext hhash hoff hc)
    rw [← hb'] at hc ⊢
    exact found_ext (hsub _ (by simp [Tree.children])) (ho'.trans hoff) hc hbase.right hread ho

theorem finds (t : Tree) : Finds digest A t := by
  have hnode : ∀ {t : Tree}, (∀ c ∈ t.children, Finds digest A c) →
      (∀ s h, t ≠ .value s h) → Finds digest A t := by
    intro t hsub hnv d a cells ref key builder hrep hbase ho
    cases ref with
    | value vref => cases hrep; exact absurd rfl (hnv _ _)
    | node nref =>
      rw [getLoop.afterChild_node]
      exact found_node hsub hrep hbase ho
  induction t with
  | value s h₀ =>
    intro d a cells ref key builder hrep hbase ho
    cases hrep
    rw [getLoop.afterChild_value]
    cases s with
    | true => rfl
    | false =>
      by_cases hk : key.bits = []
      · have hnew : NonZeroU16.new key.length = none := by
          rw [NonZeroU16.new, dif_neg]
          simp [Slice.bits_eq_nil.mp hk]
        simp only [hnew, hk]
        refine found_here (by rfl) (fun b => rfl) fun b s pre ho' hb _ => ?_
        exact ⟨s, _, s, rfl, rfl, ho', by rw [hb, List.append_nil]⟩
      · have hlen : key.length ≠ 0 ∧ key.length < 2 ^ 16 :=
          ⟨fun hz => hk (Slice.bits_eq_nil.mpr hz), key.length_lt⟩
        have hnew : NonZeroU16.new key.length = some ⟨key.length, hlen.1, hlen.2⟩ := dif_pos hlen
        simp only [hnew]
        exact found_here (by simp only [Tree.get, if_neg hk]; rfl) (fun b => rfl)
          (climbs_value_end rfl)
  | pruned l r => exact hnode (by simp [Tree.children]) (by simp)
  | branch l r ihl ihr => exact hnode (by simp [Tree.children, ihl, ihr]) (by simp)
  | ext key child ih => exact hnode (by simp [Tree.children, ih]) (by simp)

end SealableTrie
