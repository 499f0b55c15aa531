import EmulatedLightClient.ProofSoundness

/-!
# Accepted proofs agree under any root

Whether or not a trie with the root is known, nodes can only be left in one way by each key. So two proofs which
are accepted for one key say the same.
-/

namespace TrieProof

open ByteBits Bits Nodes SealableTrie

variable {digest : List Byte → CryptoHash} {S : Set (List Byte)} {d : Nat} {x y z : Bool × CryptoHash} {path rest : List Bool}

/-- Following nodes which have been hashed along the path leads from one reference, found at the given depth, to
the other. -/
inductive Down (digest : List Byte → CryptoHash) (S : Set (List Byte)) :
    Nat → Bool × CryptoHash → List Bool → Bool × CryptoHash → Prop
  | here {d : Nat} {x : Bool × CryptoHash} : Down digest S d x [] x
  | side {d : Nat} {left right y : Bool × CryptoHash} {bit : Bool} {path : List Bool} (hin : branchPreimage left right ∈ S)
      (h : Down digest S (d + 1) (if bit then right else left) path y) :
      Down digest S d (false, digest (branchPreimage left right)) (bit :: path) y
  | ext {d : Nat} {key : ExtKey} {child y : Bool × CryptoHash} {path : List Bool}
      (hin : extPreimage key.offset key.bits child ∈ S) (ho : key.offset = U3.wrap d)
      (h : Down digest S (d + key.bits.length) child path y) :
      Down digest S d (false, digest (extPreimage key.offset key.bits child)) (key.bits ++ path) y

namespace Down

theorem trans (h : Down digest S d x path y) (h' : Down digest S (d + path.length) y rest z) :
    Down digest S d x (path ++ rest) z := by
  induction h with
  | here => exact h'
  | @side d left right y bit path hin _ ih =>
    refine .side hin (ih ?_)
    rw [List.length_cons] at h'
    rwa [Nat.add_assoc, Nat.add_comm 1]
  | @ext d key child y path hin ho _ ih =>
    rw [List.append_assoc]
    refine .ext hin ho (ih ?_)
    rw [List.length_append] at h'
    rwa [Nat.add_assoc]

theorem extKey_bits_ne (key : ExtKey) : key.bits ≠ [] := by
  intro h
  have hlen : key.bits.length = key.slice.length := Slice.length_bits _
  rw [h] at hlen
  exact key.nonempty hlen.symm

/-- Nothing is below a value. -/
theorem of_value {hash : CryptoHash} (h : Down digest S d (true, hash) path y) : path = [] ∧ y = (true, hash) := by
  cases h
  exact ⟨rfl, rfl⟩

theorem of_branch (hinj : Set.InjOn digest S) {left right : Bool × CryptoHash} (hin : branchPreimage left right ∈ S)
    (h : Down digest S d (false, digest (branchPreimage left right)) path y) :
    path = [] ∧ (false, digest (branchPreimage left right)) = y ∨
      ∃ bit rest, path = bit :: rest ∧ Down digest S (d + 1) (if bit then right else left) rest y := by
  generalize hx : (false, digest (branchPreimage left right)) = x at h
  cases h with
  | here => exact .inl ⟨rfl, rfl⟩
  | side hin' h =>
    obtain ⟨rfl, rfl⟩ := branchPreimage_inj (hinj hin hin' (Prod.ext_iff.mp hx).2)
    exact .inr ⟨_, _, rfl, h⟩
  | @ext d key child y path hin' ho h =>
    exact absurd (hinj hin hin' (Prod.ext_iff.mp hx).2) (branchPreimage_ne_extPreimage key.num_lt)

theorem of_ext (hinj : Set.InjOn digest S) {key : ExtKey} {child : Bool × CryptoHash}
    (hin : extPreimage key.offset key.bits child ∈ S)
    (h : Down digest S d (false, digest (extPreimage key.offset key.bits child)) path y) :
    path = [] ∧ (false, digest (extPreimage key.offset key.bits child)) = y ∨
      ∃ rest, path = key.bits ++ rest ∧ key.offset = U3.wrap d ∧ Down digest S (d + key.bits.length) child rest y := by
  generalize hx : (false, digest (extPreimage key.offset key.bits child)) = x at h
  cases h with
  | here => exact .inl ⟨rfl, rfl⟩
  | side hin' h =>
    exact absurd (hinj hin hin' (Prod.ext_iff.mp hx).2).symm (branchPreimage_ne_extPreimage key.num_lt)
  | @ext d key' child' y path hin' ho h =>
    obtain ⟨hoffset, hbits, rfl⟩ := extPreimage_inj key.num_lt key'.num_lt (hinj hin hin' (Prod.ext_iff.mp hx).2)
    refine .inr ⟨path, ?_, hoffset.trans ho, ?_⟩
    · rw [hbits]
    · rwa [hbits]

/-- The way along a path goes through whatever is found along its beginning. -/
theorem strip (hinj : Set.InjOn digest S) (h : Down digest S d x path y) (h' : Down digest S d x (path ++ rest) z) :
    Down digest S (d + path.length) y rest z := by
  induction h with
  | here => exact h'
  | @side d left right y bit path hin _ ih =>
    rcases of_branch hinj hin h' with ⟨hnil, -⟩ | ⟨bit', rest', heq, h'⟩
    · cases hnil
    · obtain ⟨rfl, rfl⟩ := List.cons.inj heq
      have hstrip := ih h'
      rwa [List.length_cons, Nat.add_comm path.length, ← Nat.add_assoc]
  | @ext d key child y path hin ho _ ih =>
    rcases of_ext hinj hin h' with ⟨hnil, -⟩ | ⟨rest', heq, -, h'⟩
    · exact absurd (List.append_eq_nil_iff.mp (List.append_eq_nil_iff.mp hnil).1).1 (extKey_bits_ne key)
    · rw [List.append_assoc] at heq
      obtain rfl := List.append_cancel_left heq
      have hstrip := ih h'
      rwa [List.length_append, ← Nat.add_assoc]

end Down

def OwnedRef.parts (rf : OwnedRef) : Bool × CryptoHash := (rf.isValue, rf.hash)

theorem popBack_offset {s s' : Slice} {bit : Bool} (h : s.popBack = some (bit, s')) : s'.offset = s.offset := by
  unfold Slice.popBack at h
  split at h
  · cases h
  · cases h
    rfl

theorem popBackSlice_offset {s s' tail : Slice} {n : Nat} (h : s.popBackSlice n = some (tail, s')) :
    s'.offset = s.offset := by
  unfold Slice.popBackSlice Slice.splitAt at h
  split at h
  · obtain ⟨⟨front, back⟩, hsplit, heq⟩ := Option.map_eq_some_iff.mp h
    cases heq
    rw [dif_pos (Nat.sub_le _ _)] at hsplit
    cases hsplit
    rfl
  · cases h

theorem parts_toNode (node : Node Unit Unit) :
    (OwnedRef.toNode digest node).parts = (false, digest node.preimage) := rfl

theorem itemNode_down {s s₁ : Slice} {want : OwnedRef} {item : Item} {node : Node Unit Unit} (ho : s.offset = 0)
    (hitem : itemNode s want item = some (s₁, node)) (hin : node.preimage ∈ S) :
    s₁.offset = 0 ∧ ∃ rest, s.bits = s₁.bits ++ rest ∧
      Down digest S s₁.bits.length (OwnedRef.toNode digest node).parts rest want.parts := by
  cases item with
  | branch child =>
    simp only [itemNode, Option.map_eq_some_iff, Prod.exists, Prod.mk.injEq] at hitem
    obtain ⟨bit, s', hpop, rfl, rfl⟩ := hitem
    refine ⟨(popBack_offset hpop).trans ho, [bit], Slice.popBack_inv hpop, ?_⟩
    rw [parts_toNode]
    cases bit with
    | false =>
      simp only [Bool.false_eq_true, if_false, preimage_branch, parts_toReference] at hin ⊢
      exact .side hin .here
    | true =>
      simp only [if_true, preimage_branch, parts_toReference] at hin ⊢
      exact .side hin .here
  | extension length =>
    simp only [itemNode, Option.bind_eq_some_iff, Option.map_eq_some_iff, Prod.exists, Prod.mk.injEq] at hitem
    obtain ⟨suffix, s', hpop, key, hkey, rfl, rfl⟩ := hitem
    obtain ⟨hbits, -, hoff⟩ := Slice.popBackSlice_inv hpop
    have hslice : key.slice = suffix := by
      unfold ExtKey.tryFrom at hkey
      split at hkey
      · cases hkey
      · split at hkey
        · cases hkey
        · cases hkey
          rfl
    have hkb : key.bits = suffix.bits := congrArg Slice.bits hslice
    have hko : key.offset = U3.wrap s'.bits.length := by
      rw [show key.offset = suffix.offset from congrArg Slice.offset hslice]
      apply offset_wrap
      rw [hoff, ho, Fin.val_zero, Nat.zero_add]
    rw [preimage_extension, parts_toReference] at hin
    refine ⟨(popBackSlice_offset hpop).trans ho, key.bits ++ [], ?_, ?_⟩
    · rw [List.append_nil, hkb, hbits]
    · rw [parts_toNode, preimage_extension, parts_toReference]
      exact .ext hin hko .here

theorem climb_down {items : List Item} {s s' : Slice} {want : OwnedRef} {root : CryptoHash} (ho : s.offset = 0)
    (hclimb : climb digest s want items = some (s', OwnedRef.node root)) (hnil : s'.bits = [])
    (hin : ∀ b ∈ climbHashed digest s want items, b ∈ S) : Down digest S 0 (false, root) s.bits want.parts := by
  induction items generalizing s want with
  | nil =>
    simp only [climb, Option.some.injEq, Prod.mk.injEq] at hclimb
    obtain ⟨rfl, rfl⟩ := hclimb
    rw [hnil]
    exact .here
  | cons item items ih =>
    simp only [climb] at hclimb
    cases hitem : itemNode s want item with
    | none =>
      rw [hitem] at hclimb
      cases hclimb
    | some r =>
      obtain ⟨s₁, node⟩ := r
      rw [hitem] at hclimb
      simp only [climbHashed, hitem] at hin
      obtain ⟨ho₁, rest, hbits, hlast⟩ := itemNode_down ho hitem (hin _ (List.mem_cons_self ..))
      have hfirst := ih ho₁ hclimb fun b hb => hin b (List.mem_cons_of_mem _ hb)
      rw [hbits]
      refine hfirst.trans ?_
      rwa [Nat.zero_add]

theorem actualReference_offset {s s₁ : Slice} {want : OwnedRef} {actual : Actual} (ho : s.offset = 0)
    (hact : actualReference digest s actual = some (s₁, want)) : s₁.offset = 0 := by
  cases actual with
  | branch left right =>
    simp only [actualReference, actualNode, Option.map_some, Option.some.injEq, Prod.mk.injEq] at hact
    obtain ⟨rfl, -⟩ := hact
    exact ho
  | extension left keyBuf child =>
    simp only [actualReference, Option.map_eq_some_iff, Prod.exists, Prod.mk.injEq] at hact
    obtain ⟨s₂, node, hnode, rfl, -⟩ := hact
    simp only [actualNode, Option.bind_eq_some_iff, Prod.exists] at hnode
    obtain ⟨suffix, s₃, hpop, key, -, hif⟩ := hnode
    split at hif
    · cases hif
    · cases hif
      exact (popBackSlice_offset hpop).trans ho
  | lookupKeyLeft len hash =>
    simp only [actualReference, Option.map_eq_some_iff, Prod.exists, Prod.mk.injEq] at hact
    obtain ⟨suffix, s₂, hpop, rfl, -⟩ := hact
    exact (popBackSlice_offset hpop).trans ho

/-- What the lookup has run into leaves no way to a value. -/
theorem actual_excludes (hinj : Set.InjOn digest S) {s s₁ : Slice} {want : OwnedRef} {actual : Actual} (ho : s.offset = 0)
    (hact : actualReference digest s actual = some (s₁, want)) (hin : ∀ r ∈ actualNode s actual, r.2.preimage ∈ S)
    (h : Down digest S 0 x s₁.bits want.parts) (hash : CryptoHash) : ¬ Down digest S 0 x s.bits (true, hash) := by
  intro hvalue
  cases actual with
  | branch left right =>
    simp only [actualReference, actualNode, Option.map_some, Option.some.injEq, Prod.mk.injEq] at hact
    obtain ⟨rfl, rfl⟩ := hact
    have hin := hin _ rfl
    rw [← List.append_nil s.bits] at hvalue
    have hbelow := h.strip hinj hvalue
    rw [parts_toNode, preimage_branch] at hbelow
    rcases hbelow.of_branch hinj hin with ⟨-, heq⟩ | ⟨bit, rest, hnil, -⟩
    · cases heq
    · cases hnil
  | extension left keyBuf child =>
    simp only [actualReference, Option.map_eq_some_iff, Prod.exists, Prod.mk.injEq] at hact
    obtain ⟨s₂, node, hnode, rfl, rfl⟩ := hact
    have hin := hin _ hnode
    simp only [actualNode, Option.bind_eq_some_iff, Prod.exists] at hnode
    obtain ⟨suffix, s₃, hpop, key, hdec, hif⟩ := hnode
    split at hif
    · cases hif
    · rename_i hstarts
      simp only [Option.some.injEq, Prod.mk.injEq] at hif
      obtain ⟨rfl, rfl⟩ := hif
      obtain ⟨hbits, -, hoff⟩ := Slice.popBackSlice_inv hpop
      rw [hbits] at hvalue
      have hbelow := h.strip hinj hvalue
      rw [preimage_extension] at hin
      rw [parts_toNode, preimage_extension] at hbelow
      rcases hbelow.of_ext hinj hin with ⟨-, heq⟩ | ⟨rest, hsuffix, hko, -⟩
      · cases heq
      · refine hstarts (Slice.startsWith_iff.mpr ⟨?_, hsuffix ▸ List.prefix_append _ _⟩)
        rw [show key.slice.offset = key.offset from rfl, hko]
        apply offset_wrap
        rw [hoff, ho, Fin.val_zero]
  | lookupKeyLeft len hash' =>
    simp only [actualReference, Option.map_eq_some_iff, Prod.exists, Prod.mk.injEq] at hact
    obtain ⟨suffix, s₂, hpop, rfl, rfl⟩ := hact
    obtain ⟨hbits, hlen, -⟩ := Slice.popBackSlice_inv hpop
    rw [hbits] at hvalue
    obtain ⟨hnil, -⟩ := (h.strip hinj hvalue).of_value
    rw [hnil] at hlen
    exact len.nonzero hlen.symm

/-- There is a way to the value along the key, or to no value at all if there is none. -/
def LeadsTo (digest : List Byte → CryptoHash) (S : Set (List Byte)) (root : CryptoHash) (key : List Bool) :
    Option CryptoHash → Prop
  | some hash => Down digest S 0 (false, root) key (true, hash)
  | none => ∀ hash, ¬ Down digest S 0 (false, root) key (true, hash)

theorem LeadsTo.agree (hinj : Set.InjOn digest S) {root : CryptoHash} {key : List Bool} {value value' : Option CryptoHash}
    (h : LeadsTo digest S root key value) (h' : LeadsTo digest S root key value') : value = value' := by
  cases value with
  | none =>
    cases value' with
    | none => rfl
    | some hash => exact absurd h' (h hash)
  | some hash =>
    cases value' with
    | none => exact absurd h (h' hash)
    | some hash' =>
      rw [LeadsTo] at h h'
      rw [← List.append_nil key] at h'
      obtain ⟨-, heq⟩ := (h.strip hinj h').of_value
      cases heq
      rfl

theorem bitsOf_of_fromBytes {key : List Byte} {s : Slice} (h : Slice.fromBytes key = some s) :
    s.offset = 0 ∧ s.bits = bitsOf key := by
  by_cases hlen : key.length * 8 < 2 ^ 16
  · obtain ⟨s', hs', ho, hb⟩ := Slice.fromBytes_spec hlen
    cases h.symm.trans hs'
    exact ⟨ho, hb⟩
  · rw [Slice.fromBytes, dif_neg hlen] at h
    cases h

theorem verify_leadsTo (hinj : Set.InjOn digest S) {root : CryptoHash} (hroot : root ≠ CryptoHash.default) {key : List Byte}
    {proof : Proof} {value : Option CryptoHash} (hin : ∀ b ∈ proof.hashed digest key value, b ∈ S)
    (hv : proof.verify digest root key value = true) : LeadsTo digest S root (bitsOf key) value := by
  obtain ⟨s, s₁, want, s', hs, hstart, hclimb, hnil⟩ := (verify_iff hroot).mp hv
  obtain ⟨ho, hbits⟩ := bitsOf_of_fromBytes hs
  simp only [Proof.hashed, hs, hstart, List.mem_append] at hin
  rw [← hbits]
  cases proof with
  | positive p =>
    cases value with
    | none => cases hstart
    | some hash =>
      simp only [Proof.start, Option.some.injEq, Prod.mk.injEq] at hstart
      obtain ⟨rfl, rfl⟩ := hstart
      exact climb_down ho hclimb hnil fun b hb => hin b (Or.inr hb)
  | negative p =>
    cases value with
    | some hash => cases hstart
    | none =>
      obtain ⟨actual, items⟩ := p
      simp only [Proof.start, Option.bind_eq_some_iff] at hstart
      obtain ⟨actual, rfl, hact⟩ := hstart
      have hdown := climb_down (actualReference_offset ho hact) hclimb hnil fun b hb => hin b (Or.inr hb)
      refine actual_excludes hinj ho hact ?_ hdown
      intro r hr
      refine hin _ (Or.inl ?_)
      rw [Option.mem_def] at hr
      simp [hr]

theorem verify_default {proof : Proof} {key : List Byte} {value : Option CryptoHash}
    (hv : proof.verify digest CryptoHash.default key value = true) : value = none := by
  cases proof with
  | positive p => cases value <;> cases hv
  | negative p =>
    cases value with
    | none => rfl
    | some hash => cases hv

/-- Two proofs which are accepted for one key under one root, whatever it is, are for the same value or both
for there being none. -/
theorem verify_agree (hinj : Set.InjOn digest S) {root : CryptoHash} {key : List Byte} {proof proof' : Proof}
    {value value' : Option CryptoHash} (hin : ∀ b ∈ proof.hashed digest key value, b ∈ S)
    (hin' : ∀ b ∈ proof'.hashed digest key value', b ∈ S) (hv : proof.verify digest root key value = true)
    (hv' : proof'.verify digest root key value' = true) : value = value' := by
  by_cases hroot : root = CryptoHash.default
  · subst hroot
    rw [verify_default hv, verify_default hv']
  · exact (verify_leadsTo hinj hroot hin hv).agree hinj (verify_leadsTo hinj hroot hin' hv')

end TrieProof
