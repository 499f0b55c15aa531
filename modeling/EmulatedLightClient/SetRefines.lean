import EmulatedLightClient.Represent
import EmulatedLightClient.TrieSet

/-!
# Setting a value does what it does on trees

On a reference which stands for a tree the operation ends with a reference to
the updated tree, with the error the tree gives, or out of memory. The blocks
of everything else stay as they are.
-/

namespace SealableTrie

open ByteBits Bits Nodes Memory ListPrefix FailingState FailingState.Op HeapOwnership

variable {digest : List Byte → CryptoHash} {A : Type} [LawfulAllocator A RawNode]
  {base : Ptr → Option RawNode} {n d : Nat} {w : WriteLog A RawNode} {cells frame : NodeCells}
  {v : CryptoHash}

/-- How an operation may fail: as the tree does, or, where the tree does not fail
and fewer than `k` requests are certain to be served, out of memory. -/
def Refused {α : Type} (base : Ptr → Option RawNode) (n k : Nat) (expected : Except Error α)
    (e : Failure) (w : WriteLog A RawNode) : Prop :=
  WriteLog.Pending base w ∧
    ((e = .err .outOfMemory ∧ n < k ∧ ∃ x, expected = .ok x) ∨
      ∃ err, e = .err err ∧ expected = .error err)

theorem Refused.map {α β : Type} {k : Nat} {r : Except Error α} {r' : Except Error β}
    {f : α → β} {e : Failure} (h : Refused base n k r e w) (hr : r' = r.map f) :
    Refused base n k r' e w := by
  obtain ⟨hpend, ⟨he, hn, x, hx⟩ | ⟨err, he, herr⟩⟩ := h
  · exact ⟨hpend, Or.inl ⟨he, hn, f x, by rw [hr, hx]; rfl⟩⟩
  · exact ⟨hpend, Or.inr ⟨err, he, by rw [hr, herr]; rfl⟩⟩

namespace Set

theorem ends_setNode {p : Ptr} {raw raw' : RawNode} {pre : List Byte}
    {bad : Failure → WriteLog A RawNode → Prop} (hraw : Decodes raw' pre)
    (h : Holds base n w ({(p, raw)} + cells)) :
    Ends (setNode digest p raw') w
      (fun res w' => res = (p, digest pre) ∧ Holds base n w' ({(p, raw')} + cells)) bad := by
  obtain ⟨node, hdec, rfl⟩ := hraw
  simp only [setNode, hdec]
  exact (ends_set h).bind fun _ w' hw => ends_pure ⟨rfl, hw⟩

theorem ends_allocNode {raw : RawNode} {pre : List Byte} (hraw : Decodes raw pre)
    (h : Holds base n w cells) :
    Ends (allocNode digest raw) w
      (fun res w' => res.2 = digest pre ∧ Holds base (n - 1) w' ({(res.1, raw)} + cells))
      (fun e w' => e = .err .outOfMemory ∧ WriteLog.Pending base w' ∧ n = 0) := by
  obtain ⟨node, hdec, rfl⟩ := hraw
  simp only [allocNode, hdec]
  exact (ends_alloc h raw).bind fun p w' hw => ends_pure ⟨rfl, hw⟩

/-- The reference `insertChunks` goes on from. -/
def chunkRef (ptr : Option Ptr) (hash : CryptoHash) : Ref :=
  match ptr with
  | none => .value ⟨false, hash⟩
  | some _ => .node ⟨ptr, hash⟩

theorem ends_insertChunks {bits : List Bool} {keys : List ExtKey} {ptr : Option Ptr}
    {hash : CryptoHash} {t : Tree} (hkeys : Chunks d bits keys)
    (hrep : Rep digest (d + bits.length) (chunkRef ptr hash) t cells)
    (h : Holds base n w (cells + frame)) :
    Ends (insertChunks digest keys ptr hash) w
      (fun o w' => ∃ cells', Rep digest d o.toRef (Tree.chain d bits t) cells' ∧
        Holds base (n - keys.length) w' (cells' + frame))
      (fun e w' => e = .err .outOfMemory ∧ WriteLog.Pending base w' ∧ n < keys.length) := by
  induction hkeys generalizing ptr hash t cells n w with
  | nil =>
    rw [Tree.chain_nil]
    cases ptr with
    | none => exact ends_pure ⟨cells, hrep, h⟩
    | some p => exact ends_pure ⟨cells, hrep, h⟩
  | @cons front key rest hcut hoff _ ih =>
    rw [Tree.chain_append t key.bits_ne_nil hcut]
    unfold insertChunks
    change Ends (allocNode digest (RawNode.extension key (chunkRef ptr hash)) >>= _) w _ _
    refine Ends.bind ((ends_allocNode (decodes_extension key _) h).mono (fun _ _ hg => hg) ?_) ?_
    · rintro e w' ⟨he, hp, hn⟩
      refine ⟨he, hp, ?_⟩
      rw [List.length_cons]
      omega
    · rintro ⟨p, hash'⟩ w' ⟨hh, hw⟩
      dsimp only at hh hw
      subst hh
      rw [List.length_append, ← Nat.add_assoc] at hrep
      rw [← add_assoc] at hw
      have href : chunkRef (some p) (digest (extPreimage key.offset key.bits
          (chunkRef ptr hash).parts)) = .node ⟨some p, _⟩ := rfl
      refine (ih (href ▸ rep_ext hoff rfl hrep) hw).mono ?_ ?_
      · rintro o w'' ⟨cells', hr, hh⟩
        refine ⟨cells', hr, ?_⟩
        rwa [List.length_cons, Nat.add_comm, ← Nat.sub_sub]
      · rintro e w'' ⟨he, hp, hn⟩
        refine ⟨he, hp, ?_⟩
        rw [List.length_cons]
        omega

theorem ends_insertValue {key : Slice} (ho : key.offset = U3.wrap d)
    (h : Holds base n w frame) :
    Ends (insertValue digest key v) w
      (fun o w' => ∃ cells',
        Rep digest d o.toRef (Tree.chain d key.bits (.value false v)) cells' ∧
        Holds base (n - key.chunksRev.length) w' (cells' + frame))
      (fun e w' => e = .err .outOfMemory ∧ WriteLog.Pending base w' ∧
        n < key.chunksRev.length) := by
  unfold insertValue
  have hvalue : Rep digest (d + key.bits.length) (chunkRef none v) (.value false v) 0 := .value
  apply ends_insertChunks (chunks_chunksRev fun _ => ho) hvalue
  rwa [zero_add]

/-- Number of requests which is enough for a key ending at given depth. -/
def budget (m : Nat) : Nat := (m + 271) / 272 + 2

theorem chunksRev_le {key : Slice} (ho : key.offset = U3.wrap d) :
    key.chunksRev.length ≤ (d + key.bits.length + 271) / 272 := by
  have := (chunks_chunksRev (s := key) fun _ => ho).length_le
  omega

theorem tryFrom_cases {slice : Slice}
    (hfits : bytesLen slice.offset slice.length ≤ maxExtensionKeySize) :
    (ExtKey.tryFrom slice = .error .empty ∧ slice.bits = []) ∨
      ∃ key, ExtKey.tryFrom slice = .ok key ∧ key.slice = slice := by
  unfold ExtKey.tryFrom
  by_cases h : slice.length = 0
  · exact Or.inl ⟨dif_pos h, Slice.bits_eq_nil.mpr h⟩
  · rw [dif_neg h, dif_neg (by omega)]
    exact Or.inr ⟨_, rfl, rfl⟩

theorem ends_theirRef {suffix : Slice} {cref : Ref} {c : Tree} {ccells : NodeCells}
    (hfits : bytesLen suffix.offset suffix.length ≤ maxExtensionKeySize)
    (ho : suffix.offset = U3.wrap d)
    (hrep : Rep digest (d + suffix.bits.length) cref c ccells)
    (h : Holds base n w (ccells + frame)) :
    Ends (theirRef digest suffix cref) w
      (fun r w' => ∃ cells', Rep digest d r (.prepend suffix.bits c) cells' ∧
        Holds base (n - 1) w' (cells' + frame))
      (fun e w' => e = .err .outOfMemory ∧ WriteLog.Pending base w' ∧ n = 0) := by
  unfold theirRef
  obtain ⟨htry, hnil⟩ | ⟨key, htry, rfl⟩ := tryFrom_cases hfits
  · rw [htry]
    rw [hnil] at hrep ⊢
    exact ends_pure ⟨ccells, hrep, h.pending, h.owns, h.serves.mono (Nat.sub_le n 1)⟩
  · rw [htry]
    refine (ends_allocNode (decodes_extension key cref) h).bind ?_
    rintro ⟨p, hash⟩ w' ⟨hh, hw⟩
    dsimp only at hh hw
    subst hh
    refine ends_pure ⟨_, ?_, by rwa [← add_assoc] at hw⟩
    have hprep : Tree.prepend key.bits c = .ext key.bits c := by
      cases hb : key.bits with
      | nil => exact absurd hb key.bits_ne_nil
      | cons bit bits => rfl
    exact hprep ▸ rep_ext ho rfl hrep

/-- The reference stands for the tree the operation was expected to give. -/
def NodeDone (digest : List Byte → CryptoHash) (base : Ptr → Option RawNode) (d : Nat)
    (frame : NodeCells) (expected : Except Error Tree) (res : Ptr × CryptoHash)
    (w : WriteLog A RawNode) : Prop :=
  ∃ t cells m, expected = .ok t ∧ Rep digest d (.node ⟨some res.1, res.2⟩) t cells ∧
    Holds base m w (cells + frame)

def RefDone (digest : List Byte → CryptoHash) (base : Ptr → Option RawNode) (d : Nat)
    (frame : NodeCells) (expected : Except Error Tree) (o : OwnedRef)
    (w : WriteLog A RawNode) : Prop :=
  ∃ t cells m, expected = .ok t ∧ Rep digest d o.toRef t cells ∧ Holds base m w (cells + frame)

/-- Handling a reference to the tree does what is done on the tree. -/
def Refines (digest : List Byte → CryptoHash) (A : Type) [LawfulAllocator A RawNode]
    (v : CryptoHash) (t : Tree) : Prop :=
  ∀ {base : Ptr → Option RawNode} {n d : Nat} {w : WriteLog A RawNode}
    {cells frame : NodeCells} {ref : Ref} {key : Slice}, Rep digest d ref t cells →
    InBase base cells → key.offset = U3.wrap d → Holds base n w (cells + frame) →
    Ends (handleReference digest key v ref) w (RefDone digest base d frame (t.set v d key.bits))
      (Refused base n (budget (d + key.bits.length)) (t.set v d key.bits))

/-- A branch whose child on the side of the bit has been updated is rewritten. -/
theorem ends_setBranch {p : Ptr} {raw : RawNode} (bit : Bool) {this oref : Ref} {t other : Tree}
    {tcells ocells : NodeCells} {bad : Failure → WriteLog A RawNode → Prop}
    (hthis : Rep digest (d + 1) this t tcells) (hother : Rep digest (d + 1) oref other ocells)
    (h : Holds base n w (tcells + ({(p, raw)} + (ocells + frame)))) :
    Ends (setNode digest p (if bit then RawNode.branch oref this else RawNode.branch this oref)) w
      (NodeDone digest base d frame (.ok (.join bit t other))) bad := by
  rw [add_left_comm] at h
  cases bit with
  | false =>
    refine (ends_setNode (decodes_branch this oref) h).mono ?_ fun _ _ hb => hb
    rintro ⟨q, hash⟩ w' ⟨hres, hw⟩
    cases hres
    exact ⟨_, _, n, rfl, rep_branch hthis hother, by
      rwa [add_assoc, add_assoc]⟩
  | true =>
    refine (ends_setNode (decodes_branch oref this) h).mono ?_ fun _ _ hb => hb
    rintro ⟨q, hash⟩ w' ⟨hres, hw⟩
    cases hres
    exact ⟨_, _, n, rfl, rep_branch hother hthis, by
      rwa [add_assoc, add_assoc, add_left_comm ocells]⟩

theorem ends_handleBranch {l r : Tree} (hl : Refines digest A v l) (hr : Refines digest A v r)
    {p : Ptr} {lref rref : Ref} {lcells rcells : NodeCells} {key : Slice}
    (hlrep : Rep digest (d + 1) lref l lcells) (hrrep : Rep digest (d + 1) rref r rcells)
    (hbase : InBase base (lcells + rcells)) (ho : key.offset = U3.wrap d)
    (h : Holds base n w ({(p, RawNode.branch lref rref)} + (lcells + rcells) + frame)) :
    Ends (handleBranch digest key v p lref rref) w
      (NodeDone digest base d frame ((Tree.branch l r).set v d key.bits))
      (Refused base n (budget (d + key.bits.length)) ((Tree.branch l r).set v d key.bits)) := by
  unfold handleBranch
  obtain ⟨hpop, hnil⟩ | ⟨bit, key', hpop, hbits, ho'⟩ := popFront_cases ho
  · split
    · rw [hnil]
      exact ends_fail ⟨h.pending, Or.inr ⟨_, rfl, rfl⟩⟩
    · rename_i hpop'
      rw [hpop] at hpop'
      cases hpop'
  · split
    · rename_i hpop'
      rw [hpop] at hpop'
      cases hpop'
    · rename_i bit₁ key₁ hpop'
      rw [hpop] at hpop'
      cases hpop'
      have hlen : d + key.bits.length = d + 1 + key'.bits.length := by
        rw [hbits, List.length_cons]
        omega
      rw [hlen, hbits]
      cases bit with
      | false =>
        rw [show ({(p, RawNode.branch lref rref)} + (lcells + rcells) + frame) =
          lcells + ({(p, RawNode.branch lref rref)} + (rcells + frame)) by
            ac_rfl] at h
        refine ((hl hlrep hbase.left ho' h).mono (fun _ _ hg => hg) ?_).bind ?_
        · intro e w' hb
          exact hb.map rfl
        · rintro o w' ⟨t', cells', m, hset, hrep, hw⟩
          simp only [Tree.set, hset, Except.map]
          exact ends_setBranch false hrep hrrep hw
      | true =>
        rw [show ({(p, RawNode.branch lref rref)} + (lcells + rcells) + frame) =
          rcells + ({(p, RawNode.branch lref rref)} + (lcells + frame)) by
            ac_rfl] at h
        refine ((hr hrrep hbase.right ho' h).mono (fun _ _ hg => hg) ?_).bind ?_
        · intro e w' hb
          exact hb.map rfl
        · rintro o w' ⟨t', cells', m, hset, hrep, hw⟩
          simp only [Tree.set, hset, Except.map]
          exact ends_setBranch true hrep hlrep hw

/-- The part of `handleExtension` which splits the extension, past its checks. -/
theorem ends_split {p : Ptr} {raw : RawNode} {our : Bool} {rest suffix : Slice}
    {pre : Option ExtKey} {bits : List Bool} {cref : Ref} {c : Tree} {ccells : NodeCells}
    (hpre : Slice.KeyOf pre d bits) (hrest : rest.offset = U3.wrap (d + bits.length + 1))
    (hfits : bytesLen suffix.offset suffix.length ≤ maxExtensionKeySize)
    (hsuffix : suffix.offset = U3.wrap (d + bits.length + 1))
    (hrep : Rep digest (d + bits.length + 1 + suffix.bits.length) cref c ccells)
    (h : Holds base n w ({(p, raw)} + ccells + frame)) :
    Ends (do
        let ourRef ← insertValue digest rest v
        let theirRef ← theirRef digest suffix cref
        let node :=
          if our then RawNode.branch theirRef ourRef.toRef
          else RawNode.branch ourRef.toRef theirRef
        let (ptr, hash) ← setNode digest p node
        match pre with
        | some pre => allocExtensionNode digest pre (.node ⟨some ptr, hash⟩)
        | none => return (ptr, hash)) w
      (NodeDone digest base d frame (.ok (.prepend bits
        (.join our (.chain (d + bits.length + 1) rest.bits (.value false v))
          (.prepend suffix.bits c)))))
      (fun e w' => e = .err .outOfMemory ∧ WriteLog.Pending base w' ∧
        n < rest.chunksRev.length + 2) := by
  refine ((ends_insertValue hrest h).mono (fun _ _ hg => hg) ?_).bind ?_
  · rintro e w' ⟨he, hp, hn⟩
    exact ⟨he, hp, by omega⟩
  rintro o w' ⟨ocells, horep, hw⟩
  rw [show ocells + ({(p, raw)} + ccells + frame) = ccells + (ocells + {(p, raw)} + frame) by
    ac_rfl] at hw
  refine ((ends_theirRef hfits hsuffix hrep hw).mono (fun _ _ hg => hg) ?_).bind ?_
  · rintro e w'' ⟨he, hp, hn⟩
    exact ⟨he, hp, by omega⟩
  rintro r w'' ⟨tcells, htrep, hw'⟩
  rw [show tcells + (ocells + {(p, raw)} + frame) = ocells + ({(p, raw)} + (tcells + frame)) by
    ac_rfl] at hw'
  rw [add_left_comm] at hw'
  have hraw : Decodes (if our then RawNode.branch r o.toRef else RawNode.branch o.toRef r)
      (if our then branchPreimage r.parts o.toRef.parts
        else branchPreimage o.toRef.parts r.parts) := by
    cases our
    · exact decodes_branch o.toRef r
    · exact decodes_branch r o.toRef
  refine (ends_setNode hraw hw').bind ?_
  rintro ⟨q, hash⟩ w₃ ⟨hres, hw₃⟩
  cases hres
  have hbranch : ∃ bcells, bcells + frame =
      {(p, if our then RawNode.branch r o.toRef else RawNode.branch o.toRef r)} +
        (ocells + (tcells + frame)) ∧
      Rep digest (d + bits.length) (.node ⟨some p, digest (if our then
          branchPreimage r.parts o.toRef.parts else branchPreimage o.toRef.parts r.parts)⟩)
        (.join our (.chain (d + bits.length + 1) rest.bits (.value false v))
          (.prepend suffix.bits c)) bcells := by
    cases our
    · exact ⟨_, by rw [add_assoc, add_assoc]; rfl, rep_branch horep htrep⟩
    · exact ⟨_, by rw [add_assoc, add_assoc, add_left_comm tcells]; rfl, rep_branch htrep horep⟩
  obtain ⟨bcells, hcells, hbrep⟩ := hbranch
  rw [← hcells] at hw₃
  cases pre with
  | none =>
    have hnil : bits = [] := hpre
    subst hnil
    exact ends_pure ⟨_, bcells, _, rfl, hbrep, hw₃⟩
  | some key =>
    obtain ⟨hkb, hko⟩ := hpre
    refine (ends_allocNode (decodes_extension key _) hw₃).mono ?_ ?_
    · rintro ⟨q, hash⟩ w₄ ⟨hh, hw₄⟩
      dsimp only at hh hw₄
      subst hh
      refine ⟨_, {(q, _)} + bcells, _, rfl, ?_, by rwa [← add_assoc] at hw₄⟩
      have hprep : ∀ t, Tree.prepend bits t = .ext bits t := by
        intro t
        cases bits with
        | nil => exact absurd hkb key.bits_ne_nil
        | cons bit bits => rfl
      rw [hprep]
      exact rep_ext (offset_wrap hko) hkb hbrep
    · rintro e w₄ ⟨he, hp, hn⟩
      exact ⟨he, hp, by omega⟩

/-- The part of `handleExtension` which goes on below the extension, past its checks. -/
theorem ends_matched {c : Tree} (hc : Refines digest A v c) {p : Ptr} {raw : RawNode}
    {extKey : ExtKey} {cref : Ref} {ccells : NodeCells} {rest : Slice}
    (hext : extKey.offset = U3.wrap d) (hrest : rest.offset = U3.wrap (d + extKey.bits.length))
    (hcrep : Rep digest (d + extKey.bits.length) cref c ccells) (hbase : InBase base ccells)
    (h : Holds base n w ({(p, raw)} + ccells + frame)) :
    Ends (do
        let ownedRef ← handleReference digest rest v cref
        setNode digest p (RawNode.extension extKey ownedRef.toRef)) w
      (NodeDone digest base d frame
        ((c.set v (d + extKey.bits.length) rest.bits).map (Tree.ext extKey.bits)))
      (Refused base n (budget (d + extKey.bits.length + rest.bits.length))
        ((c.set v (d + extKey.bits.length) rest.bits).map (Tree.ext extKey.bits))) := by
  rw [show {(p, raw)} + ccells + frame = ccells + ({(p, raw)} + frame) by ac_rfl] at h
  refine ((hc hcrep hbase hrest h).mono (fun _ _ hg => hg) ?_).bind ?_
  · intro e w' hb
    exact hb.map rfl
  · rintro o w' ⟨t', cells', m, hok, hrep, hw⟩
    rw [add_left_comm] at hw
    refine (ends_setNode (decodes_extension extKey _) hw).mono ?_ fun _ _ hb => hb
    rintro ⟨q, hash⟩ w'' ⟨hres, hw'⟩
    cases hres
    rw [hok]
    exact ⟨_, _, m, rfl, rep_ext hext rfl hrep, by rwa [add_assoc]⟩

theorem fits_popFront {key : ExtKey} {bit : Bool} {s : Slice}
    (hpop : key.slice.popFront = some (bit, s))
    (hoff : s.offset.val = (key.offset.val + 1) % 8) :
    bytesLen s.offset s.length ≤ maxExtensionKeySize := by
  have hlen := Slice.popFront_length hpop
  have hfits := key.fits
  rw [bytesLen_of_pos _ key.nonempty] at hfits
  by_cases hz : s.length = 0
  · simp [hz, bytesLen]
  · have hkey : key.offset = key.slice.offset := rfl
    rw [hkey] at hoff
    rw [bytesLen_of_pos _ hz, hoff]
    omega

theorem keyOf_mod {key : Option ExtKey} {bits : List Bool} :
    Slice.KeyOf key (d % 8) bits ↔ Slice.KeyOf key d bits := by
  cases key with
  | none => exact Iff.rfl
  | some key =>
    change _ ∧ _ = d % 8 % 8 ↔ _ ∧ _ = d % 8
    rw [Nat.mod_mod]

/-- A prefix as long as the extension key passes for the key. -/
theorem any_eq_of_keyOf {pre : Option ExtKey} {extKey : ExtKey} (hext : extKey.offset = U3.wrap d)
    (hpre : Slice.KeyOf pre d extKey.bits) : pre.any (fun pre => extKey.slice.eq pre.slice) = true := by
  cases pre with
  | none => exact absurd hpre extKey.bits_ne_nil
  | some key =>
    obtain ⟨hbits, hoff⟩ := hpre
    rw [Option.any_some, Slice.eq_iff]
    exact ⟨hext.trans (offset_wrap hoff).symm, hbits.symm⟩

theorem forwardCommonPrefix_at {key : Slice} {extKey : ExtKey} (ho : key.offset = U3.wrap d)
    (hext : extKey.offset = U3.wrap d) (hne : key.bits ≠ []) :
    ∃ pre suf key', key.forwardCommonPrefix extKey = some (pre, suf, key') ∧
      Slice.KeyOf pre d (commonPrefix key.bits extKey.bits) ∧
      Slice.KeyOf suf (d + (commonPrefix key.bits extKey.bits).length)
        (extKey.bits.drop (commonPrefix key.bits extKey.bits).length) ∧
      key'.bits = key.bits.drop (commonPrefix key.bits extKey.bits).length ∧
      key'.offset = U3.wrap (d + (commonPrefix key.bits extKey.bits).length) := by
  have hval : key.offset.val = d % 8 := by rw [ho]; rfl
  obtain ⟨pre, suf, key', hfcp, hpre, hsuf, hbits, hoff⟩ :=
    Slice.forwardCommonPrefix_spec (ho.trans hext.symm) hne
  rw [hval] at hpre hsuf hoff
  refine ⟨pre, suf, key', hfcp, keyOf_mod.mp hpre, ?_, hbits, offset_wrap (by omega)⟩
  rw [← keyOf_mod, ← Nat.mod_add_mod, keyOf_mod]
  exact hsuf

theorem ends_handleExtension {c : Tree} (hc : Refines digest A v c) {p : Ptr} {raw : RawNode}
    {extKey : ExtKey} {cref : Ref} {ccells : NodeCells} {key : Slice}
    (hext : extKey.offset = U3.wrap d)
    (hcrep : Rep digest (d + extKey.bits.length) cref c ccells)
    (hbase : InBase base ccells) (ho : key.offset = U3.wrap d)
    (h : Holds base n w ({(p, raw)} + ccells + frame)) :
    Ends (handleExtension digest key v p extKey cref) w
      (NodeDone digest base d frame ((Tree.ext extKey.bits c).set v d key.bits))
      (Refused base n (budget (d + key.bits.length))
        ((Tree.ext extKey.bits c).set v d key.bits)) := by
  unfold handleExtension
  by_cases hempty : key.isEmpty = true
  · have hnil := Slice.isEmpty_iff.mp hempty
    rw [if_pos hempty, hnil]
    exact ends_fail ⟨h.pending, Or.inr ⟨_, rfl, rfl⟩⟩
  rw [if_neg hempty]
  have hne : key.bits ≠ [] := fun hz => hempty (Slice.isEmpty_iff.mpr hz)
  obtain ⟨pre, suf, key₁, hfcp, hpre, hsuf, hbits₁, ho₁⟩ := forwardCommonPrefix_at ho hext hne
  have hkey := congrArg List.length (commonPrefix_append_left key.bits extKey.bits)
  rw [← hbits₁, List.length_append] at hkey
  split
  · rename_i hf
    rw [hfcp] at hf
    cases hf
  · rename_i pre₁ key₂ hf
    rw [hfcp] at hf
    cases hf
    -- the whole extension key matched
    have hm := Tree.matched_key hsuf
    rw [hm] at hpre hbits₁ ho₁ hkey
    rw [if_neg (not_not.mpr (any_eq_of_keyOf hext hpre)), Tree.set_ext_matched hne hm, ← hbits₁, ← hkey,
      ← Nat.add_assoc]
    exact ends_matched hc hext ho₁ hcrep hbase h
  · rename_i pre₁ suffix key₂ hf
    rw [hfcp] at hf
    cases hf
    obtain ⟨hsb, hso⟩ := hsuf
    have hso₁ : suffix.slice.offset = U3.wrap _ := offset_wrap hso
    obtain ⟨-, hnil⟩ | ⟨theirs, s₃, hspop, hs₃, hso₃⟩ := popFront_cases hso₁
    · exact absurd hnil suffix.bits_ne_nil
    have hdrop := hsb.symm.trans hs₃
    obtain ⟨hpop, hnil⟩ | ⟨our, key₃, hpop, hb₃, ho₃⟩ := popFront_cases ho₁
    · rw [hpop]
      exact ends_fail ⟨h.pending, Or.inr ⟨_, rfl, Tree.set_ext_short hne (hbits₁.symm.trans hnil) hdrop⟩⟩
    · rw [hb₃] at hbits₁
      have hneq : our ≠ theirs := commonPrefix_parts key.bits extKey.bits hbits₁.symm hdrop
      rw [hpop]
      simp only [hspop]
      rw [if_neg hneq, Tree.set_ext_split hbits₁.symm hdrop]
      have hext' := congrArg List.length (commonPrefix_append_right key.bits extKey.bits)
      rw [hdrop, List.length_append, List.length_cons] at hext'
      rw [← hext', Nat.add_comm s₃.bits.length, ← Nat.add_assoc, ← Nat.add_assoc] at hcrep
      have hfits := fits_popFront hspop (by rw [hso₃, hso, U3.val_wrap]; omega)
      refine (ends_split hpre ho₃ hfits hso₃ hcrep h).mono (fun _ _ hg => hg) ?_
      rintro e w' ⟨he, hpend, hn⟩
      refine ⟨hpend, Or.inl ⟨he, ?_, _, rfl⟩⟩
      have hchunks := chunksRev_le ho₃
      rw [hb₃, List.length_cons] at hkey
      unfold budget
      omega

theorem ends_handle {t : Tree} (hsub : ∀ c ∈ t.children, Refines digest A v c)
    {nref : NodeRef (Option Ptr)} {key : Slice} (hrep : Rep digest d (.node nref) t cells)
    (hbase : InBase base cells) (ho : key.offset = U3.wrap d) (h : Holds base n w (cells + frame)) :
    Ends (handle digest key v nref) w (NodeDone digest base d frame (t.set v d key.bits))
      (Refused base n (budget (d + key.bits.length)) (t.set v d key.bits)) := by
  cases hrep with
  | pruned hhash =>
    unfold handle
    exact ends_fail ⟨h.pending, Or.inr ⟨_, rfl, rfl⟩⟩
  | branch hhash hl hr =>
    have hread := readNode_branch (h.get hbase.head) (Rep.hash_branch hhash hl hr)
    unfold handle
    exact ends_bind (ends_read hread (ends_handleBranch (hsub _ (by simp [Tree.children]))
      (hsub _ (by simp [Tree.children])) hl hr hbase.right ho h))
  | ext hhash hoff hc =>
    obtain ⟨key', hread, ho', hb'⟩ := readNode_ext (h.get hbase.head) (Rep.hash_ext hhash hoff hc)
    rw [← hb'] at hc ⊢
    unfold handle
    exact ends_bind (ends_read hread (ends_handleExtension (hsub _ (by simp [Tree.children]))
      (ho'.trans hoff) hc hbase.right ho h))

theorem refines (t : Tree) : Refines digest A v t := by
  have hnode : ∀ {t : Tree}, (∀ c ∈ t.children, Refines digest A v c) →
      (∀ s h, t ≠ .value s h) → Refines digest A v t := by
    intro t hsub hnv base n d w cells frame ref key hrep hbase ho h
    cases ref with
    | value vref => cases hrep; exact absurd rfl (hnv _ _)
    | node nref =>
      unfold handleReference
      refine (ends_handle hsub hrep hbase ho h).bind ?_
      rintro ⟨p, hash⟩ w' ⟨t', cells', m, hset, hrep', hw⟩
      exact ends_pure ⟨t', cells', m, hset, hrep', hw⟩
  induction t with
  | value s h₀ =>
    intro base n d w cells frame ref key hrep hbase ho h
    cases hrep
    unfold handleReference
    simp only [Tree.set]
    by_cases hk : key.bits = []
    · have hempty := Slice.isEmpty_iff.mpr hk
      rw [if_neg (not_not.mpr hempty), if_neg (not_not.mpr hk)]
      cases s with
      | true => exact ends_fail ⟨h.pending, Or.inr ⟨_, rfl, rfl⟩⟩
      | false => exact ends_pure ⟨_, 0, n, rfl, .value, h⟩
    · have hempty : ¬ key.isEmpty = true := fun he => hk (Slice.isEmpty_iff.mp he)
      rw [if_pos hempty, if_pos hk]
      exact ends_fail ⟨h.pending, Or.inr ⟨_, rfl, rfl⟩⟩
  | pruned l r => exact hnode (by simp [Tree.children]) (by simp)
  | branch l r ihl ihr => exact hnode (by simp [Tree.children, ihl, ihr]) (by simp)
  | ext key child ih => exact hnode (by simp [Tree.children, ih]) (by simp)

end Set

end SealableTrie
