import Mathlib.Data.List.Nodup
import Mathlib.Order.Lattice
import Mathlib.Order.Basic

/-!
# Keeping the greatest elements

Elements come one after another and at most so many are kept. The greatest are kept if an element is dropped
only when the room is used up by greater ones.
-/

namespace TopElements

universe u
variable {α : Type u} [LinearOrder α]

/-- What is kept are the greatest of the elements seen, as far as there is room. -/
structure KeepsTop (room : Nat) (seen kept : List α) : Prop where
  nodup : kept.Nodup
  length : kept.length ≤ room
  subset : ∀ a ∈ kept, a ∈ seen
  dropped : ∀ a ∈ seen, a ∉ kept → kept.length = room ∧ ∀ b ∈ kept, a < b

variable {room i : Nat} {seen kept : List α} {a b m : α}

theorem KeepsTop.nil : KeepsTop room ([] : List α) [] :=
  ⟨List.nodup_nil, Nat.zero_le room, List.forall_mem_nil _, List.forall_mem_nil _⟩

/-- An element which is kept already. -/
theorem KeepsTop.again (h : KeepsTop room seen kept) (ha : a ∈ kept) : KeepsTop room (seen ++ [a]) kept where
  nodup := h.nodup
  length := h.length
  subset b hb := List.mem_append_left _ (h.subset b hb)
  dropped b hb hnot := by
    rcases List.mem_append.mp hb with hb | hb
    · exact h.dropped b hb hnot
    · rw [List.mem_singleton.mp hb] at hnot
      exact absurd ha hnot

/-- While there is room nothing has been dropped. -/
theorem KeepsTop.add (h : KeepsTop room seen kept) (ha : a ∉ kept) (hroom : kept.length < room) :
    KeepsTop room (seen ++ [a]) (kept ++ [a]) where
  nodup := List.Nodup.append h.nodup (List.nodup_singleton a) (List.disjoint_singleton.mpr ha)
  length := by
    rw [List.length_append, List.length_singleton]
    omega
  subset b hb := by
    rcases List.mem_append.mp hb with hb | hb
    · exact List.mem_append_left _ (h.subset b hb)
    · exact List.mem_append_right _ hb
  dropped b hb hnot := by
    rw [List.mem_append, not_or] at hnot
    rcases List.mem_append.mp hb with hb | hb
    · have hfull := (h.dropped b hb hnot.1).1
      omega
    · exact absurd hb hnot.2

omit [LinearOrder α] in
/-- Members of a list in which one element took the place of another. -/
theorem mem_set_iff (hnodup : kept.Nodup) (ha : a ∉ kept) (hm : kept[i]? = some m) :
    b ∈ kept.set i a ↔ b = a ∨ b ∈ kept ∧ b ≠ m := by
  obtain ⟨hi, rfl⟩ := List.getElem?_eq_some_iff.mp hm
  constructor
  · intro hb
    obtain ⟨j, hj, rfl⟩ := List.mem_iff_getElem.mp hb
    rw [List.length_set] at hj
    rw [List.getElem_set]
    split
    · exact .inl rfl
    · rename_i hij
      exact .inr ⟨List.getElem_mem hj, fun heq => hij ((List.Nodup.getElem_inj_iff hnodup).mp heq.symm)⟩
  · rintro (rfl | ⟨hb, hne⟩)
    · exact List.mem_set hi b
    · obtain ⟨j, hj, rfl⟩ := List.mem_iff_getElem.mp hb
      have hij : i ≠ j := by
        rintro rfl
        exact hne rfl
      refine List.mem_of_getElem? (i := j) ?_
      rw [List.getElem?_set_ne hij, List.getElem?_eq_getElem hj]

/-- A greater element takes the place of the least one. -/
theorem KeepsTop.replace (h : KeepsTop room seen kept) (ha : a ∉ kept) (hfull : kept.length = room)
    (hm : kept[i]? = some m) (hleast : ∀ b ∈ kept, m ≤ b) (hma : m < a) :
    KeepsTop room (seen ++ [a]) (kept.set i a) where
  nodup := h.nodup.set ha
  length := by
    rw [List.length_set]
    exact hfull.le
  subset b hb := by
    rcases (mem_set_iff h.nodup ha hm).mp hb with rfl | ⟨hb, -⟩
    · exact List.mem_append_right _ (List.mem_singleton_self b)
    · exact List.mem_append_left _ (h.subset b hb)
  dropped b hb hnot := by
    rw [mem_set_iff h.nodup ha hm, not_or] at hnot
    have hseen : b ∈ seen := (List.mem_append.mp hb).resolve_right fun hb => hnot.1 (List.mem_singleton.mp hb)
    -- it is the element which gave way, or was dropped before and is below that one
    have hbm : b ≤ m := by
      by_cases hkept : b ∈ kept
      · exact (not_not.mp fun hne => hnot.2 ⟨hkept, hne⟩).le
      · exact ((h.dropped b hseen hkept).2 m (List.mem_of_getElem? hm)).le
    refine ⟨by rw [List.length_set, hfull], fun d hd => ?_⟩
    rcases (mem_set_iff h.nodup ha hm).mp hd with rfl | ⟨hd, hne⟩
    · exact hbm.trans_lt hma
    · exact hbm.trans_lt (lt_of_le_of_ne (hleast d hd) hne.symm)

/-- A smaller element must not. -/
theorem KeepsTop.not_replace (h : KeepsTop room seen kept) (ha : a ∉ kept) (hm : kept[i]? = some m) (hma : ¬m < a) :
    ¬KeepsTop room (seen ++ [a]) (kept.set i a) := by
  intro h'
  have hmem := List.mem_of_getElem? hm
  have hgone : m ∉ kept.set i a := by
    rw [mem_set_iff h.nodup ha hm]
    rintro (rfl | ⟨-, hne⟩)
    · exact ha hmem
    · exact hne rfl
  refine hma ((h'.dropped m (List.mem_append_left _ (h.subset m hmem)) hgone).2 a ?_)
  exact (mem_set_iff h.nodup ha hm).mpr (.inl rfl)

section

variable {β : Type u}

/-- The last of the greatest entries with the property, from a first guess on. -/
def runningMax (P : α → Prop) [DecidablePred P] : α × Option β → List (α × β) → α × Option β
  | best, [] => best
  | best, e :: es => runningMax P (if P e.1 ∧ best.1 ≤ e.1 then (e.1, some e.2) else best) es

/-- The last of the least entries with the property, from a first guess on. -/
def runningMin (P : α → Prop) [DecidablePred P] : α × Option β → List (α × β) → α × Option β
  | best, [] => best
  | best, e :: es => runningMin P (if P e.1 ∧ e.1 ≤ best.1 then (e.1, some e.2) else best) es

variable {P : α → Prop} [decP : DecidablePred P]

/-- The guess stays only if every entry with the property is below it. -/
theorem runningMax_spec (best : α × Option β) (es : List (α × β)) :
    (runningMax P best es = best ∧ ∀ e ∈ es, P e.1 → e.1 < best.1) ∨
      ∃ e ∈ es, runningMax P best es = (e.1, some e.2) ∧ P e.1 ∧ best.1 ≤ e.1 ∧ ∀ d ∈ es, P d.1 → d.1 ≤ e.1 := by
  induction es generalizing best with
  | nil => exact .inl ⟨rfl, List.forall_mem_nil _⟩
  | cons e es ih =>
    rw [runningMax]
    split
    · rename_i he
      right
      rcases ih (e.1, some e.2) with ⟨heq, hall⟩ | ⟨f, hf, heq, hP, hle, hall⟩
      · refine ⟨e, List.mem_cons_self, heq, he.1, he.2, ?_⟩
        exact List.forall_mem_cons.mpr ⟨fun _ => le_rfl, fun d hd hPd => (hall d hd hPd).le⟩
      · refine ⟨f, List.mem_cons_of_mem _ hf, heq, hP, he.2.trans hle, ?_⟩
        exact List.forall_mem_cons.mpr ⟨fun _ => hle, hall⟩
    · rename_i he
      have hlt : P e.1 → e.1 < best.1 := fun hPe => not_le.mp fun hle => he ⟨hPe, hle⟩
      rcases ih best with ⟨heq, hall⟩ | ⟨f, hf, heq, hP, hle, hall⟩
      · exact .inl ⟨heq, List.forall_mem_cons.mpr ⟨hlt, hall⟩⟩
      · refine .inr ⟨f, List.mem_cons_of_mem _ hf, heq, hP, hle, ?_⟩
        exact List.forall_mem_cons.mpr ⟨fun hPe => (hlt hPe).le.trans hle, hall⟩

theorem runningMin_eq (best : α × Option β) (es : List (α × β)) :
    runningMin P best es = @runningMax αᵒᵈ _ β P decP best es := by
  induction es generalizing best with
  | nil => rfl
  | cons e es ih => exact ih _

/-- The guess stays only if every entry with the property is above it. -/
theorem runningMin_spec (best : α × Option β) (es : List (α × β)) :
    (runningMin P best es = best ∧ ∀ e ∈ es, P e.1 → best.1 < e.1) ∨
      ∃ e ∈ es, runningMin P best es = (e.1, some e.2) ∧ P e.1 ∧ e.1 ≤ best.1 ∧ ∀ d ∈ es, P d.1 → e.1 ≤ d.1 := by
  rw [runningMin_eq]
  exact @runningMax_spec αᵒᵈ _ β P decP best es

/-- The last of the entries with the greatest key. -/
def maxByKey : List (α × β) → Option (α × β)
  | [] => none
  | e :: es => some (es.foldl (fun best e => if best.1 ≤ e.1 then e else best) e)

/-- The first of the entries with the least key. -/
def minByKey : List (α × β) → Option (α × β)
  | [] => none
  | e :: es => some (es.foldl (fun best e => if e.1 < best.1 then e else best) e)

omit [LinearOrder α] decP in
/-- Choosing the better of two over and over finds an entry which none is better than. -/
theorem foldl_choose_spec {r : α → α → Prop} (hrefl : ∀ a, r a a) (htrans : ∀ a b d, r a b → r b d → r a d)
    {choose : α × β → α × β → α × β} (heither : ∀ b e, choose b e = b ∨ choose b e = e)
    (hbetter : ∀ b e, r b.1 (choose b e).1 ∧ r e.1 (choose b e).1) (e : α × β) (es : List (α × β)) :
    es.foldl choose e ∈ e :: es ∧ ∀ d ∈ e :: es, r d.1 (es.foldl choose e).1 := by
  induction es generalizing e with
  | nil => exact ⟨List.mem_cons_self, fun d hd => List.mem_singleton.mp hd ▸ hrefl d.1⟩
  | cons f es ih =>
    obtain ⟨hmem, hall⟩ := ih (choose e f)
    have hself := hall _ List.mem_cons_self
    refine ⟨?_, List.forall_mem_cons.mpr ⟨?_, List.forall_mem_cons.mpr ⟨?_, ?_⟩⟩⟩
    · rw [List.foldl_cons]
      rcases List.mem_cons.mp hmem with heq | hmem
      · rcases heither e f with hchoose | hchoose
        · rw [heq, hchoose]
          exact List.mem_cons_self
        · rw [heq, hchoose]
          exact List.mem_cons_of_mem _ List.mem_cons_self
      · exact List.mem_cons_of_mem _ (List.mem_cons_of_mem _ hmem)
    · exact htrans _ _ _ (hbetter e f).1 hself
    · exact htrans _ _ _ (hbetter e f).2 hself
    · exact fun d hd => hall d (List.mem_cons_of_mem _ hd)

theorem maxByKey_spec {es : List (α × β)} {e : α × β} (h : maxByKey es = some e) : e ∈ es ∧ ∀ d ∈ es, d.1 ≤ e.1 := by
  cases es with
  | nil => cases h
  | cons f es =>
    cases h
    refine foldl_choose_spec le_refl (fun _ _ _ => le_trans) (fun b e => ?_) (fun b e => ?_) f es
    · exact (ite_eq_or_eq ..).symm
    · split
      · rename_i hle
        exact ⟨hle, le_rfl⟩
      · rename_i hnle
        exact ⟨le_rfl, (not_le.mp hnle).le⟩

theorem maxByKey_eq_none {es : List (α × β)} (h : maxByKey es = none) : es = [] := by
  cases es with
  | nil => rfl
  | cons f es => cases h

theorem minByKey_spec {es : List (α × β)} {e : α × β} (h : minByKey es = some e) : e ∈ es ∧ ∀ d ∈ es, e.1 ≤ d.1 := by
  cases es with
  | nil => cases h
  | cons f es =>
    cases h
    refine foldl_choose_spec (r := (· ≥ ·)) le_refl (fun _ _ _ => ge_trans) (fun b e => ?_) (fun b e => ?_) f es
    · exact (ite_eq_or_eq ..).symm
    · split
      · rename_i hlt
        exact ⟨hlt.le, le_rfl⟩
      · rename_i hnlt
        exact ⟨le_rfl, not_lt.mp hnlt⟩

theorem minByKey_eq_none {es : List (α × β)} (h : minByKey es = none) : es = [] := by
  cases es with
  | nil => rfl
  | cons f es => cases h

end

end TopElements
