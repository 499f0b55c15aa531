import Mathlib.Algebra.Ring.Nat
import Mathlib.Data.List.Basic
import Mathlib.Tactic.Common

/-!
# Common prefixes of lists

The longest common prefix of two lists together with the position at which the
lists part: either one of them ends there or the next elements differ.
-/

namespace ListPrefix

universe u
variable {α : Type u} [DecidableEq α]

def commonPrefix : List α → List α → List α
  | a :: as, b :: bs => if a = b then a :: commonPrefix as bs else []
  | _, _ => []

@[simp]
theorem commonPrefix_nil_left (bs : List α) : commonPrefix [] bs = [] := rfl

@[simp]
theorem commonPrefix_nil_right (as : List α) : commonPrefix as [] = [] := by
  cases as <;> rfl

theorem commonPrefix_cons (a b : α) (as bs : List α) :
    commonPrefix (a :: as) (b :: bs) = if a = b then a :: commonPrefix as bs else [] := rfl

theorem commonPrefix_left (as bs : List α) : commonPrefix as bs <+: as := by
  induction as generalizing bs with
  | nil => simp
  | cons a as ih =>
    cases bs with
    | nil => simp
    | cons b bs =>
      by_cases h : a = b
      · simpa [commonPrefix_cons, h] using ih bs
      · simp [commonPrefix_cons, h]

theorem commonPrefix_right (as bs : List α) : commonPrefix as bs <+: bs := by
  induction as generalizing bs with
  | nil => simp
  | cons a as ih =>
    cases bs with
    | nil => simp
    | cons b bs =>
      by_cases h : a = b
      · simpa [commonPrefix_cons, h] using ih bs
      · simp [commonPrefix_cons, h]

theorem commonPrefix_append_left (as bs : List α) :
    commonPrefix as bs ++ as.drop (commonPrefix as bs).length = as :=
  List.prefix_iff_eq_append.mp (commonPrefix_left as bs)

theorem commonPrefix_append_right (as bs : List α) :
    commonPrefix as bs ++ bs.drop (commonPrefix as bs).length = bs :=
  List.prefix_iff_eq_append.mp (commonPrefix_right as bs)

/-- Past the common prefix the lists do not go on with one element. -/
theorem commonPrefix_parts (as bs : List α) {a b : α} {as' bs' : List α}
    (ha : as.drop (commonPrefix as bs).length = a :: as')
    (hb : bs.drop (commonPrefix as bs).length = b :: bs') : a ≠ b := by
  induction as generalizing bs with
  | nil => simp at ha
  | cons x as ih =>
    cases bs with
    | nil => simp at hb
    | cons y bs =>
      by_cases h : x = y
      · simp only [commonPrefix_cons, h, if_true, List.length_cons, List.drop_succ_cons] at ha hb
        exact ih bs ha hb
      · simp only [commonPrefix_cons, h, if_false, List.length_nil, List.drop_zero,
          List.cons.injEq] at ha hb
        rw [← ha.1, ← hb.1]
        exact h

theorem commonPrefix_greatest {as bs l : List α} (ha : l <+: as) (hb : l <+: bs) :
    l <+: commonPrefix as bs := by
  induction l generalizing as bs with
  | nil => exact List.nil_prefix
  | cons x l ih =>
    obtain ⟨as', rfl⟩ := ha
    obtain ⟨bs', rfl⟩ := hb
    simp only [List.cons_append, commonPrefix_cons, if_true]
    exact (List.prefix_cons_inj x).mpr (ih (List.prefix_append l as') (List.prefix_append l bs'))

omit [DecidableEq α] in
/-- The longest of the lists which both lists begin with. -/
structure Longest (as bs l : List α) : Prop where
  left : l <+: as
  right : l <+: bs
  greatest : ∀ m, m <+: as → m <+: bs → m <+: l

theorem commonPrefix_longest (as bs : List α) : Longest as bs (commonPrefix as bs) :=
  ⟨commonPrefix_left as bs, commonPrefix_right as bs, fun _ => commonPrefix_greatest⟩

/-- The length of the common prefix is where the lists stop to agree. -/
theorem length_commonPrefix {as bs : List α} {n : Nat} (ha : n ≤ as.length)
    (hb : n ≤ bs.length) (heq : ∀ i, i < n → as[i]? = bs[i]?)
    (hne : n < as.length → n < bs.length → as[n]? ≠ bs[n]?) :
    (commonPrefix as bs).length = n := by
  induction as generalizing bs n with
  | nil => simp at ha; simp [ha]
  | cons a as ih =>
    cases bs with
    | nil => simp at hb; simp [hb]
    | cons b bs =>
      cases n with
      | zero =>
        have hab : a ≠ b := by simpa using hne (by simp) (by simp)
        simp [commonPrefix_cons, hab]
      | succ n =>
        have hab : a = b := by simpa using heq 0 (by omega)
        have hrec : (commonPrefix as bs).length = n := by
          apply ih (by simpa using ha) (by simpa using hb)
          · intro i hi
            simpa using heq (i + 1) (by omega)
          · intro h1 h2
            simpa using hne (by simpa using h1) (by simpa using h2)
        simp [commonPrefix_cons, hab, hrec]

end ListPrefix
