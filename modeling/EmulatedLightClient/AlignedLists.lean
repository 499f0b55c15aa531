import Mathlib.Algebra.Ring.Nat
import Mathlib.Data.Fin.Basic
import Mathlib.Data.List.Basic
import Mathlib.Tactic.Common

/-!
# Lists which start at a position of a cycle

Storage in units of `m` cells holds lists which start anywhere in a unit. A
list goes together with the position of its first item, and two lists join only
when the second starts where the first one stops.
-/

namespace AlignedLists

universe u

@[ext]
structure Aligned (m : Nat) (α : Type u) where
  offset : Fin m
  items : List α
  deriving DecidableEq

namespace Aligned

variable {m : Nat} [NeZero m] {α : Type u}

def shift (o : Fin m) (n : Nat) : Fin m := Fin.ofNat m (o.val + n)

@[simp] theorem val_shift (o : Fin m) (n : Nat) : (shift o n).val = (o.val + n) % m := rfl

@[simp] theorem shift_zero (o : Fin m) : shift o 0 = o := by
  apply Fin.ext
  rw [val_shift, Nat.add_zero, Nat.mod_eq_of_lt o.isLt]

/-- Position right after the last item. -/
def stop (l : Aligned m α) : Fin m := shift l.offset l.items.length

def take (l : Aligned m α) (n : Nat) : Aligned m α := ⟨l.offset, l.items.take n⟩

def drop (l : Aligned m α) (n : Nat) : Aligned m α := ⟨shift l.offset n, l.items.drop n⟩

def popFront (l : Aligned m α) : Option (α × Aligned m α) :=
  match l.items with
  | [] => none
  | a :: items => some (a, ⟨shift l.offset 1, items⟩)

def popBack (l : Aligned m α) : Option (α × Aligned m α) :=
  match l.items.getLast? with
  | none => none
  | some a => some (a, ⟨l.offset, l.items.dropLast⟩)

def splitAt (l : Aligned m α) (n : Nat) : Option (Aligned m α × Aligned m α) :=
  if n ≤ l.items.length then some (l.take n, l.drop n) else none

/-- The last `n` items and those in front of them. -/
def splitBack (l : Aligned m α) (n : Nat) : Option (Aligned m α × Aligned m α) :=
  if n ≤ l.items.length then
    some (l.drop (l.items.length - n), l.take (l.items.length - n))
  else none

omit [NeZero m] in
theorem popBack_concat (o : Fin m) (items : List α) (a : α) :
    popBack ⟨o, items ++ [a]⟩ = some (a, ⟨o, items⟩) := by
  simp [popBack]

/-- One list begins with another when they start at one position. -/
def Begins (l pre : Aligned m α) : Prop := l.offset = pre.offset ∧ pre.items <+: l.items

instance [DecidableEq α] (l pre : Aligned m α) : Decidable (l.Begins pre) :=
  inferInstanceAs (Decidable (_ ∧ _))

/-- The list without what it begins with. -/
def without [DecidableEq α] (l pre : Aligned m α) : Option (Aligned m α) :=
  if l.Begins pre then some (l.drop pre.items.length) else none

def append (l r : Aligned m α) : Option (Aligned m α) :=
  if r.offset = l.stop then some ⟨l.offset, l.items ++ r.items⟩ else none

/-- Splitting a list and joining the parts gives it back. -/
theorem take_append_drop (l : Aligned m α) {n : Nat} (h : n ≤ l.items.length) :
    (l.take n).append (l.drop n) = some l := by
  have hstop : (l.drop n).offset = (l.take n).stop := by
    simp only [drop, stop, take, List.length_take_of_le h]
  rw [append, if_pos hstop]
  simp only [take, drop, List.take_append_drop]

/-- Puts an item in front. -/
def cons (a : α) (l : Aligned m α) : Aligned m α := ⟨shift l.offset (m - 1), a :: l.items⟩

def push (l : Aligned m α) (a : α) : Aligned m α := ⟨l.offset, l.items ++ [a]⟩

/-- Replaces the last item, if there is one. -/
def setLast (l : Aligned m α) (a : α) : Option (Aligned m α) :=
  match l.items with
  | [] => none
  | _ :: _ => some ⟨l.offset, l.items.dropLast ++ [a]⟩

omit [NeZero m] in
theorem setLast_concat (o : Fin m) (items : List α) (a b : α) :
    setLast ⟨o, items ++ [a]⟩ b = some ⟨o, items ++ [b]⟩ := by
  cases items with
  | nil => rfl
  | cons c items =>
    simp only [setLast, List.cons_append]
    rw [← List.cons_append, List.dropLast_concat]
    rfl

/-- Joins lists one after another, the first of them starting at the given
position. -/
def joined : Fin m → List (Aligned m α) → Option (Aligned m α)
  | o, [] => some ⟨o, []⟩
  | o, l :: ls => if l.offset = o then (joined l.stop ls).bind l.append else none

end Aligned

end AlignedLists
