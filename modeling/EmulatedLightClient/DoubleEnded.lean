import Mathlib.Data.List.Basic
import Mathlib.Tactic.Common

/-!
# Iterators with two ends

An iterator which gives items from its front and from its back gives those of
one list when each end takes what the list has there. Which end is asked when
makes then no difference to the items as a whole.
-/

namespace DoubleEnded

universe u v
variable {σ : Type u} {α : Type v}

inductive Call where
  | front
  | back
  deriving DecidableEq

/-- The items given so far, in the order they were given at each end, and the
iterator left. -/
structure Progress (σ : Type u) (α : Type v) where
  fronts : List α
  backs : List α
  rest : σ

namespace Progress

def start (s : σ) : Progress σ α := ⟨[], [], s⟩

/-- Items given are in front of those left or, last one first, behind them. -/
def all (p : Progress σ α) (items : σ → List α) : List α :=
  p.fronts ++ items p.rest ++ p.backs.reverse

variable (next nextBack : σ → Option (α × σ))

/-- An exhausted iterator stays as it is. -/
def step (p : Progress σ α) : Call → Progress σ α
  | .front =>
    match next p.rest with
    | none => p
    | some (a, rest) => { p with fronts := p.fronts ++ [a], rest := rest }
  | .back =>
    match nextBack p.rest with
    | none => p
    | some (a, rest) => { p with backs := p.backs ++ [a], rest := rest }

def run (calls : List Call) (p : Progress σ α) : Progress σ α :=
  calls.foldl (step next nextBack) p

end Progress

/-- Either end of the iterator gives what the list has there. -/
structure Iterates (next nextBack : σ → Option (α × σ)) (items : σ → List α) : Prop where
  next_none : ∀ {s}, next s = none → items s = []
  next_some : ∀ {s a s'}, next s = some (a, s') → items s = a :: items s'
  nextBack_none : ∀ {s}, nextBack s = none → items s = []
  nextBack_some : ∀ {s a s'}, nextBack s = some (a, s') → items s = items s' ++ [a]

namespace Iterates

variable {next nextBack : σ → Option (α × σ)} {items : σ → List α}
  (h : Iterates next nextBack items)

include h

theorem next_eq_none_iff {s : σ} : next s = none ↔ items s = [] := by
  constructor
  · exact h.next_none
  · intro hnil
    cases hs : next s with
    | none => rfl
    | some r =>
      have hcons := h.next_some hs
      rw [hnil] at hcons
      cases hcons

theorem nextBack_eq_none_iff {s : σ} : nextBack s = none ↔ items s = [] := by
  constructor
  · exact h.nextBack_none
  · intro hnil
    cases hs : nextBack s with
    | none => rfl
    | some r =>
      have hconcat := h.nextBack_some hs
      rw [hnil] at hconcat
      exact absurd hconcat.symm (List.append_ne_nil_of_right_ne_nil _ (List.cons_ne_nil _ _))

/-- A call moves an item from the iterator to those given. -/
theorem step_all (p : Progress σ α) (call : Call) :
    (p.step next nextBack call).all items = p.all items := by
  cases call with
  | front =>
    cases hs : next p.rest with
    | none => simp only [Progress.step, hs]
    | some r => simp [Progress.step, hs, Progress.all, h.next_some hs]
  | back =>
    cases hs : nextBack p.rest with
    | none => simp only [Progress.step, hs]
    | some r => simp [Progress.step, hs, Progress.all, h.nextBack_some hs]

/-- A call leaves one item less. -/
theorem step_length (p : Progress σ α) (call : Call) :
    (items (p.step next nextBack call).rest).length = (items p.rest).length - 1 := by
  cases call with
  | front =>
    cases hs : next p.rest with
    | none => simp [Progress.step, hs, h.next_none hs]
    | some r => simp [Progress.step, hs, h.next_some hs]
  | back =>
    cases hs : nextBack p.rest with
    | none => simp [Progress.step, hs, h.nextBack_none hs]
    | some r => simp [Progress.step, hs, h.nextBack_some hs]

theorem run_all (calls : List Call) (p : Progress σ α) :
    (p.run next nextBack calls).all items = p.all items := by
  induction calls generalizing p with
  | nil => rfl
  | cons call calls ih =>
    exact (ih (p.step next nextBack call)).trans (h.step_all p call)

theorem run_length (calls : List Call) (p : Progress σ α) :
    (items (p.run next nextBack calls).rest).length = (items p.rest).length - calls.length := by
  induction calls generalizing p with
  | nil => rfl
  | cons call calls ih =>
    have hrec := ih (p.step next nextBack call)
    rw [h.step_length p call] at hrec
    rw [List.length_cons, Nat.add_comm, ← Nat.sub_sub, ← hrec]
    rfl

end Iterates

end DoubleEnded
