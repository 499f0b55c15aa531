import Mathlib.Algebra.Ring.Nat
import Mathlib.Tactic.Common

/-!
# Programs which change a state and may fail

A program runs on a state and ends with a value or a failure and, in both
cases, with the state it left behind. `Ends` states what holds at either end;
its rules follow the way programs are put together.
-/

namespace FailingState

universe u v w
variable {ε : Type u} {σ : Type v} {α β : Type w}

theorem map_eq_ok {r : Except ε α} {g : α → β} {b : β} (h : r.map g = .ok b) :
    ∃ a, r = .ok a ∧ g a = b := by
  cases r with
  | ok a => exact ⟨a, rfl, Except.ok.inj h⟩
  | error e => cases h

theorem map_eq_error {r : Except ε α} {g : α → β} {e : ε} (h : r.map g = .error e) :
    r = .error e := by
  cases r with
  | ok a => cases h
  | error e => exact congrArg Except.error (Except.error.inj h)

theorem mapError_ok {ε' : Type} {r : Except ε α} {f : ε → ε'} {a : α} :
    r.mapError f = .ok a ↔ r = .ok a := by
  cases r with
  | ok b => simp [Except.mapError]
  | error e => simp [Except.mapError]

theorem bind_eq_ok {r : Except ε α} {f : α → Except ε β} {b : β} :
    (r >>= f) = .ok b ↔ ∃ a, r = .ok a ∧ f a = .ok b := by
  cases r with
  | ok a => simp [bind, Except.bind]
  | error e => simp [bind, Except.bind]

theorem guard_eq_some {p : Prop} [Decidable p] {u : Unit} : (guard p : Option Unit) = some u ↔ p := by
  unfold guard
  split <;> simp_all

/-- Rule for runs: what each step keeps, every run which does not abort keeps. -/
theorem foldlM_invariant {ι : Type u} {step : σ → ι → Option σ} {I : σ → Prop}
    (hstep : ∀ s i s', I s → step s i = some s' → I s') {calls : List ι} {s s' : σ} (hs : I s)
    (h : calls.foldlM step s = some s') : I s' := by
  induction calls generalizing s with
  | nil =>
    cases h
    exact hs
  | cons i calls ih =>
    obtain ⟨mid, hmid, h⟩ := Option.bind_eq_some_iff.mp h
    exact ih (hstep s i mid hs hmid) h

/-- The same for runs which may fail. -/
theorem foldlM_invariant_of_ok {ι : Type u} {step : σ → ι → Except ε σ} {I : σ → Prop}
    (hstep : ∀ s i s', I s → step s i = .ok s' → I s') {calls : List ι} {s s' : σ} (hs : I s)
    (h : calls.foldlM step s = .ok s') : I s' := by
  induction calls generalizing s with
  | nil =>
    cases h
    exact hs
  | cons i calls ih =>
    obtain ⟨mid, hmid, h⟩ := bind_eq_ok.mp h
    exact ih (hstep s i mid hs hmid) h

/-- A run fails if and only if after some of the calls the next one does. -/
theorem foldlM_error_iff {ι : Type u} {step : σ → ι → Except ε σ} {calls : List ι} {s : σ} :
    (∃ e, calls.foldlM step s = .error e) ↔
      ∃ before call after s', calls = before ++ call :: after ∧ before.foldlM step s = .ok s' ∧
        ∃ e, step s' call = .error e := by
  induction calls generalizing s with
  | nil =>
    refine iff_of_false ?_ ?_
    · rintro ⟨e, h⟩
      cases h
    · rintro ⟨before, call, after, -, h, -⟩
      exact absurd h (by simp)
  | cons i calls ih =>
    rw [List.foldlM_cons]
    cases hstep : step s i with
    | error e =>
      exact iff_of_true ⟨e, rfl⟩ ⟨[], i, calls, s, rfl, rfl, e, hstep⟩
    | ok mid =>
      refine (ih (s := mid)).trans ?_
      constructor
      · rintro ⟨before, call, after, s', rfl, hrun, hfail⟩
        refine ⟨i :: before, call, after, s', rfl, ?_, hfail⟩
        rw [List.foldlM_cons, hstep]
        exact hrun
      · rintro ⟨before, call, after, s', h, hrun, e, hfail⟩
        cases before with
        | nil =>
          cases h
          cases hrun
          cases hstep.symm.trans hfail
        | cons i' before =>
          cases h
          rw [List.foldlM_cons, hstep] at hrun
          exact ⟨before, call, after, s', rfl, hrun, e, hfail⟩

def Op (ε : Type u) (σ : Type v) (α : Type w) := σ → Except ε α × σ

namespace Op

def run (op : Op ε σ α) (s : σ) : Except ε α × σ := op s

def done (a : α) : Op ε σ α := fun s => (.ok a, s)

def fail (e : ε) : Op ε σ α := fun s => (.error e, s)

def andThen (op : Op ε σ α) (f : α → Op ε σ β) : Op ε σ β := fun s =>
  match op s with
  | (.ok a, s) => f a s
  | (.error e, s) => (.error e, s)

instance : Monad (Op ε σ) where
  pure := done
  bind := andThen

/-- The value of a computation which does not touch the state. -/
def lift (r : Except ε α) : Op ε σ α := fun s => (r, s)

def read : Op ε σ σ := fun s => (.ok s, s)

def modify (f : σ → σ) : Op ε σ PUnit.{w + 1} := fun s => (.ok ⟨⟩, f s)

/-- The same computation with failures of another kind. -/
def mapError {ε' : Type*} (f : ε → ε') (op : Op ε σ α) : Op ε' σ α := fun s => ((op s).1.mapError f, (op s).2)

theorem run_mapError_ok {ε' : Type*} {f : ε → ε'} {op : Op ε σ α} {a : α} {s s' : σ} :
    (op.mapError f).run s = (.ok a, s') ↔ op.run s = (.ok a, s') := by
  change ((op s).1.mapError f, (op s).2) = (.ok a, s') ↔ op s = (.ok a, s')
  cases op s with
  | mk r s₁ =>
    cases r with
    | ok b => simp [Except.mapError]
    | error e => simp [Except.mapError]

theorem run_pure_ok {a b : α} {s s' : σ} :
    (pure a : Op ε σ α).run s = (.ok b, s') ↔ a = b ∧ s = s' := by
  change ((Except.ok a, s) : Except ε α × σ) = (.ok b, s') ↔ _
  simp

theorem run_lift_ok {r : Except ε α} {a : α} {s s' : σ} :
    (lift r).run s = (.ok a, s') ↔ r = .ok a ∧ s = s' :=
  Prod.mk.injEq .. ▸ Iff.rfl

theorem run_bind_ok {op : Op ε σ α} {f : α → Op ε σ β} {b : β} {s s' : σ} :
    (op >>= f).run s = (.ok b, s') ↔ ∃ a mid, op.run s = (.ok a, mid) ∧ (f a).run mid = (.ok b, s') := by
  change andThen op f s = _ ↔ ∃ a mid, op s = (.ok a, mid) ∧ f a mid = (.ok b, s')
  unfold andThen
  cases hop : op s with
  | mk r mid =>
    cases r with
    | ok a => simp
    | error e => simp

theorem run_bind_of_ok {op : Op ε σ α} {f : α → Op ε σ β} {a : α} {s s' : σ} (h : op.run s = (.ok a, s')) :
    (op >>= f).run s = (f a).run s' := by
  change andThen op f s = _
  rw [andThen, show op s = (.ok a, s') from h]
  rfl

theorem run_bind_of_error {op : Op ε σ α} {f : α → Op ε σ β} {e : ε} {s s' : σ} (h : op.run s = (.error e, s')) :
    (op >>= f).run s = (.error e, s') := by
  change andThen op f s = _
  rw [andThen, show op s = (.error e, s') from h]

theorem run_bind_error {op : Op ε σ α} {f : α → Op ε σ β} {e : ε} {s s' : σ}
    (h : (op >>= f).run s = (.error e, s')) :
    op.run s = (.error e, s') ∨ ∃ a mid, op.run s = (.ok a, mid) ∧ (f a).run mid = (.error e, s') := by
  change andThen op f s = _ at h
  change op s = _ ∨ ∃ a mid, op s = (.ok a, mid) ∧ f a mid = _
  unfold andThen at h
  cases hop : op s with
  | mk r mid =>
    rw [hop] at h
    cases r with
    | ok a => exact Or.inr ⟨a, mid, rfl, h⟩
    | error e' =>
      cases h
      exact Or.inl rfl

/-- What holds of the value and the state when the program succeeds, and of the
failure and the state when it does not. -/
def Ends (op : Op ε σ α) (s : σ) (good : α → σ → Prop) (bad : ε → σ → Prop) : Prop :=
  match op s with
  | (.ok a, s) => good a s
  | (.error e, s) => bad e s

variable {op : Op ε σ α} {f : α → Op ε σ β} {s : σ} {good : α → σ → Prop} {bad : ε → σ → Prop}
  {post : β → σ → Prop}

theorem ends_pure {a : α} (h : good a s) : Ends (pure a : Op ε σ α) s good bad := h

theorem ends_fail {e : ε} (h : bad e s) : Ends (fail e : Op ε σ α) s good bad := h

theorem ends_read {good : σ → σ → Prop} {bad : ε → σ → Prop} (h : good s s) :
    Ends (read : Op ε σ σ) s good bad := h

theorem ends_of_ok {a : α} {s' : σ} (h : op s = (.ok a, s')) (hgood : good a s') :
    Ends op s good bad := by
  unfold Ends
  rw [h]
  exact hgood

theorem ends_lift {r : Except ε α} (hok : ∀ a, r = .ok a → good a s)
    (hbad : ∀ e, r = .error e → bad e s) : Ends (lift r) s good bad := by
  cases r with
  | ok a => exact hok a rfl
  | error e => exact hbad e rfl

/-- The rule of sequencing. -/
theorem ends_bind (h : Ends op s (fun a s' => Ends (f a) s' post bad) bad) :
    Ends (op >>= f) s post bad := by
  change Ends (andThen op f) s post bad
  unfold Ends andThen at *
  cases hop : op s with
  | mk r s' =>
    rw [hop] at h
    cases r with
    | ok a => exact h
    | error e => exact h

/-- The rule of consequence. -/
theorem Ends.mono {good' : α → σ → Prop} {bad' : ε → σ → Prop} (h : Ends op s good bad)
    (hgood : ∀ a s', good a s' → good' a s') (hbad : ∀ e s', bad e s' → bad' e s') :
    Ends op s good' bad' := by
  unfold Ends at *
  cases hop : op s with
  | mk r s' =>
    rw [hop] at h
    cases r with
    | ok a => exact hgood a s' h
    | error e => exact hbad e s' h

theorem Ends.bind (h : Ends op s good bad)
    (hf : ∀ a s', good a s' → Ends (f a) s' post bad) : Ends (op >>= f) s post bad :=
  ends_bind (h.mono hf fun _ _ hb => hb)

theorem Ends.of_ok {a : α} {s' : σ} (h : Ends op s good bad) (hrun : op.run s = (.ok a, s')) :
    good a s' := by
  unfold Ends at h
  rw [show op s = (.ok a, s') from hrun] at h
  exact h

theorem Ends.of_error {e : ε} {s' : σ} (h : Ends op s good bad)
    (hrun : op.run s = (.error e, s')) : bad e s' := by
  unfold Ends at h
  rw [show op s = (.error e, s') from hrun] at h
  exact h

end Op

end FailingState
