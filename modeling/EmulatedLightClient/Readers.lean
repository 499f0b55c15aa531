import Mathlib.Algebra.Ring.Nat
import Mathlib.Tactic.Common

/-!
# Readers

A reader takes a value off the front of a list or fails. It reads what a writer writes if it succeeds
exactly on what is written for good values, whatever comes behind it, so that nothing is read in two ways
and nothing is written twice.
-/

namespace Readers

universe u v w

/-- What is left of the list is the state. -/
abbrev Reader (ε : Type u) (τ : Type v) (α : Type v) := StateT (List τ) (Except ε) α

variable {ε : Type u} {τ α β : Type v}

namespace Reader

theorem bind_eq_ok {x : Reader ε τ α} {f : α → Reader ε τ β} {s rest : List τ} {b : β} :
    (x >>= f) s = .ok (b, rest) ↔ ∃ a mid, x s = .ok (a, mid) ∧ f a mid = .ok (b, rest) := by
  have hbind : (x >>= f) s = x s >>= fun r => f r.1 r.2 := rfl
  rw [hbind]
  cases x s with
  | error e =>
    refine iff_of_false nofun ?_
    rintro ⟨a, mid, h, -⟩
    cases h
  | ok r =>
    constructor
    · intro h
      exact ⟨r.1, r.2, rfl, h⟩
    · rintro ⟨a, mid, h, hf⟩
      cases h
      exact hf

theorem bind_of_ok {x : Reader ε τ α} {f : α → Reader ε τ β} {s mid : List τ} {a : α} (h : x s = .ok (a, mid)) :
    (x >>= f) s = f a mid := by
  have hbind : (x >>= f) s = x s >>= fun r => f r.1 r.2 := rfl
  rw [hbind, h]
  rfl

theorem pure_eq_ok {a b : α} {s rest : List τ} : (pure a : Reader ε τ α) s = .ok (b, rest) ↔ a = b ∧ s = rest := by
  constructor
  · intro h
    cases h
    exact ⟨rfl, rfl⟩
  · rintro ⟨rfl, rfl⟩
    rfl

/-- Reading nothing, with a value which may be missing. -/
def ofOption (e : ε) : Option α → Reader ε τ α
  | some a => pure a
  | none => throw e

theorem ofOption_eq_ok {e : ε} {o : Option α} {a : α} {s rest : List τ} :
    (ofOption e o : Reader ε τ α) s = .ok (a, rest) ↔ o = some a ∧ s = rest := by
  cases o with
  | none =>
    refine iff_of_false nofun ?_
    rintro ⟨h, -⟩
    cases h
  | some b =>
    rw [ofOption, pure_eq_ok, Option.some_inj]

/-- The first so many elements. -/
def take (e : ε) (n : Nat) : Reader ε τ (List τ) := fun s =>
  if n ≤ s.length then .ok (s.take n, s.drop n) else .error e

theorem take_eq_ok {e : ε} {n : Nat} {s x rest : List τ} :
    take e n s = .ok (x, rest) ↔ x.length = n ∧ s = x ++ rest := by
  unfold take
  split
  · rename_i h
    constructor
    · intro heq
      cases heq
      exact ⟨List.length_take_of_le h, (List.take_append_drop n s).symm⟩
    · rintro ⟨rfl, rfl⟩
      rw [List.take_left, List.drop_left]
  · rename_i h
    refine iff_of_false nofun ?_
    rintro ⟨rfl, rfl⟩
    exact h (by rw [List.length_append]; omega)

/-- The first element. -/
def one (e : ε) : Reader ε τ τ
  | [] => .error e
  | a :: s => .ok (a, s)

theorem one_eq_ok {e : ε} {a : τ} {s rest : List τ} : one e s = .ok (a, rest) ↔ s = a :: rest := by
  cases s with
  | nil => exact iff_of_false nofun nofun
  | cons b s =>
    rw [List.cons.injEq]
    constructor
    · intro h
      cases h
      exact ⟨rfl, rfl⟩
    · rintro ⟨rfl, rfl⟩
      rfl

/-- The reader so many times over. -/
def many (x : Reader ε τ α) : Nat → Reader ε τ (List α)
  | 0 => pure []
  | n + 1 => do
    let a ← x
    let as ← many x n
    return a :: as

/-- Reading succeeds exactly on what is written for good values, with anything behind it. -/
def Reads (x : Reader ε τ α) (good : α → Prop) (write : α → List τ) : Prop :=
  ∀ s a rest, x s = .ok (a, rest) ↔ good a ∧ s = write a ++ rest

theorem Reads.many {x : Reader ε τ α} {good : α → Prop} {write : α → List τ} (hx : Reads x good write) (n : Nat) :
    Reads (x.many n) (fun as => as.length = n ∧ ∀ a ∈ as, good a) (·.flatMap write) := by
  induction n with
  | zero =>
    intro s as rest
    rw [Reader.many, pure_eq_ok]
    constructor
    · rintro ⟨rfl, rfl⟩
      exact ⟨⟨rfl, List.forall_mem_nil _⟩, rfl⟩
    · rintro ⟨⟨hlen, -⟩, rfl⟩
      rw [List.length_eq_zero_iff] at hlen
      rw [hlen]
      exact ⟨rfl, rfl⟩
  | succ n ih =>
    intro s as rest
    simp only [Reader.many, bind_eq_ok, pure_eq_ok, hx _ _ _, ih _ _ _]
    constructor
    · rintro ⟨a, mid, ⟨ha, rfl⟩, as', rest', ⟨⟨rfl, has⟩, rfl⟩, rfl, rfl⟩
      refine ⟨⟨rfl, List.forall_mem_cons.mpr ⟨ha, has⟩⟩, ?_⟩
      rw [List.flatMap_cons, List.append_assoc]
    · rintro ⟨⟨hlen, hgood⟩, rfl⟩
      obtain ⟨a, as, rfl⟩ := List.exists_cons_of_length_eq_add_one hlen
      obtain ⟨ha, has⟩ := List.forall_mem_cons.mp hgood
      refine ⟨a, as.flatMap write ++ rest, ⟨ha, ?_⟩, as, rest, ⟨⟨Nat.succ.inj hlen, has⟩, rfl⟩, rfl, rfl⟩
      rw [List.flatMap_cons, List.append_assoc]

/-- What is read decides how the rest goes on. -/
theorem bind_congr {x : Reader ε τ α} {f g : α → Reader ε τ β} {s : List τ}
    (h : ∀ a rest, x s = .ok (a, rest) → f a rest = g a rest) : (x >>= f) s = (x >>= g) s := by
  have hbind : ∀ k : α → Reader ε τ β, (x >>= k) s = x s >>= fun r => k r.1 r.2 := fun _ => rfl
  rw [hbind, hbind]
  cases hx : x s with
  | error e => rfl
  | ok r => exact h r.1 r.2 hx

section

variable {ε' : Type u} (f : ε → ε')

/-- The reader with other errors. -/
def mapError (x : Reader ε τ α) : Reader ε' τ α := fun s => (x s).mapError f

theorem mapError_eq_ok {x : Reader ε τ α} {s rest : List τ} {a : α} :
    mapError f x s = .ok (a, rest) ↔ x s = .ok (a, rest) := by
  unfold mapError
  cases x s <;> simp [Except.mapError]

theorem mapError_pure (a : α) : mapError f (pure a : Reader ε τ α) = pure a := rfl

theorem mapError_bind (x : Reader ε τ α) (k : α → Reader ε τ β) :
    mapError f (x >>= k) = mapError f x >>= fun a => mapError f (k a) := by
  funext s
  have hbind : (x >>= k) s = x s >>= fun r => k r.1 r.2 := rfl
  have hbind' : (mapError f x >>= fun a => mapError f (k a)) s =
      (x s).mapError f >>= fun r => mapError f (k r.1) r.2 := rfl
  rw [hbind', mapError, hbind]
  cases x s <;> rfl

theorem mapError_many (x : Reader ε τ α) (n : Nat) : mapError f (x.many n) = (mapError f x).many n := by
  induction n with
  | zero => rfl
  | succ n ih => rw [many, many, mapError_bind, ← ih]; simp only [mapError_bind, mapError_pure]

end

/-- What is read takes something off the list. -/
def Shortens (x : Reader ε τ α) : Prop := ∀ s a rest, x s = .ok (a, rest) → rest.length < s.length

/-- Values one after the other until nothing is left. -/
def toEnd (x : Reader ε τ α) (hx : Shortens x) (s : List τ) : Except ε (List α) :=
  if s = [] then .ok []
  else
    match h : x s with
    | .error e => .error e
    | .ok (a, rest) =>
      have := hx s a rest h
      (toEnd x hx rest).map (a :: ·)
termination_by s.length

theorem toEnd_nil {x : Reader ε τ α} {hx : Shortens x} : toEnd x hx [] = .ok [] := by
  rw [toEnd, if_pos rfl]

theorem toEnd_of_ok {x : Reader ε τ α} {hx : Shortens x} {s rest : List τ} {a : α} (h : x s = .ok (a, rest)) :
    toEnd x hx s = (toEnd x hx rest).map (a :: ·) := by
  have hne : s ≠ [] := by
    rintro rfl
    exact Nat.not_lt_zero _ (hx [] a rest h)
  rw [toEnd, if_neg hne]
  split
  · rename_i e he
    cases h.symm.trans he
  · rename_i a' rest' h'
    cases h.symm.trans h'
    rfl

theorem toEnd_of_error {x : Reader ε τ α} {hx : Shortens x} {s : List τ} {e : ε} (hne : s ≠ []) (h : x s = .error e) :
    toEnd x hx s = .error e := by
  rw [toEnd, if_neg hne]
  split
  · rename_i e' he
    cases h.symm.trans he
    rfl
  · rename_i a rest he
    cases h.symm.trans he

theorem Reads.shortens {x : Reader ε τ α} {good : α → Prop} {write : α → List τ} (hx : Reads x good write)
    (hne : ∀ a, write a ≠ []) : Shortens x := by
  intro s a rest h
  obtain ⟨-, rfl⟩ := (hx s a rest).mp h
  have hpos := List.length_pos_iff.mpr (hne a)
  rw [List.length_append]
  omega

/-- Lists of values are read from what is written for their elements, and from nothing else. -/
theorem Reads.toEnd_eq_ok {x : Reader ε τ α} {good : α → Prop} {write : α → List τ} (hread : Reads x good write)
    {hx : Shortens x} {s : List τ} {as : List α} :
    toEnd x hx s = .ok as ↔ (∀ a ∈ as, good a) ∧ s = as.flatMap write := by
  constructor
  · intro h
    induction hn : s.length using Nat.strong_induction_on generalizing s as with
    | _ n ih =>
      by_cases hs : s = []
      · rw [hs, toEnd_nil] at h
        cases h
        exact ⟨nofun, hs⟩
      · cases hfirst : x s with
        | error e =>
          rw [toEnd_of_error hs hfirst] at h
          cases h
        | ok r =>
          obtain ⟨a, rest⟩ := r
          rw [toEnd_of_ok hfirst] at h
          cases hrest : toEnd x hx rest with
          | error e =>
            rw [hrest] at h
            cases h
          | ok as' =>
            rw [hrest] at h
            cases h
            obtain ⟨hgood, rfl⟩ := ih rest.length (hn ▸ hx s a rest hfirst) hrest rfl
            obtain ⟨ha, rfl⟩ := (hread s a _).mp hfirst
            exact ⟨List.forall_mem_cons.mpr ⟨ha, hgood⟩, rfl⟩
  · rintro ⟨hgood, rfl⟩
    induction as with
    | nil => exact toEnd_nil
    | cons a as ih =>
      obtain ⟨ha, has⟩ := List.forall_mem_cons.mp hgood
      rw [List.flatMap_cons, toEnd_of_ok ((hread _ a _).mpr ⟨ha, rfl⟩), ih has]
      rfl

def Avoids (bad : ε) (x : Reader ε τ α) : Prop := ∀ s, x s ≠ .error bad

theorem avoids_pure {bad : ε} (a : α) : Avoids bad (pure a : Reader ε τ α) := nofun

theorem avoids_throw {bad e : ε} (h : e ≠ bad) : Avoids bad (throw e : Reader ε τ α) := by
  intro s he
  exact h (Except.error.inj he)

theorem Avoids.bind {bad : ε} {x : Reader ε τ α} {f : α → Reader ε τ β} (hx : Avoids bad x)
    (hf : ∀ a s rest, x s = .ok (a, rest) → f a rest ≠ .error bad) : Avoids bad (x >>= f) := by
  intro s h
  have hbind : (x >>= f) s = x s >>= fun r => f r.1 r.2 := rfl
  rw [hbind] at h
  cases hfirst : x s with
  | error e =>
    rw [hfirst] at h
    cases h
    exact hx s hfirst
  | ok r =>
    rw [hfirst] at h
    exact hf r.1 s r.2 hfirst h

theorem Avoids.bind_all {bad : ε} {x : Reader ε τ α} {f : α → Reader ε τ β} (hx : Avoids bad x)
    (hf : ∀ a, Avoids bad (f a)) : Avoids bad (x >>= f) := hx.bind fun a _ rest _ => hf a rest

theorem avoids_ofOption {bad e : ε} {o : Option α} (h : e ≠ bad) : Avoids bad (ofOption e o : Reader ε τ α) := by
  cases o with
  | none => exact avoids_throw h
  | some a => exact avoids_pure a

theorem avoids_toEnd {bad : ε} {x : Reader ε τ α} {hx : Shortens x} (h : Avoids bad x) (s : List τ) :
    toEnd x hx s ≠ .error bad := by
  induction hn : s.length using Nat.strong_induction_on generalizing s with
  | _ n ih =>
    intro herr
    by_cases hs : s = []
    · rw [hs, toEnd_nil] at herr
      cases herr
    · cases hfirst : x s with
      | error e =>
        rw [toEnd_of_error hs hfirst] at herr
        cases herr
        exact h s hfirst
      | ok r =>
        obtain ⟨a, rest⟩ := r
        rw [toEnd_of_ok hfirst] at herr
        cases hrest : toEnd x hx rest with
        | error e =>
          rw [hrest] at herr
          cases herr
          exact ih rest.length (hn ▸ hx s a rest hfirst) rest rfl hrest
        | ok as =>
          rw [hrest] at herr
          cases herr

/-- The value, if reading it leaves nothing. -/
def whole (x : Reader ε τ α) (s : List τ) : Option α :=
  match x s with
  | .ok (a, []) => some a
  | _ => none

theorem whole_eq_some {x : Reader ε τ α} {s : List τ} {a : α} : x.whole s = some a ↔ x s = .ok (a, []) := by
  unfold whole
  split
  · rename_i b h
    rw [h]
    simp
  · rename_i hne
    exact iff_of_false nofun (hne a)

theorem Reads.whole_eq_some {x : Reader ε τ α} {good : α → Prop} {write : α → List τ} (hx : Reads x good write)
    {s : List τ} {a : α} : x.whole s = some a ↔ good a ∧ s = write a := by
  rw [Reader.whole_eq_some, hx, List.append_nil]

/-- Good values are told apart by what is written for them. -/
theorem Reads.write_append_inj {x : Reader ε τ α} {good : α → Prop} {write : α → List τ} (hx : Reads x good write)
    {a b : α} (ha : good a) (hb : good b) {rest rest' : List τ} (h : write a ++ rest = write b ++ rest') :
    a = b ∧ rest = rest' := by
  have hread := (hx _ a rest).mpr ⟨ha, rfl⟩
  rw [(hx _ b rest').mpr ⟨hb, h⟩] at hread
  cases hread
  exact ⟨rfl, rfl⟩

end Reader

end Readers
