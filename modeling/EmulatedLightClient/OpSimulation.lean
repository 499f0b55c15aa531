import EmulatedLightClient.FailingState

/-!
# Programs which follow other programs

A program on one kind of state follows a program on another one if it does the same
through a map between the states. It need not where the other program comes to a stop, a
failure which is known not to happen. The states of the program which is followed keep an
invariant and the values they lead to have the property which the rest relies on.
-/

namespace FailingState.Op

universe u v v' w
variable {ε : Type u} {σ : Type v} {σ' : Type v'} {α β : Type w} (φ : σ → σ') (I : σ → Prop) (stop : ε)

def Follows (x : Op ε σ' α) (y : Op ε σ α) (Q : α → Prop) : Prop :=
  ∀ s, I s → (y s).1 = .error stop ∨ (x (φ s) = ((y s).1, φ (y s).2) ∧ I (y s).2 ∧ ∀ a, (y s).1 = .ok a → Q a)

variable {φ I stop} {x : Op ε σ' α} {y : Op ε σ α} {Q : α → Prop} {f : α → Op ε σ' β} {g : α → Op ε σ β} {R : β → Prop}

theorem follows_pure {a : α} (h : Q a) : Follows φ I stop (pure a) (pure a) Q := by
  intro s hs
  refine Or.inr ⟨rfl, hs, ?_⟩
  intro b hb
  cases hb
  exact h

theorem follows_fail (e : ε) : Follows φ I stop (fail e) (fail e) Q := by
  intro s hs
  refine Or.inr ⟨rfl, hs, ?_⟩
  intro b hb
  cases hb

theorem follows_modify {m : σ → σ} {m' : σ' → σ'} (h : ∀ s, I s → m' (φ s) = φ (m s) ∧ I (m s)) :
    Follows φ I stop (modify m') (modify m) fun _ => True := by
  intro s hs
  obtain ⟨hm, hi⟩ := h s hs
  refine Or.inr ⟨?_, hi, fun _ _ => trivial⟩
  change (Except.ok _, m' (φ s)) = (Except.ok _, φ (m s))
  rw [hm]

/-- The rule of sequencing. -/
theorem Follows.bind (hx : Follows φ I stop x y Q) (hf : ∀ a, Q a → Follows φ I stop (f a) (g a) R) :
    Follows φ I stop (x >>= f) (y >>= g) R := by
  intro s hs
  have hxs := hx s hs
  have hy' : (y >>= g) s = andThen y g s := rfl
  have hx' : (x >>= f) (φ s) = andThen x f (φ s) := rfl
  rw [hy', hx']
  unfold andThen
  cases hy : y s with
  | mk r s' =>
    rw [hy] at hxs
    dsimp only at hxs
    rcases hxs with rfl | ⟨hsame, hi, hq⟩
    · exact Or.inl rfl
    · rw [hsame]
      cases r with
      | ok a => exact hf a (hq a rfl) s' hi
      | error e =>
        refine Or.inr ⟨rfl, hi, ?_⟩
        intro b hb
        cases hb

/-- The rule of consequence. -/
theorem Follows.mono {Q' : α → Prop} (h : Follows φ I stop x y Q) (hq : ∀ a, Q a → Q' a) : Follows φ I stop x y Q' := by
  intro s hs
  rcases h s hs with hstop | ⟨hsame, hi, hvalue⟩
  · exact Or.inl hstop
  · exact Or.inr ⟨hsame, hi, fun a ha => hq a (hvalue a ha)⟩

end FailingState.Op
