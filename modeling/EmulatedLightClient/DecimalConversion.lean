import EmulatedLightClient.TransferContext

/-!
# Conversion of decimals

An amount is divided or multiplied by a power of ten, which is taken first and has to fit into 256 bits on
its own.
-/

namespace SolanaIbc

/-- What an amount is worth with other decimals, if that can be written. -/
def exactAmount (amount original effective : Nat) : Option Nat :=
  if effective ≤ original then some (amount / 10 ^ (original - effective))
  else if amount * 10 ^ (effective - original) < 2 ^ 256 then some (amount * 10 ^ (effective - original))
  else none

variable {a b n m : Nat} {o e : Fin (2 ^ 8)}

/-- The largest power of ten which fits. -/
theorem exp10_fits_iff : 10 ^ n < 2 ^ 256 ↔ n ≤ 77 := by
  have hfits : 10 ^ 77 < 2 ^ 256 := by decide
  have hlarge : 2 ^ 256 ≤ 10 ^ 78 := by decide
  constructor
  · intro h
    by_contra hn
    have hpow : 10 ^ 78 ≤ 10 ^ n := Nat.pow_le_pow_right (by decide) (by omega)
    omega
  · intro h
    have hpow : 10 ^ n ≤ 10 ^ 77 := Nat.pow_le_pow_right (by decide) h
    omega

theorem pow_ten_pos (n : Nat) : 0 < 10 ^ n := Nat.pow_pos (by decide)

theorem exp10_eq : exp10 n = if n ≤ 77 then some (10 ^ n) else none := by
  simp only [exp10, exp10_fits_iff]

/-- There is an amount, or none for one which does not fit, as long as the power of ten fits; otherwise the
conversion panics. -/
theorem convertDecimals_eq : convertDecimals a o e =
    if o.val ≤ e.val + 77 ∧ e.val ≤ o.val + 77 then some (exactAmount a o e) else none := by
  unfold convertDecimals exactAmount
  cases hcmp : compare o e with
  | lt =>
    have hlt : o.val < e.val := Nat.compare_eq_lt.mp hcmp
    dsimp only
    by_cases hfits : e.val - o.val ≤ 77
    · rw [exp10_eq, if_pos hfits, if_pos (by omega), if_neg (by omega), Option.map_some]
    · rw [exp10_eq, if_neg hfits, if_neg (by omega), Option.map_none]
  | eq =>
    have heq : o.val = e.val := Nat.compare_eq_eq.mp hcmp
    dsimp only
    rw [if_pos (by omega), if_pos (by omega), heq, Nat.sub_self, Nat.pow_zero, Nat.div_one]
  | gt =>
    have hgt : e.val < o.val := Nat.compare_eq_gt.mp hcmp
    dsimp only
    by_cases hfits : o.val - e.val ≤ 77
    · rw [exp10_eq, if_pos hfits, if_pos (by omega), if_pos (by omega), Option.map_some,
        if_neg (Nat.ne_of_gt (pow_ten_pos _))]
    · rw [exp10_eq, if_neg hfits, if_neg (by omega), Option.map_none]

theorem exactAmount_mono {original effective : Nat} (hab : a ≤ b) (h : exactAmount b original effective = some n) :
    ∃ m, exactAmount a original effective = some m ∧ m ≤ n := by
  unfold exactAmount at h ⊢
  split at h
  · rename_i hle
    cases h
    exact ⟨_, if_pos hle, Nat.div_le_div_right hab⟩
  · rename_i hle
    split at h
    · rename_i hfits
      cases h
      have hmul := Nat.mul_le_mul_right (10 ^ (effective - original)) hab
      exact ⟨_, by rw [if_neg hle, if_pos (Nat.lt_of_le_of_lt hmul hfits)], hmul⟩
    · cases h

/-- Up and then down again. -/
theorem exactAmount_up_down {original effective : Nat} (hle : original ≤ effective)
    (h : exactAmount a original effective = some n) : exactAmount n effective original = some a := by
  unfold exactAmount at h ⊢
  rw [if_pos hle]
  split at h
  · rename_i hge
    cases h
    rw [Nat.le_antisymm hge hle, Nat.sub_self, Nat.pow_zero, Nat.div_one, Nat.div_one]
  · split at h
    · cases h
      rw [Nat.mul_div_cancel _ (pow_ten_pos _)]
    · cases h

theorem convertDecimals_eq_some {r : Option Nat} (h : convertDecimals a o e = some r) :
    (o.val ≤ e.val + 77 ∧ e.val ≤ o.val + 77) ∧ exactAmount a o e = r := by
  rw [convertDecimals_eq] at h
  split at h
  · rename_i hfits
    exact ⟨hfits, Option.some.inj h⟩
  · cases h

/-- The conversion is exact if and only if the decimals are at most 77 apart; when it gives amounts they are in
order, and converting up and back down again changes nothing. -/
theorem convertDecimals_exact_iff (a : Nat) (o e : Fin (2 ^ 8)) :
    (convertDecimals a o e = some (exactAmount a o e) ↔ o.val ≤ e.val + 77 ∧ e.val ≤ o.val + 77) ∧
    (∀ b n, a ≤ b → convertDecimals b o e = some (some n) → ∃ m, convertDecimals a o e = some (some m) ∧ m ≤ n) ∧
    (∀ n, o ≤ e → convertDecimals a o e = some (some n) → convertDecimals n e o = some (some a)) := by
  refine ⟨?_, fun b n hab h => ?_, fun n hle h => ?_⟩
  · constructor
    · intro h
      exact (convertDecimals_eq_some h).1
    · intro h
      rw [convertDecimals_eq, if_pos h]
  · obtain ⟨hfits, hexact⟩ := convertDecimals_eq_some h
    obtain ⟨m, hm, hle⟩ := exactAmount_mono hab hexact
    exact ⟨m, by rw [convertDecimals_eq, if_pos hfits, hm], hle⟩
  · obtain ⟨hfits, hexact⟩ := convertDecimals_eq_some h
    rw [convertDecimals_eq, if_pos hfits.symm, exactAmount_up_down hle hexact]

/-- Decimals as of the source's test. -/
theorem convertDecimals_exact_sample : convertDecimals 1000000000000000 9 6 = some (some 1000000000000) :=
  (convertDecimals_exact_iff 1000000000000000 9 6).1.mpr (by decide)

/-- Decimals of an asset which can be registered. -/
theorem convertDecimals_panics : convertDecimals 1 78 0 = none ∧ exactAmount 1 78 0 = some 0 := by
  decide

end SolanaIbc
