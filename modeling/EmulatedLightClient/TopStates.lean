import EmulatedLightClient.ConsensusStates
import EmulatedLightClient.TopElements

/-!
# The consensus states which are kept

Of the consensus states of a client the ones with the greatest heights are to be kept. The lowest one gives
way to a new one even if that is lower.
-/

namespace SolanaIbc.Storage.IbcStorage

open LinearMaps TopElements TrieIds

/-- Insertions into the list of a new client. -/
def insertAll (calls : List (IbcHeight × ClientConsensusState)) : Option (LinearMap IbcHeight ClientConsensusState) :=
  calls.foldlM (fun states call => insertConsensusState states call.1 call.2) []

/-- The height is there already, there is room, or a lower one gives way. -/
def Accepts (states : LinearMap IbcHeight ClientConsensusState) (height : IbcHeight) : Prop :=
  height ∈ states.keys ∨ states.length < maxConsensusStates ∨ ∃ h ∈ states.keys, h < height

/-- At most so many states are kept, no height twice, each the last one inserted. -/
structure Bounded (calls : List (IbcHeight × ClientConsensusState))
    (states : LinearMap IbcHeight ClientConsensusState) : Prop where
  nodup : states.keys.Nodup
  length : states.length ≤ maxConsensusStates
  latest : ∀ h ∈ states.keys, LinearMap.get h states = LinearMap.get h calls.reverse

theorem minIdx_spec {idx n : Nat} {best : IbcHeight} {found : Option Nat} {hs : List IbcHeight}
    (h : minIdx idx best found hs = some n) :
    (found = some n ∧ ∀ y ∈ hs, best ≤ y) ∨ ∃ i x, n = idx + i ∧ hs[i]? = some x ∧ x < best ∧ ∀ y ∈ hs, x ≤ y := by
  induction hs generalizing idx best found with
  | nil => exact .inl ⟨h, List.forall_mem_nil _⟩
  | cons x hs ih =>
    rw [minIdx] at h
    split at h
    · rename_i hlt
      rw [IbcHeight.blt_iff] at hlt
      rcases ih h with ⟨hn, hbest⟩ | ⟨i, y, rfl, hi, hyx, hy⟩
      · cases hn
        exact .inr ⟨0, x, rfl, rfl, hlt, List.forall_mem_cons.mpr ⟨le_rfl, hbest⟩⟩
      · refine .inr ⟨i + 1, y, by omega, by rwa [List.getElem?_cons_succ], hyx.trans hlt, ?_⟩
        exact List.forall_mem_cons.mpr ⟨hyx.le, hy⟩
    · rename_i hnlt
      rw [IbcHeight.blt_iff, not_lt] at hnlt
      rcases ih h with ⟨hn, hbest⟩ | ⟨i, y, rfl, hi, hyx, hy⟩
      · exact .inl ⟨hn, List.forall_mem_cons.mpr ⟨hnlt, hbest⟩⟩
      · refine .inr ⟨i + 1, y, by omega, by rwa [List.getElem?_cons_succ], hyx, ?_⟩
        exact List.forall_mem_cons.mpr ⟨hyx.le.trans hnlt, hy⟩

theorem minIdx_isSome {idx : Nat} {best : IbcHeight} {found : Option Nat} {hs : List IbcHeight}
    (h : found.isSome ∨ ∃ x ∈ hs, x < best) : (minIdx idx best found hs).isSome := by
  induction hs generalizing idx best found with
  | nil =>
    rcases h with h | ⟨x, hx, -⟩
    · exact h
    · cases hx
  | cons y hs ih =>
    rw [minIdx]
    split
    · exact ih (.inl rfl)
    · rename_i hnlt
      rcases h with h | ⟨x, hx, hlt⟩
      · exact ih (.inl h)
      · rcases List.mem_cons.mp hx with rfl | hx
        · exact absurd (IbcHeight.blt_iff.mpr hlt) hnlt
        · exact ih (.inr ⟨x, hx, hlt⟩)

/-- Of two different heights one is not the greatest there is, so a full list has a lowest height. -/
theorem minIdx_of_full {hs : List IbcHeight} (hnodup : hs.Nodup) (hlen : 2 ≤ hs.length) :
    ∃ i m, minIdx 0 maxHeight none hs = some i ∧ hs[i]? = some m ∧ ∀ y ∈ hs, m ≤ y := by
  have hsmall : ∃ x ∈ hs, x < maxHeight := by
    by_contra hnone
    have hall : ∀ x ∈ hs, x = maxHeight := by
      intro x hx
      by_contra hne
      exact hnone ⟨x, hx, lt_of_le_of_ne (le_maxHeight x) hne⟩
    obtain ⟨a, b, t, rfl⟩ : ∃ a b t, hs = a :: b :: t := by
      obtain ⟨a, hs', rfl⟩ := List.exists_cons_of_length_pos (Nat.lt_of_lt_of_le Nat.two_pos hlen)
      obtain ⟨b, t, rfl⟩ := List.exists_cons_of_length_pos (Nat.lt_of_succ_le (Nat.le_of_succ_le_succ hlen))
      exact ⟨a, b, t, rfl⟩
    have hab : a = b := (hall a List.mem_cons_self).trans (hall b (List.mem_cons_of_mem _ List.mem_cons_self)).symm
    exact (List.nodup_cons.mp hnodup).1 (hab ▸ List.mem_cons_self)
  have hfound : (minIdx 0 maxHeight none hs).isSome := minIdx_isSome (.inr hsmall)
  obtain ⟨n, hn⟩ := Option.isSome_iff_exists.mp hfound
  rcases minIdx_spec hn with ⟨h, -⟩ | ⟨i, m, rfl, hi, -, hm⟩
  · cases h
  · exact ⟨0 + i, m, hn, by rwa [Nat.zero_add], hm⟩

section

variable {calls : List (IbcHeight × ClientConsensusState)} {states states' : LinearMap IbcHeight ClientConsensusState}
  {height h : IbcHeight} {state : ClientConsensusState}

/-- What an insertion does to the heights: the height is there, there is room for it, or it takes the place of
the lowest one. -/
theorem insertConsensusState_keys (hnodup : states.keys.Nodup) (hlen : states.length ≤ maxConsensusStates)
    (height : IbcHeight)
    (state : ClientConsensusState) : ∃ states', insertConsensusState states height state = some states' ∧
      ((height ∈ states.keys ∧ states'.keys = states.keys) ∨
        (height ∉ states.keys ∧ states.length < maxConsensusStates ∧ states'.keys = states.keys ++ [height]) ∨
        (height ∉ states.keys ∧ states.length = maxConsensusStates ∧
          ∃ i m, states.keys[i]? = some m ∧ (∀ y ∈ states.keys, m ≤ y) ∧ states'.keys = states.keys.set i height)) := by
  unfold insertConsensusState
  by_cases hmem : height ∈ states.keys
  · exact ⟨_, if_pos hmem, .inl ⟨hmem, LinearMap.keys_upsert hmem⟩⟩
  · rw [if_neg hmem]
    by_cases hroom : states.length < maxConsensusStates
    · exact ⟨_, if_pos hroom, .inr (.inl ⟨hmem, hroom, List.map_append⟩)⟩
    · have hfull : states.length = maxConsensusStates := by omega
      have htwo : 2 ≤ states.keys.length := by
        rw [LinearMap.keys, List.length_map, hfull]
        decide
      obtain ⟨i, m, hi, hm, hleast⟩ := minIdx_of_full hnodup htwo
      rw [if_neg hroom, hi]
      exact ⟨_, rfl, .inr (.inr ⟨hmem, hfull, i, m, hm, hleast, LinearMap.keys_set⟩)⟩

theorem length_keys : states.keys.length = states.length := List.length_map _

/-- One insertion keeps the bounds. -/
theorem Bounded.insert (hb : Bounded calls states) (hinsert : insertConsensusState states height state = some states') :
    Bounded (calls ++ [(height, state)]) states' := by
  obtain ⟨hnodup, -, hget⟩ := insertConsensusState_get hb.nodup hinsert
  obtain ⟨states'', hinsert', hkeys⟩ := insertConsensusState_keys hb.nodup hb.length height state
  rw [hinsert] at hinsert'
  cases hinsert'
  refine ⟨hnodup, ?_, fun h hh => ?_⟩
  · rw [← length_keys]
    have hlen := hb.length
    rcases hkeys with ⟨-, hkeys⟩ | ⟨-, hroom, hkeys⟩ | ⟨-, hfull, i, m, -, -, hkeys⟩
    · rw [hkeys, length_keys]
      exact hlen
    · rw [hkeys, List.length_append, length_keys, List.length_singleton]
      omega
    · rw [hkeys, List.length_set, length_keys]
      omega
  · rw [List.reverse_append, List.reverse_singleton, List.singleton_append, LinearMap.get, hget h]
    by_cases heq : h = height
    · rw [if_pos heq, if_pos heq.symm]
    · have hkept : LinearMap.get h states' ≠ none := fun hnone => LinearMap.get_eq_none.mp hnone hh
      rw [hget h, if_neg heq] at hkept
      rw [if_neg heq, if_neg (Ne.symm heq)]
      split at hkept
      · exact absurd rfl hkept
      · rename_i hevicted
        rw [if_neg hevicted]
        exact hb.latest h (not_not.mp fun hmem => hkept (LinearMap.get_eq_none.mpr hmem))

theorem keepsTop_insert (hlen : states.length ≤ maxConsensusStates)
    (htop : KeepsTop maxConsensusStates (calls.map (·.1)) states.keys)
    (hinsert : insertConsensusState states height state = some states') :
    KeepsTop maxConsensusStates ((calls ++ [(height, state)]).map (·.1)) states'.keys ↔ Accepts states height := by
  obtain ⟨states'', hinsert', hkeys⟩ := insertConsensusState_keys htop.nodup hlen height state
  rw [hinsert] at hinsert'
  cases hinsert'
  rw [List.map_append, List.map_singleton]
  rcases hkeys with ⟨hmem, hkeys⟩ | ⟨hnew, hroom, hkeys⟩ | ⟨hnew, hfull, i, m, hm, hleast, hkeys⟩
  · rw [hkeys]
    exact iff_of_true (htop.again hmem) (.inl hmem)
  · rw [hkeys]
    exact iff_of_true (htop.add hnew (by rwa [length_keys])) (.inr (.inl hroom))
  · rw [hkeys]
    constructor
    · intro htop'
      have hlt := not_not.mp fun hlt => htop.not_replace hnew hm hlt htop'
      exact .inr (.inr ⟨m, List.mem_of_getElem? hm, hlt⟩)
    · rintro (hmem | hroom | ⟨h, hh, hlt⟩)
      · exact absurd hmem hnew
      · omega
      · exact htop.replace hnew (length_keys.trans hfull) hm hleast ((hleast h hh).trans_lt hlt)

end

theorem insertAll_append (calls : List (IbcHeight × ClientConsensusState)) (c : IbcHeight × ClientConsensusState) :
    insertAll (calls ++ [c]) = (insertAll calls).bind fun states => insertConsensusState states c.1 c.2 := by
  simp only [insertAll, List.foldlM_append, List.foldlM_cons, List.foldlM_nil, bind_pure]
  rfl

/-- No insertion fails. -/
theorem insertAll_bounded (calls : List (IbcHeight × ClientConsensusState)) :
    ∃ states, insertAll calls = some states ∧ Bounded calls states := by
  induction calls using List.reverseRecOn with
  | nil => exact ⟨[], rfl, List.nodup_nil, Nat.zero_le _, List.forall_mem_nil _⟩
  | append_singleton calls c ih =>
    obtain ⟨states, hrun, hb⟩ := ih
    obtain ⟨states', hinsert, -⟩ := insertConsensusState_keys hb.nodup hb.length c.1 c.2
    exact ⟨states', by rw [insertAll_append, hrun, Option.bind_some, hinsert], hb.insert hinsert⟩

/-- In every run at most so many heights are kept, each once and with the last state inserted for it. They are the
greatest ones after every insertion if and only if no insertion into a full list is of a new height below all of
those there. -/
theorem topStates_iff (calls : List (IbcHeight × ClientConsensusState)) :
    (∃ states, insertAll calls = some states ∧ Bounded calls states) ∧
      ((∀ before after, calls = before ++ after → ∀ states, insertAll before = some states →
          KeepsTop maxConsensusStates (before.map (·.1)) states.keys) ↔
        ∀ before c after, calls = before ++ c :: after → ∀ states, insertAll before = some states →
          Accepts states c.1) := by
  refine ⟨insertAll_bounded calls, ?_, ?_⟩
  · rintro htop before c after rfl states hrun
    obtain ⟨states₀, hrun₀, hb⟩ := insertAll_bounded before
    obtain rfl := Option.some.inj (hrun₀.symm.trans hrun)
    obtain ⟨states', hinsert, -⟩ := insertConsensusState_keys hb.nodup hb.length c.1 c.2
    have hrun' : insertAll (before ++ [c]) = some states' := by rw [insertAll_append, hrun, Option.bind_some, hinsert]
    have htop' := htop (before ++ [c]) after (by simp) states' hrun'
    exact (keepsTop_insert hb.length (htop before (c :: after) rfl _ hrun) hinsert).mp htop'
  · rintro haccepts before after rfl
    induction before using List.reverseRecOn generalizing after with
    | nil =>
      rintro states hrun
      cases hrun
      exact KeepsTop.nil
    | append_singleton before c ih =>
      intro states hrun
      obtain ⟨states₀, hrun₀, hb⟩ := insertAll_bounded before
      rw [insertAll_append, hrun₀, Option.bind_some] at hrun
      have htop := ih (c :: after) (by rintro b d a heq; exact haccepts b d a (by rw [← heq]; simp)) states₀ hrun₀
      have haccept := haccepts before c after (by simp) states₀ hrun₀
      exact (keepsTop_insert hb.length htop hrun).mpr haccept

/-- Insertions of given heights. -/
def insertions (heights : List Nat) : List (IbcHeight × ClientConsensusState) :=
  heights.map fun h => (⟨1, u64 h⟩, ⟨[]⟩)

/-- A full list of the heights from two on, and then the height one. -/
theorem topStates_lost : ∃ states, insertAll (insertions ((List.range 64).map (· + 2) ++ [1])) = some states ∧
    ¬KeepsTop maxConsensusStates ((insertions ((List.range 64).map (· + 2) ++ [1])).map (·.1)) states.keys := by
  have hrun : ((insertAll (insertions ((List.range 64).map (· + 2) ++ [1]))).any fun states =>
      decide ((⟨1, 1⟩ : IbcHeight) ∈ states.keys) && !decide ((⟨1, 2⟩ : IbcHeight) ∈ states.keys)) = true := by
    decide +kernel
  obtain ⟨states, hstates, hkeys⟩ := (Option.any_eq_true _ _).mp hrun
  simp only [Bool.and_eq_true, decide_eq_true_eq, Bool.not_eq_true', decide_eq_false_iff_not] at hkeys
  refine ⟨states, hstates, fun htop => ?_⟩
  have hseen : (⟨1, 2⟩ : IbcHeight) ∈ (insertions ((List.range 64).map (· + 2) ++ [1])).map (·.1) := by
    decide
  exact absurd ((htop.dropped _ hseen hkeys.2).2 _ hkeys.1) (by decide)

end SolanaIbc.Storage.IbcStorage
