import EmulatedLightClient.CandidatesSpec
import EmulatedLightClient.FailingState
import EmulatedLightClient.GuestChainInvariant

/-!
# Candidates as a map

Whatever calls are made, the list of candidates is a map from public keys to
stakes kept in order. Each call changes the map for the one key it is about.
-/

namespace GuestChain

open MachineInts FailingState Weights

namespace Candidates

variable {PK : Type} [LinearOrder PK]

def keys (l : List (Candidate PK)) : List PK := l.map (·.pubkey)

/-- Stake of the candidate with given key. -/
def stakeOf (l : List (Candidate PK)) (pubkey : PK) : Option NonZeroU128 :=
  (l.find? fun el => el.pubkey = pubkey).map (·.stake)

variable {l : List (Candidate PK)} {pubkey : PK}

theorem stakeOf_eq_some (hl : (keys l).Nodup) {stake : NonZeroU128} :
    stakeOf l pubkey = some stake ↔ ⟨pubkey, stake⟩ ∈ l := by
  unfold stakeOf
  constructor
  · intro h
    obtain ⟨⟨pk, stake'⟩, hfind, rfl⟩ := Option.map_eq_some_iff.mp h
    have hpk : pk = pubkey := by simpa using List.find?_some hfind
    cases hpk
    exact List.mem_of_find?_eq_some hfind
  · intro h
    cases hfind : l.find? fun el => el.pubkey = pubkey with
    | none => simpa using List.find?_eq_none.mp hfind _ h
    | some el =>
      have hpk : el.pubkey = pubkey := by simpa using List.find?_some hfind
      have hsame := List.inj_on_of_nodup_map hl (List.mem_of_find?_eq_some hfind) h hpk
      rw [hsame]
      rfl

theorem mem_eraseP (hl : (keys l).Nodup) {el : Candidate PK} :
    el ∈ l.eraseP (fun el => el.pubkey = pubkey) ↔ el ∈ l ∧ el.pubkey ≠ pubkey := by
  induction l with
  | nil => simp
  | cons b l ih =>
    obtain ⟨hb, hl⟩ := List.nodup_cons.mp hl
    by_cases hpk : b.pubkey = pubkey
    · rw [List.eraseP_cons_of_pos (by simpa using hpk)]
      constructor
      · intro hmem
        refine ⟨List.mem_cons_of_mem _ hmem, fun heq => hb ?_⟩
        exact List.mem_map.mpr ⟨el, hmem, heq.trans hpk.symm⟩
      · rintro ⟨hmem, hne⟩
        rcases List.mem_cons.mp hmem with rfl | hmem
        · exact absurd hpk hne
        · exact hmem
    · rw [List.eraseP_cons_of_neg (by simpa using hpk), List.mem_cons, List.mem_cons, ih hl]
      constructor
      · rintro (rfl | ⟨hmem, hne⟩)
        · exact ⟨Or.inl rfl, hpk⟩
        · exact ⟨Or.inr hmem, hne⟩
      · rintro ⟨rfl | hmem, hne⟩
        · exact Or.inl rfl
        · exact Or.inr ⟨hmem, hne⟩

theorem mem_requested (hl : (keys l).Nodup) {stake : Fin (2 ^ 128)} {el : Candidate PK} :
    el ∈ requested l pubkey stake ↔
      (el.pubkey = pubkey ∧ NonZero.new stake = some el.stake) ∨ (el.pubkey ≠ pubkey ∧ el ∈ l) := by
  unfold requested
  cases NonZero.new stake with
  | some stake =>
    simp only [List.mem_orderedInsert, mem_eraseP hl]
    constructor
    · rintro (rfl | ⟨hmem, hne⟩)
      · exact Or.inl ⟨rfl, rfl⟩
      · exact Or.inr ⟨hne, hmem⟩
    · rintro (⟨hpk, hstake⟩ | ⟨hne, hmem⟩)
      · left
        obtain ⟨pk, stake'⟩ := el
        cases hpk
        cases hstake
        rfl
      · exact Or.inr ⟨hmem, hne⟩
  | none =>
    simp only [mem_eraseP hl]
    constructor
    · exact fun h => Or.inr ⟨h.2, h.1⟩
    · rintro (⟨-, h⟩ | h)
      · cases h
      · exact ⟨h.2, h.1⟩

theorem requested_nodup (hl : (keys l).Nodup) (pubkey : PK) (stake : Fin (2 ^ 128)) :
    (keys (requested l pubkey stake)).Nodup := by
  have hrest : (keys (l.eraseP fun el => el.pubkey = pubkey)).Nodup :=
    hl.sublist (List.eraseP_sublist.map _)
  unfold requested
  cases NonZero.new stake with
  | none => exact hrest
  | some stake =>
    refine ((List.perm_orderedInsert _ _ _).map Candidate.pubkey).nodup_iff.mpr ?_
    refine List.nodup_cons.mpr ⟨fun hmem => ?_, hrest⟩
    obtain ⟨el, hel, hpk⟩ := List.mem_map.mp hmem
    exact ((mem_eraseP hl).mp hel).2 hpk

/-- As a map the requested list differs at the one key. -/
theorem stakeOf_requested (hl : (keys l).Nodup) (pubkey : PK) (stake : Fin (2 ^ 128)) :
    stakeOf (requested l pubkey stake) =
      Function.update (stakeOf l) pubkey (NonZero.new stake) := by
  funext pk
  refine Option.ext fun s => ?_
  rw [stakeOf_eq_some (requested_nodup hl pubkey stake), mem_requested hl]
  by_cases hpk : pk = pubkey
  · subst hpk
    rw [Function.update_self]
    constructor
    · rintro (⟨-, h⟩ | ⟨hne, -⟩)
      · exact h
      · exact absurd rfl hne
    · exact fun h => Or.inl ⟨rfl, h⟩
  · rw [Function.update_of_ne hpk, stakeOf_eq_some hl]
    constructor
    · rintro (⟨heq, -⟩ | ⟨-, hmem⟩)
      · exact absurd heq hpk
      · exact hmem
    · exact fun h => Or.inr ⟨hpk, h⟩

/-- Calls which change the candidates, apart from clearing the flag. -/
inductive Change (PK E : Type) where
  | update (cfg : Config) (pubkey : PK)
      (newStakeFn : Option (Candidate PK) → Except E (Fin (2 ^ 128)))
  | updateMaxValidators (maxValidators : NonZeroU16)

variable {E : Type} [OfUpdateCandidateError E]

def step (c : Candidates PK) : Change PK E → Option (Candidates PK)
  | .update cfg pubkey newStakeFn => (c.update cfg pubkey newStakeFn).map (·.2)
  | .updateMaxValidators maxValidators => c.updateMaxValidators maxValidators

/-- The list is in order, it holds each key once and the head stake is the sum of the
first stakes. -/
structure Ordered (c : Candidates PK) : Prop where
  sorted : c.candidates.Pairwise (· < ·)
  distinct : (keys c.candidates).Nodup
  headStake : c.headStake =
    ((c.candidates.take c.maxValidators.get).map (·.stake.get)).sum

variable {c c' : Candidates PK}

theorem ordered_iff : c.Ordered ∧ c.headStake < 2 ^ 128 ↔ c.Sound ∧ (keys c.candidates).Nodup := by
  constructor
  · rintro ⟨h, hfits⟩
    exact ⟨⟨h.sorted.imp fun hlt => hlt.le, h.headStake, hfits⟩, h.distinct⟩
  · rintro ⟨h, hdistinct⟩
    refine ⟨⟨?_, hdistinct, h.headStake⟩, h.fits⟩
    refine (h.sorted.and (List.pairwise_map.mp hdistinct)).imp ?_
    rintro a b ⟨hle, hne⟩
    refine lt_of_le_of_ne hle ?_
    rintro rfl
    exact hne rfl

/-- What a call on candidates may do. -/
structure Lawful (c : Candidates PK) : Prop where
  update_panics : ∀ (cfg : Config) (pubkey : PK)
    (newStakeFn : Option (Candidate PK) → Except E (Fin (2 ^ 128))),
    c.update cfg pubkey newStakeFn = none → ∃ stake,
      newStakeFn (c.candidates.find? fun el => el.pubkey = pubkey) = .ok stake ∧
      2 ^ 128 ≤ headWeight Candidate.weight c.maxValidators.get
        (requested c.candidates pubkey stake)
  update_fails : ∀ (cfg : Config) (pubkey : PK)
    (newStakeFn : Option (Candidate PK) → Except E (Fin (2 ^ 128))) (e : E) (c' : Candidates PK),
    c.update cfg pubkey newStakeFn = some (.error e, c') → c' = c
  update_succeeds : ∀ (cfg : Config) (pubkey : PK)
    (newStakeFn : Option (Candidate PK) → Except E (Fin (2 ^ 128))) (c' : Candidates PK),
    c.update cfg pubkey newStakeFn = some (.ok (), c') → ∃ stake,
      newStakeFn (c.candidates.find? fun el => el.pubkey = pubkey) = .ok stake ∧
      stakeOf c'.candidates = Function.update (stakeOf c.candidates) pubkey (NonZero.new stake)
  resize_panics : ∀ maxValidators, c.updateMaxValidators maxValidators = none →
    2 ^ 128 ≤ headWeight Candidate.weight maxValidators.get c.candidates
  resize_succeeds : ∀ maxValidators c', c.updateMaxValidators maxValidators = some c' →
    c'.candidates = c.candidates ∧ c'.maxValidators = maxValidators

theorem Sound.lawful (hc : c.Sound) (hdistinct : (keys c.candidates).Nodup) :
    Lawful (E := E) c := by
  constructor
  · intro cfg pubkey newStakeFn h
    obtain ⟨e, -, he⟩ | ⟨stake, hstake, houtcome⟩ := update_outcome hc cfg pubkey newStakeFn
    · cases h.symm.trans he
    · rw [h] at houtcome
      cases houtcome with
      | panics hover => exact ⟨stake, hstake, hover⟩
  · intro cfg pubkey newStakeFn e c' h
    obtain ⟨e', -, he⟩ | ⟨stake, -, houtcome⟩ := update_outcome hc cfg pubkey newStakeFn
    · cases h.symm.trans he
      rfl
    · rw [h] at houtcome
      cases houtcome with
      | fails => rfl
  · intro cfg pubkey newStakeFn c' h
    obtain ⟨e', -, he⟩ | ⟨stake, hstake, houtcome⟩ := update_outcome hc cfg pubkey newStakeFn
    · cases h.symm.trans he
    · rw [h] at houtcome
      cases houtcome with
      | succeeds hreplaced =>
        refine ⟨stake, hstake, ?_⟩
        rw [hreplaced.candidates, stakeOf_requested hdistinct]
  · exact fun maxValidators => (updateMaxValidators_spec hc maxValidators).1
  · intro maxValidators c' h
    have hresized := (updateMaxValidators_spec hc maxValidators).2 c' h
    exact ⟨hresized.candidates, hresized.maxValidators⟩

theorem step_sound (change : Change PK E) (hc : c.Sound ∧ (keys c.candidates).Nodup)
    (hstep : c.step change = some c') : c'.Sound ∧ (keys c'.candidates).Nodup := by
  obtain ⟨hsound, hdistinct⟩ := hc
  cases change with
  | update cfg pubkey newStakeFn =>
    obtain ⟨⟨r, c''⟩, hupdate, rfl⟩ := Option.map_eq_some_iff.mp hstep
    obtain ⟨e', -, he⟩ | ⟨stake, -, houtcome⟩ := update_outcome hsound cfg pubkey newStakeFn
    · cases hupdate.symm.trans he
      exact ⟨hsound, hdistinct⟩
    · rw [hupdate] at houtcome
      cases houtcome with
      | fails => exact ⟨hsound, hdistinct⟩
      | succeeds h =>
        refine ⟨h.sound (requested_sorted hsound.sorted _ _), ?_⟩
        show (keys c''.candidates).Nodup
        rw [h.candidates]
        exact requested_nodup hdistinct _ _
  | updateMaxValidators maxValidators =>
    have h := (updateMaxValidators_spec hsound maxValidators).2 c' hstep
    exact ⟨h.sound hsound, h.candidates ▸ hdistinct⟩

omit [LinearOrder PK] in
theorem headWeight_le_sum {l' : List (Candidate PK)} (h : l'.Perm l) (n : Nat) :
    headWeight Candidate.weight n l' ≤ (l.map (·.stake.get)).sum := by
  calc headWeight Candidate.weight n l'
      ≤ (l'.map Candidate.weight).sum := by
        refine List.Sublist.sum_le_sum ((List.take_sublist n l').map _) ?_
        intro _ _
        exact Nat.zero_le _
    _ = (l.map (·.stake.get)).sum := (h.map _).sum_eq

theorem new_isSome (maxValidators : NonZeroU16) {validators : List (Validator PK)}
    (h : totalOf validators < 2 ^ 128) : ∃ c, Candidates.new maxValidators validators = some c := by
  have hle := headWeight_le_sum
    (List.perm_insertionSort (· ≤ ·) (validators.map Candidate.ofValidator)) maxValidators.get
  rw [List.map_map] at hle
  unfold Candidates.new fromCandidates
  simp only [sumHeadStake_eq]
  rw [if_pos (hle.trans_lt h)]
  exact ⟨_, rfl⟩

/-- Starting from distinct keys, candidates stay an ordered map after any calls and the
next call changes it as asked. It panics only when stake of the head would not fit. -/
theorem candidates_stay_ordered (maxValidators : NonZeroU16) {validators : List (Validator PK)}
    (hdistinct : (validators.map (·.pubkey)).Nodup) (hfits : totalOf validators < 2 ^ 128) :
    ∃ c₀, Candidates.new maxValidators validators = some c₀ ∧
      ∀ (changes : List (Change PK E)) (c : Candidates PK), changes.foldlM step c₀ = some c →
        c.Ordered ∧ Lawful (E := E) c := by
  obtain ⟨c₀, hnew⟩ := new_isSome maxValidators hfits
  refine ⟨c₀, hnew, fun changes c hrun => ?_⟩
  obtain ⟨hsound, -, hperm, -⟩ := new_spec hnew
  have hkeys : (keys c₀.candidates).Nodup := by
    refine (hperm.map Candidate.pubkey).nodup_iff.mpr ?_
    rw [List.map_map]
    exact hdistinct
  have hreached : c.Sound ∧ (keys c.candidates).Nodup :=
    foldlM_invariant (fun _ change _ h hstep => step_sound change h hstep) ⟨hsound, hkeys⟩ hrun
  exact ⟨(ordered_iff.mpr hreached).1, hreached.1.lawful hreached.2⟩

/-- Two candidates, one of which goes out of the head and comes back. -/
theorem candidates_stay_ordered_sample :
    ∃ c₀, Candidates.new (NonZero.clamp 1) [sampleValidator 1 5, sampleValidator 2 3] = some c₀ ∧
      ∀ (changes : List (Change MockPubKey UpdateCandidateError)) (c : Candidates MockPubKey),
        changes.foldlM step c₀ = some c → c.Ordered ∧ Lawful (E := UpdateCandidateError) c :=
  candidates_stay_ordered (NonZero.clamp 1) (by decide) (by decide)

/-- Stake of the first candidate fits but the two of them have too much. -/
theorem update_overflow_panics :
    ([sampleValidator 1 1].map (·.pubkey)).Nodup ∧ totalOf [sampleValidator 1 1] < 2 ^ 128 ∧
      (Candidates.new (NonZero.clamp 2) [sampleValidator 1 1]).map
        (fun c => (c.update sampleConfig 2
          fun _ => (.ok (Fin.last (2 ^ 128 - 1)) : Except UpdateCandidateError _)).isNone) =
        some true := by
  refine ⟨by decide, by decide, by decide⟩

end Candidates

end GuestChain
