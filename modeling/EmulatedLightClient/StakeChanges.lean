import EmulatedLightClient.CandidatesRefusals
import EmulatedLightClient.ContractCalls

/-!
# Changes of stake

The contract is given signed changes of stake and asks for them one at a time, each with the
stake the one before has left. In the end all which counts is the sum of the changes of each key.
-/

namespace GuestChain

open MachineInts Weights

namespace Candidates

variable {PK : Type} [LinearOrder PK]

section

variable {l l' : List (Candidate PK)} {pubkey : PK}

/-- Stake of the key, zero if there is no candidate. -/
def held (l : List (Candidate PK)) (pubkey : PK) : Nat := (stakeOf l pubkey).elim 0 (·.get)

theorem stakeOf_eq_none : stakeOf l pubkey = none ↔ pubkey ∉ keys l := by
  rw [stakeOf, Option.map_eq_none_iff, List.find?_eq_none, keys, List.mem_map]
  simp

theorem held_eq_zero : held l pubkey = 0 ↔ stakeOf l pubkey = none := by
  unfold held
  cases stakeOf l pubkey with
  | none => simp
  | some stake => simp [stake.pos.ne']

theorem held_inj : held l pubkey = held l' pubkey ↔ stakeOf l pubkey = stakeOf l' pubkey := by
  constructor
  · intro h
    cases hstake : stakeOf l pubkey with
    | none =>
      rw [held_eq_zero.mpr hstake] at h
      exact (held_eq_zero.mp h.symm).symm
    | some stake =>
      cases hstake' : stakeOf l' pubkey with
      | none =>
        rw [held_eq_zero.mpr hstake', held_eq_zero, hstake] at h
        cases h
      | some stake' =>
        rw [held, held, hstake, hstake'] at h
        exact congrArg some (NonZero.get_injective h)
  · intro h
    rw [held, held, h]

theorem held_requested (hl : (keys l).Nodup) (stake : Fin (2 ^ 128)) (pk : PK) :
    held (requested l pubkey stake) pk = if pubkey = pk then stake.val else held l pk := by
  rw [held, stakeOf_requested hl]
  split
  · rename_i hpk
    subst hpk
    rw [Function.update_self]
    cases hnew : NonZero.new stake with
    | none => exact (NonZero.new_eq_none hnew).symm
    | some nonzero => exact NonZero.new_eq_some hnew
  · rename_i hpk
    rw [Function.update_of_ne (Ne.symm hpk)]
    rfl

/-- There is one list in order for every map. -/
theorem eq_of_stakeOf (hl : l.Pairwise (· < ·)) (hl' : l'.Pairwise (· < ·)) (hdistinct : (keys l).Nodup)
    (hdistinct' : (keys l').Nodup) (h : ∀ pubkey, stakeOf l pubkey = stakeOf l' pubkey) : l = l' := by
  refine hl.eq_of_mem_iff hl' fun el => ?_
  obtain ⟨pubkey, stake⟩ := el
  rw [← stakeOf_eq_some hdistinct, ← stakeOf_eq_some hdistinct', h]

end

end Candidates

end GuestChain

namespace SolanaIbc

open FailingState GuestChain GuestChain.Candidates MachineInts Nodes

variable {PK : Type} [PubKey PK]

/-- What the changes add to the stake of the key. -/
def totalChange (changes : List (PK × BitVec 128)) (pubkey : PK) : Int :=
  ((changes.filter fun change => change.1 = pubkey).map (·.2.toInt)).sum

theorem totalChange_cons (change : PK × BitVec 128) (changes : List (PK × BitVec 128)) (pubkey : PK) :
    totalChange (change :: changes) pubkey =
      (if change.1 = pubkey then change.2.toInt else 0) + totalChange changes pubkey := by
  unfold totalChange
  rw [List.filter_cons]
  split <;> rename_i h
  · rw [if_pos (of_decide_eq_true h), List.map_cons, List.sum_cons]
  · rw [if_neg (by simpa using h), Int.zero_add]

theorem totalChange_append (changes changes' : List (PK × BitVec 128)) (pubkey : PK) :
    totalChange (changes ++ changes') pubkey = totalChange changes pubkey + totalChange changes' pubkey := by
  rw [totalChange, List.filter_append, List.map_append, List.sum_append]
  rfl

theorem totalChange_perm {changes changes' : List (PK × BitVec 128)} (h : changes.Perm changes') (pubkey : PK) :
    totalChange changes pubkey = totalChange changes' pubkey :=
  ((h.filter _).map _).sum_eq

theorem totalChange_of_not_mem {changes : List (PK × BitVec 128)} {pubkey : PK}
    (h : pubkey ∉ changes.map Prod.fst) : totalChange changes pubkey = 0 := by
  have hnone : changes.filter (fun change => change.1 = pubkey) = [] := by
    refine List.filter_eq_nil_iff.mpr fun change hmem heq => h ?_
    exact List.mem_map.mpr ⟨change, hmem, of_decide_eq_true heq⟩
  rw [totalChange, hnone]
  rfl

/-- Candidates in order, as the invariants of updates have it. -/
def Orderly (m : ChainManager PK) : Prop := m.candidates.Sound ∧ (keys m.candidates.candidates).Nodup

/-- Why a step which would leave the key with given stake does not succeed. -/
inductive Fails (m : ChainManager PK) (pubkey : PK) (stake : Int) : Prop
  | range (h : stake < 0 ∨ 2 ^ 128 ≤ stake)
  | limits {next : Fin (2 ^ 128)} (hnext : (next.val : Int) = stake) (h : m.candidates.Refused m.config pubkey next)
  | overflow {next : Fin (2 ^ 128)} (hnext : (next.val : Int) = stake)
      (h : 2 ^ 128 ≤ m.candidates.topStake (requested m.candidates.candidates pubkey next))

section

variable {c c' : ChainInner PK} {pubkey : PK} {amount : BitVec 128}

theorem addStake_ok {l : List (Candidate PK)} {stake : Fin (2 ^ 128)} :
    addStake amount (l.find? fun el => el.pubkey = pubkey) = .ok stake ↔
      (stake.val : Int) = held l pubkey + amount.toInt := by
  have hheld : ((l.find? fun el => el.pubkey = pubkey).elim 0 fun el => el.stake.get) = held l pubkey := by
    rw [held, stakeOf]
    cases l.find? fun el => el.pubkey = pubkey <;> rfl
  rw [addStake, hheld, ← checkedAddSigned_eq_some]
  cases checkedAddSigned 128 (held l pubkey) amount.toInt with
  | some stake' => simp
  | none =>
    refine iff_of_false ?_ (fun h => by cases h)
    simp only
    split
    · exact fun h => by cases h
    · split <;> exact fun h => by cases h

theorem updateCandidate_ok {newStakeFn : Option (Candidate PK) → Except Error (Fin (2 ^ 128))} :
    c.updateCandidate pubkey newStakeFn = .ok c' ↔
      ∃ candidates, c.manager.candidates.update c.manager.config pubkey newStakeFn = some (.ok (), candidates) ∧
        { c with manager := { c.manager with candidates } } = c' := by
  unfold ChainInner.updateCandidate ChainManager.updateCandidate
  cases hupdate : c.manager.candidates.update c.manager.config pubkey newStakeFn with
  | none =>
    refine iff_of_false (fun h => by cases h) ?_
    rintro ⟨candidates, h, -⟩
    cases h
  | some res =>
    obtain ⟨r, candidates⟩ := res
    cases r with
    | error e =>
      refine iff_of_false (fun h => by cases h) ?_
      rintro ⟨candidates', h, -⟩
      cases h
    | ok =>
      constructor
      · intro h
        exact ⟨candidates, rfl, Except.ok.inj h⟩
      · rintro ⟨candidates', h, rfl⟩
        cases h
        rfl

/-- What a change which gets through leaves behind. -/
theorem updateCandidate_adds (hc : Orderly c.manager) (h : c.updateCandidate pubkey (addStake amount) = .ok c') :
    Orderly c'.manager ∧ c'.manager.candidates.maxValidators = c.manager.candidates.maxValidators ∧
      ∀ pk, (held c'.manager.candidates.candidates pk : Int) =
        held c.manager.candidates.candidates pk + if pubkey = pk then amount.toInt else 0 := by
  obtain ⟨candidates, hupdate, rfl⟩ := updateCandidate_ok.mp h
  obtain ⟨hsound, hdistinct⟩ := hc
  obtain ⟨e, -, he⟩ | ⟨stake, hstake, houtcome⟩ := update_outcome hsound c.manager.config pubkey (addStake amount)
  · cases hupdate.symm.trans he
  · rw [hupdate] at houtcome
    cases houtcome with
    | succeeds hreplaced =>
      refine ⟨⟨hreplaced.sound (requested_sorted hsound.sorted _ _), ?_⟩, hreplaced.maxValidators, fun pk => ?_⟩
      · simp only
        rw [hreplaced.candidates]
        exact requested_nodup hdistinct _ _
      · simp only
        rw [hreplaced.candidates, held_requested hdistinct]
        split
        · rename_i hpk
          subst hpk
          exact addStake_ok.mp hstake
        · exact (Int.add_zero _).symm

theorem updateCandidate_fails_iff (hc : Orderly c.manager) :
    (∃ e, c.updateCandidate pubkey (addStake amount) = .error e) ↔
      Fails c.manager pubkey (held c.manager.candidates.candidates pubkey + amount.toInt) := by
  obtain ⟨hsound, hdistinct⟩ := hc
  have hnot : (∃ e, c.updateCandidate pubkey (addStake amount) = .error e) ↔
      ¬ ∃ candidates, c.manager.candidates.update c.manager.config pubkey (addStake amount) =
        some (.ok (), candidates) := by
    cases hrun : c.updateCandidate pubkey (addStake amount) with
    | error e =>
      refine iff_of_true ⟨e, rfl⟩ ?_
      rintro ⟨candidates, h⟩
      cases hrun.symm.trans (updateCandidate_ok.mpr ⟨candidates, h, rfl⟩)
    | ok c' =>
      obtain ⟨candidates, h, -⟩ := updateCandidate_ok.mp hrun
      refine iff_of_false ?_ fun hnone => hnone ⟨candidates, h⟩
      rintro ⟨e, he⟩
      cases he
  rw [hnot]
  cases hstake : addStake amount (c.manager.candidates.candidates.find? fun el => el.pubkey = pubkey) with
  | ok stake =>
    rw [update_succeeds_iff hsound hdistinct hstake, not_and_or, not_not, not_lt]
    rw [← addStake_ok.mp hstake]
    constructor
    · rintro (h | h)
      · exact .limits rfl h
      · exact .overflow rfl h
    · rintro (h | ⟨hnext, h⟩ | ⟨hnext, h⟩)
      · have hlt := stake.isLt
        omega
      · rw [Fin.ext (Int.ofNat.inj hnext)] at h
        exact Or.inl h
      · rw [Fin.ext (Int.ofNat.inj hnext)] at h
        exact Or.inr h
  | error e =>
    refine iff_of_true ?_ (.range ?_)
    · rintro ⟨candidates, h⟩
      obtain ⟨e', -, he⟩ | ⟨stake, hok, -⟩ := update_outcome hsound c.manager.config pubkey (addStake amount)
      · cases h.symm.trans he
      · cases hstake.symm.trans hok
    · by_contra hin
      have hlt : (held c.manager.candidates.candidates pubkey + amount.toInt).toNat < 2 ^ 128 := by omega
      have hval : ((⟨_, hlt⟩ : Fin (2 ^ 128)).val : Int) =
          held c.manager.candidates.candidates pubkey + amount.toInt := by
        simp only
        omega
      have hok := addStake_ok.mpr hval
      cases hstake.symm.trans hok

end

section

variable {c c' : ChainInner PK}

/-- The changes of each key add up. -/
theorem updateStake_sum {changes : List (PK × BitVec 128)} (hc : Orderly c.manager)
    (h : c.updateStake changes = .ok c') :
    Orderly c'.manager ∧ c'.manager.candidates.maxValidators = c.manager.candidates.maxValidators ∧
      ∀ pk, (held c'.manager.candidates.candidates pk : Int) =
        held c.manager.candidates.candidates pk + totalChange changes pk := by
  induction changes generalizing c with
  | nil =>
    cases h
    exact ⟨hc, rfl, fun pk => (Int.add_zero _).symm⟩
  | cons change changes ih =>
    obtain ⟨mid, hmid, h⟩ := bind_eq_ok.mp h
    obtain ⟨hmid', hmax, hheld⟩ := updateCandidate_adds hc hmid
    obtain ⟨hc', hmax', hheld'⟩ := ih hmid' h
    refine ⟨hc', hmax'.trans hmax, fun pk => ?_⟩
    rw [hheld', hheld, totalChange_cons, Int.add_assoc]

/-- Changes in another order lead to the same candidates. -/
theorem updateStake_perm {changes changes' : List (PK × BitVec 128)} {c₁ c₂ : ChainInner PK} (hc : Orderly c.manager)
    (hperm : changes.Perm changes') (h₁ : c.updateStake changes = .ok c₁) (h₂ : c.updateStake changes' = .ok c₂) :
    c₁.manager.candidates.candidates = c₂.manager.candidates.candidates ∧
      c₁.manager.candidates.headStake = c₂.manager.candidates.headStake := by
  obtain ⟨⟨hsound₁, hdistinct₁⟩, hmax₁, hheld₁⟩ := updateStake_sum hc h₁
  obtain ⟨⟨hsound₂, hdistinct₂⟩, hmax₂, hheld₂⟩ := updateStake_sum hc h₂
  have hsorted₁ := (ordered_iff.mpr ⟨hsound₁, hdistinct₁⟩).1.sorted
  have hsorted₂ := (ordered_iff.mpr ⟨hsound₂, hdistinct₂⟩).1.sorted
  have hsame : c₁.manager.candidates.candidates = c₂.manager.candidates.candidates := by
    refine eq_of_stakeOf hsorted₁ hsorted₂ hdistinct₁ hdistinct₂ fun pubkey => held_inj.mp ?_
    have hheld := (hheld₁ pubkey).trans (totalChange_perm hperm pubkey ▸ (hheld₂ pubkey).symm)
    exact Int.ofNat.inj hheld
  refine ⟨hsame, ?_⟩
  rw [hsound₁.headStake, hsound₂.headStake, hsame, hmax₁, hmax₂]

/-- Changes which get through leave each key with what it had and the sum of its changes. They fail
exactly when at some step what the key would have is out of range, is refused by the limits or gives the
head more than fits. If they get through in two orders the candidates are the same. -/
theorem updateStake_adds_up (hc : c.manager.candidates.Ordered) (hfits : c.manager.candidates.headStake < 2 ^ 128)
    (changes : List (PK × BitVec 128)) :
    (∀ c', c.updateStake changes = .ok c' → c'.manager.candidates.Ordered ∧ ∀ pubkey,
      (held c'.manager.candidates.candidates pubkey : Int) =
        held c.manager.candidates.candidates pubkey + totalChange changes pubkey ∧
      (held c.manager.candidates.candidates pubkey + totalChange changes pubkey = 0 →
        pubkey ∉ keys c'.manager.candidates.candidates) ∧
      (pubkey ∉ changes.map Prod.fst →
        stakeOf c'.manager.candidates.candidates pubkey = stakeOf c.manager.candidates.candidates pubkey)) ∧
    ((∃ e, c.updateStake changes = .error e) ↔
      ∃ before pubkey amount after c₁, changes = before ++ (pubkey, amount) :: after ∧ c.updateStake before = .ok c₁ ∧
        Fails c₁.manager pubkey
          (held c.manager.candidates.candidates pubkey + totalChange (before ++ [(pubkey, amount)]) pubkey)) ∧
    ∀ changes' c₁ c₂, changes.Perm changes' → c.updateStake changes = .ok c₁ → c.updateStake changes' = .ok c₂ →
      c₁.manager.candidates.candidates = c₂.manager.candidates.candidates ∧
        c₁.manager.candidates.headStake = c₂.manager.candidates.headStake := by
  have horder : Orderly c.manager := ordered_iff.mp ⟨hc, hfits⟩
  refine ⟨fun c' h => ?_, ?_, fun changes' c₁ c₂ hperm h₁ h₂ => updateStake_perm horder hperm h₁ h₂⟩
  · obtain ⟨horder', -, hheld⟩ := updateStake_sum horder h
    refine ⟨(ordered_iff.mpr horder').1, fun pubkey => ⟨hheld pubkey, fun hzero => ?_, fun hother => ?_⟩⟩
    · rw [← stakeOf_eq_none, ← held_eq_zero]
      have := hheld pubkey
      omega
    · rw [← held_inj]
      have := hheld pubkey
      rw [totalChange_of_not_mem hother] at this
      omega
  · have hrunning : ∀ (before : List (PK × BitVec 128)) (pubkey : PK) (amount : BitVec 128) (c₁ : ChainInner PK),
        c.updateStake before = .ok c₁ →
        ((∃ e, c₁.updateCandidate pubkey (addStake amount) = .error e) ↔ Fails c₁.manager pubkey
          (held c.manager.candidates.candidates pubkey + totalChange (before ++ [(pubkey, amount)]) pubkey)) := by
      intro before pubkey amount c₁ hbefore
      obtain ⟨horder₁, -, hheld⟩ := updateStake_sum horder hbefore
      rw [updateCandidate_fails_iff horder₁, hheld, totalChange_append, totalChange_cons, if_pos rfl, Int.add_assoc]
      simp [totalChange]
    refine foldlM_error_iff.trans ⟨?_, ?_⟩
    · rintro ⟨before, ⟨pubkey, amount⟩, after, c₁, rfl, hbefore, hfail⟩
      exact ⟨before, pubkey, amount, after, c₁, rfl, hbefore, (hrunning before pubkey amount c₁ hbefore).mp hfail⟩
    · rintro ⟨before, pubkey, amount, after, c₁, rfl, hbefore, hfail⟩
      exact ⟨before, (pubkey, amount), after, c₁, rfl, hbefore, (hrunning before pubkey amount c₁ hbefore).mpr hfail⟩

/-- The sample chain with other candidates. -/
def sampleChain (candidates : Candidates MockPubKey) : ChainInner MockPubKey where
  lastCheckHeight := Height.clamp 1
  manager :=
    { config := sampleConfig, genesis := CryptoHash.default, header := sampleGenesis.header, nextEpoch := sampleEpoch
      pendingBlock := none, epochHeight := Height.clamp 1, candidates, consensusStates := [] }

/-- The only candidate gives up all of its stake after another one has come in. -/
theorem updateStake_adds_up_sample :
    ∃ c', (sampleChain sampleCandidates).updateStake [(sampleKey, 3#128), (2, 4#128), (sampleKey, -8#128)] = .ok c' ∧
      sampleKey ∉ keys c'.manager.candidates.candidates ∧ held c'.manager.candidates.candidates 2 = 4 := by
  have hsome : ((sampleChain sampleCandidates).updateStake
      [(sampleKey, 3#128), (2, 4#128), (sampleKey, -8#128)]).toOption.isSome := by
    decide
  cases hrun : (sampleChain sampleCandidates).updateStake [(sampleKey, 3#128), (2, 4#128), (sampleKey, -8#128)] with
  | error e =>
    rw [hrun] at hsome
    cases hsome
  | ok c' =>
    obtain ⟨hadds, -, -⟩ := updateStake_adds_up (c := sampleChain sampleCandidates) sampleCandidates_ordered
      (by decide) [(sampleKey, 3#128), (2, 4#128), (sampleKey, -8#128)]
    obtain ⟨-, hkeys⟩ := hadds c' hrun
    refine ⟨c', rfl, (hkeys sampleKey).2.1 (by decide), ?_⟩
    have htwo := (hkeys 2).1
    rw [show (held (sampleChain sampleCandidates).manager.candidates.candidates 2 : Int) +
      totalChange [(sampleKey, 3#128), (2, 4#128), (sampleKey, -8#128)] 2 = 4 by decide] at htwo
    exact Int.ofNat.inj htwo

/-- A candidate with all the stake there can be. -/
def largeCandidates : Candidates MockPubKey :=
  ⟨NonZero.clamp 2, [⟨sampleKey, NonZero.clamp (2 ^ 128 - 1)⟩], false, 2 ^ 128 - 1⟩

/-- One unit for another key is in range and breaks no limit, and still the head gets more than fits. -/
theorem updateStake_overflow :
    largeCandidates.Ordered ∧ largeCandidates.headStake < 2 ^ 128 ∧
      (sampleChain largeCandidates).updateStake [(2, 1#128)] = .error .panic ∧
      held largeCandidates.candidates 2 + totalChange [((2 : MockPubKey), 1#128)] 2 = 1 ∧
      ¬ largeCandidates.Refused sampleConfig 2 1 := by
  have hrun : ((sampleChain largeCandidates).updateStake [(2, 1#128)]).map (fun _ => ()) = .error .panic := by
    decide
  refine ⟨⟨List.pairwise_singleton _ _, List.nodup_singleton _, by decide⟩, by decide,
    map_eq_error hrun, by decide, ?_⟩
  rintro (hlittle | ⟨hzero, -⟩ | ⟨hlight, -⟩)
  · exact absurd hlittle (by unfold TooLittle; decide)
  · exact absurd hzero (by decide)
  · exact absurd hlight (by unfold TooLight; decide)

end

end SolanaIbc
