import EmulatedLightClient.CandidatesRun

/-!
# Limits on candidates

An update is refused for one of three reasons, each of which can be told from the list the update
asks for. A refused update changes nothing.
-/

namespace GuestChain

open MachineInts Weights

namespace Candidates

variable {PK : Type} [LinearOrder PK] {c c' : Candidates PK} {cfg : Config} {e : UpdateCandidateError}

/-- Stake of the validators which the list would make. -/
def topStake (c : Candidates PK) (l : List (Candidate PK)) : Nat :=
  ((l.take c.maxValidators.get).map (·.stake.get)).sum

section

variable {oldPos : Nat} {old candidate : Candidate PK}

/-- A candidate which keeps its place in the list is refused only for what the head would have. -/
theorem updateImpl_refused (hc : c.Sound) (hold : c.candidates[oldPos]? = some old)
    (h : c.updateImpl cfg oldPos (binarySearch (c.candidates.eraseIdx oldPos) candidate) candidate =
      some (.error e, c')) :
    e = .notEnoughTotalStake ∧ c.topStake (moved c.candidates oldPos candidate) < cfg.minTotalStake.get := by
  obtain ⟨n, hn⟩ := c.max_succ
  have hplaced : ∀ {c₁ : Candidates PK} {newPos : Nat},
      (c₁.place oldPos newPos candidate.stake).map ((.ok () : Except UpdateCandidateError Unit), ·) ≠
        some (.error e, c') := by
    intro c₁ newPos hmap
    obtain ⟨_, -, heq⟩ := Option.map_eq_some_iff.mp hmap
    cases heq
  unfold updateImpl at h
  simp only at h
  split at h
  · rename_i hout
    obtain ⟨hremove, -, hlimit⟩ | ⟨changed, hremove, -⟩ := updateStakeForRemove_spec hc cfg hold
    · rw [hremove] at h
      cases h
      rw [← headWeight_moved_of_le hout] at hlimit
      exact ⟨rfl, hlimit⟩
    · rw [hremove] at h
      exact absurd h hplaced
  · rename_i hin
    split at h
    · obtain ⟨stake, -, h⟩ := Option.bind_eq_some_iff.mp h
      obtain ⟨c₁, -, h⟩ := Option.bind_eq_some_iff.mp h
      exact absurd h hplaced
    · rename_i hin'
      rw [hold, Option.bind_eq_bind, Option.bind_some] at h
      split at h
      · obtain ⟨c₁, -, h⟩ := Option.bind_eq_some_iff.mp h
        exact absurd h hplaced
      · split at h
        · have hsound := hc.headStake
          rw [hn] at hin hin' hsound
          have hmoved := headWeight_moved (c := c) (Nat.le_of_lt_succ (not_le.mp hin))
          have herase := headWeight_eraseIdx Candidate.weight hold (Nat.le_of_lt_succ (not_le.mp hin'))
          have hold' : old.stake.get = old.weight := rfl
          have hnew : candidate.stake.get = candidate.weight := rfl
          rw [subHeadStake_eq cfg (by omega)] at h
          split at h
          · rename_i hlimit
            cases h
            refine ⟨rfl, ?_⟩
            change headWeight Candidate.weight c.maxValidators.get _ < _
            rw [hn]
            omega
          · exact absurd h hplaced
        · cases h

end

theorem doUpdate_refused (hc : c.Sound) (candidate : Candidate PK)
    (h : c.doUpdate cfg (c.candidates.findIdx? fun el => el.pubkey = candidate.pubkey) candidate =
      some (.error e, c')) :
    e = .notEnoughTotalStake ∧
      c.topStake ((c.candidates.eraseP fun el => el.pubkey = candidate.pubkey).orderedInsert (· ≤ ·) candidate) <
        cfg.minTotalStake.get := by
  unfold doUpdate at h
  cases hpos : c.candidates.findIdx? fun el => el.pubkey = candidate.pubkey with
  | none =>
    rw [hpos] at h
    obtain ⟨_, -, heq⟩ := Option.map_eq_some_iff.mp h
    cases heq
  | some pos =>
    obtain ⟨hlt, -⟩ := List.findIdx?_eq_some_iff_getElem.mp hpos
    rw [hpos] at h
    simp only [binarySearch_eraseIdx hc.sorted hlt] at h
    rw [List.eraseP_eq_eraseIdx, hpos]
    exact updateImpl_refused hc (List.getElem?_eq_getElem hlt) h

theorem doRemove_refused (hc : c.Sound) {pos : Nat} {old : Candidate PK} (hold : c.candidates[pos]? = some old)
    (h : c.doRemove cfg pos = some (.error e, c')) :
    (e = .notEnoughValidators ∧ c.candidates.length ≤ cfg.minValidators.get) ∨
      (e = .notEnoughTotalStake ∧ cfg.minValidators.get < c.candidates.length ∧
        c.topStake (c.candidates.eraseIdx pos) < cfg.minTotalStake.get) := by
  unfold doRemove at h
  split at h
  · rename_i hcount
    cases h
    exact Or.inl ⟨rfl, hcount⟩
  · rename_i hcount
    obtain ⟨hremove, -, hlimit⟩ | ⟨changed, hremove, -⟩ := updateStakeForRemove_spec hc cfg hold
    · rw [hremove] at h
      cases h
      exact Or.inr ⟨rfl, not_le.mp hcount, hlimit⟩
    · rw [hremove] at h
      cases h

/-- Some stake, but less than a validator needs. -/
def TooLittle (cfg : Config) (stake : Fin (2 ^ 128)) : Prop :=
  0 < stake.val ∧ stake.val < cfg.minValidatorStake.get

/-- A candidate gets removed and too few are left. -/
def TooFew (c : Candidates PK) (cfg : Config) (pubkey : PK) (stake : Fin (2 ^ 128)) : Prop :=
  stake.val = 0 ∧ pubkey ∈ keys c.candidates ∧
    (requested c.candidates pubkey stake).length < cfg.minValidators.get

/-- The list which is asked for makes validators with too little stake. -/
def TooLight (c : Candidates PK) (cfg : Config) (pubkey : PK) (stake : Fin (2 ^ 128)) : Prop :=
  c.topStake (requested c.candidates pubkey stake) < cfg.minTotalStake.get

/-- How a request ends, by what it asks for. -/
inductive Verdict (c : Candidates PK) (cfg : Config) (pubkey : PK) (stake : Fin (2 ^ 128)) :
    Option (Except UpdateCandidateError Unit × Candidates PK) → Prop
  | tooLittle (h : TooLittle cfg stake) : Verdict c cfg pubkey stake (some (.error .notEnoughValidatorStake, c))
  | tooFew (h : c.TooFew cfg pubkey stake) : Verdict c cfg pubkey stake (some (.error .notEnoughValidators, c))
  | tooLight (hl : ¬ TooLittle cfg stake) (hf : ¬ c.TooFew cfg pubkey stake) (h : c.TooLight cfg pubkey stake) :
      Verdict c cfg pubkey stake (some (.error .notEnoughTotalStake, c))
  | panics (hl : ¬ TooLittle cfg stake) (hf : ¬ c.TooFew cfg pubkey stake) (ht : ¬ c.TooLight cfg pubkey stake)
      (h : 2 ^ 128 ≤ c.topStake (requested c.candidates pubkey stake)) : Verdict c cfg pubkey stake none
  | succeeds (hl : ¬ TooLittle cfg stake) (hf : ¬ c.TooFew cfg pubkey stake) (ht : ¬ c.TooLight cfg pubkey stake)
      {c' : Candidates PK} (h : Replaced c c' (requested c.candidates pubkey stake)) :
      Verdict c cfg pubkey stake (some (.ok (), c'))

section

variable {pubkey : PK} {stake : Fin (2 ^ 128)}

/-- Requests which no other limit stops are judged by what the head would have. -/
theorem Outcome.verdict {res : Option (Except UpdateCandidateError Unit × Candidates PK)}
    (hmin : cfg.minTotalStake.get ≤ c.headStake) (h : Outcome cfg c (requested c.candidates pubkey stake) res)
    (hl : ¬ TooLittle cfg stake) (hf : ¬ c.TooFew cfg pubkey stake)
    (href : ∀ e c', res = some (.error e, c') → e = .notEnoughTotalStake ∧ c.TooLight cfg pubkey stake) :
    Verdict c cfg pubkey stake res := by
  cases h with
  | panics h =>
    refine .panics hl hf ?_ h
    have hlt := cfg.minTotalStake.lt
    exact not_lt.mpr (hlt.le.trans h)
  | fails e =>
    obtain ⟨rfl, ht⟩ := href e c rfl
    exact .tooLight hl hf ht
  | succeeds h _ hstake =>
    refine .succeeds hl hf ?_ h
    rw [h.headStake, min_eq_right hmin] at hstake
    exact not_lt.mpr hstake

theorem doUpdate_verdict (hc : c.Sound) (hmin : cfg.minTotalStake.get ≤ c.headStake) {nonzero : NonZeroU128}
    (hnew : NonZero.new stake = some nonzero) (hlow : ¬ nonzero < cfg.minValidatorStake) :
    Verdict c cfg pubkey stake
      (c.doUpdate cfg (c.candidates.findIdx? fun el => el.pubkey = pubkey) ⟨pubkey, nonzero⟩) := by
  have hval := NonZero.new_eq_some hnew
  have hpos := nonzero.pos
  rw [NonZero.lt_iff] at hlow
  have hreq : (c.candidates.eraseP fun el => el.pubkey = pubkey).orderedInsert (· ≤ ·) ⟨pubkey, nonzero⟩ =
      requested c.candidates pubkey stake := by
    rw [requested, hnew]
  have houtcome := doUpdate_outcome hc cfg ⟨pubkey, nonzero⟩
  rw [hreq] at houtcome
  refine houtcome.verdict hmin ?_ ?_ ?_
  · rintro ⟨-, hlt⟩
    omega
  · rintro ⟨hzero, -⟩
    omega
  · intro e c' h
    obtain ⟨he, ht⟩ := doUpdate_refused hc ⟨pubkey, nonzero⟩ h
    rw [hreq] at ht
    exact ⟨he, ht⟩

omit [LinearOrder PK] in
theorem mem_keys_iff [DecidableEq PK] {l : List (Candidate PK)} :
    pubkey ∈ keys l ↔ ∃ pos, (l.findIdx? fun el => el.pubkey = pubkey) = some pos := by
  rw [← Option.isSome_iff_exists, List.findIdx?_isSome, List.any_eq_true, keys, List.mem_map]
  simp

theorem doRemove_verdict (hc : c.Sound) (hmin : cfg.minTotalStake.get ≤ c.headStake)
    (hnew : NonZero.new stake = none) {pos : Nat}
    (hpos : (c.candidates.findIdx? fun el => el.pubkey = pubkey) = some pos) :
    Verdict c cfg pubkey stake (c.doRemove cfg pos) := by
  have hzero := NonZero.new_eq_none hnew
  obtain ⟨hlt, -⟩ := List.findIdx?_eq_some_iff_getElem.mp hpos
  have hold := List.getElem?_eq_getElem hlt
  have hreq : requested c.candidates pubkey stake = c.candidates.eraseIdx pos := by
    rw [requested, hnew, List.eraseP_eq_eraseIdx, hpos]
  have hlength := List.length_eraseIdx_of_lt hlt
  by_cases hf : c.TooFew cfg pubkey stake
  · have hcount := hf.2.2
    rw [hreq, hlength] at hcount
    unfold doRemove
    rw [if_pos (by omega)]
    exact .tooFew hf
  · have houtcome := doRemove_outcome hc cfg hold
    rw [← hreq] at houtcome
    refine houtcome.verdict hmin (fun h => absurd hzero h.1.ne') hf ?_
    intro e c' h
    obtain ⟨rfl, hcount⟩ | ⟨he, -, ht⟩ := doRemove_refused hc hold h
    · refine absurd ⟨hzero, mem_keys_iff.mpr ⟨pos, hpos⟩, ?_⟩ hf
      have hmin := cfg.minValidators.pos
      rw [hreq, hlength]
      omega
    · rw [← hreq] at ht
      exact ⟨he, ht⟩

/-- Nothing is asked for. -/
theorem absent_verdict (hc : c.Sound) (hmin : cfg.minTotalStake.get ≤ c.headStake)
    (hnew : NonZero.new stake = none) (hpos : (c.candidates.findIdx? fun el => el.pubkey = pubkey) = none) :
    Verdict c cfg pubkey stake (some (.ok (), c)) := by
  have hzero := NonZero.new_eq_none hnew
  have hreq : requested c.candidates pubkey stake = c.candidates := by
    rw [requested, hnew, List.eraseP_eq_eraseIdx, hpos]
  refine Outcome.verdict hmin ?_ (fun h => absurd hzero h.1.ne') ?_ nofun
  · rw [hreq]
    exact Outcome.unchanged hc cfg
  · rintro ⟨-, hkey, -⟩
    obtain ⟨pos, hsome⟩ := mem_keys_iff.mp hkey
    cases hpos.symm.trans hsome

/-- Before its error is converted, an update ends as its request deserves. -/
theorem update_verdict {E : Type} [OfUpdateCandidateError E] (hc : c.Sound)
    (hmin : cfg.minTotalStake.get ≤ c.headStake) {newStakeFn : Option (Candidate PK) → Except E (Fin (2 ^ 128))}
    (hs : newStakeFn (c.candidates.find? fun el => el.pubkey = pubkey) = .ok stake) :
    ∃ res, c.update cfg pubkey newStakeFn =
        res.map (fun r => (r.1.mapError OfUpdateCandidateError.ofUpdateCandidateError, r.2)) ∧
      Verdict c cfg pubkey stake res := by
  unfold update
  rw [List.find?_eq_bind_findIdx?_getElem?] at hs
  simp only [hs]
  cases hnew : NonZero.new stake with
  | some nonzero =>
    simp only
    split
    · rename_i hlow
      have hval := NonZero.new_eq_some hnew
      have hpos := nonzero.pos
      rw [NonZero.lt_iff] at hlow
      exact ⟨_, rfl, .tooLittle ⟨by omega, by omega⟩⟩
    · rename_i hlow
      exact ⟨_, (Option.map_eq_bind ..).symm, doUpdate_verdict hc hmin hnew hlow⟩
  | none =>
    cases hpos : c.candidates.findIdx? fun el => el.pubkey = pubkey with
    | none => exact ⟨_, rfl, absent_verdict hc hmin hnew hpos⟩
    | some pos => exact ⟨_, (Option.map_eq_bind ..).symm, doRemove_verdict hc hmin hnew hpos⟩

variable (cfg pubkey) in
/-- Where the head has the stake it needs, an update is refused exactly for the first of these
reasons which applies, and then changes nothing. It panics exactly when none applies and the new head
has more stake than fits; otherwise the candidates become what was asked for. -/
theorem update_limits {E : Type} [OfUpdateCandidateError E] (hc : c.Ordered) (hfits : c.headStake < 2 ^ 128)
    (hmin : cfg.minTotalStake.get ≤ c.headStake) (newStakeFn : Option (Candidate PK) → Except E (Fin (2 ^ 128)))
    (hs : newStakeFn (c.candidates.find? fun el => el.pubkey = pubkey) = .ok stake) :
    ∃ res : Option (Except UpdateCandidateError Unit × Candidates PK), c.update cfg pubkey newStakeFn =
        res.map (fun r => (r.1.mapError OfUpdateCandidateError.ofUpdateCandidateError, r.2)) ∧
      (res = some (.error .notEnoughValidatorStake, c) ↔ TooLittle cfg stake) ∧
      (res = some (.error .notEnoughValidators, c) ↔ c.TooFew cfg pubkey stake) ∧
      (res = some (.error .notEnoughTotalStake, c) ↔
        ¬ TooLittle cfg stake ∧ ¬ c.TooFew cfg pubkey stake ∧ c.TooLight cfg pubkey stake) ∧
      (res = none ↔ ¬ TooLittle cfg stake ∧ ¬ c.TooFew cfg pubkey stake ∧
        2 ^ 128 ≤ c.topStake (requested c.candidates pubkey stake)) ∧
      (∀ e c', res = some (.error e, c') → c' = c) ∧
      (¬ TooLittle cfg stake → ¬ c.TooFew cfg pubkey stake → ¬ c.TooLight cfg pubkey stake →
        c.topStake (requested c.candidates pubkey stake) < 2 ^ 128 →
        ∃ c', res = some (.ok (), c') ∧ c'.candidates = requested c.candidates pubkey stake ∧
          c'.headStake = c.topStake (requested c.candidates pubkey stake) ∧
          c'.maxValidators = c.maxValidators) := by
  have hsound := (ordered_iff.mp ⟨hc, hfits⟩).1
  obtain ⟨res, hres, hverdict⟩ := update_verdict hsound hmin hs
  have hapart : TooLittle cfg stake → ¬ c.TooFew cfg pubkey stake := by
    rintro ⟨hpos, -⟩ ⟨hzero, -⟩
    omega
  have hlight : c.TooLight cfg pubkey stake → c.topStake (requested c.candidates pubkey stake) < 2 ^ 128 :=
    fun ht => lt_trans ht cfg.minTotalStake.lt
  refine ⟨res, hres, ?_⟩
  cases hverdict with
  | tooLittle h => simp [h, hapart h]
  | tooFew h =>
    have hl : ¬ TooLittle cfg stake := fun hl => hapart hl h
    simp [h, hl]
  | tooLight hl hf h => simp [hl, hf, h, hlight h, -Nat.reducePow]
  | panics hl hf ht h => simp [hl, hf, ht, not_lt.mpr h, h, -Nat.reducePow]
  | succeeds hl hf ht h =>
    have hstake := h.fits
    rw [h.headStake] at hstake
    have hfit := not_le.mpr hstake
    refine ⟨by simp [hl], by simp [hf], by simp [ht], ?_, nofun, ?_⟩
    · exact iff_of_false nofun fun hover => hfit hover.2.2
    · intro _ _ _ _
      exact ⟨_, rfl, h.candidates, h.headStake, h.maxValidators⟩

end

def sampleKey : MockPubKey := Fin.last (2 ^ 32 - 1)

def sampleCandidates : Candidates MockPubKey := ⟨NonZero.clamp 2, [⟨sampleKey, NonZero.clamp 5⟩], false, 5⟩

theorem sampleCandidates_ordered : sampleCandidates.Ordered :=
  ⟨List.pairwise_singleton _ _, List.nodup_singleton _, rfl⟩

def sampleLimits : Config := { sampleConfig with minTotalStake := NonZero.clamp 4 }

/-- Of its five the only candidate cannot give up three. -/
theorem update_limits_sample :
    sampleCandidates.TooLight sampleLimits sampleKey 2 ∧
      sampleCandidates.update sampleLimits sampleKey (fun _ => (.ok 2 : Except UpdateCandidateError _)) =
        some (.error .notEnoughTotalStake, sampleCandidates) := by
  have hlight : sampleCandidates.TooLight sampleLimits sampleKey 2 := by
    unfold TooLight
    decide
  have hl : ¬ TooLittle sampleLimits 2 := by
    unfold TooLittle
    decide
  obtain ⟨res, hres, -, -, hrefused, -⟩ := update_limits sampleLimits sampleKey sampleCandidates_ordered (by decide)
    (by decide) (fun _ => (.ok 2 : Except UpdateCandidateError _)) rfl
  refine ⟨hlight, ?_⟩
  rw [hres, hrefused.mpr ⟨hl, fun h => absurd h.1 (by decide), hlight⟩]
  rfl

/-- A second candidate with all the stake there can be breaks no limit and still does not get in. -/
theorem update_limits_overflow :
    sampleCandidates.Ordered ∧ sampleCandidates.headStake < 2 ^ 128 ∧
      sampleConfig.minTotalStake.get ≤ sampleCandidates.headStake ∧
      ¬ TooLittle sampleConfig (Fin.last (2 ^ 128 - 1)) ∧
      ¬ sampleCandidates.TooFew sampleConfig 2 (Fin.last (2 ^ 128 - 1)) ∧
      ¬ sampleCandidates.TooLight sampleConfig 2 (Fin.last (2 ^ 128 - 1)) ∧
      sampleCandidates.update sampleConfig 2
        (fun _ => (.ok (Fin.last (2 ^ 128 - 1)) : Except UpdateCandidateError _)) = none := by
  refine ⟨sampleCandidates_ordered, by decide, by decide, ?_, ?_, ?_, by decide⟩
  · unfold TooLittle
    decide
  · exact fun h => absurd h.1 (by decide)
  · unfold TooLight
    decide

end Candidates

end GuestChain
