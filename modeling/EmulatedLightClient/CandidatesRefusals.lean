import EmulatedLightClient.CandidatesLimits
import Mathlib.Data.List.TakeWhile

/-!
# Refused updates

The limit on the stake of the head is looked at only when an update takes stake from the head. So
even where the head already has less than it should, what the limits refuse can be told from the
candidates and the new stake.
-/

namespace GuestChain

open MachineInts Weights

namespace Candidates

variable {PK : Type} [LinearOrder PK] {c c' : Candidates PK} {cfg : Config}

/-- A candidate of the head is to have less stake. -/
def Drains (c : Candidates PK) (pubkey : PK) (stake : Nat) : Prop :=
  ∃ old, ⟨pubkey, old⟩ ∈ c.candidates.take c.maxValidators.get ∧ stake < old.get

/-- What the limits do not allow. Too little stake in the head counts only when the update takes
stake from the head; one which adds stake may leave the head below the limit. -/
def Refused (c : Candidates PK) (cfg : Config) (pubkey : PK) (stake : Fin (2 ^ 128)) : Prop :=
  TooLittle cfg stake ∨ c.TooFew cfg pubkey stake ∨ (c.TooLight cfg pubkey stake ∧ c.Drains pubkey stake.val)

theorem lt_of_same_key {old candidate : Candidate PK} (hpk : old.pubkey = candidate.pubkey) :
    old < candidate ↔ candidate.stake.get < old.stake.get := by
  obtain ⟨pk, stake⟩ := old
  obtain ⟨pk', stake'⟩ := candidate
  cases hpk
  change toLex (OrderDual.toDual stake, pk) < toLex (OrderDual.toDual stake', pk) ↔ _
  rw [Prod.Lex.toLex_lt_toLex]
  simp [NonZero.lt_iff]

/-- A candidate which belongs no later than an element does not move past it. -/
theorem binarySearch_eraseIdx_le {l : List (Candidate PK)} (hl : l.Pairwise (· ≤ ·)) {pos : Nat}
    {old candidate : Candidate PK} (hold : l[pos]? = some old) (hle : candidate ≤ old) :
    binarySearch (l.eraseIdx pos) candidate ≤ pos := by
  obtain ⟨hlt, rfl⟩ := List.getElem?_eq_some_iff.mp hold
  have hbefore : (l.takeWhile (· < candidate)).length ≤ pos := by
    by_contra hlong
    have hget := List.getElem_mem (not_le.mp hlong)
    have hsmall := List.mem_takeWhile_imp hget
    rw [(List.takeWhile_prefix _).getElem] at hsmall
    exact absurd (of_decide_eq_true hsmall) (not_lt.mpr hle)
  rw [binarySearch, length_takeWhile_eraseIdx hl hlt, if_neg (not_lt.mpr hbefore)]
  exact hbefore

section

variable {oldPos : Nat} {old candidate : Candidate PK}

/-- A candidate which is on the list is refused if and only if it takes stake from a head which is
left with too little. -/
theorem updateImpl_error_iff (hc : c.Sound) (hold : c.candidates[oldPos]? = some old)
    (hpk : old.pubkey = candidate.pubkey) :
    (∃ e c', c.updateImpl cfg oldPos (binarySearch (c.candidates.eraseIdx oldPos) candidate) candidate =
        some (.error e, c')) ↔
      c.topStake (moved c.candidates oldPos candidate) < cfg.minTotalStake.get ∧
        oldPos < c.maxValidators.get ∧ candidate.stake.get < old.stake.get := by
  have hplaced : ∀ (c₁ : Candidates PK) (newPos : Nat),
      ¬ ∃ e c', (c₁.place oldPos newPos candidate.stake).map ((.ok () : Except UpdateCandidateError Unit), ·) =
        some (.error e, c') := by
    rintro c₁ newPos ⟨e, c', hmap⟩
    obtain ⟨_, -, heq⟩ := Option.map_eq_some_iff.mp hmap
    cases heq
  have hdown : oldPos < binarySearch (c.candidates.eraseIdx oldPos) candidate →
      candidate.stake.get < old.stake.get := by
    intro hpast
    rw [← lt_of_same_key hpk]
    by_contra hle
    exact absurd (binarySearch_eraseIdx_le hc.sorted hold (not_lt.mp hle)) (not_le.mpr hpast)
  constructor
  · rintro ⟨e, c', h⟩
    refine ⟨(updateImpl_refused hc hold h).2, ?_⟩
    unfold updateImpl at h
    simp only at h
    split at h
    · rename_i hout
      obtain ⟨-, hin, -⟩ | ⟨changed, hremove, -⟩ := updateStakeForRemove_spec hc cfg hold
      · exact ⟨hin, hdown (lt_of_lt_of_le hin hout)⟩
      · rw [hremove] at h
        exact absurd ⟨e, c', h⟩ (hplaced _ _)
    · split at h
      · obtain ⟨stake, -, h⟩ := Option.bind_eq_some_iff.mp h
        obtain ⟨c₁, -, h⟩ := Option.bind_eq_some_iff.mp h
        exact absurd ⟨e, c', h⟩ (hplaced _ _)
      · rename_i hin
        rw [hold, Option.bind_eq_bind, Option.bind_some] at h
        split at h
        · obtain ⟨c₁, -, h⟩ := Option.bind_eq_some_iff.mp h
          exact absurd ⟨e, c', h⟩ (hplaced _ _)
        · split at h
          · rename_i hless
            exact ⟨not_le.mp hin, hless⟩
          · cases h
  · rintro ⟨hlight, hin, hless⟩
    obtain ⟨n, hn⟩ := c.max_succ
    unfold updateImpl
    simp only
    split
    · rename_i hout
      change headWeight Candidate.weight c.maxValidators.get _ < _ at hlight
      rw [headWeight_moved_of_le hout] at hlight
      obtain ⟨hremove, -⟩ | ⟨changed, -, -, -, -, hlimit⟩ := updateStakeForRemove_spec hc cfg hold
      · rw [hremove]
        exact ⟨_, _, rfl⟩
      · exact absurd (hlimit hin) (not_le.mpr hlight)
    · rename_i hnew
      rw [if_neg (not_le.mpr hin), hold, Option.bind_eq_bind, Option.bind_some, if_neg hless.le.not_gt, if_pos hless]
      have hsound := hc.headStake
      change headWeight Candidate.weight c.maxValidators.get _ < _ at hlight
      rw [hn] at hin hnew hsound hlight
      have hmoved := headWeight_moved (c := c) (Nat.le_of_lt_succ (not_le.mp hnew))
      have herase := headWeight_eraseIdx Candidate.weight hold (Nat.le_of_lt_succ hin)
      have hold' : old.stake.get = old.weight := rfl
      have hnew' : candidate.stake.get = candidate.weight := rfl
      rw [subHeadStake_eq cfg (by omega), if_pos (by omega)]
      exact ⟨_, _, rfl⟩

end

section

variable {pubkey : PK} {stake : Fin (2 ^ 128)} {pos : Nat} {old : Candidate PK}

omit [LinearOrder PK] in
/-- Whether stake is taken from the head is told by the position of the candidate. -/
theorem drains_iff (hdistinct : (keys c.candidates).Nodup) (hold : c.candidates[pos]? = some old)
    (hpk : old.pubkey = pubkey) {amount : Nat} :
    c.Drains pubkey amount ↔ pos < c.maxValidators.get ∧ amount < old.stake.get := by
  obtain ⟨hlt, rfl⟩ := List.getElem?_eq_some_iff.mp hold
  subst hpk
  constructor
  · rintro ⟨stake, hmem, hless⟩
    obtain ⟨i, hi, heq⟩ := List.mem_take_iff_getElem.mp hmem
    have hi' := lt_min_iff.mp hi
    have hkey : (keys c.candidates)[i]? = (keys c.candidates)[pos]? := by
      rw [keys, List.getElem?_map, List.getElem?_map, hold, List.getElem?_eq_getElem hi'.2, heq]
      rfl
    have hsame : i = pos :=
      (List.getElem?_inj (by rw [keys, List.length_map]; exact hi'.2) hdistinct).mp hkey
    subst hsame
    rw [heq]
    exact ⟨hi'.1, hless⟩
  · rintro ⟨hin, hless⟩
    exact ⟨c.candidates[pos].stake, List.mem_take_iff_getElem.mpr ⟨pos, lt_min hin hlt, rfl⟩, hless⟩

theorem not_drains_of_absent (hpos : (c.candidates.findIdx? fun el => el.pubkey = pubkey) = none) {amount : Nat} :
    ¬ c.Drains pubkey amount := by
  rintro ⟨old, hmem, -⟩
  have hnone := List.findIdx?_eq_none_iff.mp hpos ⟨pubkey, old⟩ (List.mem_of_mem_take hmem)
  simp at hnone

variable (cfg) in
theorem doUpdate_error_iff (hc : c.Sound) (hdistinct : (keys c.candidates).Nodup) (candidate : Candidate PK) :
    (∃ e c', c.doUpdate cfg (c.candidates.findIdx? fun el => el.pubkey = candidate.pubkey) candidate =
        some (.error e, c')) ↔
      c.topStake ((c.candidates.eraseP fun el => el.pubkey = candidate.pubkey).orderedInsert (· ≤ ·) candidate) <
        cfg.minTotalStake.get ∧ c.Drains candidate.pubkey candidate.stake.get := by
  unfold doUpdate
  rw [List.eraseP_eq_eraseIdx]
  cases hpos : c.candidates.findIdx? fun el => el.pubkey = candidate.pubkey with
  | none =>
    constructor
    · rintro ⟨e, c', h⟩
      obtain ⟨_, -, heq⟩ := Option.map_eq_some_iff.mp h
      cases heq
    · exact fun h => absurd h.2 (not_drains_of_absent hpos)
  | some pos =>
    obtain ⟨hlt, hpk, -⟩ := List.findIdx?_eq_some_iff_getElem.mp hpos
    have hold := List.getElem?_eq_getElem hlt
    have hpk : c.candidates[pos].pubkey = candidate.pubkey := of_decide_eq_true hpk
    simp only [binarySearch_eraseIdx hc.sorted hlt]
    rw [updateImpl_error_iff hc hold hpk, drains_iff hdistinct hold hpk]
    rfl

theorem doRemove_error_iff (hc : c.Sound) (hdistinct : (keys c.candidates).Nodup)
    (hold : c.candidates[pos]? = some old) (hpk : old.pubkey = pubkey) :
    (∃ e c', c.doRemove cfg pos = some (.error e, c')) ↔
      c.candidates.length ≤ cfg.minValidators.get ∨
        (c.topStake (c.candidates.eraseIdx pos) < cfg.minTotalStake.get ∧ c.Drains pubkey 0) := by
  rw [drains_iff hdistinct hold hpk, and_iff_left old.stake.pos]
  unfold doRemove
  split
  · rename_i hcount
    exact iff_of_true ⟨_, _, rfl⟩ (Or.inl hcount)
  · rename_i hcount
    rw [or_iff_right hcount]
    obtain ⟨hremove, hin, hlight⟩ | ⟨changed, hremove, -, -, -, hlimit⟩ := updateStakeForRemove_spec hc cfg hold
    · rw [hremove]
      exact iff_of_true ⟨_, _, rfl⟩ ⟨hlight, hin⟩
    · rw [hremove]
      refine iff_of_false ?_ fun h => absurd (hlimit h.2) (not_le.mpr h.1)
      rintro ⟨e, c', h⟩
      cases h

theorem refused_of_nonzero {nonzero : NonZeroU128} (hnew : NonZero.new stake = some nonzero) :
    c.Refused cfg pubkey stake ↔
      nonzero < cfg.minValidatorStake ∨ (c.TooLight cfg pubkey stake ∧ c.Drains pubkey nonzero.get) := by
  have hval := NonZero.new_eq_some hnew
  have hpos := nonzero.pos
  have hlittle : TooLittle cfg stake ↔ nonzero < cfg.minValidatorStake := by
    rw [TooLittle, NonZero.lt_iff, hval, and_iff_right (by omega)]
  have hfew : ¬ c.TooFew cfg pubkey stake := by
    rintro ⟨hzero, -⟩
    omega
  rw [Refused, hlittle, or_iff_right hfew, hval]

theorem refused_of_zero (hnew : NonZero.new stake = none) :
    c.Refused cfg pubkey stake ↔
      c.TooFew cfg pubkey stake ∨ (c.TooLight cfg pubkey stake ∧ c.Drains pubkey 0) := by
  have hzero := NonZero.new_eq_none hnew
  have hlittle : ¬ TooLittle cfg stake := by
    rintro ⟨hpos, -⟩
    omega
  rw [Refused, or_iff_right hlittle, hzero]

variable (cfg) in
/-- Before its error is converted, an update which asks for a stake ends with an error if and only if
the limits refuse the stake. -/
theorem update_error_iff {E : Type} [OfUpdateCandidateError E] (hc : c.Sound)
    (hdistinct : (keys c.candidates).Nodup) {newStakeFn : Option (Candidate PK) → Except E (Fin (2 ^ 128))}
    (hs : newStakeFn (c.candidates.find? fun el => el.pubkey = pubkey) = .ok stake) :
    ∃ res, c.update cfg pubkey newStakeFn =
        res.map (fun r => (r.1.mapError OfUpdateCandidateError.ofUpdateCandidateError, r.2)) ∧
      Outcome cfg c (requested c.candidates pubkey stake) res ∧
      ((∃ e c', res = some (.error e, c')) ↔ c.Refused cfg pubkey stake) := by
  unfold update
  rw [List.find?_eq_bind_findIdx?_getElem?] at hs
  simp only [hs]
  cases hnew : NonZero.new stake with
  | some nonzero =>
    rw [refused_of_nonzero hnew]
    simp only
    split
    · rename_i hlow
      exact ⟨_, rfl, .fails _, iff_of_true ⟨_, _, rfl⟩ (Or.inl hlow)⟩
    · rename_i hlow
      have hreq : (c.candidates.eraseP fun el => el.pubkey = pubkey).orderedInsert (· ≤ ·) ⟨pubkey, nonzero⟩ =
          requested c.candidates pubkey stake := by
        rw [requested, hnew]
      have houtcome := doUpdate_outcome hc cfg ⟨pubkey, nonzero⟩
      have herror := doUpdate_error_iff cfg hc hdistinct ⟨pubkey, nonzero⟩
      rw [hreq] at houtcome herror
      exact ⟨_, (Option.map_eq_bind ..).symm, houtcome, herror.trans (or_iff_right hlow).symm⟩
  | none =>
    rw [refused_of_zero hnew]
    cases hpos : c.candidates.findIdx? fun el => el.pubkey = pubkey with
    | none =>
      have hreq : requested c.candidates pubkey stake = c.candidates := by
        rw [requested, hnew, List.eraseP_eq_eraseIdx, hpos]
      refine ⟨_, rfl, hreq ▸ Outcome.unchanged hc cfg, iff_of_false ?_ ?_⟩
      · rintro ⟨e, c', h⟩
        cases h
      · rintro (⟨-, hkey, -⟩ | ⟨-, hdrains⟩)
        · obtain ⟨pos, hsome⟩ := mem_keys_iff.mp hkey
          cases hpos.symm.trans hsome
        · exact not_drains_of_absent hpos hdrains
    | some pos =>
      obtain ⟨hlt, hpk, -⟩ := List.findIdx?_eq_some_iff_getElem.mp hpos
      have hold := List.getElem?_eq_getElem hlt
      have hpk : c.candidates[pos].pubkey = pubkey := of_decide_eq_true hpk
      have hreq : requested c.candidates pubkey stake = c.candidates.eraseIdx pos := by
        rw [requested, hnew, List.eraseP_eq_eraseIdx, hpos]
      have hlength := List.length_eraseIdx_of_lt hlt
      have hmin := cfg.minValidators.pos
      have hfew : c.TooFew cfg pubkey stake ↔ c.candidates.length ≤ cfg.minValidators.get := by
        rw [TooFew, and_iff_right (NonZero.new_eq_none hnew), and_iff_right (mem_keys_iff.mpr ⟨pos, hpos⟩),
          hreq, hlength]
        omega
      refine ⟨_, (Option.map_eq_bind ..).symm, hreq ▸ doRemove_outcome hc cfg hold, ?_⟩
      rw [doRemove_error_iff hc hdistinct hold hpk, hfew, TooLight, hreq]

/-- An update gets through exactly when the limits allow it and the stake of the new head fits. -/
theorem update_succeeds_iff {E : Type} [OfUpdateCandidateError E] (hc : c.Sound)
    (hdistinct : (keys c.candidates).Nodup) {newStakeFn : Option (Candidate PK) → Except E (Fin (2 ^ 128))}
    (hs : newStakeFn (c.candidates.find? fun el => el.pubkey = pubkey) = .ok stake) :
    (∃ c', c.update cfg pubkey newStakeFn = some (.ok (), c')) ↔
      ¬ c.Refused cfg pubkey stake ∧ c.topStake (requested c.candidates pubkey stake) < 2 ^ 128 := by
  obtain ⟨res, hres, houtcome, herror⟩ := update_error_iff cfg hc hdistinct hs
  rw [hres, ← herror]
  cases houtcome with
  | panics h =>
    refine iff_of_false ?_ fun hfits => absurd hfits.2 (not_lt.mpr h)
    rintro ⟨c', h⟩
    cases h
  | fails e =>
    refine iff_of_false ?_ fun hfine => hfine.1 ⟨_, _, rfl⟩
    rintro ⟨c', h⟩
    cases h
  | succeeds h =>
    refine iff_of_true ⟨_, rfl⟩ ⟨?_, ?_⟩
    · rintro ⟨e, c', h⟩
      cases h
    · have hfits := h.fits
      rw [h.headStake] at hfits
      exact hfits

end

end Candidates

end GuestChain
