import EmulatedLightClient.Candidates
import EmulatedLightClient.Weights

/-!
# What updates do to candidates

An update takes the candidate with given key out of the list and puts it back
where its new stake belongs. Positions, the rotation and the head stake which
the source adjusts step by step all follow from that.
-/

namespace GuestChain

open MachineInts Weights

theorem insertIdx_eq_append {α : Type} {l : List α} {i : Nat} (a : α) (h : i ≤ l.length) :
    l.insertIdx i a = l.take i ++ a :: l.drop i := by
  induction l generalizing i with
  | nil =>
    cases Nat.le_zero.mp h
    rfl
  | cons b l ih =>
    cases i with
    | zero => rfl
    | succ i => simp [ih (Nat.le_of_succ_le_succ h)]

theorem rotateLeft_one {α : Type} (a : α) (l : List α) : (a :: l).rotateLeft 1 = l ++ [a] := by
  cases l with
  | nil => rfl
  | cons b l => simp [List.rotateLeft]

theorem rotateRight_one {α : Type} (l : List α) (a : α) : (l ++ [a]).rotateRight 1 = a :: l := by
  cases l with
  | nil => rfl
  | cons b l => simp [List.rotateRight]

/-- Rotation takes the element out and puts it back. -/
theorem rotate_eq_some {α : Type} {l : List α} {i j : Nat} {a : α} (hi : l[i]? = some a)
    (hj : j < l.length) : rotate l i j = some ((l.eraseIdx i).insertIdx j a) := by
  obtain ⟨hlt, rfl⟩ := List.getElem?_eq_some_iff.mp hi
  have hlength := List.length_eraseIdx_of_lt hlt
  have htake : (l.take i).length = i := List.length_take_of_le hlt.le
  rw [rotate, if_pos (max_lt hlt hj), insertIdx_eq_append _ (by omega),
    List.eraseIdx_eq_take_drop_succ, List.take_append, List.drop_append, htake]
  rcases lt_trichotomy i j with hij | rfl | hij
  · have hmiddle : (l.take (j + 1)).drop i = l[i] :: (l.drop (i + 1)).take (j - i) := by
      rw [List.drop_take, List.drop_eq_getElem_cons hlt, show j + 1 - i = j - i + 1 by omega,
        List.take_succ_cons]
    have hbefore : (l.take i).take j = l.take i := List.take_of_length_le (by omega)
    have hafter : (l.take i).drop j = [] := List.drop_of_length_le (by omega)
    have hrest : (l.drop (i + 1)).drop (j - i) = l.drop (j + 1) := by
      rw [List.drop_drop, show i + 1 + (j - i) = j + 1 by omega]
    rw [Nat.compare_eq_lt.mpr hij, hmiddle, rotateLeft_one, hbefore, hafter, hrest]
    simp
  · have hback : l.take i ++ l[i] :: l.drop (i + 1) = l := by
      rw [← List.drop_eq_getElem_cons hlt, List.take_append_drop]
    rw [Nat.compare_eq_eq.mpr rfl]
    simp only [Nat.sub_self, List.take_zero, List.append_nil, List.drop_zero]
    rw [List.drop_of_length_le (by omega), List.take_of_length_le (by omega), List.nil_append, hback]
  · have hmiddle : (l.take (i + 1)).drop j = (l.take i).drop j ++ [l[i]] := by
      rw [List.take_succ_eq_append_getElem hlt, List.drop_append_of_le_length (by omega)]
    have hbefore : (l.take i).take j = l.take j := by rw [List.take_take, min_eq_left hij.le]
    rw [Nat.compare_eq_gt.mpr hij, hmiddle, rotateRight_one, hbefore, show j - i = 0 by omega]
    simp

section

variable {α : Type} [LinearOrder α] {l : List α} {a : α}

theorem insertIdx_takeWhile (l : List α) (a : α) :
    l.insertIdx (l.takeWhile (· < a)).length a = l.orderedInsert (· ≤ ·) a := by
  induction l with
  | nil => rfl
  | cons b l ih =>
    rw [List.orderedInsert_cons, List.takeWhile_cons]
    by_cases h : b < a
    · rw [if_pos (decide_eq_true h), if_neg (not_le.mpr h), List.length_cons,
        List.insertIdx_succ_cons, ih]
    · rw [if_neg (by simpa using h), if_pos (not_lt.mp h)]
      rfl

/-- Taking out an element below moves the position down. -/
theorem length_takeWhile_eraseIdx (hl : l.Pairwise (· ≤ ·)) {i : Nat} (hi : i < l.length) (a : α) :
    ((l.eraseIdx i).takeWhile (· < a)).length =
      if i < (l.takeWhile (· < a)).length then (l.takeWhile (· < a)).length - 1
      else (l.takeWhile (· < a)).length := by
  induction l generalizing i with
  | nil => cases hi
  | cons b l ih =>
    obtain ⟨hb, hl⟩ := List.pairwise_cons.mp hl
    cases i with
    | zero =>
      rw [List.eraseIdx_cons_zero, List.takeWhile_cons]
      by_cases h : b < a
      · simp [h]
      · cases l with
        | nil => simp [h]
        | cons c l =>
          have hc : ¬ c < a := not_lt.mpr ((not_lt.mp h).trans (hb c List.mem_cons_self))
          simp [h, hc]
    | succ i =>
      rw [List.eraseIdx_cons_succ, List.takeWhile_cons, List.takeWhile_cons]
      by_cases h : b < a
      · rw [if_pos (decide_eq_true h), if_pos (decide_eq_true h), List.length_cons,
          List.length_cons, ih hl (Nat.lt_of_succ_lt_succ hi)]
        split <;> split <;> omega
      · simp [h]

end

def Candidate.weight {PK : Type} (c : Candidate PK) : Nat := c.stake.get

namespace Candidates

variable {PK : Type} [LinearOrder PK]

omit [LinearOrder PK] in
theorem stakeAt_eq (l : List (Candidate PK)) (pos : Nat) :
    stakeAt l pos = weightAt Candidate.weight l pos := by
  unfold stakeAt weightAt
  cases l[pos]? <;> rfl

theorem weight_le {a b : Candidate PK} (h : a ≤ b) : b.weight ≤ a.weight := by
  have hkey : a.key ≤ b.key := h
  rw [Candidate.key, Candidate.key, Prod.Lex.toLex_le_toLex] at hkey
  rcases hkey with hlt | ⟨heq, -⟩
  · exact (NonZero.lt_iff.mp hlt).le
  · exact (congrArg NonZero.get heq).ge

/-- Those who come later have no more stake. -/
theorem weightAt_le {l : List (Candidate PK)} (hl : l.Pairwise (· ≤ ·)) {i j : Nat}
    {a : Candidate PK} (hi : l[i]? = some a) (h : i ≤ j) : weightAt Candidate.weight l j ≤ a.weight := by
  cases hj : l[j]? with
  | none =>
    rw [weightAt, hj]
    exact Nat.zero_le _
  | some b =>
    rw [weightAt_eq hj]
    obtain ⟨hilt, rfl⟩ := List.getElem?_eq_some_iff.mp hi
    obtain ⟨hjlt, rfl⟩ := List.getElem?_eq_some_iff.mp hj
    rcases h.eq_or_lt with rfl | hlt
    · exact le_rfl
    · exact weight_le (List.pairwise_iff_getElem.mp hl i j hilt hjlt hlt)

/-- Candidates are sorted and the head stake is what the head has. -/
structure Sound (c : Candidates PK) : Prop where
  sorted : c.candidates.Pairwise (· ≤ ·)
  headStake : c.headStake = headWeight Candidate.weight c.maxValidators.get c.candidates
  fits : c.headStake < 2 ^ 128

/-- The list became `l` and the rest followed. -/
structure Replaced (c c' : Candidates PK) (l : List (Candidate PK)) : Prop where
  maxValidators : c'.maxValidators = c.maxValidators
  candidates : c'.candidates = l
  headStake : c'.headStake = headWeight Candidate.weight c.maxValidators.get l
  fits : c'.headStake < 2 ^ 128
  changed : c'.changed = true ∨
    (c'.changed = c.changed ∧
      l.take c.maxValidators.get = c.candidates.take c.maxValidators.get)

omit [LinearOrder PK] in
theorem addHeadStake_eq (c : Candidates PK) (stake : Nat) :
    c.addHeadStake stake =
      if c.headStake + stake < 2 ^ 128 then
        some { c with headStake := c.headStake + stake, changed := true }
      else none := by
  unfold addHeadStake checkedAdd
  split <;> rfl

omit [LinearOrder PK] in
theorem subHeadStake_eq {c : Candidates PK} {stake : Nat} (cfg : Config) (h : stake ≤ c.headStake) :
    c.subHeadStake cfg stake =
      if c.headStake - stake < cfg.minTotalStake.get then some (.error .notEnoughTotalStake, c)
      else some (.ok (), { c with headStake := c.headStake - stake, changed := true }) := by
  unfold subHeadStake checkedSub
  rw [if_pos h]
  rfl

omit [LinearOrder PK] in
theorem max_succ (c : Candidates PK) : ∃ n, c.maxValidators.get = n + 1 :=
  Nat.exists_eq_add_one_of_ne_zero c.maxValidators.pos.ne'

theorem binarySearch_le (l : List (Candidate PK)) (candidate : Candidate PK) :
    binarySearch l candidate ≤ l.length :=
  (List.takeWhile_sublist _).length_le

theorem insertIdx_binarySearch (l : List (Candidate PK)) (candidate : Candidate PK) :
    l.insertIdx (binarySearch l candidate) candidate = l.orderedInsert (· ≤ ·) candidate :=
  insertIdx_takeWhile l candidate

variable {c c' : Candidates PK} {cfg : Config} {candidate : Candidate PK}

/-- Whoever the new candidate pushes out has no more stake. -/
theorem le_of_binarySearch_le {l : List (Candidate PK)} (hl : l.Pairwise (· ≤ ·)) {n : Nat}
    (h : binarySearch l candidate ≤ n) : weightAt Candidate.weight l n ≤ candidate.weight := by
  have hsorted := hl.orderedInsert (r := (· ≤ ·)) candidate l
  rw [← insertIdx_binarySearch] at hsorted
  have hget : (l.insertIdx (binarySearch l candidate) candidate)[binarySearch l candidate]? =
      some candidate := by
    rw [List.getElem?_insertIdx_self, if_pos (binarySearch_le l candidate)]
  have hle := weightAt_le hsorted hget (Nat.le_succ_of_le h)
  rwa [weightAt_insertIdx h] at hle

/-- How an update which asks for the list `l` may end. -/
inductive Outcome {E : Type} (cfg : Config) (c : Candidates PK) (l : List (Candidate PK)) :
    Option (Except E Unit × Candidates PK) → Prop
  | panics (h : 2 ^ 128 ≤ headWeight Candidate.weight c.maxValidators.get l) : Outcome cfg c l none
  | fails (e : E) : Outcome cfg c l (some (.error e, c))
  | succeeds {c' : Candidates PK} (h : Replaced c c' l)
      (hcount : min c.candidates.length cfg.minValidators.get ≤ l.length)
      (hstake : min c.headStake cfg.minTotalStake.get ≤ c'.headStake) :
      Outcome cfg c l (some (.ok (), c'))

theorem addImpl_outcome (hc : c.Sound) (cfg : Config) (candidate : Candidate PK) :
    Outcome (E := UpdateCandidateError) cfg c (c.candidates.orderedInsert (· ≤ ·) candidate)
      ((c.addImpl (binarySearch c.candidates candidate) candidate).map (.ok (), ·)) := by
  obtain ⟨n, hn⟩ := c.max_succ
  have hhead := hc.headStake
  have hcount : min c.candidates.length cfg.minValidators.get ≤
      (c.candidates.orderedInsert (· ≤ ·) candidate).length := by
    rw [List.orderedInsert_length]
    omega
  unfold addImpl
  simp only [insertIdx_binarySearch, hn] at hhead ⊢
  split
  · rename_i hlt
    have hlt := Nat.le_of_lt_succ hlt
    have hpushed := le_of_binarySearch_le hc.sorted hlt
    have hat : stakeAt (c.candidates.orderedInsert (· ≤ ·) candidate) (n + 1) =
        weightAt Candidate.weight c.candidates n := by
      rw [stakeAt_eq, ← insertIdx_binarySearch, weightAt_insertIdx hlt]
    have hnew : headWeight Candidate.weight (n + 1)
        (c.candidates.orderedInsert (· ≤ ·) candidate) =
          candidate.weight + headWeight Candidate.weight n c.candidates := by
      rw [← insertIdx_binarySearch, headWeight_insertIdx (binarySearch_le _ _) hlt]
    rw [headWeight_succ] at hhead
    have hsub : checkedSub candidate.stake.get
        (stakeAt (c.candidates.orderedInsert (· ≤ ·) candidate) (n + 1)) =
          some (candidate.weight - weightAt Candidate.weight c.candidates n) :=
      checkedSub_eq_some.mpr ⟨by rw [hat]; exact hpushed, by rw [hat]; rfl⟩
    have hsum : c.headStake + (candidate.weight - weightAt Candidate.weight c.candidates n) =
        headWeight Candidate.weight (n + 1) (c.candidates.orderedInsert (· ≤ ·) candidate) := by
      omega
    rw [hsub, Option.bind_eq_bind, Option.bind_some, addHeadStake_eq, hsum]
    split
    · rename_i hfits
      refine .succeeds ⟨rfl, rfl, by rw [hn], hfits, Or.inl rfl⟩ hcount ?_
      show min c.headStake _ ≤ headWeight _ _ _
      omega
    · rename_i hover
      exact .panics (by rw [hn]; exact not_lt.mp hover)
  · rename_i hout
    have hsame : (c.candidates.orderedInsert (· ≤ ·) candidate).take (n + 1) =
        c.candidates.take (n + 1) := by
      rw [← insertIdx_binarySearch, List.take_insertIdx_eq_take_of_le _ _ _ _ (not_lt.mp hout)]
    refine .succeeds ⟨rfl, rfl, ?_, hc.fits, Or.inr ⟨rfl, by rw [hn]; exact hsame⟩⟩ hcount
      (min_le_left _ _)
    show c.headStake = headWeight _ _ _
    rw [hn, hhead, headWeight, headWeight, hsame]

/-- The head stake either stays as it is because of the limit or becomes what the head
has without the candidate. The limit is looked at for candidates of the head only. -/
theorem updateStakeForRemove_spec (hc : c.Sound) (cfg : Config) {pos : Nat} {old : Candidate PK}
    (hold : c.candidates[pos]? = some old) :
    (c.updateStakeForRemove cfg pos = some (.error .notEnoughTotalStake, c) ∧ pos < c.maxValidators.get ∧
      headWeight Candidate.weight c.maxValidators.get (c.candidates.eraseIdx pos) < cfg.minTotalStake.get) ∨
    ∃ changed, c.updateStakeForRemove cfg pos = some (.ok (),
        { c with
          headStake := headWeight Candidate.weight c.maxValidators.get (c.candidates.eraseIdx pos)
          changed }) ∧
      (changed = true ∨ (changed = c.changed ∧ c.maxValidators.get ≤ pos)) ∧
      headWeight Candidate.weight c.maxValidators.get (c.candidates.eraseIdx pos) ≤ c.headStake ∧
      min c.headStake cfg.minTotalStake.get ≤
        headWeight Candidate.weight c.maxValidators.get (c.candidates.eraseIdx pos) ∧
      (pos < c.maxValidators.get → cfg.minTotalStake.get ≤
        headWeight Candidate.weight c.maxValidators.get (c.candidates.eraseIdx pos)) := by
  obtain ⟨n, hn⟩ := c.max_succ
  have hhead := hc.headStake
  unfold updateStakeForRemove
  simp only [hn] at hhead ⊢
  split
  · rename_i hout
    rw [headWeight_eraseIdx_of_le hout, ← hhead]
    exact Or.inr ⟨c.changed, rfl, Or.inr ⟨rfl, hout⟩, le_rfl, min_le_left _ _, fun hin => absurd hout (by omega)⟩
  · rename_i hin
    have hle : pos ≤ n := Nat.le_of_lt_succ (not_le.mp hin)
    have hnext := weightAt_le hc.sorted hold (j := n + 1) (by omega)
    have herase := headWeight_eraseIdx Candidate.weight hold hle
    have herase' := headWeight_eraseIdx Candidate.weight hold (Nat.le_add_right_of_le hle : pos ≤ n + 1)
    rw [headWeight_succ] at herase'
    have hsub : checkedSub old.stake.get (stakeAt c.candidates (n + 1)) =
        some (old.weight - weightAt Candidate.weight c.candidates (n + 1)) :=
      checkedSub_eq_some.mpr ⟨by rw [stakeAt_eq]; exact hnext, by rw [stakeAt_eq]; rfl⟩
    have hleft : c.headStake - (old.weight - weightAt Candidate.weight c.candidates (n + 1)) =
        headWeight Candidate.weight (n + 1) (c.candidates.eraseIdx pos) := by
      omega
    rw [hold, Option.bind_eq_bind, Option.bind_some, hsub, Option.bind_eq_bind, Option.bind_some,
      subHeadStake_eq cfg (by omega), hleft]
    split
    · rename_i hlimit
      exact Or.inl ⟨rfl, not_le.mp hin, hlimit⟩
    · rename_i hlimit
      exact Or.inr ⟨true, rfl, Or.inl rfl, by omega, by omega, fun _ => not_lt.mp hlimit⟩

theorem doRemove_outcome (hc : c.Sound) (cfg : Config) {pos : Nat} {old : Candidate PK}
    (hold : c.candidates[pos]? = some old) :
    Outcome cfg c (c.candidates.eraseIdx pos) (c.doRemove cfg pos) := by
  obtain ⟨hlt, -⟩ := List.getElem?_eq_some_iff.mp hold
  unfold doRemove
  split
  · exact .fails _
  · rename_i hcount
    obtain ⟨hremove, -⟩ | ⟨changed, hremove, hchanged, hle, hstake, -⟩ :=
      updateStakeForRemove_spec hc cfg hold
    · rw [hremove]
      exact .fails _
    · rw [hremove]
      refine .succeeds ⟨rfl, rfl, rfl, hle.trans_lt hc.fits, ?_⟩ ?_ hstake
      · rcases hchanged with hset | ⟨hkept, hout⟩
        · exact Or.inl hset
        · exact Or.inr ⟨hkept, List.take_eraseIdx_eq_take_of_le _ _ _ hout⟩
      · rw [List.length_eraseIdx_of_lt hlt]
        omega

omit [LinearOrder PK] in
theorem modify_insertIdx {α : Type} {l : List α} {i : Nat} (a : α) (f : α → α) (h : i ≤ l.length) :
    (l.insertIdx i a).modify i f = l.insertIdx i (f a) := by
  induction l generalizing i with
  | nil =>
    cases Nat.le_zero.mp h
    rfl
  | cons b l ih =>
    cases i with
    | zero => rfl
    | succ i => simp [ih (Nat.le_of_succ_le_succ h)]

omit [LinearOrder PK] in
theorem place_eq_some (c : Candidates PK) {oldPos newPos : Nat} {old : Candidate PK}
    (hold : c.candidates[oldPos]? = some old) (hnew : newPos < c.candidates.length)
    (stake : NonZeroU128) :
    c.place oldPos newPos stake = some
      { c with
        candidates := (c.candidates.eraseIdx oldPos).insertIdx newPos ⟨old.pubkey, stake⟩ } := by
  obtain ⟨hlt, -⟩ := List.getElem?_eq_some_iff.mp hold
  unfold place
  rw [rotate_eq_some hold hnew, Option.bind_eq_bind, Option.bind_some, modify_insertIdx]
  · rfl
  · rw [List.length_eraseIdx_of_lt hlt]
    omega

/-- The list with the candidate taken out and put back with other stake. -/
def moved (l : List (Candidate PK)) (pos : Nat) (candidate : Candidate PK) : List (Candidate PK) :=
  (l.eraseIdx pos).orderedInsert (· ≤ ·) candidate

theorem moved_self {l : List (Candidate PK)} (hl : l.Pairwise (· ≤ ·)) {pos : Nat}
    {old : Candidate PK} (hold : l[pos]? = some old) : moved l pos old = l := by
  obtain ⟨hlt, rfl⟩ := List.getElem?_eq_some_iff.mp hold
  have hperm : (moved l pos l[pos]).Perm l :=
    (List.perm_orderedInsert _ _ _).trans (List.getElem_cons_eraseIdx_perm hlt)
  exact hperm.eq_of_pairwise (fun _ _ _ _ h h' => le_antisymm h h')
    ((hl.sublist (List.eraseIdx_sublist _ _)).orderedInsert _ _) hl

theorem length_moved {l : List (Candidate PK)} {pos : Nat} (h : pos < l.length)
    (candidate : Candidate PK) : (moved l pos candidate).length = l.length := by
  rw [moved, List.orderedInsert_length, List.length_eraseIdx_of_lt h]
  omega

section

variable {oldPos : Nat} {old : Candidate PK}

/-- What is left to do once the head stake is updated. -/
theorem place_succeeds {headStake : Nat} {changed : Bool}
    (hold : c.candidates[oldPos]? = some old) (hpk : old.pubkey = candidate.pubkey)
    (hhead : headStake =
      headWeight Candidate.weight c.maxValidators.get (moved c.candidates oldPos candidate))
    (hfits : headStake < 2 ^ 128)
    (hchanged : changed = true ∨ (changed = c.changed ∧
      (moved c.candidates oldPos candidate).take c.maxValidators.get =
        c.candidates.take c.maxValidators.get))
    (hstake : min c.headStake cfg.minTotalStake.get ≤ headStake) :
    Outcome (E := UpdateCandidateError) cfg c (moved c.candidates oldPos candidate)
      (({ c with headStake, changed } : Candidates PK).place oldPos
        (binarySearch (c.candidates.eraseIdx oldPos) candidate) candidate.stake |>.map (.ok (), ·)) := by
  obtain ⟨hlt, -⟩ := List.getElem?_eq_some_iff.mp hold
  have hnew : binarySearch (c.candidates.eraseIdx oldPos) candidate < c.candidates.length := by
    have hle := binarySearch_le (c.candidates.eraseIdx oldPos) candidate
    rw [List.length_eraseIdx_of_lt hlt] at hle
    omega
  rw [place_eq_some { c with headStake, changed } hold hnew, hpk]
  refine .succeeds ⟨rfl, insertIdx_binarySearch _ _, hhead, hfits, hchanged⟩ ?_ hstake
  rw [length_moved hlt]
  exact min_le_left _ _

theorem headWeight_moved_of_le {n : Nat}
    (h : n ≤ binarySearch (c.candidates.eraseIdx oldPos) candidate) :
    headWeight Candidate.weight n (moved c.candidates oldPos candidate) =
      headWeight Candidate.weight n (c.candidates.eraseIdx oldPos) := by
  rw [moved, ← insertIdx_binarySearch, headWeight_insertIdx_of_le h]

theorem headWeight_moved {n : Nat}
    (h : binarySearch (c.candidates.eraseIdx oldPos) candidate ≤ n) :
    headWeight Candidate.weight (n + 1) (moved c.candidates oldPos candidate) =
      candidate.weight + headWeight Candidate.weight n (c.candidates.eraseIdx oldPos) := by
  rw [moved, ← insertIdx_binarySearch, headWeight_insertIdx (binarySearch_le _ _) h]

/-- The candidate ends up outside of the head. -/
theorem updateImpl_outside (hc : c.Sound) (cfg : Config) (hold : c.candidates[oldPos]? = some old)
    (hpk : old.pubkey = candidate.pubkey)
    (hout : c.maxValidators.get ≤ binarySearch (c.candidates.eraseIdx oldPos) candidate) :
    Outcome cfg c (moved c.candidates oldPos candidate)
      (c.updateImpl cfg oldPos (binarySearch (c.candidates.eraseIdx oldPos) candidate) candidate) := by
  have hhead := headWeight_moved_of_le hout
  unfold updateImpl
  simp only
  rw [if_pos hout]
  obtain ⟨hremove, -⟩ | ⟨changed, hremove, hchanged, hle, hstake, -⟩ :=
    updateStakeForRemove_spec hc cfg hold
  · rw [hremove]
    exact .fails _
  · rw [hremove]
    refine place_succeeds hold hpk hhead.symm (hle.trans_lt hc.fits) ?_ hstake
    rcases hchanged with hset | ⟨hkept, hold'⟩
    · exact Or.inl hset
    · refine Or.inr ⟨hkept, ?_⟩
      rw [moved, ← insertIdx_binarySearch, List.take_insertIdx_eq_take_of_le _ _ _ _ hout,
        List.take_eraseIdx_eq_take_of_le _ _ _ hold']

/-- The candidate graduates to the head. -/
theorem updateImpl_graduates (hc : c.Sound) (cfg : Config) (hold : c.candidates[oldPos]? = some old)
    (hpk : old.pubkey = candidate.pubkey)
    (hin : binarySearch (c.candidates.eraseIdx oldPos) candidate < c.maxValidators.get)
    (hout : c.maxValidators.get ≤ oldPos) :
    Outcome cfg c (moved c.candidates oldPos candidate)
      (c.updateImpl cfg oldPos (binarySearch (c.candidates.eraseIdx oldPos) candidate) candidate) := by
  obtain ⟨n, hn⟩ := c.max_succ
  have hsound := hc.headStake
  rw [hn] at hin hout hsound
  have hmoved := headWeight_moved (c := c) (Nat.le_of_lt_succ hin)
  have hpushed := le_of_binarySearch_le (hc.sorted.sublist (List.eraseIdx_sublist _ _))
    (Nat.le_of_lt_succ hin)
  have hsame : weightAt Candidate.weight (c.candidates.eraseIdx oldPos) n =
      weightAt Candidate.weight c.candidates n := by
    rw [weightAt, weightAt, List.getElem?_eraseIdx_of_lt (Nat.lt_of_succ_le hout)]
  rw [headWeight_eraseIdx_of_le (Nat.le_of_succ_le hout)] at hmoved
  rw [headWeight_succ] at hsound
  rw [hsame] at hpushed
  have hsub : checkedSub candidate.stake.get (stakeAt c.candidates (n + 1 - 1)) =
      some (candidate.weight - weightAt Candidate.weight c.candidates n) :=
    checkedSub_eq_some.mpr ⟨by rw [stakeAt_eq]; exact hpushed, by rw [stakeAt_eq]; rfl⟩
  have hsum : c.headStake + (candidate.weight - weightAt Candidate.weight c.candidates n) =
      headWeight Candidate.weight (n + 1) (moved c.candidates oldPos candidate) := by
    omega
  unfold updateImpl
  simp only [hn]
  rw [if_neg (not_le.mpr hin), if_pos hout, hsub, Option.bind_eq_bind, Option.bind_some,
    addHeadStake_eq, hsum]
  split
  · rename_i hfits
    refine place_succeeds hold hpk (by rw [hn]) hfits (Or.inl rfl) ?_
    omega
  · rename_i hover
    exact .panics (by rw [hn]; exact not_lt.mp hover)

/-- The candidate moves within the head. -/
theorem updateImpl_within (hc : c.Sound) (cfg : Config) (hold : c.candidates[oldPos]? = some old)
    (hpk : old.pubkey = candidate.pubkey)
    (hin : binarySearch (c.candidates.eraseIdx oldPos) candidate < c.maxValidators.get)
    (hin' : oldPos < c.maxValidators.get) :
    Outcome cfg c (moved c.candidates oldPos candidate)
      (c.updateImpl cfg oldPos (binarySearch (c.candidates.eraseIdx oldPos) candidate) candidate) := by
  obtain ⟨n, hn⟩ := c.max_succ
  have hsound := hc.headStake
  rw [hn] at hin hin' hsound
  have hmoved := headWeight_moved (c := c) (Nat.le_of_lt_succ hin)
  have herase := headWeight_eraseIdx Candidate.weight hold (Nat.le_of_lt_succ hin')
  have hold' : old.stake.get = old.weight := rfl
  have hnew : candidate.stake.get = candidate.weight := rfl
  unfold updateImpl
  simp only [hn]
  rw [if_neg (not_le.mpr hin), if_neg (not_le.mpr hin'), hold, Option.bind_eq_bind,
    Option.bind_some, hold', hnew]
  split
  · have hsum : c.headStake + (candidate.weight - old.weight) =
        headWeight Candidate.weight (n + 1) (moved c.candidates oldPos candidate) := by
      omega
    rw [addHeadStake_eq, hsum]
    split
    · rename_i hfits
      refine place_succeeds hold hpk (by rw [hn]) hfits (Or.inl rfl) ?_
      omega
    · rename_i hover
      exact .panics (by rw [hn]; exact not_lt.mp hover)
  · split
    · have hleft : c.headStake - (old.weight - candidate.weight) =
          headWeight Candidate.weight (n + 1) (moved c.candidates oldPos candidate) := by
        omega
      have hfits := hc.fits
      rw [subHeadStake_eq cfg (by omega), hleft]
      split
      · exact .fails _
      · refine place_succeeds hold hpk (by rw [hn]) (by omega) (Or.inl rfl) ?_
        omega
    · have hstake : old.weight = candidate.weight := by omega
      have hsame : old = candidate := by
        obtain ⟨pk, stake⟩ := old
        obtain ⟨pk', stake'⟩ := candidate
        cases hpk
        cases NonZero.get_injective hstake
        rfl
      subst hsame
      rw [moved_self hc.sorted hold]
      exact .succeeds ⟨rfl, rfl, hc.headStake, hc.fits, Or.inr ⟨rfl, rfl⟩⟩ (min_le_left _ _)
        (min_le_left _ _)

end

theorem binarySearch_eraseIdx {l : List (Candidate PK)} (hl : l.Pairwise (· ≤ ·)) {pos : Nat}
    (hpos : pos < l.length) (candidate : Candidate PK) :
    (if pos < binarySearch l candidate then binarySearch l candidate - 1
      else binarySearch l candidate) = binarySearch (l.eraseIdx pos) candidate :=
  (length_takeWhile_eraseIdx hl hpos candidate).symm

/-- The list which a candidate's new stake asks for; without stake there is no candidate. -/
def requested (l : List (Candidate PK)) (pubkey : PK) (stake : Fin (2 ^ 128)) :
    List (Candidate PK) :=
  let rest := l.eraseP fun el => el.pubkey = pubkey
  match NonZero.new stake with
  | some stake => rest.orderedInsert (· ≤ ·) ⟨pubkey, stake⟩
  | none => rest

theorem doUpdate_outcome (hc : c.Sound) (cfg : Config) (candidate : Candidate PK) :
    Outcome cfg c
      ((c.candidates.eraseP fun el => el.pubkey = candidate.pubkey).orderedInsert (· ≤ ·) candidate)
      (c.doUpdate cfg (c.candidates.findIdx? fun el => el.pubkey = candidate.pubkey) candidate) := by
  unfold doUpdate
  rw [List.eraseP_eq_eraseIdx]
  cases hpos : c.candidates.findIdx? fun el => el.pubkey = candidate.pubkey with
  | none => exact addImpl_outcome hc cfg candidate
  | some pos =>
    obtain ⟨hlt, hpk, -⟩ := List.findIdx?_eq_some_iff_getElem.mp hpos
    have hold := List.getElem?_eq_getElem hlt
    have hpk : c.candidates[pos].pubkey = candidate.pubkey := of_decide_eq_true hpk
    simp only
    rw [binarySearch_eraseIdx hc.sorted hlt]
    rcases le_or_gt c.maxValidators.get (binarySearch (c.candidates.eraseIdx pos) candidate) with
      hout | hin
    · exact updateImpl_outside hc cfg hold hpk hout
    · rcases le_or_gt c.maxValidators.get pos with hout | hin'
      · exact updateImpl_graduates hc cfg hold hpk hin hout
      · exact updateImpl_within hc cfg hold hpk hin hin'

theorem Outcome.unchanged {E : Type} (hc : c.Sound) (cfg : Config) :
    Outcome (E := E) cfg c c.candidates (some (.ok (), c)) :=
  .succeeds ⟨rfl, rfl, hc.headStake, hc.fits, Or.inr ⟨rfl, rfl⟩⟩ (min_le_left _ _) (min_le_left _ _)

omit [LinearOrder PK] in
theorem Outcome.mapError {E E' : Type} {l : List (Candidate PK)} (f : E → E')
    {res : Option (Except E Unit × Candidates PK)} (h : Outcome cfg c l res) :
    Outcome cfg c l (res.bind fun r => some (r.1.mapError f, r.2)) := by
  cases h with
  | panics h => exact .panics h
  | fails e => exact .fails (f e)
  | succeeds h hcount hstake => exact .succeeds h hcount hstake

/-- An update either fails before it looks at the list or asks for the list with the new
stake in it. -/
theorem update_outcome {E : Type} [OfUpdateCandidateError E] (hc : c.Sound) (cfg : Config)
    (pubkey : PK) (newStakeFn : Option (Candidate PK) → Except E (Fin (2 ^ 128))) :
    (∃ e, newStakeFn (c.candidates.find? fun el => el.pubkey = pubkey) = .error e ∧
      c.update cfg pubkey newStakeFn = some (.error e, c)) ∨
    ∃ stake, newStakeFn (c.candidates.find? fun el => el.pubkey = pubkey) = .ok stake ∧
      Outcome cfg c (requested c.candidates pubkey stake) (c.update cfg pubkey newStakeFn) := by
  unfold update
  rw [List.find?_eq_bind_findIdx?_getElem?]
  simp only
  cases hstake : newStakeFn ((c.candidates.findIdx? fun el => el.pubkey = pubkey).bind
      fun pos => c.candidates[pos]?) with
  | error e => exact Or.inl ⟨e, rfl, rfl⟩
  | ok stake =>
    refine Or.inr ⟨stake, rfl, ?_⟩
    unfold requested
    cases hnew : NonZero.new stake with
    | some stake =>
      simp only [hnew]
      split
      · exact .fails _
      · exact (doUpdate_outcome hc cfg ⟨pubkey, stake⟩).mapError _
    | none =>
      rw [List.eraseP_eq_eraseIdx]
      cases hpos : c.candidates.findIdx? fun el => el.pubkey = pubkey with
      | none =>
        simp only [hnew]
        exact Outcome.unchanged hc cfg
      | some pos =>
        obtain ⟨hlt, -⟩ := List.findIdx?_eq_some_iff_getElem.mp hpos
        simp only [hnew]
        exact (doRemove_outcome hc cfg (List.getElem?_eq_getElem hlt)).mapError _

theorem requested_sorted {l : List (Candidate PK)} (hl : l.Pairwise (· ≤ ·)) (pubkey : PK)
    (stake : Fin (2 ^ 128)) : (requested l pubkey stake).Pairwise (· ≤ ·) := by
  have hrest := hl.sublist (List.eraseP_sublist (p := fun el => el.pubkey = pubkey))
  unfold requested
  cases NonZero.new stake with
  | some stake => exact hrest.orderedInsert _ _
  | none => exact hrest

theorem Replaced.sound {l : List (Candidate PK)} (h : Replaced c c' l)
    (hl : l.Pairwise (· ≤ ·)) : c'.Sound := by
  refine ⟨h.candidates ▸ hl, ?_, h.fits⟩
  rw [h.headStake, h.maxValidators, h.candidates]

omit [LinearOrder PK] in
theorem sumHeadStake_eq (count : NonZeroU16) (l : List (Candidate PK)) :
    sumHeadStake count l =
      if headWeight Candidate.weight count.get l < 2 ^ 128 then
        some (headWeight Candidate.weight count.get l)
      else none := by
  unfold sumHeadStake
  split
  · rename_i hfits
    refine (foldlM_checkedAdd_eq_some (by decide)).mpr ⟨?_, ?_⟩
    · rw [Nat.zero_add]
      exact hfits
    · exact Nat.zero_add _
  · rename_i hover
    refine Option.eq_none_iff_forall_ne_some.mpr fun n h => hover ?_
    obtain ⟨hfits, -⟩ := (foldlM_checkedAdd_eq_some (by decide)).mp h
    rw [Nat.zero_add] at hfits
    exact hfits

omit [LinearOrder PK] in
theorem take_min {α : Type} (l : List α) (n : Nat) : l.take n = l.take (min l.length n) := by
  rcases le_total l.length n with h | h
  · rw [min_eq_left h, List.take_of_length_le h, List.take_length]
  · rw [min_eq_right h]

/-- The same candidates with other number of validators. -/
structure Resized (c c' : Candidates PK) (count : NonZeroU16) : Prop where
  maxValidators : c'.maxValidators = count
  candidates : c'.candidates = c.candidates
  headStake : c'.headStake = headWeight Candidate.weight count.get c.candidates
  fits : c'.headStake < 2 ^ 128
  changed : c'.changed = true ∨
    (c'.changed = c.changed ∧
      c.candidates.take count.get = c.candidates.take c.maxValidators.get)

theorem updateMaxValidators_spec (hc : c.Sound) (count : NonZeroU16) :
    (c.updateMaxValidators count = none →
      2 ^ 128 ≤ headWeight Candidate.weight count.get c.candidates) ∧
    ∀ c', c.updateMaxValidators count = some c' → Resized c c' count := by
  unfold updateMaxValidators
  simp only
  split
  · rename_i hcount
    have hsame : c.candidates.take count.get = c.candidates.take c.maxValidators.get := by
      rw [take_min, ← hcount, ← take_min]
    constructor
    · intro h
      cases h
    intro c' h
    cases h
    refine ⟨rfl, rfl, ?_, hc.fits, Or.inr ⟨rfl, hsame⟩⟩
    show c.headStake = headWeight _ _ _
    rw [hc.headStake, headWeight, headWeight, hsame]
  · rw [sumHeadStake_eq]
    split
    · rename_i hfits
      constructor
      · intro h
        cases h
      · intro c' h
        cases h
        exact ⟨rfl, rfl, rfl, hfits, Or.inl rfl⟩
    · rename_i hover
      constructor
      · exact fun _ => not_lt.mp hover
      · intro c' h
        cases h

theorem Resized.sound {count : NonZeroU16} (hc : c.Sound) (h : Resized c c' count) : c'.Sound := by
  refine ⟨h.candidates ▸ hc.sorted, ?_, h.fits⟩
  rw [h.headStake, h.maxValidators, h.candidates]

theorem new_spec {maxValidators : NonZeroU16} {validators : List (Validator PK)}
    (h : Candidates.new maxValidators validators = some c) :
    c.Sound ∧ c.maxValidators = maxValidators ∧
      c.candidates.Perm (validators.map Candidate.ofValidator) ∧
      c.changed = decide (maxValidators.get < validators.length) := by
  unfold Candidates.new fromCandidates at h
  simp only [sumHeadStake_eq] at h
  split at h
  · rename_i hfits
    cases h
    refine ⟨⟨List.pairwise_insertionSort _ _, rfl, hfits⟩, rfl, List.perm_insertionSort _ _, ?_⟩
    simp
  · cases h

end Candidates

end GuestChain
