import EmulatedLightClient.TransferModule

/-!
# The grammar of memos for the bridge

A memo lists as many accounts as its first field says. Fields end at commas, but for the last one, which is all the
rest.
-/

namespace SolanaIbc

/-- Fields which end with a comma each. -/
def terminated (fields : List (List Char)) : List Char := fields.flatMap (· ++ [','])

theorem intercalate_concat (fields : List (List Char)) (last : List Char) :
    [','].intercalate (fields ++ [last]) = terminated fields ++ last := by
  induction fields with
  | nil => exact List.intercalate_singleton
  | cons field fields ih =>
    obtain ⟨head, tail, htail⟩ := List.exists_cons_of_ne_nil (l := fields ++ [last]) (by simp)
    rw [List.cons_append, htail, List.intercalate_cons_cons, ← htail, ih]
    simp [terminated]

theorem splitOnce_eq_some {s field rest : List Char} :
    splitOnce s = some (field, rest) ↔ ',' ∉ field ∧ s = field ++ ',' :: rest := by
  induction s generalizing field with
  | nil => simp [splitOnce]
  | cons c s ih =>
    rw [splitOnce]
    by_cases hc : c = ','
    · rw [if_pos hc, Option.some_inj, Prod.mk.injEq]
      constructor
      · rintro ⟨rfl, rfl⟩
        exact ⟨List.not_mem_nil, by rw [hc]; rfl⟩
      · rintro ⟨hfield, heq⟩
        cases field with
        | nil =>
          cases heq
          exact ⟨rfl, rfl⟩
        | cons d field =>
          cases heq
          exact absurd (hc ▸ List.mem_cons_self) hfield
    · rw [if_neg hc, Option.map_eq_some_iff]
      constructor
      · rintro ⟨⟨field, rest⟩, hsplit, heq⟩
        cases heq
        obtain ⟨hfield, rfl⟩ := ih.mp hsplit
        exact ⟨List.not_mem_cons_of_ne_of_not_mem (Ne.symm hc) hfield, rfl⟩
      · rintro ⟨hfield, heq⟩
        cases field with
        | nil =>
          cases heq
          exact absurd rfl hc
        | cons d field =>
          cases heq
          exact ⟨(field, rest), ih.mpr ⟨fun h => hfield (List.mem_cons_of_mem _ h), rfl⟩, rfl⟩

theorem skipAccounts_eq_some {n : Nat} {s rest : List Char} :
    skipAccounts n s = some rest ↔ ∃ accounts : List (List Char),
      accounts.length = n ∧ (∀ a ∈ accounts, ',' ∉ a) ∧ s = terminated accounts ++ rest := by
  induction n generalizing s with
  | zero =>
    rw [skipAccounts, Option.some_inj]
    constructor
    · rintro rfl
      exact ⟨[], rfl, nofun, rfl⟩
    · rintro ⟨accounts, hlen, -, rfl⟩
      rw [List.length_eq_zero_iff.mp hlen]
      rfl
  | succ n ih =>
    simp only [skipAccounts, Option.bind_eq_bind, Option.bind_eq_some_iff, ih]
    constructor
    · rintro ⟨⟨account, mid⟩, hsplit, accounts, rfl, haccounts, hmid⟩
      obtain ⟨haccount, rfl⟩ := splitOnce_eq_some.mp hsplit
      obtain rfl : mid = terminated accounts ++ rest := hmid
      refine ⟨account :: accounts, rfl, List.forall_mem_cons.mpr ⟨haccount, haccounts⟩, ?_⟩
      simp [terminated]
    · rintro ⟨accounts, hlen, haccounts, rfl⟩
      obtain ⟨account, accounts, rfl⟩ := List.exists_cons_of_length_eq_add_one hlen
      obtain ⟨haccount, haccounts⟩ := List.forall_mem_cons.mp haccounts
      refine ⟨(account, terminated accounts ++ rest), splitOnce_eq_some.mpr ⟨haccount, ?_⟩, accounts,
        Nat.succ.inj hlen, haccounts, rfl⟩
      simp [terminated]

theorem decimal_digits {digits : List Char} {m n : Nat}
    (h : digits.foldlM (fun n c => (digitValue c).map (10 * n + ·)) m = some n) : ',' ∉ digits := by
  induction digits generalizing m with
  | nil => exact List.not_mem_nil
  | cons c digits ih =>
    rw [List.foldlM_cons, Option.bind_eq_bind, Option.bind_eq_some_iff] at h
    obtain ⟨k, hk, hrest⟩ := h
    have hc : ',' ≠ c := by
      rintro rfl
      cases hk
    exact List.not_mem_cons_of_ne_of_not_mem hc (ih hrest)

/-- What is accepted as a number has no commas. -/
theorem usizeFromStr_no_comma {count : List Char} {n : Nat} (h : usizeFromStr count = some n) : ',' ∉ count := by
  simp only [usizeFromStr, Option.bind_eq_bind, Option.bind_eq_some_iff] at h
  obtain ⟨-, -, k, hk, -⟩ := h
  have hdigits := decimal_digits hk
  split at hdigits
  · exact List.not_mem_cons_of_ne_of_not_mem (by decide) hdigits
  · exact hdigits

theorem memoParts_eq_some {m intent memo : List Char} :
    memoParts m = some (intent, memo) ↔ ∃ (count : List Char) (accounts : List (List Char)),
      usizeFromStr count = some accounts.length ∧ (∀ a ∈ accounts, ',' ∉ a) ∧ ',' ∉ intent ∧
        m = terminated (count :: accounts ++ [intent]) ++ memo := by
  have hjoin : ∀ (count : List Char) (accounts : List (List Char)),
      terminated (count :: accounts ++ [intent]) ++ memo =
        count ++ ',' :: (terminated accounts ++ (intent ++ ',' :: memo)) := by
    intro count accounts
    simp [terminated]
  simp only [memoParts, Option.bind_eq_bind, Option.bind_eq_some_iff]
  constructor
  · rintro ⟨⟨count, rest⟩, hcount, n, hn, current, hskip, hsplit⟩
    obtain ⟨-, rfl⟩ := splitOnce_eq_some.mp hcount
    obtain ⟨accounts, rfl, haccounts, rfl⟩ := skipAccounts_eq_some.mp hskip
    obtain ⟨hintent, rfl⟩ := splitOnce_eq_some.mp hsplit
    exact ⟨count, accounts, hn, haccounts, hintent, (hjoin count accounts).symm⟩
  · rintro ⟨count, accounts, hn, haccounts, hintent, rfl⟩
    rw [hjoin]
    refine ⟨(count, _), splitOnce_eq_some.mpr ⟨usizeFromStr_no_comma hn, rfl⟩, _, hn, _,
      skipAccounts_eq_some.mpr ⟨accounts, rfl, haccounts, rfl⟩, splitOnce_eq_some.mpr ⟨hintent, rfl⟩⟩

example : memoParts ['1', ',', 'a', ',', ',', 'm', ','] = some ([], ['m', ',']) := by decide

/-- How many fields the loop looks for before it stops. -/
def fieldsTried : Nat → List Char → Nat
  | 0, _ => 0
  | n + 1, current =>
    match splitOnce current with
    | none => 1
    | some (_, rest) => fieldsTried n rest + 1

/-- However many accounts are announced, the loop ends with the text. -/
theorem fieldsTried_le (n : Nat) (s : List Char) : fieldsTried n s ≤ s.count ',' + 1 := by
  induction n generalizing s with
  | zero => exact Nat.zero_le _
  | succ n ih =>
    rw [fieldsTried]
    split
    · exact Nat.le_add_left _ _
    · rename_i field rest hsplit
      obtain ⟨-, rfl⟩ := splitOnce_eq_some.mp hsplit
      have hrest := ih rest
      rw [List.count_append, List.count_cons_self]
      omega

variable (B : Type) {D : Type}

theorem parseBridgeMemo_eq_some [Serde B D] {s intent memo : String} :
    parseBridgeMemo B D s = some (intent, memo) ↔ ∃ json text, Serde.parseJson B D s = some json ∧
      json.get "memo" = some (.string text) ∧ memoParts text.toList = some (intent.toList, memo.toList) := by
  have hstr : ∀ {json text}, Json.asStr json = some text ↔ json = .string text := by
    intro json text
    cases json <;> simp [Json.asStr]
  simp only [parseBridgeMemo, Option.bind_eq_bind, Option.bind_eq_some_iff, hstr]
  constructor
  · rintro ⟨json, hjson, text, ⟨_, hget, rfl⟩, ⟨intent', memo'⟩, hparts, heq⟩
    cases heq
    refine ⟨json, text, hjson, hget, ?_⟩
    rw [String.toList_ofList, String.toList_ofList]
    exact hparts
  · rintro ⟨json, text, hjson, hget, hparts⟩
    refine ⟨json, hjson, text, ⟨_, hget, rfl⟩, _, hparts, ?_⟩
    rw [String.ofList_toList, String.ofList_toList]
    rfl

/-- Exactly those memos are parsed which are JSON with a field of the given form, within as many steps as the field
has commas. -/
theorem bridge_memo_grammar [Serde B D] (s : String) :
    (∀ intent memo, parseBridgeMemo B D s = some (intent, memo) ↔
      ∃ json text count accounts, Serde.parseJson B D s = some json ∧ json.get "memo" = some (.string text) ∧
        text = ",".intercalate (count :: accounts ++ [intent, memo]) ∧
        usizeFromStr count.toList = some accounts.length ∧ (∀ a ∈ accounts, ',' ∉ a.toList) ∧ ',' ∉ intent.toList) ∧
    ∀ n text, fieldsTried n text ≤ text.count ',' + 1 := by
  refine ⟨fun intent memo => ?_, fieldsTried_le⟩
  have hjoin : ∀ (count : String) (accounts : List String),
      (",".intercalate (count :: accounts ++ [intent, memo])).toList =
        terminated (count.toList :: accounts.map String.toList ++ [intent.toList]) ++ memo.toList := by
    intro count accounts
    rw [String.toList_intercalate, ← intercalate_concat]
    simp
  rw [parseBridgeMemo_eq_some]
  constructor
  · rintro ⟨json, text, hjson, hget, hparts⟩
    obtain ⟨count, accounts, hn, haccounts, hintent, htext⟩ := memoParts_eq_some.mp hparts
    have hmap : (accounts.map String.ofList).map String.toList = accounts := by
      simp [List.map_map, Function.comp_def]
    refine ⟨json, text, String.ofList count, accounts.map String.ofList, hjson, hget, ?_, ?_, ?_, hintent⟩
    · rw [← String.toList_inj, hjoin, hmap, String.toList_ofList, htext]
    · rw [String.toList_ofList, List.length_map, hn]
    · intro a ha
      obtain ⟨chars, hchars, rfl⟩ := List.mem_map.mp ha
      rw [String.toList_ofList]
      exact haccounts chars hchars
  · rintro ⟨json, _, count, accounts, hjson, hget, rfl, hn, haccounts, hintent⟩
    refine ⟨json, _, hjson, hget, memoParts_eq_some.mpr ⟨count.toList, accounts.map String.toList, ?_, ?_, hintent,
      hjoin count accounts⟩⟩
    · rw [List.length_map, hn]
    · intro a ha
      obtain ⟨account, haccount, rfl⟩ := List.mem_map.mp ha
      exact haccounts account haccount

end SolanaIbc
