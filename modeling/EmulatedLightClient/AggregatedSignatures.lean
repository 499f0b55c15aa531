import EmulatedLightClient.SignatureVerifier
import EmulatedLightClient.TrieRefinement
import Mathlib.Data.List.Induction

/-!
# Aggregated signatures

What the account of the signature verifier holds after any sequence of updates, and
which signatures are found in it.
-/

namespace SignatureVerifier

open AsciiText Buffers ByteBits FailingState MachineInts Nodes SortedSearch

def storedCount (data : List Byte) : Nat := ofLeBytes (data.take 4)

/-- The first `storedCount` records. -/
def storedEntries (data : List Byte) : List (List Byte) := records data 4 32 (storedCount data)

def SortedEntries (entries : List (List Byte)) : Prop := entries.Pairwise fun a b => lexKey a ≤ lexKey b

theorem readCount_ok {data : List Byte} {n : Nat} (h : readCount data = .ok n) :
    4 ≤ data.length ∧ n = storedCount data := by
  unfold readCount at h
  split at h
  · rename_i hlength
    exact ⟨hlength, (Except.ok.inj h).symm⟩
  · cases h

theorem records_drop (data : List Byte) (count : Nat) : records (data.drop 4) 0 32 count = records data 4 32 count := by
  refine List.map_congr_left fun i _ => ?_
  rw [slice, slice, List.drop_drop, Nat.zero_add]

theorem getEntries_eq_some {data : List Byte} {count : Nat} {entries : List (List Byte)} (hlength : 4 ≤ data.length) :
    getEntries data count = some entries ↔ 4 + 32 * count ≤ data.length ∧ entries = records data 4 32 count := by
  have hcount : count ≤ (data.length - 4) / 32 ↔ 4 + 32 * count ≤ data.length := by omega
  simp only [getEntries, asChunks, length_records, List.length_drop, hcount, take_records, records_drop]
  by_cases hfits : 4 + 32 * count ≤ data.length
  · rw [if_pos hfits, min_eq_left (hcount.mpr hfits), Option.some.injEq]
    exact ⟨fun h => ⟨hfits, h.symm⟩, fun h => h.2.symm⟩
  · rw [if_neg hfits]
    constructor
    · intro h
      cases h
    · intro h
      exact absurd h.1 hfits

theorem sortEntries_perm (entries : List (List Byte)) : (sortEntries entries).Perm entries :=
  List.perm_insertionSort ..

theorem sortEntries_sorted (entries : List (List Byte)) : SortedEntries (sortEntries entries) := by
  have htotal : Std.Total fun a b : List Byte => lexKey a ≤ lexKey b := ⟨fun a b => le_total (lexKey a) (lexKey b)⟩
  have htrans : IsTrans (List Byte) fun a b => lexKey a ≤ lexKey b := ⟨fun _ _ _ hab hbc => hab.trans hbc⟩
  exact List.pairwise_insertionSort _ entries

/-- The counter is set and the records before it are sorted. -/
theorem writeCountAndSort_ok {data data' : List Byte} {count : Nat} (hcount : count < 2 ^ 32)
    (h : writeCountAndSort data count = .ok data') :
    4 + 32 * count ≤ data'.length ∧ storedCount data' = count ∧
      storedEntries data' = sortEntries (records data 4 32 count) := by
  unfold writeCountAndSort at h
  split at h
  · cases h
  · rename_i hlength
    simp only [bind_eq_ok, orError_ok] at h
    obtain ⟨entries, hentries, h⟩ := h
    cases h
    obtain ⟨hfits, rfl⟩ := (getEntries_eq_some (not_lt.mp hlength)).mp hentries
    have hsizes : ∀ r ∈ sortEntries (records data 4 32 count), r.length = 32 :=
      fun r hr => length_of_mem_records hfits r ((sortEntries_perm _).mem_iff.mp hr)
    have hnumber : (sortEntries (records data 4 32 count)).length = count :=
      (sortEntries_perm _).length_eq.trans length_records
    have hflat : (sortEntries (records data 4 32 count)).flatten.length = 32 * count := by
      rw [length_flatten hsizes, hnumber]
    have hhead : (splice data 0 (leBytes 4 count)).length = data.length :=
      length_splice (by rw [length_leBytes]; omega)
    have hstored : storedCount (splice (splice data 0 (leBytes 4 count)) 4
        (sortEntries (records data 4 32 count)).flatten) = count := by
      have hslice : ∀ l : List Byte, l.take 4 = slice l 0 4 := fun l => by rw [slice, List.drop_zero]
      rw [storedCount, hslice, slice_splice_of_disjoint (by omega) (Or.inl (by omega)),
        slice_splice_self (by rw [length_leBytes]; omega) (length_leBytes ..), ofLeBytes_leBytes (by omega)]
    refine ⟨?_, hstored, ?_⟩
    · rw [length_splice (by omega), hhead]
      exact hfits
    · rw [storedEntries, hstored, records_splice_self hsizes hnumber (by omega)]

/-- In sorted entries the search finds exactly what is there. -/
theorem findSighash_eq_ok_true {data : List Byte} {signature : CryptoHash}
    (hfits : data = [] ∨ 4 + 32 * storedCount data ≤ data.length) (hsorted : SortedEntries (storedEntries data)) :
    findSighash data signature = .ok true ↔ signature.bytes ∈ storedEntries data := by
  obtain rfl | hfits := hfits
  · constructor
    · intro h
      cases h
    · intro h
      cases h
  · have hlength : 4 ≤ data.length := by omega
    have hentries : getEntries data (ofLeBytes (data.take 4)) = some (storedEntries data) :=
      (getEntries_eq_some hlength).mpr ⟨hfits, rfl⟩
    have hpairwise : ((storedEntries data).map lexKey).Pairwise (· ≤ ·) := List.pairwise_map.mpr hsorted
    have hfind : findSighash data signature =
        .ok (binarySearch ((storedEntries data).map lexKey) (lexKey signature.bytes)).isOk := by
      rw [findSighash, if_neg (by omega), hentries]
      rfl
    rw [hfind, Except.ok.injEq, binarySearch_isOk hpairwise, List.mem_map_of_injective lexKey_injective]

/-- Entries of an instruction of the native program which need no other instruction. -/
def Instruction.selfContained (ix : Instruction) : List Entry :=
  if ix.programId ≠ ed25519Program then [] else ((parseData ix.data).getD []).filterMap Except.toOption

section

variable {host : Host} {digest : List Byte → CryptoHash} {acc acc' : Account}

theorem initialiseSignaturesAccount_ok (h : initialiseSignaturesAccount host acc = .ok acc') :
    acc' = acc ∨ acc.data = [] ∧ acc'.data = List.replicate maxPermittedDataIncrease 0#8 := by
  unfold initialiseSignaturesAccount at h
  split at h
  · exact Or.inl (Except.ok.inj h).symm
  · simp only at h
    split at h
    · rename_i hnew
      cases h
      exact Or.inr ⟨hnew.1, rfl⟩
    · cases h

theorem enlargeSignaturesAccount_ok (h : enlargeSignaturesAccount host acc = .ok acc') :
    ∃ bytes, acc'.data = acc.data ++ bytes := by
  simp only [enlargeSignaturesAccount] at h
  split at h
  · cases h
    exact ⟨[], (List.append_nil _).symm⟩
  · split at h
    · cases h
    · simp only [bind_eq_ok, orError_ok] at h
      obtain ⟨bytes, -, h⟩ := h
      cases h
      exact ⟨bytes, rfl⟩

theorem enlargeIfShort_ok {size : Nat} (h : enlargeIfShort host acc size = .ok acc') :
    ∃ bytes, acc'.data = acc.data ++ bytes := by
  unfold enlargeIfShort at h
  split at h
  · exact enlargeSignaturesAccount_ok h
  · cases h
    exact ⟨[], (List.append_nil _).symm⟩

/-- One more record after those there were. -/
theorem writeSignature_ok {index : Nat} {signature : CryptoHash} (hfits : 4 + 32 * index ≤ acc.data.length)
    (h : writeSignature host acc index signature = .ok acc') :
    4 + 32 * (index + 1) ≤ acc'.data.length ∧
      records acc'.data 4 32 (index + 1) = records acc.data 4 32 index ++ [signature.bytes] := by
  simp only [writeSignature, bind_eq_ok] at h
  obtain ⟨acc₁, henlarge, h⟩ := h
  obtain ⟨bytes, hbytes⟩ := enlargeIfShort_ok henlarge
  split at h
  · rename_i hend
    cases h
    have hwrite : 4 + 32 * index + signature.bytes.length ≤ acc₁.data.length := by
      rw [signature.size]
      exact hend
    constructor
    · simp only [length_splice hwrite]
      omega
    · rw [records_succ, slice_splice_self hwrite signature.size, records_splice_of_disjoint hwrite (Or.inl le_rfl),
        hbytes, records_append_left hfits]
  · cases h

/-- The records after some entries have been added. -/
theorem foldlM_addEntry_ok {items : List (Except EntryError Entry)} {count count' : Nat}
    (hfits : 4 + 32 * count ≤ acc.data.length) (hcount : count < 2 ^ 32)
    (h : items.foldlM (addEntry host digest) (acc, count) = .ok (acc', count')) :
    4 + 32 * count' ≤ acc'.data.length ∧ count' < 2 ^ 32 ∧
      records acc'.data 4 32 count' = records acc.data 4 32 count ++
        (items.filterMap Except.toOption).map fun e => (e.sighash digest).bytes := by
  induction items generalizing acc count with
  | nil =>
    cases h
    exact ⟨hfits, hcount, (List.append_nil _).symm⟩
  | cons item items ih =>
    rw [List.foldlM_cons, bind_eq_ok] at h
    obtain ⟨⟨acc₁, count₁⟩, hitem, h⟩ := h
    cases item with
    | error err =>
      cases err with
      | unsupportedFeature =>
        cases hitem
        exact ih hfits hcount h
      | badData => cases hitem
    | ok entry =>
      simp only [addEntry, bind_eq_ok, orError_ok] at hitem
      obtain ⟨acc₂, hwrite, count₂, hadd, hitem⟩ := hitem
      cases hitem
      obtain ⟨hlt, rfl⟩ := checkedAdd_eq_some.mp hadd
      obtain ⟨hfits₁, hrecords⟩ := writeSignature_ok hfits hwrite
      obtain ⟨hfits', hcount', hall⟩ := ih hfits₁ hlt h
      refine ⟨hfits', hcount', ?_⟩
      rw [hall, hrecords, List.append_assoc]
      rfl

theorem processEd25519Instruction_ok {ix : Instruction} {count count' : Nat}
    (hfits : 4 + 32 * count ≤ acc.data.length) (hcount : count < 2 ^ 32)
    (h : processEd25519Instruction host digest (acc, count) ix = .ok (acc', count')) :
    4 + 32 * count' ≤ acc'.data.length ∧ count' < 2 ^ 32 ∧
      records acc'.data 4 32 count' = records acc.data 4 32 count ++
        ix.selfContained.map fun e => (e.sighash digest).bytes := by
  unfold processEd25519Instruction at h
  unfold Instruction.selfContained
  split at h
  · rename_i hother
    cases h
    rw [if_pos hother]
    exact ⟨hfits, hcount, (List.append_nil _).symm⟩
  · rename_i hnative
    simp only [bind_eq_ok, orError_ok] at h
    obtain ⟨items, hitems, h⟩ := h
    rw [if_neg hnative, hitems]
    exact foldlM_addEntry_ok hfits hcount h

variable (digest) in
/-- What an update of an account does. -/
structure Updated (acc acc' : Account) (truncate : Nat) (ix : Instruction) : Prop where
  fits : 4 + 32 * storedCount acc'.data ≤ acc'.data.length
  sorted : SortedEntries (storedEntries acc'.data)
  perm : (storedEntries acc'.data).Perm
    ((storedEntries acc.data).take truncate ++ ix.selfContained.map fun e => (e.sighash digest).bytes)

/-- An account which can be read: the records counted are there. -/
def Readable (acc : Account) : Prop := acc.data = [] ∨ 4 + 32 * storedCount acc.data ≤ acc.data.length

theorem handleUpdate_ok {instruction : List Byte} {prevIx : Except ProgramError Instruction} (hacc : Readable acc)
    (h : handleUpdate host digest acc instruction prevIx = .ok acc') :
    ∃ truncate ix, readTruncate instruction = .ok truncate ∧ prevIx = .ok ix ∧ Updated digest acc acc' truncate ix := by
  simp only [handleUpdate, bind_eq_ok] at h
  obtain ⟨truncate, htruncate, acc₁, hinit, n, hn, ix, hix, ⟨acc₂, count⟩, hprocess, data, hdata, h⟩ := h
  cases h
  refine ⟨truncate, ix, htruncate, hix, ?_⟩
  obtain ⟨hlength, rfl⟩ := readCount_ok hn
  have hsame : storedEntries acc₁.data = storedEntries acc.data ∧ 4 + 32 * storedCount acc₁.data ≤ acc₁.data.length := by
    obtain rfl | ⟨hempty, hzero⟩ := initialiseSignaturesAccount_ok hinit
    · obtain hnil | hfits := hacc
      · rw [hnil] at hlength
        cases hlength
      · exact ⟨rfl, hfits⟩
    · rw [hempty, hzero]
      exact ⟨by decide +kernel, by decide +kernel⟩
  have hlt : storedCount acc₁.data < 256 ^ 4 := ofLeBytes_lt (List.length_take_le 4 acc₁.data)
  obtain ⟨hfits, hcount, hrecords⟩ := processEd25519Instruction_ok (by omega) (by omega) hprocess
  obtain ⟨hfits', hcount', hentries⟩ := writeCountAndSort_ok hcount hdata
  refine ⟨?_, ?_, ?_⟩
  · rw [hcount']
    exact hfits'
  · rw [hentries]
    exact sortEntries_sorted _
  · rw [hentries, ← hsame.1, storedEntries, take_records, Nat.min_comm]
    exact (sortEntries_perm _).trans (hrecords ▸ List.Perm.refl _)

end

structure Update where
  host : Host
  instruction : List Byte
  prevIx : Except ProgramError Instruction

/-- The account and, beside it, the signatures recorded and not truncated away. -/
structure Aggregation where
  account : Account
  recorded : List Entry

section

variable (digest : List Byte → CryptoHash)

def Update.handle (op : Update) (acc : Account) : Except ProgramError Account :=
  handleUpdate op.host digest acc op.instruction op.prevIx

def Update.truncate (op : Update) : Nat := (readTruncate op.instruction).toOption.getD 0

def Update.entries (op : Update) : List Entry := (op.prevIx.toOption.map Instruction.selfContained).getD []

/-- Whether the hash of an entry is among the first `n` of the account. -/
def keeps (acc : Account) (n : Nat) (e : Entry) : Bool := decide ((e.sighash digest).bytes ∈ (storedEntries acc.data).take n)

/-- An update which fails has no effect. -/
def Aggregation.step (s : Aggregation) (op : Update) : Aggregation :=
  match op.handle digest s.account with
  | .error _ => s
  | .ok account => ⟨account, s.recorded.filter (keeps digest s.account op.truncate) ++ op.entries⟩

def aggregate (start : Account) (ops : List Update) : Aggregation :=
  ops.foldl (Aggregation.step digest) ⟨start, []⟩

/-- An account without signatures, possibly one which does not exist. -/
def Account.Empty (acc : Account) : Prop := acc.data = [] ∨ readCount acc.data = .ok 0

/-- What one update of a sequence leaves behind. -/
structure Aggregates (acc : Account) (op : Update) (acc' : Account) : Prop where
  readable : Readable acc'
  sorted : SortedEntries (storedEntries acc'.data)
  failed : (op.handle digest acc).toOption = none → acc' = acc
  done : ∀ acc₁, op.handle digest acc = .ok acc₁ → acc' = acc₁ ∧
    ∃ truncate ix, readTruncate op.instruction = .ok truncate ∧ op.prevIx = .ok ix ∧ Updated digest acc acc' truncate ix

/-- An instruction of the native program from which signatures were aggregated. -/
structure Aggregated (start : Account) (ops : List Update) (ix : Instruction) : Prop where
  native : ix.programId = ed25519Program
  read : ∃ before op after acc, ops = before ++ op :: after ∧ op.prevIx = .ok ix ∧
    op.handle digest (aggregate digest start before).account = .ok acc

/-- The invariant: entries of the account are hashes of what was recorded. -/
structure Exact (start : Account) (ops : List Update) (s : Aggregation) : Prop where
  readable : Readable s.account
  sorted : SortedEntries (storedEntries s.account.data)
  entries : ∀ h, h ∈ storedEntries s.account.data ↔ ∃ e ∈ s.recorded, (e.sighash digest).bytes = h
  recorded : ∀ e ∈ s.recorded, ∃ ix, Aggregated digest start ops ix ∧ e ∈ ix.selfContained

variable {digest}

theorem Account.Empty.exact {start : Account} (h : start.Empty) : Exact digest start [] ⟨start, []⟩ := by
  have hcount : storedCount start.data = 0 := by
    obtain hnil | hzero := h
    · rw [hnil]
      rfl
    · exact (readCount_ok hzero).2.symm
  have hentries : storedEntries start.data = [] := by
    rw [storedEntries, hcount]
    rfl
  constructor
  · obtain hnil | hzero := h
    · exact Or.inl hnil
    · refine Or.inr ?_
      rw [hcount]
      exact (readCount_ok hzero).1
  · rw [hentries]
    exact List.Pairwise.nil
  · intro h
    rw [hentries]
    simp
  · intro e he
    cases he

theorem Instruction.selfContained_native {ix : Instruction} {e : Entry} (h : e ∈ ix.selfContained) :
    ix.programId = ed25519Program := by
  unfold selfContained at h
  split at h
  · cases h
  · rename_i hnative
    exact not_not.mp hnative

theorem aggregate_concat (start : Account) (ops : List Update) (op : Update) :
    aggregate digest start (ops ++ [op]) = (aggregate digest start ops).step digest op := by
  simp [aggregate]

theorem Aggregated.concat {start : Account} {ops : List Update} {ix : Instruction} (h : Aggregated digest start ops ix)
    (op : Update) : Aggregated digest start (ops ++ [op]) ix := by
  obtain ⟨hnative, before, op', after, acc, rfl, hread⟩ := h
  exact ⟨hnative, before, op', after ++ [op], acc, by simp, hread⟩

theorem Exact.step {start : Account} {ops : List Update} (h : Exact digest start ops (aggregate digest start ops))
    (op : Update) :
    Exact digest start (ops ++ [op]) (aggregate digest start (ops ++ [op])) ∧
      Aggregates digest (aggregate digest start ops).account op (aggregate digest start (ops ++ [op])).account := by
  rw [aggregate_concat, Aggregation.step]
  cases hop : op.handle digest (aggregate digest start ops).account with
  | error err =>
    refine ⟨⟨h.readable, h.sorted, h.entries, ?_⟩, ⟨h.readable, h.sorted, fun _ => rfl, ?_⟩⟩
    · intro e he
      obtain ⟨ix, hix, hmem⟩ := h.recorded e he
      exact ⟨ix, hix.concat op, hmem⟩
    · intro acc hacc
      rw [hop] at hacc
      cases hacc
  | ok acc =>
    obtain ⟨truncate, ix, htruncate, hix, hupdated⟩ := handleUpdate_ok h.readable hop
    have htruncate' : op.truncate = truncate := by
      rw [Update.truncate, htruncate]
      rfl
    have hentries : op.entries = ix.selfContained := by
      rw [Update.entries, hix]
      rfl
    refine ⟨⟨Or.inr hupdated.fits, hupdated.sorted, ?_, ?_⟩, ⟨Or.inr hupdated.fits, hupdated.sorted, ?_, ?_⟩⟩
    · intro hash
      rw [hupdated.perm.mem_iff, List.mem_append, List.mem_map, htruncate', hentries]
      constructor
      · rintro (htake | ⟨e, he, rfl⟩)
        · obtain ⟨e, he, rfl⟩ := (h.entries hash).mp (List.mem_of_mem_take htake)
          exact ⟨e, List.mem_append_left _ (List.mem_filter.mpr ⟨he, decide_eq_true htake⟩), rfl⟩
        · exact ⟨e, List.mem_append_right _ he, rfl⟩
      · rintro ⟨e, he, rfl⟩
        rcases List.mem_append.mp he with he | he
        · exact Or.inl (of_decide_eq_true (List.mem_filter.mp he).2)
        · exact Or.inr ⟨e, he, rfl⟩
    · intro e he
      rcases List.mem_append.mp he with he | he
      · obtain ⟨ix', hix', hmem⟩ := h.recorded e (List.mem_filter.mp he).1
        exact ⟨ix', hix'.concat op, hmem⟩
      · rw [hentries] at he
        exact ⟨ix, ⟨ix.selfContained_native he, ops, op, [], acc, rfl, hix, hop⟩, he⟩
    · rw [hop]
      intro hnone
      cases hnone
    · intro acc₁ hacc₁
      rw [hop] at hacc₁
      cases hacc₁
      exact ⟨rfl, truncate, ix, htruncate, hix, hupdated⟩

variable (digest) in
theorem aggregate_exact {start : Account} (hstart : start.Empty) (ops : List Update) :
    Exact digest start ops (aggregate digest start ops) := by
  induction ops using List.reverseRecOn with
  | nil => exact hstart.exact
  | append_singleton ops op ih => exact (ih.step op).1

def Entry.preimage (e : Entry) : List Byte := sighashPreimage ed25519HashMagic e.pubkey e.signature e.message

theorem Entry.preimage_injective : Function.Injective Entry.preimage := by
  rintro ⟨⟨s, hs⟩, ⟨k, hk⟩, m⟩ ⟨⟨s', hs'⟩, ⟨k', hk'⟩, m'⟩ h
  simp only [preimage, sighashPreimage] at h
  obtain ⟨hfixed, rfl⟩ := List.append_inj h (by simp [hs, hs', hk, hk'])
  obtain ⟨hhead, rfl⟩ := List.append_inj hfixed (by simp [hk, hk'])
  obtain ⟨-, rfl⟩ := List.append_inj hhead (by simp)
  rfl

variable (digest) in
/-- The hash tells the signature looked for from those of the updates. -/
def Distinguished (e : Entry) (ops : List Update) : Prop :=
  Set.InjOn digest {p | p = e.preimage ∨ ∃ op ∈ ops, ∃ e' ∈ op.entries, p = e'.preimage}

theorem Aggregated.mem_entries {start : Account} {ops : List Update} {ix : Instruction} {e : Entry}
    (h : Aggregated digest start ops ix) (he : e ∈ ix.selfContained) : ∃ op ∈ ops, e ∈ op.entries := by
  obtain ⟨-, before, op, after, acc, rfl, hix, -⟩ := h
  refine ⟨op, by simp, ?_⟩
  rw [Update.entries, hix]
  exact he

theorem Exact.mem_recorded {start : Account} {ops : List Update} {s : Aggregation} {e : Entry}
    (h : Exact digest start ops s) (he : Distinguished digest e ops) :
    findSighash s.account.data (e.sighash digest) = .ok true ↔ e ∈ s.recorded := by
  rw [findSighash_eq_ok_true h.readable h.sorted, h.entries]
  constructor
  · rintro ⟨e', he', hash⟩
    obtain ⟨ix, hix, hmem⟩ := h.recorded e' he'
    obtain ⟨op, hop, hentry⟩ := hix.mem_entries hmem
    have hpreimage : e'.preimage = e.preimage :=
      he (Or.inr ⟨op, hop, e', hentry, rfl⟩) (Or.inl rfl) (CryptoHash.eq_of_bytes hash)
    exact Entry.preimage_injective hpreimage ▸ he'
  · intro hmem
    exact ⟨e, hmem, rfl⟩

/-- A verifier set up with instructions of its transaction and the account. -/
inductive Verifier.SetUp (ixs : List Instruction) (data : List Byte) : Verifier → Prop
  | default : SetUp ixs data .default
  | ixSysvar {v v' : Verifier} {ix : Instruction} (hv : SetUp ixs data v) (hix : ix ∈ ixs)
      (hset : v.setIxSysvar (.ok ix) = .ok v') : SetUp ixs data v'
  | sigverifyAccount {v v' : Verifier} {owner expectedOwner : BitVec 256} (hv : SetUp ixs data v)
      (hset : v.setSigverifyAccount owner data expectedOwner = .ok v') : SetUp ixs data v'

theorem Verifier.SetUp.sources {ixs : List Instruction} {data : List Byte} {v : Verifier} (h : v.SetUp ixs data) :
    (∀ d ∈ v.ed25519Data, ∃ ix ∈ ixs, ix.programId = ed25519Program ∧ ix.data = d) ∧
      ∀ d ∈ v.sigverifyData, d = data := by
  induction h with
  | default =>
    constructor
    · intro d hd
      cases hd
    · intro d hd
      cases hd
  | @ixSysvar v v' ix _ hix hset ih =>
    simp only [setIxSysvar, bind_eq_ok] at hset
    obtain ⟨ix', hix', hset⟩ := hset
    cases hix'
    split at hset
    · rename_i hnative
      cases hset
      refine ⟨?_, ih.2⟩
      rintro d ⟨⟩
      exact ⟨ix, hix, hnative, rfl⟩
    · cases hset
  | sigverifyAccount _ hset ih =>
    unfold setSigverifyAccount at hset
    split at hset
    · cases hset
      refine ⟨ih.1, ?_⟩
      rintro d ⟨⟩
      rfl
    · cases hset

theorem Verifier.checkItems_mem {items : List (Except EntryError Entry)} {e : Entry}
    (h : checkItems e items = .ok true) : e ∈ items.filterMap Except.toOption := by
  induction items with
  | nil => cases h
  | cons item items ih =>
    cases item with
    | error err =>
      cases err with
      | unsupportedFeature => exact ih h
      | badData => cases h
    | ok item =>
      simp only [checkItems] at h
      split at h
      · rename_i heq
        subst heq
        exact List.mem_cons_self
      · exact List.mem_cons_of_mem _ (ih h)

theorem Verifier.checkEd25519Data_mem {ix : Instruction} {e : Entry} (hix : ix.programId = ed25519Program)
    (h : checkEd25519Data ix.data e = .ok true) : e ∈ ix.selfContained := by
  unfold checkEd25519Data at h
  split at h
  · cases h
  · rename_i items hitems
    rw [Instruction.selfContained, if_neg (not_not.mpr hix), hitems]
    exact checkItems_mem h

theorem Verifier.verify_sources {v : Verifier} {e : Entry}
    (h : v.verify digest e.message e.pubkey e.signature = .ok true) :
    (∃ d ∈ v.ed25519Data, checkEd25519Data d e = .ok true) ∨
      ∃ d ∈ v.sigverifyData, checkSigverifyData digest d e = .ok true := by
  simp only [verify, bind_eq_ok] at h
  obtain ⟨b, hb, h⟩ := h
  cases b with
  | true =>
    cases hdata : v.ed25519Data with
    | none =>
      rw [hdata] at hb
      cases hb
    | some d =>
      rw [hdata] at hb
      exact Or.inl ⟨d, rfl, hb⟩
  | false =>
    simp only [Bool.false_eq_true, if_false, bind_eq_ok] at h
    obtain ⟨b, hb, h⟩ := h
    cases b with
    | false => cases h
    | true =>
      cases hdata : v.sigverifyData with
      | none =>
        rw [hdata] at hb
        cases hb
      | some d =>
        rw [hdata] at hb
        exact Or.inr ⟨d, rfl, hb⟩

variable (digest) in
/-- After each update the account holds the hashes of what was kept and of what the
native program has verified, sorted. A signature is found if and only if it was recorded
and not truncated away, and accepted only if an instruction of the native program has it. -/
theorem aggregated_signatures_exact {start : Account} (hstart : start.Empty) (ops : List Update) (e : Entry)
    (he : Distinguished digest e ops) :
    (∀ before op after, ops = before ++ op :: after →
      Aggregates digest (aggregate digest start before).account op
        (aggregate digest start (before ++ [op])).account) ∧
    (findEd25519 digest (aggregate digest start ops).account.data e.pubkey e.signature e.message = .ok true ↔
      e ∈ (aggregate digest start ops).recorded) ∧
    (e ∈ (aggregate digest start ops).recorded →
      ∃ ix, Aggregated digest start ops ix ∧ e ∈ ix.selfContained) ∧
    ∀ ixs v, Verifier.SetUp ixs (aggregate digest start ops).account.data v →
      v.verify digest e.message e.pubkey e.signature = .ok true →
      ∃ ix, (ix ∈ ixs ∧ ix.programId = ed25519Program ∨ Aggregated digest start ops ix) ∧ e ∈ ix.selfContained := by
  have hexact := aggregate_exact digest hstart ops
  refine ⟨?_, hexact.mem_recorded he, hexact.recorded e, ?_⟩
  · rintro before op after -
    exact ((aggregate_exact digest hstart before).step op).2
  · intro ixs v hv hverify
    obtain ⟨hixs, hdata⟩ := hv.sources
    obtain ⟨d, hd, hcheck⟩ | ⟨d, hd, hcheck⟩ := Verifier.verify_sources hverify
    · obtain ⟨ix, hix, hnative, rfl⟩ := hixs d hd
      exact ⟨ix, Or.inl ⟨hix, hnative⟩, Verifier.checkEd25519Data_mem hnative hcheck⟩
    · rw [hdata d hd, Verifier.checkSigverifyData, mapError_ok, hexact.mem_recorded he] at hcheck
      obtain ⟨ix, hix, hmem⟩ := hexact.recorded e hcheck
      exact ⟨ix, Or.inr hix, hmem⟩

end

namespace Sample

open SealableTrie (hashOf tableDigest)

def bytes (n : Nat) (b : Byte) : Bytes n := ⟨List.replicate n b, List.length_replicate⟩

def foo : Entry := ⟨bytes 64 12#8, bytes 32 11#8, ascii "foo"⟩

def bar : Entry := ⟨bytes 64 22#8, bytes 32 21#8, ascii "bar"⟩

/-- SHA-256 of the two signatures. -/
def digest : List Byte → CryptoHash := tableDigest
  [(foo.preimage, hashOf 0x8527c01b57b2bbcd275e5339a00f7a7e1f71693a9db315459dc1c0c65b9040ed),
    (bar.preimage, hashOf 0x9300db8c6e98119bfd14945c8683760dc5aa654053cac83f6a44223e2411ed00)]

/-- A signature, key and message of three bytes one after another. -/
def descriptor (offset : Nat) : List Byte :=
  [offset, 2 ^ 16 - 1, offset + 64, 2 ^ 16 - 1, offset + 96, 3, 2 ^ 16 - 1].flatMap (leBytes 2)

def entryBytes (e : Entry) : List Byte := e.signature.val ++ e.pubkey.val ++ e.message

def native : Instruction :=
  ⟨ed25519Program, [2#8, 0#8] ++ descriptor 30 ++ descriptor 129 ++ entryBytes bar ++ entryBytes foo⟩

theorem length_fresh (a b : Nat) (fresh : List Byte) (h : some (List.replicate (b - a) 0#8) = some fresh) :
    fresh.length = b - a := by
  cases h
  exact List.length_replicate

def host : Host := ⟨id, fun _ => true, fun a b => some (List.replicate (b - a) 0#8), length_fresh⟩

def start : Account := ⟨1, List.replicate 40 0#8⟩

/-- Two signatures, for which the account has to grow, of which one is then dropped. -/
def ops : List Update := [⟨host, [], .ok native⟩, ⟨host, leBytes 4 1, .ok ⟨0#256, []⟩⟩]

theorem start_empty : start.Empty := Or.inr (by decide)

theorem ops_entries : ∀ op ∈ ops, ∀ e ∈ op.entries, e = foo ∨ e = bar := by decide +kernel

theorem digest_ne : digest foo.preimage ≠ digest bar.preimage := by decide

theorem foo_distinguished : Distinguished digest foo ops := by
  have hknown : ∀ p, (p = foo.preimage ∨ ∃ op ∈ ops, ∃ e ∈ op.entries, p = e.preimage) →
      p = foo.preimage ∨ p = bar.preimage := by
    rintro p (rfl | ⟨op, hop, e, he, rfl⟩)
    · exact Or.inl rfl
    · rcases ops_entries op hop e he with rfl | rfl
      · exact Or.inl rfl
      · exact Or.inr rfl
  intro p hp q hq heq
  rcases hknown p hp with rfl | rfl <;> rcases hknown q hq with rfl | rfl
  · rfl
  · exact absurd heq digest_ne
  · exact absurd heq.symm digest_ne
  · rfl

end Sample

open Sample in
/-- Of two signatures the one with the lower hash is kept. -/
theorem aggregated_signatures_sample :
    findEd25519 digest (aggregate digest start ops).account.data foo.pubkey foo.signature foo.message = .ok true ∧
    findEd25519 digest (aggregate digest start ops).account.data bar.pubkey bar.signature bar.message = .ok false ∧
    ∃ ix, Aggregated digest start ops ix ∧ foo ∈ ix.selfContained := by
  obtain ⟨-, hfind, hrecorded, -⟩ := aggregated_signatures_exact digest start_empty ops foo foo_distinguished
  have hfoo : foo ∈ (aggregate digest start ops).recorded := by decide +kernel
  exact ⟨hfind.mpr hfoo, by decide +kernel, hrecorded hfoo⟩

end SignatureVerifier
