import EmulatedLightClient.ChunkedWrites
import Mathlib.Algebra.Order.BigOperators.Group.List

/-!
# What is left in the account

After all of the chunks the account starts with the data. That takes an account the program may write to, and a
seed which is short enough for the program.
-/

namespace WriteAccount

open Buffers ByteBits FailingState MachineInts Readers

variable {host : Host} {it : WriteIter} {payer write after : Account} {ix : Instruction}

/-- The instruction writes a range of the data. -/
def IsChunk (it : WriteIter) (ix : Instruction) (start stop : Nat) : Prop :=
  start < stop ∧ stop ≤ it.data.length ∧ ix = it.chunk start stop

/-- What the iterator needs of the host and of the account for its instructions to be accepted. -/
structure Accepted (host : Host) (it : WriteIter) : Prop where
  permitted : ∀ a b, host.permitted a b = true
  seed : it.seed.length < maxSeedLen
  derived : Derived host it
  data : it.data.length < 2 ^ 32

/-- However the instruction is told apart from others, it writes its range. -/
theorem execute_spec (h : Accepted host it) (hready : write = absent ∨ Usable it.writeProgram it.data write)
    (hpays : Pays host it.data payer write) (hix : ∃ start stop, IsChunk it ix start stop) :
    ∃ after, execute host ix payer write = .ok after ∧ Usable it.writeProgram it.data after ∧
      ∀ start stop, IsChunk it ix start stop → Written it.data start stop write after := by
  have hwrite : ∀ start stop, IsChunk it ix start stop → ∃ after, execute host ix payer write = .ok after ∧
      Usable it.writeProgram it.data after ∧ Written it.data start stop write after := by
    rintro start stop ⟨hstart, hstop, rfl⟩
    rw [execute_chunk h.seed h.derived h.data hstart hstop]
    exact writeChunk_spec h.permitted hready hpays hstart hstop
  obtain ⟨start, stop, hchunk⟩ := hix
  obtain ⟨after, hafter, husable, -⟩ := hwrite start stop hchunk
  refine ⟨after, hafter, husable, fun start' stop' hchunk' => ?_⟩
  obtain ⟨after', hafter', -, hwritten⟩ := hwrite start' stop' hchunk'
  cases hafter.symm.trans hafter'
  exact hwritten

/-- At every instruction there is enough for the rent. -/
def Funded (host : Host) (data : List Byte) : Account → List (Instruction × Account) → Prop
  | _, [] => True
  | write, x :: order =>
    Pays host data x.2 write ∧ ∀ after, execute host x.1 x.2 write = .ok after → Funded host data after order

/-- The byte is the one of the data. -/
def Right (data : List Byte) (write : Account) (i : Nat) : Prop := i < data.length ∧ write.data[i]? = data[i]?

theorem Written.right {data : List Byte} {start stop i : Nat} {before : Account}
    (h : Written data start stop before after) (hi : Right data before i) : Right data after i := by
  obtain ⟨hlt, heq⟩ := hi
  refine ⟨hlt, ?_⟩
  by_cases hin : start ≤ i ∧ i < stop
  · exact h.inside i hin.1 hin.2
  · have hbefore : i < before.data.length := by
      rw [List.getElem?_eq_getElem hlt] at heq
      exact (List.getElem?_eq_some_iff.mp heq).1
    rw [h.outside i (by omega) (.inl hbefore), heq]

/-- Every chunk of a run is written, bytes which are right stay right, and those behind the data are kept. -/
theorem run_spec (h : Accepted host it) {order : List (Instruction × Account)}
    (horder : ∀ x ∈ order, ∃ start stop, IsChunk it x.1 start stop) (hfunded : Funded host it.data write order)
    (hready : write = absent ∨ Usable it.writeProgram it.data write) :
    ∃ after, run host write order = .ok after ∧
      (∀ i, it.data.length ≤ i → after.data[i]? = write.data[i]?) ∧
      (∀ i, Right it.data write i → Right it.data after i) ∧
      ∀ x ∈ order, ∀ start stop, IsChunk it x.1 start stop → ∀ i, start ≤ i → i < stop → Right it.data after i := by
  induction order generalizing write with
  | nil => exact ⟨write, rfl, fun _ _ => rfl, fun _ hi => hi, nofun⟩
  | cons x order ih =>
    obtain ⟨hix, hrest⟩ := List.forall_mem_cons.mp horder
    obtain ⟨mid, hmid, husable, hwritten⟩ := execute_spec h hready hfunded.1 hix
    obtain ⟨after, hafter, hbehind, hright, hchunks⟩ := ih hrest (hfunded.2 mid hmid) (.inr husable)
    obtain ⟨start, stop, hchunk⟩ := hix
    refine ⟨after, ?_, fun i hi => ?_, fun i hi => hright i ((hwritten start stop hchunk).right hi), ?_⟩
    · rw [run, List.foldlM_cons, hmid]
      exact hafter
    · have hstop := hchunk.2.1
      rw [hbehind i hi, (hwritten start stop hchunk).outside i (by omega) (by omega)]
    · refine List.forall_mem_cons.mpr ⟨fun start' stop' hchunk' i hge hlt => hright i ?_, hchunks⟩
      have hstop' := hchunk'.2.1
      exact ⟨by omega, (hwritten start' stop' hchunk').inside i hge hlt⟩

/-- Instructions in any order, as long as none is missing. -/
theorem run_complete (h : Accepted host it) (hready : write = absent ∨ Usable it.writeProgram it.data write)
    (hposition : it.position = 0) {ixs : List Instruction} (hixs : it.instructions = .ok ixs)
    {order : List (Instruction × Account)} (horder : ∀ x ∈ order, x.1 ∈ ixs) (hfunded : Funded host it.data write order)
    (hall : ∀ ix ∈ ixs, ix ∈ order.map Prod.fst) :
    ∃ after, run host write order = .ok after ∧ after.data = it.data ++ write.data.drop it.data.length := by
  obtain ⟨ixs', hixs', hranges, hcover⟩ := it.instructions_spec h.data
  cases hixs.symm.trans hixs'
  obtain ⟨after, hafter, hbehind, -, hchunks⟩ := run_spec h
    (fun x hx => hranges x.1 (horder x hx)) hfunded hready
  refine ⟨after, hafter, List.ext_getElem? fun i => ?_⟩
  rcases Nat.lt_or_ge i it.data.length with hlt | hge
  · obtain ⟨start, stop, hstart, hstop, hle, hmem⟩ := hcover i (by omega) hlt
    obtain ⟨x, hx, heq⟩ := List.mem_map.mp (hall _ hmem)
    have hright := hchunks x hx start stop ⟨by omega, hle, heq⟩ i hstart hstop
    rw [List.getElem?_append_left hlt, hright.2]
  · rw [List.getElem?_append_right hge, List.getElem?_drop, Nat.add_sub_cancel' hge, hbehind i hge]

def Foreign (program : Pubkey) (write : Account) : Prop := write.lamports ≠ 0 ∧ write.owner ≠ program

theorem setData_foreign {program : Pubkey} {data : List Byte} (howner : write.owner ≠ program)
    (h : setData program write data = .ok after) : after = write := by
  unfold setData at h
  split at h
  · rename_i hsame
    cases h
    rw [hsame.resolve_left howner]
  · cases h

theorem realloc_foreign {program : Pubkey} {size : Nat} (howner : write.owner ≠ program)
    (h : realloc host program write size = .ok after) : after = write := by
  unfold realloc at h
  split at h
  · exact setData_foreign howner h
  · cases h

theorem setup_foreign {program : Pubkey} {size : Nat} {contents : Account × Account} (hforeign : Foreign program write)
    (h : setupWriteAccount host program payer write size = .ok contents) :
    contents.2.data = write.data ∧ Foreign program contents.2 := by
  obtain ⟨hlamports, howner⟩ := hforeign
  rw [setupWriteAccount, if_neg hlamports] at h
  split at h
  · simp only at h
    split at h
    · obtain ⟨⟨payer', paid⟩, hpaid, hrealloc⟩ := bind_eq_ok.mp h
      obtain ⟨grown, hgrown, heq⟩ := bind_eq_ok.mp hrealloc
      cases heq
      unfold transfer at hpaid
      split at hpaid
      · cases hpaid
      · cases hpaid
        have hsame : grown = { write with lamports := write.lamports + (host.minimumBalance size - write.lamports) } :=
          realloc_foreign howner hgrown
        rw [hsame]
        exact ⟨rfl, Nat.ne_of_gt (Nat.add_pos_left (Nat.pos_of_ne_zero hlamports) _), howner⟩
    · obtain ⟨_, hsame, hrealloc⟩ := bind_eq_ok.mp h
      cases hsame
      obtain ⟨grown, hgrown, heq⟩ := bind_eq_ok.mp hrealloc
      cases heq
      rw [realloc_foreign howner hgrown]
      exact ⟨rfl, hlamports, howner⟩
  · cases h
    exact ⟨rfl, hlamports, howner⟩

/-- Nothing is written to accounts of others. -/
theorem writeChunk_foreign {program : Pubkey} {start : Nat} {chunk : List Byte} (hforeign : Foreign program write)
    (h : writeChunk host program payer write start chunk = .ok after) :
    after.data = write.data ∧ Foreign program after := by
  obtain ⟨⟨payer', mid⟩, hsetup, hrest⟩ := bind_eq_ok.mp h
  have hmid := setup_foreign hforeign hsetup
  simp only at hrest hmid
  split at hrest
  · rw [setData_foreign hmid.2.2 hrest]
    exact hmid
  · cases hrest

theorem run_foreign (h : Accepted host it) {order : List (Instruction × Account)}
    (horder : ∀ x ∈ order, ∃ start stop, IsChunk it x.1 start stop) (hforeign : Foreign it.writeProgram write)
    (hrun : run host write order = .ok after) : after.data = write.data := by
  induction order generalizing write with
  | nil =>
    cases hrun
    rfl
  | cons x order ih =>
    obtain ⟨⟨start, stop, hstart, hstop, hix⟩, hrest⟩ := List.forall_mem_cons.mp horder
    rw [run, List.foldlM_cons] at hrun
    obtain ⟨mid, hmid, hafter⟩ := bind_eq_ok.mp hrun
    rw [hix, execute_chunk h.seed h.derived h.data hstart hstop] at hmid
    obtain ⟨hdata, hmidForeign⟩ := writeChunk_foreign hforeign hmid
    rw [ih hrest hmidForeign hafter, hdata]

/-- Only accounts which do not exist are created. -/
theorem writeChunk_creates {program : Pubkey} {start : Nat} {chunk : List Byte} (hlamports : write.lamports = 0)
    (h : writeChunk host program payer write start chunk = .ok after) : write = absent := by
  obtain ⟨⟨payer', mid⟩, hsetup, -⟩ := bind_eq_ok.mp h
  unfold setupWriteAccount createAccount at hsetup
  rw [if_pos hlamports] at hsetup
  split at hsetup
  · cases hsetup
  · rename_i hfree
    simp only [ne_eq, not_or, not_not] at hfree
    obtain ⟨lamports, owner, data⟩ := write
    obtain ⟨hlamports, hdata, howner⟩ := hfree
    simp only at hlamports hdata howner
    rw [hlamports, hdata, howner]
    rfl

/-- What was put together in the buffer. -/
theorem free_buffer {seed : List Byte} (bump : Byte) (hseed : seed.length ≤ maxSeedLen) :
    (splice (splice (splice (List.replicate (maxSeedLen + 3) 0#8) 1 [BitVec.ofNat 8 seed.length]) 2 seed)
      (seed.length + 2) [bump]).take (seed.length + 3) = head seed bump := by
  have hzeros : List.replicate (maxSeedLen + 3) 0#8 =
      [0#8] ++ [0#8] ++ (List.replicate seed.length 0#8 ++ ([0#8] ++ List.replicate (maxSeedLen - seed.length) 0#8)) := by
    have hlen : maxSeedLen + 3 = 1 + (1 + (seed.length + (1 + (maxSeedLen - seed.length)))) := by omega
    rw [hlen, List.replicate_add, List.replicate_add, List.replicate_add, List.replicate_add]
    rfl
  have hbyte : ∀ b : Byte, [b].length = [0#8].length := fun _ => rfl
  have hone : ([0#8] : List Byte).length = 1 := rfl
  have htwo : ([0#8] ++ [BitVec.ofNat 8 seed.length]).length = 2 := rfl
  have hlen : ([0#8] ++ [BitVec.ofNat 8 seed.length] ++ seed).length = seed.length + 2 := by
    rw [List.length_append, htwo, Nat.add_comm]
  rw [hzeros, splice_append_mid hone (hbyte _), ← List.append_assoc, splice_append_mid htwo List.length_replicate.symm,
    ← List.append_assoc, splice_append_mid hlen (hbyte _), List.take_left' ?_]
  · rfl
  · rw [List.length_append, hlen, List.length_singleton]

theorem free_eq {program payer account : Pubkey} {seed : List Byte} {bump : Byte} (hseed : seed.length ≤ maxSeedLen)
    (hderive : host.derive (payer.val ++ (seed ++ [bump]) ++ program.val) = some account) {given : Option Pubkey}
    (hgiven : given = none ∨ given = some account) :
    free host program payer given seed bump = .ok ⟨program, accountMetas payer account, head seed bump⟩ := by
  have hcheck : checkSeed seed = .ok (BitVec.ofNat 8 seed.length) := if_pos hseed
  have hbuf := free_buffer bump hseed
  have hcreate : createProgramAddress host [payer.val, seed, [bump]] program = .ok account := by
    refine createProgramAddress_eq_ok.mpr ⟨(by decide : 3 ≤ maxSeeds), ?_, by simpa using hderive⟩
    simp only [List.forall_mem_cons]
    exact ⟨payer.property.le, hseed, (by decide : 1 ≤ maxSeedLen), nofun⟩
  rcases hgiven with rfl | rfl
  · simp only [free, hcheck, hcreate, bind, Except.bind, hbuf]
    rfl
  · simp only [free, hcheck, bind, Except.bind, hbuf]
    rfl

/-- The Free operation of the program on the accounts of the client. -/
def freed (host : Host) (it : WriteIter) (payer write : Account) : Except ProgramError Accounts :=
  handleFree host it.writeProgram
    ⟨⟨it.payer, true, true, payer⟩, ⟨it.writeAccount, false, true, write⟩, it.seed ++ [it.bump]⟩

/-- Every instruction is accepted, with each of them at least once the data is there, and what is made to free the
account does free it. -/
structure Reconstructs (host : Host) (it : WriteIter) (before : Account) : Prop where
  writes : ∃ ixs, it.instructions = .ok ixs ∧ ∀ order : List (Instruction × Account),
    (∀ x ∈ order, x.1 ∈ ixs) → Funded host it.data before order → (∀ ix ∈ ixs, ix ∈ order.map Prod.fst) →
      ∃ after, run host before order = .ok after ∧ after.data.take it.data.length = it.data ∧
        after.data.drop it.data.length = before.data.drop it.data.length ∧
        ∀ payload, it.data = leBytes 4 payload.length ++ payload →
          ∀ others, getIxData (others ++ [⟨after.data, false⟩]) = .ok (payload, others)
  frees : ∀ given, given = none ∨ given = some it.writeAccount →
    ∃ ix, free host it.writeProgram it.payer given it.seed it.bump = .ok ix ∧
      ∀ payer write, processInstruction host ix.programId (accountInfos ix.accounts payer write) ix.data =
        freed host it payer write

theorem getIxData_prefixed {payload rest : List Byte} {others : List IxAccount} (hlen : payload.length < 2 ^ 32) :
    getIxData (others ++ [⟨leBytes 4 payload.length ++ payload ++ rest, false⟩]) = .ok (payload, others) := by
  have hshort : ¬ (leBytes 4 payload.length ++ payload ++ rest).length < 4 := by
    simp only [List.length_append, length_leBytes]
    omega
  have hhead : (leBytes 4 payload.length ++ payload ++ rest).take 4 = leBytes 4 payload.length := by
    rw [List.append_assoc, List.take_left' (length_leBytes _ _)]
  have htail : (leBytes 4 payload.length ++ payload ++ rest).drop 4 = payload ++ rest := by
    rw [List.append_assoc, List.drop_left' (length_leBytes _ _)]
  have hvalue : ofLeBytes (leBytes 4 payload.length) = payload.length := ofLeBytes_leBytes (by omega)
  simp only [getIxData, List.getLast?_append, List.getLast?_singleton, Option.or, if_neg hshort, hhead, htail, hvalue]
  simp

theorem exists_pays (host : Host) (data : List Byte) : ∃ payer, ∀ write, Pays host data payer write := by
  refine ⟨⟨((List.range (data.length + 1)).map host.minimumBalance).sum, systemProgram, []⟩, fun write n hn => ?_⟩
  have hle : host.minimumBalance n ≤ ((List.range (data.length + 1)).map host.minimumBalance).sum :=
    List.le_sum_of_mem (List.mem_map_of_mem (List.mem_range.mpr (Nat.lt_succ_of_le hn)))
  exact Nat.le_add_right_of_le hle

theorem funded_map {data : List Byte} (hpays : ∀ write, Pays host data payer write) (ixs : List Instruction)
    (write : Account) : Funded host data write (ixs.map (·, payer)) := by
  induction ixs generalizing write with
  | nil => trivial
  | cons ix ixs ih => exact ⟨hpays write, fun after _ => ih after⟩

/-- What Free does with accounts which do not exist. -/
theorem freed_absent (it : WriteIter) (hpermitted : ∀ a b, host.permitted a b = true) :
    ∃ accounts, freed host it absent absent = .ok accounts := by
  have hfresh : host.fresh 0 0 = [] := List.length_eq_zero_iff.mp (host.length_fresh 0 0)
  have hrealloc : realloc host it.writeProgram absent 0 = .ok absent := by
    unfold realloc
    rw [if_pos (hpermitted _ _)]
    simp only [absent, List.length_nil, hfresh, List.take_nil, List.append_nil]
    exact setData_same
  have hadd : checkedAdd 64 absent.lamports absent.lamports = some 0 := rfl
  have hspend : ¬ (absent.owner ≠ it.writeProgram ∧ absent.lamports ≠ 0) := fun h => h.2 rfl
  have hgive : ¬ (absent.owner ≠ it.writeProgram ∧ absent.owner ≠ systemProgram) := fun h => h.2 rfl
  simp only [freed, handleFree, hrealloc, bind, Except.bind, hadd, if_neg hspend, if_neg hgive]
  exact ⟨_, rfl⟩

theorem Reconstructs.seed_lt {before : Account} (h : Reconstructs host it before)
    (hpermitted : ∀ a b, host.permitted a b = true) (hseed : it.seed.length ≤ maxSeedLen) (hderived : Derived host it) :
    it.seed.length < maxSeedLen := by
  by_contra hlong
  obtain ⟨ix, hix, hprocess⟩ := h.frees none (.inl rfl)
  obtain ⟨accounts, haccounts⟩ := freed_absent it hpermitted
  cases (free_eq hseed hderived (.inl rfl)).symm.trans hix
  have hparse : parse host it.writeProgram (accountInfos (accountMetas it.payer it.writeAccount) absent absent)
      (head it.seed it.bump ++ []) = .error .invalidSeeds :=
    parse_long (Nat.lt_of_le_of_lt hseed (by decide)) (Nat.le_of_not_lt hlong) rfl rfl rfl
  have hok := (hprocess absent absent).trans haccounts
  rw [List.append_nil] at hparse
  simp only [processInstruction, hparse, bind, Except.bind] at hok
  cases hok

/-- Without the data already being there, it takes an account the program may write to. -/
theorem Reconstructs.usable {before : Account} (h : Reconstructs host it before) (haccepted : Accepted host it)
    (hposition : it.position = 0) (hdata : it.data ≠ []) :
    before = absent ∨ Usable it.writeProgram it.data before := by
  obtain ⟨ixs, hixs, hrun⟩ := h.writes
  obtain ⟨ixs', hixs', hranges, hcover⟩ := it.instructions_spec haccepted.data
  cases hixs.symm.trans hixs'
  obtain ⟨payer, hpays⟩ := exists_pays host it.data
  obtain ⟨after, hafter, htake, -⟩ := hrun (ixs.map (·, payer))
    (List.forall_mem_map.mpr fun ix hix => hix) (funded_map hpays ixs before) (by simp)
  have hchunks : ∀ x ∈ ixs.map (·, payer), ∃ start stop, IsChunk it x.1 start stop :=
    List.forall_mem_map.mpr hranges
  by_cases hlamports : before.lamports = 0
  · left
    obtain ⟨start, stop, -, -, -, hmem⟩ := hcover 0 (by omega) (List.length_pos_iff.mpr hdata)
    obtain ⟨ix, rest, rfl⟩ := List.exists_cons_of_ne_nil (List.ne_nil_of_mem hmem)
    obtain ⟨start, stop, hstart, hstop, hix⟩ := hranges ix List.mem_cons_self
    rw [run, List.map_cons, List.foldlM_cons] at hafter
    obtain ⟨mid, hmid, -⟩ := bind_eq_ok.mp hafter
    rw [hix, execute_chunk haccepted.seed haccepted.derived haccepted.data hstart hstop] at hmid
    exact writeChunk_creates hlamports hmid
  · refine .inr ⟨hlamports, ?_⟩
    by_cases howner : before.owner = it.writeProgram
    · exact .inl howner
    · rw [run_foreign haccepted hchunks ⟨hlamports, howner⟩ hafter] at htake
      exact .inr (htake ▸ List.take_prefix _ _)

/-- Accounts of the program are what it needs, and a seed with room for the bump. -/
theorem reconstructs {before : Account} (h : Accepted host it) (hposition : it.position = 0)
    (hready : it.data = [] ∨ before = absent ∨ Usable it.writeProgram it.data before) : Reconstructs host it before := by
  refine ⟨?_, fun given hgiven => ⟨_, free_eq h.seed.le h.derived hgiven, fun payer write => ?_⟩⟩
  · obtain ⟨ixs, hixs, hranges, -⟩ := it.instructions_spec h.data
    refine ⟨ixs, hixs, fun order horder hfunded hall => ?_⟩
    have hrun : ∃ after, run host before order = .ok after ∧
        after.data = it.data ++ before.data.drop it.data.length := by
      rcases hready with hempty | hready
      · have hnone : ixs = [] := by
          rw [WriteIter.instructions, dif_pos (by simp [hempty])] at hixs
          exact (Except.ok.inj hixs).symm
        have horder' : order = [] := List.eq_nil_iff_forall_not_mem.mpr fun x hx => by
          rw [hnone] at horder
          exact List.not_mem_nil (horder x hx)
        refine ⟨before, by rw [horder']; rfl, ?_⟩
        rw [hempty]
        rfl
      · exact run_complete h hready hposition hixs horder hfunded hall
    obtain ⟨after, hafter, hdata⟩ := hrun
    refine ⟨after, hafter, ?_, ?_, fun payload hpayload others => ?_⟩
    · rw [hdata, List.take_left]
    · rw [hdata, List.drop_left]
    · have hlen : payload.length < 2 ^ 32 := by
        have hlt := h.data
        rw [hpayload, List.length_append] at hlt
        omega
      rw [hdata, hpayload, getIxData_prefixed hlen]
  · have hparse : parse host it.writeProgram (accountInfos (accountMetas it.payer it.writeAccount) payer write)
        (head it.seed it.bump ++ []) = .ok (⟨⟨it.payer, true, true, payer⟩, ⟨it.writeAccount, false, true, write⟩,
          it.seed ++ [it.bump]⟩, []) := parse_short h.seed h.derived rfl rfl rfl
    rw [List.append_nil] at hparse
    simp only [processInstruction, hparse, bind, Except.bind, if_true]
    rfl

/-- What the client accepts is written and freed exactly if the seed leaves room for the bump and there is an account
to write to. -/
theorem reconstructs_iff {program payer account : Pubkey} {seed data : List Byte} {bump : Byte}
    (hpermitted : ∀ a b, host.permitted a b = true)
    (hnew : WriteIter.new host program payer seed data = .ok (it, account, bump)) (hdata : data.length < 2 ^ 32)
    (chunkSize : NonZero 16) (before : Account) :
    Reconstructs host { it with chunkSize } before ↔
      seed.length < maxSeedLen ∧ (data = [] ∨ before = absent ∨ Usable program data before) := by
  obtain ⟨hseed, ⟨chunkSize', rfl⟩, hderived⟩ := WriteIter.new_spec hnew
  constructor
  · intro h
    have hlt := h.seed_lt hpermitted hseed hderived
    refine ⟨hlt, or_iff_not_imp_left.mpr fun hne => ?_⟩
    exact h.usable ⟨hpermitted, hlt, hderived, hdata⟩ rfl hne
  · rintro ⟨hlt, hready⟩
    exact reconstructs ⟨hpermitted, hlt, hderived, hdata⟩ rfl hready

theorem somePayer_size : (List.replicate 32 2#8).length = 32 := rfl

def somePayer : Pubkey := ⟨List.replicate 32 2#8, somePayer_size⟩

theorem someProgram_size : (List.replicate 32 9#8).length = 32 := rfl

def someProgram : Pubkey := ⟨List.replicate 32 9#8, someProgram_size⟩

def emptySeedAccount : Pubkey := ⟨[163, 32, 104, 114, 106, 85, 10, 223, 14, 56, 126, 126, 186, 82, 165, 26, 84, 40,
  228, 122, 3, 135, 205, 48, 166, 112, 137, 231, 17, 113, 220, 170], rfl⟩

def longSeed : List Byte := List.replicate 32 5#8

def longSeedAccount : Pubkey := ⟨[199, 194, 157, 207, 141, 224, 254, 65, 70, 188, 216, 112, 11, 126, 107, 58, 195, 206,
  96, 248, 104, 222, 127, 169, 136, 254, 50, 4, 203, 198, 58, 126], rfl⟩

/-- A host which knows the addresses for two seeds. -/
def someHost : Host where
  derive bytes :=
    if bytes = somePayer.val ++ [255#8] ++ someProgram.val then some emptySeedAccount
    else if bytes = somePayer.val ++ longSeed ++ [255#8] ++ someProgram.val then some longSeedAccount
    else none
  minimumBalance n := 890880 + 6960 * n
  permitted _ _ := true
  fresh a b := List.replicate (b - a) 0#8
  minimumBalance_pos n := by omega
  length_fresh a b := List.length_replicate

def someIter (account : Pubkey) (seed data : List Byte) : WriteIter :=
  ⟨someProgram, somePayer, account, seed, 255#8, data, 0, WriteIter.defaultChunkSize⟩

theorem new_emptySeed : WriteIter.new someHost someProgram somePayer [] [1, 0, 0, 0, 7] =
    .ok (someIter emptySeedAccount [] [1, 0, 0, 0, 7], emptySeedAccount, 255#8) := rfl

theorem reconstructs_iff_sample :
    Reconstructs someHost { someIter emptySeedAccount [] [1, 0, 0, 0, 7] with chunkSize := ⟨2, by decide, by decide⟩ }
      absent :=
  (reconstructs_iff (fun _ _ => rfl) new_emptySeed (by decide) _ _).mpr ⟨by decide, .inr (.inl rfl)⟩

/-- The client accepts a seed of 32 bytes, the program does not. -/
theorem long_seed_accepted_and_refused :
    WriteIter.new someHost someProgram somePayer longSeed [7] =
        .ok (someIter longSeedAccount longSeed [7], longSeedAccount, 255#8) ∧
      (∀ payer write, execute someHost ((someIter longSeedAccount longSeed [7]).chunk 0 1) payer write =
        .error .invalidSeeds) ∧
      ¬ Reconstructs someHost (someIter longSeedAccount longSeed [7]) absent := by
  have hderived : Derived someHost (someIter longSeedAccount longSeed [7]) := rfl
  refine ⟨rfl, fun payer write => execute_long rfl, fun h => ?_⟩
  exact absurd (h.seed_lt (fun _ _ => rfl) (by decide) hderived) (by decide)

end WriteAccount
