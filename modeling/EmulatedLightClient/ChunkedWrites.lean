import EmulatedLightClient.FailingState
import EmulatedLightClient.WriteAccount

/-!
# Chunks put together again

The program accepts what the client makes only if its idea of the seed does, which includes the bump. Chunks which
are accepted may come in any order and more than once.
-/

namespace WriteAccount

open Buffers ByteBits FailingState MachineInts Readers

variable {host : Host}

theorem createProgramAddress_eq_ok {seeds : List (List Byte)} {programId key : Pubkey} :
    createProgramAddress host seeds programId = .ok key ↔
      seeds.length ≤ maxSeeds ∧ (∀ seed ∈ seeds, seed.length ≤ maxSeedLen) ∧
        host.derive (seeds.flatten ++ programId.val) = some key := by
  unfold createProgramAddress
  split
  · rename_i hlong
    refine iff_of_false nofun ?_
    rintro ⟨hcount, hseeds, -⟩
    rcases hlong with hmany | ⟨seed, hseed, hlong⟩
    · omega
    · have hle := hseeds seed hseed
      omega
  · rename_i hshort
    simp only [not_or, not_lt, not_exists, not_and] at hshort
    cases host.derive (seeds.flatten ++ programId.val) with
    | none =>
      refine iff_of_false nofun ?_
      rintro ⟨-, -, h⟩
      cases h
    | some key' =>
      rw [Except.ok.injEq, Option.some_inj]
      exact ⟨fun h => ⟨hshort.1, hshort.2, h⟩, fun h => h.2.2⟩

theorem findProgramAddress_ok {seeds : List (List Byte)} {programId key : Pubkey} {bump : Byte}
    (h : findProgramAddress host seeds programId = .ok (key, bump)) :
    createProgramAddress host (seeds ++ [[bump]]) programId = .ok key := by
  simp only [findProgramAddress] at h
  split at h
  · rename_i r hfind
    cases h
    obtain ⟨b, -, hb⟩ := List.exists_of_findSome?_eq_some hfind
    cases hcreate : createProgramAddress host (seeds ++ [[b]]) programId with
    | error e =>
      rw [hcreate] at hb
      cases hb
    | ok k =>
      rw [hcreate] at hb
      cases hb
      exact hcreate
  · cases h

/-- Accepted seeds, with the address of the account. -/
theorem WriteIter.new_spec {program payer account : Pubkey} {seed data : List Byte} {bump : Byte} {it : WriteIter}
    (h : WriteIter.new host program payer seed data = .ok (it, account, bump)) :
    seed.length ≤ maxSeedLen ∧ (∃ chunkSize, it = ⟨program, payer, account, seed, bump, data, 0, chunkSize⟩) ∧
      host.derive (payer.val ++ (seed ++ [bump]) ++ program.val) = some account := by
  obtain ⟨len, hlen, hrest⟩ := bind_eq_ok.mp h
  obtain ⟨⟨key, b⟩, hfind, hresult⟩ := bind_eq_ok.mp hrest
  cases hresult
  have hseed : seed.length ≤ maxSeedLen := by
    have hcheck := mapError_ok.mp hlen
    unfold checkSeed at hcheck
    split at hcheck
    · assumption
    · cases hcheck
  obtain ⟨-, -, hderive⟩ := createProgramAddress_eq_ok.mp (findProgramAddress_ok hfind)
  refine ⟨hseed, ⟨_, rfl⟩, ?_⟩
  simpa using hderive

/-- What every instruction begins with. -/
def head (seed : List Byte) (bump : Byte) : List Byte := [0#8] ++ [BitVec.ofNat 8 seed.length] ++ seed ++ [bump]

theorem read_eq {α : Type} {n : Nat} {convert : List Byte → α} {bytes rest : List Byte} (h : bytes.length = n) :
    read n convert (bytes ++ rest) = .ok (convert bytes, rest) := by
  rw [read, Reader.bind_eq_ok]
  exact ⟨bytes, rest, Reader.take_eq_ok.mpr ⟨h, rfl⟩, rfl⟩

section

variable {program payer account : Pubkey} {seed : List Byte} {bump : Byte} {rest : List Byte}
  {payerInfo writeInfo : AccountInfo} {infos : List AccountInfo}

/-- The program goes by the seed with its bump. -/
theorem parse_eq (hlen : seed.length < 2 ^ 8) (hsigner : payerInfo.isSigner = true)
    (hwritable : payerInfo.isWritable = true) (hwrite : writeInfo.isWritable = true) :
    parse host program (payerInfo :: writeInfo :: infos) (head seed bump ++ rest) =
      match createProgramAddress host [payerInfo.key.val, seed ++ [bump]] program with
      | .ok pda =>
        if pda = writeInfo.key then .ok (⟨payerInfo, writeInfo, seed ++ [bump]⟩, rest) else .error .invalidSeeds
      | .error _ => .error .invalidSeeds := by
  have hzero : read 1 ofLeBytes (head seed bump ++ rest) =
      .ok (0, [BitVec.ofNat 8 seed.length] ++ ((seed ++ [bump]) ++ rest)) := by
    have hhead : head seed bump ++ rest = [0#8] ++ ([BitVec.ofNat 8 seed.length] ++ ((seed ++ [bump]) ++ rest)) := by
      simp [head]
    rw [hhead]
    exact read_eq rfl
  have hseedLen : read 1 ofLeBytes ([BitVec.ofNat 8 seed.length] ++ ((seed ++ [bump]) ++ rest)) =
      .ok (seed.length, (seed ++ [bump]) ++ rest) := by
    rw [read_eq (show [BitVec.ofNat 8 seed.length].length = 1 from rfl)]
    simp only [ofLeBytes, BitVec.toNat_ofNat, Nat.mod_eq_of_lt hlen, Nat.mul_zero, Nat.add_zero]
  have hslice : readSlice (seed.length + 1) ((seed ++ [bump]) ++ rest) = .ok (seed ++ [bump], rest) :=
    Reader.take_eq_ok.mpr ⟨by simp, rfl⟩
  rw [parse, Reader.bind_of_ok hzero]
  simp only [ne_eq, not_true_eq_false, if_false, Accounts.get, List.getElem?_cons_zero, List.getElem?_cons_succ,
    Reader.ofOption, pure_bind, hsigner, hwritable, hwrite]
  rw [Reader.bind_of_ok hseedLen, Reader.bind_of_ok hslice]
  simp only [Accounts.writeSeeds]
  cases createProgramAddress host [payerInfo.key.val, seed ++ [bump]] program with
  | error e => rfl
  | ok pda =>
    simp only
    split <;> rfl

/-- Seeds which leave room for the bump are understood. -/
theorem parse_short (hseed : seed.length < maxSeedLen)
    (hderive : host.derive (payerInfo.key.val ++ (seed ++ [bump]) ++ program.val) = some writeInfo.key)
    (hsigner : payerInfo.isSigner = true) (hwritable : payerInfo.isWritable = true)
    (hwrite : writeInfo.isWritable = true) :
    parse host program (payerInfo :: writeInfo :: infos) (head seed bump ++ rest) =
      .ok (⟨payerInfo, writeInfo, seed ++ [bump]⟩, rest) := by
  have hcreate : createProgramAddress host [payerInfo.key.val, seed ++ [bump]] program = .ok writeInfo.key := by
    refine createProgramAddress_eq_ok.mpr ⟨(by decide : 2 ≤ maxSeeds), ?_, by simpa using hderive⟩
    simp only [List.forall_mem_cons, List.length_append, List.length_singleton]
    exact ⟨payerInfo.key.property.le, hseed, nofun⟩
  rw [parse_eq (Nat.lt_trans hseed (by decide)) hsigner hwritable hwrite, hcreate]
  simp only [if_true]

/-- Seeds which fill the length there is are not. -/
theorem parse_long (hlen : seed.length < 2 ^ 8) (hseed : maxSeedLen ≤ seed.length) (hsigner : payerInfo.isSigner = true)
    (hwritable : payerInfo.isWritable = true) (hwrite : writeInfo.isWritable = true) :
    parse host program (payerInfo :: writeInfo :: infos) (head seed bump ++ rest) = .error .invalidSeeds := by
  have hcreate : createProgramAddress host [payerInfo.key.val, seed ++ [bump]] program =
      .error .maxSeedLengthExceeded := by
    refine if_pos (.inr ⟨seed ++ [bump], by simp, ?_⟩)
    rw [List.length_append, List.length_singleton]
    exact Nat.lt_succ_of_le hseed
  rw [parse_eq hlen hsigner hwritable hwrite, hcreate]

end

/-- The Write operation once the instruction was understood. -/
def writeChunk (host : Host) (programId : Pubkey) (payer write : Account) (start : Nat) (chunk : List Byte) :
    Except ProgramError Account := do
  let (_, write) ← setupWriteAccount host programId payer write (start + chunk.length)
  if start + chunk.length ≤ write.data.length then setData programId write (splice write.data start chunk)
  else throw .accountDataTooSmall

theorem handleWrite_eq {program : Pubkey} {accounts : Accounts} {start : Nat} {chunk : List Byte}
    (hstart : start < 2 ^ 32) (hstop : start + chunk.length < 2 ^ 64) :
    (handleWrite host program accounts (leBytes 4 start ++ chunk)).map (·.write.account) =
      writeChunk host program accounts.payer.account accounts.write.account start chunk := by
  have hread : readUsize 4 ofLeBytes (leBytes 4 start ++ chunk) = .ok (start, chunk) := by
    rw [readUsize, Reader.bind_of_ok (read_eq (length_leBytes 4 start)), ofLeBytes_leBytes (by omega),
      if_pos (Nat.lt_trans hstart (by decide))]
    rfl
  have hadd : checkedAdd 64 start chunk.length = some (start + chunk.length) := if_pos hstop
  unfold handleWrite writeChunk
  simp only [hread, hadd, bind, Except.bind]
  cases setupWriteAccount host program accounts.payer.account accounts.write.account (start + chunk.length) with
  | error e => rfl
  | ok r =>
    simp only
    split
    · cases setData program r.2 (splice r.2.data start chunk) <;> rfl
    · rfl

/-- An account which does not exist. -/
def absent : Account := ⟨0, systemProgram, []⟩

/-- Accounts of the program, and those of others which start with the data already. -/
def Usable (program : Pubkey) (data : List Byte) (write : Account) : Prop :=
  write.lamports ≠ 0 ∧ (write.owner = program ∨ data <+: write.data)

/-- Together the accounts hold the rent for as much of the data as there is. -/
def Pays (host : Host) (data : List Byte) (payer write : Account) : Prop :=
  ∀ n ≤ data.length, host.minimumBalance n ≤ payer.lamports + write.lamports

/-- The chunk is where it belongs, and other bytes there were are as they were. -/
structure Written (data : List Byte) (start stop : Nat) (before after : Account) : Prop where
  inside : ∀ i, start ≤ i → i < stop → after.data[i]? = data[i]?
  outside : ∀ i, i < start ∨ stop ≤ i → i < before.data.length ∨ stop ≤ i → after.data[i]? = before.data[i]?

section

variable {program : Pubkey} {data : List Byte} {payer write : Account} {start stop : Nat}

/-- Writing into memory which was made large enough. -/
theorem written_splice {before after : Account} {pad : List Byte} (hstop : start ≤ stop) (hdata : stop ≤ data.length)
    (hpad : pad.length = stop - before.data.length)
    (hafter : after.data = splice (before.data ++ pad) start (slice data start (stop - start))) :
    Written data start stop before after := by
  have hchunk : (slice data start (stop - start)).length = stop - start := length_slice (by omega)
  have hfits : start + (slice data start (stop - start)).length ≤ (before.data ++ pad).length := by
    rw [hchunk, List.length_append]
    omega
  refine ⟨fun i hge hlt => ?_, fun i hout hold => ?_⟩
  · rw [hafter, getElem?_splice hfits, if_pos (by omega), getElem?_slice, if_pos (by omega)]
    congr 1
    omega
  · rw [hafter, getElem?_splice hfits, if_neg (by omega)]
    rcases Nat.lt_or_ge i before.data.length with hlt | hge
    · exact List.getElem?_append_left hlt
    · rw [List.getElem?_eq_none hge, List.getElem?_eq_none]
      rw [List.length_append]
      omega

theorem setData_own {data : List Byte} (h : write.owner = program) :
    setData program write data = .ok { write with data } := if_pos (.inl h)

theorem setData_same : setData program write write.data = .ok write := if_pos (.inr rfl)

/-- Growing an account of the program may take lamports and keeps its bytes. -/
theorem setup_grow (hpermitted : ∀ a b, host.permitted a b = true) (hlamports : write.lamports ≠ 0)
    (howner : write.owner = program) (hlarge : write.data.length < stop)
    (hbalance : host.minimumBalance stop ≤ payer.lamports + write.lamports) :
    ∃ payer' lamports, lamports ≠ 0 ∧ setupWriteAccount host program payer write stop =
      .ok (payer', ⟨lamports, program, write.data ++ host.fresh write.data.length stop⟩) := by
  have hrealloc : ∀ lamports, realloc host program ⟨lamports, write.owner, write.data⟩ stop =
      .ok ⟨lamports, program, write.data ++ host.fresh write.data.length stop⟩ := by
    intro lamports
    have hset : ∀ data, setData program ⟨lamports, write.owner, write.data⟩ data = .ok ⟨lamports, write.owner, data⟩ :=
      fun _ => setData_own howner
    rw [realloc, if_pos (hpermitted _ _), hset, List.take_of_length_le hlarge.le, howner]
  rw [setupWriteAccount, if_neg hlamports, if_pos hlarge]
  by_cases hmissing : 0 < host.minimumBalance stop - write.lamports
  · refine ⟨{ payer with lamports := payer.lamports - (host.minimumBalance stop - write.lamports) },
      write.lamports + (host.minimumBalance stop - write.lamports), by omega, ?_⟩
    have htransfer : ¬ payer.lamports < host.minimumBalance stop - write.lamports := by omega
    simp only [if_pos hmissing, transfer, if_neg htransfer, bind, Except.bind, hrealloc]
    rfl
  · refine ⟨payer, write.lamports, hlamports, ?_⟩
    simp only [if_neg hmissing, bind, Except.bind]
    rw [hrealloc]
    rfl

/-- The account may not exist yet. -/
theorem writeChunk_spec (hpermitted : ∀ a b, host.permitted a b = true)
    (hready : write = absent ∨ Usable program data write) (hpays : Pays host data payer write) (hstart : start < stop)
    (hstop : stop ≤ data.length) :
    ∃ after, writeChunk host program payer write start (slice data start (stop - start)) = .ok after ∧
      Usable program data after ∧ Written data start stop write after := by
  have hchunk : (slice data start (stop - start)).length = stop - start := length_slice (by omega)
  have hsum : start + (slice data start (stop - start)).length = stop := by omega
  have hbalance := hpays stop hstop
  have hpos := host.minimumBalance_pos stop
  unfold writeChunk
  rw [hsum]
  rcases hready with rfl | ⟨hlamports, howner⟩
  · have hsetup : setupWriteAccount host program payer absent stop =
        .ok ({ payer with lamports := payer.lamports - host.minimumBalance stop },
          ⟨host.minimumBalance stop, program, List.replicate stop 0#8⟩) := by
      have hrich : host.minimumBalance stop ≤ payer.lamports := hbalance
      simp only [setupWriteAccount, createAccount, absent, hpermitted]
      simp [Nat.not_lt.mpr hrich]
    have hpad : (List.replicate stop 0#8).length = stop - absent.data.length := List.length_replicate
    simp only [hsetup, bind, Except.bind, List.length_replicate, Nat.le_refl, if_true]
    exact ⟨_, setData_own rfl, ⟨hpos.ne', .inl rfl⟩,
      written_splice hstart.le hstop hpad rfl⟩
  · by_cases hlarge : write.data.length < stop
    · have hown : write.owner = program := by
        rcases howner with hown | hthere
        · exact hown
        · have hle := hthere.length_le
          omega
      obtain ⟨payer', lamports, hne, hsetup⟩ := setup_grow hpermitted hlamports hown hlarge hbalance
      have hfits : stop ≤ (write.data ++ host.fresh write.data.length stop).length := by
        rw [List.length_append, host.length_fresh]
        omega
      simp only [hsetup, bind, Except.bind, if_pos hfits]
      exact ⟨_, setData_own rfl, ⟨hne, .inl rfl⟩,
        written_splice hstart.le hstop (host.length_fresh _ _) rfl⟩
    · have hsetup : setupWriteAccount host program payer write stop = .ok (payer, write) := by
        rw [setupWriteAccount, if_neg hlamports, if_neg hlarge]
        rfl
      have hwritten : ∀ after : Account, after.data = splice write.data start (slice data start (stop - start)) →
          Written data start stop write after := by
        intro after hafter
        have hpad : ([] : List Byte).length = stop - write.data.length := by
          rw [List.length_nil]
          omega
        exact written_splice hstart.le hstop hpad (by rw [List.append_nil, hafter])
      simp only [hsetup, bind, Except.bind, if_pos (Nat.le_of_not_lt hlarge)]
      rcases howner with hown | hthere
      · exact ⟨_, setData_own hown, ⟨hlamports, .inl hown⟩, hwritten _ rfl⟩
      · have hsame : splice write.data start (slice data start (stop - start)) = write.data := by
          obtain ⟨rest, hrest⟩ := hthere
          have hslice : slice data start (stop - start) = slice write.data start (stop - start) := by
            rw [← hrest, slice_append_left (by omega)]
          rw [hslice, splice_slice_self (by omega)]
        exact ⟨write, by rw [hsame, setData_same], ⟨hlamports, .inr hthere⟩, hwritten _ hsame.symm⟩

end

namespace WriteIter

/-- The instruction for a range of the data. -/
def chunk (it : WriteIter) (start stop : Nat) : Instruction where
  programId := it.writeProgram
  accounts := accountMetas it.payer it.writeAccount
  data := head it.seed it.bump ++ (leBytes 4 start ++ slice it.data start (stop - start))

theorem instruction_eq (it : WriteIter) : it.instruction = it.chunk it.position it.chunkEnd := by
  simp [instruction, chunk, head]

theorem chunkEnd_le (it : WriteIter) : it.chunkEnd ≤ it.data.length := Nat.min_le_right _ _

/-- Every instruction is for a range, and the ranges cover what is left of the data. -/
theorem instructions_spec (it : WriteIter) (hdata : it.data.length < 2 ^ 32) :
    ∃ ixs, it.instructions = .ok ixs ∧
      (∀ ix ∈ ixs, ∃ start stop, start < stop ∧ stop ≤ it.data.length ∧ ix = it.chunk start stop) ∧
      ∀ i, it.position ≤ i → i < it.data.length →
        ∃ start stop, start ≤ i ∧ i < stop ∧ stop ≤ it.data.length ∧ it.chunk start stop ∈ ixs := by
  induction hn : it.data.length - it.position using Nat.strong_induction_on generalizing it with
  | _ n ih =>
    by_cases hend : it.data.length ≤ it.position
    · refine ⟨[], ?_, nofun, fun i hge hlt => by omega⟩
      rw [instructions, dif_pos hend]
    · have hlt : it.position < 2 ^ 32 := by omega
      have hgt := chunkEnd_gt (Nat.lt_of_not_le hend) hlt
      have hle := it.chunkEnd_le
      obtain ⟨ixs, hixs, hranges, hcover⟩ := ih (it.data.length - it.chunkEnd) (by omega)
        { it with position := it.chunkEnd } hdata rfl
      refine ⟨it.instruction :: ixs, ?_, ?_, ?_⟩
      · rw [instructions, dif_neg hend, dif_pos hlt, hixs]
        rfl
      · exact List.forall_mem_cons.mpr ⟨⟨it.position, it.chunkEnd, hgt, hle, it.instruction_eq⟩, hranges⟩
      · intro i hge hi
        rcases Nat.lt_or_ge i it.chunkEnd with hin | hout
        · exact ⟨it.position, it.chunkEnd, hge, hin, hle, it.instruction_eq ▸ List.mem_cons_self⟩
        · obtain ⟨start, stop, hstart, hstop, hle, hmem⟩ := hcover i hout hi
          exact ⟨start, stop, hstart, hstop, hle, List.mem_cons_of_mem _ hmem⟩

end WriteIter

section

variable {it : WriteIter} {payer write : Account} {start stop : Nat}

/-- The address of the iterator is the one which the program derives. -/
def Derived (host : Host) (it : WriteIter) : Prop :=
  host.derive (it.payer.val ++ (it.seed ++ [it.bump]) ++ it.writeProgram.val) = some it.writeAccount

theorem execute_chunk (hseed : it.seed.length < maxSeedLen) (hderived : Derived host it)
    (hdata : it.data.length < 2 ^ 32) (hstart : start < stop) (hstop : stop ≤ it.data.length) :
    execute host (it.chunk start stop) payer write =
      writeChunk host it.writeProgram payer write start (slice it.data start (stop - start)) := by
  have hchunk : (slice it.data start (stop - start)).length = stop - start := length_slice (by omega)
  have hparse : parse host it.writeProgram (accountInfos (accountMetas it.payer it.writeAccount) payer write)
      (it.chunk start stop).data = .ok (⟨⟨it.payer, true, true, payer⟩, ⟨it.writeAccount, false, true, write⟩,
        it.seed ++ [it.bump]⟩, leBytes 4 start ++ slice it.data start (stop - start)) :=
    parse_short hseed hderived rfl rfl rfl
  have hrest : leBytes 4 start ++ slice it.data start (stop - start) ≠ [] := by
    intro h
    have hlen := congrArg List.length h
    rw [List.length_append, length_leBytes, List.length_nil] at hlen
    omega
  have hwrite : (handleWrite host it.writeProgram ⟨⟨it.payer, true, true, payer⟩, ⟨it.writeAccount, false, true, write⟩,
      it.seed ++ [it.bump]⟩ (leBytes 4 start ++ slice it.data start (stop - start))).map (·.write.account) =
      writeChunk host it.writeProgram payer write start (slice it.data start (stop - start)) :=
    handleWrite_eq (by omega) (by omega)
  rw [← hwrite]
  have hid : (it.chunk start stop).programId = it.writeProgram := rfl
  have hmetas : (it.chunk start stop).accounts = accountMetas it.payer it.writeAccount := rfl
  simp only [execute, processInstruction, hid, hmetas, hparse, bind, Except.bind, if_neg hrest]
  cases handleWrite host it.writeProgram _ (leBytes 4 start ++ slice it.data start (stop - start)) <;> rfl

/-- No instruction is accepted when there is no room for the bump. -/
theorem execute_long (hseed : it.seed.length = maxSeedLen) :
    execute host (it.chunk start stop) payer write = .error .invalidSeeds := by
  have hparse : parse host it.writeProgram (accountInfos (accountMetas it.payer it.writeAccount) payer write)
      (it.chunk start stop).data = .error .invalidSeeds :=
    parse_long (by rw [hseed]; decide) hseed.ge rfl rfl rfl
  have hid : (it.chunk start stop).programId = it.writeProgram := rfl
  have hmetas : (it.chunk start stop).accounts = accountMetas it.payer it.writeAccount := rfl
  simp only [execute, processInstruction, hid, hmetas, hparse, bind, Except.bind]

end

end WriteAccount
