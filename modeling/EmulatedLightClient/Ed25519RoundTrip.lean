import EmulatedLightClient.Ed25519Program

/-!
# Reading what was written for the signature program

Whatever its data is, an instruction is parsed without going out of bounds. The data which is written for entries is
parsed into them.
-/

namespace Ed25519Program

open Buffers ByteBits MachineInts SignatureVerifier

theorem splitArray_eq {n : Nat} {l : List Byte} (h : n ≤ l.length) :
    splitArray n l = .ok (some (⟨l.take n, List.length_take_of_le h⟩, l.drop n)) := by
  simp only [splitArray, if_pos h, splitAt, bind, Except.bind, toArray, dif_pos (List.length_take_of_le h)]
  rfl

theorem splitArray_short {n : Nat} {l : List Byte} (h : ¬ n ≤ l.length) : splitArray n l = .ok none := if_neg h

theorem toArray_many {n : Nat} {rs : List (List Byte)} (h : ∀ r ∈ rs, r.length = n) :
    ∃ chunks : List (Bytes n), rs.mapM (toArray n) = .ok chunks ∧ chunks.map Subtype.val = rs := by
  induction rs with
  | nil => exact ⟨[], rfl, rfl⟩
  | cons r rs ih =>
    obtain ⟨hr, hrs⟩ := List.forall_mem_cons.mp h
    obtain ⟨chunks, hchunks, hval⟩ := ih hrs
    refine ⟨⟨r, hr⟩ :: chunks, ?_, by rw [List.map_cons, hval]⟩
    simp only [List.mapM_cons, toArray, dif_pos hr, hchunks, bind, Except.bind]
    rfl

theorem splitChunks_eq (n : Nat) (l : List Byte) :
    ∃ chunks : List (Bytes n), splitChunks n l = .ok (chunks, l.drop (l.length / n * n)) ∧
      chunks.map Subtype.val = asChunks n l := by
  have hle : l.length / n * n ≤ l.length := Nat.div_mul_le_self _ _
  have hhead : records (l.take (l.length / n * n)) 0 n (l.length / n) = asChunks n l := by
    have happend : records (l.take (l.length / n * n) ++ l.drop (l.length / n * n)) 0 n (l.length / n) =
        records (l.take (l.length / n * n)) 0 n (l.length / n) :=
      records_append_left (by rw [List.length_take_of_le hle, Nat.zero_add, Nat.mul_comm])
    rw [List.take_append_drop] at happend
    exact happend.symm
  have hsize : ∀ r ∈ asChunks n l, r.length = n :=
    length_of_mem_records (by rw [Nat.zero_add, Nat.mul_comm]; exact hle)
  obtain ⟨chunks, hchunks, hval⟩ := toArray_many hsize
  refine ⟨chunks, ?_, hval⟩
  simp only [splitChunks, splitAt, if_pos hle, bind, Except.bind, hhead, hchunks]
  rfl

theorem getArray_eq (n : Nat) (data : List Byte) (offset : Nat) :
    getArray n data offset = .ok (SignatureVerifier.getArray n data offset) := by
  unfold getArray getFrom SignatureVerifier.getArray
  by_cases hoff : offset ≤ data.length
  · by_cases hn : n ≤ (data.drop offset).length
    · simp only [if_pos hoff, splitArray_eq hn, dif_pos (And.intro hoff hn), bind, Except.bind]
      rfl
    · simp only [if_pos hoff, splitArray_short hn, dif_neg fun h : _ ∧ _ => hn h.2, bind, Except.bind]
      rfl
  · simp only [if_neg hoff, dif_neg fun h : _ ∧ _ => hoff h.1]

theorem getTo_getFrom (n : Nat) (data : List Byte) (offset : Nat) :
    (getFrom data offset).bind (getTo · n) = (SignatureVerifier.getArray n data offset).map Subtype.val := by
  unfold getFrom getTo SignatureVerifier.getArray
  by_cases hoff : offset ≤ data.length
  · by_cases hn : n ≤ (data.drop offset).length
    · rw [if_pos hoff, Option.bind_some, if_pos hn, dif_pos ⟨hoff, hn⟩]
      rfl
    · rw [if_pos hoff, Option.bind_some, if_neg hn, dif_neg fun h => hn h.2]
      rfl
  · rw [if_neg hoff, dif_neg fun h => hoff h.1]
    rfl

/-- Decoding does not fail and is what the verifier goes by. -/
theorem decodeEntry_eq (data : List Byte) (entry : Bytes entrySize) :
    decodeEntry data entry = .ok (SignatureVerifier.decodeEntry data entry.val) := by
  unfold decodeEntry SignatureVerifier.decodeEntry
  simp only [getArray_eq, getTo_getFrom, bind, Except.bind]
  split
  · rfl
  · cases SignatureVerifier.getArray 64 data (ofLeBytes (slice entry.val (2 * 0) 2)) with
    | none => rfl
    | some signature =>
      cases SignatureVerifier.getArray 32 data (ofLeBytes (slice entry.val (2 * 2) 2)) with
      | none => rfl
      | some pubkey =>
        cases SignatureVerifier.getArray (ofLeBytes (slice entry.val (2 * 5) 2)) data
            (ofLeBytes (slice entry.val (2 * 4) 2)) with
        | none => rfl
        | some message => rfl

/-- Parsing does not fail; the verifier goes through what the iterator decodes. -/
theorem parseData_eq (data : List Byte) :
    ∃ it, parseData data = .ok it ∧ (∀ i ∈ it, i.data = data) ∧
      it.map (fun i => i.entries.map fun entry => SignatureVerifier.decodeEntry data entry.val) =
        SignatureVerifier.parseData data := by
  match data with
  | [] => exact ⟨none, rfl, nofun, rfl⟩
  | [_] => exact ⟨none, rfl, nofun, rfl⟩
  | count :: zero :: rest =>
    have hhead : splitArray 2 (count :: zero :: rest) = .ok (some (⟨[count, zero], rfl⟩, rest)) :=
      splitArray_eq (by rw [List.length_cons, List.length_cons]; omega)
    by_cases hzero : zero = 0#8
    · subst hzero
      obtain ⟨chunks, hchunks, hval⟩ := splitChunks_eq entrySize rest
      have hlen : chunks.length = (asChunks entrySize rest).length := by rw [← hval, List.length_map]
      refine ⟨(getTo chunks count.toNat).map (⟨·, count :: 0#8 :: rest⟩), ?_, ?_, ?_⟩
      · simp only [parseData, hhead, hchunks, bind, Except.bind]
        rfl
      · intro i hi
        obtain ⟨entries, -, rfl⟩ := Option.map_eq_some_iff.mp hi
        rfl
      · unfold getTo SignatureVerifier.parseData
        by_cases hcount : count.toNat ≤ chunks.length
        · rw [if_pos hcount]
          simp only [Option.map_some]
          rw [if_pos (hlen ▸ hcount), ← show asChunks entrySize rest = asChunks 14 rest from rfl, ← hval, ← List.map_take,
            List.map_map]
          rfl
        · rw [if_neg hcount]
          simp only [Option.map_none]
          rw [if_neg (hlen ▸ hcount)]
    · refine ⟨none, ?_, nofun, ?_⟩
      · simp only [parseData, hhead, bind, Except.bind]
        split
        · rename_i h
          cases h
          exact absurd rfl hzero
        · rfl
      · unfold SignatureVerifier.parseData
        split
        · rename_i h
          cases h
          exact absurd rfl hzero
        · rfl

namespace Iter

variable {it : Iter}

theorem call_eq (c : Call) :
    it.call c = .ok ((advance it.entries c).1.map (fun e => SignatureVerifier.decodeEntry it.data e.val),
      { it with entries := (advance it.entries c).2 }) := by
  unfold call decode
  cases hadvance : advance it.entries c with
  | mk entry entries =>
    cases entry with
    | none => rfl
    | some e =>
      simp only [bind, Except.bind, decodeEntry_eq]
      rfl

theorem last_eq : it.last = .ok (it.entries.getLast?.map fun e => SignatureVerifier.decodeEntry it.data e.val) := by
  unfold last decode
  cases it.entries.getLast? with
  | none => rfl
  | some e =>
    simp only [bind, Except.bind, decodeEntry_eq]
    rfl

/-- Everything in the entry was found in the data. -/
def Within (data : List Byte) (e : Entry) : Prop :=
  e.signature.val <:+: data ∧ e.pubkey.val <:+: data ∧ e.message <:+: data

theorem infix_of_getArray {n offset : Nat} {data : List Byte} {a : Bytes n}
    (h : SignatureVerifier.getArray n data offset = some a) : a.val <:+: data := by
  unfold SignatureVerifier.getArray at h
  split at h
  · cases h
    exact (List.take_prefix _ _).isInfix.trans (List.drop_suffix _ _).isInfix
  · cases h

theorem within_of_decodeEntry {data entry : List Byte} {e : Entry}
    (h : SignatureVerifier.decodeEntry data entry = .ok e) : Within data e := by
  unfold SignatureVerifier.decodeEntry at h
  simp only at h
  split at h
  · cases h
  · split at h
    · rename_i hsignature hpubkey hmessage
      cases h
      exact ⟨infix_of_getArray hsignature, infix_of_getArray hpubkey, infix_of_getArray hmessage⟩
    · cases h

theorem run_spec (calls : List Call) :
    ∃ items it', it.run calls = .ok (items, it') ∧ it'.data = it.data ∧ ∀ e, some (.ok e) ∈ items → Within it.data e := by
  induction calls generalizing it with
  | nil => exact ⟨[], it, rfl, rfl, nofun⟩
  | cons c calls ih =>
    obtain ⟨items, it', hrun, hdata, hwithin⟩ := @ih { it with entries := (advance it.entries c).2 }
    refine ⟨(advance it.entries c).1.map (fun e => SignatureVerifier.decodeEntry it.data e.val) :: items, it', ?_, hdata,
      fun e he => ?_⟩
    · simp only [run, call_eq, hrun, bind, Except.bind]
      rfl
    · rcases List.mem_cons.mp he with heq | hmem
      · obtain ⟨entry, -, hentry⟩ := Option.map_eq_some_iff.mp heq.symm
        exact within_of_decodeEntry hentry
      · exact hwithin e hmem

/-- Items come in order, and then there are none left. -/
theorem run_next (entries : List (Bytes entrySize)) (data : List Byte) :
    run ⟨entries, data⟩ (List.replicate (entries.length + 1) .next) =
      .ok (entries.map (fun e => some (SignatureVerifier.decodeEntry data e.val)) ++ [none], ⟨[], data⟩) := by
  induction entries with
  | nil => rfl
  | cons entry entries ih =>
    rw [List.length_cons, List.replicate_succ, run, call_eq]
    simp only [bind, Except.bind, advance, List.tail_cons, ih]
    rfl

end Iter

section

variable {count : Nat} {q : Packed} {o : SignatureOffsets} {entry : Entry}

theorem getArray_at {payload part : List Byte} {offset n : Nat} (hcount : q.offsets.length = count)
    (h : Packed.At count payload offset part) (hpart : part.length = n) :
    SignatureVerifier.getArray n (q.header count ++ payload) offset = some ⟨part, hpart⟩ := by
  obtain ⟨before, ⟨rest, hrest⟩, rfl⟩ := h
  have hlen : (q.header count ++ before).length = base count + before.length := by
    rw [List.length_append, Packed.length_header, hcount]
  have hdrop : (q.header count ++ payload).drop (base count + before.length) = part ++ rest := by
    rw [← hrest, ← List.append_assoc, ← List.append_assoc, List.append_assoc _ part, List.drop_left' hlen]
  have hle : base count + before.length ≤ (q.header count ++ payload).length := by
    rw [← hlen, ← hrest]
    simp only [List.length_append]
    omega
  unfold SignatureVerifier.getArray
  rw [dif_pos ⟨hle, by rw [hdrop, List.length_append]; omega⟩]
  simp only [hdrop, List.take_left' hpart]

theorem decodeEntry_describes (hcount : q.offsets.length = count) (hlen : base count + q.payload.length < 2 ^ 16)
    (h : Packed.Describes count q.payload o entry) :
    SignatureVerifier.decodeEntry (q.header count ++ q.payload) o.bytes = .ok entry := by
  have hfield : ∀ i n, o.fields[i]? = some n → n < 2 ^ 16 → ofLeBytes (slice o.bytes (2 * i) 2) = n := by
    intro i n hi hn
    rw [o.slice_bytes hi, ofLeBytes_leBytes hn]
  have hsignature := h.signature.add_length_le
  have hpubkey := h.pubkey.add_length_le
  have hmessage := h.message.add_length_le
  have hsize : ofLeBytes (slice o.bytes (2 * 5) 2) = o.messageDataSize := hfield 5 _ rfl (by rw [h.size]; omega)
  have hown : ¬ (ofLeBytes (slice o.bytes (2 * 1) 2) ≠ 2 ^ 16 - 1 ∨ ofLeBytes (slice o.bytes (2 * 3) 2) ≠ 2 ^ 16 - 1 ∨
      ofLeBytes (slice o.bytes (2 * 6) 2) ≠ 2 ^ 16 - 1) := by
    rw [hfield 1 _ rfl (by rw [h.own.1]; decide), hfield 3 _ rfl (by rw [h.own.2.1]; decide),
      hfield 6 _ rfl (by rw [h.own.2.2]; decide)]
    simp [h.own]
  have hsignature' := getArray_at hcount h.signature entry.signature.property
  have hpubkey' := getArray_at hcount h.pubkey entry.pubkey.property
  have hmessage' := getArray_at hcount h.message (h.size.symm.trans hsize.symm)
  rw [← hfield 0 _ rfl (by omega)] at hsignature'
  rw [← hfield 2 _ rfl (by omega)] at hpubkey'
  rw [← hfield 4 _ rfl (by omega)] at hmessage'
  unfold SignatureVerifier.decodeEntry
  simp only [if_neg hown]
  rw [hsignature', hpubkey', hmessage']

theorem parseData_written {entries : List Entry} (hcount : entries.length < 2 ^ 8)
    (hgood : Packed.Good entries.length q entries) (hlen : base entries.length + q.payload.length < 2 ^ 16) :
    SignatureVerifier.parseData (q.header entries.length ++ q.payload) = some (entries.map .ok) := by
  have hoffsets := hgood.length_eq
  have hsize : ∀ r ∈ q.offsets.map SignatureOffsets.bytes, r.length = entrySize := by
    intro r hr
    obtain ⟨o, -, rfl⟩ := List.mem_map.mp hr
    exact o.length_bytes
  have hflat : (q.offsets.flatMap SignatureOffsets.bytes).length = entrySize * entries.length := by
    rw [List.flatMap_def, length_flatten hsize, List.length_map, hoffsets]
  have hnum : (BitVec.ofNat 8 entries.length).toNat = entries.length := by
    rw [BitVec.toNat_ofNat, Nat.mod_eq_of_lt hcount]
  have hle : entries.length ≤ (q.offsets.flatMap SignatureOffsets.bytes ++ q.payload).length / entrySize := by
    rw [Nat.le_div_iff_mul_le (by decide), List.length_append, hflat, Nat.mul_comm]
    exact Nat.le_add_right _ _
  have hchunks : (asChunks 14 (q.offsets.flatMap SignatureOffsets.bytes ++ q.payload)).take entries.length =
      q.offsets.map SignatureOffsets.bytes := by
    have hrecords := records_flatten hsize
    rw [List.length_map, hoffsets, ← List.flatMap_def] at hrecords
    rw [asChunks, take_records, show (14 : Nat) = entrySize from rfl, Nat.min_eq_left hle, records_append_left (by rw [hflat, Nat.zero_add])]
    exact hrecords
  have hdata : q.header entries.length ++ q.payload = BitVec.ofNat 8 entries.length :: 0#8 ::
      (q.offsets.flatMap SignatureOffsets.bytes ++ q.payload) := rfl
  have hdecode : (q.offsets.map SignatureOffsets.bytes).map
      (SignatureVerifier.decodeEntry (q.header entries.length ++ q.payload)) = entries.map .ok := by
    rw [List.map_map]
    rw [← List.forall₂_eq_eq_eq, List.forall₂_map_left_iff, List.forall₂_map_right_iff]
    exact hgood.describes.imp fun o e ho => decodeEntry_describes hoffsets hlen ho
  rw [← hdecode, ← hchunks, hdata]
  simp only [SignatureVerifier.parseData, hnum]
  rw [if_pos (by rw [asChunks, length_records]; exact hle)]

/-- Where the message of given index is, according to the instruction. -/
def messageOffset (data : List Byte) (i : Nat) : Nat := ofLeBytes (slice data (2 + entrySize * i + 8) 2)

theorem messageOffset_written {i : Nat} {payload : List Byte} (ho : q.offsets[i]? = some o)
    (hlt : o.messageDataOffset < 2 ^ 16) : messageOffset (q.header count ++ payload) i = o.messageDataOffset := by
  have hle : 2 + entrySize * i + entrySize ≤ (q.header count).length := Packed.record_le ho
  have hslice : slice (q.header count) (2 + entrySize * i) entrySize = o.bytes := Packed.slice_header ho
  rw [messageOffset, slice_append_left (by simp only [entrySize] at hle ⊢; omega),
    ← slice_slice (n := entrySize) (by decide), hslice]
  exact (congrArg ofLeBytes (o.slice_bytes (i := 4) rfl)).trans (ofLeBytes_leBytes hlt)

theorem messageOffset_shared {entries : List Entry} (hgood : Packed.Good entries.length q entries)
    (hlen : base entries.length + q.payload.length < 2 ^ 16) {i j : Nat} (h : Packed.sharedWith entries i j) :
    messageOffset (q.header entries.length ++ q.payload) i = messageOffset (q.header entries.length ++ q.payload) j := by
  have hshares := hgood.shares i j h
  obtain ⟨entry, hentry, hfind⟩ := h
  have hi := (List.getElem?_eq_some_iff.mp hentry).1
  have hj : j < i := by
    have hlt := (List.findIdx?_eq_some_iff_getElem.mp hfind).1
    rw [List.length_take] at hlt
    omega
  have hread : ∀ k (hk : k < q.offsets.length),
      messageOffset (q.header entries.length ++ q.payload) k = q.offsets[k].messageDataOffset := by
    intro k hk
    obtain ⟨e, -, he⟩ := hgood.exists_entry (List.getElem_mem hk)
    have hle := he.message.add_length_le
    exact messageOffset_written (List.getElem?_eq_getElem hk) (by omega)
  have hoffsets := hgood.length_eq
  rw [hread i (by omega), hread j (by omega)]
  rw [List.getElem?_eq_getElem (by omega), List.getElem?_eq_getElem (by omega)] at hshares
  exact Option.some.inj hshares

end

/-- Writing never fails; an instruction results if the number of entries is a byte and all of them, with no message
shared, take less than 64 KiB. -/
theorem newInstruction_isSome (spare : Nat) (entries : List Entry) :
    ∃ out, newInstruction spare entries = .ok out ∧ (out.isSome ↔ entries.length < 2 ^ 8 ∧
      2 + (entrySize + 64 + 32) * entries.length + (entries.map (·.message.length)).sum < 2 ^ 16) := by
  rw [capacity_sum]
  by_cases hcount : entries.length < 2 ^ 8
  · cases hroom : capacity entries with
    | none =>
      refine ⟨none, by rw [newInstruction, if_pos hcount, hroom], nofun, fun hsmall => ?_⟩
      have hfits := (capacity_eq hcount).mpr ⟨rfl, hsmall.2⟩
      rw [hroom] at hfits
      cases hfits
    | some room =>
      obtain ⟨rfl, hsmall⟩ := (capacity_eq hcount).mp hroom
      obtain ⟨q, -, -, hix⟩ := newInstruction_eq spare hcount hroom
      exact ⟨_, hix, fun _ => ⟨hcount, hsmall⟩, fun _ => rfl⟩
  · exact ⟨none, if_neg hcount, nofun, fun h => absurd h.1 hcount⟩

/-- Writing never fails, whatever room there is to spare, and gives an instruction exactly for entries which fit;
entries are read back in order, with one copy of messages which are shared; what is read from any data lies in it. -/
theorem instruction_round_trip :
    (∀ spare entries, ∃ out, newInstruction spare entries = .ok out ∧ (out.isSome ↔ entries.length < 2 ^ 8 ∧
      2 + (entrySize + 64 + 32) * entries.length + (entries.map (·.message.length)).sum < 2 ^ 16)) ∧
    (∀ spare entries ix, newInstruction spare entries = .ok (some ix) →
      (∀ i j, Packed.sharedWith entries i j → messageOffset ix.data i = messageOffset ix.data j) ∧
      ∃ it, parseData ix.data = .ok (some it) ∧ it.run (List.replicate (entries.length + 1) .next) =
        .ok (entries.map (fun entry => some (.ok entry)) ++ [none], ⟨[], ix.data⟩)) ∧
    ∀ data, ∃ out, parseData data = .ok out ∧ ∀ it, out = some it → ∀ calls, ∃ items it',
      it.run calls = .ok (items, it') ∧ (∀ entry, some (.ok entry) ∈ items → Iter.Within data entry) ∧
      ∃ item, it'.last = .ok item ∧ ∀ entry, item = some (.ok entry) → Iter.Within data entry := by
  refine ⟨newInstruction_isSome, fun spare entries ix h => ?_, fun data => ?_⟩
  · have hcount : entries.length < 2 ^ 8 := by
      by_contra hcount
      rw [newInstruction, if_neg hcount] at h
      cases h
    cases hroom : capacity entries with
    | none =>
      rw [newInstruction, if_pos hcount, hroom] at h
      cases h
    | some room =>
      obtain ⟨q, hgood, hlen, hix⟩ := newInstruction_eq spare hcount hroom
      cases hix.symm.trans h
      refine ⟨fun i j hshared => messageOffset_shared hgood hlen hshared, ?_⟩
      obtain ⟨it, hparse, hdata, hitems⟩ := parseData_eq (q.header entries.length ++ q.payload)
      rw [parseData_written hcount hgood hlen] at hitems
      obtain ⟨⟨chunks, data⟩, rfl, hmap⟩ := Option.map_eq_some_iff.mp hitems
      obtain rfl : data = q.header entries.length ++ q.payload := hdata _ rfl
      refine ⟨_, hparse, ?_⟩
      have hchunks : chunks.length = entries.length := by
        simpa using congrArg List.length hmap
      have hsome := congrArg (List.map some) hmap
      rw [List.map_map, List.map_map] at hsome
      have hrun := Iter.run_next chunks (q.header entries.length ++ q.payload)
      rw [hchunks] at hrun
      exact hrun.trans (congrArg (fun items => Except.ok (items ++ [none], _)) hsome)
  · obtain ⟨it, hparse, hdata, -⟩ := parseData_eq data
    refine ⟨it, hparse, ?_⟩
    rintro i rfl calls
    obtain ⟨items, i', hrun, hi', hwithin⟩ := @Iter.run_spec i calls
    rw [hdata i rfl] at hi' hwithin
    refine ⟨items, i', hrun, hwithin, _, Iter.last_eq, fun entry hentry => ?_⟩
    obtain ⟨e, -, he⟩ := Option.map_eq_some_iff.mp hentry
    rw [hi'] at he
    exact Iter.within_of_decodeEntry he

theorem signature_size (b : Byte) : (List.replicate 64 b).length = 64 := List.length_replicate

theorem pubkey_size (b : Byte) : (List.replicate 32 b).length = 32 := List.length_replicate

def sampleEntry (b : Byte) (message : List Byte) : Entry :=
  ⟨⟨List.replicate 64 b, signature_size b⟩, ⟨List.replicate 32 b, pubkey_size b⟩, message⟩

/-- Two entries with one message, one with the start of it, and one with a message of its own. -/
def sampleEntries : List Entry :=
  [sampleEntry 1#8 [1#8, 2#8, 3#8], sampleEntry 2#8 [1#8, 2#8, 3#8], sampleEntry 3#8 [1#8, 2#8], sampleEntry 4#8 [7#8]]

theorem instruction_round_trip_sample :
    ∃ ix it, newInstruction 5 sampleEntries = .ok (some ix) ∧
      messageOffset ix.data 1 = messageOffset ix.data 0 ∧ messageOffset ix.data 2 = messageOffset ix.data 0 ∧
      parseData ix.data = .ok (some it) ∧ it.run (List.replicate 5 .next) =
        .ok (sampleEntries.map (fun entry => some (.ok entry)) ++ [none], ⟨[], ix.data⟩) := by
  obtain ⟨out, hout, hsome⟩ := instruction_round_trip.1 5 sampleEntries
  obtain ⟨ix, rfl⟩ := Option.isSome_iff_exists.mp (hsome.mpr (by decide))
  obtain ⟨hshared, it, hparse, hrun⟩ := instruction_round_trip.2.1 5 sampleEntries ix hout
  have hsame : Packed.sharedWith sampleEntries 1 0 := ⟨_, rfl, by decide⟩
  have hprefix : Packed.sharedWith sampleEntries 2 0 := ⟨_, rfl, by decide⟩
  exact ⟨ix, it, hout, hshared 1 0 hsame, hshared 2 0 hprefix, hparse, hrun⟩

end Ed25519Program
