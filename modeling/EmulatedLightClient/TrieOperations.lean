import EmulatedLightClient.Nodes
import EmulatedLightClient.Readers

/-!
# Instruction data of the witnessed trie

An instruction names the trie by a seed with a bump and lists the operations to perform, without saying how
many there are. Parsing borrows from the bytes, so that there are two types of instruction data, one of which
bounds the length of the seed.
-/

namespace WitnessedTrie

open ByteBits Nodes Readers

inductive ParseError where
  | seedTooLong (len : Nat)
  | invalidDataAccountsCount (count : Byte)
  | invalidOperation (tag : Byte)
  | dataTooShort (expected left : Nat)
  deriving DecidableEq

/-- How parsing ends without a value. -/
inductive Fault where
  | parse (e : ParseError)
  | panic
  deriving DecidableEq

abbrev Parser (α : Type) := Reader Fault Byte α

/-- Both ends of a slice; the missing value is a panic. -/
def splitAt (n : Nat) (data : List Byte) : Option (List Byte × List Byte) :=
  if n ≤ data.length then some (data.take n, data.drop n) else none

/-- The first `n` bytes, as an array. -/
def take (n : Nat) : Parser (List Byte) := fun data =>
  match splitAt n data with
  | some (head, tail) => .ok (head, tail)
  | none => .error (.parse (.dataTooShort n data.length))

/-- The first `n` bytes, as a slice. -/
def takeSlice (n : Nat) : Parser (List Byte) := fun data =>
  if data.length ≥ n then
    match splitAt n data with
    | some (head, tail) => .ok (head, tail)
    | none => .error .panic
  else .error (.parse (.dataTooShort n data.length))

/-- The only byte of an array of one. -/
def takeByte : Parser Byte := do
  let bytes ← take 1
  Reader.ofOption .panic bytes[0]?

def takeHash : Parser CryptoHash := do
  let bytes ← take 32
  Reader.ofOption .panic (CryptoHash.tryFrom bytes)

/-- An operation that the smart contract can perform on the trie. -/
inductive Op where
  | set (key : List Byte) (hash : CryptoHash)
  | del (key : List Byte)
  | seal (key : List Byte)
  deriving DecidableEq

/-- The same with buffers of its own. -/
inductive OwnedOp where
  | set (key : List Byte) (hash : CryptoHash)
  | del (key : List Byte)
  | seal (key : List Byte)
  deriving DecidableEq

inductive OpDiscriminants where
  | set
  | del
  | seal

/-- Variants are numbered in the order in which they are declared. -/
def OpDiscriminants.fromRepr (tag : Byte) : Option OpDiscriminants :=
  if tag = 0#8 then some .set else if tag = 1#8 then some .del else if tag = 2#8 then some .seal else none

namespace Op

def fromSlice : Parser Op := do
  let tag ← takeByte
  let discriminant ← Reader.ofOption (.parse (.invalidOperation tag)) (OpDiscriminants.fromRepr tag)
  let len ← takeByte
  let key ← takeSlice len.toNat
  match discriminant with
  | .set => do
    let hash ← takeHash
    return .set key hash
  | .del => return .del key
  | .seal => return .seal key

def toOwned : Op → OwnedOp
  | .set key hash => .set key hash
  | .del key => .del key
  | .seal key => .seal key

/-- Returns key that this operation affects. -/
def key : Op → List Byte
  | .set key _ => key
  | .del key => key
  | .seal key => key

end Op

namespace OwnedOp

def encodedLen : OwnedOp → Nat
  | .set key _ => 2 + (key.length + 32)
  | .del key => 2 + key.length
  | .seal key => 2 + key.length

/-- The tag, the key and the hash to write. -/
def fields : OwnedOp → Byte × List Byte × List Byte
  | .set key hash => (0#8, key, hash.bytes)
  | .del key => (1#8, key, [])
  | .seal key => (2#8, key, [])

/-- A length which does not fit in a byte is a panic. -/
def encodeInto (op : OwnedOp) (data : List Byte) : Option (List Byte) :=
  let (tag, key, hash) := op.fields
  if key.length < 2 ^ 8 then some (data ++ [tag] ++ [BitVec.ofNat 8 key.length] ++ key ++ hash) else none

def key (op : OwnedOp) : List Byte := op.fields.2.1

end OwnedOp

def maxSeedLen : Nat := 32

structure Data where
  rootSeed : List Byte
  rootBump : Byte
  ops : List Op
  deriving DecidableEq

structure OwnedData where
  rootSeed : List Byte
  rootBump : Byte
  ops : List OwnedOp
  seed_le : rootSeed.length ≤ maxSeedLen

def Data.toOwned (d : Data) : Except ParseError OwnedData :=
  if h : d.rootSeed.length ≤ maxSeedLen then .ok ⟨d.rootSeed, d.rootBump, d.ops.map Op.toOwned, h⟩
  else .error (.seedTooLong d.rootSeed.length)

namespace OwnedData

def capacity (d : OwnedData) : Nat := 4 + d.rootSeed.length + (d.ops.map OwnedOp.encodedLen).sum

/-- Serialises the data; the missing value is a panic. -/
def toVec (d : OwnedData) : Option (List Byte) :=
  d.ops.foldlM (fun data op => op.encodeInto data)
    ([BitVec.ofNat 8 d.rootSeed.length] ++ d.rootSeed ++ [d.rootBump] ++ [1#8])

end OwnedData

theorem take_eq (n : Nat) (data : List Byte) :
    take n data = Reader.take (.parse (.dataTooShort n data.length)) n data := by
  unfold take splitAt Reader.take
  by_cases h : n ≤ data.length
  · simp only [h, if_true]
  · simp only [h, if_false]

theorem takeSlice_eq (n : Nat) : takeSlice n = take n := by
  funext data
  unfold takeSlice take splitAt
  by_cases h : n ≤ data.length
  · simp only [ge_iff_le, h, if_true]
  · simp only [ge_iff_le, h, if_false]

theorem take_eq_ok {n : Nat} {data bytes rest : List Byte} :
    take n data = .ok (bytes, rest) ↔ bytes.length = n ∧ data = bytes ++ rest := by
  rw [take_eq, Reader.take_eq_ok]

theorem takeByte_eq_ok {b : Byte} {data rest : List Byte} : takeByte data = .ok (b, rest) ↔ data = b :: rest := by
  simp only [takeByte, Reader.bind_eq_ok, take_eq_ok, Reader.ofOption_eq_ok]
  constructor
  · rintro ⟨bytes, mid, ⟨hlen, rfl⟩, hb, rfl⟩
    obtain ⟨c, rfl⟩ := List.length_eq_one_iff.mp hlen
    cases hb
    rfl
  · rintro rfl
    exact ⟨[b], rest, ⟨rfl, rfl⟩, rfl, rfl⟩

theorem takeHash_eq_ok {hash : CryptoHash} {data rest : List Byte} :
    takeHash data = .ok (hash, rest) ↔ data = hash.bytes ++ rest := by
  simp only [takeHash, Reader.bind_eq_ok, take_eq_ok, Reader.ofOption_eq_ok]
  constructor
  · rintro ⟨bytes, mid, ⟨hlen, rfl⟩, hhash, rfl⟩
    rw [CryptoHash.bytes_of_tryFrom hhash]
  · rintro rfl
    exact ⟨hash.bytes, rest, ⟨hash.size, rfl⟩, CryptoHash.tryFrom_bytes hash, rfl⟩

namespace Op

/-- What is appended for the operation, if its key is short enough. -/
def layout (op : Op) : List Byte :=
  let (tag, key, hash) := op.toOwned.fields
  tag :: BitVec.ofNat 8 key.length :: (key ++ hash)

theorem encodeInto_toOwned (op : Op) (data : List Byte) :
    op.toOwned.encodeInto data = if op.key.length < 2 ^ 8 then some (data ++ op.layout) else none := by
  have hlayout : ∀ tag len key hash, data ++ [tag] ++ [len] ++ key ++ hash = data ++ (tag :: len :: (key ++ hash)) := by
    simp
  cases op <;> exact congrArg (if _ < 2 ^ 8 then some · else none) (hlayout _ _ _ _)

theorem toNat_length {key : List Byte} (h : key.length < 2 ^ 8) : (BitVec.ofNat 8 key.length).toNat = key.length := by
  rw [BitVec.toNat_ofNat, Nat.mod_eq_of_lt h]

theorem ofNat_toNat {key : List Byte} {len : Byte} (h : key.length = len.toNat) : BitVec.ofNat 8 key.length = len := by
  rw [h, BitVec.ofNat_toNat, BitVec.setWidth_eq]

/-- Behind its first byte an operation of given kind reads back as what was written. -/
theorem fromSlice_reads : Reader.Reads fromSlice (fun op => op.key.length < 2 ^ 8) layout := by
  intro data op rest
  simp only [fromSlice, Reader.bind_eq_ok, takeByte_eq_ok, takeSlice_eq, take_eq_ok, Reader.ofOption_eq_ok]
  constructor
  · rintro ⟨tag, mid, rfl, discriminant, mid, ⟨htag, rfl⟩, len, mid, rfl, key, mid, ⟨hlen, rfl⟩, h⟩
    have hlt : key.length < 2 ^ 8 := hlen ▸ len.isLt
    cases discriminant with
    | set =>
      simp only [Reader.bind_eq_ok, takeHash_eq_ok, Reader.pure_eq_ok] at h
      obtain ⟨hash, mid, rfl, rfl, rfl⟩ := h
      have h0 : tag = 0#8 := by unfold OpDiscriminants.fromRepr at htag; grind
      refine ⟨hlt, ?_⟩
      simp [layout, toOwned, OwnedOp.fields, ofNat_toNat hlen, h0]
    | del =>
      obtain ⟨rfl, rfl⟩ := Reader.pure_eq_ok.mp h
      have h1 : tag = 1#8 := by unfold OpDiscriminants.fromRepr at htag; grind
      refine ⟨hlt, ?_⟩
      simp [layout, toOwned, OwnedOp.fields, ofNat_toNat hlen, h1]
    | «seal» =>
      obtain ⟨rfl, rfl⟩ := Reader.pure_eq_ok.mp h
      have h2 : tag = 2#8 := by unfold OpDiscriminants.fromRepr at htag; grind
      refine ⟨hlt, ?_⟩
      simp [layout, toOwned, OwnedOp.fields, ofNat_toNat hlen, h2]
  · rintro ⟨hlt, rfl⟩
    cases op with
    | set key hash =>
      refine ⟨0#8, _, rfl, .set, _, ⟨rfl, rfl⟩, BitVec.ofNat 8 key.length, _, rfl, key, hash.bytes ++ rest,
        ⟨(toNat_length hlt).symm, List.append_assoc ..⟩, ?_⟩
      simp only [Reader.bind_eq_ok, takeHash_eq_ok, Reader.pure_eq_ok]
      exact ⟨hash, rest, rfl, rfl, rfl⟩
    | del key =>
      exact ⟨1#8, _, rfl, .del, _, ⟨rfl, rfl⟩, BitVec.ofNat 8 key.length, _, rfl, key, rest,
        ⟨(toNat_length hlt).symm, congrArg (· ++ rest) (List.append_nil key)⟩, rfl⟩
    | «seal» key =>
      exact ⟨2#8, _, rfl, .seal, _, ⟨rfl, rfl⟩, BitVec.ofNat 8 key.length, _, rfl, key, rest,
        ⟨(toNat_length hlt).symm, congrArg (· ++ rest) (List.append_nil key)⟩, rfl⟩

theorem fromSlice_shortens : Reader.Shortens fromSlice := fromSlice_reads.shortens fun _ => List.cons_ne_nil _ _

end Op

/-- What comes in front of the operations. -/
def Data.header : Parser (List Byte × Byte) := do
  let rootSeedLen ← takeByte
  if rootSeedLen.toNat > maxSeedLen then throw (.parse (.seedTooLong rootSeedLen.toNat))
  else
    let rootSeed ← takeSlice rootSeedLen.toNat
    let rootBump ← takeByte
    let dataAccounts ← takeByte
    if dataAccounts ≠ 1#8 then throw (.parse (.invalidDataAccountsCount dataAccounts))
    else return (rootSeed, rootBump)

/-- Parses the instruction data. -/
def Data.fromSlice (data : List Byte) : Except Fault Data := do
  let ((rootSeed, rootBump), data) ← header data
  let ops ← Reader.toEnd Op.fromSlice Op.fromSlice_shortens data
  return ⟨rootSeed, rootBump, ops⟩

theorem avoids_take (n : Nat) : Reader.Avoids .panic (take n) := by
  intro data
  unfold take
  split <;> nofun

theorem takeByte_ne_panic : Reader.Avoids .panic takeByte := by
  refine (avoids_take 1).bind fun bytes data rest h => ?_
  obtain ⟨b, rfl⟩ := List.length_eq_one_iff.mp (take_eq_ok.mp h).1
  nofun

theorem takeHash_ne_panic : Reader.Avoids .panic takeHash := by
  refine (avoids_take 32).bind fun bytes data rest h => ?_
  rw [CryptoHash.tryFrom, dif_pos (take_eq_ok.mp h).1]
  nofun

theorem Op.fromSlice_ne_panic : Reader.Avoids .panic Op.fromSlice := by
  refine takeByte_ne_panic.bind_all fun tag => ?_
  have htag : Fault.parse (.invalidOperation tag) ≠ .panic := nofun
  refine (Reader.avoids_ofOption htag).bind_all fun discriminant => ?_
  refine takeByte_ne_panic.bind_all fun len => ?_
  rw [takeSlice_eq]
  refine (avoids_take len.toNat).bind_all fun key => ?_
  cases discriminant with
  | set => exact takeHash_ne_panic.bind_all fun hash => Reader.avoids_pure _
  | del => exact Reader.avoids_pure _
  | «seal» => exact Reader.avoids_pure _

theorem Data.header_ne_panic : Reader.Avoids .panic Data.header := by
  refine takeByte_ne_panic.bind_all fun len => ?_
  split
  · exact Reader.avoids_throw nofun
  · rw [takeSlice_eq]
    refine (avoids_take len.toNat).bind_all fun seed => ?_
    refine takeByte_ne_panic.bind_all fun bump => ?_
    refine takeByte_ne_panic.bind_all fun accounts => ?_
    split
    · exact Reader.avoids_throw nofun
    · exact Reader.avoids_pure _

theorem Data.fromSlice_ne_panic (data : List Byte) : Data.fromSlice data ≠ .error .panic := by
  intro h
  unfold Data.fromSlice at h
  cases hheader : Data.header data with
  | error e =>
    rw [hheader] at h
    cases h
    exact Data.header_ne_panic data hheader
  | ok r =>
    rw [hheader] at h
    cases hops : Reader.toEnd Op.fromSlice Op.fromSlice_shortens r.2 with
    | error e =>
      simp only [bind, Except.bind, hops] at h
      cases h
      exact Reader.avoids_toEnd Op.fromSlice_ne_panic r.2 hops
    | ok ops =>
      simp only [bind, Except.bind, hops] at h
      cases h

namespace Data

theorem header_eq_ok {data rest rootSeed : List Byte} {rootBump : Byte} :
    header data = .ok ((rootSeed, rootBump), rest) ↔ rootSeed.length ≤ maxSeedLen ∧
      data = [BitVec.ofNat 8 rootSeed.length] ++ rootSeed ++ [rootBump] ++ [1#8] ++ rest := by
  simp only [header, Reader.bind_eq_ok, takeByte_eq_ok, takeSlice_eq]
  constructor
  · rintro ⟨len, mid, rfl, h⟩
    split at h
    · cases h
    · rename_i hlen
      simp only [Reader.bind_eq_ok, take_eq_ok, takeByte_eq_ok] at h
      obtain ⟨seed, mid, ⟨hseed, rfl⟩, bump, mid, rfl, accounts, mid, rfl, h⟩ := h
      split at h
      · cases h
      · rename_i haccounts
        obtain ⟨heq, rfl⟩ := Reader.pure_eq_ok.mp h
        cases heq
        rw [not_not] at haccounts
        refine ⟨hseed ▸ Nat.le_of_not_gt hlen, ?_⟩
        simp [Op.ofNat_toNat hseed, haccounts]
  · rintro ⟨hlen, rfl⟩
    have hlt : rootSeed.length < 2 ^ 8 := Nat.lt_of_le_of_lt hlen (by decide)
    refine ⟨BitVec.ofNat 8 rootSeed.length, rootSeed ++ (rootBump :: 1#8 :: rest), by simp, ?_⟩
    rw [Op.toNat_length hlt, if_neg (Nat.not_lt.mpr hlen)]
    simp only [Reader.bind_eq_ok, take_eq_ok, takeByte_eq_ok]
    exact ⟨rootSeed, _, ⟨rfl, rfl⟩, rootBump, _, rfl, 1#8, rest, rfl, rfl⟩

/-- What is written for the data, if its keys are short enough. -/
def layout (d : Data) : List Byte :=
  [BitVec.ofNat 8 d.rootSeed.length] ++ d.rootSeed ++ [d.rootBump] ++ [1#8] ++ d.ops.flatMap Op.layout

theorem fromSlice_eq_ok {data : List Byte} {d : Data} :
    fromSlice data = .ok d ↔
      d.rootSeed.length ≤ maxSeedLen ∧ (∀ op ∈ d.ops, op.key.length < 2 ^ 8) ∧ data = d.layout := by
  constructor
  · intro h
    unfold fromSlice at h
    cases hheader : header data with
    | error e =>
      rw [hheader] at h
      cases h
    | ok r =>
      obtain ⟨⟨seed, bump⟩, rest⟩ := r
      simp only [hheader, bind, Except.bind] at h
      cases hops : Reader.toEnd Op.fromSlice Op.fromSlice_shortens rest with
      | error e =>
        rw [hops] at h
        cases h
      | ok ops =>
        rw [hops] at h
        cases h
        obtain ⟨hkeys, rfl⟩ := Op.fromSlice_reads.toEnd_eq_ok.mp hops
        obtain ⟨hseed, rfl⟩ := header_eq_ok.mp hheader
        exact ⟨hseed, hkeys, rfl⟩
  · rintro ⟨hseed, hkeys, rfl⟩
    have hops : Reader.toEnd Op.fromSlice Op.fromSlice_shortens (d.ops.flatMap Op.layout) = .ok d.ops :=
      Op.fromSlice_reads.toEnd_eq_ok.mpr ⟨hkeys, rfl⟩
    simp only [fromSlice, layout, header_eq_ok.mpr ⟨hseed, rfl⟩, bind, Except.bind, hops]
    rfl

end Data

theorem Op.encodeInto_many (ops : List Op) (data : List Byte) :
    (ops.map toOwned).foldlM (fun data op => op.encodeInto data) data =
      if ∀ op ∈ ops, op.key.length < 2 ^ 8 then some (data ++ ops.flatMap layout) else none := by
  induction ops generalizing data with
  | nil => simp
  | cons op ops ih =>
    rw [List.map_cons, List.foldlM_cons, encodeInto_toOwned]
    by_cases hkey : op.key.length < 2 ^ 8
    · rw [if_pos hkey, Option.bind_eq_bind, Option.bind_some, ih]
      simp only [List.forall_mem_cons, hkey, true_and, List.flatMap_cons, List.append_assoc]
    · rw [if_neg hkey, if_neg fun h => hkey (h op List.mem_cons_self)]
      rfl

/-- The operation with borrowed buffers. -/
def OwnedOp.borrow : OwnedOp → Op
  | .set key hash => .set key hash
  | .del key => .del key
  | .seal key => .seal key

@[simp]
theorem OwnedOp.toOwned_borrow (op : OwnedOp) : op.borrow.toOwned = op := by
  cases op <;> rfl

@[simp]
theorem OwnedOp.key_borrow (op : OwnedOp) : op.borrow.key = op.key := by
  cases op <;> rfl

theorem OwnedOp.length_of_encodeInto {op : OwnedOp} {data out : List Byte} (h : op.encodeInto data = some out) :
    out.length = data.length + op.encodedLen := by
  rw [← toOwned_borrow op, Op.encodeInto_toOwned] at h
  obtain ⟨-, h⟩ := Option.ite_none_right_eq_some.mp h
  cases h
  cases op <;> simp [borrow, Op.layout, Op.toOwned, fields, encodedLen, CryptoHash.size] <;> omega

theorem OwnedOp.length_of_encode_many {ops : List OwnedOp} {data out : List Byte}
    (h : ops.foldlM (fun data op => op.encodeInto data) data = some out) :
    out.length = data.length + (ops.map encodedLen).sum := by
  induction ops generalizing data with
  | nil =>
    cases h
    rfl
  | cons op ops ih =>
    rw [List.foldlM_cons, Option.bind_eq_bind, Option.bind_eq_some_iff] at h
    obtain ⟨mid, hmid, hout⟩ := h
    rw [ih hout, length_of_encodeInto hmid, List.map_cons, List.sum_cons, Nat.add_assoc]

namespace OwnedData

def borrow (d : OwnedData) : Data := ⟨d.rootSeed, d.rootBump, d.ops.map OwnedOp.borrow⟩

theorem toOwned_borrow (d : OwnedData) : d.borrow.toOwned = .ok d := by
  obtain ⟨seed, bump, ops, hseed⟩ := d
  have hops : (ops.map OwnedOp.borrow).map Op.toOwned = ops := by
    rw [List.map_map]
    exact List.map_id'' OwnedOp.toOwned_borrow ops
  simp only [Data.toOwned, borrow, hseed, hops, dif_pos]

theorem toVec_of_toOwned {data : Data} {d : OwnedData} (h : data.toOwned = .ok d) :
    d.toVec = if ∀ op ∈ data.ops, op.key.length < 2 ^ 8 then some data.layout else none := by
  unfold Data.toOwned at h
  split at h
  · cases h
    exact Op.encodeInto_many data.ops _
  · cases h

/-- The vector to write to is never too small, with one byte to spare. -/
theorem length_toVec {d : OwnedData} {bytes : List Byte} (h : d.toVec = some bytes) : bytes.length + 1 = d.capacity := by
  rw [OwnedOp.length_of_encode_many h, capacity]
  simp only [List.length_append, List.length_singleton]
  omega

end OwnedData

/-- Instruction data is parsed into what it was written from and written from what it was parsed into. -/
theorem instruction_data_exact :
    (∀ d : OwnedData, (∀ op ∈ d.ops, op.key.length ≤ 255) →
      ∃ bytes data, d.toVec = some bytes ∧ Data.fromSlice bytes = .ok data ∧ data.toOwned = .ok d) ∧
    (∀ bytes, Data.fromSlice bytes ≠ .error .panic) ∧
    ∀ bytes data, Data.fromSlice bytes = .ok data → ∃ d, data.toOwned = .ok d ∧ d.toVec = some bytes := by
  refine ⟨fun d hkeys => ?_, Data.fromSlice_ne_panic, fun bytes data h => ?_⟩
  · have hborrow : ∀ op ∈ d.borrow.ops, op.key.length < 2 ^ 8 := by
      intro op hop
      obtain ⟨owned, howned, rfl⟩ := List.mem_map.mp hop
      rw [OwnedOp.key_borrow]
      exact Nat.lt_succ_of_le (hkeys owned howned)
    have hvec := OwnedData.toVec_of_toOwned (OwnedData.toOwned_borrow d)
    rw [if_pos hborrow] at hvec
    exact ⟨d.borrow.layout, d.borrow, hvec, Data.fromSlice_eq_ok.mpr ⟨d.seed_le, hborrow, rfl⟩,
      OwnedData.toOwned_borrow d⟩
  · obtain ⟨hseed, hkeys, rfl⟩ := Data.fromSlice_eq_ok.mp h
    have howned : data.toOwned = .ok ⟨data.rootSeed, data.rootBump, data.ops.map Op.toOwned, hseed⟩ := dif_pos hseed
    refine ⟨_, howned, ?_⟩
    rw [OwnedData.toVec_of_toOwned howned, if_pos hkeys]

end WitnessedTrie
