import EmulatedLightClient.SignatureVerifier

/-!
# Instructions of the signature program

An instruction is written into memory which was not initialised, after room for it was made as if no message
was shared. Descriptors come first and point at signatures, keys and messages behind them. What parses it
believes none of the offsets.
-/

namespace Ed25519Program

open Buffers ByteBits MachineInts SignatureVerifier

/-- How the code may fail without returning. -/
inductive Fault where
  | panic
  | overflow
  | outOfBounds
  | uninit
  deriving DecidableEq

def orFault {α : Type} (e : Fault) : Option α → Except Fault α
  | some a => .ok a
  | none => .error e

def entrySize : Nat := 14

structure SignatureOffsets where
  signatureOffset : Nat
  signatureInstructionIndex : Nat
  publicKeyOffset : Nat
  publicKeyInstructionIndex : Nat
  messageDataOffset : Nat
  messageDataSize : Nat
  messageInstructionIndex : Nat
  deriving DecidableEq

namespace SignatureOffsets

def fields (o : SignatureOffsets) : List Nat :=
  [o.signatureOffset, o.signatureInstructionIndex, o.publicKeyOffset, o.publicKeyInstructionIndex,
    o.messageDataOffset, o.messageDataSize, o.messageInstructionIndex]

def bytes (o : SignatureOffsets) : List Byte := o.fields.flatMap (leBytes 2)

end SignatureOffsets

/-- Memory with bytes which may not have been written. -/
abbrev Buffer := List (Option Byte)

def addU16 (a b : Nat) : Except Fault Nat := orFault .overflow (checkedAdd 16 a b)

def assumeInit (bytes : Buffer) : Except Fault (List Byte) := orFault .uninit (bytes.mapM id)

/-- Copies to where the data starts; the data then starts behind it. -/
def memcpy (dst : Buffer) (data : Nat) (src : List Byte) : Except Fault (Buffer × Nat) :=
  if src.length ≤ dst.length - data then .ok (splice dst data (src.map some), data + src.length)
  else .error .outOfBounds

/-- Where the descriptor of given index is, out of so many. -/
def recordAt (count index : Nat) : Except Fault Nat :=
  if index < count then .ok (2 + entrySize * index) else .error .outOfBounds

structure Cursor where
  dst : Buffer
  data : Nat
  len : Nat

/-- Appends the message unless it is a prefix of one of those before. -/
def placeMessage (count : Nat) (done : List Entry) (message : List Byte) (c : Cursor) :
    Except Fault (Cursor × Nat) :=
  match done.findIdx? fun entry => message.isPrefixOf entry.message with
  | some pos => do
    let start ← recordAt count pos
    let offset ← assumeInit (slice c.dst (start + 8) 2)
    return (c, ofLeBytes offset)
  | none => do
    let (dst, data) ← memcpy c.dst c.data message
    let len ← addU16 c.len (message.length % 2 ^ 16)
    return (⟨dst, data, len⟩, c.len)

def writeEntry (count : Nat) (done : List Entry) (entry : Entry) (c : Cursor) : Except Fault Cursor := do
  let (c, messageDataOffset) ← placeMessage count done entry.message c
  let (dst, data) ← memcpy c.dst c.data entry.signature.val
  let (dst, data) ← memcpy dst data entry.pubkey.val
  let publicKeyOffset ← addU16 c.len 64
  let offsets : SignatureOffsets :=
    ⟨c.len, 2 ^ 16 - 1, publicKeyOffset, 2 ^ 16 - 1, messageDataOffset, entry.message.length % 2 ^ 16, 2 ^ 16 - 1⟩
  let start ← recordAt count done.length
  let len ← addU16 c.len (64 + 32)
  return ⟨splice dst start (offsets.bytes.map some), data, len⟩

/-- Entries which are left to write, after those which are done. -/
def writeEntries (count : Nat) (done : List Entry) : List Entry → Cursor → Except Fault Cursor
  | [], c => .ok c
  | entry :: entries, c => do
    let c ← writeEntry count done entry c
    writeEntries count (done ++ [entry]) entries c

/-- Writes the instruction data and returns how long it is. -/
def writeInstructionData (dst : Buffer) (entries : List Entry) : Except Fault (Buffer × Nat) := do
  let count := entries.length
  let len := 2 + count * entrySize
  if dst.length < len then throw .outOfBounds
  if (count, 0) ≠ ((len - 2) / entrySize, (len - 2) % entrySize) then throw .panic
  let dst := splice dst 0 [some (BitVec.ofNat 8 count), some 0#8]
  let c ← writeEntries count [] entries ⟨dst, len, len % 2 ^ 16⟩
  return (c.dst, c.len)

/-- The most the instruction may take. -/
def capacity (entries : List Entry) : Option Nat :=
  (entries.map (·.message.length)).foldlM
    (fun capacity len => if len < 2 ^ 16 then checkedAdd 16 capacity len else none)
    ((2 + (entrySize + 64 + 32) * entries.length) % 2 ^ 16)

/-- Creates the instruction in memory which may be larger than what was asked for. -/
def newInstruction (spare : Nat) (entries : List Entry) : Except Fault (Option Instruction) :=
  if entries.length < 2 ^ 8 then
    match capacity entries with
    | none => .ok none
    | some room => do
      let (dst, len) ← writeInstructionData (List.replicate (room + spare) none) entries
      if dst.length < len then throw .outOfBounds
      let data ← assumeInit (dst.take len)
      return some ⟨ed25519Program, data⟩
  else .ok none

/-- Both ends of a slice. -/
def splitAt (mid : Nat) (l : List Byte) : Except Fault (List Byte × List Byte) :=
  if mid ≤ l.length then .ok (l.take mid, l.drop mid) else .error .outOfBounds

def toArray (n : Nat) (l : List Byte) : Except Fault (Bytes n) :=
  if h : l.length = n then .ok ⟨l, h⟩ else .error .panic

/-- The first elements as an array, if there are enough. -/
def splitArray (n : Nat) (l : List Byte) : Except Fault (Option (Bytes n × List Byte)) :=
  if n ≤ l.length then do
    let (head, tail) ← splitAt n l
    let head ← toArray n head
    return some (head, tail)
  else .ok none

/-- Whole arrays and what is left behind them. -/
def splitChunks (n : Nat) (l : List Byte) : Except Fault (List (Bytes n) × List Byte) := do
  let len := l.length / n
  let (head, tail) ← splitAt (len * n) l
  let chunks ← (records head 0 n len).mapM (toArray n)
  return (chunks, tail)

/-- The rest of a slice from an index which may be out of it. -/
def getFrom (l : List Byte) (start : Nat) : Option (List Byte) := if start ≤ l.length then some (l.drop start) else none

def getTo {α : Type} (l : List α) (len : Nat) : Option (List α) := if len ≤ l.length then some (l.take len) else none

def getArray (n : Nat) (data : List Byte) (offset : Nat) : Except Fault (Option (Bytes n)) :=
  match getFrom data offset with
  | none => .ok none
  | some data => do
    let parts ← splitArray n data
    return parts.map (·.1)

abbrev Item := Except EntryError Entry

def decodeEntry (data : List Byte) (entry : Bytes entrySize) : Except Fault Item := do
  let field := fun i => ofLeBytes (slice entry.val (2 * i) 2)
  if field 1 ≠ 2 ^ 16 - 1 ∨ field 3 ≠ 2 ^ 16 - 1 ∨ field 6 ≠ 2 ^ 16 - 1 then return .error .unsupportedFeature
  else
    let some signature ← getArray 64 data (field 0) | return .error .badData
    let some pubkey ← getArray 32 data (field 2) | return .error .badData
    let some message := (getFrom data (field 4)).bind (getTo · (field 5)) | return .error .badData
    return .ok ⟨signature, pubkey, message⟩

/-- Descriptors which are left to decode. -/
structure Iter where
  entries : List (Bytes entrySize)
  data : List Byte

/-- The missing value is malformed data. -/
def parseData (data : List Byte) : Except Fault (Option Iter) := do
  let parts ← splitArray 2 data
  match parts with
  | some (⟨[count, 0#8], _⟩, rest) => do
    let (chunks, _) ← splitChunks entrySize rest
    return (getTo chunks count.toNat).map (⟨·, data⟩)
  | _ => return none

namespace Iter

/-- The methods which leave an iterator behind. -/
inductive Call where
  | next
  | nth (n : Nat)
  | nextBack
  | nthBack (n : Nat)
  deriving DecidableEq

/-- The descriptor to decode and those left. -/
def advance (entries : List (Bytes entrySize)) : Call → Option (Bytes entrySize) × List (Bytes entrySize)
  | .next => (entries.head?, entries.tail)
  | .nth n => (entries[n]?, entries.drop (n + 1))
  | .nextBack => (entries.getLast?, entries.dropLast)
  | .nthBack n => (entries.reverse[n]?, (entries.reverse.drop (n + 1)).reverse)

def decode (it : Iter) : Option (Bytes entrySize) → Except Fault (Option Item)
  | none => .ok none
  | some entry => do
    let item ← decodeEntry it.data entry
    return some item

def call (it : Iter) (c : Call) : Except Fault (Option Item × Iter) := do
  let (entry, entries) := advance it.entries c
  let item ← it.decode entry
  return (item, { it with entries })

def last (it : Iter) : Except Fault (Option Item) := it.decode it.entries.getLast?

def len (it : Iter) : Nat := it.entries.length

/-- What the calls return, one after the other. -/
def run (it : Iter) : List Call → Except Fault (List (Option Item) × Iter)
  | [] => .ok ([], it)
  | c :: calls => do
    let (item, it) ← it.call c
    let (items, it) ← it.run calls
    return (item :: items, it)

end Iter

theorem assumeInit_map (bytes : List Byte) : assumeInit (bytes.map some) = .ok bytes := by
  have hbytes : (bytes.map some).mapM id = some bytes := by
    induction bytes with
    | nil => rfl
    | cons b bytes ih => simp [ih]
  rw [assumeInit, hbytes]
  rfl

@[simp]
theorem SignatureOffsets.length_bytes (o : SignatureOffsets) : o.bytes.length = entrySize := rfl

theorem SignatureOffsets.slice_bytes (o : SignatureOffsets) {i n : Nat} (hi : o.fields[i]? = some n) :
    slice o.bytes (2 * i) 2 = leBytes 2 n := by
  rw [bytes, List.flatMap_def]
  refine slice_flatten (fun r hr => ?_) (by rw [List.getElem?_map, hi, Option.map_some])
  obtain ⟨m, -, rfl⟩ := List.mem_map.mp hr
  exact length_leBytes 2 m

/-- Copying to where nothing was written yet. -/
theorem memcpy_eq {front : Buffer} {room : Nat} {src : List Byte} (h : src.length ≤ room) :
    memcpy (front ++ List.replicate room none) front.length src =
      .ok (front ++ src.map some ++ List.replicate (room - src.length) none, (front ++ src.map some).length) := by
  have hrest : List.replicate room none = List.replicate src.length (none : Option Byte) ++
      List.replicate (room - src.length) none := by
    rw [List.replicate_append_replicate, Nat.add_sub_cancel' h]
  have hsplice : splice (front ++ List.replicate room none) front.length (src.map some) =
      front ++ src.map some ++ List.replicate (room - src.length) none := by
    rw [hrest, ← List.append_assoc, splice_append_mid rfl (by rw [List.length_map, List.length_replicate])]
  rw [memcpy, if_pos (by simpa using h), hsplice, List.length_append, List.length_map]

theorem addU16_eq {a b : Nat} (h : a + b < 2 ^ 16) : addU16 a b = .ok (a + b) := by
  rw [addU16, checkedAdd, if_pos h]
  rfl

theorem recordAt_eq {count index : Nat} (h : index < count) : recordAt count index = .ok (2 + entrySize * index) :=
  if_pos h

/-- The descriptors written so far and the bytes they point at. -/
structure Packed where
  offsets : List SignatureOffsets
  payload : List Byte

def base (count : Nat) : Nat := 2 + entrySize * count

namespace Packed

def header (p : Packed) (count : Nat) : List Byte :=
  [BitVec.ofNat 8 count, 0#8] ++ p.offsets.flatMap SignatureOffsets.bytes

/-- What is in front of the payload, with space for descriptors which are missing. -/
def front (p : Packed) (count : Nat) : Buffer :=
  (p.header count).map some ++ List.replicate (entrySize * (count - p.offsets.length)) none

/-- The memory while the descriptors are being written. -/
def cursor (p : Packed) (count room : Nat) : Cursor where
  dst := p.front count ++ p.payload.map some ++ List.replicate (room - p.payload.length) none
  data := base count + p.payload.length
  len := base count + p.payload.length

/-- Where the message is to be found, if it does not have to be written. -/
def shared (p : Packed) (done : List Entry) (message : List Byte) : Option Nat :=
  (done.findIdx? fun entry => message.isPrefixOf entry.message).bind fun pos =>
    p.offsets[pos]?.map (·.messageDataOffset)

def append (p : Packed) (bytes : List Byte) : Packed := { p with payload := p.payload ++ bytes }

/-- What is there after the message was placed, and where it is. -/
def place (p : Packed) (count : Nat) (done : List Entry) (message : List Byte) : Packed × Nat :=
  match p.shared done message with
  | some offset => (p, offset)
  | none => (p.append message, base count + p.payload.length)

def add (p : Packed) (count : Nat) (done : List Entry) (entry : Entry) : Packed :=
  let (p, messageDataOffset) := p.place count done entry.message
  let offset := base count + p.payload.length
  ⟨p.offsets ++ [⟨offset, 2 ^ 16 - 1, offset + 64, 2 ^ 16 - 1, messageDataOffset, entry.message.length, 2 ^ 16 - 1⟩],
    p.payload ++ entry.signature.val ++ entry.pubkey.val⟩

variable {p : Packed} {count room : Nat}

theorem length_header : (p.header count).length = base p.offsets.length := by
  rw [header, List.length_append, List.length_flatMap]
  simp [base, Nat.mul_comm]

theorem length_front (hcount : p.offsets.length ≤ count) : (p.front count).length = base count := by
  obtain ⟨k, rfl⟩ := Nat.exists_eq_add_of_le hcount
  rw [front, List.length_append, List.length_map, length_header, List.length_replicate, base, base,
    Nat.add_sub_cancel_left, Nat.mul_add, Nat.add_assoc]

theorem memcpy_cursor (hcount : p.offsets.length ≤ count) {src : List Byte} (h : p.payload.length + src.length ≤ room) :
    memcpy (p.cursor count room).dst (p.cursor count room).data src =
      .ok (((p.append src).cursor count room).dst, ((p.append src).cursor count room).data) := by
  have hdata : base count + p.payload.length = (p.front count ++ p.payload.map some).length := by
    rw [List.length_append, length_front hcount, List.length_map]
  have happend : p.front count ++ p.payload.map some ++ src.map some = p.front count ++ (p.payload ++ src).map some := by
    rw [List.map_append, List.append_assoc]
  simp only [cursor, append]
  rw [hdata, memcpy_eq (by omega), happend, @List.length_append _ (p.front count), length_front hcount,
    List.length_map, Nat.sub_sub, ← List.length_append]
  rfl

theorem record_le {pos : Nat} {o : SignatureOffsets} (ho : p.offsets[pos]? = some o) :
    2 + entrySize * pos + entrySize ≤ (p.header count).length := by
  have hpos : pos < p.offsets.length := (List.getElem?_eq_some_iff.mp ho).1
  have hle : entrySize * (pos + 1) ≤ entrySize * p.offsets.length := Nat.mul_le_mul_left entrySize hpos
  rw [length_header, base]
  rw [Nat.mul_succ] at hle
  omega

/-- A descriptor is read back from where it was written. -/
theorem slice_header {pos : Nat} {o : SignatureOffsets} (ho : p.offsets[pos]? = some o) :
    slice (p.header count) (2 + entrySize * pos) entrySize = o.bytes := by
  have hflat : slice (p.offsets.flatMap SignatureOffsets.bytes) (entrySize * pos) entrySize = o.bytes := by
    rw [List.flatMap_def]
    refine slice_flatten (fun r hr => ?_) (by rw [List.getElem?_map, ho, Option.map_some])
    obtain ⟨o', -, rfl⟩ := List.mem_map.mp hr
    exact o'.length_bytes
  exact slice_append_right.trans hflat

theorem slice_record {pos : Nat} {o : SignatureOffsets} (ho : p.offsets[pos]? = some o) :
    slice (p.cursor count room).dst (2 + entrySize * pos) entrySize = o.bytes.map some := by
  simp only [cursor, front, List.append_assoc]
  rw [slice_append_left (by rw [List.length_map]; exact record_le ho), slice_map, slice_header ho]

/-- Descriptors are appended to those which are there. -/
theorem splice_record (hcount : p.offsets.length < count) (o : SignatureOffsets) :
    splice (p.cursor count room).dst (2 + entrySize * p.offsets.length) (o.bytes.map some) =
      (cursor { p with offsets := p.offsets ++ [o] } count room).dst := by
  have hspace : List.replicate (entrySize * (count - p.offsets.length)) (none : Option Byte) =
      List.replicate entrySize none ++ List.replicate (entrySize * (count - (p.offsets.length + 1))) none := by
    obtain ⟨k, rfl⟩ := Nat.exists_eq_add_of_lt hcount
    rw [List.replicate_append_replicate]
    congr 1
    rw [Nat.add_assoc, Nat.add_sub_cancel_left, ← Nat.add_assoc, Nat.add_right_comm, Nat.add_sub_cancel_left,
      Nat.mul_succ, Nat.add_comm]
  have hheader : ((p.header count).map some).length = 2 + entrySize * p.offsets.length := by
    rw [List.length_map, length_header, base]
  simp only [cursor, front, hspace, List.append_assoc]
  rw [← List.append_assoc, splice_append_mid hheader (by simp)]
  simp [header]

theorem placeMessage_eq {done : List Entry} {message : List Byte} (hdone : p.offsets.length = done.length)
    (hcount : p.offsets.length ≤ count) (hoffsets : ∀ o ∈ p.offsets, o.messageDataOffset < 2 ^ 16)
    (hlen : base count + p.payload.length + message.length < 2 ^ 16)
    (hroom : p.payload.length + message.length ≤ room) :
    placeMessage count done message (p.cursor count room) =
      .ok ((p.place count done message).1.cursor count room, (p.place count done message).2) := by
  unfold placeMessage place shared
  cases hfind : done.findIdx? fun entry => message.isPrefixOf entry.message with
  | none =>
    have hmessage : message.length % 2 ^ 16 = message.length := Nat.mod_eq_of_lt (by omega)
    simp only [Option.bind_none, memcpy_cursor hcount hroom, bind, Except.bind, hmessage]
    rw [show (p.cursor count room).len = base count + p.payload.length from rfl, addU16_eq hlen]
    simp only [append, cursor, List.length_append, Nat.add_assoc]
    rfl
  | some pos =>
    have hpos : pos < p.offsets.length := by
      rw [hdone]
      exact (List.findIdx?_eq_some_iff_getElem.mp hfind).1
    have ho := List.getElem?_eq_getElem hpos
    have hread : slice (p.cursor count room).dst (2 + entrySize * pos + 8) 2 =
        (leBytes 2 p.offsets[pos].messageDataOffset).map some := by
      rw [← slice_slice (n := entrySize) (by decide), slice_record ho, slice_map]
      exact congrArg (List.map some) (SignatureOffsets.slice_bytes _ (i := 4) rfl)
    simp only [Option.bind_some, ho, Option.map_some, recordAt_eq (Nat.lt_of_lt_of_le hpos hcount), bind, Except.bind,
      hread, assumeInit_map]
    rw [ofLeBytes_leBytes (hoffsets _ (List.getElem_mem hpos))]
    rfl

/-- Bytes which an entry takes at most. -/
def needed (entry : Entry) : Nat := entry.message.length + (64 + 32)

theorem length_place_le {done : List Entry} {message : List Byte} :
    (p.place count done message).1.payload.length ≤ p.payload.length + message.length := by
  unfold place
  split
  · exact Nat.le_add_right _ _
  · exact Nat.le_of_eq List.length_append

@[simp]
theorem offsets_place {done : List Entry} {message : List Byte} :
    (p.place count done message).1.offsets = p.offsets := by
  unfold place
  split <;> rfl

theorem length_add_le {done : List Entry} {entry : Entry} :
    (p.add count done entry).payload.length ≤ p.payload.length + needed entry := by
  have hplace : (p.place count done entry.message).1.payload.length ≤ p.payload.length + entry.message.length :=
    length_place_le
  simp only [add, List.length_append, entry.signature.property, entry.pubkey.property, needed]
  omega

theorem writeEntry_eq {done : List Entry} {entry : Entry} (hdone : p.offsets.length = done.length)
    (hcount : p.offsets.length < count) (hoffsets : ∀ o ∈ p.offsets, o.messageDataOffset < 2 ^ 16)
    (hlen : base count + p.payload.length + needed entry < 2 ^ 16)
    (hroom : p.payload.length + needed entry ≤ room) :
    writeEntry count done entry (p.cursor count room) = .ok ((p.add count done entry).cursor count room) := by
  have hplace : (p.place count done entry.message).1.payload.length ≤ p.payload.length + entry.message.length :=
    length_place_le
  have hmessage : entry.message.length % 2 ^ 16 = entry.message.length := by
    rw [needed] at hlen
    exact Nat.mod_eq_of_lt (by omega)
  rw [needed] at hlen hroom
  have hstart : placeMessage count done entry.message (p.cursor count room) =
      .ok ((p.place count done entry.message).1.cursor count room, (p.place count done entry.message).2) :=
    placeMessage_eq hdone hcount.le hoffsets (by omega) (by omega)
  have hoff : (p.place count done entry.message).1.offsets = p.offsets := offsets_place
  simp only [writeEntry, add, hstart, bind, Except.bind]
  generalize p.place count done entry.message = placed at hplace hoff ⊢
  obtain ⟨q, offset⟩ := placed
  simp only at hplace hoff ⊢
  have hsig : entry.signature.val.length = 64 := entry.signature.property
  have hkey : entry.pubkey.val.length = 32 := entry.pubkey.property
  have hqdone : q.offsets.length = done.length := hoff ▸ hdone
  have hqlt : q.offsets.length < count := hoff ▸ hcount
  have hqcount := hqlt.le
  have hqsig : q.payload.length + entry.signature.val.length ≤ room := by omega
  have hqkey : (q.append entry.signature.val).payload.length + entry.pubkey.val.length ≤ room := by
    simp only [append, List.length_append]
    omega
  have hrecord := @splice_record ((q.append entry.signature.val).append entry.pubkey.val) count room hqlt
  simp only [append, hqdone] at hrecord
  have hq : (q.cursor count room).len = base count + q.payload.length := rfl
  rw [memcpy_cursor hqcount hqsig]
  simp only
  rw [memcpy_cursor (p := q.append entry.signature.val) hqcount hqkey]
  simp only [hq, hmessage, addU16_eq (show base count + q.payload.length + 64 < 2 ^ 16 by omega),
    addU16_eq (show base count + q.payload.length + (64 + 32) < 2 ^ 16 by omega), recordAt_eq (hqdone ▸ hqlt)]
  simp only [append, hrecord]
  simp only [cursor, List.length_append, hsig, hkey, Nat.add_assoc]
  rfl

/-- The part lies at the offset, counted from the start of the instruction. -/
def At (count : Nat) (payload : List Byte) (offset : Nat) (part : List Byte) : Prop :=
  ∃ before, before ++ part <+: payload ∧ offset = base count + before.length

/-- The descriptor is right about the entry. -/
structure Describes (count : Nat) (payload : List Byte) (o : SignatureOffsets) (entry : Entry) : Prop where
  own : o.signatureInstructionIndex = 2 ^ 16 - 1 ∧ o.publicKeyInstructionIndex = 2 ^ 16 - 1 ∧
    o.messageInstructionIndex = 2 ^ 16 - 1
  size : o.messageDataSize = entry.message.length
  signature : At count payload o.signatureOffset entry.signature.val
  pubkey : At count payload o.publicKeyOffset entry.pubkey.val
  message : At count payload o.messageDataOffset entry.message

variable {payload payload' part part' : List Byte} {offset : Nat}

theorem At.mono (h : At count payload offset part) (hpayload : payload <+: payload') : At count payload' offset part := by
  obtain ⟨before, hbefore, hoffset⟩ := h
  exact ⟨before, hbefore.trans hpayload, hoffset⟩

/-- A prefix of a part is where the part is. -/
theorem At.shorten (h : At count payload offset part) (hpart : part' <+: part) : At count payload offset part' := by
  obtain ⟨before, hbefore, hoffset⟩ := h
  exact ⟨before, ((List.prefix_append_right_inj before).mpr hpart).trans hbefore, hoffset⟩

theorem At.append : At count (payload ++ part ++ part') (base count + payload.length) part :=
  ⟨payload, List.prefix_append _ _, rfl⟩

theorem At.add_length_le (h : At count payload offset part) : offset + part.length ≤ base count + payload.length := by
  obtain ⟨before, hbefore, rfl⟩ := h
  have hle := hbefore.length_le
  rw [List.length_append] at hle
  omega

theorem Describes.mono {o : SignatureOffsets} {entry : Entry} (h : Describes count payload o entry)
    (hbefore : payload <+: payload') : Describes count payload' o entry :=
  ⟨h.own, h.size, h.signature.mono hbefore, h.pubkey.mono hbefore, h.message.mono hbefore⟩

/-- The first entry, out of those before, whose message starts with the one of given index. -/
def sharedWith (done : List Entry) (i j : Nat) : Prop :=
  ∃ entry, done[i]? = some entry ∧
    (done.take i).findIdx? (fun entry' => entry.message.isPrefixOf entry'.message) = some j

/-- Every entry which is done has its descriptor, and messages which can be shared are. -/
structure Good (count : Nat) (p : Packed) (done : List Entry) : Prop where
  describes : List.Forall₂ (Describes count p.payload) p.offsets done
  shares : ∀ i j, sharedWith done i j →
    p.offsets[i]?.map (·.messageDataOffset) = p.offsets[j]?.map (·.messageDataOffset)

theorem Good.length_eq {done : List Entry} (h : Good count p done) : p.offsets.length = done.length :=
  h.describes.length_eq

/-- A message which is shared is a prefix of one which has a descriptor. -/
theorem Good.place {done : List Entry} (h : Good count p done) (message : List Byte) :
    p.payload <+: (p.place count done message).1.payload ∧
      At count (p.place count done message).1.payload (p.place count done message).2 message := by
  unfold Packed.place
  split
  · rename_i offset hshared
    refine ⟨List.prefix_rfl, ?_⟩
    obtain ⟨pos, hpos, hoffset⟩ := Option.bind_eq_some_iff.mp hshared
    obtain ⟨o, ho, rfl⟩ := Option.map_eq_some_iff.mp hoffset
    obtain ⟨hlt, hbefore, -⟩ := List.findIdx?_eq_some_iff_getElem.mp hpos
    obtain ⟨hlt', rfl⟩ := List.getElem?_eq_some_iff.mp ho
    exact (h.describes.get hlt' hlt).message.shorten (List.isPrefixOf_iff_prefix.mp hbefore)
  · refine ⟨List.prefix_append _ _, ?_⟩
    have hat : At count (p.payload ++ message ++ []) (base count + p.payload.length) message := At.append
    rwa [List.append_nil] at hat

theorem Good.add_describes {done : List Entry} {entry : Entry} (h : Good count p done) :
    List.Forall₂ (Describes count (p.add count done entry).payload) (p.add count done entry).offsets
      (done ++ [entry]) := by
  obtain ⟨hbefore, hmessage⟩ := h.place entry.message
  have hoff : (p.place count done entry.message).1.offsets = p.offsets := offsets_place
  unfold Packed.add
  generalize p.place count done entry.message = placed at hbefore hmessage hoff ⊢
  obtain ⟨q, offset⟩ := placed
  simp only at hbefore hmessage hoff ⊢
  rw [hoff]
  have hq : q.payload <+: q.payload ++ entry.signature.val ++ entry.pubkey.val := by
    rw [List.append_assoc]
    exact List.prefix_append _ _
  refine List.rel_append (h.describes.imp fun o e ho => ho.mono (hbefore.trans hq)) (.cons ?_ .nil)
  refine ⟨⟨rfl, rfl, rfl⟩, rfl, At.append, ?_, hmessage.mono hq⟩
  have hkey : At count (q.payload ++ entry.signature.val ++ entry.pubkey.val ++ [])
      (base count + (q.payload ++ entry.signature.val).length) entry.pubkey.val := At.append
  rw [List.append_nil, List.length_append, entry.signature.property, ← Nat.add_assoc] at hkey
  exact hkey

theorem Good.add_shares {done : List Entry} {entry : Entry} (h : Good count p done) {i j : Nat}
    (hshared : sharedWith (done ++ [entry]) i j) :
    (p.add count done entry).offsets[i]?.map (·.messageDataOffset) =
      (p.add count done entry).offsets[j]?.map (·.messageDataOffset) := by
  obtain ⟨e, he, hfind⟩ := hshared
  have hlen := h.length_eq
  have hi : i < done.length + 1 := by
    have hlt := (List.getElem?_eq_some_iff.mp he).1
    rwa [List.length_append] at hlt
  obtain ⟨o, ho, hadd⟩ : ∃ o : SignatureOffsets, o.messageDataOffset = (p.place count done entry.message).2 ∧
      (p.add count done entry).offsets = p.offsets ++ [o] :=
    ⟨_, rfl, congrArg (· ++ _) offsets_place⟩
  rw [List.take_append_of_le_length (Nat.le_of_lt_succ hi)] at hfind
  have hj : j < i := by
    have hlt := (List.findIdx?_eq_some_iff_getElem.mp hfind).1
    rw [List.length_take] at hlt
    omega
  rw [hadd, List.getElem?_append_left (by omega : j < p.offsets.length)]
  rcases Nat.lt_or_ge i done.length with hlt | hge
  · rw [List.getElem?_append_left (by omega)]
    rw [List.getElem?_append_left hlt] at he
    exact h.shares i j ⟨e, he, hfind⟩
  · obtain rfl : i = done.length := by omega
    rw [List.getElem?_concat_length] at he
    obtain rfl := Option.some.inj he
    rw [List.take_length] at hfind
    have hget := List.getElem?_eq_getElem (show j < p.offsets.length by omega)
    have hshared : p.shared done entry.message = some p.offsets[j].messageDataOffset := by
      rw [shared, hfind, Option.bind_some, hget, Option.map_some]
    rw [← hlen, List.getElem?_concat_length, hget, Option.map_some, Option.map_some, ho, Packed.place, hshared]

theorem Good.add {done : List Entry} (h : Good count p done) (entry : Entry) :
    Good count (p.add count done entry) (done ++ [entry]) :=
  ⟨h.add_describes, fun _ _ => h.add_shares⟩

theorem Good.exists_entry {done : List Entry} (h : Good count p done) {o : SignatureOffsets} (ho : o ∈ p.offsets) :
    ∃ entry ∈ done, Describes count p.payload o entry := by
  obtain ⟨i, hi, rfl⟩ := List.mem_iff_getElem.mp ho
  have hi' : i < done.length := h.length_eq ▸ hi
  exact ⟨done[i], List.getElem_mem hi', h.describes.get hi hi'⟩

theorem writeEntries_eq {done entries : List Entry} (h : Good count p done) (hcount : done.length + entries.length = count)
    (hlen : base count + p.payload.length + (entries.map needed).sum < 2 ^ 16)
    (hroom : p.payload.length + (entries.map needed).sum ≤ room) :
    ∃ q, writeEntries count done entries (p.cursor count room) = .ok (q.cursor count room) ∧
      Good count q (done ++ entries) ∧ q.payload.length ≤ p.payload.length + (entries.map needed).sum := by
  induction entries generalizing p done with
  | nil =>
    refine ⟨p, rfl, ?_, Nat.le_refl _⟩
    rwa [List.append_nil]
  | cons entry entries ih =>
    rw [List.map_cons, List.sum_cons] at hlen hroom
    rw [List.length_cons] at hcount
    have hdone := h.length_eq
    have hoffsets : ∀ o ∈ p.offsets, o.messageDataOffset < 2 ^ 16 := by
      intro o ho
      obtain ⟨e, -, he⟩ := h.exists_entry ho
      have hle := he.message.add_length_le
      omega
    have hadd : (p.add count done entry).payload.length ≤ p.payload.length + needed entry := length_add_le
    have hlength : (done ++ [entry]).length = done.length + 1 := List.length_append
    obtain ⟨q, hq, hgood, hpayload⟩ := ih (h.add entry) (by omega) (by omega) (by omega)
    refine ⟨q, ?_, ?_, ?_⟩
    · rw [writeEntries, writeEntry_eq hdone (by omega) hoffsets (by omega) (by omega)]
      exact hq
    · rwa [List.append_assoc] at hgood
    · rw [List.map_cons, List.sum_cons]
      omega

end Packed

theorem capacity_fold {lens : List Nat} {a room : Nat} (ha : a < 2 ^ 16) :
    lens.foldlM (fun capacity len => if len < 2 ^ 16 then checkedAdd 16 capacity len else none) a = some room ↔
      a + lens.sum = room ∧ room < 2 ^ 16 := by
  induction lens generalizing a with
  | nil =>
    rw [List.foldlM_nil, Option.pure_def, Option.some_inj, List.sum_nil, Nat.add_zero]
    exact ⟨fun h => ⟨h, h ▸ ha⟩, And.left⟩
  | cons len lens ih =>
    rw [List.foldlM_cons, Option.bind_eq_bind, Option.bind_eq_some_iff, List.sum_cons, ← Nat.add_assoc]
    constructor
    · rintro ⟨b, hb, hrest⟩
      obtain ⟨-, hb⟩ := Option.ite_none_right_eq_some.mp hb
      obtain ⟨hlt, rfl⟩ := checkedAdd_eq_some.mp hb
      exact (ih hlt).mp hrest
    · rintro ⟨rfl, hroom⟩
      have hlt : a + len < 2 ^ 16 := by omega
      refine ⟨a + len, ?_, (ih hlt).mpr ⟨rfl, hroom⟩⟩
      rw [if_pos (by omega)]
      exact checkedAdd_eq_some.mpr ⟨hlt, rfl⟩

theorem sum_needed (entries : List Entry) :
    (entries.map Packed.needed).sum = (entries.map (·.message.length)).sum + 96 * entries.length := by
  induction entries with
  | nil => rfl
  | cons entry entries ih =>
    simp only [List.map_cons, List.sum_cons, List.length_cons, Packed.needed, ih]
    omega

/-- The capacity is what the entries take if no message is shared. -/
theorem capacity_sum (entries : List Entry) :
    2 + (entrySize + 64 + 32) * entries.length + (entries.map (·.message.length)).sum =
      base entries.length + (entries.map Packed.needed).sum := by
  rw [sum_needed, base]
  simp only [entrySize]
  omega

/-- The room asked for is enough for every message. -/
theorem capacity_eq {entries : List Entry} {room : Nat} (hcount : entries.length < 2 ^ 8) :
    capacity entries = some room ↔ base entries.length + (entries.map Packed.needed).sum = room ∧ room < 2 ^ 16 := by
  have hlt : 2 + (entrySize + 64 + 32) * entries.length < 2 ^ 16 := by
    simp only [entrySize]
    omega
  rw [capacity, Nat.mod_eq_of_lt hlt, capacity_fold hlt, capacity_sum]

/-- Memory in which nothing but the number of entries was written. -/
theorem splice_count {count room : Nat} (hroom : base count ≤ room) :
    splice (List.replicate room none) 0 [some (BitVec.ofNat 8 count), some 0#8] =
      (Packed.cursor ⟨[], []⟩ count (room - base count)).dst := by
  have hsplit : List.replicate room (none : Option Byte) =
      [] ++ List.replicate 2 none ++ List.replicate (entrySize * count + (room - base count)) none := by
    rw [List.nil_append, List.replicate_append_replicate]
    congr 1
    rw [base] at hroom ⊢
    omega
  rw [hsplit, splice_append_mid List.length_nil (by simp), ← List.replicate_append_replicate]
  simp [Packed.cursor, Packed.front, Packed.header]

theorem writeInstructionData_eq {entries : List Entry} {room : Nat}
    (hlen : base entries.length + (entries.map Packed.needed).sum < 2 ^ 16)
    (hroom : base entries.length + (entries.map Packed.needed).sum ≤ room) :
    ∃ q : Packed, Packed.Good entries.length q entries ∧
      base entries.length + q.payload.length ≤ base entries.length + (entries.map Packed.needed).sum ∧
      writeInstructionData (List.replicate room none) entries =
        .ok ((q.cursor entries.length (room - base entries.length)).dst, base entries.length + q.payload.length) := by
  have hempty : Packed.Good entries.length ⟨[], []⟩ [] := ⟨.nil, nofun⟩
  have hrest : ([] : List Byte).length + (entries.map Packed.needed).sum ≤ room - base entries.length := by
    rw [List.length_nil, Nat.zero_add]
    omega
  obtain ⟨q, hq, hgood, hpayload⟩ := Packed.writeEntries_eq hempty (Nat.zero_add _) hlen hrest
  rw [List.length_nil, Nat.zero_add] at hpayload
  refine ⟨q, hgood, Nat.add_le_add_left hpayload _, ?_⟩
  have hstart : 2 + entries.length * entrySize = base entries.length := by rw [base, Nat.mul_comm]
  have hchunks : (entries.length, 0) =
      ((base entries.length - 2) / entrySize, (base entries.length - 2) % entrySize) := by
    rw [base, Nat.add_sub_cancel_left, Nat.mul_div_cancel_left _ (by decide), Nat.mul_mod_right]
  have hsmall : base entries.length % 2 ^ 16 = base entries.length := Nat.mod_eq_of_lt (by omega)
  have hbase : ¬ (List.replicate room (none : Option Byte)).length < base entries.length := by
    rw [List.length_replicate]
    omega
  simp only [writeInstructionData, hstart, if_neg hbase, hchunks, ne_eq, not_true_eq_false, if_false, hsmall,
    splice_count (Nat.le_trans (Nat.le_add_right _ _) hroom)]
  have hcursor : Packed.cursor ⟨[], []⟩ entries.length (room - base entries.length) =
      ⟨(Packed.cursor ⟨[], []⟩ entries.length (room - base entries.length)).dst, base entries.length,
        base entries.length⟩ := rfl
  rw [← hcursor, hq]
  rfl

/-- With all descriptors there is no gap. -/
theorem dst_complete {q : Packed} {count room : Nat} (hcount : q.offsets.length = count) :
    (q.cursor count room).dst = (q.header count ++ q.payload).map some ++
      List.replicate (room - q.payload.length) none := by
  simp only [Packed.cursor, Packed.front, hcount, Nat.sub_self, Nat.mul_zero, List.replicate_zero, List.append_nil,
    List.map_append]

theorem newInstruction_eq {entries : List Entry} {room : Nat} (spare : Nat) (hcount : entries.length < 2 ^ 8)
    (h : capacity entries = some room) :
    ∃ q : Packed, Packed.Good entries.length q entries ∧ base entries.length + q.payload.length < 2 ^ 16 ∧
      newInstruction spare entries = .ok (some ⟨ed25519Program, q.header entries.length ++ q.payload⟩) := by
  obtain ⟨rfl, hsmall⟩ := (capacity_eq hcount).mp h
  obtain ⟨q, hgood, hlen, hq⟩ := writeInstructionData_eq hsmall (Nat.le_add_right _ spare)
  refine ⟨q, hgood, Nat.lt_of_le_of_lt hlen hsmall, ?_⟩
  have hlength : base entries.length + q.payload.length = ((q.header entries.length ++ q.payload).map some).length := by
    rw [List.length_map, List.length_append, Packed.length_header, hgood.length_eq]
  rw [dst_complete hgood.length_eq, hlength] at hq
  rw [newInstruction, if_pos hcount, h]
  simp only [hq, bind, Except.bind, List.take_left, assumeInit_map]
  rw [if_neg (by rw [List.length_append]; omega)]
  rfl

end Ed25519Program
