import EmulatedLightClient.Buffers
import EmulatedLightClient.ByteBits

/-!
# Data of an account

The memory the trie is stored in. Ranges past its end cannot be accessed; enlarging may
fail. What the data of each kind shares is that a write changes the range it is for and
nothing else and that enlarging keeps the bytes which are there.
-/

namespace SolanaTrie

open ByteBits Buffers

/-- Access to the account data underlying the trie. -/
class DataRef (D : Type) where
  bytes : D → List Byte
  write : D → Nat → List Byte → D
  enlarge : D → Nat → Bool × D
  bytes_write : ∀ {d off s}, off + s.length ≤ (bytes d).length → bytes (write d off s) = splice (bytes d) off s
  enlarge_ok : ∀ {d d' minSize}, enlarge d minSize = (true, d') →
    minSize ≤ (bytes d').length ∧ ∃ rest, bytes d' = bytes d ++ rest
  enlarge_failed : ∀ {d d' minSize}, enlarge d minSize = (false, d') → bytes d' = bytes d

namespace DataRef

variable {D : Type} [DataRef D]

def len (d : D) : Nat := (bytes d).length

/-- The range of given length, unless some of it is out of bounds. -/
def get (d : D) (off n : Nat) : Option (List Byte) :=
  if off + n ≤ len d then some (slice (bytes d) off n) else none

/-- Overwrites a range through an exclusive reference to it. -/
def getMut (d : D) (off : Nat) (s : List Byte) : Option D :=
  if off + s.length ≤ len d then some (write d off s) else none

theorem get_eq {d : D} {off n : Nat} (h : off + n ≤ len d) : get d off n = some (slice (bytes d) off n) := if_pos h

theorem getMut_eq {d : D} {off : Nat} {s : List Byte} (h : off + s.length ≤ len d) :
    ∃ d', getMut d off s = some d' ∧ bytes d' = splice (bytes d) off s :=
  ⟨write d off s, if_pos h, bytes_write h⟩

end DataRef

/-- A slice or an array, also behind a reference: its length is fixed. -/
structure FixedData where
  bytes : List Byte

instance fixedDataRef : DataRef FixedData where
  bytes := FixedData.bytes
  write d off s := ⟨splice d.bytes off s⟩
  enlarge d _ := (false, d)
  bytes_write _ := rfl
  enlarge_ok h := Bool.noConfusion (congrArg Prod.fst h)
  enlarge_failed h := congrArg (fun r => FixedData.bytes r.2) h.symm

/-- A vector; memory can be reserved for up to `room` bytes. -/
structure VecData where
  bytes : List Byte
  room : Nat

namespace VecData

def enlarge (d : VecData) (minSize : Nat) : Bool × VecData :=
  let additional := minSize - d.bytes.length
  if additional = 0 then (true, d)
  else if d.bytes.length + additional ≤ d.room then
    (true, { d with bytes := d.bytes ++ List.replicate additional 0#8 })
  else (false, d)

theorem enlarge_ok {d d' : VecData} {minSize : Nat} (h : d.enlarge minSize = (true, d')) :
    minSize ≤ d'.bytes.length ∧ ∃ rest, d'.bytes = d.bytes ++ rest := by
  simp only [enlarge] at h
  split at h
  · cases h
    exact ⟨by omega, [], (List.append_nil _).symm⟩
  · split at h
    · cases h
      refine ⟨?_, _, rfl⟩
      rw [List.length_append, List.length_replicate]
      omega
    · cases h

theorem enlarge_failed {d d' : VecData} {minSize : Nat} (h : d.enlarge minSize = (false, d')) : d'.bytes = d.bytes := by
  simp only [enlarge] at h
  split at h
  · cases h
  · split at h
    · cases h
    · cases h
      rfl

end VecData

instance vecDataRef : DataRef VecData where
  bytes := VecData.bytes
  write d off s := { d with bytes := splice d.bytes off s }
  enlarge := VecData.enlarge
  bytes_write _ := rfl
  enlarge_ok := VecData.enlarge_ok
  enlarge_failed := VecData.enlarge_failed

def maxPermittedDataIncrease : Nat := 10240

def maxPermittedDataLength : Nat := 10485760

/-- An account backing a trie which can be resized. The runtime leaves space for the data to
grow; `spare` is what is found there. `minimumBalance` is of the rent, unless it cannot be read,
and `transfer` tells whether the payer's lamports reach the account. -/
structure ResizableAccount where
  bytes : List Byte
  spare : List Byte
  originalDataLen : Nat
  lamports : Nat
  minimumBalance : Option (Nat → Nat)
  transfer : Nat → Bool
  reserved : originalDataLen + maxPermittedDataIncrease ≤ bytes.length + spare.length

namespace ResizableAccount

/-- Makes sure account has enough lamports to be rent-exempt at given size. -/
def ensureMinimumBalance (d : ResizableAccount) (newLen : Nat) : Bool × ResizableAccount :=
  match d.minimumBalance with
  | none => (false, d)
  | some minimumBalance =>
    let lamports := minimumBalance newLen - d.lamports
    if lamports = 0 then (true, d)
    else if d.transfer lamports then (true, { d with lamports := d.lamports + lamports })
    else (false, d)

theorem ensureMinimumBalance_bytes (d : ResizableAccount) (newLen : Nat) :
    (d.ensureMinimumBalance newLen).2.bytes = d.bytes ∧ (d.ensureMinimumBalance newLen).2.spare = d.spare ∧
      (d.ensureMinimumBalance newLen).2.originalDataLen = d.originalDataLen := by
  simp only [ensureMinimumBalance]
  split
  · exact ⟨rfl, rfl, rfl⟩
  · split
    · exact ⟨rfl, rfl, rfl⟩
    · split <;> exact ⟨rfl, rfl, rfl⟩

theorem resize_reserved (d : ResizableAccount) (newLen : Nat) :
    d.originalDataLen + maxPermittedDataIncrease ≤
      ((d.bytes ++ d.spare).take newLen).length + ((d.bytes ++ d.spare).drop newLen).length := by
  have h := d.reserved
  rw [List.length_take, List.length_drop, List.length_append]
  omega

/-- Recreates the slice over the same memory with the new length. -/
def resize (d : ResizableAccount) (newLen : Nat) : ResizableAccount where
  bytes := (d.bytes ++ d.spare).take newLen
  spare := (d.bytes ++ d.spare).drop newLen
  originalDataLen := d.originalDataLen
  lamports := d.lamports
  minimumBalance := d.minimumBalance
  transfer := d.transfer
  reserved := d.resize_reserved newLen

@[simp] theorem resize_bytes (d : ResizableAccount) (newLen : Nat) :
    (d.resize newLen).bytes = (d.bytes ++ d.spare).take newLen := rfl

def newLen (d : ResizableAccount) : Nat :=
  min (d.originalDataLen + maxPermittedDataIncrease) maxPermittedDataLength

/-- Always enlarges to the maximum allowable size. -/
def enlarge (d : ResizableAccount) (minSize : Nat) : Bool × ResizableAccount :=
  if minSize ≤ d.bytes.length then (true, d)
  else if d.newLen < minSize then (false, d)
  else
    match d.ensureMinimumBalance d.newLen with
    | (false, d) => (false, d)
    | (true, d) => (true, d.resize d.newLen)

theorem enlarge_ok {d d' : ResizableAccount} {minSize : Nat} (h : d.enlarge minSize = (true, d')) :
    minSize ≤ d'.bytes.length ∧ ∃ rest, d'.bytes = d.bytes ++ rest := by
  unfold enlarge at h
  split at h
  · rename_i hle
    cases h
    exact ⟨hle, [], (List.append_nil _).symm⟩
  · split at h
    · cases h
    · rename_i hgt hfits
      obtain ⟨hbytes, hspare, horiginal⟩ := d.ensureMinimumBalance_bytes d.newLen
      split at h
      · cases h
      · rename_i paid hpaid
        rw [hpaid] at hbytes hspare horiginal
        dsimp only at hbytes hspare horiginal
        obtain ⟨-, rfl⟩ := Prod.mk.inj h
        have hnew : paid.newLen = d.newLen := by rw [newLen, newLen, horiginal]
        have hreserved := d.reserved
        have hlen : d.newLen ≤ d.originalDataLen + maxPermittedDataIncrease := Nat.min_le_left _ _
        rw [resize_bytes, hnew, hbytes, hspare]
        generalize maxPermittedDataIncrease = increase at hreserved hlen
        constructor
        · rw [List.length_take, List.length_append]
          omega
        · refine ⟨d.spare.take (d.newLen - d.bytes.length), ?_⟩
          rw [List.take_append, List.take_of_length_le (by omega)]

theorem enlarge_failed {d d' : ResizableAccount} {minSize : Nat} (h : d.enlarge minSize = (false, d')) :
    d'.bytes = d.bytes := by
  unfold enlarge at h
  split at h
  · cases h
  · split at h
    · cases h
      rfl
    · obtain ⟨hbytes, -, -⟩ := d.ensureMinimumBalance_bytes d.newLen
      split at h
      · rename_i unpaid hunpaid
        rw [hunpaid] at hbytes
        cases h
        exact hbytes
      · cases h

theorem write_reserved (d : ResizableAccount) (off : Nat) (s : List Byte) :
    d.originalDataLen + maxPermittedDataIncrease ≤
      (if off + s.length ≤ d.bytes.length then splice d.bytes off s else d.bytes).length + d.spare.length := by
  have h := d.reserved
  split
  · rename_i hle
    rw [length_splice hle]
    exact h
  · exact h

def write (d : ResizableAccount) (off : Nat) (s : List Byte) : ResizableAccount :=
  { d with
    bytes := if off + s.length ≤ d.bytes.length then splice d.bytes off s else d.bytes
    reserved := d.write_reserved off s }

end ResizableAccount

instance resizableDataRef : DataRef ResizableAccount where
  bytes := ResizableAccount.bytes
  write := ResizableAccount.write
  enlarge := ResizableAccount.enlarge
  bytes_write h := if_pos h
  enlarge_ok := ResizableAccount.enlarge_ok
  enlarge_failed := ResizableAccount.enlarge_failed

end SolanaTrie
