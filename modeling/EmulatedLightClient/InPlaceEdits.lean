import EmulatedLightClient.BitLists

/-!
# Owned slices changed in place

Methods of owned slices write to the fields one after another. Run on the
fields of an owned slice a method ends with the fields of an owned slice again;
when it fails the fields are those it has started with.
-/

namespace Bits

open ByteBits AlignedLists

/-- Fields of an owned slice, which any values may be assigned to. -/
structure Fields where
  offset : U3
  length : Nat
  bytes : List Byte
  deriving DecidableEq

inductive Stop where
  | failed (err : ConcatError)
  | panicked
  deriving DecidableEq

/-- A method taking the slice by a mutable reference. -/
abbrev Method (α : Type) := EStateM Stop Fields α

def Owned.fields (s : Owned) : Fields := ⟨s.offset, s.length, s.bytes⟩

@[simp] theorem Owned.fields_offset (s : Owned) : s.fields.offset = s.offset := rfl

@[simp] theorem Owned.fields_length (s : Owned) : s.fields.length = s.length := rfl

@[simp] theorem Owned.fields_bytes (s : Owned) : s.fields.bytes = s.bytes := rfl

namespace Method

def check : Except ConcatError Nat → Method Unit
  | .ok _ => pure ()
  | .error err => throw (.failed err)

/-- Overwrites the last byte. -/
def setLastByte (byte : Byte) : Method Unit :=
  modify fun this => { this with bytes := this.bytes.dropLast ++ [byte] }

def extendFromSlice (bytes : List Byte) : Method Unit :=
  modify fun this => { this with bytes := this.bytes ++ bytes }

/-- The sum has to fit sixteen bits. -/
def addLength (rhs : Nat) : Method Unit := do
  let this ← get
  if this.length + rhs < 2 ^ 16 then set { this with length := this.length + rhs }
  else throw .panicked

/-- Merges the byte which the slices share, if there is one, and returns the bytes
still to be appended. -/
def mergeLast (suffix : Slice) : Method (List Byte) := do
  let this ← get
  match this.bytes.getLast?, suffix.bytes with
  | some last, first :: rest =>
    if suffix.offset ≠ 0 then
      let mask := 255#8 >>> suffix.offset.val
      setLastByte ((last &&& ~~~mask) ||| (first &&& mask))
      pure rest
    else pure suffix.bytes
  | _, _ => pure suffix.bytes

/-- `extend_impl`. -/
def extend (suffix : Slice) : Method Unit := do
  let this ← get
  check (Owned.checkAlignmentAndLength this.offset this.length suffix.offset suffix.length)
  let bytes ← mergeLast suffix
  extendFromSlice bytes
  addLength suffix.length

def writeNext (bit : Bool) : Method Unit := do
  let this ← get
  let off := U3.wrappingAdd this.offset this.length
  match this.bytes.getLast? with
  | some byte =>
    if off ≠ 0 then setLastByte (Owned.writeBit byte off bit)
    else extendFromSlice [Owned.masked off bit]
  | none => extendFromSlice [Owned.masked off bit]

def pushBack (bit : Bool) : Method Unit := do
  let this ← get
  check (Owned.checkLength this.length 1)
  writeNext bit
  addLength 1

/-- Drops the last byte once no bit of the slice is left in it. -/
def popByte (off : U3) (length : Nat) : Method Unit :=
  if off = 0 ∨ length = 0 then
    modify fun this => { this with bytes := this.bytes.dropLast }
  else pure ()

def popBack : Method (Option Bool) := do
  let this ← get
  match this.length with
  | 0 => pure none
  | length + 1 =>
    set { this with length := length }
    let off := U3.wrappingAdd this.offset length
    match this.bytes.getLast? with
    | none => throw .panicked
    | some last =>
      popByte off length
      pure (some (last &&& (0x80#8 >>> off.val) != 0#8))

def truncate (len : Nat) : Method Unit := do
  let this ← get
  if len < this.length then
    set { this with length := len, bytes := this.bytes.take (bytesLen this.offset len) }

def setLast (bit : Bool) : Method Unit := do
  let this ← get
  let shft := U3.wrappingDec (U3.wrappingAdd this.offset this.length)
  match this.bytes.getLast? with
  | none => throw .panicked
  | some last => setLastByte (Owned.writeBit last shft bit)

variable {α : Type}

/-- A run which leaves what the operation returns and, on failure, what was there. -/
def settle (o : Owned) : Except Stop (α × Owned) → EStateM.Result Stop Fields α
  | .ok (a, o') => .ok a o'.fields
  | .error stop => .error stop o.fields

/-- The outcome of a method which returns nothing but may fail. -/
def outcome {β : Type} : Except ConcatError β → Except Stop (Unit × β)
  | .ok b => .ok ((), b)
  | .error err => .error (.failed err)

theorem run_check_ok (this : Fields) (n : Nat) : (check (.ok n)).run this = .ok () this := rfl

theorem run_extendFromSlice (this : Fields) (bytes : List Byte) :
    (extendFromSlice bytes).run this = .ok () { this with bytes := this.bytes ++ bytes } := rfl

theorem run_addLength {this : Fields} {rhs : Nat} (h : this.length + rhs < 2 ^ 16) :
    (addLength rhs).run this = .ok () { this with length := this.length + rhs } := by
  simp only [addLength, EStateM.run_bind, EStateM.run_get, if_pos h, EStateM.run_set]

theorem run_popByte (this : Fields) (offset : U3) (length : Nat) :
    (popByte (U3.wrappingAdd offset length) length).run this =
      .ok () { this with bytes := Owned.popBackBytes offset length this.bytes } := by
  unfold popByte Owned.popBackBytes
  split
  · rfl
  · rfl

/-- The bytes kept and those returned are together the bytes of the longer slice. -/
theorem run_mergeLast (this : Fields) (suffix : Slice) :
    ∃ bytes rest, (mergeLast suffix).run this = .ok rest { this with bytes := bytes } ∧
      bytes ++ rest = Owned.extendBytes this.bytes suffix.offset suffix.bytes := by
  simp only [mergeLast, Owned.extendBytes, EStateM.run_bind, EStateM.run_get]
  cases hlast : this.bytes.getLast? with
  | none => exact ⟨_, _, rfl, rfl⟩
  | some last =>
    cases hsuffix : suffix.bytes with
    | nil => exact ⟨_, _, rfl, rfl⟩
    | cons first rest =>
      simp only
      by_cases hoff : suffix.offset ≠ 0
      · rw [if_pos hoff, if_pos hoff]
        exact ⟨_, _, rfl, rfl⟩
      · rw [if_neg hoff, if_neg hoff]
        exact ⟨_, _, rfl, rfl⟩

theorem extend_fields {o : Owned} {suffix : Slice} {n : Nat}
    (h : Owned.checkAlignmentAndLength o.offset o.length suffix.offset suffix.length = .ok n) :
    ∃ o', o.extend suffix = .ok o' ∧ o'.fields = ⟨o.offset, o.length + suffix.length,
      Owned.extendBytes o.bytes suffix.offset suffix.bytes⟩ := by
  unfold Owned.extend
  split
  · rename_i herr
    rw [h] at herr
    cases herr
  · exact ⟨_, rfl, rfl⟩

/-- The slice is written to once it is known that the suffix fits. -/
theorem run_extend (o : Owned) (suffix : Slice) :
    (extend suffix).run o.fields = settle o (outcome (o.extend suffix)) := by
  simp only [extend, EStateM.run_bind, EStateM.run_get, Owned.fields_offset, Owned.fields_length]
  cases hcheck : Owned.checkAlignmentAndLength o.offset o.length suffix.offset suffix.length with
  | error err =>
    rw [Owned.extend_error hcheck]
    rfl
  | ok n =>
    obtain ⟨bytes, rest, hmerge, hbytes⟩ := run_mergeLast o.fields suffix
    obtain ⟨o', hext, hfields⟩ := extend_fields hcheck
    have hlen := (Owned.checkAlignmentAndLength_ok hcheck).2
    rw [hext, run_check_ok]
    simp only [hmerge, run_extendFromSlice, hbytes]
    rw [run_addLength (by exact hlen)]
    simp only [outcome, settle, hfields, Owned.fields_length, Owned.fields_offset,
      Owned.fields_bytes]

theorem run_writeNext (o : Owned) (bit : Bool) : (writeNext bit).run o.fields =
    .ok () { o.fields with bytes := Owned.pushBackBytes o bit } := by
  obtain ⟨offset, length, bytes, hlt, hsize⟩ := o
  simp only [writeNext, Owned.pushBackBytes, Owned.fields, EStateM.run_bind, EStateM.run_get]
  cases bytes.getLast? with
  | none => rfl
  | some byte =>
    simp only
    by_cases hoff : U3.wrappingAdd offset length ≠ 0
    · rw [if_pos hoff, if_pos hoff]
      rfl
    · rw [if_neg hoff, if_neg hoff]
      rfl

theorem run_pushBack (o : Owned) (bit : Bool) :
    (pushBack bit).run o.fields = settle o (outcome (o.pushBack bit)) := by
  simp only [pushBack, EStateM.run_bind, EStateM.run_get, Owned.fields_length]
  by_cases hlen : o.length + 1 < 2 ^ 16
  · have hcheck : Owned.checkLength o.length 1 = .ok (o.length + 1) := if_pos hlen
    rw [hcheck, run_check_ok, Owned.pushBack, dif_pos hlen]
    simp only [run_writeNext]
    rw [run_addLength (by exact hlen)]
    rfl
  · have hcheck : Owned.checkLength o.length 1 = .error .sliceTooLong := if_neg hlen
    rw [hcheck, Owned.pushBack, dif_neg hlen]
    rfl

theorem run_popBack (o : Owned) : popBack.run o.fields =
    settle o (.ok (match o.popBack with
      | none => (none, o)
      | some (bit, o') => (some bit, o'))) := by
  simp only [popBack, EStateM.run_bind, EStateM.run_get, Owned.fields_length]
  cases hlen : o.length with
  | zero =>
    rw [Owned.popBack, dif_pos hlen]
    rfl
  | succ length =>
    obtain ⟨last, o', hlast, hpop, hoff, hlen', hbytes⟩ := Owned.popBack_some hlen
    rw [hpop]
    simp only [EStateM.run_bind, EStateM.run_set, EStateM.run_pure, Owned.fields_bytes,
      Owned.fields_offset, hlast, run_popByte, settle]
    rw [Owned.fields, hoff, hlen', hbytes]

theorem run_truncate (o : Owned) (len : Nat) :
    (truncate len).run o.fields = settle o (.ok ((), o.truncate len)) := by
  obtain ⟨offset, length, bytes, hlt, hsize⟩ := o
  simp only [truncate, Owned.truncate, Owned.fields, EStateM.run_bind, EStateM.run_get]
  by_cases hlen : len < length
  · rw [if_pos hlen, dif_pos hlen]
    rfl
  · rw [if_neg hlen, dif_neg hlen]
    rfl

theorem run_setLast (o : Owned) (bit : Bool) : (setLast bit).run o.fields =
    settle o (match o.setLast bit with
      | none => .error .panicked
      | some o' => .ok ((), o')) := by
  simp only [setLast, EStateM.run_bind, EStateM.run_get, Owned.fields_bytes]
  cases hlast : o.bytes.getLast? with
  | none =>
    have hbits : o.bits = [] := by
      rw [List.getLast?_eq_none_iff, Owned.bytes_eq_nil, ← Owned.length_bits] at hlast
      exact List.length_eq_zero_iff.mp hlast
    rw [Owned.setLast_of_nil hbits]
    rfl
  | some last =>
    obtain ⟨o', hset, hoff, hlen, hbytes⟩ := Owned.setLast_some bit hlast
    rw [hset]
    simp only [settle, Owned.fields, hoff, hlen, hbytes]
    rfl

/-- The method leaves an owned slice with the bits the function tells; when the
function fails so does the method, and every field is as it was. -/
def ActsAs (x : Method α) (f : BitList → Except Stop (α × BitList)) : Prop :=
  ∀ o : Owned, match f o.view with
    | .ok (a, l) => ∃ o' : Owned, x.run o.fields = .ok a o'.fields ∧ o'.view = l
    | .error stop => x.run o.fields = .error stop o.fields

/-- A method acts as an operation on owned slices acts on their bits. -/
theorem ActsAs.of_run {x : Method α} {op : Owned → Except Stop (α × Owned)}
    {f : BitList → Except Stop (α × BitList)} (hrun : ∀ o, x.run o.fields = settle o (op o))
    (hview : ∀ o, (op o).map (Prod.map id Owned.view) = f o.view) : ActsAs x f := by
  intro o
  rw [← hview o, hrun o]
  cases op o with
  | ok r => exact ⟨r.2, rfl, rfl⟩
  | error stop => rfl

theorem outcome_map (r : Except ConcatError Owned) :
    (outcome r).map (Prod.map id Owned.view) = outcome (r.map Owned.view) := by
  cases r with
  | ok o => rfl
  | error err => rfl

theorem extend_actsAs (suffix : Slice) :
    ActsAs (extend suffix) fun l => outcome (concatenated l suffix.view) :=
  .of_run (run_extend · suffix) fun o => by rw [outcome_map, Owned.extend_view]

theorem pushBack_actsAs (bit : Bool) :
    ActsAs (pushBack bit) fun l => outcome (checked (l.push bit)) :=
  .of_run (run_pushBack · bit) fun o => by rw [outcome_map, Owned.pushBack_view]

theorem popBack_actsAs : ActsAs popBack fun l => .ok (match l.popBack with
    | none => (none, l)
    | some (bit, l') => (some bit, l')) := by
  apply ActsAs.of_run run_popBack
  intro o
  rw [← Owned.popBack_view]
  cases o.popBack with
  | none => rfl
  | some r => rfl

theorem truncate_actsAs (len : Nat) : ActsAs (truncate len) fun l => .ok ((), l.take len) :=
  .of_run (run_truncate · len) fun o => by rw [← Owned.truncate_view]; rfl

theorem setLast_actsAs (bit : Bool) : ActsAs (setLast bit) fun l => match l.setLast bit with
    | none => .error .panicked
    | some l' => .ok ((), l') := by
  apply ActsAs.of_run (run_setLast · bit)
  intro o
  rw [← Owned.setLast_view]
  cases o.setLast bit with
  | none => rfl
  | some o' => rfl

end Method

/-- Fields hold an owned slice when the bytes are those the bits need. -/
theorem Owned.exists_fields_iff (this : Fields) : (∃ o : Owned, o.fields = this) ↔
    this.length < 2 ^ 16 ∧ this.bytes.length =
      if this.length = 0 then 0 else (this.offset.val + this.length + 7) / 8 := by
  have hlen : bytesLen this.offset this.length =
      if this.length = 0 then 0 else (this.offset.val + this.length + 7) / 8 := by
    cases this.length with
    | zero => rfl
    | succ length => rfl
  rw [← hlen]
  constructor
  · rintro ⟨o, rfl⟩
    exact ⟨o.length_lt, o.size⟩
  · rintro ⟨hlt, hsize⟩
    exact ⟨⟨this.offset, this.length, this.bytes, hlt, hsize⟩, rfl⟩

/-- Slices work as lists of bits do. -/
structure SliceLaws : Prop where
  popFront : ∀ s : Slice, s.popFront.map (Prod.map id Slice.view) = s.view.popFront
  popBack : ∀ s : Slice, s.popBack.map (Prod.map id Slice.view) = s.view.popBack
  popFrontSlice : ∀ (s : Slice) (n : Nat),
    (s.popFrontSlice n).map (Prod.map Slice.view Slice.view) = s.view.splitAt n
  popBackSlice : ∀ (s : Slice) (n : Nat),
    (s.popBackSlice n).map (Prod.map Slice.view Slice.view) = s.view.splitBack n
  splitAt : ∀ (s : Slice) (n : Nat),
    (s.splitAt n).map (Prod.map Slice.view Slice.view) = s.view.splitAt n
  startsWith : ∀ s pre : Slice, s.startsWith pre = true ↔ s.view.Begins pre.view
  stripPrefix : ∀ s pre : Slice,
    (s.stripPrefix pre).map Slice.view = s.view.without pre.view
  eq : ∀ lhs rhs : Slice, lhs.eq rhs = true ↔ lhs.view = rhs.view

/-- Owned slices work as lists of bits do and keep the bytes those need. -/
structure OwnedLaws : Prop where
  ofSlice : ∀ s : Slice, (Owned.ofSlice s).view = s.view
  asSlice : ∀ o : Owned, o.asSlice.view = o.view
  eq : ∀ lhs rhs : Owned, lhs.eq rhs = true ↔ lhs.view = rhs.view
  concatBit : ∀ (bit : Bool) (suffix : Slice),
    (Owned.concatBit bit suffix).map Owned.view = checked (suffix.view.cons bit)
  concat : ∀ pre suffix : Slice,
    (Owned.concat pre suffix).map Owned.view = concatenated pre.view suffix.view
  extend : ∀ suffix : Slice,
    Method.ActsAs (Method.extend suffix) fun l => Method.outcome (concatenated l suffix.view)
  pushBack : ∀ bit : Bool,
    Method.ActsAs (Method.pushBack bit) fun l => Method.outcome (checked (l.push bit))
  popBack : Method.ActsAs Method.popBack fun l => .ok (match l.popBack with
    | none => (none, l)
    | some (bit, l') => (some bit, l'))
  truncate : ∀ len : Nat, Method.ActsAs (Method.truncate len) fun l => .ok ((), l.take len)
  setLast : ∀ bit : Bool, Method.ActsAs (Method.setLast bit) fun l => match l.setLast bit with
    | none => .error .panicked
    | some l' => .ok ((), l')
  size : ∀ this : Fields, (∃ o : Owned, o.fields = this) ↔
    this.length < 2 ^ 16 ∧ this.bytes.length =
      if this.length = 0 then 0 else (this.offset.val + this.length + 7) / 8

/-- No operation depends on bits outside of the slices it is given. -/
theorem slices_are_lists_of_bits : SliceLaws ∧ OwnedLaws :=
  ⟨{ popFront := Slice.popFront_view
     popBack := Slice.popBack_view
     popFrontSlice := Slice.splitAt_view
     popBackSlice := Slice.popBackSlice_view
     splitAt := Slice.splitAt_view
     startsWith := fun _ _ => Slice.startsWith_view
     stripPrefix := Slice.stripPrefix_view
     eq := fun _ _ => Slice.eq_view },
   { ofSlice := Owned.view_ofSlice
     asSlice := Owned.view_asSlice
     eq := fun _ _ => Owned.eq_view
     concatBit := Owned.concatBit_view
     concat := Owned.concat_view
     extend := Method.extend_actsAs
     pushBack := Method.pushBack_actsAs
     popBack := Method.popBack_actsAs
     truncate := Method.truncate_actsAs
     setLast := Method.setLast_actsAs
     size := Owned.exists_fields_iff }⟩

end Bits
