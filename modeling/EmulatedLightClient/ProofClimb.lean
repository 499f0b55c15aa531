import EmulatedLightClient.TrieProof

/-!
# Verification as a climb

Verifying a proof starts with a reference which is claimed to be found at some
part of the key and climbs, one proof item at a time, towards the root. Both
kinds of proofs share the climb and differ in where it starts.
-/

namespace TrieProof

open ByteBits Bits Nodes

variable (digest : List Byte → CryptoHash)

/-- The reference reached from `want`, with the part of the key left above it. -/
def climb (key : Slice) (want : OwnedRef) : List Item → Option (Slice × OwnedRef)
  | [] => some (key, want)
  | item :: items =>
    (itemNode key want item).bind fun (key, node) => climb key (OwnedRef.toNode digest node) items

/-- Byte strings which are hashed on the climb. -/
def climbHashed (key : Slice) (want : OwnedRef) : List Item → List (List Byte)
  | [] => []
  | item :: items =>
    match itemNode key want item with
    | none => []
    | some (key, node) => node.preimage :: climbHashed key (OwnedRef.toNode digest node) items

namespace Proof

def items : Proof → List Item
  | positive proof => proof.items
  | negative proof => proof.items

/-- Where the climb starts when the proof is checked against given value. -/
def start (proof : Proof) (valueHash : Option CryptoHash) (key : Slice) :
    Option (Slice × OwnedRef) :=
  match proof, valueHash with
  | positive _, some hash => some (key, OwnedRef.value hash)
  | negative proof, none => proof.actual.bind (actualReference digest key)
  | _, _ => none

/-- All byte strings which are hashed while the proof is verified. -/
def hashed (proof : Proof) (key : List Byte) (valueHash : Option CryptoHash) :
    List (List Byte) :=
  match Slice.fromBytes key with
  | none => []
  | some key =>
    let actual :=
      match proof with
      | negative ⟨some actual, _⟩ => (actualNode key actual).toList.map (·.2.preimage)
      | _ => []
    let above :=
      match proof.start digest valueHash key with
      | none => []
      | some (key, want) => climbHashed digest key want proof.items
    actual ++ above

end Proof

variable {digest}

theorem climb_append (key : Slice) (want : OwnedRef) (xs ys : List Item) :
    climb digest key want (xs ++ ys) =
      (climb digest key want xs).bind fun (key, want) => climb digest key want ys := by
  induction xs generalizing key want with
  | nil => rfl
  | cons item xs ih =>
    simp only [List.cons_append, climb]
    cases itemNode key want item with
    | none => rfl
    | some r => exact ih r.1 (OwnedRef.toNode digest r.2)

theorem verifyImpl_isSome {root : CryptoHash} {key : Slice} {want : OwnedRef}
    {items : List Item} :
    (verifyImpl digest root key want items).isSome = true ↔
      ∃ key', climb digest key want items = some (key', OwnedRef.node root) ∧ key'.bits = [] := by
  induction items generalizing key want with
  | nil =>
    obtain ⟨isValue, hash⟩ := want
    simp only [verifyImpl, climb, OwnedRef.node, Option.isSome_ite, Bool.and_eq_true,
      Bool.not_eq_true', beq_iff_eq, Slice.isEmpty_iff, Option.some.injEq, Prod.mk.injEq,
      OwnedRef.mk.injEq]
    constructor
    · rintro ⟨⟨hk, rfl⟩, rfl⟩
      exact ⟨key, ⟨rfl, rfl, rfl⟩, hk⟩
    · rintro ⟨key', ⟨rfl, rfl, rfl⟩, hk⟩
      exact ⟨⟨hk, rfl⟩, rfl⟩
  | cons item items ih =>
    simp only [verifyImpl, climb]
    cases itemNode key want item with
    | none => simp
    | some r => exact ih

/-- Away from the empty trie a proof is valid when its climb ends at the root. -/
theorem verify_iff {proof : Proof} {root : CryptoHash} {key : List Byte}
    {valueHash : Option CryptoHash} (hroot : root ≠ CryptoHash.default) :
    proof.verify digest root key valueHash = true ↔
      ∃ s s₁ want s', Slice.fromBytes key = some s ∧
        proof.start digest valueHash s = some (s₁, want) ∧
        climb digest s₁ want proof.items = some (s', OwnedRef.node root) ∧ s'.bits = [] := by
  cases hs : Slice.fromBytes key with
  | none =>
    cases proof <;> cases valueHash <;>
      simp [Proof.verify, Membership.verify, NonMembership.verify, NonMembership.getReference,
        hroot, hs]
  | some s =>
    have hform : proof.verify digest root key valueHash = true ↔
        ∃ s₁ want, proof.start digest valueHash s = some (s₁, want) ∧
          (verifyImpl digest root s₁ want proof.items).isSome = true := by
      cases proof with
      | positive p =>
        cases valueHash with
        | none => simp [Proof.verify, Proof.start]
        | some hash => simp [Proof.verify, Membership.verify, Proof.start, hroot, hs, Proof.items]
      | negative p =>
        cases valueHash with
        | some hash => simp [Proof.verify, Proof.start]
        | none =>
          simp only [Proof.verify, NonMembership.verify, NonMembership.getReference, hs,
            if_neg hroot, Proof.start, Proof.items, Option.bind_some]
          cases p.actual.bind (actualReference digest s) with
          | none => simp
          | some r =>
            obtain ⟨s₁, want⟩ := r
            simp
    rw [hform]
    constructor
    · rintro ⟨s₁, want, hstart, hv⟩
      obtain ⟨s', hc, hnil⟩ := verifyImpl_isSome.mp hv
      exact ⟨s, s₁, want, s', rfl, hstart, hc, hnil⟩
    · rintro ⟨s₀, s₁, want, s', hs₀, hstart, hc, hnil⟩
      cases hs₀
      exact ⟨s₁, want, hstart, verifyImpl_isSome.mpr ⟨s', hc, hnil⟩⟩

end TrieProof
