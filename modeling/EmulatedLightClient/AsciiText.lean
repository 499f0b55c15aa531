import EmulatedLightClient.ByteBits
import Mathlib.Algebra.Ring.Nat
import Mathlib.Data.List.TakeWhile
import Mathlib.Tactic.IntervalCases

/-!
# Numbers and binary data as text

Text is a string of bytes. Decimal numbers are read as Rust reads them, with an
optional plus sign and any number of leading zeros. Base64 is without padding.
-/

namespace AsciiText

open ByteBits

def ascii (s : String) : List Byte := s.toList.map fun c => BitVec.ofNat 8 c.toNat

def chars (s : List Byte) : List Char := s.map fun b => Char.ofNat b.toNat

/-- The shortest way to write a number. -/
def decimal (n : Nat) : List Byte := (Nat.toDigits 10 n).map fun c => BitVec.ofNat 8 c.toNat

def withoutPlus : List Char → List Char
  | '+' :: digits => digits
  | digits => digits

/-- `from_str` of the unsigned type with `w` bits. -/
def parseNum (w : Nat) (s : List Byte) : Option Nat :=
  let digits := withoutPlus (chars s)
  let n := Nat.ofDigitChars 10 digits 0
  if digits ≠ [] ∧ digits.all Char.isDigit ∧ n < 2 ^ w then some n else none

theorem char_ofNat_ofNat {c : Char} (h : c.isDigit) : Char.ofNat (BitVec.ofNat 8 c.toNat).toNat = c := by
  have hle : c.toNat ≤ 57 := by
    simp only [Char.isDigit, Bool.and_eq_true, decide_eq_true_eq] at h
    exact h.2
  rw [BitVec.toNat_ofNat, Nat.mod_eq_of_lt (by omega)]
  exact Char.ofNat_toNat c

theorem chars_decimal (n : Nat) : chars (decimal n) = Nat.toDigits 10 n := by
  unfold chars decimal
  rw [List.map_map]
  refine (List.map_congr_left fun c hc => ?_).trans (List.map_id _)
  exact char_ofNat_ofNat (Nat.isDigit_of_mem_toDigits (by decide) (by decide) hc)

theorem withoutPlus_toDigits (n : Nat) : withoutPlus (Nat.toDigits 10 n) = Nat.toDigits 10 n := by
  unfold withoutPlus
  split
  · rename_i digits heq
    have hdigit : ('+').isDigit :=
      Nat.isDigit_of_mem_toDigits (b := 10) (n := n) (by decide) (by decide) (by rw [heq]; simp)
    exact absurd hdigit (by decide)
  · rfl

theorem parseNum_eq_some {w n : Nat} {s : List Byte} (h : parseNum w s = some n) :
    withoutPlus (chars s) ≠ [] ∧ (withoutPlus (chars s)).all Char.isDigit ∧
      Nat.ofDigitChars 10 (withoutPlus (chars s)) 0 = n := by
  simp only [parseNum] at h
  split at h
  · rename_i hs
    exact ⟨hs.1, hs.2.1, Option.some.inj h⟩
  · cases h

theorem parseNum_decimal {w n : Nat} : parseNum w (decimal n) = if n < 2 ^ w then some n else none := by
  unfold parseNum
  simp only [chars_decimal, withoutPlus_toDigits, Nat.ofDigitChars_ten_toDigits]
  have hdigits : (Nat.toDigits 10 n).all Char.isDigit :=
    List.all_eq_true.mpr fun c hc => Nat.isDigit_of_mem_toDigits (by decide) (by decide) hc
  by_cases hlt : n < 2 ^ w
  · rw [if_pos ⟨Nat.toDigits_ne_nil, hdigits, hlt⟩, if_pos hlt]
  · rw [if_neg fun h => hlt h.2.2, if_neg hlt]

theorem parseNum_lt {w n : Nat} {s : List Byte} (h : parseNum w s = some n) : n < 2 ^ w := by
  simp only [parseNum] at h
  split at h
  · rename_i hs
    exact Option.some.inj h ▸ hs.2.2
  · cases h

/-- Neither a sign nor leading zeros. -/
def PlainDecimal (s : List Byte) : Prop := s = [48#8] ∨ s.head? ≠ some 48#8 ∧ s.head? ≠ some 43#8

instance (s : List Byte) : Decidable (PlainDecimal s) := inferInstanceAs (Decidable (_ ∨ _))

theorem digitChar_sub {c : Char} (h : c.isDigit) :
    c.toNat - '0'.toNat < 10 ∧ Nat.digitChar (c.toNat - '0'.toNat) = c := by
  simp only [Char.isDigit, Bool.and_eq_true, decide_eq_true_eq] at h
  have hlo : 48 ≤ c.toNat := h.1
  have hhi : c.toNat ≤ 57 := h.2
  have hzero : '0'.toNat = 48 := rfl
  have hlt : c.toNat - '0'.toNat < 10 := by omega
  refine ⟨hlt, Char.toNat_inj.mp ?_⟩
  rw [Nat.toNat_digitChar_of_lt_ten hlt]
  omega

theorem toDigits_append_digits {cs : List Char} {n : Nat} (hn : 0 < n) (hcs : ∀ c ∈ cs, c.isDigit) :
    Nat.toDigits 10 n ++ cs = Nat.toDigits 10 (Nat.ofDigitChars 10 cs n) := by
  induction cs generalizing n with
  | nil => simp
  | cons c cs ih =>
    obtain ⟨hc, hcs⟩ := List.forall_mem_cons.mp hcs
    obtain ⟨hlt, hchar⟩ := digitChar_sub hc
    have hstep := Nat.toDigits_append_toDigits (b := 10) (by decide) hn hlt
    rw [Nat.toDigits_of_lt_base hlt, hchar] at hstep
    rw [Nat.ofDigitChars_cons, ← ih (by omega) hcs, ← hstep, List.append_assoc]
    rfl

/-- Digits which do not start with zero are the digits of a number. -/
theorem toDigits_ofDigitChars {c : Char} {cs : List Char} (hc : c.isDigit) (hcs : ∀ d ∈ cs, d.isDigit)
    (hzero : c ≠ '0') :
    Nat.toDigits 10 (Nat.ofDigitChars 10 (c :: cs) 0) = c :: cs := by
  obtain ⟨hlt, hchar⟩ := digitChar_sub hc
  have hpos : 0 < c.toNat - '0'.toNat := by
    rcases Nat.eq_zero_or_pos (c.toNat - '0'.toNat) with h | h
    · rw [h] at hchar
      exact absurd hchar.symm hzero
    · exact h
  rw [Nat.ofDigitChars_cons, Nat.mul_zero, Nat.zero_add, ← toDigits_append_digits hpos hcs,
    Nat.toDigits_of_lt_base hlt, hchar]
  rfl

theorem head_toDigits {n : Nat} (hn : 0 < n) : (Nat.toDigits 10 n).head? ≠ some '0' := by
  induction n using Nat.base_induction 10 (by decide) with
  | single n hlt =>
    rw [Nat.toDigits_of_lt_base hlt]
    interval_cases n <;> decide
  | digit n d hd hpos ih =>
    rw [← Nat.toDigits_append_toDigits (by decide) hpos hd, List.head?_append_of_ne_nil _ Nat.toDigits_ne_nil]
    exact ih hpos

theorem toNat_char (b : Byte) : (Char.ofNat b.toNat).toNat = b.toNat := by
  have hvalid : b.toNat.isValidChar := .inl (by have := b.isLt; omega)
  rw [Char.ofNat, dif_pos hvalid]
  rfl

theorem char_inj {b d : Byte} (h : Char.ofNat b.toNat = Char.ofNat d.toNat) : b = d := by
  apply BitVec.eq_of_toNat_eq
  rw [← toNat_char b, h, toNat_char]

theorem bytes_chars (s : List Byte) : ((chars s).map fun c => BitVec.ofNat 8 c.toNat) = s := by
  unfold chars
  rw [List.map_map]
  refine (List.map_congr_left fun b _ => ?_).trans (List.map_id _)
  rw [Function.comp_apply, toNat_char, BitVec.ofNat_toNat, BitVec.setWidth_eq]
  rfl

theorem withoutPlus_of_ne {c : Char} (h : c ≠ '+') (cs : List Char) : withoutPlus (c :: cs) = c :: cs := by
  unfold withoutPlus
  split
  · rename_i heq
    exact absurd (List.cons.inj heq).1 h
  · rfl

theorem plainDecimal_decimal (n : Nat) : PlainDecimal (decimal n) := by
  rcases Nat.eq_zero_or_pos n with rfl | hn
  · exact .inl rfl
  · have hhead : ∀ b, (decimal n).head? = some b → (Nat.toDigits 10 n).head? = some (Char.ofNat b.toNat) := by
      intro b hb
      rw [← chars_decimal, chars, List.head?_map, hb]
      rfl
    refine .inr ⟨fun h => head_toDigits hn (hhead _ h), fun h => ?_⟩
    have hmem := Nat.isDigit_of_mem_toDigits (by decide) (by decide) (List.mem_of_mem_head? (hhead _ h))
    exact absurd hmem (by decide)

/-- A number is written as it was read if and only if it had no sign and no leading zeros. -/
theorem decimal_of_parseNum {w n : Nat} {s : List Byte} (h : parseNum w s = some n) :
    decimal n = s ↔ PlainDecimal s := by
  constructor
  · rintro rfl
    exact plainDecimal_decimal n
  · rintro (rfl | ⟨hzero, hplus⟩)
    · have hdecimal : parseNum w (decimal 0) = some n := h
      rw [parseNum_decimal, if_pos (Nat.two_pow_pos w)] at hdecimal
      cases hdecimal
      rfl
    · obtain ⟨hne, hall, hn⟩ := parseNum_eq_some h
      cases s with
      | nil => exact absurd rfl hne
      | cons b s =>
        have hchar : ∀ d : Byte, (b :: s).head? ≠ some d → Char.ofNat b.toNat ≠ Char.ofNat d.toNat :=
          fun d hd heq => hd (congrArg some (char_inj heq))
        have hcons : withoutPlus (chars (b :: s)) = chars (b :: s) := withoutPlus_of_ne (hchar 43#8 hplus) _
        rw [hcons] at hall hn
        have hdigits := List.forall_mem_cons.mp (List.all_eq_true.mp hall)
        have hwritten : Nat.toDigits 10 n = chars (b :: s) := by
          rw [← hn]
          exact toDigits_ofDigitChars hdigits.1 hdigits.2 (hchar 48#8 hzero)
        rw [decimal, hwritten, bytes_chars]

def stripPrefix (p s : List Byte) : Option (List Byte) := if p <+: s then some (s.drop p.length) else none

/-- Splits at the last occurrence of a byte. -/
def rsplitOnce (b : Byte) (s : List Byte) : Option (List Byte × List Byte) :=
  match s.reverse.span (· ≠ b) with
  | (_, []) => none
  | (tail, _ :: head) => some (head.reverse, tail.reverse)

theorem stripPrefix_append (p s : List Byte) : stripPrefix p (p ++ s) = some s := by
  simp [stripPrefix]

/-- Padding with a byte which does not occur can be told from the text. -/
theorem append_replicate_inj {b : Byte} {s t : List Byte} {m n : Nat} (hs : b ∉ s) (ht : b ∉ t)
    (h : s ++ List.replicate m b = t ++ List.replicate n b) : s = t := by
  have htake : ∀ (u : List Byte) (k : Nat), b ∉ u → (u ++ List.replicate k b).takeWhile (· ≠ b) = u := by
    intro u k hu
    rw [List.takeWhile_append_of_pos fun x hx => by simpa using fun heq : x = b => hu (heq ▸ hx)]
    cases k with
    | zero => simp
    | succ k => simp [List.replicate_succ]
  rw [← htake s m hs, h, htake t n ht]

/-- Value of a digit of the standard alphabet. -/
def sextet (b : Byte) : Option Nat :=
  let c := b.toNat
  if 65 ≤ c ∧ c ≤ 90 then some (c - 65)
  else if 97 ≤ c ∧ c ≤ 122 then some (c - 71)
  else if 48 ≤ c ∧ c ≤ 57 then some (c + 4)
  else if c = 43 then some 62
  else if c = 47 then some 63
  else none

/-- Four digits give three bytes. -/
def decodeBase64 : List Byte → Option (List Byte)
  | [] => some []
  | a :: b :: c :: d :: s => do
    let n := ((← sextet a) * 64 + (← sextet b)) * 64 * 64 + (← sextet c) * 64 + (← sextet d)
    let bytes ← decodeBase64 s
    return BitVec.ofNat 8 (n / 256 / 256) :: BitVec.ofNat 8 (n / 256) :: BitVec.ofNat 8 n :: bytes
  | _ => none

/-- Digit of the standard alphabet with given value. -/
def digit (n : Nat) : Byte :=
  if n < 26 then BitVec.ofNat 8 (n + 65)
  else if n < 52 then BitVec.ofNat 8 (n + 71)
  else if n < 62 then BitVec.ofNat 8 (n - 4)
  else if n = 62 then 43#8
  else 47#8

/-- Three bytes give four digits, with equals signs in place of the digits of missing bytes. -/
def encodeBase64 : List Byte → List Byte
  | [] => []
  | [a] =>
    let n := a.toNat * 16
    [digit (n / 64), digit (n % 64), 61#8, 61#8]
  | [a, b] =>
    let n := (a.toNat * 256 + b.toNat) * 4
    [digit (n / 64 / 64), digit (n / 64 % 64), digit (n % 64), 61#8]
  | a :: b :: c :: s =>
    let n := (a.toNat * 256 + b.toNat) * 256 + c.toNat
    digit (n / 64 / 64 / 64) :: digit (n / 64 / 64 % 64) :: digit (n / 64 % 64) :: digit (n % 64) :: encodeBase64 s

theorem sextet_digit : ∀ n < 64, sextet (digit n) = some n := by decide

theorem digit_of_sextet {b : Byte} {n : Nat} (h : sextet b = some n) : digit n = b := by
  simp only [sextet] at h
  apply BitVec.eq_of_toNat_eq
  simp only [digit]
  grind

theorem sextet_lt {b : Byte} {n : Nat} (h : sextet b = some n) : n < 64 := by
  simp only [sextet] at h
  grind

theorem sextet_inj {a b : Byte} {n : Nat} (ha : sextet a = some n) (hb : sextet b = some n) : a = b := by
  apply BitVec.eq_of_toNat_eq
  simp only [sextet] at ha hb
  grind

theorem decodeBase64_cons {a b c d : Byte} {s bytes : List Byte}
    (h : decodeBase64 (a :: b :: c :: d :: s) = some bytes) :
    ∃ w x y z rest, sextet a = some w ∧ sextet b = some x ∧ sextet c = some y ∧ sextet d = some z ∧
      decodeBase64 s = some rest ∧
      bytes = BitVec.ofNat 8 (((w * 64 + x) * 64 * 64 + y * 64 + z) / 256 / 256) ::
        BitVec.ofNat 8 (((w * 64 + x) * 64 * 64 + y * 64 + z) / 256) ::
        BitVec.ofNat 8 ((w * 64 + x) * 64 * 64 + y * 64 + z) :: rest := by
  simp only [decodeBase64, Option.bind_eq_bind, Option.bind_eq_some_iff] at h
  obtain ⟨w, hw, x, hx, y, hy, z, hz, rest, hrest, h⟩ := h
  exact ⟨w, x, y, z, rest, hw, hx, hy, hz, hrest, (Option.some.inj h).symm⟩

theorem decodeBase64_eq_none {s : List Byte} (hnil : s = [] → False)
    (hcons : ∀ a b c d t, s = a :: b :: c :: d :: t → False) : decodeBase64 s = none := by
  rw [decodeBase64]
  · exact hnil
  · exact hcons

theorem decodeBase64_inj {s t bytes : List Byte} (hs : decodeBase64 s = some bytes)
    (ht : decodeBase64 t = some bytes) (hlen : s.length = t.length) : s = t := by
  induction s using decodeBase64.induct generalizing t bytes with
  | case1 => exact (List.length_eq_zero_iff.mp hlen.symm).symm
  | case2 a b c d s ih =>
    obtain ⟨a', b', c', d', t, rfl⟩ : ∃ a' b' c' d' t', t = a' :: b' :: c' :: d' :: t' := by
      rcases t with _ | ⟨a', _ | ⟨b', _ | ⟨c', _ | ⟨d', t⟩⟩⟩⟩
      all_goals first | exact ⟨_, _, _, _, _, rfl⟩ | (simp only [List.length_cons, List.length_nil] at hlen; omega)
    obtain ⟨w, x, y, z, rest, hw, hx, hy, hz, hrest, rfl⟩ := decodeBase64_cons hs
    obtain ⟨w', x', y', z', rest', hw', hx', hy', hz', hrest', heq⟩ := decodeBase64_cons ht
    simp only [List.cons.injEq, ← BitVec.toNat_inj, BitVec.toNat_ofNat] at heq
    obtain ⟨h₁, h₂, h₃, rfl⟩ := heq
    have hlt := sextet_lt hw
    have hlt := sextet_lt hx
    have hlt := sextet_lt hy
    have hlt := sextet_lt hz
    have hlt := sextet_lt hw'
    have hlt := sextet_lt hx'
    have hlt := sextet_lt hy'
    have hlt := sextet_lt hz'
    obtain rfl : w = w' := by omega
    obtain rfl : x = x' := by omega
    obtain rfl : y = y' := by omega
    obtain rfl : z = z' := by omega
    rw [sextet_inj hw hw', sextet_inj hx hx', sextet_inj hy hy', sextet_inj hz hz',
      ih hrest hrest' (by simpa using hlen)]
  | case3 s hnil hcons =>
    rw [decodeBase64_eq_none hnil hcons] at hs
    cases hs

theorem length_decodeBase64 {s bytes : List Byte} (h : decodeBase64 s = some bytes) :
    bytes.length * 4 = s.length * 3 := by
  induction s using decodeBase64.induct generalizing bytes with
  | case1 =>
    cases h
    rfl
  | case2 a b c d s ih =>
    obtain ⟨w, x, y, z, rest, -, -, -, -, hrest, rfl⟩ := decodeBase64_cons h
    have hlen := ih hrest
    simp only [List.length_cons]
    omega
  | case3 s hnil hcons =>
    rw [decodeBase64_eq_none hnil hcons] at h
    cases h

/-- The digits of what was decoded. -/
theorem encodeBase64_of_decodeBase64 {s bytes : List Byte} (h : decodeBase64 s = some bytes) :
    encodeBase64 bytes = s := by
  induction s using decodeBase64.induct generalizing bytes with
  | case1 =>
    cases h
    rfl
  | case2 a b c d s ih =>
    obtain ⟨w, x, y, z, rest, hw, hx, hy, hz, hrest, rfl⟩ := decodeBase64_cons h
    have hwlt := sextet_lt hw
    have hxlt := sextet_lt hx
    have hylt := sextet_lt hy
    have hzlt := sextet_lt hz
    simp only [encodeBase64, BitVec.toNat_ofNat, ih hrest]
    congr 1
    · rw [← digit_of_sextet hw]
      congr 1
      omega
    congr 1
    · rw [← digit_of_sextet hx]
      congr 1
      omega
    congr 1
    · rw [← digit_of_sextet hy]
      congr 1
      omega
    congr 1
    rw [← digit_of_sextet hz]
    congr 1
    omega
  | case3 s hnil hcons =>
    rw [decodeBase64_eq_none hnil hcons] at h
    cases h

theorem decodeBase64_encodeBase64 {bytes : List Byte} (h : 3 ∣ bytes.length) :
    decodeBase64 (encodeBase64 bytes) = some bytes := by
  induction bytes using encodeBase64.induct with
  | case1 => rfl
  | case2 a => exact absurd h (by simp)
  | case3 a b => exact absurd h (by simp)
  | case4 a b c s ih =>
    have halt := a.isLt
    have hblt := b.isLt
    have hclt := c.isLt
    have hs : 3 ∣ s.length := by
      simp only [List.length_cons] at h
      omega
    simp only [encodeBase64, decodeBase64, ih hs]
    rw [sextet_digit _ (by omega), sextet_digit _ (by omega), sextet_digit _ (by omega), sextet_digit _ (by omega)]
    simp only [Option.bind_eq_bind, Option.bind_some, Option.pure_def, Option.some.injEq, List.cons.injEq, and_true]
    refine ⟨?_, ?_, ?_⟩ <;> apply BitVec.eq_of_toNat_eq <;> rw [BitVec.toNat_ofNat] <;> omega

/-- Every character of a text which can be decoded is a digit. -/
theorem isSome_sextet_of_mem {s bytes : List Byte} (h : decodeBase64 s = some bytes) : ∀ b ∈ s, (sextet b).isSome := by
  induction s using decodeBase64.induct generalizing bytes with
  | case1 => exact List.forall_mem_nil _
  | case2 a b c d s ih =>
    obtain ⟨w, x, y, z, rest, hw, hx, hy, hz, hrest, -⟩ := decodeBase64_cons h
    simp only [List.forall_mem_cons, hw, hx, hy, hz, Option.isSome_some, true_and]
    exact ih hrest
  | case3 s hnil hcons =>
    rw [decodeBase64_eq_none hnil hcons] at h
    cases h

end AsciiText
