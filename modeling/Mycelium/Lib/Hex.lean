import Mathlib.Data.List.Basic
import Mathlib.Data.Nat.Basic

/-!
# Bytes as hexadecimal texts

`encode` writes two lower-case digits for each byte and `decode` reads digits of either case.
What was written reads back (`decode_encode`), and a text that reads at all has two digits for
each byte it reads as (`length_of_decode`). So a text that was cut off reads as fewer bytes or
not at all.
-/

set_option autoImplicit false

namespace Hex

def digit (d : ℕ) : Char := Char.ofNat (if d < 10 then 48 + d else 87 + d)

def digitValue (c : Char) : Option ℕ :=
  if '0' ≤ c ∧ c ≤ '9' then some (c.toNat - 48)
  else if 'a' ≤ c ∧ c ≤ 'f' then some (c.toNat - 87)
  else if 'A' ≤ c ∧ c ≤ 'F' then some (c.toNat - 55)
  else none

def encode : List UInt8 → List Char
  | [] => []
  | b :: bs => digit (b.toNat / 16) :: digit (b.toNat % 16) :: encode bs

/-- `none` for an odd number of digits and for any other character. -/
def decode : List Char → Option (List UInt8)
  | [] => some []
  | [_] => none
  | high :: low :: rest =>
    match digitValue high, digitValue low with
    | some h, some l => (decode rest).map fun bs => UInt8.ofNat (16 * h + l) :: bs
    | _, _ => none

theorem digitValue_digit {d : ℕ} (h : d < 16) : digitValue (digit d) = some d := by
  have hall : ∀ d < 16, digitValue (digit d) = some d := by decide
  exact hall d h

@[simp] theorem length_encode (bs : List UInt8) : (encode bs).length = 2 * bs.length := by
  induction bs with
  | nil => rfl
  | cons b bs ih =>
    simp only [encode, List.length_cons, ih]
    omega

theorem decode_encode (bs : List UInt8) : decode (encode bs) = some bs := by
  induction bs with
  | nil => rfl
  | cons b bs ih =>
    have hb := b.toNat_lt
    have hhigh : b.toNat / 16 < 16 := by omega
    have hlow : b.toNat % 16 < 16 := by omega
    have hbyte : 16 * (b.toNat / 16) + b.toNat % 16 = b.toNat := by omega
    simp only [encode, decode, digitValue_digit hhigh, digitValue_digit hlow, ih, Option.map_some,
      hbyte, UInt8.ofNat_toNat]

/-- INTERNAL: a text that reads has two digits for each byte. -/
theorem length_of_decode {text : List Char} {bs : List UInt8} (h : decode text = some bs) :
    text.length = 2 * bs.length := by
  induction text using decode.induct generalizing bs with
  | case1 =>
    simp only [decode, Option.some.injEq] at h
    rw [← h]
    rfl
  | case2 => simp only [decode, reduceCtorEq] at h
  | case3 high low rest hv lv hhigh hlow ih =>
    simp only [decode, hhigh, hlow, Option.map_eq_some_iff] at h
    obtain ⟨bs', hrest, rfl⟩ := h
    have := ih hrest
    simp only [List.length_cons]
    omega
  | case4 high low rest hnot =>
    simp only [decode] at h
    cases h

/-- INTERNAL: the characters of a written text are digits. -/
theorem digit_of_mem_encode {bs : List UInt8} {c : Char} (hc : c ∈ encode bs) :
    ∃ d < 16, c = digit d := by
  induction bs with
  | nil => cases hc
  | cons b bs ih =>
    have hb := b.toNat_lt
    simp only [encode, List.mem_cons] at hc
    rcases hc with rfl | rfl | hc
    · exact ⟨b.toNat / 16, by omega, rfl⟩
    · exact ⟨b.toNat % 16, by omega, rfl⟩
    · exact ih hc

end Hex
