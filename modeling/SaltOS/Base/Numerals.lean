import Mathlib.Data.Nat.Digits.Lemmas
import SaltOS.Base.Bytes

/-!
# Printed numbers

What `printf` prints for `%d`, `%llu` and `%o`, and what the loops that read
numerals back compute.
-/

namespace SaltOS

/-- The numeral of a digit below ten. -/
def digitByte (digit : Nat) : UInt8 :=
  (48 + digit).toUInt8

def digitValue (byte : UInt8) : Nat :=
  byte.toNat - 48

/-- The digits of a number, most significant first. -/
def printBase (base value : Nat) : Bytes :=
  if value = 0 then [48]
  else (Nat.digits base value).reverse.map digitByte

/-- Horner's rule over a run of digits. -/
def readBase (base : Nat) (digits : Bytes) : Nat :=
  digits.foldl (fun value byte => value * base + digitValue byte) 0

/-- `%0<width>`. -/
def padZeros (width : Nat) (digits : Bytes) : Bytes :=
  List.replicate (width - digits.length) 48 ++ digits

/-- `%d`. -/
def printInt (value : Int) : Bytes :=
  match value with
  | .ofNat magnitude => printBase 10 magnitude
  | .negSucc rest => 45 :: printBase 10 (rest + 1)

theorem digitByte_toNat {digit : Nat} (small : digit < 10) :
    (digitByte digit).toNat = 48 + digit := by
  simp [digitByte]
  omega

theorem digitValue_digitByte {digit : Nat} (small : digit < 10) :
    digitValue (digitByte digit) = digit := by
  simp [digitValue, digitByte_toNat small]

private theorem foldl_digits {base : Nat} (digits : List Nat)
    (small : ∀ digit ∈ digits, digit < 10) :
    readBase base (digits.reverse.map digitByte) =
      Nat.ofDigits base digits := by
  unfold readBase
  induction digits with
  | nil => rfl
  | cons digit rest induction =>
      have restSmall := fun other member =>
        small other (List.mem_cons_of_mem digit member)
      rw [Nat.ofDigits_cons, ← induction restSmall]
      simp [digitValue_digitByte (small digit List.mem_cons_self)]
      ring

theorem digits_small {base value : Nat} (two : 2 ≤ base) (ten : base ≤ 10) :
    ∀ digit ∈ Nat.digits base value, digit < 10 := fun _ member =>
  Nat.lt_of_lt_of_le (Nat.digits_lt_base two member) ten

theorem readBase_printBase {base value : Nat} (two : 2 ≤ base)
    (ten : base ≤ 10) : readBase base (printBase base value) = value := by
  by_cases zero : value = 0
  · simp [printBase, zero, readBase, digitValue]
  · simp only [printBase, zero, if_false]
    rw [foldl_digits _ (digits_small two ten), Nat.ofDigits_digits]

theorem readBase_zeros {base : Nat} (count : Nat) (digits : Bytes) :
    readBase base (List.replicate count 48 ++ digits) =
      readBase base digits := by
  induction count with
  | zero => rfl
  | succ count induction =>
      simpa [readBase, List.replicate_succ, digitValue] using induction

theorem printBase_bounds {base value : Nat} (two : 2 ≤ base)
    (ten : base ≤ 10) :
    ∀ byte ∈ printBase base value, 48 ≤ byte.toNat ∧
      byte.toNat < 48 + base := by
  intro byte member
  by_cases zero : value = 0
  · simp only [printBase, zero, if_true, List.mem_singleton] at member
    subst member
    exact ⟨by decide, by change 48 < 48 + base; omega⟩
  · simp only [printBase, zero, if_false, List.mem_map,
      List.mem_reverse] at member
    obtain ⟨digit, isDigit, rfl⟩ := member
    have below := Nat.digits_lt_base two isDigit
    rw [digitByte_toNat (Nat.lt_of_lt_of_le below ten)]
    omega

theorem printBase_length (base value width : Nat) (two : 2 ≤ base)
    (positive : 1 ≤ width) (small : value < base ^ width) :
    (printBase base value).length ≤ width := by
  by_cases zero : value = 0
  · simpa [printBase, zero] using positive
  · simpa [printBase, zero] using
      (Nat.digits_length_le_iff two value).mpr small

theorem printBase_ne_nil (base value : Nat) :
    printBase base value ≠ [] := by
  by_cases zero : value = 0
  · simp [printBase, zero]
  · simp [printBase, zero, Nat.digits_ne_nil_iff_ne_zero]

theorem padZeros_length {width : Nat} {digits : Bytes}
    (short : digits.length ≤ width) :
    (padZeros width digits).length = width := by
  simp [padZeros]
  omega

end SaltOS
