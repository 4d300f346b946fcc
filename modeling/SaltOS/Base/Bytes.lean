import Mathlib.Algebra.GroupWithZero.Nat
import Mathlib.Data.List.TakeWhile

/-!
# Byte strings

C strings and file contents are lists of bytes.  A C string holds no zero
byte; its terminator is the end of the list.
-/

namespace SaltOS

abbrev Bytes := List UInt8

instance : LawfulBEq Bytes :=
  inferInstance

/-- The bytes of an ASCII literal of the source. -/
def ascii (text : String) : Bytes :=
  text.toList.map (fun char => char.toNat.toUInt8)

/-- A property of bytes is checked on the 256 of them. -/
theorem forall_byte (property : UInt8 → Prop)
    (holds : ∀ value : Fin 256, property (UInt8.ofNat value)) (byte : UInt8) :
    property byte := by
  simpa using holds ⟨byte.toNat, byte.toNat_lt⟩

/-- The C string at the start of a buffer. -/
def cstr (bytes : Bytes) : Bytes :=
  bytes.takeWhile (· != 0)

theorem cstr_append_zero {text rest : Bytes} (noNul : 0 ∉ text) :
    cstr (text ++ 0 :: rest) = text := by
  have nonzero : ∀ byte ∈ text, (byte != 0) = true := fun byte member => by
    simpa using fun isZero : byte = 0 => noNul (isZero ▸ member)
  simp [cstr, List.takeWhile_append_of_pos nonzero]

theorem cstr_eq_self {text : Bytes} (noNul : 0 ∉ text) : cstr text = text := by
  refine List.takeWhile_eq_self_iff.mpr (fun byte member => ?_)
  simpa using fun isZero : byte = 0 => noNul (isZero ▸ member)

theorem zero_not_mem_cstr (bytes : Bytes) : 0 ∉ cstr bytes := by
  intro member
  simpa using List.mem_takeWhile_imp member

/-- `salt_buf_printf`: `vsnprintf` fails on a text whose length is no `int`,
and then nothing is appended. -/
def bufPrintf (text : Bytes) : Bytes :=
  if text.length < 2 ^ 31 then text else []

theorem bufPrintf_eq {text : Bytes} (short : text.length < 2 ^ 31) :
    bufPrintf text = text :=
  if_pos short

/-- A text ends at the first zero byte. -/
theorem length_cstr_lt {text : Bytes} {bound : Nat}
    (nul : 0 ∈ text.take bound) (rest : Bytes) :
    (cstr (text ++ rest)).length < bound := by
  obtain ⟨before, after, isText, noNul⟩ := List.eq_append_cons_of_mem nul
  have whole : text ++ rest =
      before ++ 0 :: (after ++ text.drop bound ++ rest) := by
    have split := List.take_append_drop bound text
    rw [isText, List.append_assoc, List.cons_append] at split
    rw [← congrArg (· ++ rest) split]
    simp
  have lengths := congrArg List.length isText
  simp only [List.length_take, List.length_append,
    List.length_cons] at lengths
  rw [whole, cstr_append_zero noNul]
  omega

theorem length_cstr_append_le (text rest : Bytes) :
    (cstr (text ++ rest)).length ≤ text.length + (cstr rest).length := by
  unfold cstr
  rw [List.takeWhile_append]
  split
  · rw [List.length_append]
  · apply Nat.le_trans (List.takeWhile_prefix _).length_le
    omega

theorem length_cstr_take_le (text : Bytes) (size : Nat) :
    (cstr (text.take size)).length ≤ (cstr text).length := by
  have split := List.take_append_drop size text
  rw [← congrArg cstr split]
  unfold cstr
  rw [List.takeWhile_append]
  split
  · rename_i all
    rw [all, List.length_append]
    omega
  · exact Nat.le_refl _

namespace Bytes

def isDigit (byte : UInt8) : Bool :=
  48 ≤ byte && byte ≤ 57

/-- The sign of `strcmp`. -/
def strcmp : Bytes → Bytes → Int
  | [], [] => 0
  | [], _ :: _ => -1
  | _ :: _, [] => 1
  | x :: xs, y :: ys =>
      if x < y then -1 else if y < x then 1 else strcmp xs ys

/-- The text after the first dash, or the empty text. -/
def afterDash (text : Bytes) : Bytes :=
  (text.dropWhile (· != 45)).drop 1

end Bytes

end SaltOS
