import Mathlib.Data.Prod.Lex
import Mathlib.Data.List.Lex
import SaltOS.Lib.Comparator
import SaltOS.Repo.Vercmp

/-!
# Versions are totally ordered

`salt_vercmp` compares two texts piece by piece: a piece is a whole run of
digits, without its leading zeros, or any other byte.
-/

namespace SaltOS.Repo

open Lib Bytes

/-! ## Pieces -/

/-- A piece of a version. -/
inductive Piece where
  | other (byte : UInt8)
  | run (digits : Bytes)
  deriving DecidableEq, Repr

/-- A digit before the pieces of what follows it. -/
def prependDigit (digit : UInt8) : List Piece → List Piece
  | .run digits :: rest => .run (digit :: digits) :: rest
  | rest => .run [digit] :: rest

/-- The pieces with the zeros that numbers may start with. -/
def rawPieces : Bytes → List Piece
  | [] => []
  | byte :: rest =>
      if isDigit byte then prependDigit byte (rawPieces rest)
      else .other byte :: rawPieces rest

def Piece.stripped : Piece → Piece
  | .other byte => .other byte
  | .run digits => .run (digits.dropWhile (· == 48))

/-- The numeric runs of a version, without leading zeros, and its other
bytes. -/
def pieces (text : Bytes) : List Piece :=
  (rawPieces text).map Piece.stripped

example : pieces (ascii "v1.010") =
    [.other 118, .run (ascii "1"), .other 46, .run (ascii "10")] := by
  decide

theorem rawPieces_digit {byte : UInt8} (rest : Bytes)
    (isDigit_ : isDigit byte = true) :
    rawPieces (byte :: rest) =
      .run ((byte :: rest).takeWhile isDigit) ::
        rawPieces ((byte :: rest).dropWhile isDigit) := by
  induction rest generalizing byte with
  | nil => simp [rawPieces, isDigit_, prependDigit]
  | cons next rest induction =>
      rw [rawPieces, if_pos isDigit_, List.takeWhile_cons_of_pos isDigit_,
        List.dropWhile_cons_of_pos isDigit_]
      by_cases nextIsDigit : isDigit next = true
      · rw [induction nextIsDigit, prependDigit]
      · rw [List.takeWhile_cons_of_neg nextIsDigit,
          List.dropWhile_cons_of_neg nextIsDigit]
        have notRun : rawPieces (next :: rest) =
            .other next :: rawPieces rest := by
          rw [rawPieces, if_neg nextIsDigit]
        rw [notRun, prependDigit]
        intro digits tail isRun
        cases isRun

theorem takeWhile_dropWhile_zeros (text : Bytes) :
    (text.dropWhile (· == 48)).takeWhile isDigit =
      (text.takeWhile isDigit).dropWhile (· == 48) := by
  induction text with
  | nil => rfl
  | cons byte rest induction =>
      by_cases isZero : byte = 48
      · subst isZero
        have digit : isDigit 48 = true := by decide
        simpa [List.takeWhile_cons, digit] using induction
      · by_cases digit : isDigit byte = true
        · simp [isZero, digit]
        · simp [isZero, digit]

theorem dropWhile_dropWhile_zeros (text : Bytes) :
    (text.dropWhile (· == 48)).dropWhile isDigit =
      text.dropWhile isDigit := by
  induction text with
  | nil => rfl
  | cons byte rest induction =>
      by_cases isZero : byte = 48
      · subst isZero
        have digit : isDigit 48 = true := by decide
        simpa [List.dropWhile_cons, digit] using induction
      · simp [isZero]

theorem pieces_digit {byte : UInt8} (rest : Bytes)
    (isDigit_ : isDigit byte = true) :
    pieces (byte :: rest) =
      .run (((byte :: rest).dropWhile (· == 48)).takeWhile isDigit) ::
        pieces (((byte :: rest).dropWhile (· == 48)).dropWhile isDigit) := by
  rw [takeWhile_dropWhile_zeros, dropWhile_dropWhile_zeros, pieces,
    rawPieces_digit rest isDigit_]
  rfl

theorem pieces_other {byte : UInt8} (rest : Bytes)
    (notDigit : ¬ isDigit byte = true) :
    pieces (byte :: rest) = .other byte :: pieces rest := by
  rw [pieces, rawPieces, if_neg notDigit]
  rfl

/-! ## Keys -/

/-- Where a piece stands: bytes first, then numbers by their length and their
digits. -/
def Piece.key : Piece → ℕ ×ₗ List ℕ
  | .other byte => toLex (byte.toNat, [])
  | .run digits => toLex (256 + digits.length, digits.map UInt8.toNat)

def versionKey (text : Bytes) : List (ℕ ×ₗ List ℕ) :=
  (pieces text).map Piece.key

theorem Piece.key_injective : Function.Injective Piece.key := by
  intro first second same
  have lengths := congrArg (fun key => (ofLex key).1) same
  have digits := congrArg (fun key => (ofLex key).2) same
  cases first with
  | other byte =>
      have small := byte.toNat_lt
      cases second with
      | other byte' => exact congrArg Piece.other (UInt8.toNat_inj.mp lengths)
      | run digits' =>
          simp only [Piece.key, ofLex_toLex] at lengths
          omega
  | run digits =>
      cases second with
      | other byte =>
          have small := byte.toNat_lt
          simp only [Piece.key, ofLex_toLex] at lengths
          omega
      | run digits' =>
          refine congrArg Piece.run (List.map_injective_iff.mpr ?_ digits)
          exact fun _ _ => UInt8.toNat_inj.mp

theorem versionKey_eq_iff (first second : Bytes) :
    versionKey first = versionKey second ↔ pieces first = pieces second :=
  (List.map_injective_iff.mpr Piece.key_injective).eq_iff

@[simp] theorem versionKey_nil : versionKey [] = [] := rfl

theorem versionKey_digit {byte : UInt8} (rest : Bytes)
    (isDigit_ : isDigit byte = true) :
    versionKey (byte :: rest) =
      Piece.key
        (.run (((byte :: rest).dropWhile (· == 48)).takeWhile isDigit)) ::
        versionKey (((byte :: rest).dropWhile (· == 48)).dropWhile isDigit) := by
  rw [versionKey, pieces_digit rest isDigit_, List.map_cons, versionKey]

theorem versionKey_other {byte : UInt8} (rest : Bytes)
    (notDigit : ¬ isDigit byte = true) :
    versionKey (byte :: rest) =
      Piece.key (.other byte) :: versionKey rest := by
  rw [versionKey, pieces_other rest notDigit, List.map_cons, versionKey]

@[simp] theorem nil_lt_versionKey (byte : UInt8) (rest : Bytes) :
    [] < versionKey (byte :: rest) := by
  by_cases digit : isDigit byte = true
  · rw [versionKey_digit rest digit]
    exact List.nil_lt_cons _ _
  · rw [versionKey_other rest digit]
    exact List.nil_lt_cons _ _

/-! ## Comparing keys -/

theorem strcmp_comparesBy :
    ComparesBy strcmp (fun text : Bytes => text.map UInt8.toNat) := by
  suffices both : ∀ first second : Bytes,
      (strcmp first second < 0 ↔
        first.map UInt8.toNat < second.map UInt8.toNat) ∧
      (0 < strcmp first second ↔
        second.map UInt8.toNat < first.map UInt8.toNat) by
    exact ⟨fun first second => (both first second).1,
      fun first second => (both first second).2⟩
  intro first second
  induction first generalizing second with
  | nil => cases second <;> simp [strcmp]
  | cons byte rest induction =>
      cases second with
      | nil => simp [strcmp]
      | cons byte' rest' =>
          obtain ⟨below, above⟩ := induction rest'
          simp only [List.map_cons, List.cons_lt_cons_iff, strcmp,
            UInt8.lt_iff_toNat_lt]
          rcases lt_trichotomy byte.toNat byte'.toNat with less | same | greater
          · simp [less, less.not_gt, less.ne, less.ne']
          · simp [same, below, above]
          · simp [greater, greater.not_gt, greater.ne, greater.ne']

/-- Digit runs are compared as the keys of their pieces. -/
theorem digitRunCmp_comparesBy :
    ComparesBy digitRunCmp (fun digits => Piece.key (.run digits)) := by
  suffices both : ∀ first second : Bytes,
      (digitRunCmp first second < 0 ↔
        Piece.key (.run first) < Piece.key (.run second)) ∧
      (0 < digitRunCmp first second ↔
        Piece.key (.run second) < Piece.key (.run first)) by
    exact ⟨fun first second => (both first second).1,
      fun first second => (both first second).2⟩
  intro first second
  simp only [Piece.key, Prod.Lex.toLex_lt_toLex]
  rw [← strcmp_comparesBy.below, ← strcmp_comparesBy.above]
  unfold digitRunCmp
  rcases lt_trichotomy first.length second.length with less | same | greater
  · rw [if_pos less.ne, if_pos less]
    omega
  · rw [if_neg (by simpa using same)]
    omega
  · rw [if_pos greater.ne', if_neg greater.not_gt]
    omega

theorem other_lt_run (byte : UInt8) (digits : Bytes) :
    Piece.key (.other byte) < Piece.key (.run digits) := by
  have small := byte.toNat_lt
  simp only [Piece.key, Prod.Lex.toLex_lt_toLex]
  omega

theorem other_lt_other (byte byte' : UInt8) :
    Piece.key (.other byte) < Piece.key (.other byte') ↔
      byte.toNat < byte'.toNat := by
  simp [Piece.key, Prod.Lex.toLex_lt_toLex]

theorem other_eq_other (byte byte' : UInt8) :
    Piece.key (.other byte) = Piece.key (.other byte') ↔
      byte.toNat = byte'.toNat := by
  simp [Piece.key]

/-- The text after a run of digits is shorter. -/
theorem length_after_run {byte : UInt8} (rest : Bytes)
    (isDigit_ : isDigit byte = true) :
    (((byte :: rest).dropWhile (· == 48)).dropWhile isDigit).length ≤
      rest.length := by
  rw [dropWhile_dropWhile_zeros, List.dropWhile_cons_of_pos isDigit_]
  exact List.length_dropWhile_le _ _

/-- Every round of the loop compares the first pieces of both texts. -/
theorem vercmpLoop_compares (fuel : Nat) (first second : Bytes)
    (enough : first.length + second.length < fuel) :
    (vercmpLoop fuel first second < 0 ↔
      versionKey first < versionKey second) ∧
    (0 < vercmpLoop fuel first second ↔
      versionKey second < versionKey first) := by
  induction fuel generalizing first second with
  | zero => omega
  | succ fuel induction =>
      match first, second with
      | [], [] => simp [vercmpLoop]
      | [], byte' :: rest' =>
          have above := nil_lt_versionKey byte' rest'
          simp [vercmpLoop, above.not_gt]
      | byte :: rest, [] =>
          have above := nil_lt_versionKey byte rest
          simp [vercmpLoop, above.not_gt]
      | byte :: rest, byte' :: rest' =>
          simp only [List.length_cons] at enough
          rw [vercmpLoop]
          by_cases digit : isDigit byte = true <;>
            by_cases digit' : isDigit byte' = true
          · have shorter := length_after_run rest digit
            have shorter' := length_after_run rest' digit'
            have later := induction
              (((byte :: rest).dropWhile (· == 48)).dropWhile isDigit)
              (((byte' :: rest').dropWhile (· == 48)).dropWhile isDigit)
              (by omega)
            rw [if_pos (by simp [digit, digit']), versionKey_digit rest digit,
              versionKey_digit rest' digit']
            exact digitRunCmp_comparesBy.cons _ _ later.1 later.2
          · have above := other_lt_run byte'
              (((byte :: rest).dropWhile (· == 48)).takeWhile isDigit)
            rw [versionKey_digit rest digit, versionKey_other rest' digit',
              List.cons_lt_cons_iff, List.cons_lt_cons_iff]
            simp [digit, digit', above, above.not_gt, above.ne']
          · have above := other_lt_run byte
              (((byte' :: rest').dropWhile (· == 48)).takeWhile isDigit)
            rw [versionKey_other rest digit, versionKey_digit rest' digit',
              List.cons_lt_cons_iff, List.cons_lt_cons_iff]
            simp [digit, digit', above, above.not_gt, above.ne, above.ne']
          · have later := induction rest rest' (by omega)
            rw [versionKey_other rest digit, versionKey_other rest' digit',
              List.cons_lt_cons_iff, List.cons_lt_cons_iff, other_lt_other,
              other_lt_other, other_eq_other, other_eq_other]
            simp only [digit, digit', Bool.false_and, Bool.false_eq_true,
              if_false, ne_eq, ← UInt8.toNat_inj, UInt8.lt_iff_toNat_lt]
            rcases lt_trichotomy byte.toNat byte'.toNat with less | same |
              greater
            · simp [less, less.not_gt, less.ne, less.ne']
            · simpa [same] using later
            · simp [greater, greater.not_gt, greater.ne, greater.ne']

theorem vercmp_comparesBy : ComparesBy vercmp versionKey where
  below first second :=
    (vercmpLoop_compares _ first second (Nat.lt_succ_self _)).1
  above first second :=
    (vercmpLoop_compares _ first second (Nat.lt_succ_self _)).2

end SaltOS.Repo
