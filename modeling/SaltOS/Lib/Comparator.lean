import Mathlib.Order.Lattice
import Mathlib.Data.List.Induction
import Mathlib.Order.Defs.LinearOrder

/-!
# Comparators

A comparator gives a negative number, zero or a positive number, as `strcmp`
does.  One that compares keys from a linear order is a total preorder, and a
loop that keeps the item with the higher key ends with the highest key.
-/

namespace SaltOS.Lib

variable {α : Type u} {κ : Type v}

/-- The signs of a total preorder. -/
structure TotalPreorder (compare : α → α → Int) : Prop where
  swap : ∀ first second, compare first second < 0 ↔ 0 < compare second first
  trans : ∀ first second third, compare first second ≤ 0 →
    compare second third ≤ 0 → compare first third ≤ 0
  total : ∀ first second, compare first second ≤ 0 ∨ compare second first ≤ 0

/-- The comparator compares keys. -/
structure ComparesBy [LinearOrder κ] (compare : α → α → Int) (key : α → κ) :
    Prop where
  below : ∀ first second, compare first second < 0 ↔ key first < key second
  above : ∀ first second, 0 < compare first second ↔ key second < key first

namespace ComparesBy

variable [LinearOrder κ] {compare : α → α → Int} {key : α → κ}

theorem eq_zero_iff (compares : ComparesBy compare key) (first second : α) :
    compare first second = 0 ↔ key first = key second := by
  have below := compares.below first second
  have above := compares.above first second
  constructor
  · intro isZero
    apply le_antisymm
    · exact not_lt.mp fun greater => by
        have positive := above.mpr greater
        omega
    · exact not_lt.mp fun less => by
        have negative := below.mpr less
        omega
  · intro same
    rw [same] at below above
    have notNegative := mt below.mp (lt_irrefl _)
    have notPositive := mt above.mp (lt_irrefl _)
    omega

theorem le_zero_iff (compares : ComparesBy compare key) (first second : α) :
    compare first second ≤ 0 ↔ key first ≤ key second := by
  rw [← not_lt, ← not_lt, compares.above]

theorem totalPreorder (compares : ComparesBy compare key) :
    TotalPreorder compare := by
  constructor
  · intro first second
    rw [compares.below, compares.above]
  · intro first second third
    rw [compares.le_zero_iff, compares.le_zero_iff, compares.le_zero_iff]
    exact le_trans
  · intro first second
    rw [compares.le_zero_iff, compares.le_zero_iff]
    exact le_total _ _

/-- Lists compare by their heads first. -/
theorem cons (compares : ComparesBy compare key) (first second : α)
    {later : Int} {rest rest' : List κ}
    (below : later < 0 ↔ rest < rest') (above : 0 < later ↔ rest' < rest) :
    ((if compare first second ≠ 0 then compare first second else later) < 0 ↔
      key first :: rest < key second :: rest') ∧
    (0 < (if compare first second ≠ 0 then compare first second else later) ↔
      key second :: rest' < key first :: rest) := by
  rw [List.cons_lt_cons_iff, List.cons_lt_cons_iff,
    ← compares.below first second, ← compares.above first second,
    @eq_comm _ (key second), ← compares.eq_zero_iff]
  by_cases different : compare first second ≠ 0
  · rw [if_pos different]
    tauto
  · rw [if_neg different, not_not.mp different]
    simpa using ⟨below, above⟩

end ComparesBy

/-! ## Keeping the highest -/

/-- One round of a loop that keeps an item until a newer one comes. -/
def keepNewer (newer : α → α → Bool) (best : Option α) (item : α) :
    Option α :=
  match best with
  | none => some item
  | some known => if newer item known then some item else best

variable [LinearOrder κ] {key : α → κ} {newer : α → α → Bool}

/-- The loop ends with an item of the highest key. -/
theorem foldl_keepNewer (isNewer : ∀ item known,
      newer item known = true ↔ key known < key item) (items : List α) :
    (items.foldl (keepNewer newer) none = none ↔ items = []) ∧
      ∀ best, items.foldl (keepNewer newer) none = some best →
        best ∈ items ∧ ∀ item ∈ items, key item ≤ key best := by
  -- Items are looked at from the front, so the list grows at its end.
  induction items using List.reverseRecOn with
  | nil => simp
  | append_singleton items item induction =>
      obtain ⟨missing, found⟩ := induction
      rw [List.foldl_append, List.foldl_cons, List.foldl_nil]
      rcases known : items.foldl (keepNewer newer) none with _ | best
      · have empty := missing.mp known
        subst empty
        simp [keepNewer]
      · obtain ⟨member, highest⟩ := found best known
        rw [keepNewer]
        by_cases higher : newer item best = true
        · rw [if_pos higher]
          refine ⟨by simp, fun other isOther => ?_⟩
          cases isOther
          refine ⟨by simp, fun other isOther => ?_⟩
          rcases List.mem_append.mp isOther with old | isItem
          · exact (highest other old).trans
              (le_of_lt ((isNewer item best).mp higher))
          · rw [List.mem_singleton.mp isItem]
        · rw [if_neg higher]
          refine ⟨by simp, fun other isOther => ?_⟩
          cases isOther
          refine ⟨List.mem_append_left _ member, fun other isOther => ?_⟩
          rcases List.mem_append.mp isOther with old | isItem
          · exact highest other old
          · rw [List.mem_singleton.mp isItem]
            exact not_lt.mp fun less => higher ((isNewer item best).mpr less)

end SaltOS.Lib
