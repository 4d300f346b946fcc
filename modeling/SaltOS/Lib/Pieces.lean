import Mathlib.Data.List.Basic
import Mathlib.Data.List.DropRight

/-!
# Texts in pieces

A list is taken apart at its separators.  No piece holds one, and what ends
every item by a separator comes apart into the items and an empty piece.
-/

namespace SaltOS.Lib

variable {α β : Type}

/-- A list is what comes before its last item, and it. -/
theorem dropLast_append_getLastD {items : List α} (nonempty : items ≠ [])
    (default : α) : items.dropLast ++ [items.getLastD default] = items := by
  rw [List.getLastD_eq_getLast?, List.getLast?_eq_getLast_of_ne_nil nonempty,
    Option.getD_some, List.dropLast_append_getLast nonempty]

/-- What is cut off at the end does not reach into a front that ends in an
item to keep. -/
theorem rdropWhile_append {cut : α → Bool} {front : List α} {last : α}
    (isLast : front.getLast? = some last) (solid : cut last = false)
    (rest : List α) :
    ∃ kept, kept <+: rest ∧ (front ++ rest).rdropWhile cut = front ++ kept := by
  induction rest using List.reverseRecOn with
  | nil =>
      obtain ⟨start, rfl⟩ := List.getLast?_eq_some_iff.mp isLast
      refine ⟨[], List.prefix_refl [], ?_⟩
      rw [List.append_nil, List.rdropWhile_concat_neg _ _ _
        (by simpa using solid)]
  | append_singleton rest item induction =>
      obtain ⟨kept, isPrefix, isCut⟩ := induction
      rw [← List.append_assoc, List.rdropWhile_concat]
      split
      · exact ⟨kept, isPrefix.trans (List.prefix_append rest [item]), isCut⟩
      · exact ⟨rest ++ [item], List.prefix_refl _, List.append_assoc _ _ _⟩

variable [BEq β] [LawfulBEq β] {separator : β}

theorem not_mem_of_mem_splitOn {text piece : List β}
    (member : piece ∈ text.splitOn separator) : separator ∉ piece := by
  induction text generalizing piece with
  | nil =>
      rw [List.splitOn_nil, List.mem_singleton] at member
      simp [member]
  | cons head rest induction =>
      rw [List.splitOn_cons_eq_if_modifyHead] at member
      by_cases ends : head = separator
      · simp only [ends, beq_self_eq_true, if_true, List.mem_cons] at member
        rcases member with rfl | later
        · simp
        · exact induction later
      · have restNonempty := List.splitOn_ne_nil separator rest
        rcases split : rest.splitOn separator with _ | ⟨first, others⟩
        · exact absurd split restNonempty
        · rw [split] at member induction
          simp only [beq_iff_eq, ends, if_false, List.modifyHead_cons,
            List.mem_cons] at member
          rcases member with rfl | later
          · simp only [List.mem_cons, not_or]
            exact ⟨fun same => ends same.symm,
              induction List.mem_cons_self⟩
          · exact induction (List.mem_cons_of_mem first later)

/-- Items that end with a separator each, and a rest without one. -/
theorem splitOn_flatMap_append {items : List α} {print : α → List β}
    {rest : List β} (whole : ∀ item ∈ items, separator ∉ print item)
    (restWhole : separator ∉ rest) :
    ((items.flatMap fun item => print item ++ [separator]) ++
      rest).splitOn separator = items.map print ++ [rest] := by
  induction items with
  | nil => exact List.splitOn_eq_singleton restWhole
  | cons item items induction =>
      have text : ((item :: items).flatMap fun item =>
          print item ++ [separator]) ++ rest = print item ++ separator ::
            ((items.flatMap fun item => print item ++ [separator]) ++
              rest) := by
        simp
      rw [text, List.splitOn_append_cons_self,
        induction fun other member => whole other
          (List.mem_cons_of_mem item member),
        List.splitOn_eq_singleton (whole item List.mem_cons_self)]
      rfl

theorem splitOn_flatMap {items : List α} {print : α → List β}
    (whole : ∀ item ∈ items, separator ∉ print item) :
    (items.flatMap fun item => print item ++ [separator]).splitOn separator =
      items.map print ++ [[]] := by
  have split := splitOn_flatMap_append whole List.not_mem_nil
  rwa [List.append_nil] at split

end SaltOS.Lib
