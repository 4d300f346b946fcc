import Mathlib.Data.List.Basic

/-!
# One item for all that match

In a list, the first item that matches is replaced by a new one and the later
ones by a blank one; where none matches, the new one is added at the end.  The
new item matches, the blank one does not.  What does not match stays where it
is, and doing it again changes nothing.
-/

namespace SaltOS.Lib

variable {α : Type} {isMatch : α → Bool} {new blank : α} {items : List α}

/-- The loop: `found` says whether an item has matched before. -/
def setFirst (isMatch : α → Bool) (new blank : α) : Bool → List α → List α
  | found, [] => if found then [] else [new]
  | found, item :: rest =>
      if isMatch item then
        (if found then blank else new) ::
          setFirst isMatch new blank true rest
      else item :: setFirst isMatch new blank found rest

theorem filter_setFirst_found (blankOther : isMatch blank = false)
    (items : List α) :
    (setFirst isMatch new blank true items).filter isMatch = [] := by
  induction items with
  | nil => rfl
  | cons item rest induction =>
      unfold setFirst
      split
      · rw [if_pos rfl, List.filter_cons_of_neg (by simp [blankOther])]
        exact induction
      · next other =>
        rw [List.filter_cons_of_neg other]
        exact induction

/-- The new item is the only one that matches. -/
theorem filter_setFirst (newMatches : isMatch new = true)
    (blankOther : isMatch blank = false) (items : List α) :
    (setFirst isMatch new blank false items).filter isMatch = [new] := by
  induction items with
  | nil => exact List.filter_cons_of_pos newMatches
  | cons item rest induction =>
      unfold setFirst
      split
      · rw [if_neg Bool.false_ne_true, List.filter_cons_of_pos newMatches,
          filter_setFirst_found blankOther]
      · next other =>
        rw [List.filter_cons_of_neg other]
        exact induction

/-- What does not match stays at its place. -/
theorem getElem?_setFirst {found : Bool} {index : Nat} {item : α}
    (isItem : items[index]? = some item) (other : isMatch item = false) :
    (setFirst isMatch new blank found items)[index]? = some item := by
  induction items generalizing found index with
  | nil => cases isItem
  | cons first rest induction =>
      unfold setFirst
      cases index with
      | zero =>
          cases isItem
          rw [if_neg (by simp [other])]
          rfl
      | succ index =>
          rw [List.getElem?_cons_succ] at isItem
          split
          · rw [List.getElem?_cons_succ]
            exact induction isItem
          · rw [List.getElem?_cons_succ]
            exact induction isItem

/-- No other item comes in. -/
theorem of_getElem?_setFirst {found : Bool} {index : Nat} {item : α}
    (isItem : (setFirst isMatch new blank found items)[index]? = some item) :
    item = new ∨ item = blank ∨ items[index]? = some item := by
  induction items generalizing found index with
  | nil =>
      unfold setFirst at isItem
      split at isItem
      · cases isItem
      · exact .inl (List.mem_singleton.mp (List.mem_of_getElem? isItem))
  | cons first rest induction =>
      unfold setFirst at isItem
      cases index with
      | zero =>
          split at isItem
          · cases found with
            | true => exact .inr (.inl (Option.some.inj isItem).symm)
            | false => exact .inl (Option.some.inj isItem).symm
          · exact .inr (.inr isItem)
      | succ index =>
          rw [List.getElem?_cons_succ]
          split at isItem
          · rw [List.getElem?_cons_succ] at isItem
            exact induction isItem
          · rw [List.getElem?_cons_succ] at isItem
            exact induction isItem

theorem mem_setFirst {found : Bool} {item : α}
    (member : item ∈ setFirst isMatch new blank found items) :
    item = new ∨ item = blank ∨ item ∈ items := by
  obtain ⟨index, isItem⟩ := List.mem_iff_getElem?.mp member
  rcases of_getElem?_setFirst isItem with isNew | isBlank | inside
  · exact .inl isNew
  · exact .inr (.inl isBlank)
  · exact .inr (.inr (List.mem_of_getElem? inside))

theorem setFirst_of_none (noMatch : items.filter isMatch = []) :
    setFirst isMatch new blank true items = items := by
  induction items with
  | nil => rfl
  | cons item rest induction =>
      have other : ¬ isMatch item = true :=
        List.filter_eq_nil_iff.mp noMatch item List.mem_cons_self
      rw [List.filter_cons_of_neg other] at noMatch
      rw [setFirst, if_neg other, induction noMatch]

/-- A list in which the new item is the only match is left as it is. -/
theorem setFirst_of_single (single : items.filter isMatch = [new]) :
    setFirst isMatch new blank false items = items := by
  induction items with
  | nil => cases single
  | cons item rest induction =>
      unfold setFirst
      by_cases isFirst : isMatch item = true
      · rw [List.filter_cons_of_pos isFirst] at single
        obtain ⟨isNew, noMore⟩ := List.cons.inj single
        rw [if_pos isFirst, if_neg Bool.false_ne_true, isNew,
          setFirst_of_none noMore]
      · rw [List.filter_cons_of_neg isFirst] at single
        rw [if_neg isFirst, induction single]

end SaltOS.Lib
