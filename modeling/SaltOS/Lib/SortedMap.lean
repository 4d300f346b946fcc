import Mathlib.Order.Lattice
import Mathlib.Order.Defs.LinearOrder
import Mathlib.Data.List.Basic

/-!
# Maps in the order of their keys

A map is the list of its entries in ascending order of the keys, none twice.
`assign` sets one key.  Setting the entries of a map one after the other, from
the empty map on, gives the map back.
-/

namespace SaltOS.Lib

variable {κ β : Type} [LinearOrder κ]

/-- The entries with the value of `key` set. -/
def assignEntry (key : κ) (value : β) : List (κ × β) → List (κ × β)
  | [] => [(key, value)]
  | entry :: rest =>
      if key < entry.1 then (key, value) :: entry :: rest
      else if key = entry.1 then (key, value) :: rest
      else entry :: assignEntry key value rest

theorem mem_assignEntry {key : κ} {value : β} {entry : κ × β}
    {entries : List (κ × β)} (member : entry ∈ assignEntry key value entries) :
    entry = (key, value) ∨ entry ∈ entries := by
  induction entries with
  | nil => exact .inl (List.mem_singleton.mp member)
  | cons first rest induction =>
      unfold assignEntry at member
      split_ifs at member with isBefore same
      · exact List.mem_cons.mp member
      · rcases List.mem_cons.mp member with new | later
        · exact .inl new
        · exact .inr (List.mem_cons_of_mem first later)
      · rcases List.mem_cons.mp member with old | later
        · exact .inr (old ▸ List.mem_cons_self)
        · rcases induction later with new | inRest
          · exact .inl new
          · exact .inr (List.mem_cons_of_mem first inRest)

theorem pairwise_assignEntry (key : κ) (value : β) {entries : List (κ × β)}
    (sorted : entries.Pairwise fun left right => left.1 < right.1) :
    (assignEntry key value entries).Pairwise
      fun left right => left.1 < right.1 := by
  induction entries with
  | nil => exact List.pairwise_singleton _ _
  | cons first rest induction =>
      obtain ⟨aboveFirst, sortedRest⟩ := List.pairwise_cons.mp sorted
      unfold assignEntry
      split_ifs with isBefore same
      · apply List.pairwise_cons.mpr
        refine ⟨?_, sorted⟩
        intro entry member
        rcases List.mem_cons.mp member with rfl | later
        · exact isBefore
        · exact lt_trans isBefore (aboveFirst entry later)
      · apply List.pairwise_cons.mpr
        refine ⟨?_, sortedRest⟩
        intro entry member
        rw [same]
        exact aboveFirst entry member
      · apply List.pairwise_cons.mpr
        refine ⟨?_, induction sortedRest⟩
        intro entry member
        rcases mem_assignEntry member with rfl | later
        · exact lt_of_le_of_ne (not_lt.mp isBefore) (Ne.symm same)
        · exact aboveFirst entry later

/-- A key above all others comes last. -/
theorem assignEntry_above {key : κ} {value : β} {entries : List (κ × β)}
    (above : ∀ entry ∈ entries, entry.1 < key) :
    assignEntry key value entries = entries ++ [(key, value)] := by
  induction entries with
  | nil => rfl
  | cons first rest induction =>
      have firstBelow := above first List.mem_cons_self
      unfold assignEntry
      rw [if_neg (not_lt_of_gt firstBelow), if_neg (ne_of_gt firstBelow),
        induction fun entry member =>
          above entry (List.mem_cons_of_mem first member)]
      rfl

/-- A map whose entries can be listed in order. -/
@[ext] structure SortedMap (κ β : Type) [LinearOrder κ] where
  entries : List (κ × β)
  sorted : entries.Pairwise fun left right => left.1 < right.1

namespace SortedMap

def empty : SortedMap κ β where
  entries := []
  sorted := List.Pairwise.nil

def assign (map : SortedMap κ β) (key : κ) (value : β) : SortedMap κ β where
  entries := assignEntry key value map.entries
  sorted := pairwise_assignEntry key value map.sorted

/-- Entries set one after the other. -/
def assignAll (map : SortedMap κ β) (entries : List (κ × β)) :
    SortedMap κ β :=
  entries.foldl (fun map entry => map.assign entry.1 entry.2) map

theorem entries_assignAll {map : SortedMap κ β} {entries : List (κ × β)}
    (sorted : (map.entries ++ entries).Pairwise
      fun left right => left.1 < right.1) :
    (map.assignAll entries).entries = map.entries ++ entries := by
  induction entries generalizing map with
  | nil => exact (List.append_nil _).symm
  | cons entry entries induction =>
      have above : ∀ other ∈ map.entries, other.1 < entry.1 := by
        intro other member
        exact (List.pairwise_append.mp sorted).2.2 other member entry
          List.mem_cons_self
      have assigned : (map.assign entry.1 entry.2).entries =
          map.entries ++ [entry] :=
        assignEntry_above above
      have whole : (map.assign entry.1 entry.2).entries ++ entries =
          map.entries ++ entry :: entries := by
        rw [assigned, List.append_assoc, List.singleton_append]
      rw [← whole]
      apply induction
      rw [whole]
      exact sorted

/-- The entries of a map build the map. -/
theorem assignAll_entries (map : SortedMap κ β) :
    empty.assignAll map.entries = map := by
  apply SortedMap.ext
  exact entries_assignAll map.sorted

end SortedMap

end SaltOS.Lib
