import SaltOS.Lib.Keyed

/-!
# Tables that refer to others

The rows of one table name the keys of another one.  Replacing the rows of a
key in both of them keeps the references, and it keeps rows apart that a finer
key tells apart.
-/

namespace SaltOS.Lib

variable {ρ π κ μ : Type} {key : ρ → κ} {owner : π → κ}
  {fine : ρ → μ} {rows new : List ρ} {owners newOwners : List π} {name : κ}

/-- Every row names an owner that is there. -/
def References (key : ρ → κ) (owner : π → κ) (rows : List ρ)
    (owners : List π) : Prop :=
  ∀ row ∈ rows, key row ∈ owners.map owner

theorem References.nil : References key owner [] owners := by
  intro row member
  cases member

variable [DecidableEq κ]

/-- Owners of other names are still there. -/
theorem mem_map_replaceRows {other : κ} (different : other ≠ name)
    (member : other ∈ owners.map owner) :
    other ∈ (replaceRows owner name newOwners owners).map owner := by
  obtain ⟨row, isRow, rfl⟩ := List.mem_map.mp member
  apply List.mem_map_of_mem
  exact mem_replaceRows.mpr (.inr ⟨isRow, different⟩)

/-- The rows of a name give way to others, and so do its owners. -/
theorem References.replace (refers : References key owner rows owners)
    (own : ∀ row ∈ new, key row = name)
    (owned : new ≠ [] → name ∈ newOwners.map owner) :
    References key owner (replaceRows key name new rows)
      (replaceRows owner name newOwners owners) := by
  intro row member
  rcases mem_replaceRows.mp member with isNew | ⟨old, different⟩
  · rw [own row isNew, replaceRows, List.map_append]
    apply List.mem_append_right
    exact owned (List.ne_nil_of_mem isNew)
  · exact mem_map_replaceRows different (refers row old)

theorem nodup_replaceRows
    (coarser : ∀ row other, fine row = fine other → key row = key other)
    (own : ∀ row ∈ new, key row = name)
    (newDistinct : (new.map fine).Nodup) (distinct : (rows.map fine).Nodup) :
    ((replaceRows key name new rows).map fine).Nodup := by
  rw [replaceRows, List.map_append, List.nodup_append']
  constructor
  · exact distinct.sublist (List.filter_sublist.map fine)
  constructor
  · exact newDistinct
  · intro value old fresh
    obtain ⟨row, isRow, rfl⟩ := List.mem_map.mp old
    obtain ⟨other, isOther, same⟩ := List.mem_map.mp fresh
    have kept := of_decide_eq_true (List.mem_filter.mp isRow).2
    exact kept ((coarser row other same.symm).trans (own other isOther))

end SaltOS.Lib
