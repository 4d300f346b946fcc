import SaltOS.Lib.Keyed

/-!
# Tables in which the first row of a key counts

Rows are only ever added at the end, and only for keys that the table does not
have.  What a key finds then never changes, and once every key of a list of
rows is there, adding the missing ones of the list adds nothing.
-/

namespace SaltOS.Lib

variable {ρ κ : Type} {key : ρ → κ}

section

variable [DecidableEq κ]

/-- The rows whose keys a table does not have. -/
def missingRows (key : ρ → κ) (table rows : List ρ) : List ρ :=
  rows.filter fun row => key row ∉ table.map key

theorem mem_missingRows {table rows : List ρ} {row : ρ} :
    row ∈ missingRows key table rows ↔
      row ∈ rows ∧ key row ∉ table.map key := by
  simp [missingRows]

theorem missingRows_eq_nil_iff {table rows : List ρ} :
    missingRows key table rows = [] ↔
      ∀ row ∈ rows, key row ∈ table.map key := by
  rw [missingRows, List.filter_eq_nil_iff]
  simp only [decide_eq_true_eq, not_not]

/-- After the missing rows have been added, every key is there. -/
theorem key_mem_of_added {table rows : List ρ} {row : ρ}
    (member : row ∈ rows) :
    key row ∈ (table ++ missingRows key table rows).map key := by
  rw [List.map_append, List.mem_append]
  by_cases known : key row ∈ table.map key
  · exact .inl known
  · apply Or.inr
    apply List.mem_map_of_mem
    exact mem_missingRows.mpr ⟨member, known⟩

end

/-- A table has grown by rows of new keys, each of them a wanted one. -/
def GrownBy (key : ρ → κ) (wanted : ρ → Prop) (before after : List ρ) :
    Prop :=
  ∃ added, after = before ++ added ∧
    ∀ row ∈ added, wanted row ∧ key row ∉ before.map key

namespace GrownBy

variable {wanted : ρ → Prop} {before middle after : List ρ}

theorem refl (table : List ρ) : GrownBy key wanted table table :=
  ⟨[], (List.append_nil table).symm, by simp⟩

theorem missing [DecidableEq κ] {rows : List ρ} (table : List ρ)
    (allWanted : ∀ row ∈ rows, wanted row) :
    GrownBy key wanted table (table ++ missingRows key table rows) := by
  refine ⟨_, rfl, ?_⟩
  intro row member
  obtain ⟨inRows, new⟩ := mem_missingRows.mp member
  exact ⟨allWanted row inRows, new⟩

theorem keys (grown : GrownBy key wanted before after) :
    before.map key ⊆ after.map key := by
  obtain ⟨added, rfl, -⟩ := grown
  rw [List.map_append]
  exact List.subset_append_left _ _

theorem trans (first : GrownBy key wanted before middle)
    (second : GrownBy key wanted middle after) :
    GrownBy key wanted before after := by
  have known := first.keys
  obtain ⟨early, rfl, earlyNew⟩ := first
  obtain ⟨late, rfl, lateNew⟩ := second
  refine ⟨early ++ late, List.append_assoc _ _ _, ?_⟩
  intro row member
  rcases List.mem_append.mp member with isEarly | isLate
  · exact earlyNew row isEarly
  · obtain ⟨isWanted, new⟩ := lateNew row isLate
    exact ⟨isWanted, fun old => new (known old)⟩

theorem mono {other : ρ → Prop} (implies : ∀ row, wanted row → other row)
    (grown : GrownBy key wanted before after) :
    GrownBy key other before after := by
  obtain ⟨added, isAfter, new⟩ := grown
  refine ⟨added, isAfter, ?_⟩
  intro row member
  exact ⟨implies row (new row member).1, (new row member).2⟩

/-- What a key finds does not change. -/
theorem find? [DecidableEq κ] (grown : GrownBy key wanted before after)
    {name : κ} {row : ρ}
    (found : before.find? (fun row => key row = name) = some row) :
    after.find? (fun row => key row = name) = some row := by
  obtain ⟨added, rfl, -⟩ := grown
  rw [List.find?_append, found]
  rfl

/-- The rows that nobody wants to add stay what they were. -/
theorem filter (grown : GrownBy key wanted before after) {other : ρ → Bool}
    (unwanted : ∀ row, wanted row → other row = false) :
    after.filter other = before.filter other := by
  obtain ⟨added, rfl, new⟩ := grown
  have noneAdded : added.filter other = [] := by
    rw [List.filter_eq_nil_iff]
    intro row member
    rw [unwanted row (new row member).1]
    exact Bool.false_ne_true
  rw [List.filter_append, noneAdded, List.append_nil]

end GrownBy

end SaltOS.Lib
