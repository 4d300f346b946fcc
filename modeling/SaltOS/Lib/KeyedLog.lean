import SaltOS.Lib.Keyed

/-!
# Logs of keyed entries

A log holds the entries of many keys and only grows.  The newest entry of a
key is its value; what was there before is the entry in front of it.  Setting
the previous value anew therefore undoes the last change, and doing so twice
undoes nothing.
-/

namespace SaltOS.Lib

variable {ρ κ : Type} [DecidableEq κ] {key : ρ → κ}

/-- The newest entry of a key. -/
def newestOf (key : ρ → κ) (log : List ρ) (name : κ) : Option ρ :=
  (log.filter fun entry => key entry = name).getLast?

/-- The entry in front of the newest one. -/
def previousOf (key : ρ → κ) (log : List ρ) (name : κ) : Option ρ :=
  (log.filter fun entry => key entry = name).dropLast.getLast?

section

variable {log : List ρ} {name : κ} {entry : ρ}

@[simp] theorem newestOf_nil : newestOf key [] name = none := rfl

@[simp] theorem previousOf_nil : previousOf key [] name = none := rfl

theorem filter_append_same (same : key entry = name) :
    (log ++ [entry]).filter (fun other => key other = name) =
      log.filter (fun other => key other = name) ++ [entry] := by
  rw [List.filter_append]
  simp [same]

theorem filter_append_other (differ : key entry ≠ name) :
    (log ++ [entry]).filter (fun other => key other = name) =
      log.filter fun other => key other = name := by
  rw [List.filter_append]
  simp [differ]

theorem newestOf_append_same (same : key entry = name) :
    newestOf key (log ++ [entry]) name = some entry := by
  rw [newestOf, filter_append_same same, List.getLast?_concat]

theorem previousOf_append_same (same : key entry = name) :
    previousOf key (log ++ [entry]) name = newestOf key log name := by
  rw [previousOf, filter_append_same same, List.dropLast_concat]
  rfl

theorem newestOf_append_other (differ : key entry ≠ name) :
    newestOf key (log ++ [entry]) name = newestOf key log name := by
  rw [newestOf, filter_append_other differ]
  rfl

theorem previousOf_append_other (differ : key entry ≠ name) :
    previousOf key (log ++ [entry]) name = previousOf key log name := by
  rw [previousOf, filter_append_other differ]
  rfl

theorem mem_of_previousOf (previous : previousOf key log name = some entry) :
    entry ∈ log ∧ key entry = name := by
  have member := List.dropLast_subset _ (List.mem_of_getLast? previous)
  simpa using List.mem_filter.mp member

/-- What has a previous entry has a newest one. -/
theorem exists_newestOf (previous : previousOf key log name = some entry) :
    ∃ newest, newestOf key log name = some newest := by
  have member := (List.mem_of_getLast? previous)
  have nonempty : log.filter (fun entry => key entry = name) ≠ [] :=
    List.ne_nil_of_mem (List.dropLast_subset _ member)
  exact ⟨_, List.getLast?_eq_some_getLast nonempty⟩

end

end SaltOS.Lib
