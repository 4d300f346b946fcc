import Mathlib.Data.List.Basic
import Mathlib.Logic.Function.Basic

/-!
# Changes of a map

A change of a map gives one key a new value, or none, and fits only a map that
has the old one.  Changes of different keys that lead from the values of one map
to those of another turn the one into the other, in whatever order they come.
-/

namespace SaltOS.Lib

variable {κ ν : Type} [DecidableEq κ] [DecidableEq ν]

structure Change (κ ν : Type) where
  key : κ
  old : Option ν
  new : Option ν

/-- A change that does not fit has no result. -/
def patch (map : κ → Option ν) (change : Change κ ν) : Option (κ → Option ν) :=
  if map change.key = change.old then
    some (Function.update map change.key change.new)
  else none

/-- The changes lead from one map to another. -/
structure LeadsTo (changes : List (Change κ ν)) (before after : κ → Option ν) :
    Prop where
  distinct : (changes.map Change.key).Nodup
  old : ∀ change ∈ changes, before change.key = change.old
  new : ∀ change ∈ changes, after change.key = change.new
  rest : ∀ key, key ∉ changes.map Change.key → before key = after key

theorem foldlM_patch {changes : List (Change κ ν)} {before after : κ → Option ν}
    (leads : LeadsTo changes before after) :
    changes.foldlM patch before = some after := by
  induction changes generalizing before with
  | nil =>
      have same : before = after := by
        funext key
        exact leads.rest key (by simp)
      rw [same]
      rfl
  | cons change changes induction =>
      obtain ⟨fresh, distinct⟩ := List.nodup_cons.mp leads.distinct
      have fits : patch before change =
          some (Function.update before change.key change.new) :=
        if_pos (leads.old change List.mem_cons_self)
      have later : LeadsTo changes
          (Function.update before change.key change.new) after := {
        distinct := distinct
        old := by
          intro other member
          have differ : other.key ≠ change.key := by
            intro same
            exact fresh (same ▸ List.mem_map_of_mem member)
          rw [Function.update_of_ne differ]
          exact leads.old other (List.mem_cons_of_mem change member)
        new := fun other member =>
          leads.new other (List.mem_cons_of_mem change member)
        rest := by
          intro key absent
          by_cases isKey : key = change.key
          · subst key
            rw [Function.update_self]
            exact (leads.new change List.mem_cons_self).symm
          · rw [Function.update_of_ne isKey]
            exact leads.rest key (by simp_all) }
      rw [List.foldlM_cons, fits]
      exact induction later

end SaltOS.Lib
