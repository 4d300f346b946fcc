import SaltOS.Archive.Pkg
import SaltOS.Toml.Values

/-!
# The strings of package documents are read back

`toml_escape` of `src/halite/src/pkg.c` spells its text.
-/

namespace SaltOS.Pkg

open Toml

theorem escapeByte_spells (byte : UInt8) (encoded text : Bytes)
    (spells : Spells encoded text) :
    Spells (escapeByte byte ++ encoded) (byte :: text) := by
  by_cases special : byte = 34 ∨ byte = 92 ∨ byte = 10 ∨ byte = 9 ∨ byte = 13
  · rcases special with rfl | rfl | rfl | rfl | rfl <;>
      exact .escape rfl spells
  · simp only [not_or] at special
    simpa [escapeByte, special] using
      Spells.plain special.1 special.2.1 special.2.2.1 spells

theorem tomlEscape_spells (text : Bytes) :
    Spells (text.flatMap escapeByte) text :=
  .flatMap escapeByte_spells text

theorem readsValue_string {next : UInt8} {fuel : Nat} {source : Bytes}
    (noNul : 0 ∉ source) :
    ReadsValue next (fuel + 1) (tomlEscape source) (.str source) :=
  readsValue_text (tomlEscape_spells source) noNul

theorem emitItems_eq (items : List Bytes) :
    emitItems items =
      quotedItems (items.map fun item => item.flatMap escapeByte) := by
  fun_induction emitItems items with
  | case1 => rfl
  | case2 item => rfl
  | case3 item rest notLast induction =>
      cases rest with
      | nil => exact absurd rfl notLast
      | cons second rest =>
          rw [induction]
          rfl

theorem readsValue_array {next : UInt8} {items : List Bytes} {fuel : Nat}
    (noNul : ∀ item ∈ items, 0 ∉ item) (enough : items.length + 1 < fuel) :
    ReadsValue next fuel ([91] ++ emitItems items ++ [93])
      (.arr (items.map Node.str)) := by
  rw [emitItems_eq]
  apply readsValue_items _ noNul enough
  rw [List.forall₂_map_left_iff, List.forall₂_same]
  exact fun item _ => tomlEscape_spells item

end SaltOS.Pkg
