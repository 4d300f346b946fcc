import SaltOS.Toml.CellValues

/-!
# Tables with distinct keys

Every table that the parser makes has no key twice, inside arrays and inline
tables too.  `table_set` sees to it: a key that the table has gets the new
value.
-/

namespace SaltOS.Toml

/-- Every table in it has pairwise distinct keys. -/
inductive Distinct : Node → Prop where
  | str (text : Bytes) : Distinct (.str text)
  | int (value : Int) : Distinct (.int value)
  | bool (value : Bool) : Distinct (.bool value)
  | arr {items : List Node} :
      (∀ item ∈ items, Distinct item) → Distinct (.arr items)
  | tab {entries : Table} : (entries.map Prod.fst).Nodup →
      (∀ entry ∈ entries, Distinct entry.2) → Distinct (.tab entries)

variable {table : Table} {key : Bytes} {node value : Node}

theorem distinct_empty : Distinct (.tab []) :=
  .tab List.nodup_nil fun _ impossible => nomatch impossible

/-- The keys of a table stay where they are; a new one goes to the end. -/
theorem keys_tableSet (table : Table) (key : Bytes) (value : Node) :
    (tableSet table key value).map Prod.fst =
      if key ∈ table.map Prod.fst then table.map Prod.fst
      else table.map Prod.fst ++ [key] := by
  induction table with
  | nil => rfl
  | cons entry table induction =>
      rw [tableSet, List.map_cons]
      by_cases isKey : entry.1 = key
      · rw [if_pos isKey, isKey, if_pos List.mem_cons_self]
        rfl
      · have same : key ∈ entry.1 :: table.map Prod.fst ↔
            key ∈ table.map Prod.fst := by
          rw [List.mem_cons, or_iff_right (Ne.symm isKey)]
        rw [if_neg isKey, List.map_cons, induction]
        simp only [same]
        split
        · rfl
        · rfl

theorem mem_tableSet {entry : Bytes × Node}
    (member : entry ∈ tableSet table key value) :
    entry = (key, value) ∨ entry ∈ table := by
  induction table with
  | nil => exact .inl (List.mem_singleton.mp member)
  | cons first table induction =>
      rw [tableSet] at member
      split at member
      · rcases List.mem_cons.mp member with isNew | later
        · exact .inl isNew
        · exact .inr (List.mem_cons_of_mem first later)
      · rcases List.mem_cons.mp member with rfl | later
        · exact .inr List.mem_cons_self
        · rcases induction later with isNew | old
          · exact .inl isNew
          · exact .inr (List.mem_cons_of_mem first old)

theorem Distinct.tableSet (distinct : Distinct (.tab table))
    (isValue : Distinct value) :
    Distinct (.tab (tableSet table key value)) := by
  cases distinct with
  | tab nodup below =>
      constructor
      · rw [keys_tableSet]
        split
        · exact nodup
        · rename_i absent
          rw [← List.concat_eq_append]
          exact nodup.concat absent
      · intro entry member
        rcases mem_tableSet member with rfl | old
        · exact isValue
        · exact below entry old

theorem Distinct.tableGet (distinct : Distinct (.tab table))
    (found : tableGet table key = some node) : Distinct node := by
  cases distinct with
  | tab _ below =>
      obtain ⟨entry, isEntry, rfl⟩ := Option.map_eq_some_iff.mp found
      exact below entry (List.mem_of_find?_eq_some isEntry)

theorem Distinct.snoc {items : List Node} (distinct : Distinct (.arr items))
    (isValue : Distinct value) : Distinct (.arr (items ++ [value])) := by
  cases distinct with
  | arr below =>
      constructor
      intro item member
      rcases List.mem_append.mp member with old | isNew
      · exact below item old
      · rw [List.mem_singleton.mp isNew]
        exact isValue

/-! ## Paths -/

/-- A change of a table that keeps keys distinct. -/
def KeepsDistinct (change : Table → Option Table) : Prop :=
  ∀ table changed, Distinct (.tab table) → change table = some changed →
    Distinct (.tab changed)

theorem keepsDistinct_some : KeepsDistinct some := by
  intro table changed distinct isChanged
  cases isChanged
  exact distinct

theorem keepsDistinct_set (key : Bytes) (isValue : Distinct value) :
    KeepsDistinct fun table => some (tableSet table key value) := by
  intro table changed distinct isChanged
  cases isChanged
  exact distinct.tableSet isValue

theorem keepsDistinct_push (key : Bytes) : KeepsDistinct (pushTable key) := by
  intro table changed distinct isChanged
  rw [pushTable] at isChanged
  split at isChanged
  · cases isChanged
    apply distinct.tableSet
    constructor
    intro item member
    rw [List.mem_singleton.mp member]
    exact distinct_empty
  · rename_i items found
    cases isChanged
    exact distinct.tableSet ((distinct.tableGet found).snoc distinct_empty)
  · cases isChanged

theorem KeepsDistinct.descend {change : Table → Option Table}
    (keeps : KeepsDistinct change) (path : List Bytes) :
    KeepsDistinct (descend change path) := by
  induction path with
  | nil => exact keeps
  | cons key path induction =>
      intro table changed distinct isChanged
      rw [Toml.descend] at isChanged
      split at isChanged
      · obtain ⟨child, isChild, rfl⟩ := Option.map_eq_some_iff.mp isChanged
        exact distinct.tableSet (induction [] child distinct_empty isChild)
      · rename_i entries found
        obtain ⟨child, isChild, rfl⟩ := Option.map_eq_some_iff.mp isChanged
        exact distinct.tableSet
          (induction entries child (distinct.tableGet found) isChild)
      · rename_i items found
        have below : ∀ item ∈ items, Distinct item := by
          cases distinct.tableGet found with
          | arr below => exact below
        split at isChanged
        · rename_i entries isLast
          have lastMember := List.mem_of_getLast? isLast
          obtain ⟨child, isChild, rfl⟩ := Option.map_eq_some_iff.mp isChanged
          have isItem : Distinct (.tab child) :=
            induction entries child (below _ lastMember) isChild
          apply distinct.tableSet
          apply Distinct.snoc (.arr _) isItem
          intro item member
          exact below item (List.mem_of_mem_dropLast member)
        · cases isChanged
      · cases isChanged

/-! ## Values -/

section

variable (next : UInt8)

/-- The parser of values, with this fuel. -/
def ValuesDistinct (fuel : Nat) : Prop :=
  ∀ cursor result, parseValue next fuel cursor = .ok result →
    Distinct result.1

def ArraysDistinct (fuel : Nat) : Prop :=
  ∀ items cursor result, Distinct (.arr items) →
    parseArray next fuel items cursor = .ok result → Distinct result.1

def TablesDistinct (fuel : Nat) : Prop :=
  ∀ table cursor result, Distinct (.tab table) →
    parseInlineTable next fuel table cursor = .ok result → Distinct result.1

end

variable {next : UInt8} {fuel : Nat}

theorem IsScalar.distinct (isScalar : IsScalar node) : Distinct node := by
  cases isScalar with
  | str text => exact .str text
  | int value => exact .int value
  | bool value => exact .bool value

theorem values_distinct_step (arrays : ArraysDistinct next fuel)
    (tables : TablesDistinct next fuel) :
    ValuesDistinct next (fuel + 1) := by
  intro cursor result isValue
  rw [parseValue] at isValue
  dsimp only at isValue
  split at isValue
  · cases isValue
  · exact (string_isScalar isValue).distinct
  · exact (string_isScalar isValue).distinct
  · exact (string_isScalar isValue).distinct
  · exact (string_isScalar isValue).distinct
  · exact arrays [] _ result (.arr fun _ none =>
      absurd none List.not_mem_nil) isValue
  · split at isValue
    · cases isValue
      exact distinct_empty
    · exact tables [] _ result distinct_empty isValue
  · cases isValue
    exact (scalarNode_isScalar _).distinct

theorem arrays_distinct_step (values : ValuesDistinct next fuel)
    (arrays : ArraysDistinct next fuel) : ArraysDistinct next (fuel + 1) := by
  intro items cursor result distinct isArray
  rw [parseArray] at isArray
  dsimp only at isArray
  split at isArray
  · cases isArray
  · cases isArray
    exact distinct
  · obtain ⟨⟨value, left⟩, isValue, isRest⟩ := Lib.bind_ok isArray
    have longer := distinct.snoc (values _ _ isValue)
    dsimp only at isRest
    split at isRest
    · exact arrays _ _ result longer isRest
    · cases isRest
      exact longer
    · exact arrays _ _ result longer isRest

theorem tables_distinct_step (values : ValuesDistinct next fuel)
    (tables : TablesDistinct next fuel) : TablesDistinct next (fuel + 1) := by
  intro table cursor result distinct isTable
  rw [parseInlineTable] at isTable
  obtain ⟨⟨key, left⟩, _, isRest⟩ := Lib.bind_ok isTable
  dsimp only at isRest
  split at isRest
  · obtain ⟨⟨value, left⟩, isValue, isRest⟩ := Lib.bind_ok isRest
    have larger : Distinct (.tab (tableSet table key value)) :=
      distinct.tableSet (values _ _ isValue)
    dsimp only at isRest
    split at isRest
    · exact tables _ _ result larger isRest
    · cases isRest
      exact larger
    · cases isRest
  · cases isRest

theorem values_distinct (next : UInt8) (fuel : Nat) :
    ValuesDistinct next fuel ∧ ArraysDistinct next fuel ∧
      TablesDistinct next fuel := by
  induction fuel with
  | zero =>
      refine ⟨?_, ?_, ?_⟩
      · intro cursor result isValue
        rw [parseValue] at isValue
        cases isValue
      · intro items cursor result _ isArray
        rw [parseArray] at isArray
        cases isArray
      · intro table cursor result _ isTable
        rw [parseInlineTable] at isTable
        cases isTable
  | succ fuel induction =>
      obtain ⟨values, arrays, tables⟩ := induction
      exact ⟨values_distinct_step arrays tables,
        arrays_distinct_step values arrays, tables_distinct_step values tables⟩

/-! ## Statements -/

variable {document result : Document} {cursor : Cursor}

theorem parseHeader_distinct (distinct : Distinct (.tab document.root))
    (isHeader : parseHeader document cursor = .ok result) :
    Distinct (.tab result.root) := by
  unfold parseHeader at isHeader
  dsimp only at isHeader
  obtain ⟨⟨keys, left⟩, _, isRest⟩ := Lib.bind_ok isHeader
  dsimp only at isRest
  split at isRest
  · cases isRest
  · rename_i root created
    cases isRest
    split at created
    · exact (keepsDistinct_push _).descend _ _ _ distinct created
    · exact keepsDistinct_some.descend _ _ _ distinct created

theorem parseAssignment_distinct (distinct : Distinct (.tab document.root))
    (isAssignment : parseAssignment next fuel document cursor = .ok result) :
    Distinct (.tab result.root) := by
  unfold parseAssignment at isAssignment
  obtain ⟨⟨keys, left⟩, _, isRest⟩ := Lib.bind_ok isAssignment
  dsimp only at isRest
  split at isRest
  · obtain ⟨⟨value, left⟩, isValue, isRest⟩ := Lib.bind_ok isRest
    have isDistinct := (values_distinct next fuel).1 _ _ isValue
    dsimp only at isRest
    split at isRest
    · cases isRest
    · rename_i root assigned
      cases isRest
      exact (keepsDistinct_set _ isDistinct).descend _ _ _ distinct assigned
  · cases isRest

theorem ok_of_map_some {read : Except Stop Document}
    (isSome : read.map some = .ok (some result)) : read = .ok result := by
  cases read with
  | ok document =>
      cases isSome
      rfl
  | error stop => cases isSome

theorem parseStatement_distinct (distinct : Distinct (.tab document.root))
    (isStatement : parseStatement next fuel document = .ok (some result)) :
    Distinct (.tab result.root) := by
  unfold parseStatement at isStatement
  dsimp only at isStatement
  split at isStatement
  · cases isStatement
  · exact parseHeader_distinct distinct (ok_of_map_some isStatement)
  · exact parseAssignment_distinct distinct (ok_of_map_some isStatement)

end SaltOS.Toml
