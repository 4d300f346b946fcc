import Mathlib.Data.List.Nodup

/-!
# Tables whose rows have a key

A database table is a list of rows.  `replaceRows` drops the rows of a key and
adds others, as a `DELETE` followed by `INSERT`s does; a transaction replaces
the rows of one key after the other.
-/

namespace SaltOS.Lib

variable {ρ κ : Type} [DecidableEq κ] {key : ρ → κ}

/-- In a table with a primary key, a row is the one that its key finds. -/
theorem find?_of_distinct {rows : List ρ} (distinct : (rows.map key).Nodup)
    {row : ρ} (member : row ∈ rows) :
    rows.find? (fun other => key other = key row) = some row := by
  induction rows with
  | nil => cases member
  | cons first rows induction =>
      obtain ⟨fresh, others⟩ := List.nodup_cons.mp distinct
      rcases List.mem_cons.mp member with rfl | inside
      · exact List.find?_cons_of_pos (by simp)
      · have differ : key first ≠ key row := by
          intro same
          exact fresh (same ▸ List.mem_map_of_mem inside)
        rw [List.find?_cons_of_neg (by simpa using differ)]
        exact induction others inside

theorem key_of_find? {rows : List ρ} {name : κ} {row : ρ}
    (found : rows.find? (fun other => key other = name) = some row) :
    key row = name := by
  simpa using List.find?_some found

/-- The rows of `name` give way to `new`. -/
def replaceRows (key : ρ → κ) (name : κ) (new rows : List ρ) : List ρ :=
  rows.filter (fun row => key row ≠ name) ++ new

@[simp] theorem mem_replaceRows {name : κ} {new rows : List ρ} {row : ρ} :
    row ∈ replaceRows key name new rows ↔
      row ∈ new ∨ row ∈ rows ∧ key row ≠ name := by
  simp [replaceRows, or_comm]

/-- The rows of other keys stay, in their order. -/
theorem filter_replaceRows {name other : κ} {new rows : List ρ}
    (own : ∀ row ∈ new, key row = name) (different : other ≠ name) :
    (replaceRows key name new rows).filter (fun row => key row = other) =
      rows.filter fun row => key row = other := by
  have noNew : new.filter (fun row => key row = other) = [] := by
    rw [List.filter_eq_nil_iff]
    intro row member
    simpa [own row member] using Ne.symm different
  rw [replaceRows, List.filter_append, noNew, List.append_nil,
    List.filter_filter]
  apply List.filter_congr
  intro row _
  by_cases isOther : key row = other <;> simp [isOther, different]

/-! ## Tables with a primary key -/

/-- `INSERT OR REPLACE`: a row takes the place of the one with its key. -/
def upsertRows (key : ρ → κ) (new rows : List ρ) : List ρ :=
  rows.filter (fun row => key row ∉ new.map key) ++ new

theorem find?_upsertRows {new rows : List ρ} {name : κ} :
    (upsertRows key new rows).find? (fun row => key row = name) =
      (new.find? fun row => key row = name).or
        (rows.find? fun row => key row = name) := by
  rw [upsertRows, List.find?_append, List.find?_filter]
  cases isNew : new.find? fun row => key row = name with
  | some row =>
      have inNew : name ∈ new.map key :=
        key_of_find? isNew ▸ List.mem_map_of_mem (List.mem_of_find?_eq_some isNew)
      have replaced : rows.find? (fun row => decide
          ((decide (key row ∉ new.map key) : Bool) = true ∧
            (decide (key row = name) : Bool) = true)) = none := by
        rw [List.find?_eq_none]
        intro row _ both
        simp only [decide_eq_true_eq] at both
        exact both.1 (both.2 ▸ inNew)
      rw [replaced, Option.none_or, Option.some_or]
  | none =>
      have notNew : ∀ row ∈ new, key row ≠ name := by
        simpa [List.find?_eq_none] using isNew
      rw [Option.or_none, Option.none_or]
      congr 1
      funext row
      by_cases same : key row = name
      · simp only [same, List.mem_map, not_exists, not_and, decide_true,
          and_true, decide_eq_true_eq]
        simpa using notNew
      · simp [same]

/-- The rows that take the place of others are some of those of a table. -/
theorem find?_upsertRows_filter {which : κ → Bool} {new rows : List ρ}
    {name : κ} :
    (upsertRows key (new.filter fun row => which (key row)) rows).find?
        (fun row => key row = name) =
      (if which name then new.find? fun row => key row = name else none).or
        (rows.find? fun row => key row = name) := by
  rw [find?_upsertRows, List.find?_filter]
  congr 1
  by_cases chosen : which name = true
  · rw [if_pos chosen]
    congr 1
    funext row
    by_cases same : key row = name
    · simp [same, chosen]
    · simp [same]
  · rw [if_neg chosen, List.find?_eq_none]
    intro row _ both
    simp only [decide_eq_true_eq] at both
    exact chosen (both.2 ▸ both.1)

theorem nodup_upsertRows {new rows : List ρ}
    (newDistinct : (new.map key).Nodup) (distinct : (rows.map key).Nodup) :
    ((upsertRows key new rows).map key).Nodup := by
  rw [upsertRows, List.map_append, List.nodup_append']
  refine ⟨distinct.sublist (List.filter_sublist.map key), newDistinct, ?_⟩
  intro name old fresh
  obtain ⟨row, member, rfl⟩ := List.mem_map.mp old
  have kept := (List.mem_filter.mp member).2
  exact of_decide_eq_true kept fresh

theorem find?_replaceRow {row : ρ} {rows : List ρ} {name : κ} :
    (replaceRows key (key row) [row] rows).find? (fun other =>
        key other = name) =
      if key row = name then some row
      else rows.find? fun other => key other = name := by
  have single : replaceRows key (key row) [row] rows =
      upsertRows key [row] rows := by
    simp [replaceRows, upsertRows]
  rw [single, find?_upsertRows]
  by_cases same : key row = name <;> simp [same]

/-- A table with a primary key. -/
structure KeyedTable (key : ρ → κ) where
  rows : List ρ
  keyed : (rows.map key).Nodup

namespace KeyedTable

def get (table : KeyedTable key) (name : κ) : Option ρ :=
  table.rows.find? fun row => key row = name

/-- `INSERT OR REPLACE`. -/
def put (table : KeyedTable key) (row : ρ) : KeyedTable key where
  rows := upsertRows key [row] table.rows
  keyed := nodup_upsertRows (List.nodup_singleton _) table.keyed

/-- `DELETE .. WHERE <key>=?`. -/
def drop (table : KeyedTable key) (name : κ) : KeyedTable key where
  rows := table.rows.filter fun row => key row ≠ name
  keyed := table.keyed.sublist (List.filter_sublist.map key)

variable {table : KeyedTable key} {name : κ} {row : ρ}

theorem get_eq_some : table.get name = some row ↔
    row ∈ table.rows ∧ key row = name := by
  constructor
  · exact fun found => ⟨List.mem_of_find?_eq_some found, key_of_find? found⟩
  · rintro ⟨member, rfl⟩
    exact find?_of_distinct table.keyed member

theorem get_put : (table.put row).get name =
    if key row = name then some row else table.get name := by
  rw [get, put, find?_upsertRows]
  by_cases same : key row = name <;> simp [same, get]

theorem get_drop {other : κ} : (table.drop other).get name =
    if name = other then none else table.get name := by
  by_cases same : name = other
  · rw [if_pos same, get, List.find?_eq_none]
    intro row member
    have kept := (List.mem_filter.mp member).2
    simp only [decide_eq_true_eq] at kept ⊢
    exact same ▸ kept
  · rw [if_neg same, get, drop, List.find?_filter]
    congr 1
    funext row
    by_cases isName : key row = name <;> simp [isName, same]

end KeyedTable

/-! ## Several keys -/

/-- Dropping the rows of several keys. -/
theorem mem_foldl_dropped {names : List κ} {rows : List ρ} {row : ρ} :
    row ∈ names.foldl (fun rows name => replaceRows key name [] rows) rows ↔
      row ∈ rows ∧ key row ∉ names := by
  induction names generalizing rows with
  | nil => simp
  | cons name names induction =>
      rw [List.foldl_cons, induction]
      simp only [mem_replaceRows, List.not_mem_nil, false_or, List.mem_cons,
        not_or, and_assoc, ne_eq]

section

variable {ι : Type} {name : ι → κ} {new : ι → List ρ}

/-- Replacing the rows of several keys, each of them once. -/
theorem mem_foldl_replaceRows {items : List ι} {rows : List ρ} {row : ρ}
    (own : ∀ item ∈ items, ∀ other ∈ new item, key other = name item)
    (distinct : (items.map name).Nodup) :
    row ∈ items.foldl
        (fun rows item => replaceRows key (name item) (new item) rows) rows ↔
      (∃ item ∈ items, row ∈ new item) ∨
        row ∈ rows ∧ key row ∉ items.map name := by
  induction items generalizing rows with
  | nil => simp
  | cons item items induction =>
      obtain ⟨fresh, others⟩ := List.nodup_cons.mp distinct
      rw [List.foldl_cons, induction
        (fun other member => own other (List.mem_cons_of_mem item member))
        others]
      -- A row of the first item stays, since its key comes up only once.
      have kept : row ∈ new item → key row ∉ items.map name := by
        intro isNew
        rw [own item List.mem_cons_self row isNew]
        exact fresh
      simp only [mem_replaceRows, List.map_cons, List.mem_cons, not_or,
        exists_eq_or_imp]
      clear induction own distinct fresh
      grind

/-- The rows of a key that does not come up. -/
theorem filter_foldl_replaceRows {items : List ι} {rows : List ρ}
    {other : κ}
    (own : ∀ item ∈ items, ∀ row ∈ new item, key row = name item)
    (untouched : other ∉ items.map name) :
    (items.foldl (fun rows item =>
        replaceRows key (name item) (new item) rows) rows).filter
      (fun row => key row = other) =
      rows.filter fun row => key row = other := by
  induction items generalizing rows with
  | nil => rfl
  | cons item items induction =>
      rw [List.map_cons, List.mem_cons, not_or] at untouched
      rw [List.foldl_cons, induction
        (fun other member => own other (List.mem_cons_of_mem item member))
        untouched.2,
        filter_replaceRows (own item List.mem_cons_self) untouched.1]

end

end SaltOS.Lib
