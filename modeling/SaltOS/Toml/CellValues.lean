import SaltOS.Toml.CellDescend

/-!
# Values on the heap

A value that the parser builds on its heap is a new tree, which stands for the
value that `parseValue` returns.  Where it fails, everything that was there
before is as it was.
-/

namespace SaltOS.Toml

open Lib Heap

variable {next : UInt8} {heap middle after : Heap Cell}
  {tree value : CellTree Cell} {owned : List Addr} {table : Table}
  {nodes : List Node}

/-- A parser on the heap returns a tree for what the other one returns, made
of the cells that it owned at first and of new ones, or stops as the other one
does. -/
def Mirrors (owned : List Addr) (expected : Except Stop (Node × Cursor))
    (first : Heap Cell) (program : NodeM (Addr × Cursor)) (heap : Heap Cell) :
    Prop :=
  Ends (program heap)
    (fun read after => ∃ tree, read.1 = CellTree.addr tree ∧
      expected = .ok (erase tree, read.2) ∧ Yields owned first after tree)
    (fun fault after => ∃ stop, fault = .stop stop ∧
      expected = .error stop ∧ SameOutside owned first after)

/-- A first step on the heap, and the parser behind it. -/
theorem Mirrors.behind {first : Heap Cell} {more : List Addr}
    {expected : Except Stop (Node × Cursor)}
    {program : NodeM (Addr × Cursor)}
    (mirrors : Mirrors more expected middle program heap)
    (same : SameOutside owned first middle)
    (owns : ∀ addr ∈ more, addr ∈ owned ∨ first.next ≤ addr) :
    Mirrors owned expected first program heap := by
  apply Ends.mono mirrors
  · rintro read after ⟨tree, isAddr, isValue, yields⟩
    refine ⟨tree, isAddr, isValue, yields.held,
      same.trans yields.same owns, ?_⟩
    intro addr member
    rcases yields.owns addr member with old | new
    · exact owns addr old
    · exact .inr (Nat.le_trans same.next new)
  · rintro _ after ⟨stop, isFault, isStop, later⟩
    exact ⟨stop, isFault, isStop, same.trans later owns⟩

/-- The expected result under a name, so that a case analysis of the program
leaves it alone. -/
theorem Mirrors.named {first : Heap Cell}
    {expected : Except Stop (Node × Cursor)}
    {program : NodeM (Addr × Cursor)}
    (mirrors : ∀ result, expected = result →
      Mirrors owned result first program heap) :
    Mirrors owned expected first program heap :=
  mirrors expected rfl

/-! ## Parts that use no heap -/

theorem lift_ends {α : Type} (read : Except Stop α) (heap : Heap Cell) :
    Ends (lift read heap)
      (fun value after => read = .ok value ∧ after = heap)
      (fun fault after => ∃ stop, fault = .stop stop ∧ read = .error stop ∧
        SameOutside [] heap after) := by
  cases read with
  | ok value => exact ⟨rfl, rfl⟩
  | error stop => exact ⟨stop, rfl, rfl, SameOutside.refl [] heap⟩

/-- A parser that fails frees the tree it was building. -/
theorem freeing_ends {α : Type} {program : NodeM α}
    {good : α → Heap Cell → Prop} {expected : Stop → Prop}
    (held : HeldNode heap tree)
    (ends : Ends (program heap) good (fun fault after =>
      ∃ stop, fault = .stop stop ∧ expected stop ∧
        SameOutside [] heap after)) :
    Ends (freeing tree.addr program heap) good (fun fault after =>
      ∃ stop, fault = .stop stop ∧ expected stop ∧
        SameOutside tree.addrs heap after) := by
  unfold freeing
  apply Ends.attempted ends
  · exact fun _ _ holds => holds
  · rintro _ between ⟨stop, rfl, isExpected, same⟩
    have still : HeldNode between tree :=
      held.of_same same fun _ _ => List.not_mem_nil
    apply Ends.bindSafe (tomlFree_ends still)
    rintro _ after freed
    refine ⟨stop, rfl, isExpected, ?_⟩
    exact (same.mono fun _ member => nomatch member).trans freed.sameOutside
      fun _ => .inl

/-- Free the tree and fail. -/
theorem freed_ends {α : Type} {good : α → Heap Cell → Prop} {stop : Stop}
    (held : HeldNode heap tree) :
    Ends ((do tomlFree tree.addr; lift (.error stop) : NodeM α) heap) good
      (fun fault after => fault = .stop stop ∧
        SameOutside tree.addrs heap after) := by
  apply Ends.bindSafe (tomlFree_ends held)
  rintro _ after freed
  exact ⟨rfl, freed.sameOutside⟩

theorem freed_mirrors {stop : Stop} (held : HeldNode heap tree) :
    Mirrors tree.addrs (.error stop) heap
      (do tomlFree tree.addr; lift (.error stop)) heap := by
  apply (freed_ends held).mono
  · exact fun _ _ impossible => False.elim impossible
  · exact fun _ _ failed => ⟨stop, failed.1, rfl, failed.2⟩

inductive IsScalar : Node → Prop where
  | str (text : Bytes) : IsScalar (.str text)
  | int (value : Int) : IsScalar (.int value)
  | bool (value : Bool) : IsScalar (.bool value)

theorem IsScalar.cell {node : Node} (isScalar : IsScalar node) :
    (scalarCell node).children = [] ∧ nodeOf (scalarCell node) [] = node := by
  cases isScalar <;> exact ⟨rfl, rfl⟩

private theorem digits_isScalar (digits token : Bytes) :
    IsScalar (if digits ≠ [] ∧ digits.all (fun byte => byte == 95 ||
        Bytes.isDigit byte) then
      .int (strtoll ((token.filter (· != 95)).take 63))
    else .str token) := by
  split
  · exact .int _
  · exact .str token

theorem scalarNode_isScalar (token : Bytes) : IsScalar (scalarNode token) := by
  unfold scalarNode
  split_ifs
  · exact .bool true
  · exact .bool false
  · exact digits_isScalar _ token
  · exact digits_isScalar _ token

theorem string_isScalar {read : Except Stop (Bytes × Cursor)}
    {result : Node × Cursor}
    (isValue : (do
      let (text, cursor) ← read
      .ok (.str text, cursor) : Except Stop (Node × Cursor)) = .ok result) :
    IsScalar result.1 := by
  obtain ⟨⟨text, cursor⟩, _, isResult⟩ := Lib.bind_ok isValue
  cases isResult
  exact .str text

/-- What starts with neither bracket nor brace is a scalar. -/
theorem parseValue_isScalar {fuel : Nat} {start : Cursor}
    {result : Node × Cursor}
    (noArray : ∀ rest, (skipWsInline start).rest ≠ 91 :: rest)
    (noTable : ∀ rest, (skipWsInline start).rest ≠ 123 :: rest)
    (isValue : parseValue next (fuel + 1) start = .ok result) :
    IsScalar result.1 := by
  rw [parseValue] at isValue
  dsimp only at isValue
  split at isValue
  · cases isValue
  · exact string_isScalar isValue
  · exact string_isScalar isValue
  · exact string_isScalar isValue
  · exact string_isScalar isValue
  · rename_i rest isRest
    exact absurd isRest (noArray rest)
  · rename_i rest isRest
    exact absurd isRest (noTable rest)
  · cases isValue
    exact scalarNode_isScalar _

/-! ## The loops -/

variable (next)

/-- The parser of values on the heap, with this fuel. -/
def ValuesMirrored (fuel : Nat) : Prop :=
  ∀ (cursor : Cursor) (heap : Heap Cell),
    Mirrors [] (parseValue next fuel cursor) heap
      (parseValueAt next fuel cursor) heap

/-- The loop for the items of an array. -/
def ArraysMirrored (fuel : Nat) : Prop :=
  ∀ (cursor : Cursor) (heap : Heap Cell) (tree : CellTree Cell)
    (nodes : List Node), HeldNode heap tree → erase tree = .arr nodes →
    Mirrors tree.addrs (parseArray next fuel nodes cursor) heap
      (parseArrayAt next fuel tree.addr cursor) heap

/-- The loop for the fields of an inline table. -/
def TablesMirrored (fuel : Nat) : Prop :=
  ∀ (cursor : Cursor) (heap : Heap Cell) (tree : CellTree Cell)
    (table : Table), HeldNode heap tree → erase tree = .tab table →
    Mirrors tree.addrs (parseInlineTable next fuel table cursor) heap
      (parseInlineTableAt next fuel tree.addr cursor) heap

variable {next}

/-- A part is parsed; if that fails, the tree is freed. -/
theorem mirrors_bind {α β : Type} {read : NodeM α}
    {expectedRead : Except Stop β}
    {rest : α → NodeM (Addr × Cursor)}
    {expectedRest : β → Except Stop (Node × Cursor)}
    {good : α → Heap Cell → Prop} (held : HeldNode heap tree)
    (first : Ends (read heap) good (fun fault after => ∃ stop,
      fault = .stop stop ∧ expectedRead = .error stop ∧
        SameOutside [] heap after))
    (isRead : ∀ value after, good value after →
      ∃ expected, expectedRead = .ok expected ∧
        Mirrors tree.addrs (expectedRest expected) heap (rest value) after) :
    Mirrors tree.addrs (expectedRead >>= expectedRest) heap
      (freeing tree.addr read >>= rest) heap := by
  have freed := freeing_ends held first
  apply Ends.bind (freed.mono (fun _ _ holds => holds) ?_)
  · intro value after holds
    obtain ⟨expected, isValue, mirrors⟩ := isRead value after holds
    rw [isValue]
    exact mirrors
  · rintro _ after ⟨stop, isFault, isStop, same⟩
    refine ⟨stop, isFault, ?_, same⟩
    rw [isStop]
    rfl

theorem arrays_step {fuel : Nat} (values : ValuesMirrored next fuel)
    (arrays : ArraysMirrored next fuel) : ArraysMirrored next (fuel + 1) := by
  intro cursor heap tree nodes held isArray
  rw [parseArrayAt, parseArray]
  dsimp only
  apply Mirrors.named
  intro result isResult
  split
  · rename_i isRest
    rw [isRest] at isResult
    rw [← isResult]
    exact freed_mirrors held
  · rename_i rest isRest
    rw [isRest, ← isArray] at isResult
    rw [← isResult]
    exact ⟨tree, rfl, rfl, Yields.refl held⟩
  · rename_i noEnd noClose
    split at isResult
    · rename_i isRest
      exact (noEnd isRest).elim
    · rename_i rest isRest
      exact (noClose rest isRest).elim
    · rw [← isResult]
      apply mirrors_bind held (values _ heap)
      rintro ⟨_, left⟩ middle ⟨value, rfl, isValue, yields⟩
      refine ⟨_, isValue, ?_⟩
      obtain ⟨still, apart⟩ := yields.keeps held fun _ _ => List.not_mem_nil
      apply Ends.bindSafe (arrayPush_ends still isArray yields.held
        fun addr inValue inTree => apart addr inTree inValue)
      rintro _ after ⟨frame, setTo⟩
      have pushed := setTo.yields_new yields
      have isPushed : erase (frame.plug value) =
          .arr (nodes ++ [erase value]) :=
        setTo.fills value
      have sameAddr : (frame.plug value).addr = tree.addr := setTo.addr_eq
      have goesOn (cursor : Cursor) : Mirrors tree.addrs
          (parseArray next fuel (nodes ++ [erase value]) cursor) heap
          (parseArrayAt next fuel tree.addr cursor) after := by
        rw [← sameAddr]
        exact (arrays cursor after _ _ pushed.held isPushed).behind
          pushed.same pushed.owns
      change Mirrors tree.addrs _ heap _ after
      dsimp only
      apply Mirrors.named
      intro result isResult
      split
      · rename_i rest isRest
        rw [isRest] at isResult
        rw [← isResult]
        exact goesOn _
      · rename_i rest isRest
        rw [isRest, ← isPushed] at isResult
        rw [← isResult]
        exact ⟨_, sameAddr.symm, rfl, pushed⟩
      · rename_i noComma noClose
        split at isResult
        · rename_i rest isRest
          exact (noComma rest isRest).elim
        · rename_i rest isRest
          exact (noClose rest isRest).elim
        · rw [← isResult]
          exact goesOn _

theorem tables_step {fuel : Nat} (values : ValuesMirrored next fuel)
    (tables : TablesMirrored next fuel) : TablesMirrored next (fuel + 1) := by
  intro cursor heap tree table held isTable
  rw [parseInlineTableAt, parseInlineTable]
  apply mirrors_bind held (lift_ends _ heap)
  rintro ⟨key, left⟩ heap ⟨isKey, rfl⟩
  refine ⟨_, isKey, ?_⟩
  dsimp only
  apply Mirrors.named
  intro result isResult
  split
  · rename_i rest isRest
    rw [isRest] at isResult
    rw [← isResult]
    apply mirrors_bind held (values _ heap)
    rintro ⟨_, left⟩ middle ⟨value, rfl, isValue, yields⟩
    refine ⟨_, isValue, ?_⟩
    obtain ⟨still, apart⟩ := yields.keeps held fun _ _ => List.not_mem_nil
    apply Ends.bindSafe (tableSetAt_ends still isTable yields.held
      (fun addr inValue inTree => apart addr inTree inValue) key)
    rintro _ after ⟨frame, setTo⟩
    have set := setTo.yields_new yields
    have isSet : erase (frame.plug value) =
        .tab (tableSet table key (erase value)) :=
      setTo.fills value
    have sameAddr : (frame.plug value).addr = tree.addr := setTo.addr_eq
    change Mirrors tree.addrs _ heap _ after
    dsimp only
    apply Mirrors.named
    intro result isResult
    split
    · rename_i rest isRest
      rw [isRest] at isResult
      rw [← isResult, ← sameAddr]
      exact (tables _ after _ _ set.held isSet).behind set.same set.owns
    · rename_i rest isRest
      rw [isRest, ← isSet] at isResult
      rw [← isResult]
      exact ⟨_, sameAddr.symm, rfl, set⟩
    · rename_i noComma noClose
      split at isResult
      · rename_i rest isRest
        exact (noComma rest isRest).elim
      · rename_i rest isRest
        exact (noClose rest isRest).elim
      · rw [← isResult, ← sameAddr]
        exact (freed_mirrors set.held).behind set.same set.owns
  · rename_i noEquals
    split at isResult
    · rename_i rest isRest
      exact (noEquals rest isRest).elim
    · rw [← isResult]
      exact freed_mirrors held

/-- An inline table, from its brace on. -/
theorem parseValue_table {fuel : Nat} {cursor : Cursor} {rest : Bytes}
    (isRest : (skipWsInline cursor).rest = 123 :: rest) :
    parseValue next (fuel + 1) cursor =
      match (skipWsInline ((skipWsInline cursor).to rest)).rest with
      | 125 :: more => .ok (.tab [],
          (skipWsInline ((skipWsInline cursor).to rest)).to more)
      | _ => parseInlineTable next fuel []
          (skipWsInline ((skipWsInline cursor).to rest)) := by
  rw [parseValue]
  dsimp only
  rw [isRest]
  rfl

/-- A new cell, and the loop that fills it. -/
theorem leaf_mirrors {cell : Cell} (childless : cell.children = [])
    {expected : Except Stop (Node × Cursor)}
    {rest : Addr → NodeM (Addr × Cursor)} {heap : Heap Cell}
    (mirrors : ∀ leaf after, HeldNode after leaf →
      erase leaf = nodeOf cell [] →
      Mirrors leaf.addrs expected after (rest leaf.addr) after) :
    Mirrors [] expected heap (alloc cell >>= rest) heap := by
  have leaf := yields_leaf childless heap
  apply Ends.bindOk (alloc_run cell heap)
  exact (mirrors _ _ leaf.held (erase_node _ _ _)).behind leaf.same leaf.owns

theorem values_step {fuel : Nat} (arrays : ArraysMirrored next fuel)
    (tables : TablesMirrored next fuel) : ValuesMirrored next (fuel + 1) := by
  intro cursor heap
  by_cases isArray : ∃ rest, (skipWsInline cursor).rest = 91 :: rest
  · obtain ⟨rest, isRest⟩ := isArray
    rw [parseValueAt, parseValue]
    dsimp only
    rw [isRest]
    apply leaf_mirrors rfl
    intro leaf after held isLeaf
    exact arrays _ after leaf [] held isLeaf
  · by_cases isTable : ∃ rest, (skipWsInline cursor).rest = 123 :: rest
    · obtain ⟨rest, isRest⟩ := isTable
      rw [parseValueAt, parseValue_table isRest]
      dsimp only
      rw [isRest]
      apply leaf_mirrors rfl
      intro leaf after held isLeaf
      have isEmpty : erase leaf = .tab [] := isLeaf
      apply Mirrors.named
      intro result isResult
      split
      · rename_i rest isRest
        rw [isRest, ← isEmpty] at isResult
        rw [← isResult]
        exact ⟨leaf, rfl, rfl, Yields.refl held⟩
      · rename_i noClose
        split at isResult
        · rename_i rest isRest
          exact (noClose rest isRest).elim
        · rw [← isResult]
          exact tables _ after leaf [] held isEmpty
    · have noArray : ∀ rest, (skipWsInline cursor).rest ≠ 91 :: rest :=
        fun rest isRest => isArray ⟨rest, isRest⟩
      have noTable : ∀ rest, (skipWsInline cursor).rest ≠ 123 :: rest :=
        fun rest isRest => isTable ⟨rest, isRest⟩
      rw [parseValueAt]
      dsimp only
      split
      · rename_i rest isRest
        exact absurd isRest (noArray rest)
      · rename_i rest isRest
        exact absurd isRest (noTable rest)
      · apply Ends.bind (lift_ends _ heap)
        rintro ⟨scalar, left⟩ heap ⟨isValue, rfl⟩
        obtain ⟨childless, isNode⟩ :=
          (parseValue_isScalar noArray noTable isValue).cell
        have leaf := yields_leaf childless heap
        apply Ends.bindOk (alloc_run _ heap)
        refine ⟨_, rfl, ?_, leaf⟩
        rw [isValue, erase_node, List.map_nil, isNode]

/-- The parser of values builds on its heap what `parseValue` returns. -/
theorem values_mirrored (next : UInt8) (fuel : Nat) :
    ValuesMirrored next fuel ∧ ArraysMirrored next fuel ∧
      TablesMirrored next fuel := by
  induction fuel with
  | zero =>
      refine ⟨?_, ?_, ?_⟩
      · intro cursor heap
        rw [parseValueAt, parseValue]
        exact ⟨_, rfl, rfl, SameOutside.refl _ heap⟩
      · intro cursor heap tree nodes held isArray
        rw [parseArrayAt, parseArray]
        exact ⟨_, rfl, rfl, SameOutside.refl _ heap⟩
      · intro cursor heap tree table held isTable
        rw [parseInlineTableAt, parseInlineTable]
        exact ⟨_, rfl, rfl, SameOutside.refl _ heap⟩
  | succ fuel induction =>
      obtain ⟨values, arrays, tables⟩ := induction
      exact ⟨values_step arrays tables, arrays_step values arrays,
        tables_step values tables⟩

end SaltOS.Toml
