import SaltOS.Toml.CellStatements
import SaltOS.Toml.DistinctKeys

/-!
# The tree between two statements

At every moment between two statements the cells below the root form a tree,
the current table is in it, and no table has a key twice.  The next statement
uses no cell that was freed, and an assignment replaces the value of its key.
-/

namespace SaltOS.Toml

open Lib Heap

variable {next : UInt8} {fuel : Nat} {first heap after : Heap Cell}
  {text : Bytes} {tree : CellTree Cell} {state : State} {document : Document}

/-! ## Keys on the heap -/

/-- Every table of the tree has pairwise distinct keys. -/
def DistinctKeys (heap : Heap Cell) (tree : CellTree Cell) : Prop :=
  ∀ addr ∈ tree.addrs, ∀ entries, heap.cells addr = some (.tab entries) →
    (entries.map Prod.fst).Nodup

theorem Distinct.subtree {cell : Cell} {subs : List (CellTree Cell)}
    (distinct : Distinct (nodeOf cell (subs.map erase)))
    (aligned : cell.children = subs.map CellTree.addr) :
    ∀ sub ∈ subs, Distinct (erase sub) := by
  intro sub member
  have childless (isLeaf : cell.children = []) : Distinct (erase sub) := by
    rw [isLeaf] at aligned
    rw [List.map_eq_nil_iff.mp aligned.symm] at member
    cases member
  cases cell with
  | str text => exact childless rfl
  | int value => exact childless rfl
  | bool value => exact childless rfl
  | arr items =>
      cases distinct with
      | arr below => exact below _ (List.mem_map_of_mem member)
  | tab entries =>
      cases distinct with
      | tab _ below =>
          have lengths : (subs.map erase).length =
              (entries.map Prod.fst).length := by
            have same := congrArg List.length aligned
            simp only [Cell.children, List.length_map] at same ⊢
            exact same.symm
          have isValue : erase sub ∈
              (((entries.map Prod.fst).zip (subs.map erase)).map
                Prod.snd) := by
            rw [List.map_snd_zip (Nat.le_of_eq lengths)]
            exact List.mem_map_of_mem member
          obtain ⟨entry, isEntry, isNode⟩ := List.mem_map.mp isValue
          rw [← isNode]
          exact below entry isEntry

/-- Distinct keys of the node are distinct keys of the cells. -/
theorem Distinct.keys (holds : Holds Cell.children heap.cells tree)
    (distinct : Distinct (erase tree)) : DistinctKeys heap tree := by
  induction holds with
  | @node addr cell subs found aligned _ induction =>
      rw [erase_node] at distinct
      intro other member entries isTable
      rw [CellTree.addrs_node] at member
      rcases List.mem_cons.mp member with rfl | inside
      · rw [found] at isTable
        cases isTable
        cases distinct with
        | tab nodup _ => rwa [keys_zip aligned] at nodup
      · obtain ⟨sub, isSub, inSub⟩ := List.mem_flatMap.mp inside
        exact induction sub isSub (distinct.subtree aligned sub isSub) other
          inSub entries isTable

/-! ## Every statement -/

/-- What `salt_toml_parse` has between two statements of the text, from a heap
on. -/
inductive Reached (next : UInt8) (fuel : Nat) (first : Heap Cell)
    (text : Bytes) : State → Heap Cell → Prop where
  | start : Reached next fuel first text (startState first.next text)
      (first.push (.tab []))
  | step {state later : State} {heap after : Heap Cell} :
      Reached next fuel first text state heap →
      statementAt next fuel state heap = .ok (some later) after →
      Reached next fuel first text later after

theorem Represented.step {later : State}
    (represented : Represented heap state document)
    (distinct : Distinct (.tab document.root))
    (isStatement : statementAt next fuel state heap = .ok (some later) after) :
    ∃ changed, Represented after later changed ∧
      Distinct (.tab changed.root) := by
  have tracks := statementAt_tracks represented next fuel
  unfold Tracks at tracks
  rw [isStatement] at tracks
  obtain ⟨_, isOk, continues⟩ := tracks
  cases continues with
  | more represented =>
      exact ⟨_, represented, parseStatement_distinct distinct isOk⟩

theorem Reached.represented (reached : Reached next fuel first text state heap) :
    ∃ document, Represented heap state document ∧
      Distinct (.tab document.root) := by
  induction reached with
  | start => exact ⟨_, start_represented first text, distinct_empty⟩
  | step _ isStatement induction =>
      obtain ⟨document, represented, distinct⟩ := induction
      exact represented.step distinct isStatement

/-! ## Assignments -/

/-- No key begins with a bracket. -/
theorem isAssignment_keyless {cursor : Cursor} {keys : List Bytes}
    {value : Node} (isAssignment : IsAssignment next fuel cursor keys value)
    (noKey : cursor.rest = [] ∨ ∃ rest, cursor.rest = 91 :: rest) : False := by
  obtain ⟨left, _, _, isPath, _⟩ := isAssignment
  unfold parseDottedPath at isPath
  rw [dottedLoop] at isPath
  obtain ⟨⟨key, behind⟩, isKey, _⟩ := bind_ok isPath
  rcases noKey with isRest | ⟨rest, isRest⟩
  · simp [parseKeyToken, skipWsInline, Cursor.to, isRest] at isKey
  · have notBlank : isInlineBlank 91 = false := by decide
    have notKey : isKeyByte 91 = false := by decide
    simp [parseKeyToken, skipWsInline, Cursor.to, isRest, notBlank, notKey,
      failAt] at isKey

theorem IsAssignment.unique {cursor : Cursor} {keys others : List Bytes}
    {value other : Node}
    (isAssignment : IsAssignment next fuel cursor keys value)
    (isOther : IsAssignment next fuel cursor others other) :
    keys = others ∧ value = other := by
  obtain ⟨left, rest, behind, isPath, isRest, isValue⟩ := isAssignment
  obtain ⟨_, _, _, otherPath, otherRest, otherValue⟩ := isOther
  rw [isPath] at otherPath
  cases otherPath
  rw [isRest] at otherRest
  cases otherRest
  rw [isValue] at otherValue
  cases otherValue
  exact ⟨rfl, rfl⟩

/-- A program uses no cell that was freed: it ends, or stops with an error of
the text. -/
def NoFault {α : Type} (good : α → Heap Cell → Prop) (program : NodeM α)
    (heap : Heap Cell) : Prop :=
  Ends (program heap) good (fun fault _ => ∃ stop, fault = .stop stop)

/-- The current table behind an assignment of the value to the keys. -/
def Replaces (state : State) (entries : Table) (keys : List Bytes)
    (value : Node) (found : Option State) (after : Heap Cell) : Prop :=
  ∃ later changed, found = some later ∧ later.root = state.root ∧
    later.current = state.current ∧ IsTableAt changed state.current after ∧
    descend (fun table => some (tableSet table (keys.getLast?.getD []) value))
      keys.dropLast entries = some changed ∧
    Stands changed keys.dropLast (keys.getLast?.getD []) value

theorem Represents.statement {context : Context Cell}
    {current : CellTree Cell} {entries : Table} {place : Table → Table}
    (represents :
      Represents heap state document context current entries place)
    (next : UInt8) (fuel : Nat) :
    NoFault (fun found after => ∀ keys value,
        IsAssignment next fuel (skipWsAndComments state.cursor) keys value →
        Replaces state entries keys value found after)
      (statementAt next fuel state) heap := by
  unfold statementAt
  dsimp only
  split
  · rename_i isRest
    exact fun _ _ isAssignment =>
      (isAssignment_keyless isAssignment (.inl isRest)).elim
  · rename_i rest isRest
    have header := headerAt_tracks ⟨_, _, _, _, represents⟩
      ((skipWsAndComments state.cursor).to rest)
    apply Ends.bind (header.mono (fun _ _ holds => holds) _)
    · exact fun _ _ _ _ _ isAssignment =>
        (isAssignment_keyless isAssignment (.inr ⟨rest, isRest⟩)).elim
    · rintro _ after ⟨stop, isFault, _⟩
      exact ⟨stop, isFault⟩
  · have assignment := assignmentAt_tracks represents next fuel
      (skipWsAndComments state.cursor)
    apply Ends.bind (assignment.mono (fun _ _ holds => holds) _)
    · rintro later after ⟨_, _, sameRoot, sameCurrent, keys, value,
        isAssignment, _, table, changed, _, represents', isChanged, stands⟩
      intro others other isOther
      obtain ⟨rfl, rfl⟩ := isAssignment.unique isOther
      refine ⟨later, changed, rfl, sameRoot, sameCurrent, ⟨table, ?_,
        represents'.held.focus, represents'.standing.isTable⟩, isChanged,
        stands⟩
      rw [represents'.isCurrent, sameCurrent]
    · rintro _ after ⟨stop, isFault, _⟩
      exact ⟨stop, isFault⟩

/-- After every statement the tree is well formed and the current table is in
it, and the next statement uses nothing that was freed; if it is an
assignment, it replaces the value of its key. -/
theorem reached_safe (reached : Reached next fuel first text state heap) :
    (∃ tree, tree.addr = state.root ∧ HeldNode heap tree ∧
      state.current ∈ tree.addrs ∧ DistinctKeys heap tree) ∧
    ∃ entries, IsTableAt entries state.current heap ∧
      NoFault (fun found after => ∀ keys value,
          IsAssignment next fuel (skipWsAndComments state.cursor) keys value →
          Replaces state entries keys value found after)
        (statementAt next fuel state) heap := by
  obtain ⟨document, ⟨context, current, entries, place, represents⟩,
    distinct⟩ := reached.represented
  rw [← represents.erase_root] at distinct
  refine ⟨⟨plug context current, represents.isRoot, represents.held, ?_,
    distinct.keys represents.held.holds⟩, entries,
    ⟨current, represents.isCurrent, represents.held.focus,
      represents.standing.isTable⟩, represents.statement next fuel⟩
  rw [← represents.isCurrent]
  exact Held.mem_plug (CellTree.addr_mem_addrs current)

/-- The statement `a=1` of an otherwise empty text. -/
theorem firstAssignment_safe :
    ∃ entries, IsTableAt entries 0 ((Heap.empty Cell).push (.tab [])) ∧
      NoFault (Replaces (startState 0 [97, 61, 49]) entries [[97]] (.int 1))
        (statementAt 0 2 (startState 0 [97, 61, 49]))
        ((Heap.empty Cell).push (.tab [])) := by
  have isAssignment : IsAssignment 0 2
      (skipWsAndComments (startState 0 [97, 61, 49]).cursor) [[97]]
      (.int 1) :=
    ⟨⟨[61, 49], 0, 1⟩, [49], ⟨[], 0, 1⟩, rfl, rfl, rfl⟩
  obtain ⟨_, entries, isTable, safe⟩ :=
    @reached_safe 0 2 (Heap.empty Cell) _ [97, 61, 49] _ .start
  refine ⟨entries, isTable, safe.mono ?_ fun _ _ failed => failed⟩
  intro found after replaces
  exact replaces [[97]] (.int 1) isAssignment

end SaltOS.Toml
