import SaltOS.Toml.Cells
import SaltOS.Toml.Statements

/-!
# Nodes on the heap

The cells of the parser form trees, and a tree is read off as the node it
stands for.  The operations on tables and arrays turn trees into trees; what
`table_set` frees is in none of them.
-/

namespace SaltOS.Toml

open Lib Heap

/-! ## Entries -/

section

variable {α : Type} {entries front back : List (Bytes × α)} {key : Bytes}
  {value new : α}

theorem getEntry_eq_none_iff :
    getEntry entries key = none ↔ key ∉ entries.map Prod.fst := by
  unfold getEntry
  rw [Option.map_eq_none_iff, List.find?_eq_none]
  constructor
  · intro none member
    obtain ⟨entry, inside, isKey⟩ := List.mem_map.mp member
    exact none entry inside (by simp [isKey])
  · intro absent entry member isKey
    apply absent
    rw [← beq_iff_eq.mp isKey]
    exact List.mem_map_of_mem member

theorem getEntry_eq_some (found : getEntry entries key = some value) :
    ∃ front back, entries = front ++ (key, value) :: back ∧
      key ∉ front.map Prod.fst := by
  induction entries with
  | nil => cases found
  | cons entry entries induction =>
      unfold getEntry at found
      by_cases isKey : entry.1 = key
      · rw [List.find?_cons_of_pos (by simp [isKey])] at found
        refine ⟨[], entries, ?_, List.not_mem_nil⟩
        cases found
        rw [← isKey]
        rfl
      · rw [List.find?_cons_of_neg (by simp [isKey])] at found
        obtain ⟨front, back, rfl, fresh⟩ := induction found
        refine ⟨entry :: front, back, rfl, ?_⟩
        rw [List.map_cons, List.mem_cons, not_or]
        exact ⟨Ne.symm isKey, fresh⟩

theorem getEntry_split (fresh : key ∉ front.map Prod.fst) :
    getEntry (front ++ (key, value) :: back) key = some value := by
  have noFront : front.find? (fun entry => entry.1 == key) = none := by
    have absent := getEntry_eq_none_iff.mpr fresh
    rwa [getEntry, Option.map_eq_none_iff] at absent
  rw [getEntry, List.find?_append, noFront, Option.none_or,
    List.find?_cons_of_pos (by simp)]
  rfl

theorem setEntry_split (fresh : key ∉ front.map Prod.fst) :
    setEntry (front ++ (key, value) :: back) key new =
      front ++ (key, new) :: back := by
  induction front with
  | nil => exact if_pos rfl
  | cons entry front induction =>
      rw [List.map_cons, List.mem_cons, not_or] at fresh
      rw [List.cons_append, setEntry, if_neg (Ne.symm fresh.1),
        induction fresh.2]
      rfl

theorem setEntry_new (fresh : key ∉ entries.map Prod.fst) :
    setEntry entries key new = entries ++ [(key, new)] := by
  induction entries with
  | nil => rfl
  | cons entry entries induction =>
      rw [List.map_cons, List.mem_cons, not_or] at fresh
      rw [setEntry, if_neg (Ne.symm fresh.1), induction fresh.2]
      rfl

end

theorem tableGet_eq (table : Table) (key : Bytes) :
    tableGet table key = getEntry table key :=
  rfl

theorem tableSet_eq (table : Table) (key : Bytes) (value : Node) :
    tableSet table key value = setEntry table key value := by
  induction table with
  | nil => rfl
  | cons entry table induction =>
      rw [tableSet, setEntry, induction]

/-! ## The node of a tree -/

def nodeOf : Cell → List Node → Node
  | .str text, _ => .str text
  | .int value, _ => .int value
  | .bool value, _ => .bool value
  | .arr _, nodes => .arr nodes
  | .tab entries, nodes => .tab ((entries.map Prod.fst).zip nodes)

/-- What the tree stands for. -/
def erase : CellTree Cell → Node
  | .node _ cell subs => nodeOf cell (subs.map erase)

theorem erase_node (addr : Addr) (cell : Cell) (subs : List (CellTree Cell)) :
    erase (.node addr cell subs) = nodeOf cell (subs.map erase) := by
  rw [erase]

abbrev HeldNode (heap : Heap Cell) (tree : CellTree Cell) : Prop :=
  Held Cell.children heap tree

/-- What a program leaves of the cells that it owned: a tree of those and of
new ones. -/
structure Yields (owned : List Addr) (before after : Heap Cell)
    (tree : CellTree Cell) : Prop where
  held : HeldNode after tree
  same : SameOutside owned before after
  owns : ∀ addr ∈ tree.addrs, addr ∈ owned ∨ before.next ≤ addr

section

variable {heap middle after : Heap Cell} {tree other : CellTree Cell}
  {owned : List Addr} {table : Table} {nodes : List Node}

theorem Yields.refl (held : HeldNode heap tree) :
    Yields tree.addrs heap heap tree :=
  ⟨held, SameOutside.refl _ heap, fun _ member => .inl member⟩

theorem Yields.trans (first : Yields owned heap middle tree)
    (second : Yields tree.addrs middle after other) :
    Yields owned heap after other := by
  refine ⟨second.held, first.same.trans second.same first.owns, ?_⟩
  intro addr member
  rcases second.owns addr member with old | new
  · exact first.owns addr old
  · exact .inr (Nat.le_trans first.same.next new)

/-- A tree with none of the owned cells stays. -/
theorem Yields.keeps (yields : Yields owned heap after tree)
    (held : HeldNode heap other)
    (apart : ∀ addr ∈ other.addrs, addr ∉ owned) :
    HeldNode after other ∧ ∀ addr ∈ other.addrs, addr ∉ tree.addrs := by
  refine ⟨held.of_same yields.same apart, ?_⟩
  intro addr inOther inTree
  rcases yields.owns addr inTree with old | new
  · exact apart addr inOther old
  · exact absurd (held.holds.lt_next addr inOther) (Nat.not_lt.mpr new)

/-- A node and its subtrees, taken apart. -/
theorem HeldNode.split {addr : Addr} {cell : Cell} {subs : List (CellTree Cell)}
    (held : HeldNode heap (.node addr cell subs)) :
    heap.cells addr = some cell ∧ cell.children = subs.map CellTree.addr := by
  cases held.holds with
  | node found isChildren _ => exact ⟨found, isChildren⟩

/-- A tree that stands for a table is a table. -/
theorem eq_tab_of_erase (held : HeldNode heap tree)
    (isTable : erase tree = .tab table) :
    ∃ addr entries subs, tree = .node addr (.tab entries) subs ∧
      heap.cells addr = some (.tab entries) ∧
      entries.map Prod.snd = subs.map CellTree.addr ∧
      table = (entries.map Prod.fst).zip (subs.map erase) := by
  cases tree with
  | node addr cell subs =>
      obtain ⟨found, isChildren⟩ := held.split
      rw [erase_node] at isTable
      cases cell with
      | tab entries =>
          exact ⟨addr, entries, subs, rfl, found, isChildren,
            (Node.tab.inj isTable).symm⟩
      | str => cases isTable
      | int => cases isTable
      | bool => cases isTable
      | arr => cases isTable

theorem eq_arr_of_erase (held : HeldNode heap tree)
    (isArray : erase tree = .arr nodes) :
    ∃ addr items subs, tree = .node addr (.arr items) subs ∧
      heap.cells addr = some (.arr items) ∧ items = subs.map CellTree.addr ∧
      nodes = subs.map erase := by
  cases tree with
  | node addr cell subs =>
      obtain ⟨found, isChildren⟩ := held.split
      rw [erase_node] at isArray
      cases cell with
      | arr items =>
          exact ⟨addr, items, subs, rfl, found, isChildren,
            (Node.arr.inj isArray).symm⟩
      | str => cases isArray
      | int => cases isArray
      | bool => cases isArray
      | tab => cases isArray

/-- The keys of a table are those of its cell. -/
theorem keys_zip {entries : List (Bytes × Addr)} {subs : List (CellTree Cell)}
    (aligned : entries.map Prod.snd = subs.map CellTree.addr) :
    ((entries.map Prod.fst).zip (subs.map erase)).map Prod.fst =
      entries.map Prod.fst := by
  apply List.map_fst_zip
  have lengths := congrArg List.length aligned
  simp only [List.length_map] at lengths ⊢
  omega

/-! ## Freeing -/

theorem tomlFree_ends (held : HeldNode heap tree) :
    Ends (tomlFree tree.addr heap)
      (fun _ after => Freed tree.addrs heap after) (fun _ _ => False) := by
  apply Ends.bindOk (get_run heap)
  exact free_ends held held.length_le

/-! ## Tables -/

/-- What the frame stands for, given what is in its hole. -/
def Fills (shape : Node → Node) (frame : Frame Cell) : Prop :=
  ∀ sub, erase (frame.plug sub) = shape (erase sub)

/-- The table with the node under the key. -/
def under (table : Table) (key : Bytes) (node : Node) : Node :=
  .tab (tableSet table key node)

/-- The array with the node behind the others. -/
def atEnd (nodes : List Node) (node : Node) : Node :=
  .arr (nodes ++ [node])

/-- The entries of a cell with one for the hole. -/
theorem fills_of_entries {key : Bytes} {entries pre post : List (Bytes × Addr)}
    {addr hole : Addr} {before behind : List (CellTree Cell)}
    (front : pre.map Prod.snd = before.map CellTree.addr)
    (isTable : ∀ node, tableSet table key node =
      (pre.map Prod.fst).zip (before.map erase) ++
        (key, node) :: (post.map Prod.fst).zip (behind.map erase))
    (isEntries : entries = pre ++ (key, hole) :: post) :
    Fills (under table key) ⟨addr, .tab entries, before, behind⟩ := by
  intro sub
  have lengths : (pre.map Prod.fst).length = (before.map erase).length := by
    have same := congrArg List.length front
    simp only [List.length_map] at same ⊢
    exact same
  rw [Frame.plug, erase_node, under, isTable, isEntries, nodeOf, List.map_append,
    List.map_cons, List.map_append, List.map_cons, List.zip_append lengths]
  rfl

/-- An entry of a table on the heap is a tree in a frame. -/
theorem exists_frame {key : Bytes} {entries : List (Bytes × Addr)}
    {subs : List (CellTree Cell)} {child : Addr}
    (aligned : entries.map Prod.snd = subs.map CellTree.addr)
    (found : getEntry entries key = some child) (addr : Addr) :
    ∃ frame sub, sub.addr = child ∧ frame.addr = addr ∧
      CellTree.node addr (.tab entries) subs = frame.plug sub ∧
      tableGet ((entries.map Prod.fst).zip (subs.map erase)) key =
        some (erase sub) ∧
      Fills (under ((entries.map Prod.fst).zip (subs.map erase)) key)
        frame ∧
      ∀ value : Addr, (Cell.tab (setEntry entries key value)).children =
          frame.before.map CellTree.addr ++
            value :: frame.behind.map CellTree.addr ∧
        Fills (under ((entries.map Prod.fst).zip (subs.map erase)) key)
          { frame with cell := .tab (setEntry entries key value) } := by
  obtain ⟨pre, post, rfl, fresh⟩ := getEntry_eq_some found
  rw [List.map_append, List.map_cons] at aligned
  obtain ⟨before, rest, rfl, front, later⟩ :=
    List.map_eq_append_iff.mp aligned.symm
  obtain ⟨sub, behind, rfl, isChild, back⟩ := List.map_eq_cons_iff.mp later
  have lengths : (pre.map Prod.fst).length = (before.map erase).length := by
    have same := congrArg List.length front
    simp only [List.length_map] at same ⊢
    exact same.symm
  have isTable : ((pre ++ (key, child) :: post).map Prod.fst).zip
      ((before ++ sub :: behind).map erase) =
      (pre.map Prod.fst).zip (before.map erase) ++
        (key, erase sub) :: (post.map Prod.fst).zip (behind.map erase) := by
    rw [List.map_append, List.map_cons, List.map_append, List.map_cons,
      List.zip_append lengths]
    rfl
  have notBefore :
      key ∉ ((pre.map Prod.fst).zip (before.map erase)).map Prod.fst := by
    rw [List.map_fst_zip (Nat.le_of_eq lengths)]
    exact fresh
  have sets (node : Node) : tableSet (((pre ++ (key, child) :: post).map
      Prod.fst).zip ((before ++ sub :: behind).map erase)) key node =
      (pre.map Prod.fst).zip (before.map erase) ++
        (key, node) :: (post.map Prod.fst).zip (behind.map erase) := by
    rw [isTable, tableSet_eq, setEntry_split notBefore]
  refine ⟨⟨addr, .tab (pre ++ (key, child) :: post), before, behind⟩, sub,
    isChild, rfl, rfl, ?_, fills_of_entries front.symm sets rfl, ?_⟩
  · rw [isTable, tableGet_eq, getEntry_split notBefore]
  · intro value
    rw [setEntry_split fresh]
    refine ⟨?_, fills_of_entries front.symm sets rfl⟩
    rw [Cell.children, List.map_append, List.map_cons, front, back]

/-- A new entry of a table on the heap. -/
theorem exists_new_frame {key : Bytes} {entries : List (Bytes × Addr)}
    {subs : List (CellTree Cell)}
    (aligned : entries.map Prod.snd = subs.map CellTree.addr)
    (absent : getEntry entries key = none) (addr value : Addr) :
    tableGet ((entries.map Prod.fst).zip (subs.map erase)) key = none ∧
      (Cell.tab (setEntry entries key value)).children =
        subs.map CellTree.addr ++ [value] ∧
      Fills (under ((entries.map Prod.fst).zip (subs.map erase)) key)
        ⟨addr, .tab (setEntry entries key value), subs, []⟩ := by
  have fresh := getEntry_eq_none_iff.mp absent
  have notInside :
      key ∉ ((entries.map Prod.fst).zip (subs.map erase)).map Prod.fst := by
    rw [keys_zip aligned]
    exact fresh
  refine ⟨?_, ?_, ?_⟩
  · rw [tableGet_eq]
    exact getEntry_eq_none_iff.mpr notInside
  · rw [setEntry_new fresh, Cell.children, List.map_append, aligned]
    rfl
  · apply fills_of_entries aligned _ (setEntry_new fresh)
    intro node
    rw [tableSet_eq, setEntry_new notInside]
    rfl

theorem tableGetMut_run {addr : Addr} {entries : List (Bytes × Addr)}
    (found : heap.cells addr = some (.tab entries)) (key : Bytes) :
    tableGetMut addr key heap = .ok (getEntry entries key) heap := by
  unfold tableGetMut
  rw [bind_run (load_run found)]
  rfl

/-- What `table_set` and `array_push` leave: the table or array, with the new
value in a frame. -/
structure SetTo (shape : Node → Node) (heap : Heap Cell)
    (tree value : CellTree Cell) (frame : Frame Cell) (after : Heap Cell) :
    Prop where
  addr_eq : frame.addr = tree.addr
  held : HeldNode after (frame.plug value)
  same : SameOutside tree.addrs heap after
  owns : ∀ addr ∈ frame.addrs, addr ∈ tree.addrs
  fills : Fills shape frame

/-- `table_set` replaces the value of a key, and frees what was there. -/
theorem tableSetAt_ends {value : CellTree Cell}
    (held : HeldNode heap tree) (isTable : erase tree = .tab table)
    (valueHeld : HeldNode heap value)
    (apart : ∀ addr ∈ value.addrs, addr ∉ tree.addrs) (key : Bytes) :
    Ends (tableSetAt tree.addr key value.addr heap)
      (fun _ after => ∃ frame,
        SetTo (under table key) heap tree value frame after)
      (fun _ _ => False) := by
  obtain ⟨addr, entries, subs, rfl, found, aligned, rfl⟩ :=
    eq_tab_of_erase held isTable
  unfold tableSetAt
  apply Ends.bindOk (load_run found)
  dsimp only
  cases present : getEntry entries key with
  | none =>
      obtain ⟨_, isChildren, fills⟩ :=
        exists_new_frame aligned present addr value.addr
      have frameAddrs : (⟨addr, .tab (setEntry entries key value.addr), subs,
          []⟩ : Frame Cell).addrs =
          (CellTree.node addr (Cell.tab entries) subs).addrs := by
        rw [Frame.addrs, CellTree.addrs_node, List.append_nil]
      apply write_ends found
      refine ⟨⟨addr, .tab (setEntry entries key value.addr), subs, []⟩, rfl,
        ?_, SameOutside.put heap _ _ ?_, ?_, fills⟩
      · apply Held.plug_put
        · exact put_self
        · exact fun _ other => put_other other
        · exact isChildren
        · intro sub member
          rw [List.append_nil] at member
          exact (held.sub member).holds
        · rw [frameAddrs]
          exact held.distinct
        · exact valueHeld
        · rw [frameAddrs]
          exact apart
      · exact CellTree.addr_mem_addrs _
      · rw [frameAddrs]
        exact fun other member => member
  | some old =>
      obtain ⟨frame, sub, rfl, frameAddr, isPlug, _, _, replaced⟩ :=
        exists_frame aligned present addr
      obtain ⟨isChildren, fills⟩ := replaced value.addr
      have perm := addrs_framePlug frame sub
      rw [isPlug] at held apart ⊢
      have subHeld : HeldNode heap sub := held.inFrame
      have distinct := perm.nodup_iff.mp held.distinct
      obtain ⟨_, frameDistinct, frameApart⟩ := List.nodup_append.mp distinct
      have inTree (other : Addr) (member : other ∈ frame.addrs) :
          other ∈ (frame.plug sub).addrs :=
        perm.mem_iff.mpr (List.mem_append_right _ member)
      dsimp only
      apply Ends.bind (tomlFree_ends subHeld)
      rintro _ between freed
      have kept (other : Addr) (member : other ∈ frame.addrs) :
          between.cells other = heap.cells other := by
        apply freed.same
        intro inSub
        exact frameApart other inSub other member rfl
      have still : between.cells addr = some (.tab entries) := by
        rw [← frameAddr, kept frame.addr List.mem_cons_self, frameAddr, found]
      have known : frame.addr < between.next := by
        rw [frameAddr]
        exact lt_next still
      have valueStill : HeldNode between value := by
        apply valueHeld.of_same freed.sameOutside
        intro other inValue inSub
        exact apart other inValue
          (perm.mem_iff.mpr (List.mem_append_left _ inSub))
      subst frameAddr
      apply write_ends still
      refine ⟨{ frame with cell := .tab (setEntry entries key value.addr) },
        rfl, ?_, ?_, inTree, fills⟩
      · apply Held.plug_put
        · exact put_self
        · exact fun _ other => put_other other
        · exact isChildren
        · intro other member
          have wasHeld := (holds_framePlug.mp held.holds).2.below other member
          apply wasHeld.congr
          intro part inside
          apply kept
          exact List.mem_cons_of_mem _
            (List.mem_flatMap.mpr ⟨other, member, inside⟩)
        · exact frameDistinct
        · exact valueStill
        · intro other inValue inFrame
          exact apart other inValue (inTree other inFrame)
      · have first : SameOutside (frame.plug sub).addrs heap between := by
          apply freed.sameOutside.mono
          intro other inSub
          exact .inl (perm.mem_iff.mpr (List.mem_append_left _ inSub))
        have second : SameOutside frame.addrs between (between.put frame.addr
            (some (.tab (setEntry entries key value.addr))) (lt_next still)) :=
          SameOutside.put between _ _ List.mem_cons_self
        exact first.trans second fun other member =>
          .inl (inTree other member)

end

end SaltOS.Toml
