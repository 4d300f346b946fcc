import SaltOS.Lib.Pieces
import SaltOS.Toml.CellTrees

/-!
# Descending on the heap

`descend_table` walks down the tree by address and makes what is missing.  It
ends at the table to which the path leads in the tree as a whole, with the way
there as a context.
-/

namespace SaltOS.Toml

open Lib Heap

variable {heap middle after : Heap Cell} {tree other : CellTree Cell}
  {owned : List Addr} {table child : Table} {nodes : List Node}
  {context : Context Cell} {key : Bytes} {keys : List Bytes}

/-- What happens to the tree in the hole happens to the whole. -/
theorem Yields.refocus {new : CellTree Cell}
    (yields : Yields tree.addrs heap after new)
    (held : HeldNode heap (plug context tree))
    (sameAddr : new.addr = tree.addr) :
    Yields (plug context tree).addrs heap after (plug context new) := by
  refine ⟨?_, ?_, ?_⟩
  · apply Held.refocus held sameAddr yields.held yields.same
    intro addr member
    rcases yields.owns addr member with old | new
    · exact .inl old
    · right
      intro inWhole
      exact absurd (held.holds.lt_next addr inWhole) (Nat.not_lt.mpr new)
  · exact yields.same.mono fun addr member => .inl (Held.mem_plug member)
  · exact Held.mem_refocus yields.owns

/-! ## Arrays -/

theorem arrayPush_ends {value : CellTree Cell} (held : HeldNode heap tree)
    (isArray : erase tree = .arr nodes) (valueHeld : HeldNode heap value)
    (apart : ∀ addr ∈ value.addrs, addr ∉ tree.addrs) :
    Ends (arrayPush tree.addr value.addr heap)
      (fun _ after => ∃ frame, SetTo (atEnd nodes) heap tree value frame after)
      (fun _ _ => False) := by
  obtain ⟨addr, items, subs, rfl, found, rfl, rfl⟩ :=
    eq_arr_of_erase held isArray
  unfold arrayPush
  apply Ends.bindOk (load_run found)
  have frameAddrs : (⟨addr, .arr (subs.map CellTree.addr ++ [value.addr]),
      subs, []⟩ : Frame Cell).addrs =
      (CellTree.node addr (Cell.arr (subs.map CellTree.addr)) subs).addrs := by
    rw [Frame.addrs, CellTree.addrs_node, List.append_nil]
  apply write_ends found
  refine ⟨⟨addr, .arr (subs.map CellTree.addr ++ [value.addr]), subs, []⟩,
    rfl, ?_, SameOutside.put heap _ _ (CellTree.addr_mem_addrs _), ?_, ?_⟩
  · apply Held.plug_put
    · exact put_self
    · exact fun _ differs => put_other differs
    · rfl
    · intro sub member
      rw [List.append_nil] at member
      exact (held.sub member).holds
    · rw [frameAddrs]
      exact held.distinct
    · exact valueHeld
    · rw [frameAddrs]
      exact apart
  · rw [frameAddrs]
    exact fun _ member => member
  · intro sub
    rw [Frame.plug, erase_node, nodeOf, atEnd, List.map_append]
    rfl

/-- An array with items is its last one in a frame. -/
theorem lastItem_ends (held : HeldNode heap tree) :
    Ends (lastItem tree.addr heap)
      (fun addr after => after = heap ∧
        ((addr = tree.addr ∧ ∀ nodes, erase tree = .arr nodes → nodes = []) ∨
          ∃ frame item nodes, tree = frame.plug item ∧ addr = item.addr ∧
            frame.addr = tree.addr ∧ erase tree = .arr (nodes ++ [erase item]) ∧
            Fills (atEnd nodes) frame))
      (fun _ _ => False) := by
  cases tree with
  | node addr cell subs =>
      obtain ⟨found, isChildren⟩ := held.split
      unfold lastItem
      apply Ends.bindOk (load_run found)
      have plain (notArray : ∀ items, cell ≠ .arr items) :
          ∀ nodes, erase (.node addr cell subs) = .arr nodes → nodes = [] := by
        intro nodes isArray
        rw [erase_node] at isArray
        cases cell with
        | arr items => exact absurd rfl (notArray items)
        | str => cases isArray
        | int => cases isArray
        | bool => cases isArray
        | tab => cases isArray
      cases cell with
      | arr items =>
          change items = _ at isChildren
          subst isChildren
          rcases List.eq_nil_or_concat subs with rfl | ⟨before, item, rfl⟩
          · refine ⟨rfl, .inl ⟨rfl, ?_⟩⟩
            intro nodes isArray
            rw [erase_node] at isArray
            exact (Node.arr.inj isArray).symm
          · rw [List.concat_eq_append, List.map_append, List.map_singleton]
            refine ⟨rfl, .inr ⟨⟨addr, .arr ((before ++ [item]).map
              CellTree.addr), before, []⟩, item, before.map erase, ?_, ?_, rfl,
              ?_, ?_⟩⟩
            · rw [Frame.plug, List.map_append, List.map_singleton]
            · rw [List.getLast?_concat, Option.getD_some]
            · rw [erase_node, nodeOf, List.map_append, List.map_singleton]
            · intro sub
              rw [Frame.plug, erase_node, nodeOf, atEnd, List.map_append]
              rfl
      | str text => exact ⟨rfl, .inl ⟨rfl, plain fun _ => by simp⟩⟩
      | int value => exact ⟨rfl, .inl ⟨rfl, plain fun _ => by simp⟩⟩
      | bool value => exact ⟨rfl, .inl ⟨rfl, plain fun _ => by simp⟩⟩
      | tab entries => exact ⟨rfl, .inl ⟨rfl, plain fun _ => by simp⟩⟩

/-! ## Children -/

/-- A new leaf on the heap. -/
theorem yields_leaf {cell : Cell} (childless : cell.children = [])
    (heap : Heap Cell) :
    Yields [] heap (heap.push cell) (.node heap.next cell []) := by
  refine ⟨Held.leaf push_self childless, SameOutside.push [] heap cell, ?_⟩
  intro addr member
  rw [CellTree.addrs_node, List.flatMap_nil, List.mem_singleton] at member
  rw [member]
  exact .inr (Nat.le_refl _)

theorem SetTo.yields_new {shape : Node → Node} {leaf : CellTree Cell}
    {frame : Frame Cell}
    (setTo : SetTo shape middle tree leaf frame after)
    (fresh : Yields [] heap middle leaf) :
    Yields tree.addrs heap after (frame.plug leaf) := by
  have first : SameOutside tree.addrs heap middle :=
    fresh.same.mono fun _ member => nomatch member
  refine ⟨setTo.held, first.trans setTo.same fun _ => .inl, ?_⟩
  intro addr member
  rcases List.mem_append.mp ((addrs_framePlug frame leaf).mem_iff.mp member)
    with inLeaf | inFrame
  · rcases fresh.owns addr inLeaf with none | new
    · cases none
    · exact .inr new
  · exact .inl (setTo.owns addr inFrame)

/-- A child of a table, found or made. -/
structure ChildOf (table : Table) (key : Bytes) (new : Cell)
    (heap : Heap Cell) (tree : CellTree Cell) (after : Heap Cell)
    (frame : Frame Cell) (sub : CellTree Cell) : Prop where
  addr_eq : frame.addr = tree.addr
  yields : Yields tree.addrs heap after (frame.plug sub)
  fills : Fills (under table key) frame
  found : tableGet table key = some (erase sub) ∨
    tableGet table key = none ∧ erase sub = nodeOf new []

theorem childAt_ends {new : Cell} (childless : new.children = [])
    (held : HeldNode heap tree) (isTable : erase tree = .tab table)
    (key : Bytes) :
    Ends (childAt new tree.addr key heap)
      (fun addr after => ∃ frame sub, addr = sub.addr ∧
        ChildOf table key new heap tree after frame sub)
      (fun _ _ => False) := by
  obtain ⟨addr, entries, subs, rfl, found, aligned, rfl⟩ :=
    eq_tab_of_erase held isTable
  unfold childAt
  apply Ends.bindOk (tableGetMut_run found key)
  cases present : getEntry entries key with
  | some child =>
      obtain ⟨frame, sub, rfl, frameAddr, isPlug, isEntry, fills, _⟩ :=
        exists_frame aligned present addr
      refine ⟨frame, sub, rfl, frameAddr, ?_, fills, .inl isEntry⟩
      rw [isPlug] at held ⊢
      exact Yields.refl held
  | none =>
      obtain ⟨absent, _⟩ := exists_new_frame aligned present addr addr
      have leaf := yields_leaf childless heap
      obtain ⟨still, apart⟩ := leaf.keeps held fun _ _ => List.not_mem_nil
      apply Ends.bindOk (alloc_run new heap)
      have set := tableSetAt_ends still isTable leaf.held
        (fun other inLeaf inTree => apart other inTree inLeaf) key
      apply Ends.bind set
      rintro _ after ⟨frame, setTo⟩
      exact ⟨frame, .node heap.next new [], rfl, setTo.addr_eq,
        setTo.yields_new leaf, setTo.fills, .inr ⟨absent, erase_node _ _ _⟩⟩

/-! ## One step -/

/-- One step down to what stands for the child of a key, in its context. -/
structure Entered (table : Table) (key : Bytes) (heap : Heap Cell)
    (tree : CellTree Cell) (after : Heap Cell) (context : Context Cell)
    (item : CellTree Cell) (place : Table → Table) : Prop where
  addr_eq : ∀ sub, (plug context sub).addr = tree.addr
  yields : Yields tree.addrs heap after (plug context item)
  isPlace : IsPlace [key] place
  fills : ∀ sub child, erase sub = .tab child →
    erase (plug context sub) = .tab (place child)
  opens : ∀ change keys child, erase item = .tab child →
    descend change (key :: keys) table =
      (descend change keys child).map place
  closed : (∀ child, erase item ≠ .tab child) →
    ∀ change keys, descend change (key :: keys) table = none

/-- The child itself, which is no array with items. -/
theorem ChildOf.entered {frame : Frame Cell} {sub : CellTree Cell}
    (isChild : ChildOf table key (.tab []) heap tree after frame sub)
    (noItems : ∀ nodes, erase sub = .arr nodes → nodes = []) :
    Entered table key heap tree after [frame] sub
      (fun child => tableSet table key (.tab child)) := by
  refine ⟨fun _ => isChild.addr_eq, isChild.yields, isPlace_tab table key,
    ?_, ?_, ?_⟩
  · intro other child isTable
    rw [plug, plug, isChild.fills other, isTable]
    rfl
  · intro change keys child isTable
    rcases isChild.found with found | ⟨absent, isNew⟩
    · rw [isTable] at found
      rw [descend, found]
    · rw [isTable] at isNew
      cases isNew
      rw [descend, absent]
      rfl
  · intro noTable change keys
    rcases isChild.found with found | ⟨_, isNew⟩
    · rw [descend, found]
      cases isNode : erase sub with
      | tab child => exact absurd isNode (noTable child)
      | arr nodes =>
          rw [noItems nodes isNode]
          rfl
      | str text => rfl
      | int value => rfl
      | bool value => rfl
    · exact absurd isNew (noTable [])

/-- The last item of the child, which is an array. -/
theorem ChildOf.entered_item {frame inner : Frame Cell}
    {item : CellTree Cell}
    (isChild : ChildOf table key (.tab []) heap tree after frame
      (inner.plug item))
    (isArray : erase (inner.plug item) = .arr (nodes ++ [erase item]))
    (fills : Fills (atEnd nodes) inner) :
    Entered table key heap tree after [inner, frame] item
      (fun child => tableSet table key (.arr (nodes ++ [.tab child]))) := by
  have found : tableGet table key = some (.arr (nodes ++ [erase item])) := by
    rcases isChild.found with found | ⟨_, isNew⟩
    · rw [found, isArray]
    · rw [isArray] at isNew
      cases isNew
  refine ⟨fun _ => isChild.addr_eq, isChild.yields,
    isPlace_arr table key nodes, ?_, ?_, ?_⟩
  · intro sub child isTable
    rw [plug, plug, plug, isChild.fills, fills, isTable]
    rfl
  · intro change keys child isTable
    rw [descend, found, isTable]
    simp
  · intro noTable change keys
    rw [descend, found]
    cases isNode : erase item with
    | tab child => exact absurd isNode (noTable child)
    | arr => simp
    | str => simp
    | int => simp
    | bool => simp

theorem enterAt_ends (held : HeldNode heap tree)
    (isTable : erase tree = .tab table) (key : Bytes) :
    Ends (enterAt tree.addr key heap)
      (fun addr after => ∃ context item place, addr = item.addr ∧
        Entered table key heap tree after context item place)
      (fun _ _ => False) := by
  unfold enterAt
  apply Ends.bind (childAt_ends rfl held isTable key)
  rintro _ after ⟨frame, sub, rfl, isChild⟩
  have subHeld : HeldNode after sub := isChild.yields.held.inFrame
  apply (lastItem_ends subHeld).mono
  · rintro _ _ ⟨rfl, ⟨rfl, noItems⟩ | ⟨inner, item, nodes, rfl, rfl, _,
      isArray, fills⟩⟩
    · exact ⟨_, sub, _, rfl, isChild.entered noItems⟩
    · exact ⟨_, item, _, rfl, isChild.entered_item isArray fills⟩
  · exact fun _ _ impossible => impossible

/-! ## The whole way -/

/-- The table at a path: where the tree has it, and what the tree becomes
with another table there. -/
structure Standing (keys : List Bytes) (context : Context Cell)
    (target : CellTree Cell) (entries : Table) (place : Table → Table) :
    Prop where
  isPlace : IsPlace keys place
  isTable : erase target = .tab entries
  fills : ∀ sub child, erase sub = .tab child →
    erase (plug context sub) = .tab (place child)

/-- The table to which a path leads from another one. -/
structure Opened (keys : List Bytes) (table : Table) (context : Context Cell)
    (target : CellTree Cell) (entries : Table) (place : Table → Table) :
    Prop where
  standing : Standing keys context target entries place
  opens : ∀ change, descend change keys table = (change entries).map place

/-- How `descend_table` ends. -/
inductive Descended (keys : List Bytes) (table : Table) (heap : Heap Cell)
    (tree : CellTree Cell) (after : Heap Cell) : Option Addr → Prop where
  | found {context : Context Cell} {target : CellTree Cell} {entries : Table}
      {place : Table → Table} :
      Opened keys table context target entries place →
      (∀ sub, sub.addr = target.addr →
        (plug context sub).addr = tree.addr) →
      Yields tree.addrs heap after (plug context target) →
      Descended keys table heap tree after (some target.addr)
  | conflict {left : CellTree Cell} :
      (∀ change, descend change keys table = none) →
      left.addr = tree.addr → Yields tree.addrs heap after left →
      Descended keys table heap tree after none

theorem opened_self (isTable : erase tree = .tab table) :
    Opened [] table [] tree table id := by
  refine ⟨⟨isPlace_root, isTable, fun _ _ isSub => isSub⟩, ?_⟩
  intro change
  rw [descend, Option.map_id, id]

theorem Standing.inside {more : List Bytes} {target : CellTree Cell}
    {inner : Context Cell} {place innerPlace : Table → Table}
    {entries : Table} (isPlace : IsPlace keys place)
    (fills : ∀ sub child, erase sub = .tab child →
      erase (plug context sub) = .tab (place child))
    (standing : Standing more inner target entries innerPlace) :
    Standing (keys ++ more) (inner ++ context) target entries
      fun child => place (innerPlace child) := by
  refine ⟨isPlace.append standing.isPlace, standing.isTable, ?_⟩
  intro sub below isSub
  rw [plug_append]
  exact fills _ _ (standing.fills sub below isSub)

theorem Entered.found {item target : CellTree Cell}
    {inner : Context Cell} {place innerPlace : Table → Table}
    {entries : Table}
    (entered : Entered table key heap tree middle context item place)
    (isTable : erase item = .tab child)
    (opened : Opened keys child inner target entries innerPlace) :
    Opened (key :: keys) table (inner ++ context) target entries
      fun child => place (innerPlace child) := by
  refine ⟨Standing.inside entered.isPlace entered.fills opened.standing, ?_⟩
  intro change
  rw [entered.opens change keys child isTable, opened.opens, Option.map_map]
  rfl

theorem descendAt_ends (held : HeldNode heap tree)
    (isTable : erase tree = .tab table) (keys : List Bytes) :
    Ends (descendAt keys tree.addr heap)
      (fun addr after => Descended keys table heap tree after addr)
      (fun _ _ => False) := by
  induction keys generalizing heap tree table with
  | nil =>
      exact Descended.found (opened_self isTable) (fun _ same => same)
        (Yields.refl held)
  | cons key keys induction =>
      unfold descendAt
      apply Ends.bind (enterAt_ends held isTable key)
      rintro _ middle ⟨context, item, place, rfl, entered⟩
      have whole := entered.yields.held
      have itemHeld : HeldNode middle item := whole.focus
      cases item with
      | node addr cell subs =>
          obtain ⟨found, _⟩ := itemHeld.split
          apply Ends.bindOk (load_run found)
          have closed (noTable : ∀ entries, cell ≠ .tab entries) :
              Descended (key :: keys) table heap tree middle none := by
            have noChild : ∀ child,
                erase (.node addr cell subs) ≠ .tab child := by
              intro child isChild
              obtain ⟨_, entries, _, same, _⟩ :=
                eq_tab_of_erase itemHeld isChild
              cases same
              exact noTable entries rfl
            exact Descended.conflict
              (fun change => entered.closed noChild change keys)
              (entered.addr_eq _) entered.yields
          cases cell with
          | tab entries =>
              have isChild := erase_node addr (.tab entries) subs
              apply (induction itemHeld isChild).mono
              · rintro _ after descended
                cases descended with
                | @found inner target _ _ opened sameAddr yields =>
                    have same := sameAddr target rfl
                    apply Descended.found (entered.found isChild opened)
                    · intro sub _
                      rw [plug_append]
                      exact entered.addr_eq _
                    · rw [plug_append]
                      exact entered.yields.trans (yields.refocus whole same)
                | @conflict left noWay sameAddr yields =>
                    apply Descended.conflict
                    · intro change
                      rw [entered.opens change keys _ isChild, noWay]
                      rfl
                    · exact entered.addr_eq left
                    · exact entered.yields.trans
                        (yields.refocus whole sameAddr)
              · exact fun _ _ impossible => impossible
          | arr items => exact closed fun _ => by simp
          | str text => exact closed fun _ => by simp
          | int value => exact closed fun _ => by simp
          | bool value => exact closed fun _ => by simp

/-! ## Headers -/

/-- How the search for the table of a header ends; `created` is the tree that
it leaves. -/
inductive Headed (keys : List Bytes) (created : Option Table)
    (heap : Heap Cell) (tree : CellTree Cell) (after : Heap Cell) :
    Option Addr → Prop where
  | found {context : Context Cell} {target : CellTree Cell} {entries : Table}
      {place : Table → Table} :
      Standing keys context target entries place →
      created = some (place entries) →
      (∀ sub, sub.addr = target.addr →
        (plug context sub).addr = tree.addr) →
      Yields tree.addrs heap after (plug context target) →
      Headed keys created heap tree after (some target.addr)
  | conflict {left : CellTree Cell} :
      created = none → left.addr = tree.addr →
      Yields tree.addrs heap after left →
      Headed keys created heap tree after none

/-- A new table at the end of an array. -/
theorem ChildOf.pushed {frame inner : Frame Cell} {sub item : CellTree Cell}
    (isChild : ChildOf table key (.arr []) heap tree middle frame sub)
    (isArray : erase sub = .arr nodes) (isTable : erase item = .tab [])
    (innerAddr : inner.addr = sub.addr)
    (fills : Fills (atEnd nodes) inner)
    (yields : Yields sub.addrs middle after (inner.plug item)) :
    Headed [key] (pushTable key table) heap tree after (some item.addr) := by
  have created : pushTable key table =
      some (tableSet table key (.arr (nodes ++ [.tab []]))) := by
    rw [pushTable]
    rcases isChild.found with found | ⟨absent, isNew⟩
    · rw [found, isArray]
    · rw [isArray] at isNew
      cases isNew
      rw [absent]
      rfl
  have whole : HeldNode middle (plug [frame] sub) := isChild.yields.held
  have standing : Standing [key] [inner, frame] item []
      fun child => tableSet table key (.arr (nodes ++ [.tab child])) := by
    refine ⟨isPlace_arr table key nodes, isTable, ?_⟩
    intro other child isOther
    rw [plug, plug, plug, isChild.fills, fills, isOther]
    rfl
  exact Headed.found standing created (fun _ _ => isChild.addr_eq)
    (isChild.yields.trans (yields.refocus whole innerAddr))

theorem pushTableAt_ends (held : HeldNode heap tree)
    (isTable : erase tree = .tab table) (key : Bytes) :
    Ends (pushTableAt key tree.addr heap)
      (fun addr after => Headed [key] (pushTable key table) heap tree after addr)
      (fun _ _ => False) := by
  unfold pushTableAt
  apply Ends.bind (childAt_ends rfl held isTable key)
  rintro _ middle ⟨frame, sub, rfl, isChild⟩
  have subHeld : HeldNode middle sub := isChild.yields.held.inFrame
  cases sub with
  | node addr cell subs =>
      obtain ⟨found, _⟩ := subHeld.split
      apply Ends.bindOk (load_run found)
      have closed (notArray : ∀ items, cell ≠ .arr items) :
          Headed [key] (pushTable key table) heap tree middle none := by
        have noNodes : ∀ nodes,
            erase (.node addr cell subs) ≠ .arr nodes := by
          intro nodes isArray
          obtain ⟨_, items, _, same, _⟩ := eq_arr_of_erase subHeld isArray
          cases same
          exact notArray items rfl
        have leftAddr : (frame.plug (.node addr cell subs)).addr =
            tree.addr :=
          isChild.addr_eq
        apply Headed.conflict _ leftAddr isChild.yields
        rw [pushTable]
        rcases isChild.found with isNode | ⟨_, isNew⟩
        · rw [isNode]
          cases node : erase (.node addr cell subs) with
          | arr nodes => exact absurd node (noNodes nodes)
          | tab entries => rfl
          | str text => rfl
          | int value => rfl
          | bool value => rfl
        · exact absurd isNew (noNodes [])
      cases cell with
      | arr items =>
          have isArray := erase_node addr (.arr items) subs
          have childless : (Cell.tab []).children = [] := rfl
          have leaf := yields_leaf childless middle
          obtain ⟨still, apart⟩ :=
            leaf.keeps subHeld fun _ _ => List.not_mem_nil
          apply Ends.bindOk (alloc_run (.tab []) middle)
          have push := arrayPush_ends still isArray leaf.held
            fun other inLeaf inTree => apart other inTree inLeaf
          apply Ends.bind push
          rintro _ after ⟨inner, setTo⟩
          exact isChild.pushed isArray (erase_node _ _ _) setTo.addr_eq
            setTo.fills (setTo.yields_new leaf)
      | tab entries => exact closed fun _ => by simp
      | str text => exact closed fun _ => by simp
      | int value => exact closed fun _ => by simp
      | bool value => exact closed fun _ => by simp

/-- A header inside the table to which the path before its last key leads. -/
theorem Headed.inside {front : List Bytes} {target : CellTree Cell}
    {entries : Table} {place : Table → Table} {change : Table → Option Table}
    {addr : Option Addr}
    (headed : Headed keys (change entries) middle target after addr)
    (opened : Opened front table context target entries place)
    (sameAddr : ∀ sub, sub.addr = target.addr →
      (plug context sub).addr = tree.addr)
    (yields : Yields tree.addrs heap middle (plug context target)) :
    Headed (front ++ keys) (descend change front table) heap tree after
      addr := by
  have whole := yields.held
  cases headed with
  | @found inner item child innerPlace standing created innerAddr inside =>
      have changed : descend change front table =
          some (place (innerPlace child)) := by
        rw [opened.opens, created]
        rfl
      apply Headed.found (Standing.inside opened.standing.isPlace
        opened.standing.fills standing) changed
      · intro sub same
        rw [plug_append]
        exact sameAddr _ (innerAddr sub same)
      · rw [plug_append]
        exact yields.trans (inside.refocus whole (innerAddr item rfl))
  | @conflict left failed leftAddr inside =>
      have changed : descend change front table = none := by
        rw [opened.opens, failed]
        rfl
      exact Headed.conflict changed (sameAddr left leftAddr)
        (yields.trans (inside.refocus whole leftAddr))

theorem headerTable_ends (held : HeldNode heap tree)
    (isTable : erase tree = .tab table) (nonempty : keys ≠ [])
    (isArray : Bool) :
    Ends (headerTable isArray keys tree.addr heap)
      (fun addr after => Headed keys
        (if isArray then descend (pushTable (keys.getLast?.getD []))
          keys.dropLast table
        else descend some keys table) heap tree after addr)
      (fun _ _ => False) := by
  cases isArray with
  | false =>
      apply (descendAt_ends held isTable keys).mono
      · rintro _ after descended
        cases descended with
        | found opened sameAddr yields =>
            exact Headed.found opened.standing (opened.opens some) sameAddr
              yields
        | conflict noWay leftAddr yields =>
            exact Headed.conflict (noWay some) leftAddr yields
      · exact fun _ _ impossible => impossible
  | true =>
      have whole : keys.dropLast ++ [keys.getLast?.getD []] = keys := by
        rw [← List.getLastD_eq_getLast?]
        exact dropLast_append_getLastD nonempty []
      apply Ends.bind (descendAt_ends held isTable keys.dropLast)
      rintro _ middle descended
      cases descended with
      | @found context target entries place opened sameAddr yields =>
          apply (pushTableAt_ends yields.held.focus opened.standing.isTable
            (keys.getLast?.getD [])).mono
          · rintro _ after headed
            have inside := headed.inside opened sameAddr yields
            rwa [whole] at inside
          · exact fun _ _ impossible => impossible
      | conflict noWay leftAddr yields =>
          exact Headed.conflict (noWay _) leftAddr yields

end SaltOS.Toml
