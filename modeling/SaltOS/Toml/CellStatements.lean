import SaltOS.Toml.CellValues

/-!
# Statements on the heap

What the parser has on its heap between two statements: a tree that stands for
the tree of the document, with the current table at the address that `current`
holds.  A statement keeps this; it reads no cell that was freed and frees none
twice.
-/

namespace SaltOS.Toml

open Lib Heap

variable {next : UInt8} {heap middle after : Heap Cell}
  {tree value : CellTree Cell} {state : State} {document : Document}

/-- The tree on the heap, with the current table in its context. -/
structure Represents (heap : Heap Cell) (state : State) (document : Document)
    (context : Context Cell) (current : CellTree Cell) (entries : Table)
    (place : Table → Table) : Prop where
  held : HeldNode heap (plug context current)
  isRoot : (plug context current).addr = state.root
  isCurrent : current.addr = state.current
  standing : Standing document.current context current entries place
  isTree : document.root = place entries
  cursor : state.cursor = document.cursor

def Represented (heap : Heap Cell) (state : State) (document : Document) :
    Prop :=
  ∃ context current entries place,
    Represents heap state document context current entries place

theorem Represents.erase_root {context : Context Cell}
    {current : CellTree Cell} {entries : Table} {place : Table → Table}
    (represents :
      Represents heap state document context current entries place) :
    erase (plug context current) = .tab document.root := by
  rw [represents.isTree]
  exact represents.standing.fills _ _ represents.standing.isTable

/-- A program does as the other parser does, or stops with its error. -/
def Tracks {α β : Type} (expected : Except Stop β)
    (good : β → α → Heap Cell → Prop) (program : NodeM α)
    (heap : Heap Cell) : Prop :=
  Ends (program heap)
    (fun value after => ∃ result, expected = .ok result ∧
      good result value after)
    (fun fault _ => ∃ stop, fault = .stop stop ∧ expected = .error stop)

section

variable {α β γ δ : Type}

/-- The expected result under a name, as in `Mirrors.named`. -/
theorem Tracks.named {expected : Except Stop β} {program : NodeM α}
    {good : β → α → Heap Cell → Prop}
    (tracks : ∀ result, expected = result → Tracks result good program heap) :
    Tracks expected good program heap :=
  tracks expected rfl

theorem Tracks.bind {first : NodeM α} {expectedFirst : Except Stop β}
    {rest : α → NodeM γ} {expectedRest : β → Except Stop δ}
    {middle : β → α → Heap Cell → Prop} {good : δ → γ → Heap Cell → Prop}
    (tracks : Tracks expectedFirst middle first heap)
    (goesOn : ∀ result value after, middle result value after →
      Tracks (expectedRest result) good (rest value) after) :
    Tracks (expectedFirst >>= expectedRest) good (first >>= rest) heap := by
  apply Ends.bind (tracks.mono (fun _ _ holds => holds) _)
  · rintro value after ⟨result, rfl, holds⟩
    exact goesOn result value after holds
  · rintro _ after ⟨stop, rfl, rfl⟩
    exact ⟨stop, rfl, rfl⟩

/-- A part is parsed; if that fails, the tree is freed. -/
theorem tracks_bind {read : NodeM α} {expectedRead : Except Stop β}
    {rest : α → NodeM γ} {expectedRest : β → Except Stop δ}
    {middle : α → Heap Cell → Prop} {good : δ → γ → Heap Cell → Prop}
    (held : HeldNode heap tree)
    (first : Ends (read heap) middle (fun fault after => ∃ stop,
      fault = .stop stop ∧ expectedRead = .error stop ∧
        SameOutside [] heap after))
    (isRead : ∀ value after, middle value after →
      ∃ expected, expectedRead = .ok expected ∧
        Tracks (expectedRest expected) good (rest value) after) :
    Tracks (expectedRead >>= expectedRest) good
      (freeing tree.addr read >>= rest) heap := by
  apply Ends.bind ((freeing_ends held first).mono (fun _ _ holds => holds) ?_)
  · intro value after holds
    obtain ⟨expected, isValue, tracks⟩ := isRead value after holds
    rw [isValue]
    exact tracks
  · rintro _ after ⟨stop, isFault, isStop, _⟩
    refine ⟨stop, isFault, ?_⟩
    rw [isStop]
    rfl

theorem freed_tracks {stop : Stop} {good : δ → γ → Heap Cell → Prop}
    (held : HeldNode heap tree) :
    Tracks (.error stop) good
      (do tomlFree tree.addr; lift (.error stop)) heap := by
  apply (freed_ends held).mono
  · exact fun _ _ impossible => False.elim impossible
  · exact fun _ _ failed => ⟨stop, failed.1, rfl⟩

end

/-! ## Paths have a key -/

theorem dottedLoop_ne_nil {fuel : Nat} {keys : List Bytes} {cursor : Cursor}
    {result : List Bytes × Cursor}
    (read : dottedLoop fuel keys cursor = .ok result) : result.1 ≠ [] := by
  induction fuel generalizing keys cursor with
  | zero => cases read
  | succ fuel induction =>
      obtain ⟨⟨key, left⟩, _, isRest⟩ := Lib.bind_ok read
      dsimp only at isRest
      split at isRest
      · exact induction isRest
      · cases isRest
        exact List.append_ne_nil_of_right_ne_nil _ (List.cons_ne_nil key [])

theorem parseDottedPath_ne_nil {cursor : Cursor}
    {result : List Bytes × Cursor}
    (read : parseDottedPath cursor = .ok result) : result.1 ≠ [] :=
  dottedLoop_ne_nil read

/-! ## Headers -/

theorem headerAt_tracks
    (represented : Represented heap state document) (cursor : Cursor) :
    Tracks (parseHeader document cursor)
      (fun document state after => Represented after state document)
      (headerAt state cursor) heap := by
  obtain ⟨context, current, entries, place, represents⟩ := represented
  unfold headerAt parseHeader
  dsimp only
  rw [← represents.isRoot]
  apply tracks_bind represents.held (lift_ends _ heap)
  rintro ⟨keys, left⟩ heap ⟨isPath, rfl⟩
  refine ⟨_, isPath, ?_⟩
  have ends := headerTable_ends represents.held represents.erase_root
    (parseDottedPath_ne_nil isPath) (cursor.rest.head? == some 91)
  apply Ends.bindSafe ends
  rintro _ after headed
  cases headed with
  | @found inner target entries place standing created sameAddr yields =>
      dsimp only
      rw [created]
      exact ⟨_, rfl, inner, target, entries, place, yields.held,
        sameAddr target rfl, rfl, standing, rfl, rfl⟩
  | @conflict left failed leftAddr yields =>
      dsimp only
      rw [failed, ← leftAddr]
      exact freed_tracks yields.held

/-! ## Assignments -/

/-- In the table, the path leads to a table that has the value at the key. -/
def Stands (entries : Table) (path : List Bytes) (key : Bytes)
    (value : Node) : Prop :=
  ∃ place table, IsPlace path place ∧ entries = place table ∧
    tableGet table key = some value

/-- `table_set` in the table that `descend_table` has found. -/
theorem Represents.assign {context inner : Context Cell}
    {current target : CellTree Cell} {entries targetEntries : Table}
    {place innerPlace : Table → Table} {frame : Frame Cell}
    {path : List Bytes} {key : Bytes} {final : Heap Cell}
    (represents :
      Represents heap state document context current entries place)
    (sameAddr : ∀ sub, sub.addr = target.addr →
      (plug inner sub).addr = current.addr)
    (opened : Opened path entries inner target targetEntries innerPlace)
    (held : HeldNode after (plug context (plug inner target)))
    (apart : ∀ addr ∈ value.addrs,
      addr ∉ (plug context (plug inner target)).addrs)
    (setTo : SetTo (under targetEntries key) after target value frame final)
    (cursor : Cursor) :
    ∃ root, descend (fun table => some (tableSet table key (erase value)))
        (document.current ++ path) document.root = some root ∧
      Represents final { state with cursor := cursor }
        { document with root := root, cursor := cursor } context
        (plug inner (frame.plug value))
        (innerPlace (tableSet targetEntries key (erase value))) place := by
  have isTarget : erase (frame.plug value) =
      .tab (tableSet targetEntries key (erase value)) :=
    setTo.fills value
  have frameAddr : (frame.plug value).addr = target.addr := setTo.addr_eq
  have newAddr := sameAddr (frame.plug value) frameAddr
  have whole : HeldNode after (plug (inner ++ context) target) := by
    rw [plug_append]
    exact held
  have newWhole : HeldNode final (plug (inner ++ context)
      (frame.plug value)) := by
    apply Held.refocus whole frameAddr setTo.held setTo.same
    intro addr member
    rw [plug_append]
    rcases List.mem_append.mp
        ((addrs_framePlug frame value).mem_iff.mp member) with
      inValue | inFrame
    · exact .inr (apart addr inValue)
    · exact .inl (setTo.owns addr inFrame)
  rw [plug_append] at newWhole
  refine ⟨place (innerPlace (tableSet targetEntries key (erase value))), ?_,
    newWhole, ?_, ?_, ?_, rfl, rfl⟩
  · rw [descend_append, represents.isTree, represents.standing.isPlace,
      opened.opens]
    rfl
  · rw [← represents.isRoot]
    exact addr_plug context newAddr
  · rw [newAddr]
    exact represents.isCurrent
  · exact ⟨represents.standing.isPlace, opened.standing.fills _ _ isTarget,
      represents.standing.fills⟩

/-- An assignment of the value to the keys is at the cursor. -/
def IsAssignment (next : UInt8) (fuel : Nat) (cursor : Cursor)
    (keys : List Bytes) (value : Node) : Prop :=
  ∃ left rest behind, parseDottedPath cursor = .ok (keys, left) ∧
    (skipWsInline left).rest = 61 :: rest ∧
    parseValue next fuel ((skipWsInline left).to rest) = .ok (value, behind)

/-- After an assignment, the current table is as before but for the value
where the keys lead. -/
def Assigned (entries : Table) (keys : List Bytes) (value : Node)
    (document : Document) (state : State) (after : Heap Cell) : Prop :=
  ∃ context current changed place,
    Represents after state document context current changed place ∧
      descend (fun table =>
        some (tableSet table (keys.getLast?.getD []) value))
        keys.dropLast entries = some changed ∧
      Stands changed keys.dropLast (keys.getLast?.getD []) value

theorem assignmentAt_tracks {context : Context Cell}
    {current : CellTree Cell} {entries : Table} {place : Table → Table}
    (represents :
      Represents heap state document context current entries place)
    (next : UInt8) (fuel : Nat) (cursor : Cursor) :
    Tracks (parseAssignment next fuel document cursor)
      (fun document later after => later.root = state.root ∧
        later.current = state.current ∧
        ∃ keys value, IsAssignment next fuel cursor keys value ∧
          Assigned entries keys value document later after)
      (assignmentAt next fuel state cursor) heap := by
  unfold assignmentAt parseAssignment
  dsimp only
  rw [← represents.isRoot]
  apply tracks_bind represents.held (lift_ends _ heap)
  rintro ⟨keys, left⟩ heap ⟨isPath, rfl⟩
  refine ⟨_, isPath, ?_⟩
  dsimp only
  apply Tracks.named
  intro result isResult
  split
  · rename_i rest isRest
    rw [isRest] at isResult
    rw [← isResult]
    apply tracks_bind represents.held ((values_mirrored next fuel).1 _ heap)
    rintro ⟨_, behind⟩ middle ⟨value, rfl, isValue, valueYields⟩
    refine ⟨_, isValue, ?_⟩
    obtain ⟨still, apart⟩ :=
      valueYields.keeps represents.held fun _ _ => List.not_mem_nil
    dsimp only
    rw [← represents.isCurrent]
    apply Ends.bindSafe (descendAt_ends still.focus
      represents.standing.isTable keys.dropLast)
    rintro _ after descended
    cases descended with
    | @found inner target targetEntries innerPlace opened sameAddr yields =>
        have outer := yields.refocus still (sameAddr target rfl)
        obtain ⟨valueStill, valueApart⟩ := outer.keeps valueYields.held
          fun addr inValue inWhole => apart addr inWhole inValue
        have inWhole (addr : Addr) (member : addr ∈ target.addrs) :
            addr ∈ (plug context (plug inner target)).addrs :=
          Held.mem_plug (Held.mem_plug member)
        dsimp only
        apply Ends.bindSafe (tableSetAt_ends yields.held.focus
          opened.standing.isTable valueStill
          (fun addr inValue inTarget =>
            valueApart addr inValue (inWhole addr inTarget))
          (keys.getLast?.getD []))
        rintro _ final ⟨frame, setTo⟩
        obtain ⟨root, isRoot, represents'⟩ := represents.assign sameAddr
          opened outer.held valueApart setTo _
        rw [isRoot, represents.isRoot, represents.isCurrent]
        refine ⟨_, rfl, rfl, rfl, keys, erase value,
          ⟨left, rest, behind, isPath, isRest, isValue⟩,
          context, _, _, place, represents', ?_, innerPlace, _,
          opened.standing.isPlace, rfl, ?_⟩
        · rw [opened.opens]
          rfl
        · rw [tableGet_tableSet, if_pos rfl]
    | @conflict leftTree noWay leftAddr yields =>
        have outer := yields.refocus still leftAddr
        obtain ⟨valueStill, valueApart⟩ := outer.keeps valueYields.held
          fun addr inValue inWhole => apart addr inWhole inValue
        have failed : descend (fun table => some (tableSet table
            (keys.getLast?.getD []) (erase value)))
            (document.current ++ keys.dropLast) document.root = none := by
          rw [descend_append, represents.isTree,
            represents.standing.isPlace, noWay]
          rfl
        dsimp only
        rw [failed]
        apply Ends.bindSafe (tomlFree_ends valueStill)
        rintro _ freedHeap freed
        have rootStill := outer.held.of_same freed.sameOutside
          fun addr inWhole inValue => valueApart addr inValue inWhole
        have sameRoot := addr_plug context leftAddr
        rw [← sameRoot]
        exact freed_tracks rootStill
  · rename_i noEquals
    split at isResult
    · rename_i rest isRest
      exact (noEquals rest isRest).elim
    · rw [← isResult]
      exact freed_tracks represents.held

/-! ## Runs -/

/-- How one statement ends, for the parser with a heap and for the other. -/
inductive Continues (state : State) (document : Document)
    (after : Heap Cell) : Option Document → Option State → Prop where
  | ended : Represented after state document →
      Continues state document after none none
  | more {later : State} {changed : Document} :
      Represented after later changed →
      Continues state document after (some changed) (some later)

theorem Tracks.more {expected : Except Stop Document}
    {program : NodeM State}
    (tracks : Tracks expected
      (fun document state after => Represented after state document)
      program heap) :
    Tracks (expected.map some)
      (fun expected found after => Continues state document after expected
        found)
      (do let state ← program; return some state) heap := by
  apply Ends.bind (tracks.mono (fun _ _ holds => holds) _)
  · rintro later after ⟨changed, rfl, represented⟩
    exact ⟨some changed, rfl, .more represented⟩
  · rintro _ after ⟨stop, rfl, rfl⟩
    exact ⟨stop, rfl, rfl⟩

theorem statementAt_tracks (represented : Represented heap state document)
    (next : UInt8) (fuel : Nat) :
    Tracks (parseStatement next fuel document)
      (fun expected found after => Continues state document after expected
        found)
      (statementAt next fuel state) heap := by
  obtain ⟨context, current, entries, place, represents⟩ := represented
  unfold statementAt parseStatement
  dsimp only
  rw [represents.cursor]
  apply Tracks.named
  intro result isResult
  split
  · rename_i isRest
    rw [isRest] at isResult
    rw [← isResult]
    exact ⟨none, rfl, .ended ⟨_, _, _, _, represents⟩⟩
  · rename_i rest isRest
    rw [isRest] at isResult
    rw [← isResult]
    exact (headerAt_tracks ⟨_, _, _, _, represents⟩ _).more
  · rename_i noEnd noHeader
    split at isResult
    · rename_i isRest
      exact (noEnd isRest).elim
    · rename_i rest isRest
      exact (noHeader rest isRest).elim
    · rw [← isResult]
      apply Tracks.more
      apply (assignmentAt_tracks represents next fuel _).mono
      · rintro later after
          ⟨changed, isOk, _, _, _, _, _, _, _, _, _, represents, _⟩
        exact ⟨changed, isOk, _, _, _, _, represents⟩
      · exact fun _ _ failed => failed

/-- The tree of a table. -/
def IsTableAt (table : Table) (root : Addr) (after : Heap Cell) : Prop :=
  ∃ tree, tree.addr = root ∧ HeldNode after tree ∧ erase tree = .tab table

theorem statementsAt_tracks (next : UInt8) (fuel rounds : Nat)
    (represented : Represented heap state document) :
    Tracks (statementLoop next fuel rounds document) IsTableAt
      (statementsAt next fuel rounds state) heap := by
  induction rounds generalizing heap state document with
  | zero => exact ⟨.outOfFuel, rfl, rfl⟩
  | succ rounds induction =>
      rw [statementLoop, statementsAt]
      apply (statementAt_tracks represented next fuel).bind
      intro _ _ after continues
      cases continues with
      | ended represented =>
          obtain ⟨_, _, _, _, represents⟩ := represented
          exact ⟨document.root, rfl, _, represents.isRoot, represents.held,
            represents.erase_root⟩
      | more represented => exact induction represented

/-- The empty table that the parser starts with. -/
def startState (root : Addr) (text : Bytes) : State :=
  { root := root, current := root, cursor := ⟨text, 0, 1⟩ }

theorem start_represented (heap : Heap Cell) (text : Bytes) :
    Represented (heap.push (.tab [])) (startState heap.next text)
      { root := [], current := [], cursor := ⟨text, 0, 1⟩ } := by
  have childless : (Cell.tab []).children = [] := rfl
  have leaf := yields_leaf childless heap
  have isTable : erase (.node heap.next (.tab []) []) = .tab [] :=
    erase_node _ _ _
  exact ⟨[], .node heap.next (.tab []) [], [], id, leaf.held, rfl, rfl,
    ⟨isPlace_root, isTable, fun _ _ isSub => isSub⟩, rfl, rfl⟩

/-- The parser with a heap builds the table that the other one returns, or
stops as it does; it uses no cell after it was freed. -/
theorem parseAt_tracks (next : UInt8) (fuel : Nat) (text : Bytes)
    (heap : Heap Cell) :
    Tracks (parse next fuel text) IsTableAt (parseAt next fuel text) heap := by
  unfold parseAt
  apply Ends.bindOk (alloc_run (.tab []) heap)
  exact statementsAt_tracks next fuel _ (start_represented heap text)

end SaltOS.Toml
