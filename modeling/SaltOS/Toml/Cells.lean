import SaltOS.Toml.Parser
import SaltOS.Lib.HeapTrees

/-!
# The TOML parser on its heap

`src/halite/src/toml.c` once more, with the nodes that it allocates.
`node_new` gives out an address, arrays and tables refer to their parts by
address, `table_set` frees the value that it replaces, and `current` is the
address of the table of the last header.  A parser that fails frees what it
has built.  Keys and texts belong to the cell that holds them.
-/

namespace SaltOS.Toml

open Lib Heap

/-- `struct salt_toml`. -/
inductive Cell where
  | str (text : Bytes)
  | int (value : Int)
  | bool (value : Bool)
  | arr (items : List Addr)
  | tab (entries : List (Bytes × Addr))
  deriving DecidableEq, Repr

def Cell.children : Cell → List Addr
  | .arr items => items
  | .tab entries => entries.map Prod.snd
  | _ => []

abbrev NodeM := HeapM Stop Cell

def lift {α : Type} (result : Except Stop α) : NodeM α :=
  match result with
  | .ok value => pure value
  | .error stop => throw (.stop stop)

/-- `salt_toml_free`. -/
def tomlFree (addr : Addr) : NodeM Unit := do
  let heap ← get
  free Cell.children heap.next addr

/-- A parser that fails behind `node_new` frees the node. -/
def freeing {α : Type} (addr : Addr) (program : NodeM α) : NodeM α := do
  match ← attempt program with
  | .ok value => return value
  | .error fault => do
      tomlFree addr
      throw fault

/-! ## Tables and arrays -/

section

variable {α : Type}

def getEntry (entries : List (Bytes × α)) (key : Bytes) : Option α :=
  (entries.find? (fun entry => entry.1 == key)).map Prod.snd

def setEntry : List (Bytes × α) → Bytes → α → List (Bytes × α)
  | [], key, value => [(key, value)]
  | entry :: rest, key, value =>
      if entry.1 = key then (key, value) :: rest
      else entry :: setEntry rest key value

end

/-- `table_get_mut`. -/
def tableGetMut (table : Addr) (key : Bytes) : NodeM (Option Addr) := do
  match ← load table with
  | .tab entries => return getEntry entries key
  | _ => return none

/-- `table_set`; a cell that is no table would be misread. -/
def tableSetAt (table : Addr) (key : Bytes) (value : Addr) : NodeM Unit := do
  match ← load table with
  | .tab entries =>
      match getEntry entries key with
      | some old => do
          tomlFree old
          write table (.tab (setEntry entries key value))
      | none => write table (.tab (setEntry entries key value))
  | _ => throw .dangling

/-- `array_push`. -/
def arrayPush (array value : Addr) : NodeM Unit := do
  match ← load array with
  | .arr items => write array (.arr (items ++ [value]))
  | _ => throw .dangling

/-! ## Values -/

/-- The cell of a scalar. -/
def scalarCell : Node → Cell
  | .str text => .str text
  | .int value => .int value
  | .bool value => .bool value
  | .arr _ => .arr []
  | .tab _ => .tab []

mutual

/-- `parse_value`; what starts with neither bracket nor brace is a scalar. -/
def parseValueAt (next : UInt8) : Nat → Cursor → NodeM (Addr × Cursor)
  | 0, _ => throw (.stop .outOfFuel)
  | fuel + 1, start => do
      let cursor := skipWsInline start
      match cursor.rest with
      | 91 :: rest => do
          let array ← alloc (.arr [])
          parseArrayAt next fuel array (cursor.to rest)
      | 123 :: rest => do
          let table ← alloc (.tab [])
          let cursor := skipWsInline (cursor.to rest)
          match cursor.rest with
          | 125 :: rest => return (table, cursor.to rest)
          | _ => parseInlineTableAt next fuel table cursor
      | _ => do
          let (scalar, cursor) ← lift (parseValue next (fuel + 1) start)
          let addr ← alloc (scalarCell scalar)
          return (addr, cursor)

/-- The loop of `parse_array`. -/
def parseArrayAt (next : UInt8) : Nat → Addr → Cursor →
    NodeM (Addr × Cursor)
  | 0, _, _ => throw (.stop .outOfFuel)
  | fuel + 1, array, start => do
      let cursor := skipWsAndComments start
      match cursor.rest with
      | [] => do
          tomlFree array
          lift (fail "toml: unterminated array")
      | 93 :: rest => return (array, cursor.to rest)
      | _ => do
          let (value, cursor) ← freeing array (parseValueAt next fuel cursor)
          arrayPush array value
          let cursor := skipWsAndComments cursor
          match cursor.rest with
          | 44 :: rest => parseArrayAt next fuel array (cursor.to rest)
          | 93 :: rest => return (array, cursor.to rest)
          | _ => parseArrayAt next fuel array cursor

/-- The loop of `parse_inline_table`. -/
def parseInlineTableAt (next : UInt8) : Nat → Addr → Cursor →
    NodeM (Addr × Cursor)
  | 0, _, _ => throw (.stop .outOfFuel)
  | fuel + 1, table, start => do
      let (key, cursor) ←
        freeing table (lift (parseKeyToken (skipWsInline start)))
      let cursor := skipWsInline cursor
      match cursor.rest with
      | 61 :: rest => do
          let (value, cursor) ← freeing table
            (parseValueAt next fuel (skipWsInline (cursor.to rest)))
          tableSetAt table key value
          let cursor := skipWsInline cursor
          match cursor.rest with
          | 44 :: rest => parseInlineTableAt next fuel table (cursor.to rest)
          | 125 :: rest => return (table, cursor.to rest)
          | _ => do
              tomlFree table
              lift (failAt (ascii "toml: malformed inline table") cursor)
      | _ => do
          tomlFree table
          lift (failAt (ascii "toml: expected = in inline table") cursor)

end

/-! ## Statements -/

/-- The child of a key, made if the table has none. -/
def childAt (new : Cell) (table : Addr) (key : Bytes) : NodeM Addr := do
  match ← tableGetMut table key with
  | some child => return child
  | none => do
      let child ← alloc new
      tableSetAt table key child
      return child

/-- An array with items stands for its last one. -/
def lastItem (child : Addr) : NodeM Addr := do
  match ← load child with
  | .arr items => return items.getLast?.getD child
  | _ => return child

/-- One step of `descend_table`, to the next table if there is one. -/
def enterAt (table : Addr) (key : Bytes) : NodeM Addr := do
  let child ← childAt (.tab []) table key
  lastItem child

/-- `descend_table` to the table at a path; none when something else is
there. -/
def descendAt : List Bytes → Addr → NodeM (Option Addr)
  | [], table => return some table
  | key :: keys, table => do
      let child ← enterAt table key
      match ← load child with
      | .tab _ => descendAt keys child
      | _ => return none

/-- The last step of `descend_table` for an array of tables. -/
def pushTableAt (key : Bytes) (table : Addr) : NodeM (Option Addr) := do
  let child ← childAt (.arr []) table key
  match ← load child with
  | .arr _ => do
      let item ← alloc (.tab [])
      arrayPush child item
      return some item
  | _ => return none

/-- `descend_table` as a header calls it. -/
def headerTable (isArray : Bool) (keys : List Bytes) (root : Addr) :
    NodeM (Option Addr) := do
  if isArray then
    match ← descendAt keys.dropLast root with
    | some table => pushTableAt (keys.getLast?.getD []) table
    | none => return none
  else descendAt keys root

/-- The variables of `salt_toml_parse`. -/
structure State where
  root : Addr
  current : Addr
  cursor : Cursor

/-- A table header, from behind its first bracket. -/
def headerAt (state : State) (cursor : Cursor) : NodeM State := do
  let isArray := cursor.rest.head? == some 91
  let start := if isArray then cursor.to (cursor.rest.drop 1) else cursor
  let (keys, cursor) ← freeing state.root (lift (parseDottedPath start))
  let cursor := skipClosing (skipWsInline cursor)
  let cursor := if isArray then skipClosing cursor else cursor
  match ← headerTable isArray keys state.root with
  | none => do
      tomlFree state.root
      lift (failAt (ascii "toml: table path conflict") cursor)
  | some table => return { state with current := table, cursor := cursor }

/-- An assignment `keys = value`, with a comment behind it. -/
def assignmentAt (next : UInt8) (fuel : Nat) (state : State)
    (cursor : Cursor) : NodeM State := do
  let (keys, cursor) ← freeing state.root (lift (parseDottedPath cursor))
  let cursor := skipWsInline cursor
  match cursor.rest with
  | 61 :: rest => do
      let (value, cursor) ←
        freeing state.root (parseValueAt next fuel (cursor.to rest))
      match ← descendAt keys.dropLast state.current with
      | none => do
          tomlFree value
          tomlFree state.root
          lift (failAt (ascii "toml: key path conflict") cursor)
      | some dest => do
          tableSetAt dest (keys.getLast?.getD []) value
          let cursor := skipWsInline cursor
          let cursor :=
            match cursor.rest with
            | 35 :: rest => cursor.to (rest.dropWhile (· != 10))
            | _ => cursor
          return { state with cursor := cursor }
  | _ => do
      tomlFree state.root
      lift (failAt (ascii "toml: expected =") cursor)

/-- One statement; `none` at the end of the text. -/
def statementAt (next : UInt8) (fuel : Nat) (state : State) :
    NodeM (Option State) := do
  let cursor := skipWsAndComments state.cursor
  match cursor.rest with
  | [] => return none
  | 91 :: rest => do
      let state ← headerAt state (cursor.to rest)
      return some state
  | _ => do
      let state ← assignmentAt next fuel state cursor
      return some state

def statementsAt (next : UInt8) (fuel : Nat) : Nat → State → NodeM Addr
  | 0, _ => throw (.stop .outOfFuel)
  | rounds + 1, state => do
      match ← statementAt next fuel state with
      | none => return state.root
      | some state => statementsAt next fuel rounds state

/-- `salt_toml_parse`, with the fuel for nested values. -/
def parseAt (next : UInt8) (fuel : Nat) (text : Bytes) : NodeM Addr := do
  let root ← alloc (.tab [])
  statementsAt next fuel (text.length + 1)
    { root := root, current := root, cursor := ⟨text, 0, 1⟩ }

end SaltOS.Toml
