import SaltOS.Lib.Keyed
import SaltOS.Config.LuaLiterals
import SaltOS.Toml.Values

/-!
# Configuration files

`src/halite/src/conf.c`: the value that the interpreter returns for a chunk
becomes a tree.  The interpreter is the argument `interpret`; it gets the name
of the chunk and its text, and returns a value or its message.
-/

namespace SaltOS.Config

open Lib Toml

abbrev Interpreter := Bytes → Bytes → Except Bytes LuaValue

/-- `CONF_MAX_DEPTH`. -/
def confMaxDepth : Nat := 64

def confFail {α : Type} (label : Bytes) (message : String) : Except Stop α :=
  .error (.error (some (label ++ ascii message)))

def luaNil : LuaValue :=
  .other (ascii "nil")

def stringKey : LuaKey → Option Bytes
  | .str text => some text
  | _ => none

def isListKey (length : Nat) : LuaKey → Bool
  | .int key => 1 ≤ key && key ≤ length
  | _ => false

def rawGet (entries : List (LuaKey × LuaValue)) (key : LuaKey) : LuaValue :=
  ((entries.find? (fun entry => entry.1 = key)).map Prod.snd).getD luaNil

/-- A label in the buffer `sub`. -/
def subLabel (label : Bytes) : Bytes :=
  label.take 255

def itemLabel (label : Bytes) (index : Nat) : Bytes :=
  subLabel (label ++ ascii "[" ++ printBase 10 index ++ ascii "]")

def fieldLabel (label key : Bytes) : Bytes :=
  subLabel (label ++ ascii "." ++ key)

/-- The fields of a table, put one after the other; `salt_toml_table_put`
refuses a key twice and sets no message. -/
def putAll (convertItem : Bytes → LuaValue → Except Stop Node)
    (label : Bytes) (entries : List (LuaKey × LuaValue)) :
    List Bytes → Table → Except Stop Table
  | [], table => .ok table
  | key :: keys, table => do
      let node ← convertItem (fieldLabel label key)
        (rawGet entries (.str key))
      if (tableGet table key).isSome then .error (.error none)
      else putAll convertItem label entries keys (tableSet table key node)

/-- The items of a list from an index on. -/
def pushAll (convertItem : Bytes → LuaValue → Except Stop Node)
    (label : Bytes) (entries : List (LuaKey × LuaValue)) :
    List Nat → Except Stop (List Node)
  | [] => .ok []
  | index :: rest => do
      let node ← convertItem (itemLabel label (index + 1))
        (rawGet entries (.int (index + 1)))
      let nodes ← pushAll convertItem label entries rest
      .ok (node :: nodes)

/-- `key_cmp` of `qsort`. -/
def keyLe (left right : Bytes) : Bool :=
  Bytes.strcmp left right ≤ 0

/-- `convert_table`. -/
def convertTable (convertItem : Bytes → LuaValue → Except Stop Node)
    (label : Bytes) (length : Nat) (entries : List (LuaKey × LuaValue)) :
    Except Stop Node :=
  let keys := entries.filterMap (fun entry => stringKey entry.1)
  let known := entries.all fun entry =>
    (stringKey entry.1).isSome || isListKey length entry.1
  if !known || (keys ≠ [] && keys.length ≠ entries.length) then
    confFail label ": a table must be either a list or have only string keys"
  else if keys = [] then
    (pushAll convertItem label entries (List.range length)).map .arr
  else
    (putAll convertItem label entries
      ((keys.map cstr).mergeSort keyLe) []).map .tab

/-- `convert`, with the depth that is left. -/
def convertValue : Nat → Bytes → LuaValue → Except Stop Node
  | 0, label, _ => confFail label ": nested too deeply"
  | _ + 1, _, .str text => .ok (.str (cstr text))
  | _ + 1, _, .int value => .ok (.int value)
  | _ + 1, _, .bool value => .ok (.bool value)
  | _ + 1, label, .float shown =>
      .error (.error (some (label ++
        ascii ": only integers are allowed, not " ++
        shown)))
  | depth + 1, label, .table length entries =>
      convertTable (convertValue depth) label length entries
  | _ + 1, label, .other typeName =>
      .error (.error (some (label ++ ascii ": a " ++ typeName ++
        ascii " cannot be stored in configuration")))

/-- `luaL_typename`. -/
def luaTypeName : LuaValue → Bytes
  | .str _ => ascii "string"
  | .int _ | .float _ => ascii "number"
  | .bool _ => ascii "boolean"
  | .table _ _ => ascii "table"
  | .other typeName => typeName

/-- `salt_conf_eval`. -/
def confEval (interpret : Interpreter) (text name : Bytes) :
    Except Stop Node :=
  match interpret name text with
  | .error message => .error (.error (some message))
  | .ok (.table length entries) => do
      match ← convertValue (confMaxDepth + 1) name
        (.table length entries) with
      | .tab table => .ok (.tab table)
      | _ => confFail name ": must return a table with named fields, not a list"
  | .ok value =>
      .error (.error (some (name ++ ascii ": must return a table (got " ++
        luaTypeName value ++ ascii ")")))

def isLua (name : Bytes) : Bool :=
  (ascii ".lua").isSuffixOf name

/-- `salt_conf_parse`; the fuel is for the parser of the other format. -/
def confParse (interpret : Interpreter) (fuel : Nat) (text name : Bytes) :
    Except Stop Node :=
  if isLua name then confEval interpret text name
  else
    match parse 0 fuel text with
    | .ok table => .ok (.tab table)
    | .error .outOfFuel => .error .outOfFuel
    | .error (.error _) => confFail name ": not valid TOML"

/-! ## Tables of fields -/

/-- The table that `convert_table` makes of nodes with distinct names. -/
def storedTable (nodes : Table) : Table :=
  ((nodes.map Prod.fst).mergeSort keyLe).foldl (fun table key =>
    tableSet table key ((tableGet nodes key).getD (.tab []))) []

section

variable {convertItem : Bytes → LuaValue → Except Stop Node} {label : Bytes}
  {entries : List (LuaKey × LuaValue)} {node : Bytes → Node}

theorem tableGet_foldl (keys : List Bytes) (table : Table) (key : Bytes) :
    tableGet (keys.foldl (fun table key => tableSet table key (node key))
        table) key =
      if key ∈ keys then some (node key) else tableGet table key := by
  induction keys generalizing table with
  | nil => exact (if_neg List.not_mem_nil).symm
  | cons first keys induction =>
      rw [List.foldl_cons, induction, tableGet_tableSet]
      by_cases later : key ∈ keys
      · rw [if_pos later, if_pos (List.mem_cons_of_mem first later)]
      · rw [if_neg later]
        by_cases same : first = key
        · rw [if_pos same, same, if_pos List.mem_cons_self]
        · rw [if_neg same, if_neg]
          rw [List.mem_cons, not_or]
          exact ⟨Ne.symm same, later⟩

theorem tableGet_eq_none {table : Table} {key : Bytes}
    (absent : key ∉ table.map Prod.fst) : tableGet table key = none := by
  unfold tableGet
  rw [Option.map_eq_none_iff, List.find?_eq_none]
  intro entry member isKey
  apply absent
  rw [← beq_iff_eq.mp isKey]
  exact List.mem_map_of_mem member

/-- With distinct keys, an entry is found. -/
theorem tableGet_of_mem {table : Table} {entry : Bytes × Node}
    (distinct : (table.map Prod.fst).Nodup) (member : entry ∈ table) :
    tableGet table entry.1 = some entry.2 := by
  unfold tableGet
  simp only [beq_eq_decide]
  rw [find?_of_distinct distinct member]
  rfl

/-- What is stored is found as before. -/
theorem tableGet_storedTable (nodes : Table) (key : Bytes) :
    tableGet (storedTable nodes) key = tableGet nodes key := by
  have sorted := List.mergeSort_perm (nodes.map Prod.fst) keyLe
  unfold storedTable
  rw [tableGet_foldl]
  by_cases member : key ∈ nodes.map Prod.fst
  · rw [if_pos (sorted.mem_iff.mpr member)]
    cases found : tableGet nodes key with
    | some node => rfl
    | none =>
        obtain ⟨entry, isEntry, isKey⟩ := List.mem_map.mp member
        unfold tableGet at found
        rw [Option.map_eq_none_iff, List.find?_eq_none] at found
        exact absurd (beq_iff_eq.mpr isKey) (found entry isEntry)
  · rw [if_neg fun inside => member (sorted.mem_iff.mp inside),
      tableGet_eq_none member]
    rfl

theorem putAll_eq {keys : List Bytes} {table : Table}
    (distinct : keys.Nodup)
    (new : ∀ key ∈ keys, tableGet table key = none)
    (converts : ∀ key ∈ keys, ∀ label,
      convertItem label (rawGet entries (.str key)) = .ok (node key)) :
    putAll convertItem label entries keys table =
      .ok (keys.foldl (fun table key => tableSet table key (node key))
        table) := by
  induction keys generalizing table with
  | nil => rfl
  | cons key keys induction =>
      rw [List.nodup_cons] at distinct
      obtain ⟨absent, distinct⟩ := distinct
      have others : ∀ other ∈ keys,
          tableGet (tableSet table key (node key)) other = none := by
        intro other member
        have differs : key ≠ other := by
          rintro rfl
          exact absent member
        rw [tableGet_tableSet, if_neg differs]
        exact new other (List.mem_cons_of_mem key member)
      rw [putAll, converts key List.mem_cons_self]
      change (if (tableGet table key).isSome then _ else _) = _
      rw [new key List.mem_cons_self]
      exact induction distinct others
        fun other member => converts other (List.mem_cons_of_mem key member)

theorem rawGet_of_mem {entry : LuaKey × LuaValue}
    (distinct : (entries.map Prod.fst).Nodup) (member : entry ∈ entries) :
    rawGet entries entry.1 = entry.2 := by
  unfold rawGet
  rw [find?_of_distinct distinct member]
  rfl

end

/-- A table of named values becomes the table of their nodes. -/
theorem convertTable_fields {β : Type}
    {convertItem : Bytes → LuaValue → Except Stop Node} {label : Bytes}
    {items : List β} {name : β → Bytes} {value : β → LuaValue}
    {node : β → Node} (nonempty : items ≠ [])
    (distinct : (items.map name).Nodup)
    (noNul : ∀ item ∈ items, (0 : UInt8) ∉ name item)
    (converts : ∀ item ∈ items, ∀ label,
      convertItem label (value item) = .ok (node item)) :
    convertTable convertItem label 0
        (items.map fun item => (.str (name item), value item)) =
      .ok (.tab (storedTable (items.map fun item =>
        (name item, node item)))) := by
  have isKeys : (items.map fun item => (LuaKey.str (name item), value item)
      ).filterMap (fun entry => stringKey entry.1) = items.map name := by
    rw [List.filterMap_map, ← List.filterMap_eq_map]
    rfl
  have known : (items.map fun item => (LuaKey.str (name item), value item)
      ).all (fun entry => (stringKey entry.1).isSome ||
        isListKey 0 entry.1) = true := by
    rw [List.all_map, List.all_eq_true]
    exact fun item _ => rfl
  have isPlain : (items.map name).map cstr = items.map name := by
    rw [List.map_map]
    apply List.map_congr_left
    intro item member
    exact cstr_eq_self (noNul item member)
  have hasKeys : items.map name ≠ [] := by
    rwa [ne_eq, List.map_eq_nil_iff]
  have nodeKeys : (items.map fun item => (name item, node item)).map
      Prod.fst = items.map name := by
    rw [List.map_map]
    rfl
  have fieldKeys : (items.map fun item => (LuaKey.str (name item),
      value item)).map Prod.fst = (items.map name).map LuaKey.str := by
    rw [List.map_map, List.map_map]
    rfl
  have fieldsDistinct : ((items.map name).map LuaKey.str).Nodup := by
    apply distinct.map
    intro first second same
    cases same
    rfl
  have sorted := List.mergeSort_perm (items.map name) keyLe
  have sortedConverts : ∀ key ∈ (items.map name).mergeSort keyLe, ∀ label,
      convertItem label (rawGet (items.map fun item =>
          (LuaKey.str (name item), value item)) (.str key)) =
        .ok ((tableGet (items.map fun item => (name item, node item))
          key).getD (.tab [])) := by
    intro key member label
    obtain ⟨item, isItem, rfl⟩ := List.mem_map.mp (sorted.mem_iff.mp member)
    rw [← fieldKeys] at fieldsDistinct
    rw [← nodeKeys] at distinct
    have raw := rawGet_of_mem fieldsDistinct (List.mem_map_of_mem isItem)
    have stored := tableGet_of_mem distinct (List.mem_map_of_mem isItem)
    dsimp only at raw stored
    rw [raw, converts item isItem, stored]
    rfl
  unfold convertTable
  dsimp only
  rw [isKeys, known, isPlain, if_neg (by simp), if_neg hasKeys,
    putAll_eq (sorted.nodup_iff.mpr distinct) (fun _ _ => rfl)
      sortedConverts, storedTable, nodeKeys]
  rfl

end SaltOS.Config
