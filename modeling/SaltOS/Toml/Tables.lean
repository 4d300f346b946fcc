import SaltOS.Toml.Pieces

/-!
# Documents with an array of tables

Most generated documents are a group of lines followed by tables `[[key]]`,
each with lines of its own.  Such a document is parsed into the entries of the
lines and one array, and its lines are found again under their keys.
-/

namespace SaltOS.Toml

/-! ## Records -/

/-- A key of a record and what is written for it; a writer leaves some keys
out. -/
structure Field where
  key : String
  value : Option (Bytes × Node)

def Field.lines (field : Field) : List Line :=
  match field.value with
  | none => []
  | some (text, node) => [⟨ascii field.key, text, node⟩]

/-- The line of a field whose value is read back. -/
theorem Field.lines_ok {next : UInt8} {fuel : Nat} {key : String}
    {text : Bytes} {node : Node} (bare : BareKey (ascii key))
    (reads : ReadsValue next fuel text node) :
    ∀ line ∈ Field.lines ⟨key, some (text, node)⟩, line.Ok next fuel := by
  intro line member
  obtain rfl : line = ⟨ascii key, text, node⟩ := by
    simpa [Field.lines] using member
  exact ⟨bare, reads⟩

def recordLines (fields : List Field) : List Line :=
  fields.flatMap Field.lines

theorem recordLines_flatMap (fields : List Field) :
    (recordLines fields).flatMap Line.emit =
      fields.flatMap fun field => field.lines.flatMap Line.emit := by
  rw [recordLines, List.flatMap_assoc]

section

variable {fields : List Field} {key : String}

theorem mem_recordLines {line : Line} :
    line ∈ recordLines fields ↔ ∃ field ∈ fields, line ∈ field.lines := by
  rw [recordLines, List.mem_flatMap]

theorem keys_recordLines (fields : List Field) :
    ((recordLines fields).map Line.key).Sublist
      (fields.map fun field => ascii field.key) := by
  induction fields with
  | nil => exact List.Sublist.slnil
  | cons field fields induction =>
      obtain ⟨key, value⟩ := field
      rw [recordLines, List.flatMap_cons, List.map_append, List.map_cons,
        ← List.singleton_append]
      refine List.Sublist.append ?_ induction
      cases value with
      | none => simp [Field.lines]
      | some value => simp [Field.lines]

/-- Under a key of a record stands what was written for it. -/
theorem getPath_record {value : Option (Bytes × Node)}
    (distinct : (fields.map fun field => ascii field.key).Nodup)
    (member : ⟨key, value⟩ ∈ fields) (segment : Segment (ascii key)) :
    getPath (linesNode (recordLines fields)) (ascii key) =
      value.map Prod.snd := by
  rw [linesNode, getPath_bare segment]
  cases value with
  | some value =>
      have line : (⟨ascii key, value.1, value.2⟩ : Line) ∈
          recordLines fields :=
        mem_recordLines.mpr ⟨_, member, by simp [Field.lines]⟩
      exact tableGet_setLines (distinct.sublist (keys_recordLines fields))
        line
  | none =>
      apply tableGet_base
      intro present
      obtain ⟨line, inLines, isKey⟩ := List.mem_map.mp present
      obtain ⟨field, inFields, isLine⟩ := mem_recordLines.mp inLines
      obtain ⟨name, content⟩ := field
      cases content with
      | none => simp [Field.lines] at isLine
      | some content =>
          obtain rfl : line = ⟨ascii name, content.1, content.2⟩ := by
            simpa [Field.lines] using isLine
          have same := List.inj_on_of_nodup_map distinct inFields member
            isKey
          simp at same

section

variable (distinct : (fields.map fun field => ascii field.key).Nodup)
include distinct

theorem stringAt_record {value : Option (Bytes × Node)}
    (member : ⟨key, value⟩ ∈ fields) (segment : Segment (ascii key)) :
    stringAt (linesNode (recordLines fields)) key =
      (value.map Prod.snd).bind asString := by
  rw [stringAt, getPath_record distinct member segment]

theorem intAt_record {text : Bytes} {number : Int} (fallback : Int)
    (member : ⟨key, some (text, .int number)⟩ ∈ fields)
    (segment : Segment (ascii key)) :
    intAt (linesNode (recordLines fields)) key fallback = number := by
  rw [intAt, getPath_record distinct member segment]
  rfl

/-- A writer may leave the key of an empty list out. -/
theorem stringArrayAt_record {value : Option (Bytes × Node)}
    {items : List Bytes} (member : ⟨key, value⟩ ∈ fields)
    (isItems : (value.map Prod.snd).getD (.arr []) =
      .arr (items.map Node.str)) (segment : Segment (ascii key)) :
    stringArrayAt (linesNode (recordLines fields)) key = items := by
  rw [stringArrayAt, getPath_record distinct member segment]
  cases value with
  | none =>
      have empty : [] = items.map Node.str := Node.arr.inj isItems
      exact (List.map_eq_nil_iff.mp empty.symm).symm
  | some value =>
      have isArray : value.2 = .arr (items.map Node.str) := isItems
      simp [isArray, List.filterMap_map, Function.comp_def, asString]

end

end

/-! ## Arrays of tables -/

/-- The text of a table: its header and its lines. -/
def emitTable (key : Bytes) (lines : List Line) : Bytes :=
  91 :: 91 :: key ++ 93 :: 93 :: 10 :: lines.flatMap Line.emit

/-- Tables with blank lines before and behind each of them. -/
def emitTables (before behind : Nat) (key : Bytes)
    (groups : List (List Line)) : Bytes :=
  groups.flatMap fun lines => List.replicate before 10 ++
    (emitTable key lines ++ List.replicate behind 10)

section

variable {key : Bytes} {lines : List Line} {groups : List (List Line)}

/-- Lines and an array of tables. -/
def documentPieces (before behind : Nat) (key : Bytes) (lines : List Line)
    (groups : List (List Line)) : List Piece :=
  lines.map .assign ++ groups.flatMap (tablePieces before behind [] key)

theorem emit_assigns (lines : List Line) :
    emitPieces (lines.map .assign) = lines.flatMap Line.emit := by
  rw [emitPieces, List.flatMap_map]
  rfl

theorem emit_tablePieces (before behind : Nat) (lines : List Line) :
    emitPieces (tablePieces before behind [] key lines) =
      List.replicate before 10 ++
        (emitTable key lines ++ List.replicate behind 10) := by
  have blanks : ∀ count, (List.replicate count Piece.blank).flatMap
      Piece.emit = List.replicate count 10 := by
    intro count
    induction count with
    | zero => rfl
    | succ count induction =>
        rw [List.replicate_succ, List.flatMap_cons, induction]
        rfl
  have assigns := emit_assigns lines
  rw [emitPieces] at assigns
  simp [emitPieces, tablePieces, blanks, assigns, Piece.emit, emitTable,
    dotted]

theorem emit_document (before behind : Nat) :
    emitPieces (documentPieces before behind key lines groups) =
      lines.flatMap Line.emit ++ emitTables before behind key groups := by
  have tables : emitPieces
      (groups.flatMap (tablePieces before behind [] key)) =
        emitTables before behind key groups := by
    rw [emitPieces, List.flatMap_assoc]
    exact List.flatMap_congr fun lines _ =>
      emit_tablePieces before behind lines
  rw [← tables, ← emit_assigns]
  exact List.flatMap_append

theorem build_document (before behind : Nat)
    (new : key ∉ lines.map Line.key) :
    ∃ current, (documentPieces before behind key lines groups).foldlM
        Piece.build ([], []) =
      some (withTables (setLines [] lines) key (groups.map linesNode),
        current) := by
  have filled := build_lines isPlace_root lines []
  obtain ⟨current, tables⟩ := build_tables before behind isPlace_root
    (tableGet_base new) groups [] []
  refine ⟨current, ?_⟩
  rw [documentPieces, List.foldlM_append]
  change (List.foldlM Piece.build (id [], []) _ >>= _) = _
  rw [filled]
  exact tables

theorem assign_mem_document {before behind : Nat} {line : Line} :
    .assign line ∈ documentPieces before behind key lines groups ↔
      line ∈ lines ∨ ∃ group ∈ groups, line ∈ group := by
  simp [documentPieces, assign_mem_tablePieces]

theorem document_bare {before behind : Nat} (bare : BareKey key) :
    ∀ piece ∈ documentPieces before behind key lines groups,
      piece.Bare := by
  intro piece member
  cases piece with
  | blank => trivial
  | assign line => trivial
  | header path other =>
      have same : (∃ group, group ∈ groups) ∧ path = [] ∧ other = key := by
        simpa [documentPieces, tablePieces, List.mem_replicate] using member
      obtain ⟨-, rfl, rfl⟩ := same
      simpa [Piece.Bare] using bare

variable {next : UInt8} {fuel : Nat}

/-- A document of decided lines is read, or rejected. -/
theorem parse_document (before behind : Nat) (bare : BareKey key)
    (new : key ∉ lines.map Line.key)
    (linesDecided : ∀ line ∈ lines, line.Decided next fuel)
    (groupsDecided : ∀ group ∈ groups, ∀ line ∈ group,
      line.Decided next fuel) :
    LinesOk next fuel (documentPieces before behind key lines groups) ∧
      parse next fuel (lines.flatMap Line.emit ++
        emitTables before behind key groups) =
      .ok (withTables (setLines [] lines) key (groups.map linesNode)) ∨
    ¬ LinesOk next fuel (documentPieces before behind key lines groups) ∧
      ∃ message, parse next fuel (lines.flatMap Line.emit ++
        emitTables before behind key groups) = .error (.error message) := by
  obtain ⟨current, built⟩ :=
    @build_document key lines groups before behind new
  rw [← emit_document]
  apply parse_pieces (document_bare bare) _ built
  intro line member
  rcases assign_mem_document.mp member with inLines | ⟨group, inGroups, inGroup⟩
  · exact linesDecided line inLines
  · exact groupsDecided group inGroups line inGroup

/-- A document of lines and an array of tables. -/
theorem parse_tables (before behind : Nat) (bare : BareKey key)
    (linesOk : ∀ line ∈ lines, line.Ok next fuel)
    (new : key ∉ lines.map Line.key)
    (groupsOk : ∀ group ∈ groups, ∀ line ∈ group, line.Ok next fuel) :
    parse next fuel (lines.flatMap Line.emit ++
        emitTables before behind key groups) =
      .ok (withTables (setLines [] lines) key
        (groups.map linesNode)) := by
  rcases parse_document before behind bare new
    (fun line member => .inl (linesOk line member))
    (fun group inGroups line member =>
      .inl (groupsOk group inGroups line member)) with
    ⟨-, parsed⟩ | ⟨notOk, -⟩
  · exact parsed
  · refine absurd (fun line member => ?_) notOk
    rcases assign_mem_document.mp member with
      inLines | ⟨group, inGroups, inGroup⟩
    · exact linesOk line inLines
    · exact groupsOk group inGroups line inGroup

theorem parse_ok_or_fail (before behind : Nat) (bare : BareKey key)
    (new : key ∉ lines.map Line.key)
    (linesDecided : ∀ line ∈ lines, line.Decided next fuel)
    (groupsDecided : ∀ group ∈ groups, ∀ line ∈ group,
      line.Decided next fuel) :
    ((∀ line ∈ lines, line.Ok next fuel) ∧
      ∀ group ∈ groups, ∀ line ∈ group, line.Ok next fuel) ∨
      ∃ message, parse next fuel (lines.flatMap Line.emit ++
        emitTables before behind key groups) = .error (.error message) := by
  rcases parse_document before behind bare new linesDecided groupsDecided
    with ⟨ok, -⟩ | ⟨-, fails⟩
  · exact .inl ⟨fun line member => ok line
        (assign_mem_document.mpr (.inl member)),
      fun group inGroups line member => ok line
        (assign_mem_document.mpr (.inr ⟨group, inGroups, member⟩))⟩
  · exact .inr fails

variable {base : Table}

/-- The tables are the items of the array that is found under the key. -/
theorem arrayItems_withTables (new : tableGet base key = none)
    (items : List Node) :
    arrayItems (tableGet (withTables base key items) key) = items := by
  rw [tableGet_withTables new]
  split
  · rename_i empty
    rw [empty]
    rfl
  · rfl

end

end SaltOS.Toml
