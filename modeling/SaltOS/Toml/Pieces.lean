import SaltOS.Toml.Failing

/-!
# Documents piece by piece

A generated document is a list of pieces: blank lines, lines and the headers
of arrays of tables, with dotted paths.  Each piece has a text and an effect on
the tree and the current path.  A document whose lines are read or fail is read
to the tree that its pieces build, or rejected.
-/

namespace SaltOS.Toml

/-! ## Pieces -/

inductive Piece where
  | blank
  | assign (line : Line)
  | header (path : List Bytes) (key : Bytes)

def Piece.emit : Piece → Bytes
  | .blank => [10]
  | .assign line => line.emit
  | .header path key => 91 :: 91 :: dotted (path ++ [key]) ++ [93, 93, 10]

/-- The tree and the path of the current table. -/
abbrev Built := Table × List Bytes

def Piece.build (built : Built) : Piece → Option Built
  | .blank => some built
  | .assign line =>
      (descend (fun table => some (tableSet table line.key line.node))
        built.2 built.1).map fun root => (root, built.2)
  | .header path key =>
      (descend (pushTable key) path built.1).map fun root =>
        (root, path ++ [key])

/-- The keys of a header need no quotes. -/
def Piece.Bare : Piece → Prop
  | .header path key => ∀ part ∈ path ++ [key], BareKey part
  | _ => True

def emitPieces (pieces : List Piece) : Bytes :=
  pieces.flatMap Piece.emit

theorem length_emitPieces (pieces : List Piece) :
    pieces.length ≤ (emitPieces pieces).length := by
  induction pieces with
  | nil => simp
  | cons piece pieces induction =>
      have positive : 1 ≤ piece.emit.length := by
        cases piece with
        | blank => exact Nat.le_refl 1
        | assign line =>
            simp only [Piece.emit, Line.emit, List.length_append,
              List.length_singleton]
            omega
        | header path key =>
            simp only [Piece.emit, List.cons_append, List.length_cons]
            omega
      simp only [emitPieces, List.flatMap_cons, List.length_append,
        List.length_cons] at induction ⊢
      omega

section

variable {next : UInt8} {fuel : Nat}

theorem Line.Ok.not_fails {line : Line} (ok : line.Ok next fuel) :
    ¬ FailsValue next fuel line.value := by
  intro fails
  obtain ⟨message, failed⟩ := fails [] 0
  rw [ok.reads] at failed
  cases failed

/-- All lines of some pieces are read. -/
def LinesOk (next : UInt8) (fuel : Nat) (pieces : List Piece) : Prop :=
  ∀ line, .assign line ∈ pieces → line.Ok next fuel

theorem linesOk_cons {piece : Piece} {pieces : List Piece} :
    LinesOk next fuel (piece :: pieces) ↔
      LinesOk next fuel [piece] ∧ LinesOk next fuel pieces := by
  unfold LinesOk
  simp only [List.mem_cons, List.not_mem_nil, or_false]
  exact ⟨fun all => ⟨fun line isFirst => all line (.inl isFirst),
      fun line inside => all line (.inr inside)⟩,
    fun both line member => member.elim (both.1 line) (both.2 line)⟩

/-- A piece is read, or its line fails. -/
theorem piece_reads_or_fails {piece : Piece} {built after : Built}
    (bare : piece.Bare)
    (decided : ∀ line, piece = .assign line → line.Decided next fuel)
    (ran : piece.build built = some after) (blanks : Nat) (tail : Bytes) :
    LinesOk next fuel [piece] ∧
      (∃ count blanks', count ≤ 1 ∧ Reads next fuel count
        ⟨built.1, built.2,
          List.replicate blanks 10 ++ (piece.emit ++ tail)⟩
        ⟨after.1, after.2, List.replicate blanks' 10 ++ tail⟩) ∨
    ¬ LinesOk next fuel [piece] ∧
      Fails next fuel 1 ⟨built.1, built.2,
        List.replicate blanks 10 ++ (piece.emit ++ tail)⟩ := by
  obtain ⟨root, current⟩ := built
  cases piece with
  | blank =>
      cases ran
      left
      refine ⟨fun line member => ?_, 0, blanks + 1, Nat.zero_le 1, ?_⟩
      · cases List.mem_singleton.mp member
      · rw [List.replicate_succ', List.append_assoc]
        exact Reads.refl _
  | assign line =>
      have text : List.replicate blanks 10 ++ ((Piece.assign line).emit ++
          tail) = List.replicate blanks 10 ++ (line.key ++ 32 :: 61 :: 32 ::
            line.value) ++ 10 :: tail := by
        simp [Piece.emit, Line.emit, ascii]
      rw [text]
      simp only [Piece.build, Option.map_eq_some_iff] at ran
      obtain ⟨changed, assigned, rfl⟩ := ran
      rcases decided line rfl with isOk | ⟨isBare, fails⟩
      · left
        refine ⟨fun other member => ?_, 1, 1, Nat.le_refl 1, ?_⟩
        · cases List.mem_singleton.mp member
          exact isOk
        · exact Reads.assign tail blanks isOk.bare isOk.reads assigned
      · right
        refine ⟨fun allOk => ?_, Fails.assign blanks isBare fails⟩
        exact (allOk line List.mem_cons_self).not_fails fails
  | header path key =>
      have text : List.replicate blanks 10 ++ ((Piece.header path key).emit ++
          tail) = List.replicate blanks 10 ++ (91 :: 91 ::
            dotted (path ++ [key]) ++ [93, 93]) ++ 10 :: tail := by
        simp [Piece.emit]
      rw [text]
      simp only [Piece.build, Option.map_eq_some_iff] at ran
      obtain ⟨changed, created, rfl⟩ := ran
      left
      refine ⟨fun line member => ?_, 1, 1, Nat.le_refl 1, ?_⟩
      · cases List.mem_singleton.mp member
      · exact Reads.arrayPath current tail blanks bare created

/-- Pieces are read to what they build, or a line of them fails. -/
theorem pieces_read_or_fail {pieces : List Piece} {built after : Built}
    (bare : ∀ piece ∈ pieces, piece.Bare)
    (decided : ∀ line, .assign line ∈ pieces → line.Decided next fuel)
    (ran : pieces.foldlM Piece.build built = some after) (blanks : Nat)
    (tail : Bytes) :
    LinesOk next fuel pieces ∧
      (∃ count blanks', count ≤ pieces.length ∧ Reads next fuel count
        ⟨built.1, built.2,
          List.replicate blanks 10 ++ (emitPieces pieces ++ tail)⟩
        ⟨after.1, after.2, List.replicate blanks' 10 ++ tail⟩) ∨
    ¬ LinesOk next fuel pieces ∧
      Fails next fuel pieces.length ⟨built.1, built.2,
        List.replicate blanks 10 ++ (emitPieces pieces ++ tail)⟩ := by
  induction pieces generalizing built blanks with
  | nil =>
      cases ran
      exact .inl ⟨by simp [LinesOk], 0, blanks, Nat.le_refl 0,
        Reads.refl _⟩
  | cons piece pieces induction =>
      rw [List.foldlM_cons] at ran
      obtain ⟨middle, first, others⟩ := Option.bind_eq_some_iff.mp ran
      have text : emitPieces (piece :: pieces) ++ tail =
          piece.emit ++ (emitPieces pieces ++ tail) := by
        simp [emitPieces]
      rw [text, List.length_cons]
      rcases piece_reads_or_fails (bare piece List.mem_cons_self)
        (fun line isLine => decided line (isLine ▸ List.mem_cons_self))
        first blanks (emitPieces pieces ++ tail) with
        ⟨firstOk, count, middleBlanks, atMost, reads⟩ | ⟨notOk, fails⟩
      · rcases induction
          (fun other member => bare other (List.mem_cons_of_mem _ member))
          (fun line member => decided line (List.mem_cons_of_mem _ member))
          others middleBlanks with
          ⟨othersOk, more, lastBlanks, moreAtMost, readOthers⟩ |
          ⟨notOk, fails⟩
        · left
          exact ⟨linesOk_cons.mpr ⟨firstOk, othersOk⟩, count + more,
            lastBlanks, by omega, reads.trans readOthers⟩
        · right
          exact ⟨fun allOk => notOk (linesOk_cons.mp allOk).2,
            (reads.fails fails).mono (by omega)⟩
      · right
        exact ⟨fun allOk => notOk (linesOk_cons.mp allOk).1,
          fails.mono (by omega)⟩

/-- A document whose lines are read is read to the tree that its pieces
build; one of which a line fails is rejected. -/
theorem parse_pieces {pieces : List Piece} {after : Built}
    (bare : ∀ piece ∈ pieces, piece.Bare)
    (decided : ∀ line, .assign line ∈ pieces → line.Decided next fuel)
    (ran : pieces.foldlM Piece.build ([], []) = some after) :
    LinesOk next fuel pieces ∧
      parse next fuel (emitPieces pieces) = .ok after.1 ∨
    ¬ LinesOk next fuel pieces ∧
      ∃ message, parse next fuel (emitPieces pieces) =
        .error (.error message) := by
  have long := length_emitPieces pieces
  rcases pieces_read_or_fail bare decided ran 1 [] with
    ⟨ok, count, blanks, atMost, reads⟩ | ⟨notOk, fails⟩
  · left
    refine ⟨ok, ?_⟩
    rw [List.append_nil, List.append_nil] at reads
    exact Reads.parse blanks reads (by omega)
  · right
    rw [List.append_nil] at fails
    exact ⟨notOk, fails.parse long⟩

end

/-! ## What pieces build -/

/-- The table that a group of lines fills. -/
def linesNode (lines : List Line) : Node :=
  .tab (setLines [] lines)

/-- A tree with an array of tables; without any table there is no key. -/
def withTables (base : Table) (key : Bytes) (items : List Node) : Table :=
  if items = [] then base else tableSet base key (.arr items)

section

variable {base : Table} {key : Bytes}

theorem pushTable_withTables (new : tableGet base key = none)
    (items : List Node) :
    pushTable key (withTables base key items) =
      some (tableSet base key (.arr (items ++ [.tab []]))) := by
  unfold withTables
  split
  · rename_i empty
    simp [pushTable, new, empty]
  · simp [pushTable, tableGet_tableSet]

end

theorem build_lines {current : List Bytes} {place : Table → Table}
    (isPlace : IsPlace current place) (lines : List Line) (child : Table) :
    (lines.map Piece.assign).foldlM Piece.build (place child, current) =
      some (place (setLines child lines), current) := by
  induction lines generalizing child with
  | nil => rfl
  | cons line lines induction =>
      rw [List.map_cons, List.foldlM_cons, Piece.build, isPlace]
      exact induction (tableSet child line.key line.node)

/-- The array of tables at a place. -/
theorem isPlace_tables {path : List Bytes} {place : Table → Table}
    (isPlace : IsPlace path place) (base : Table) (key : Bytes)
    (items : List Node) :
    IsPlace (path ++ [key]) fun child =>
      place (withTables base key (items ++ [.tab child])) := by
  have inTables : IsPlace [key] fun child =>
      withTables base key (items ++ [.tab child]) := by
    intro change child
    simpa [withTables] using isPlace_arr base key items change child
  exact isPlace.append inTables

/-- A table behind a header, with blank lines before and behind it. -/
def tablePieces (before behind : Nat) (path : List Bytes) (key : Bytes)
    (lines : List Line) : List Piece :=
  List.replicate before .blank ++ (.header path key :: lines.map .assign) ++
    List.replicate behind .blank

theorem assign_mem_tablePieces {before behind : Nat} {path : List Bytes}
    {key : Bytes} {lines : List Line} {line : Line} :
    .assign line ∈ tablePieces before behind path key lines ↔
      line ∈ lines := by
  simp [tablePieces, List.mem_replicate]

theorem build_blanks (count : Nat) (built : Built) :
    (List.replicate count Piece.blank).foldlM Piece.build built =
      some built := by
  induction count with
  | zero => rfl
  | succ count induction =>
      rw [List.replicate_succ, List.foldlM_cons]
      exact induction

section

variable {path : List Bytes} {place : Table → Table} {base : Table}
  {key : Bytes}

theorem build_header (isPlace : IsPlace path place)
    (new : tableGet base key = none) (items : List Node)
    (current : List Bytes) :
    Piece.build (place (withTables base key items), current)
        (.header path key) =
      some (place (withTables base key (items ++ [.tab []])),
        path ++ [key]) := by
  rw [Piece.build, isPlace, pushTable_withTables new]
  simp [withTables]

/-- A table is added at the end of its array. -/
theorem build_table (before behind : Nat) (isPlace : IsPlace path place)
    (new : tableGet base key = none) (lines : List Line)
    (items : List Node) (current : List Bytes) :
    (tablePieces before behind path key lines).foldlM Piece.build
        (place (withTables base key items), current) =
      some (place (withTables base key (items ++ [linesNode lines])),
        path ++ [key]) := by
  have filled := build_lines (isPlace_tables isPlace base key items) lines []
  have opened : (Piece.header path key :: lines.map .assign).foldlM
      Piece.build (place (withTables base key items), current) =
        some (place (withTables base key (items ++ [linesNode lines])),
          path ++ [key]) := by
    rw [List.foldlM_cons, build_header isPlace new]
    exact filled
  rw [tablePieces, List.foldlM_append, List.foldlM_append, build_blanks]
  change (List.foldlM Piece.build _ (Piece.header path key :: _) >>= _) = _
  rw [opened]
  exact build_blanks behind _

theorem build_tables (before behind : Nat) (isPlace : IsPlace path place)
    (new : tableGet base key = none) (groups : List (List Line))
    (items : List Node) (current : List Bytes) :
    ∃ current',
      (groups.flatMap (tablePieces before behind path key)).foldlM
          Piece.build (place (withTables base key items), current) =
        some (place (withTables base key (items ++ groups.map linesNode)),
          current') := by
  induction groups generalizing items current with
  | nil => exact ⟨current, by simp⟩
  | cons lines groups induction =>
      obtain ⟨current', others⟩ :=
        induction (items ++ [linesNode lines]) (path ++ [key])
      refine ⟨current', ?_⟩
      rw [List.flatMap_cons, List.foldlM_append,
        build_table before behind isPlace new lines items current]
      simpa using others

end

/-! ## Tables with tables in them -/

/-- A table, and behind it the tables of an array in it. -/
def nestedPieces (before behind : Nat) (key inner : Bytes)
    (nest : List Line × List (List Line)) : List Piece :=
  tablePieces before behind [] key nest.1 ++
    nest.2.flatMap (tablePieces before behind [key] inner)

theorem assign_mem_nestedPieces {before behind : Nat} {key inner : Bytes}
    {nest : List Line × List (List Line)} {line : Line} :
    .assign line ∈ nestedPieces before behind key inner nest ↔
      line ∈ nest.1 ∨ ∃ group ∈ nest.2, line ∈ group := by
  simp [nestedPieces, assign_mem_tablePieces]

def nestedNode (inner : Bytes) (nest : List Line × List (List Line)) :
    Node :=
  .tab (withTables (setLines [] nest.1) inner (nest.2.map linesNode))

theorem build_nested (before behind : Nat) {base : Table}
    {key inner : Bytes} (new : tableGet base key = none)
    {nest : List Line × List (List Line)}
    (innerNew : inner ∉ nest.1.map Line.key) (items : List Node)
    (current : List Bytes) :
    ∃ current', (nestedPieces before behind key inner nest).foldlM
        Piece.build (withTables base key items, current) =
      some (withTables base key (items ++ [nestedNode inner nest]),
        current') := by
  have first := build_table before behind isPlace_root new nest.1 items
    current
  obtain ⟨current', tables⟩ := build_tables before behind
    (isPlace_tables isPlace_root base key items) (tableGet_base innerNew)
    nest.2 [] [key]
  refine ⟨current', ?_⟩
  have start : withTables (setLines [] nest.1) inner [] =
      setLines [] nest.1 := if_pos rfl
  rw [start] at tables
  rw [nestedPieces, List.foldlM_append]
  change (List.foldlM Piece.build (id (withTables base key items), current)
    _ >>= _) = _
  rw [first]
  exact tables

theorem build_nests (before behind : Nat) {base : Table}
    {key inner : Bytes} (new : tableGet base key = none)
    {nests : List (List Line × List (List Line))}
    (innerNew : ∀ nest ∈ nests, inner ∉ nest.1.map Line.key)
    (items : List Node) (current : List Bytes) :
    ∃ current', (nests.flatMap
        (nestedPieces before behind key inner)).foldlM Piece.build
          (withTables base key items, current) =
      some (withTables base key (items ++ nests.map (nestedNode inner)),
        current') := by
  induction nests generalizing items current with
  | nil => exact ⟨current, by simp⟩
  | cons nest nests induction =>
      obtain ⟨middle, first⟩ := build_nested before behind new
        (innerNew nest List.mem_cons_self) items current
      obtain ⟨current', others⟩ := induction
        (fun other member => innerNew other (List.mem_cons_of_mem nest member))
        (items ++ [nestedNode inner nest]) middle
      refine ⟨current', ?_⟩
      rw [List.flatMap_cons, List.foldlM_append, first]
      simpa using others

theorem tableGet_withTables_other {base : Table} {key other : Bytes}
    (differ : key ≠ other) (items : List Node) :
    tableGet (withTables base key items) other = tableGet base other := by
  unfold withTables
  split
  · rfl
  · rw [tableGet_tableSet, if_neg differ]

theorem tableGet_withTables {base : Table} {key : Bytes}
    (new : tableGet base key = none) (items : List Node) :
    tableGet (withTables base key items) key =
      if items = [] then none else some (.arr items) := by
  unfold withTables
  split
  · exact new
  · rw [tableGet_tableSet, if_pos rfl]

end SaltOS.Toml
