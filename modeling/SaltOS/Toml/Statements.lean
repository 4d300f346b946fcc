import SaltOS.Toml.Parser

/-!
# Reading a document line by line

Statements of the two forms that generated documents consist of: a bare key
with a value, and a table header.  A line that is read replaces the document
by one whose tree has the new entry and whose text is the rest.
-/

namespace SaltOS.Toml

/-! ## Entries of a table -/

theorem tableGet_tableSet (table : Table) (key other : Bytes) (value : Node) :
    tableGet (tableSet table key value) other =
      if key = other then some value else tableGet table other := by
  induction table with
  | nil =>
      by_cases same : key = other <;> simp [tableSet, tableGet, same]
  | cons entry rest induction =>
      by_cases isKey : entry.1 = key
      · by_cases same : key = other
        · simp [tableSet, tableGet, isKey, same]
        · simp [tableSet, tableGet, isKey, same]
      · by_cases isOther : entry.1 = other
        · have differ : ¬ other = key := fun same => isKey (isOther.trans same)
          simp [tableSet, tableGet, isOther, differ, Ne.symm differ]
        · simp only [tableSet, isKey, if_false]
          simpa [tableGet, isOther] using induction

@[simp] theorem tableSet_tableSet (table : Table) (key : Bytes)
    (old new : Node) :
    tableSet (tableSet table key old) key new = tableSet table key new := by
  induction table with
  | nil => simp [tableSet]
  | cons entry rest induction =>
      by_cases isKey : entry.1 = key
      · simp [tableSet, isKey]
      · simp [tableSet, isKey, induction]

/-- An assignment inside a table that was just set. -/
theorem descend_tab {change : Table → Option Table} {table child : Table}
    {key : Bytes} :
    descend change [key] (tableSet table key (.tab child)) =
      (change child).map fun changed => tableSet table key (.tab changed) := by
  simp [descend, tableGet_tableSet]

/-- An assignment inside the last table of an array. -/
theorem descend_arr {change : Table → Option Table} {table child : Table}
    {key : Bytes} {items : List Node} :
    descend change [key]
        (tableSet table key (.arr (items ++ [.tab child]))) =
      (change child).map fun changed =>
        tableSet table key (.arr (items ++ [.tab changed])) := by
  simp [descend, tableGet_tableSet]

/-! ## Keys -/

/-- A key that needs no quotes. -/
structure BareKey (key : Bytes) : Prop where
  nonempty : key ≠ []
  bytes : ∀ byte ∈ key, isKeyByte byte = true

instance (key : Bytes) : Decidable (BareKey key) :=
  decidable_of_iff (key ≠ [] ∧ key.all isKeyByte = true)
    ⟨fun both => ⟨both.1, List.all_eq_true.mp both.2⟩,
      fun bare => ⟨bare.nonempty, List.all_eq_true.mpr bare.bytes⟩⟩

/-- What ends a bare key: neither a key byte nor a dot. -/
def EndsKey (after : Bytes) : Prop :=
  ∃ byte rest, after = byte :: rest ∧ isKeyByte byte = false

theorem takeWhile_key {key after : Bytes} (bare : BareKey key)
    (ends : EndsKey after) :
    (key ++ after).takeWhile isKeyByte = key := by
  obtain ⟨byte, rest, rfl, isEnd⟩ := ends
  rw [List.takeWhile_append_of_pos bare.bytes]
  simp [isEnd]

theorem isKeyByte_plain {byte : UInt8} (isKey : isKeyByte byte = true) :
    byte ≠ 34 ∧ byte ≠ 39 ∧ byte ≠ 91 ∧ isInlineBlank byte = false ∧
      byte ≠ 10 ∧ byte ≠ 13 ∧ byte ≠ 35 := by
  refine ⟨?_, ?_, ?_, ?_, ?_, ?_, ?_⟩
  rotate_left 3
  · by_contra blank
    simp only [isInlineBlank, Bool.not_eq_false, Bool.or_eq_true,
      beq_iff_eq] at blank
    rcases blank with rfl | rfl <;> exact absurd isKey (by decide)
  all_goals
    rintro rfl
    exact absurd isKey (by decide)

theorem skipWsInline_plain {byte : UInt8} {rest : Bytes} {past line : Nat}
    (plain : isInlineBlank byte = false) :
    skipWsInline ⟨byte :: rest, past, line⟩ = ⟨byte :: rest, past, line⟩ := by
  simp [skipWsInline, Cursor.to, plain]

theorem parseKeyToken_bare {key after : Bytes} {past line : Nat}
    (bare : BareKey key) (ends : EndsKey after) :
    parseKeyToken ⟨key ++ after, past, line⟩ =
      .ok (key, ⟨after, past, line⟩) := by
  have token := takeWhile_key bare ends
  obtain ⟨first, more, rfl⟩ := List.exists_cons_of_ne_nil bare.nonempty
  obtain ⟨notQuote, notTick, -, notBlank, -⟩ :=
    isKeyByte_plain (bare.bytes first List.mem_cons_self)
  rw [parseKeyToken, List.cons_append, skipWsInline_plain notBlank]
  rw [List.cons_append] at token
  split
  · rename_i isNil
    cases isNil
  · rename_i isQuote
    exact absurd (List.cons.inj isQuote).1 notQuote
  · rename_i isTick
    exact absurd (List.cons.inj isTick).1 notTick
  · simp [token, Cursor.to]

/-- Keys with dots between them. -/
def dotted (path : List Bytes) : Bytes :=
  [46].intercalate path

theorem dottedLoop_keys {path : List Bytes} {after : Bytes} {stop : UInt8}
    {rest : Bytes} (nonempty : path ≠ [])
    (bare : ∀ key ∈ path, BareKey key) (ends : EndsKey after)
    (stops : after.dropWhile isInlineBlank = stop :: rest)
    (noDot : stop ≠ 46) {rounds : Nat} (enough : path.length ≤ rounds)
    (keys : List Bytes) (past line : Nat) :
    dottedLoop rounds keys ⟨dotted path ++ after, past, line⟩ =
      .ok (keys ++ path, ⟨stop :: rest, past, line⟩) := by
  induction path generalizing keys rounds with
  | nil => exact absurd rfl nonempty
  | cons key path induction =>
      obtain ⟨rounds, rfl⟩ : ∃ more, rounds = more + 1 :=
        ⟨rounds - 1, by simp at enough; omega⟩
      have isBare := bare key List.mem_cons_self
      cases path with
      | nil =>
          have text : dotted [key] ++ after = key ++ after := by
            simp [dotted]
          rw [text, dottedLoop, parseKeyToken_bare isBare ends]
          simp only [bind, Except.bind, skipWsInline, stops, Cursor.to]
          split
          · rename_i isDot
            exact absurd (List.cons.inj isDot).1 noDot
          · rfl
      | cons second path =>
          have text : dotted (key :: second :: path) ++ after =
              key ++ 46 :: (dotted (second :: path) ++ after) := by
            simp [dotted, List.intercalate]
          have others := induction (by simp)
            (fun other member => bare other (List.mem_cons_of_mem key member))
            (Nat.le_of_succ_le_succ enough) (keys ++ [key])
          rw [text, dottedLoop,
            parseKeyToken_bare isBare ⟨46, _, rfl, by decide⟩]
          simp only [bind, Except.bind]
          rw [skipWsInline_plain (by decide)]
          simp only [Cursor.to, others]
          simp

theorem length_dotted {path : List Bytes}
    (bare : ∀ key ∈ path, BareKey key) :
    path.length ≤ (dotted path).length := by
  induction path with
  | nil => simp
  | cons key path induction =>
      have positive : 0 < key.length := List.length_pos_iff.mpr
        (bare key List.mem_cons_self).nonempty
      have others := induction
        (fun other member => bare other (List.mem_cons_of_mem key member))
      cases path with
      | nil =>
          simp only [dotted, List.intercalate_singleton, List.length_cons,
            List.length_nil]
          omega
      | cons second path =>
          have text : dotted (key :: second :: path) =
              key ++ 46 :: dotted (second :: path) := by
            simp [dotted, List.intercalate]
          simp only [text, List.length_append, List.length_cons] at others ⊢
          omega

theorem parseDottedPath_keys {path : List Bytes} (after : Bytes)
    (stop : UInt8) (rest : Bytes) (past line : Nat) (nonempty : path ≠ [])
    (bare : ∀ key ∈ path, BareKey key) (ends : EndsKey after)
    (stops : after.dropWhile isInlineBlank = stop :: rest)
    (noDot : stop ≠ 46) :
    parseDottedPath ⟨dotted path ++ after, past, line⟩ =
      .ok (path, ⟨stop :: rest, past, line⟩) :=
  dottedLoop_keys nonempty bare ends stops noDot
    (Nat.le_succ_of_le ((length_dotted bare).trans
      (List.prefix_append _ _).length_le)) [] past line

theorem parseDottedPath_bare {key : Bytes} (after : Bytes) (stop : UInt8)
    (rest : Bytes) (past line : Nat) (bare : BareKey key)
    (ends : EndsKey after)
    (stops : after.dropWhile isInlineBlank = stop :: rest)
    (noDot : stop ≠ 46) :
    parseDottedPath ⟨key ++ after, past, line⟩ =
      .ok ([key], ⟨stop :: rest, past, line⟩) := by
  have single := @parseDottedPath_keys [key] after stop rest past line
    (by simp) (by simpa using bare) ends stops noDot
  simpa [dotted] using single

/-! ## Lines -/

/-- The tree, the current table and the text that is left. -/
structure Page where
  root : Table
  current : List Bytes
  text : Bytes

def Page.at (page : Page) (line : Nat) : Document :=
  { root := page.root, current := page.current, cursor := ⟨page.text, 0, line⟩ }

section

variable {next : UInt8} {fuel : Nat}

/-- `count` statements lead from one page to the next, whatever the line. -/
def Reads (next : UInt8) (fuel count : Nat) (before after : Page) : Prop :=
  ∀ rounds line, ∃ line', statementLoop next fuel (rounds + count)
      (before.at line) = statementLoop next fuel rounds (after.at line')

theorem Reads.refl (page : Page) : Reads next fuel 0 page page :=
  fun _ line => ⟨line, rfl⟩

theorem Reads.trans {first second : Nat} {before middle after : Page}
    (left : Reads next fuel first before middle)
    (right : Reads next fuel second middle after) :
    Reads next fuel (first + second) before after := by
  intro rounds line
  obtain ⟨middleLine, toMiddle⟩ := left (rounds + second) line
  obtain ⟨lastLine, toAfter⟩ := right rounds middleLine
  refine ⟨lastLine, ?_⟩
  rw [← toAfter, ← toMiddle]
  congr 1
  omega

/-- A byte at which a statement can start. -/
structure StartsStatement (byte : UInt8) : Prop where
  notEnd : byte ≠ 10
  notBlank : isInlineBlank byte = false
  notReturn : byte ≠ 13
  notComment : byte ≠ 35

theorem skipWsAndComments_plain {byte : UInt8} (rest : Bytes) (line : Nat)
    (blanks : Nat) (starts : StartsStatement byte) :
    skipWsAndComments ⟨List.replicate blanks 10 ++ byte :: rest, 0, line⟩ =
      ⟨byte :: rest, 0, line + blanks⟩ := by
  have skipped : skipBlank false (List.replicate blanks 10 ++ byte :: rest)
      line = (byte :: rest, line + blanks) := by
    induction blanks generalizing line with
    | zero =>
        have notBlank := starts.notBlank
        simp only [isInlineBlank, Bool.or_eq_false_iff, beq_eq_false_iff_ne]
          at notBlank
        simp [skipBlank, starts.notEnd, starts.notReturn, starts.notComment,
          notBlank]
    | succ blanks induction =>
        simp [List.replicate_succ, skipBlank, induction]
        omega
  simp [skipWsAndComments, skipped]

theorem BareKey.starts {key : Bytes} (bare : BareKey key) :
    ∃ first more, key = first :: more ∧ StartsStatement first ∧
      first ≠ 91 := by
  obtain ⟨first, more, rfl⟩ := List.exists_cons_of_ne_nil bare.nonempty
  obtain ⟨-, -, notBracket, notBlank, notEnd, notReturn, notComment⟩ :=
    isKeyByte_plain (bare.bytes first List.mem_cons_self)
  exact ⟨first, more, rfl, ⟨notEnd, notBlank, notReturn, notComment⟩,
    notBracket⟩

/-- A value text that is read up to the end of its line. -/
def ReadsValue (next : UInt8) (fuel : Nat) (text : Bytes) (value : Node) :
    Prop :=
  ∀ tail line, parseValue next fuel ⟨32 :: text ++ 10 :: tail, 0, line⟩ =
    .ok (value, ⟨10 :: tail, 0, line⟩)

/-- What a statement `key = value` does with the value. -/
def assignValue (document : Document) (key : Bytes) (read : Node × Cursor) :
    Except Stop Document :=
  match descend (fun table => some (tableSet table key read.1))
      document.current document.root with
  | none => failAt (ascii "toml: key path conflict") read.2
  | some root =>
      let cursor := skipWsInline read.2
      let cursor :=
        match cursor.rest with
        | 35 :: rest => cursor.to (rest.dropWhile (· != 10))
        | _ => cursor
      .ok { document with root := root, cursor := cursor }

/-- A line is a bare key and the parse of its value. -/
theorem parseStatement_line {root : Table} {current : List Bytes}
    {key text tail : Bytes} {line : Nat} (blanks : Nat) (bare : BareKey key) :
    parseStatement next fuel (Page.at ⟨root, current,
        List.replicate blanks 10 ++ (key ++ 32 :: 61 :: 32 :: text) ++
          10 :: tail⟩ line) =
      ((parseValue next fuel ⟨32 :: text ++ 10 :: tail, 0,
        line + blanks⟩).bind (assignValue (Page.at ⟨root, current,
          List.replicate blanks 10 ++ (key ++ 32 :: 61 :: 32 :: text) ++
            10 :: tail⟩ line) key)).map some := by
  obtain ⟨first, more, rfl, starts, notBracket⟩ := bare.starts
  have skipped := skipWsAndComments_plain
    (more ++ 32 :: 61 :: 32 :: text ++ 10 :: tail) line blanks starts
  have path := parseDottedPath_bare (32 :: 61 :: 32 :: (text ++ 10 :: tail))
    61 (32 :: (text ++ 10 :: tail)) 0 (line + blanks) bare
    ⟨32, _, rfl, by decide⟩ rfl (by decide)
  have equals : skipWsInline ⟨61 :: 32 :: (text ++ 10 :: tail), 0,
      line + blanks⟩ = ⟨61 :: 32 :: (text ++ 10 :: tail), 0,
        line + blanks⟩ := skipWsInline_plain (by decide)
  simp only [List.cons_append, List.append_assoc] at skipped path
  simp only [parseStatement, Page.at, List.cons_append,
    List.append_assoc, skipped]
  split
  · rename_i isNil
    cases isNil
  · rename_i isBracket
    exact absurd (List.cons.inj isBracket).1 notBracket
  · simp only [parseAssignment, path, bind, Except.bind, equals, Cursor.to,
      List.getLast?_singleton, Option.getD_some, List.dropLast_singleton,
      List.append_nil]
    rfl

theorem parseStatement_assign {root changed : Table} {current : List Bytes}
    {key text tail : Bytes} {value : Node} {line : Nat} (blanks : Nat)
    (bare : BareKey key) (reads : ReadsValue next fuel text value)
    (assigned : descend (fun table => some (tableSet table key value))
      current root = some changed) :
    parseStatement next fuel (Page.at ⟨root, current,
        List.replicate blanks 10 ++ (key ++ 32 :: 61 :: 32 :: text) ++
          10 :: tail⟩ line) =
      .ok (some (Page.at ⟨changed, current, 10 :: tail⟩ (line + blanks))) := by
  have lineEnd : skipWsInline ⟨10 :: tail, 0, line + blanks⟩ =
      ⟨10 :: tail, 0, line + blanks⟩ := skipWsInline_plain (by decide)
  rw [parseStatement_line blanks bare, reads tail (line + blanks)]
  simp only [Except.bind, Except.map, assignValue, Page.at, assigned, lineEnd]
  rfl

/-- A line `key = value` adds one entry to the current table. -/
theorem Reads.assign {root changed : Table} {current : List Bytes}
    {key text : Bytes} {value : Node} (tail : Bytes) (blanks : Nat)
    (bare : BareKey key) (reads : ReadsValue next fuel text value)
    (assigned : descend (fun table => some (tableSet table key value))
      current root = some changed) :
    Reads next fuel 1
      ⟨root, current, List.replicate blanks 10 ++
        (key ++ 32 :: 61 :: 32 :: text) ++ 10 :: tail⟩
      ⟨changed, current, 10 :: tail⟩ := by
  intro rounds line
  refine ⟨line + blanks, ?_⟩
  rw [statementLoop, parseStatement_assign blanks bare reads assigned]
  rfl

theorem parseHeader_bare {root changed : Table} {current : List Bytes}
    {key tail : Bytes} {line : Nat} (bare : BareKey key)
    (created : descend some [key] root = some changed) {cursor : Cursor} :
    parseHeader ⟨root, current, cursor⟩ ⟨key ++ 93 :: 10 :: tail, 0, line⟩ =
      .ok (Page.at ⟨changed, [key], 10 :: tail⟩ line) := by
  obtain ⟨first, more, rfl, -, notBracket⟩ := bare.starts
  have path := parseDottedPath_bare (93 :: 10 :: tail) 93 (10 :: tail) 0 line
    bare
    ⟨93, _, rfl, by decide⟩ rfl (by decide)
  have closing : skipWsInline ⟨93 :: 10 :: tail, 0, line⟩ =
      ⟨93 :: 10 :: tail, 0, line⟩ := skipWsInline_plain (by decide)
  simp only [List.cons_append] at path
  simp [parseHeader, notBracket, path, bind, Except.bind, closing,
    skipClosing, Cursor.to, created, Page.at]

theorem bracket_starts : StartsStatement 91 :=
  ⟨by decide, by decide, by decide, by decide⟩

/-- A line `[key]` makes a table current. -/
theorem Reads.header {root changed : Table} {key : Bytes}
    (current : List Bytes) (tail : Bytes) (blanks : Nat) (bare : BareKey key)
    (created : descend some [key] root = some changed) :
    Reads next fuel 1
      ⟨root, current, List.replicate blanks 10 ++
        (91 :: key ++ [93]) ++ 10 :: tail⟩
      ⟨changed, [key], 10 :: tail⟩ := by
  intro rounds line
  refine ⟨line + blanks, ?_⟩
  have skipped := skipWsAndComments_plain (key ++ 93 :: 10 :: tail) line
    blanks bracket_starts
  have statement : parseStatement next fuel (Page.at ⟨root, current,
      List.replicate blanks 10 ++ (91 :: key ++ [93]) ++ 10 :: tail⟩ line) =
      .ok (some (Page.at ⟨changed, [key], 10 :: tail⟩ (line + blanks))) := by
    simp only [parseStatement, Page.at, List.cons_append, List.append_assoc,
      List.nil_append, skipped, Cursor.to]
    rw [parseHeader_bare bare created]
    rfl
  rw [statementLoop, statement]
  rfl

/-- A line `[[path]]` adds a table to an array and makes it current. -/
theorem Reads.arrayPath {root changed : Table} {path : List Bytes}
    {key : Bytes} (current : List Bytes) (tail : Bytes) (blanks : Nat)
    (bare : ∀ part ∈ path ++ [key], BareKey part)
    (created : descend (pushTable key) path root = some changed) :
    Reads next fuel 1
      ⟨root, current, List.replicate blanks 10 ++
        (91 :: 91 :: dotted (path ++ [key]) ++ [93, 93]) ++ 10 :: tail⟩
      ⟨changed, path ++ [key], 10 :: tail⟩ := by
  intro rounds line
  refine ⟨line + blanks, ?_⟩
  have skipped := skipWsAndComments_plain
    (91 :: (dotted (path ++ [key]) ++ 93 :: 93 :: 10 :: tail)) line blanks
    bracket_starts
  have isPath := parseDottedPath_keys (93 :: 93 :: 10 :: tail) 93
    (93 :: 10 :: tail) 0 (line + blanks) (by simp) bare
    ⟨93, _, rfl, by decide⟩ rfl (by decide)
  have closing : skipWsInline ⟨93 :: 93 :: 10 :: tail, 0, line + blanks⟩ =
      ⟨93 :: 93 :: 10 :: tail, 0, line + blanks⟩ :=
    skipWsInline_plain (by decide)
  have statement : parseStatement next fuel (Page.at ⟨root, current,
      List.replicate blanks 10 ++ (91 :: 91 :: dotted (path ++ [key]) ++
        [93, 93]) ++ 10 :: tail⟩ line) =
      .ok (some (Page.at ⟨changed, path ++ [key], 10 :: tail⟩
        (line + blanks))) := by
    simp only [parseStatement, Page.at, List.cons_append, List.append_assoc,
      List.nil_append, skipped, Cursor.to]
    simp [parseHeader, isPath, bind, Except.bind, Cursor.to, closing,
      skipClosing, created, Except.map]
  rw [statementLoop, statement]
  rfl

/-- A line `[[key]]` adds a table to an array and makes it current. -/
theorem Reads.arrayHeader {root changed : Table} {key : Bytes}
    (current : List Bytes) (tail : Bytes) (blanks : Nat) (bare : BareKey key)
    (created : pushTable key root = some changed) :
    Reads next fuel 1
      ⟨root, current, List.replicate blanks 10 ++
        (91 :: 91 :: key ++ [93, 93]) ++ 10 :: tail⟩
      ⟨changed, [key], 10 :: tail⟩ := by
  have single := @Reads.arrayPath next fuel root changed [] key current tail
    blanks (by simpa using bare) created
  simpa [dotted] using single

/-- A text of line ends only is read to its end. -/
theorem statementLoop_blank {root : Table} {current : List Bytes}
    (blanks rounds line : Nat) :
    statementLoop next fuel (rounds + 1)
        (Page.at ⟨root, current, List.replicate blanks 10⟩ line) =
      .ok root := by
  have skipped : ∀ line, skipBlank false (List.replicate blanks 10) line =
      ([], line + blanks) := by
    induction blanks with
    | zero => intro line; rfl
    | succ blanks induction =>
        intro line
        simp [List.replicate_succ, skipBlank, induction]
        omega
  simp [statementLoop, parseStatement, Page.at, skipWsAndComments, skipped,
    bind, Except.bind]

/-- A document whose lines lead to a blank text is the tree they built.  The
reading starts at a line end before the text. -/
theorem Reads.parse {text : Bytes} {root : Table} {current : List Bytes}
    {count : Nat} (blanks : Nat)
    (reads : Reads next fuel count ⟨[], [], 10 :: text⟩
      ⟨root, current, List.replicate blanks 10⟩)
    (enough : count ≤ text.length) : parse next fuel text = .ok root := by
  obtain ⟨line, toEnd⟩ := reads (text.length + 1 - count) 0
  have rounds : text.length + 1 - count + count = text.length + 1 := by omega
  have start : statementLoop next fuel (text.length + 1)
      (Page.at ⟨[], [], 10 :: text⟩ 0) =
      statementLoop next fuel (text.length + 1)
        (Page.at ⟨[], [], text⟩ 1) := by
    simp only [statementLoop, parseStatement, Page.at, skipWsAndComments,
      skipBlank]
    rfl
  rw [rounds, start] at toEnd
  change statementLoop next fuel (text.length + 1)
    (Page.at ⟨[], [], text⟩ 1) = _
  rw [toEnd, show text.length + 1 - count = (text.length - count) + 1 by
    omega, statementLoop_blank]

/-! ## Groups of lines -/

/-- A line of a generated document. -/
structure Line where
  key : Bytes
  value : Bytes
  node : Node

def Line.emit (line : Line) : Bytes :=
  line.key ++ ascii " = " ++ line.value ++ [10]

/-- A line whose value is read back as its node. -/
structure Line.Ok (next : UInt8) (fuel : Nat) (line : Line) : Prop where
  bare : BareKey line.key
  reads : ReadsValue next fuel line.value line.node

def setLines (table : Table) (lines : List Line) : Table :=
  lines.foldl (fun table line => tableSet table line.key line.node) table

theorem tableGet_setLines_other {table : Table} {lines : List Line}
    {key : Bytes} (other : key ∉ lines.map Line.key) :
    tableGet (setLines table lines) key = tableGet table key := by
  induction lines generalizing table with
  | nil => rfl
  | cons line lines induction =>
      simp only [List.map_cons, List.mem_cons, not_or] at other
      rw [setLines, List.foldl_cons, ← setLines, induction other.2,
        tableGet_tableSet, if_neg (Ne.symm other.1)]

/-- With distinct keys, every line is found under its key. -/
theorem tableGet_setLines {table : Table} {lines : List Line} {line : Line}
    (distinct : (lines.map Line.key).Nodup) (member : line ∈ lines) :
    tableGet (setLines table lines) line.key = some line.node := by
  induction lines generalizing table with
  | nil => cases member
  | cons first lines induction =>
      simp only [List.map_cons, List.nodup_cons] at distinct
      rw [setLines, List.foldl_cons, ← setLines]
      rcases List.mem_cons.mp member with rfl | later
      · rw [tableGet_setLines_other distinct.1, tableGet_tableSet,
          if_pos rfl]
      · exact induction distinct.2 later

theorem tableSet_new {table : Table} {key : Bytes} {value : Node}
    (new : key ∉ table.map Prod.fst) :
    tableSet table key value = table ++ [(key, value)] := by
  induction table with
  | nil => rfl
  | cons entry rest induction =>
      simp only [List.map_cons, List.mem_cons, not_or] at new
      simp [tableSet, Ne.symm new.1, induction new.2]

/-- With distinct new keys, the lines are the entries in their order. -/
theorem setLines_distinct (table : Table) {lines : List Line}
    (distinct : (table.map Prod.fst ++ lines.map Line.key).Nodup) :
    setLines table lines =
      table ++ lines.map (fun line => (line.key, line.node)) := by
  induction lines generalizing table with
  | nil => simp [setLines]
  | cons line lines induction =>
      have new : line.key ∉ table.map Prod.fst := fun member =>
        (List.nodup_append.mp distinct).2.2 _ member _
          (by simp) rfl
      rw [setLines, List.foldl_cons, ← setLines, tableSet_new new, induction]
      · simp
      · simpa using distinct

/-- `place` puts a table where the current path leads. -/
def IsPlace (current : List Bytes) (place : Table → Table) : Prop :=
  ∀ change child, descend change current (place child) =
    (change child).map place

theorem isPlace_root : IsPlace [] id :=
  fun change child => by simp [descend]

theorem isPlace_tab (table : Table) (key : Bytes) :
    IsPlace [key] (fun child => tableSet table key (.tab child)) :=
  fun _ _ => descend_tab

theorem isPlace_arr (table : Table) (key : Bytes) (items : List Node) :
    IsPlace [key]
      (fun child => tableSet table key (.arr (items ++ [.tab child]))) :=
  fun _ _ => descend_arr

theorem descend_append (change : Table → Option Table)
    (outer inner : List Bytes) (table : Table) :
    descend change (outer ++ inner) table =
      descend (descend change inner) outer table := by
  induction outer generalizing table with
  | nil => rfl
  | cons key outer induction =>
      simp only [List.cons_append, descend, induction]

/-- A place inside a place. -/
theorem IsPlace.append {outer inner : List Bytes}
    {place innerPlace : Table → Table} (isPlace : IsPlace outer place)
    (isInner : IsPlace inner innerPlace) :
    IsPlace (outer ++ inner) fun child => place (innerPlace child) := by
  intro change child
  rw [descend_append, isPlace, isInner, Option.map_map]
  rfl

/-- A group of lines fills the current table. -/
theorem Reads.lines {current : List Bytes} {place : Table → Table}
    (isPlace : IsPlace current place) {lines : List Line}
    (ok : ∀ line ∈ lines, line.Ok next fuel) (child : Table) (rest : Bytes) :
    Reads next fuel lines.length
      ⟨place child, current, 10 :: (lines.flatMap Line.emit ++ rest)⟩
      ⟨place (setLines child lines), current, 10 :: rest⟩ := by
  induction lines generalizing child with
  | nil => exact Reads.refl _
  | cons line lines induction =>
      have isOk := ok line List.mem_cons_self
      have first := Reads.assign (lines.flatMap Line.emit ++ rest) 1 isOk.bare
        isOk.reads (isPlace _ child)
      have others := induction
        (fun other member => ok other (List.mem_cons_of_mem line member))
        (tableSet child line.key line.node)
      rw [List.length_cons, Nat.add_comm]
      refine Reads.trans ?_ others
      simpa [Line.emit, ascii] using first

/-- A section that the tree does not have yet is created empty. -/
theorem descend_new {table : Table} {key : Bytes}
    (new : tableGet table key = none) :
    descend some [key] table = some (tableSet table key (.tab [])) := by
  simp [descend, new]

/-- The text of a section behind a line end. -/
def emitSection (key : Bytes) (lines : List Line) : Bytes :=
  10 :: (91 :: key ++ [93]) ++ 10 :: lines.flatMap Line.emit

/-- A section adds one table to the tree. -/
theorem Reads.section {table : Table} {key : Bytes} {lines : List Line}
    (current : List Bytes) (bare : BareKey key)
    (new : tableGet table key = none)
    (ok : ∀ line ∈ lines, line.Ok next fuel) (rest : Bytes) :
    Reads next fuel (1 + lines.length)
      ⟨table, current, 10 :: (emitSection key lines ++ rest)⟩
      ⟨tableSet table key (.tab (setLines [] lines)), [key], 10 :: rest⟩ := by
  have opened : Reads next fuel 1 _ _ := Reads.header current
    (lines.flatMap Line.emit ++ rest) 2 bare (descend_new new)
  have filled := Reads.lines (isPlace_tab table key) ok [] rest
  refine Reads.trans ?_ filled
  simpa [emitSection] using opened

theorem length_emit (lines : List Line) :
    lines.length ≤ (lines.flatMap Line.emit).length := by
  induction lines with
  | nil => simp
  | cons line lines induction =>
      have positive : 1 ≤ line.emit.length := by
        simp only [Line.emit, List.length_append, List.length_singleton]
        omega
      simp only [List.flatMap_cons, List.length_append, List.length_cons]
      omega

theorem length_emitSection (key : Bytes) (lines : List Line) :
    1 + lines.length ≤ (emitSection key lines).length := by
  have lines := length_emit lines
  simp only [emitSection, List.length_append, List.length_cons]
  omega

/-- The tree of a group of lines and a section behind it. -/
def sectionTable (base : List Line) (key : Bytes) (lines : List Line) :
    Table :=
  tableSet (setLines [] base) key (.tab (setLines [] lines))

theorem tableGet_base {base : List Line} {key : Bytes}
    (new : key ∉ base.map Line.key) :
    tableGet (setLines [] base) key = none := by
  rw [tableGet_setLines_other new]
  rfl

/-- A document of a group of lines, a section and perhaps a second one. -/
theorem parse_sections {base first second : List Line}
    {firstKey secondKey : Bytes}
    (baseOk : ∀ line ∈ base, line.Ok next fuel)
    (firstOk : ∀ line ∈ first, line.Ok next fuel)
    (secondOk : ∀ line ∈ second, line.Ok next fuel)
    (firstBare : BareKey firstKey) (secondBare : BareKey secondKey)
    (firstNew : firstKey ∉ base.map Line.key)
    (secondNew : secondKey ∉ base.map Line.key)
    (differ : firstKey ≠ secondKey) :
    parse next fuel (base.flatMap Line.emit ++
        (emitSection firstKey first ++
          if second = [] then [] else emitSection secondKey second)) =
      .ok (if second = [] then sectionTable base firstKey first
        else tableSet (sectionTable base firstKey first) secondKey
          (.tab (setLines [] second))) := by
  have newSection : tableGet (sectionTable base firstKey first) secondKey =
      none := by
    rw [sectionTable, tableGet_tableSet, if_neg differ,
      tableGet_base secondNew]
  have readBase := Reads.lines isPlace_root baseOk []
  have readFirst := Reads.section [] firstBare
    (tableGet_base firstNew) firstOk
  have readSecond := Reads.section [firstKey] secondBare
    newSection secondOk []
  have baseLength := length_emit base
  have firstLength := length_emitSection firstKey first
  have secondLength := length_emitSection secondKey second
  by_cases none : second = []
  · rw [if_pos none, if_pos none]
    refine Reads.parse 1 ((readBase _).trans (readFirst [])) ?_
    simp only [List.length_append, List.length_nil]
    omega
  · rw [if_neg none, if_neg none,
      ← List.append_nil (emitSection secondKey second)]
    refine Reads.parse 1
      ((readBase _).trans ((readFirst _).trans readSecond)) ?_
    simp only [List.length_append, List.length_nil]
    omega

end

/-! ## Fuel -/

theorem Returns.unique {α : Type} {run : Nat → Except Stop α} {left right : α}
    (first : Returns run left) (second : Returns run right) :
    left = right := by
  obtain ⟨firstBound, isLeft⟩ := first
  obtain ⟨secondBound, isRight⟩ := second
  have same := (isLeft (firstBound + secondBound) (by omega)).symm.trans
    (isRight (firstBound + secondBound) (by omega))
  exact Except.ok.inj same

theorem Returns.of_succ {α : Type} {run : Nat → Except Stop α} {result : α}
    (returns : ∀ fuel, run (fuel + 1) = .ok result) : Returns run result := by
  refine ⟨1, ?_⟩
  intro fuel enough
  obtain ⟨rounds, rfl⟩ := Nat.exists_eq_add_of_le' enough
  exact returns rounds

end SaltOS.Toml
