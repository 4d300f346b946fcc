import SaltOS.Repo.Index

/-!
# The index is read back

An entry is a record of fields.  Summary and lists are escaped and always
come back; the other strings are printed as they are and come back only when
they are plain.
-/

namespace SaltOS.Repo

open Toml

/-! ## Escaped fields -/

theorem quoteByte_spells (byte : UInt8) (encoded text : Bytes)
    (spells : Spells encoded text) :
    Spells (quoteByte byte ++ encoded) (byte :: text) := by
  by_cases special : byte = 34 ∨ byte = 92 ∨ byte = 10
  · rcases special with rfl | rfl | rfl <;> exact .escape rfl spells
  · simp only [not_or] at special
    simpa [quoteByte, special] using
      Spells.plain special.1 special.2.1 special.2.2 spells

theorem tomlQuote_spells (text : Bytes) :
    Spells (text.flatMap quoteByte) text :=
  .flatMap quoteByte_spells text

def textField (key : String) (text : Bytes) : Field where
  key := key
  value := some (tomlQuote text, .str text)

def listValue (items : List Bytes) : Bytes × Node :=
  ([91] ++ (ascii ", ").intercalate (items.map tomlQuote) ++ [93],
    .arr (items.map Node.str))

theorem readsValue_listValue {next : UInt8} {fuel : Nat}
    {items : List Bytes} (noNul : ∀ item ∈ items, 0 ∉ item)
    (enough : items.length + 1 < fuel) :
    ReadsValue next fuel (listValue items).1 (listValue items).2 := by
  have quotes : items.map tomlQuote =
      (items.map fun item => item.flatMap quoteByte).map quoted := by
    rw [List.map_map]
    rfl
  unfold listValue
  rw [quotes, ← quotedItems_eq]
  apply readsValue_items _ noNul enough
  rw [List.forall₂_map_left_iff, List.forall₂_same]
  exact fun item _ => tomlQuote_spells item

theorem emitList_eq {key : String} (short : (ascii key).length ≤ 100)
    (items : List Bytes) :
    emitList key items =
      (Field.lines ⟨key, some (listValue items)⟩).flatMap Line.emit := by
  have fits : (ascii key ++ ascii " = [").length < 2 ^ 31 := by
    have bracket : (ascii " = [").length = 4 := rfl
    rw [List.length_append, bracket]
    omega
  rw [emitList, bufPrintf_eq fits]
  simp [Field.lines, Line.emit, listValue, ascii]

/-! ## Entries as records -/

/-- Entries as `salt_repo_build_index` makes them: C strings, an `int`, and a
size that a signed number holds. -/
structure Entry.WellFormed (entry : Entry) : Prop where
  name : 0 ∉ entry.name
  version : 0 ∉ entry.version
  releaseLow : -2 ^ 31 ≤ entry.release
  releaseHigh : entry.release < 2 ^ 31
  arch : 0 ∉ entry.arch
  filename : 0 ∉ entry.filename
  url : ∀ url, entry.url = some url → url ≠ [] ∧ 0 ∉ url
  sha256 : 0 ∉ entry.sha256
  size : entry.size < 2 ^ 63
  summary : 0 ∉ entry.summary
  deps : ∀ dep ∈ entry.deps, 0 ∉ dep
  conflicts : ∀ conflict ∈ entry.conflicts, 0 ∉ conflict

/-- The strings of an entry that are printed as they are. -/
def Entry.printed (entry : Entry) : List (String × Bytes) :=
  [("name", entry.name), ("version", entry.version), ("arch", entry.arch),
    ("filename", entry.filename), ("sha256", entry.sha256)] ++
  (entry.url.map fun url => ("url", url)).toList

theorem Entry.WellFormed.printed {entry : Entry}
    (wellFormed : entry.WellFormed) :
    ∀ field ∈ entry.printed, 0 ∉ field.2 := by
  intro field member
  simp only [Entry.printed, List.cons_append, List.nil_append,
    List.mem_cons, Option.mem_toList, Option.map_eq_some_iff] at member
  rcases member with rfl | rfl | rfl | rfl | rfl | ⟨url, isUrl, rfl⟩
  · exact wellFormed.name
  · exact wellFormed.version
  · exact wellFormed.arch
  · exact wellFormed.filename
  · exact wellFormed.sha256
  · exact (wellFormed.url url isUrl).2

def urlField (url : Option Bytes) : Field where
  key := "url"
  value := if url.getD [] = [] then none
    else (printedField "url" (url.getD [])).value

def conflictsField (conflicts : List Bytes) : Field where
  key := "conflicts"
  value := if conflicts = [] then none else some (listValue conflicts)

def Entry.fields (entry : Entry) : List Field :=
  [printedField "name" entry.name, printedField "version" entry.version,
    numberField "release" (printInt entry.release) entry.release,
    printedField "arch" entry.arch, printedField "filename" entry.filename,
    urlField entry.url, printedField "sha256" entry.sha256,
    numberField "size" (printBase 10 entry.size) entry.size,
    textField "summary" entry.summary,
    ⟨"deps", some (listValue entry.deps)⟩, conflictsField entry.conflicts]

def packageKey : Bytes := ascii "package"

theorem emitEntry_eq {entry : Entry} (wellFormed : entry.WellFormed) :
    emitEntry entry =
      [10] ++ (emitTable packageKey (recordLines entry.fields) ++ []) := by
  have release := (intText_int wellFormed.releaseLow
    wellFormed.releaseHigh).short
  have size := (intText_nat wellFormed.size).short
  have releaseKey : (ascii "release").length = 7 := rfl
  have sizeKey : (ascii "size").length = 4 := rfl
  have header : ascii "\n[[package]]\n" =
      [10] ++ (91 :: 91 :: packageKey ++ [93, 93, 10]) := rfl
  have url : (if entry.url.getD [] = [] then []
      else printString "url" (entry.url.getD [])) =
        (urlField entry.url).lines.flatMap Line.emit := by
    unfold urlField
    split
    · rfl
    · rw [printString_eq]
      rfl
  have conflicts : (if entry.conflicts = [] then []
      else emitList "conflicts" entry.conflicts) =
        (conflictsField entry.conflicts).lines.flatMap Line.emit := by
    unfold conflictsField
    split
    · rfl
    · rw [emitList_eq (by decide)]
  have summary : ascii "summary = " ++ tomlQuote entry.summary ++ [10] =
      (textField "summary" entry.summary).lines.flatMap Line.emit := by
    simp [textField, Field.lines, Line.emit, ascii]
  rw [emitEntry, url, conflicts, emitTable, recordLines_flatMap, header,
    printNumber_eq entry.release (by omega),
    printNumber_eq (entry.size : Int) (by omega),
    emitList_eq (by decide : (ascii "deps").length ≤ 100)]
  simp only [printString_eq, Entry.fields, List.flatMap_cons,
    List.flatMap_nil, List.append_nil, List.append_assoc, ← summary,
    List.cons_append, List.nil_append]

theorem fields_distinct (entry : Entry) :
    (entry.fields.map fun field => ascii field.key).Nodup := by
  change (["name", "version", "release", "arch", "filename", "url", "sha256",
    "size", "summary", "deps", "conflicts"].map ascii).Nodup
  decide

/-! ## Entries that are read -/

/-- What is read back for a printed string. -/
def shown (key : String) (text : Bytes) : Option Bytes :=
  if FitsLine key text then some (spelled text) else none

/-- A string is read back exactly when its line is printed and the text
stands for itself. -/
theorem shown_getD_eq {key : String} {text : Bytes}
    (short : (ascii key).length ≤ 100) :
    (shown key text).getD [] = text ↔
      FitsLine key text ∧ spelled text = text := by
  unfold shown
  by_cases fits : FitsLine key text
  · simp [fits]
  · simp only [fits, if_false, Option.getD_none, false_and, iff_false]
    rintro rfl
    apply fits
    unfold FitsLine
    simp only [List.length_nil]
    omega

theorem stringAt_printed {entry : Entry} {key : String} {text : Bytes}
    (member : printedField key text ∈ entry.fields)
    (segment : Segment (ascii key)) :
    stringAt (linesNode (recordLines entry.fields)) key =
      shown key text :=
  stringAt_printedField (fields_distinct entry) member segment

theorem entryFromNode_fields {entry : Entry}
    (wellFormed : entry.WellFormed) :
    entryFromNode (linesNode (recordLines entry.fields)) =
      { entry with
        name := (shown "name" entry.name).getD []
        version := (shown "version" entry.version).getD []
        arch := (shown "arch" entry.arch).getD []
        filename := (shown "filename" entry.filename).getD []
        url := (entry.url.bind (shown "url")).filter (· ≠ [])
        sha256 := (shown "sha256" entry.sha256).getD [] } := by
  have distinct := fields_distinct entry
  have release : intAt (linesNode (recordLines entry.fields)) "release" 1 =
      entry.release :=
    intAt_record distinct 1 (by simp [Entry.fields] :
      numberField "release" (printInt entry.release) entry.release ∈
        entry.fields) (by decide)
  have size : intAt (linesNode (recordLines entry.fields)) "size" 0 =
      entry.size :=
    intAt_record distinct 0 (by simp [Entry.fields] :
      numberField "size" (printBase 10 entry.size) entry.size ∈
        entry.fields) (by decide)
  have url : stringAt (linesNode (recordLines entry.fields)) "url" =
      entry.url.bind (shown "url") := by
    rw [stringAt_record distinct
      (by simp [Entry.fields] : urlField entry.url ∈ entry.fields)
      (by decide)]
    cases isUrl : entry.url with
    | none => rfl
    | some url =>
        have nonempty := (wellFormed.url url isUrl).1
        simp only [Option.getD_some, nonempty, if_false, Option.bind_some]
        exact printedField_value "url" url
  have summary : stringAt (linesNode (recordLines entry.fields)) "summary" =
      some entry.summary := by
    rw [stringAt_record distinct (by simp [Entry.fields] :
      textField "summary" entry.summary ∈ entry.fields) (by decide)]
    rfl
  have deps : stringArrayAt (linesNode (recordLines entry.fields)) "deps" =
      entry.deps :=
    stringArrayAt_record distinct (by simp [Entry.fields] :
      ⟨"deps", some (listValue entry.deps)⟩ ∈ entry.fields) rfl (by decide)
  have conflicts : stringArrayAt (linesNode (recordLines entry.fields))
      "conflicts" = entry.conflicts := by
    apply stringArrayAt_record distinct (by simp [Entry.fields] :
      conflictsField entry.conflicts ∈ entry.fields) _ (by decide)
    by_cases empty : entry.conflicts = []
    · simp [empty]
    · simp [empty, listValue]
  have sizeWide : ((entry.size : Int) % 2 ^ 64).toNat = entry.size := by
    have small := wellFormed.size
    omega
  simp only [entryFromNode, release, size, url, summary, deps, conflicts,
    sizeWide, Pkg.toInt32_eq wellFormed.releaseLow wellFormed.releaseHigh,
    Option.getD_some,
    stringAt_printed (by simp [Entry.fields] :
      printedField "name" entry.name ∈ entry.fields) (by decide),
    stringAt_printed (by simp [Entry.fields] :
      printedField "version" entry.version ∈ entry.fields) (by decide),
    stringAt_printed (by simp [Entry.fields] :
      printedField "arch" entry.arch ∈ entry.fields) (by decide),
    stringAt_printed (by simp [Entry.fields] :
      printedField "filename" entry.filename ∈ entry.fields) (by decide),
    stringAt_printed (by simp [Entry.fields] :
      printedField "sha256" entry.sha256 ∈ entry.fields) (by decide)]

/-- An entry is read back exactly when each of its printed strings is. -/
theorem entryFromNode_eq_iff {entry : Entry}
    (wellFormed : entry.WellFormed) :
    entryFromNode (linesNode (recordLines entry.fields)) = entry ↔
      ∀ field ∈ entry.printed,
        FitsLine field.1 field.2 ∧ spelled field.2 = field.2 := by
  have url : (entry.url.bind (shown "url")).filter (· ≠ []) = entry.url ↔
      ∀ url ∈ entry.url, FitsLine "url" url ∧ spelled url = url := by
    cases isUrl : entry.url with
    | none => simp
    | some url =>
        have nonempty := (wellFormed.url url isUrl).1
        by_cases fits : FitsLine "url" url
        · simp only [Option.bind_some, shown, fits, if_true, true_and,
            Option.mem_def, Option.some.injEq, forall_eq']
          constructor
          · intro same
            exact (Option.filter_eq_some_iff.mp same).1 |> Option.some.inj
          · intro same
            rw [same]
            exact Option.filter_eq_some_iff.mpr ⟨rfl, by simpa⟩
        · simp [shown, fits]
  rw [entryFromNode_fields wellFormed]
  simp only [Entry.ext_iff, and_true, true_and, url, Entry.printed,
    shown_getD_eq (by decide : (ascii "name").length ≤ 100),
    shown_getD_eq (by decide : (ascii "version").length ≤ 100),
    shown_getD_eq (by decide : (ascii "arch").length ≤ 100),
    shown_getD_eq (by decide : (ascii "filename").length ≤ 100),
    shown_getD_eq (by decide : (ascii "sha256").length ≤ 100),
    List.forall_mem_append, List.forall_mem_cons]
  have listed : (∀ field ∈ (entry.url.map fun url => ("url", url)).toList,
      FitsLine field.1 field.2 ∧ spelled field.2 = field.2) ↔
        ∀ url ∈ entry.url, FitsLine "url" url ∧ spelled url = url := by
    cases entry.url <;> simp
  rw [listed]
  simp only [List.not_mem_nil, false_implies, implies_true, and_true]
  tauto

/-! ## The whole index -/

structure Index.WellFormed (index : Index) : Prop where
  repoName : 0 ∉ index.repoName.getD []
  arch : 0 ∉ index.arch.getD []
  items : ∀ entry ∈ index.items, entry.WellFormed

/-- The strings in front of the entries, printed as they are. -/
def Index.printed (index : Index) : List (String × Bytes) :=
  [("repo", index.repoName.getD (ascii "current")),
    ("arch", index.arch.getD [])]

def Index.fields (index : Index) : List Field :=
  index.printed.map fun field => printedField field.1 field.2

/-- The index that is written is loaded with the same entries. -/
def Index.RoundTrips (index : Index) : Prop :=
  ∃ bound, ∀ fuel ≥ bound, ∃ loaded,
    indexLoad 0 fuel (indexToToml index) = .ok loaded ∧
      loaded.items = index.items

/-- No entry has a quote, a backslash or a line end in a string that is printed
as it is, and what stands in front of the entries spells something. -/
structure Index.Plain (index : Index) : Prop where
  header : ∀ field ∈ index.printed,
    FitsLine field.1 field.2 → ∃ source, Spells field.2 source
  entries : ∀ entry ∈ index.items, ∀ field ∈ entry.printed,
    FitsLine field.1 field.2 ∧ PlainText field.2

/-- No string that is printed as it is holds a quote. -/
structure Index.QuoteFree (index : Index) : Prop where
  header : ∀ field ∈ index.printed, 34 ∉ field.2
  entries : ∀ entry ∈ index.items, ∀ field ∈ entry.printed, 34 ∉ field.2

/-- The lines of each entry. -/
def Index.groups (index : Index) : List (List Line) :=
  index.items.map fun entry => recordLines entry.fields

theorem Index.forall_groups {index : Index} {holds : Line → Prop} :
    (∀ group ∈ index.groups, ∀ line ∈ group, holds line) ↔
      ∀ entry ∈ index.items, ∀ line ∈ recordLines entry.fields,
        holds line := by
  simp [Index.groups]

theorem packageKey_new (index : Index) :
    packageKey ∉ (recordLines index.fields).map Line.key := by
  intro member
  have inKeys := (keys_recordLines index.fields).subset member
  have other : packageKey ∉ ["repo", "arch"].map ascii := by decide
  exact other inKeys

theorem indexToToml_eq {index : Index} (wellFormed : index.WellFormed) :
    indexToToml index = (recordLines index.fields).flatMap Line.emit ++
      emitTables 1 0 packageKey index.groups := by
  have entries : index.items.flatMap emitEntry =
      emitTables 1 0 packageKey index.groups := by
    rw [emitTables, Index.groups, List.flatMap_map]
    apply List.flatMap_congr
    intro entry member
    exact emitEntry_eq (wellFormed.items entry member)
  rw [indexToToml, entries, recordLines_flatMap]
  simp [Index.fields, Index.printed, printString_eq]

section

variable {next : UInt8} {fuel : Nat} {holds : Line → Prop}

/-- What holds of the lines that are read and of the printed ones holds of
every line of an entry. -/
theorem entry_lines {entry : Entry} (wellFormed : entry.WellFormed)
    (enough : entry.deps.length + entry.conflicts.length + 2 < fuel)
    (ok : ∀ line : Line, line.Ok next fuel → holds line)
    (printed : ∀ field ∈ entry.printed,
      ∀ line ∈ (printedField field.1 field.2).lines, holds line) :
    ∀ line ∈ recordLines entry.fields, holds line := by
  obtain ⟨fuel, rfl⟩ : ∃ rounds, fuel = rounds + 1 := ⟨fuel - 1, by omega⟩
  have release : ReadsValue next (fuel + 1) _ _ := readsValue_int
    (intText_int wellFormed.releaseLow wellFormed.releaseHigh)
  have size : ReadsValue next (fuel + 1) _ _ :=
    readsValue_int (intText_nat wellFormed.size)
  have summary : ReadsValue next (fuel + 1) (tomlQuote entry.summary) _ :=
    readsValue_text (tomlQuote_spells entry.summary) wellFormed.summary
  have deps : ReadsValue next (fuel + 1) _ _ :=
    readsValue_listValue wellFormed.deps (by omega)
  have conflicts : ReadsValue next (fuel + 1) _ _ :=
    readsValue_listValue wellFormed.conflicts (by omega)
  intro line member
  obtain ⟨field, inFields, isLine⟩ := mem_recordLines.mp member
  simp only [Entry.fields, List.mem_cons, List.not_mem_nil, or_false]
    at inFields
  rcases inFields with rfl | rfl | rfl | rfl | rfl | rfl | rfl | rfl | rfl |
    rfl | rfl
  · exact printed ("name", _) (by simp [Entry.printed]) line isLine
  · exact printed ("version", _) (by simp [Entry.printed]) line isLine
  · exact ok line (Field.lines_ok (by decide) release line isLine)
  · exact printed ("arch", _) (by simp [Entry.printed]) line isLine
  · exact printed ("filename", _) (by simp [Entry.printed]) line isLine
  · cases isUrl : entry.url with
    | none => simp [urlField, Field.lines, isUrl] at isLine
    | some url =>
        have nonempty := (wellFormed.url url isUrl).1
        apply printed ("url", url) (by simp [Entry.printed, isUrl]) line
        simpa [urlField, Field.lines, isUrl, nonempty, printedField]
          using isLine
  · exact printed ("sha256", _) (by simp [Entry.printed]) line isLine
  · exact ok line (Field.lines_ok (by decide) size line isLine)
  · exact ok line (Field.lines_ok (by decide) summary line isLine)
  · exact ok line (Field.lines_ok (by decide) deps line isLine)
  · by_cases empty : entry.conflicts = []
    · simp [conflictsField, Field.lines, empty] at isLine
    · apply ok line
      apply Field.lines_ok (by decide : BareKey (ascii "conflicts"))
        conflicts line
      simpa [conflictsField, Field.lines, empty] using isLine

/-- The lines of the printed strings are lines of the entry. -/
theorem mem_fields_of_printed {entry : Entry}
    (wellFormed : entry.WellFormed) {field : String × Bytes}
    (member : field ∈ entry.printed) {line : Line}
    (isLine : line ∈ (printedField field.1 field.2).lines) :
    line ∈ recordLines entry.fields := by
  rw [mem_recordLines]
  simp only [Entry.printed, List.cons_append, List.nil_append,
    List.mem_cons, Option.mem_toList, Option.map_eq_some_iff] at member
  rcases member with rfl | rfl | rfl | rfl | rfl | ⟨url, isUrl, rfl⟩
  case inr.inr.inr.inr.inr =>
    have nonempty := (wellFormed.url url isUrl).1
    refine ⟨urlField entry.url, by simp [Entry.fields], ?_⟩
    simpa [urlField, Field.lines, isUrl, nonempty, printedField] using isLine
  all_goals exact ⟨_, by simp [Entry.fields], isLine⟩

/-- Enough fuel for the lists of every entry. -/
def Index.rounds (index : Index) : Nat :=
  3 + (index.items.flatMap fun entry => entry.deps ++ entry.conflicts).length

theorem Index.rounds_le {index : Index} {entry : Entry}
    (member : entry ∈ index.items) :
    entry.deps.length + entry.conflicts.length + 3 ≤ index.rounds := by
  obtain ⟨before, after, isItems⟩ := List.append_of_mem member
  simp only [Index.rounds, isItems, List.flatMap_append, List.flatMap_cons,
    List.length_append]
  omega

theorem Index.printed_bare {index : Index} :
    ∀ field ∈ index.printed, BareKey (ascii field.1) := by
  have bare : ∀ key ∈ ["repo", "arch"], BareKey (ascii key) := by decide
  intro field member
  apply bare
  exact List.mem_map_of_mem member

theorem Entry.printed_bare {entry : Entry} :
    ∀ field ∈ entry.printed, BareKey (ascii field.1) := by
  have bare : ∀ key ∈ ["name", "version", "arch", "filename", "sha256",
      "url"], BareKey (ascii key) := by decide
  intro field member
  apply bare
  simp only [Entry.printed, List.cons_append, List.nil_append,
    List.mem_cons, Option.mem_toList, Option.map_eq_some_iff] at member
  rcases member with rfl | rfl | rfl | rfl | rfl | ⟨url, -, rfl⟩ <;> simp

/-- The tree of the written text, when its lines are read. -/
theorem indexLoad_ok {index : Index} (wellFormed : index.WellFormed)
    (header : ∀ line ∈ recordLines index.fields, line.Ok next fuel)
    (entries : ∀ entry ∈ index.items,
      ∀ line ∈ recordLines entry.fields, line.Ok next fuel) :
    ∃ loaded, indexLoad next fuel (indexToToml index) = .ok loaded ∧
      loaded.items = index.items.map fun entry =>
        entryFromNode (linesNode (recordLines entry.fields)) := by
  have new := packageKey_new index
  have parsed := parse_tables 1 0 (by decide : BareKey packageKey) header
    new (Index.forall_groups.mpr entries)
  rw [← indexToToml_eq wellFormed] at parsed
  refine ⟨_, by rw [indexLoad, parsed]; rfl, ?_⟩
  change (arrayItems (tableGet _ packageKey)).map entryFromNode = _
  rw [arrayItems_withTables (tableGet_base new), Index.groups,
    List.map_map, List.map_map]
  rfl

theorem map_eq_self_iff {α : Type} (change : α → α) (items : List α) :
    items.map change = items ↔ ∀ item ∈ items, change item = item := by
  conv =>
    lhs
    rhs
    rw [← List.map_id items]
  exact List.map_eq_map_iff

/-- Lines in front of the entries. -/
theorem header_lines {index : Index}
    (printed : ∀ field ∈ index.printed,
      ∀ line ∈ (printedField field.1 field.2).lines, holds line) :
    ∀ line ∈ recordLines index.fields, holds line := by
  intro line member
  obtain ⟨field, inFields, isLine⟩ := mem_recordLines.mp member
  obtain ⟨pair, inPrinted, rfl⟩ := List.mem_map.mp inFields
  exact printed pair inPrinted line isLine

/-- An index whose printed strings are plain is read back. -/
theorem Index.Plain.roundTrips {index : Index}
    (wellFormed : index.WellFormed) (plain : index.Plain) :
    index.RoundTrips := by
  refine ⟨index.rounds, ?_⟩
  intro fuel enough
  obtain ⟨fuel, rfl⟩ : ∃ rounds, fuel = rounds + 1 :=
    ⟨fuel - 1, by unfold Index.rounds at enough; omega⟩
  have header : ∀ line ∈ recordLines index.fields,
      line.Ok 0 (fuel + 1) := by
    apply header_lines
    intro field member
    exact printedField_ok (Index.printed_bare field member)
      (plain.header field member)
  have entries : ∀ entry ∈ index.items,
      ∀ line ∈ recordLines entry.fields, line.Ok 0 (fuel + 1) := by
    intro entry member
    have rounds := Index.rounds_le member
    refine entry_lines (wellFormed.items entry member) (by omega)
      (fun _ ok => ok) ?_
    intro field inPrinted
    apply printedField_ok (Entry.printed_bare field inPrinted)
    intro fits
    exact ⟨_, (plain.entries entry member field inPrinted).2.spells⟩
  obtain ⟨loaded, isLoaded, items⟩ := indexLoad_ok wellFormed header entries
  refine ⟨loaded, isLoaded, ?_⟩
  rw [items]
  apply (map_eq_self_iff _ _).mpr
  intro entry member
  apply (entryFromNode_eq_iff (wellFormed.items entry member)).mpr
  intro field inPrinted
  obtain ⟨fits, isPlain⟩ := plain.entries entry member field inPrinted
  exact ⟨fits, isPlain.spelled_eq
    ((wellFormed.items entry member).printed field inPrinted)⟩

/-- Without quotes, an index that is read back is plain: every other byte is
either read as itself or stops the parser on its line. -/
theorem Index.RoundTrips.plain {index : Index}
    (wellFormed : index.WellFormed) (quoteFree : index.QuoteFree)
    (roundTrips : index.RoundTrips) : index.Plain := by
  obtain ⟨bound, loads⟩ := roundTrips
  obtain ⟨fuel, enoughBound, enoughRounds⟩ : ∃ fuel, bound ≤ fuel + 1 ∧
      index.rounds ≤ fuel + 1 := ⟨bound + index.rounds, by omega, by omega⟩
  obtain ⟨loaded, isLoaded, same⟩ := loads (fuel + 1) enoughBound
  have header : ∀ line ∈ recordLines index.fields,
      line.Decided 0 (fuel + 1) := by
    apply header_lines
    intro field member
    exact printedField_decided (Index.printed_bare field member)
      (quoteFree.header field member)
  have entries : ∀ entry ∈ index.items,
      ∀ line ∈ recordLines entry.fields, line.Decided 0 (fuel + 1) := by
    intro entry member
    have rounds := Index.rounds_le member
    refine entry_lines (wellFormed.items entry member) (by omega)
      (fun _ ok => .inl ok) ?_
    intro field inPrinted
    exact printedField_decided (Entry.printed_bare field inPrinted)
      (quoteFree.entries entry member field inPrinted)
  rcases parse_ok_or_fail 1 0 (by decide : BareKey packageKey)
    (packageKey_new index) header (Index.forall_groups.mpr entries) with
    ⟨headerOk, groupsOk⟩ | ⟨message, failed⟩
  · have entriesOk := Index.forall_groups.mp groupsOk
    obtain ⟨other, isOther, items⟩ :=
      indexLoad_ok wellFormed headerOk entriesOk
    obtain rfl : loaded = other := Except.ok.inj (isLoaded.symm.trans isOther)
    have readBack := (map_eq_self_iff _ _).mp (items.symm.trans same)
    constructor
    · intro field member fits
      apply spells_of_ok (quoteFree.header field member) fits
      intro line isLine
      exact headerOk line (mem_recordLines.mpr
        ⟨_, List.mem_map_of_mem member, isLine⟩)
    · intro entry member field inPrinted
      obtain ⟨fits, isText⟩ := (entryFromNode_eq_iff
        (wellFormed.items entry member)).mp (readBack entry member) field
          inPrinted
      refine ⟨fits, plain_of_spelled ?_ isText⟩
      apply spells_of_ok (quoteFree.entries entry member field inPrinted) fits
      intro line isLine
      exact entriesOk entry member line
        (mem_fields_of_printed (wellFormed.items entry member) inPrinted isLine)
  · rw [← indexToToml_eq wellFormed] at failed
    rw [indexLoad, failed] at isLoaded
    cases isLoaded

end

/-- What is written is read back when every printed string is plain, and,
for strings without quotes, only then.  A string with a quote ends early and
leaves the rest of its text to be read as TOML. -/
theorem index_roundTrips_iff_plain {index : Index}
    (wellFormed : index.WellFormed) :
    (index.Plain → index.RoundTrips) ∧
      (index.QuoteFree → index.RoundTrips → index.Plain) :=
  ⟨fun plain => plain.roundTrips wellFormed,
    fun quoteFree roundTrips => roundTrips.plain wellFormed quoteFree⟩

/-- A package of which only the name and the version matter. -/
def bareEntry (name version : Bytes) : Entry where
  name := name
  version := version
  release := 0
  arch := ascii "x86_64"
  filename := ascii "pkg.grain"
  url := none
  sha256 := []
  size := 0
  summary := []
  deps := []
  conflicts := []

def bareIndex (items : List Entry) : Index :=
  ⟨some (ascii "core"), some (ascii "x86_64"), items⟩

theorem bareIndex_wellFormed {items : List Entry}
    (bare : ∀ entry ∈ items, ∃ name version,
      entry = bareEntry name version ∧ 0 ∉ name ∧ 0 ∉ version) :
    (bareIndex items).WellFormed where
  repoName := (by decide : 0 ∉ ascii "core")
  arch := (by decide : 0 ∉ ascii "x86_64")
  items := by
    intro entry member
    obtain ⟨name, version, rfl, nameNoNul, versionNoNul⟩ := bare entry member
    exact {
      name := nameNoNul
      version := versionNoNul
      releaseLow := by simp [bareEntry]
      releaseHigh := by simp [bareEntry]
      arch := (by decide : 0 ∉ ascii "x86_64")
      filename := (by decide : 0 ∉ ascii "pkg.grain")
      url := fun url isUrl => by cases isUrl
      sha256 := by simp [bareEntry]
      size := by simp [bareEntry]
      summary := by simp [bareEntry]
      deps := by simp [bareEntry]
      conflicts := by simp [bareEntry] }

theorem bareIndex_plain {items : List Entry}
    (bare : ∀ entry ∈ items, ∃ name version,
      entry = bareEntry name version ∧ PlainText name ∧ PlainText version ∧
        FitsLine "name" name ∧ FitsLine "version" version) :
    (bareIndex items).Plain where
  header := by
    intro field member _
    refine ⟨field.2, PlainText.spells ?_⟩
    have plain : ∀ text ∈ [ascii "core", ascii "x86_64"],
        PlainText text := by decide
    exact plain _ (List.mem_map_of_mem member)
  entries := by
    intro entry member field inPrinted
    obtain ⟨name, version, rfl, namePlain, versionPlain, nameFits,
      versionFits⟩ := bare entry member
    simp only [Entry.printed, bareEntry, Option.map_none, Option.toList_none,
      List.append_nil, List.mem_cons, List.not_mem_nil, or_false]
      at inPrinted
    rcases inPrinted with rfl | rfl | rfl | rfl | rfl
    · exact ⟨nameFits, namePlain⟩
    · exact ⟨versionFits, versionPlain⟩
    all_goals decide

def treeIndex : Index :=
  bareIndex [bareEntry (ascii "tree") (ascii "1"),
    bareEntry (ascii "sudo") (ascii "2")]

theorem treeIndex_wellFormed : treeIndex.WellFormed := by
  apply bareIndex_wellFormed
  intro entry member
  simp only [List.mem_cons, List.not_mem_nil, or_false] at member
  rcases member with rfl | rfl <;> exact ⟨_, _, rfl, by decide, by decide⟩

theorem treeIndex_plain : treeIndex.Plain := by
  apply bareIndex_plain
  intro entry member
  simp only [List.mem_cons, List.not_mem_nil, or_false] at member
  rcases member with rfl | rfl <;>
    exact ⟨_, _, rfl, by decide, by decide, by decide, by decide⟩

theorem treeIndex_roundTrips_of_plain :
    treeIndex.WellFormed ∧ treeIndex.Plain ∧ treeIndex.RoundTrips :=
  ⟨treeIndex_wellFormed, treeIndex_plain,
    (index_roundTrips_iff_plain treeIndex_wellFormed).1 treeIndex_plain⟩

/-- A version that closes its string, ends its entry and starts another. -/
def smuggledVersion : Bytes :=
  ascii "1\"\nrelease = 0\narch = \"x86_64\"\nfilename = \"pkg.grain\"\n" ++
  ascii "sha256 = \"\"\nsize = 0\nsummary = \"\"\ndeps = []\n" ++
  ascii "\n[[package]]\nname = \"sudo\"\nversion = \"2"

/-- One entry, printed as two. -/
def smuggledIndex : Index :=
  bareIndex [bareEntry (ascii "tree") smuggledVersion]

theorem indexToToml_smuggled :
    indexToToml smuggledIndex = indexToToml treeIndex := by
  decide +kernel

theorem version_with_quote_adds_entry :
    smuggledIndex.WellFormed ∧ ¬ smuggledIndex.RoundTrips := by
  constructor
  · apply bareIndex_wellFormed
    intro entry member
    rw [List.mem_singleton.mp member]
    exact ⟨_, _, rfl, by decide, by decide⟩
  · rintro ⟨bound, loads⟩
    obtain ⟨other, loadsTree⟩ :=
      treeIndex_plain.roundTrips treeIndex_wellFormed
    obtain ⟨loaded, isLoaded, isOne⟩ := loads (bound + other) (by omega)
    obtain ⟨tree, isTree, isTwo⟩ := loadsTree (bound + other) (by omega)
    rw [indexToToml_smuggled, isTree] at isLoaded
    obtain rfl : tree = loaded := Except.ok.inj isLoaded
    have length := congrArg List.length (isOne.symm.trans isTwo)
    cases length

end SaltOS.Repo
