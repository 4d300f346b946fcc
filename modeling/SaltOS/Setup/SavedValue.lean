import SaltOS.Setup.SavedText

/-!
# The value of a saved configuration

The text of `to_lua` is read back token by token: a string literal is the text
it was written for, a line is a field of the section that is open, and the
chunk returns the table of the sections.
-/

namespace SaltOS.Setup

open Lib Toml Config

/-! ## String literals -/

section

variable {text : Bytes} {byte : UInt8}

/-- The escape of a control byte. -/
theorem lex_decimal {a b c : UInt8} (first : Bytes.isDigit a)
    (second : Bytes.isDigit b) (third : Bytes.isDigit c)
    (noLetter : luaEscape a = none)
    (isByte : 10 * (10 * (a.toNat - 48) + (b.toNat - 48)) + (c.toNat - 48) =
      byte.toNat) :
    llex.Reads (.text text) [92, a, b, c] [] (.text (text ++ [byte])) := by
  have opens : llex.step (.text text) 92 = some ([], .escape text) := rfl
  have one : llex.step (.escape text) a =
      some ([], .decimal text 1 (a.toNat - 48)) := by
    change lexStep (.escape text) a = _
    rw [lexStep, noLetter]
    exact if_pos first
  have two : llex.step (.decimal text 1 (a.toNat - 48)) b = some ([],
      .decimal text 2 (10 * (a.toNat - 48) + (b.toNat - 48))) := by
    change lexDecimal _ _ _ _ = _
    rw [lexDecimal, if_pos second]
    rfl
  have three : llex.step (.decimal text 2
      (10 * (a.toNat - 48) + (b.toNat - 48))) c =
      some ([], .text (text ++ [byte])) := by
    have small : byte.toNat ≤ 255 := Nat.le_of_lt_succ byte.toNat_lt
    change lexDecimal _ _ _ _ = _
    rw [lexDecimal, if_pos third]
    dsimp only
    rw [isByte, if_neg (by decide), if_pos small, Nat.toUInt8_eq,
      UInt8.ofNat_toNat]
  exact .cons opens (.cons one (.cons two (.one three)))

theorem lex_letter {letter : UInt8} (isEscape : luaEscape letter = some byte) :
    llex.Reads (.text text) [92, letter] [] (.text (text ++ [byte])) := by
  have opens : llex.step (.text text) 92 = some ([], .escape text) := rfl
  have isLetter : llex.step (.escape text) letter =
      some ([], .text (text ++ [byte])) := by
    change lexStep (.escape text) letter = _
    rw [lexStep, isEscape]
  exact .cons opens (.one isLetter)

/-- The three digits of a control byte. -/
theorem padZeros_control (byte : UInt8) : byte < 32 →
    padZeros 3 (printBase 10 byte.toNat) =
      [48, 48 + byte / 10, 48 + byte % 10] ∧
    Bytes.isDigit (48 + byte / 10) ∧ Bytes.isDigit (48 + byte % 10) ∧
    10 * (10 * (UInt8.toNat 48 - 48) + ((48 + byte / 10).toNat - 48)) +
      ((48 + byte % 10).toNat - 48) = byte.toNat := by
  revert byte
  apply forall_byte
  decide +kernel

theorem lex_quoteByte (text : Bytes) (byte : UInt8) :
    llex.Reads (.text text) (quoteByte byte) [] (.text (text ++ [byte])) := by
  unfold quoteByte
  split_ifs with quoted slash line tab back control
  · rw [beq_iff_eq.mp quoted]
    exact lex_letter rfl
  · rw [beq_iff_eq.mp slash]
    exact lex_letter rfl
  · rw [beq_iff_eq.mp line]
    exact lex_letter rfl
  · rw [beq_iff_eq.mp tab]
    exact lex_letter rfl
  · rw [beq_iff_eq.mp back]
    exact lex_letter rfl
  · obtain ⟨isDigits, second, third, isByte⟩ := padZeros_control byte control
    rw [isDigits]
    exact lex_decimal rfl second third rfl isByte
  · have plain : isNewline byte = false := by
      rw [isNewline, Bool.or_eq_false_iff]
      exact ⟨Bool.eq_false_iff.mpr line, Bool.eq_false_iff.mpr back⟩
    apply Transducer.Reads.one
    change lexText text byte = _
    rw [lexText, if_neg quoted, plain, if_neg Bool.false_ne_true,
      if_neg slash]

theorem lex_quoted (content : Bytes) :
    llex.Reads (.text text) (content.flatMap quoteByte) []
      (.text (text ++ content)) := by
  induction content generalizing text with
  | nil =>
      rw [List.append_nil]
      exact .refl _
  | cons byte content induction =>
      have rest := (lex_quoteByte text byte).append
        (@induction (text ++ [byte]))
      rw [List.append_assoc] at rest
      exact rest

theorem lex_quote (content : Bytes) :
    llex.Reads .blank (quote content) [.text content] .blank := by
  have opens : llex.Reads .blank [34] [] (.text []) := .one rfl
  have closes : llex.Reads (.text content) [34] [.text content] .blank :=
    .one rfl
  exact (opens.append (lex_quoted content)).append closes

end

/-! ## Tokens -/

def lineTokens (line : Bytes × Answer) : List Token :=
  [.word line.1, .symbol 61, line.2.token, .symbol 44]

def sectionTokens (part : Bytes × List (Bytes × Answer)) : List Token :=
  [.word part.1, .symbol 61, .symbol 123] ++ part.2.flatMap lineTokens ++
    [.symbol 125, .symbol 44]

def headerTokens : List Token :=
  [.word (ascii "return"), .symbol 123]

def stratumTokens (distro : Bytes) : List Token :=
  [.word (ascii "stratum"), .symbol 61, .symbol 123, .symbol 123,
      .word (ascii "name"), .symbol 61] ++ [.text distro] ++
    [.symbol 44, .word (ascii "role"), .symbol 61, .text (ascii "primary"),
      .symbol 44, .word (ascii "expose"), .symbol 61, .word (ascii "true"),
      .symbol 125, .symbol 44, .symbol 125, .symbol 44, .symbol 125]

/-- A name that is written in front of a value. -/
structure Written (name : Bytes) : Prop where
  line : llex.Reads .blank (ascii "    " ++ name ++ ascii " = ")
    [.word name, .symbol 61] .blank
  opens : llex.Reads .blank (ascii "  " ++ name ++ ascii " = \x7b\n")
    [.word name, .symbol 61, .symbol 123] .blank
  free : isReserved name = false
  noNul : (0 : UInt8) ∉ name

/-- A letter, and letters and digits behind it. -/
def isIdentifier : Bytes → Bool
  | [] => false
  | first :: rest => lislalpha first && rest.all lislalnum

theorem lexBlank_letter (byte : UInt8) : lislalpha byte →
    lexBlank byte = some ([], .word [byte]) := by
  revert byte
  apply forall_byte
  decide +kernel

theorem lex_letters {rest : Bytes} (first : Bytes)
    (letters : rest.all lislalnum) :
    llex.Reads (.word first) rest [] (.word (first ++ rest)) := by
  induction rest generalizing first with
  | nil =>
      rw [List.append_nil]
      exact .refl _
  | cons byte rest induction =>
      rw [List.all_cons, Bool.and_eq_true] at letters
      have isStep : llex.step (.word first) byte =
          some ([], .word (first ++ [byte])) :=
        if_pos letters.1
      have more := induction (first ++ [byte]) letters.2
      rw [List.append_assoc] at more
      exact .cons isStep more

theorem lex_identifier {name : Bytes} (isName : isIdentifier name) :
    llex.Reads .blank name [] (.word name) := by
  cases name with
  | nil => cases isName
  | cons first rest =>
      rw [isIdentifier, Bool.and_eq_true] at isName
      have isStep : llex.step .blank first = some ([], .word [first]) :=
        lexBlank_letter first isName.1
      exact .cons isStep (lex_letters [first] isName.2)

theorem zero_not_mem_identifier {name : Bytes} (isName : isIdentifier name) :
    (0 : UInt8) ∉ name := by
  cases name with
  | nil => cases isName
  | cons first rest =>
      rw [isIdentifier, Bool.and_eq_true, List.all_eq_true] at isName
      intro member
      rcases List.mem_cons.mp member with isFirst | inRest
      · rw [← isFirst] at isName
        cases isName.1
      · cases isName.2 0 inRest

theorem Written.of_identifier {name : Bytes} (isName : isIdentifier name)
    (free : isReserved name = false) : Written name where
  line := by
    have blanks : llex.Reads .blank (ascii "    ") [] .blank := rfl
    have behind : llex.Reads (.word name) (ascii " = ")
        [.word name, .symbol 61] .blank := rfl
    exact (blanks.append (lex_identifier isName)).append behind
  opens := by
    have blanks : llex.Reads .blank (ascii "  ") [] .blank := rfl
    have behind : llex.Reads (.word name) (ascii " = \x7b\n")
        [.word name, .symbol 61, .symbol 123] .blank := rfl
    exact (blanks.append (lex_identifier isName)).append behind
  free := free
  noNul := zero_not_mem_identifier isName

theorem fields_written : ∀ field ∈ fields, Written field.name := by
  have names : ∀ field ∈ fields, isIdentifier field.name ∧
      isReserved field.name = false := by
    decide +kernel
  exact fun field member =>
    .of_identifier (names field member).1 (names field member).2

theorem sections_written : ∀ part ∈ sections, Written part.1 := by
  have names : ∀ part ∈ sections, isIdentifier part.1 ∧
      isReserved part.1 = false := by
    decide +kernel
  exact fun part member =>
    .of_identifier (names part member).1 (names part member).2

theorem lex_answer (answer : Answer) :
    llex.Reads .blank (answer.shown ++ ascii ",\n")
      [answer.token, .symbol 44] .blank := by
  cases answer with
  | text content =>
      have comma : llex.Reads .blank (ascii ",\n") [.symbol 44] .blank := by
        decide
      exact (lex_quote content).append comma
  | flag value =>
      have flags : ∀ value, llex.Reads .blank
          ((Answer.flag value).shown ++ ascii ",\n")
          [(Answer.flag value).token, .symbol 44] .blank := by
        decide +kernel
      exact flags value

theorem lex_line {line : Bytes × Answer} (written : Written line.1) :
    llex.Reads .blank (lineText line) (lineTokens line) .blank := by
  unfold lineText
  rw [List.append_assoc]
  exact written.line.append (lex_answer line.2)

theorem lex_section {part : Bytes × List (Bytes × Answer)}
    (written : Written part.1) (lines : ∀ line ∈ part.2, Written line.1) :
    llex.Reads .blank (sectionText part) (sectionTokens part) .blank := by
  have ends : llex.Reads .blank sectionEnd [.symbol 125, .symbol 44]
      .blank := by
    decide +kernel
  have inside := Transducer.Reads.flatMap fun line member =>
    lex_line (lines line member)
  exact (written.opens.append inside).append ends

theorem lex_stratum (distro : Bytes) :
    llex.Reads .blank (stratumText distro) (stratumTokens distro) .blank := by
  have opens : llex.Reads .blank (ascii "  stratum = \x7b\n    \x7b name = ")
      [.word (ascii "stratum"), .symbol 61, .symbol 123, .symbol 123,
        .word (ascii "name"), .symbol 61] .blank := by
    decide +kernel
  have ends : llex.Reads .blank
      (ascii ", role = \"primary\", expose = true \x7d,\n  \x7d,\n\x7d\n")
      [.symbol 44, .word (ascii "role"), .symbol 61, .text (ascii "primary"),
        .symbol 44, .word (ascii "expose"), .symbol 61, .word (ascii "true"),
        .symbol 125, .symbol 44, .symbol 125, .symbol 44, .symbol 125]
      .blank := by
    decide +kernel
  exact (opens.append (lex_quote distro)).append ends

/-! ## What is saved -/

theorem mem_groupAnswers {config : SetupConfig} {group : List Field}
    {line : Bytes × Answer} :
    line ∈ groupAnswers config group ↔ ∃ field ∈ group,
      field.member.answer config = some line.2 ∧ field.name = line.1 := by
  unfold groupAnswers
  rw [List.mem_filterMap]
  constructor
  · rintro ⟨field, member, isLine⟩
    obtain ⟨answer, isAnswer, rfl⟩ := Option.map_eq_some_iff.mp isLine
    exact ⟨field, member, isAnswer, rfl⟩
  · rintro ⟨field, member, isAnswer, isName⟩
    refine ⟨field, member, ?_⟩
    rw [isAnswer, isName]
    rfl

/-- In a section that is saved, all names are those of its fields. -/
theorem mem_savedSections {config : SetupConfig}
    {part : Bytes × List (Bytes × Answer)} :
    part ∈ savedSections config ↔ part.2 ≠ [] ∧ ∃ group,
      (part.1, group) ∈ sections ∧ part.2 = groupAnswers config group := by
  unfold savedSections
  rw [List.mem_filter, List.mem_map, decide_eq_true_iff, and_comm]
  apply and_congr_right
  intro _
  constructor
  · rintro ⟨⟨name, group⟩, member, rfl⟩
    exact ⟨group, member, rfl⟩
  · rintro ⟨group, member, isPart⟩
    exact ⟨(part.1, group), member, by rw [← isPart]⟩

theorem mem_fields {part : Bytes × List Field} (member : part ∈ sections)
    {field : Field} (inside : field ∈ part.2) : field ∈ fields := by
  rw [fields_eq]
  exact List.mem_flatMap.mpr ⟨part, member, inside⟩

section

variable {config : SetupConfig} {part : Bytes × List (Bytes × Answer)}

theorem saved_written (member : part ∈ savedSections config) :
    Written part.1 ∧ ∀ line ∈ part.2, Written line.1 := by
  obtain ⟨_, group, isGroup, isPart⟩ := mem_savedSections.mp member
  refine ⟨sections_written _ isGroup, ?_⟩
  intro line isLine
  rw [isPart] at isLine
  obtain ⟨field, isField, _, isName⟩ := mem_groupAnswers.mp isLine
  rw [← isName]
  exact fields_written field (mem_fields isGroup isField)

theorem groups_distinct :
    ∀ part ∈ sections, (part.2.map Field.name).Nodup := by
  decide +kernel

/-- The names of a filtered list are some of all names. -/
theorem groupAnswers_sublist (config : SetupConfig) (group : List Field) :
    ((groupAnswers config group).map Prod.fst).Sublist
      (group.map Field.name) := by
  induction group with
  | nil => exact .slnil
  | cons field group induction =>
      rw [groupAnswers, List.filterMap_cons, List.map_cons]
      cases field.member.answer config with
      | none => exact induction.cons _
      | some answer => exact induction.cons_cons _

theorem lines_distinct (member : part ∈ savedSections config) :
    (part.2.map Prod.fst).Nodup := by
  obtain ⟨_, group, isGroup, isPart⟩ := mem_savedSections.mp member
  rw [isPart]
  exact (groups_distinct _ isGroup).sublist
    (groupAnswers_sublist config group)

theorem saved_sublist (config : SetupConfig) :
    ((savedSections config).map Prod.fst).Sublist
      (sections.map Prod.fst) := by
  have names : (sections.map fun part =>
      (part.1, groupAnswers config part.2)).map Prod.fst =
      sections.map Prod.fst := by
    rw [List.map_map]
    rfl
  rw [← names]
  exact List.filter_sublist.map Prod.fst

end

/-! ## Tables -/

def lineField (line : Bytes × Answer) : Bytes × LuaValue :=
  (line.1, line.2.value)

def sectionValue (part : Bytes × List (Bytes × Answer)) : LuaValue :=
  .table 0 (part.2.map fun line => (.str line.1, line.2.value))

/-- The one item of the list of the strata. -/
def primaryValue (distro : Bytes) : LuaValue :=
  .table 0 [(.str (ascii "name"), .str distro),
    (.str (ascii "role"), .str (ascii "primary")),
    (.str (ascii "expose"), .bool true)]

def stratumKey : Bytes :=
  ascii "stratum"

def stratumValue (distro : Bytes) : LuaValue :=
  .table 1 [(.int 1, primaryValue distro)]

/-- The names and values of the chunk's table. -/
def savedFields (config : SetupConfig) : List (Bytes × LuaValue) :=
  (savedSections config).map (fun part => (part.1, sectionValue part)) ++
    [(stratumKey, stratumValue config.distro)]

def savedValue (config : SetupConfig) : LuaValue :=
  .table 0 ((savedFields config).map fieldEntry)

section

variable {fields : List (Bytes × LuaValue)} {below : List Constructor}

theorem parse_line {line : Bytes × Answer}
    (free : isReserved line.1 = false)
    (new : line.1 ∉ fields.map Prod.fst) :
    luaParser.Reads (.field ⟨fields, [], none⟩ below) (lineTokens line) []
      (.field ⟨fields ++ [lineField line], [], none⟩ below) := by
  have named : luaParser.Reads (.field ⟨fields, [], none⟩ below)
      [.word line.1, .symbol 61] []
      (.expr (⟨fields, [], some line.1⟩ :: below)) :=
    reads_name free
  have given : give line.2.value (⟨fields, [], some line.1⟩ :: below) =
      some (.behind ⟨fields ++ [lineField line], [], none⟩ below) :=
    give_named rfl new
  have isValue : luaParser.Reads (.expr (⟨fields, [], some line.1⟩ :: below))
      [line.2.token] []
      (.behind ⟨fields ++ [lineField line], [], none⟩ below) := by
    apply reads_step
    rw [← given]
    cases line.2 with
    | text content => rfl
    | flag value =>
        cases value with
        | false => rfl
        | true => rfl
  exact (named.append isValue).append reads_comma

theorem parse_lines {lines : List (Bytes × Answer)}
    (free : ∀ line ∈ lines, isReserved line.1 = false)
    (distinct : (fields.map Prod.fst ++ lines.map Prod.fst).Nodup) :
    luaParser.Reads (.field ⟨fields, [], none⟩ below)
      (lines.flatMap lineTokens) []
      (.field ⟨fields ++ lines.map lineField, [], none⟩ below) := by
  induction lines generalizing fields with
  | nil =>
      rw [List.map_nil, List.append_nil]
      exact .refl _
  | cons line lines induction =>
      have new : line.1 ∉ fields.map Prod.fst := fun member =>
        (List.nodup_append.mp distinct).2.2 _ member _ List.mem_cons_self rfl
      have first := @parse_line fields below line
        (free line List.mem_cons_self) new
      have others := @induction (fields ++ [lineField line])
        (fun other member => free other (List.mem_cons_of_mem line member))
        (by simpa [lineField] using distinct)
      rw [List.append_assoc] at others
      exact first.append others

theorem parse_section {part : Bytes × List (Bytes × Answer)}
    (free : isReserved part.1 = false)
    (new : part.1 ∉ fields.map Prod.fst)
    (linesFree : ∀ line ∈ part.2, isReserved line.1 = false)
    (distinct : (part.2.map Prod.fst).Nodup) :
    luaParser.Reads (.field ⟨fields, [], none⟩ below) (sectionTokens part) []
      (.field ⟨fields ++ [(part.1, sectionValue part)], [], none⟩ below) := by
  have named : luaParser.Reads (.field ⟨fields, [], none⟩ below)
      [.word part.1, .symbol 61] []
      (.expr (⟨fields, [], some part.1⟩ :: below)) :=
    reads_name free
  have inside : luaParser.Reads
      (.field .empty (⟨fields, [], some part.1⟩ :: below))
      (part.2.flatMap lineTokens) []
      (.field ⟨part.2.map lineField, [], none⟩
        (⟨fields, [], some part.1⟩ :: below)) :=
    parse_lines linesFree distinct
  have isValue : (⟨part.2.map lineField, [], none⟩ : Constructor).close =
      sectionValue part := by
    unfold Constructor.close sectionValue
    rw [List.map_map]
    rfl
  have closes : luaParser.Reads
      (.field ⟨part.2.map lineField, [], none⟩
        (⟨fields, [], some part.1⟩ :: below)) [.symbol 125] []
      (.behind ⟨fields ++ [(part.1, sectionValue part)], [], none⟩
        below) := by
    apply reads_close
    rw [isValue]
    exact give_named rfl new
  have opened := named.append reads_open
  exact (opened.append inside).append (closes.append reads_comma)

theorem parse_sections {parts : List (Bytes × List (Bytes × Answer))}
    (free : ∀ part ∈ parts, isReserved part.1 = false ∧
      (∀ line ∈ part.2, isReserved line.1 = false) ∧
      (part.2.map Prod.fst).Nodup)
    (distinct : (fields.map Prod.fst ++ parts.map Prod.fst).Nodup) :
    luaParser.Reads (.field ⟨fields, [], none⟩ below)
      (parts.flatMap sectionTokens) []
      (.field ⟨fields ++ parts.map fun part => (part.1, sectionValue part),
        [], none⟩ below) := by
  induction parts generalizing fields with
  | nil =>
      rw [List.map_nil, List.append_nil]
      exact .refl _
  | cons part parts induction =>
      obtain ⟨isFree, linesFree, linesDistinct⟩ :=
        free part List.mem_cons_self
      have new : part.1 ∉ fields.map Prod.fst := fun member =>
        (List.nodup_append.mp distinct).2.2 _ member _ List.mem_cons_self rfl
      have first := @parse_section fields below part isFree
        new linesFree linesDistinct
      have others := @induction (fields ++ [(part.1, sectionValue part)])
        (fun other member => free other (List.mem_cons_of_mem part member))
        (by simpa using distinct)
      rw [List.append_assoc] at others
      exact first.append others

theorem parse_primary (distro : Bytes) :
    luaParser.Reads (.expr below) [.symbol 123, .symbol 123,
        .word (ascii "name"), .symbol 61, .text distro, .symbol 44,
        .word (ascii "role"), .symbol 61, .text (ascii "primary"),
        .symbol 44, .word (ascii "expose"), .symbol 61,
        .word (ascii "true"), .symbol 125, .symbol 44] []
      (.field ⟨[], [primaryValue distro], none⟩ below) := by
  rfl

theorem parse_stratum (distro : Bytes)
    (new : stratumKey ∉ fields.map Prod.fst) :
    luaParser.Reads (.field ⟨fields, [], none⟩ []) (stratumTokens distro) []
      (.done (.table 0 ((fields ++
        [(stratumKey, stratumValue distro)]).map fieldEntry))) := by
  have isFree : isReserved stratumKey = false := by
    decide
  have named : luaParser.Reads (.field ⟨fields, [], none⟩ [])
      [.word stratumKey, .symbol 61] []
      (.expr [⟨fields, [], some stratumKey⟩]) :=
    reads_name isFree
  have closes : luaParser.Reads (.field ⟨[], [primaryValue distro], none⟩
      [⟨fields, [], some stratumKey⟩]) [.symbol 125] []
      (.behind ⟨fields ++ [(stratumKey, stratumValue distro)], [], none⟩
        []) := by
    apply reads_close
    exact give_named rfl new
  have ends : luaParser.Reads
      (.field ⟨fields ++ [(stratumKey, stratumValue distro)], [], none⟩ [])
      [.symbol 125] []
      (.done (.table 0 ((fields ++
        [(stratumKey, stratumValue distro)]).map fieldEntry))) := by
    apply reads_close
    rfl
  have list := named.append (parse_primary distro)
  exact list.append ((closes.append reads_comma).append ends)

end

theorem stratumKey_fresh : stratumKey ∉ sections.map Prod.fst := by
  decide +kernel

theorem saved_fresh (config : SetupConfig) :
    stratumKey ∉ (savedSections config).map Prod.fst :=
  fun member => stratumKey_fresh ((saved_sublist config).subset member)

/-- The literal that `to_lua` writes. -/
theorem evalLiteral_toLua (config : SetupConfig) :
    evalLiteral (toLua config true) = some (savedValue config) := by
  have header : llex.Reads .blank luaHeader headerTokens .blank := by
    decide +kernel
  have written : llex.Reads .blank
      ((savedSections config).flatMap sectionText)
      ((savedSections config).flatMap sectionTokens) .blank := by
    apply Transducer.Reads.flatMap
    intro part member
    exact lex_section (saved_written member).1 (saved_written member).2
  have lexed := header.append (written.append (lex_stratum config.distro))
  have opens : luaParser.Reads .start headerTokens []
      (.field ⟨[], [], none⟩ []) := by
    rfl
  have inside : luaParser.Reads (.field ⟨[], [], none⟩ [])
      ((savedSections config).flatMap sectionTokens) []
      (.field ⟨(savedSections config).map fun part =>
        (part.1, sectionValue part), [], none⟩ []) := by
    apply parse_sections
    · intro part member
      obtain ⟨written, lines⟩ := saved_written member
      exact ⟨written.free, fun line isLine => (lines line isLine).free,
        lines_distinct member⟩
    · exact sections_distinct.sublist (saved_sublist config)
  have fresh : stratumKey ∉ ((savedSections config).map fun part =>
      (part.1, sectionValue part)).map Prod.fst := by
    rw [List.map_map]
    exact saved_fresh config
  rw [toLua_eq]
  exact evalLiteral_eq lexed
    (opens.append (inside.append (parse_stratum config.distro fresh)))

end SaltOS.Setup
