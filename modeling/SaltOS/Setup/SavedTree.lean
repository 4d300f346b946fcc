import SaltOS.Setup.SavedValue

/-!
# The tree of a saved configuration

The value of the chunk becomes a tree in which every field is found again,
unless it was empty and left out.
-/

namespace SaltOS.Setup

open Lib Toml Config

/-- No text of the configuration has a byte that ends a C string. -/
structure NulFree (config : SetupConfig) : Prop where
  texts : ∀ field ∈ fields, ∀ get set, field.member = .str get set →
    (0 : UInt8) ∉ get config
  distro : (0 : UInt8) ∉ config.distro

def Answer.node : Answer → Node
  | .text content => .str content
  | .flag value => .bool value

def Answer.NulFree : Answer → Prop
  | .text content => (0 : UInt8) ∉ content
  | .flag _ => True

def linesNode (lines : List (Bytes × Answer)) : Node :=
  .tab (storedTable (lines.map fun line => (line.1, line.2.node)))

def primaryLines (distro : Bytes) : List (Bytes × Answer) :=
  [(ascii "name", .text distro), (ascii "role", .text (ascii "primary")),
    (ascii "expose", .flag true)]

def stratumNode (distro : Bytes) : Node :=
  .arr [linesNode (primaryLines distro)]

/-- The entries of the tree. -/
def savedNodes (config : SetupConfig) : Table :=
  (savedSections config).map (fun part => (part.1, linesNode part.2)) ++
    [(stratumKey, stratumNode config.distro)]

/-! ## Conversion -/

section

variable {config : SetupConfig} {depth : Nat} {label : Bytes}

theorem convertValue_answer {answer : Answer} (noNul : answer.NulFree) :
    convertValue (depth + 1) label answer.value = .ok answer.node := by
  cases answer with
  | text content =>
      have same : cstr content = content := cstr_eq_self noNul
      change Except.ok (Node.str (cstr content)) = _
      rw [same]
      rfl
  | flag value => rfl

theorem convertValue_lines {lines : List (Bytes × Answer)}
    (nonempty : lines ≠ []) (distinct : (lines.map Prod.fst).Nodup)
    (names : ∀ line ∈ lines, (0 : UInt8) ∉ line.1)
    (noNul : ∀ line ∈ lines, line.2.NulFree) :
    convertValue (depth + 2) label (.table 0 (lines.map fun line =>
        (.str line.1, line.2.value))) = .ok (linesNode lines) := by
  apply convertTable_fields nonempty distinct names
  intro line member label
  exact convertValue_answer (noNul line member)

theorem convertValue_stratum {distro : Bytes}
    (noNul : (0 : UInt8) ∉ distro) :
    convertValue (depth + 3) label (stratumValue distro) =
      .ok (stratumNode distro) := by
  have names : [ascii "name", ascii "role", ascii "expose"].Nodup ∧
      ∀ name ∈ [ascii "name", ascii "role", ascii "expose"],
        (0 : UInt8) ∉ name := by
    decide
  have values : ∀ line ∈ primaryLines distro, line.2.NulFree := by
    intro line member
    rcases List.mem_cons.mp member with rfl | member
    · exact noNul
    · rcases List.mem_cons.mp member with rfl | member
      · change (0 : UInt8) ∉ ascii "primary"
        decide
      · rw [List.mem_singleton.mp member]
        exact trivial
  have item (label : Bytes) : convertValue (depth + 2) label
      (primaryValue distro) = .ok (linesNode (primaryLines distro)) :=
    @convertValue_lines depth label (primaryLines distro)
      (List.cons_ne_nil _ _) names.1
      (fun line member => names.2 line.1 (List.mem_map_of_mem member)) values
  change (pushAll (convertValue (depth + 2)) label
    [(.int 1, primaryValue distro)] [0]).map Node.arr = _
  rw [pushAll]
  change (do
    let node ← convertValue (depth + 2) _ (primaryValue distro)
    let nodes ← pushAll (convertValue (depth + 2)) label
      [(.int 1, primaryValue distro)] []
    Except.ok (node :: nodes)).map Node.arr = _
  rw [item]
  rfl

end

/-- What is written for a field of a configuration without NUL bytes. -/
theorem NulFree.answer {config : SetupConfig} (nulFree : NulFree config)
    {field : Field} (member : field ∈ fields) {answer : Answer}
    (isAnswer : field.member.answer config = some answer) :
    answer.NulFree := by
  cases isMember : field.member with
  | str get set =>
      rw [isMember, Member.answer] at isAnswer
      split at isAnswer
      · cases isAnswer
      · cases isAnswer
        exact nulFree.texts field member get set isMember
  | bool get set =>
      rw [isMember, Member.answer] at isAnswer
      cases isAnswer
      exact trivial

/-- The names of the tree, with their values and nodes. -/
def savedItems (config : SetupConfig) : List (Bytes × LuaValue × Node) :=
  (savedSections config).map
      (fun part => (part.1, sectionValue part, linesNode part.2)) ++
    [(stratumKey, stratumValue config.distro, stratumNode config.distro)]

/-- The tree of the chunk that `to_lua` writes. -/
theorem convertValue_saved {config : SetupConfig} (nulFree : NulFree config)
    (depth : Nat) (label : Bytes) :
    convertValue (depth + 4) label (savedValue config) =
      .ok (.tab (storedTable (savedNodes config))) := by
  have isValue : savedValue config = .table 0 ((savedItems config).map
      fun item => (.str item.1, item.2.1)) := by
    unfold savedValue savedFields savedItems
    rw [List.map_append, List.map_append, List.map_map, List.map_map]
    rfl
  have isNodes : savedNodes config = (savedItems config).map
      fun item => (item.1, item.2.2) := by
    unfold savedNodes savedItems
    rw [List.map_append, List.map_map]
    rfl
  have isNames : (savedItems config).map Prod.fst =
      (savedSections config).map Prod.fst ++ [stratumKey] := by
    unfold savedItems
    rw [List.map_append, List.map_map]
    rfl
  have distinct : ((savedItems config).map Prod.fst).Nodup := by
    rw [isNames, ← List.concat_eq_append]
    exact (sections_distinct.sublist (saved_sublist config)).concat
      (saved_fresh config)
  have nonempty : savedItems config ≠ [] := by
    unfold savedItems
    exact List.append_ne_nil_of_right_ne_nil _ (List.cons_ne_nil _ _)
  rw [isValue, isNodes]
  apply convertTable_fields nonempty distinct
  · intro item member
    rcases List.mem_append.mp member with inSection | isStratum
    · obtain ⟨part, isPart, rfl⟩ := List.mem_map.mp inSection
      exact (saved_written isPart).1.noNul
    · rw [List.mem_singleton.mp isStratum]
      change (0 : UInt8) ∉ stratumKey
      decide
  · intro item member label
    rcases List.mem_append.mp member with inSection | isStratum
    · obtain ⟨part, isPart, rfl⟩ := List.mem_map.mp inSection
      obtain ⟨nonempty, group, isGroup, isLines⟩ :=
        mem_savedSections.mp isPart
      apply convertValue_lines nonempty (lines_distinct isPart)
      · exact fun line isLine => ((saved_written isPart).2 line isLine).noNul
      · intro line isLine
        rw [isLines] at isLine
        obtain ⟨field, isField, isAnswer, _⟩ := mem_groupAnswers.mp isLine
        exact nulFree.answer (mem_fields isGroup isField) isAnswer
    · rw [List.mem_singleton.mp isStratum]
      exact convertValue_stratum nulFree.distro

/-! ## Fields of the tree -/

theorem key_eq : ∀ field ∈ fields,
    ascii field.key = field.sectionName ++ 46 :: field.name ∧
      Segment field.sectionName ∧ Segment field.name := by
  decide +kernel

section

variable {config : SetupConfig} {name : Bytes} {group : List Field}

theorem nodes_distinct (config : SetupConfig) :
    ((savedNodes config).map Prod.fst).Nodup := by
  unfold savedNodes
  rw [List.map_append, List.map_map, List.map_singleton,
    ← List.concat_eq_append]
  exact (sections_distinct.sublist (saved_sublist config)).concat
    (saved_fresh config)

/-- The table of a section, if anything was written for it. -/
theorem tableGet_section (isGroup : (name, group) ∈ sections) :
    tableGet (savedNodes config) name =
      if groupAnswers config group = [] then none
      else some (linesNode (groupAnswers config group)) := by
  split
  · rename_i none
    apply tableGet_eq_none
    unfold savedNodes
    rw [List.map_append, List.map_map, List.mem_append, not_or]
    constructor
    · intro member
      obtain ⟨part, isPart, isName⟩ := List.mem_map.mp member
      obtain ⟨nonempty, other, isOther, isLines⟩ :=
        mem_savedSections.mp isPart
      have same := List.inj_on_of_nodup_map sections_distinct isOther isGroup
        isName
      cases same
      rw [isLines] at nonempty
      exact nonempty none
    · intro isStratum
      have isKey : name = stratumKey := List.mem_singleton.mp isStratum
      apply stratumKey_fresh
      rw [← isKey]
      exact List.mem_map_of_mem isGroup
  · rename_i nonempty
    have isPart : (name, groupAnswers config group) ∈ savedSections config :=
      mem_savedSections.mpr ⟨nonempty, group, isGroup, rfl⟩
    have member : (name, linesNode (groupAnswers config group)) ∈
        savedNodes config :=
      List.mem_append_left _ (List.mem_map_of_mem isPart)
    exact tableGet_of_mem (nodes_distinct config) member

/-- The node of a field in its section. -/
theorem tableGet_line {field : Field} (isGroup : (name, group) ∈ sections)
    (member : field ∈ group) :
    tableGet ((groupAnswers config group).map fun line =>
        (line.1, line.2.node)) field.name =
      (field.member.answer config).map Answer.node := by
  have keys : ((groupAnswers config group).map fun line =>
      (line.1, line.2.node)).map Prod.fst =
      (groupAnswers config group).map Prod.fst := by
    rw [List.map_map]
    rfl
  cases isAnswer : field.member.answer config with
  | some answer =>
      have isLine : (field.name, answer) ∈ groupAnswers config group :=
        mem_groupAnswers.mpr ⟨field, member, isAnswer, rfl⟩
      have distinct := (groups_distinct _ isGroup).sublist
        (groupAnswers_sublist config group)
      rw [← keys] at distinct
      exact tableGet_of_mem distinct (List.mem_map_of_mem isLine)
  | none =>
      apply tableGet_eq_none
      rw [keys]
      intro inside
      obtain ⟨line, isLine, isName⟩ := List.mem_map.mp inside
      obtain ⟨other, isOther, otherAnswer, otherName⟩ :=
        mem_groupAnswers.mp isLine
      have same : other = field := List.inj_on_of_nodup_map
        (groups_distinct _ isGroup) isOther member (otherName.trans isName)
      rw [same, isAnswer] at otherAnswer
      cases otherAnswer

/-- Every field is found as it was written. -/
theorem getPath_saved {field : Field} (member : field ∈ fields) :
    getPath (.tab (storedTable (savedNodes config))) (ascii field.key) =
      (field.member.answer config).map Answer.node := by
  obtain ⟨isKey, outer, inner⟩ := key_eq field member
  rw [fields_eq] at member
  obtain ⟨⟨name, group⟩, isGroup, inGroup⟩ := List.mem_flatMap.mp member
  rw [isKey, getPath_dotted outer inner, tableGet_storedTable,
    sections_named _ isGroup field inGroup, tableGet_section isGroup]
  by_cases none : groupAnswers config group = []
  · rw [if_pos none, Option.bind_none, ← tableGet_line isGroup inGroup, none]
    rfl
  · rw [if_neg none, Option.bind_some, ← tableGet_line isGroup inGroup]
    exact tableGet_storedTable _ _

end

end SaltOS.Setup
