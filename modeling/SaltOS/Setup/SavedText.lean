import SaltOS.Setup.SetupConfig

/-!
# The text of a saved configuration

What `to_lua` writes, section by section, and the value of that chunk: a table
of the sections that have something in them, and the list of the strata.
-/

namespace SaltOS.Setup

open Lib Toml Config

/-! ## Answers -/

/-- What is written for a field. -/
inductive Answer where
  | text (content : Bytes)
  | flag (value : Bool)

def Answer.shown : Answer → Bytes
  | .text content => quote content
  | .flag value => if value then ascii "true" else ascii "false"

def Answer.token : Answer → Token
  | .text content => .text content
  | .flag value => .word (if value then ascii "true" else ascii "false")

def Answer.value : Answer → LuaValue
  | .text content => .str content
  | .flag value => .bool value

def Member.answer (member : Member) (config : SetupConfig) : Option Answer :=
  match member with
  | .str get _ =>
      if get config = [] then none else some (.text (get config))
  | .bool get _ => some (.flag (get config))

theorem Member.shown_eq (member : Member) (config : SetupConfig) :
    member.shown config = (member.answer config).map Answer.shown := by
  cases member with
  | str get set =>
      rw [shown, answer]
      split
      · rfl
      · rfl
  | bool get set => rfl

/-- The answers of a group of fields, with their names. -/
def groupAnswers (config : SetupConfig) (group : List Field) :
    List (Bytes × Answer) :=
  group.filterMap fun field =>
    (field.member.answer config).map fun answer => (field.name, answer)

def lineText (line : Bytes × Answer) : Bytes :=
  ascii "    " ++ line.1 ++ ascii " = " ++ line.2.shown ++ ascii ",\n"

/-! ## Sections -/

/-- The fields by their sections. -/
def sections : List (Bytes × List Field) :=
  [(ascii "system", fields.take 6), (ascii "install", (fields.drop 6).take 12),
    (ascii "boot", (fields.drop 18).take 4),
    (ascii "user", (fields.drop 22).take 9),
    (ascii "network", (fields.drop 31).take 3),
    (ascii "kernel", fields.drop 34)]

theorem fields_eq : fields = sections.flatMap Prod.snd :=
  rfl

theorem sections_named : ∀ part ∈ sections, ∀ field ∈ part.2,
    field.sectionName = part.1 := by
  decide +kernel

theorem sections_distinct : (sections.map Prod.fst).Nodup := by
  decide +kernel

theorem sections_nonempty : ∀ part ∈ sections, part.1 ≠ [] := by
  decide +kernel

def sectionText (part : Bytes × List (Bytes × Answer)) : Bytes :=
  ascii "  " ++ part.1 ++ ascii " = \x7b\n" ++ part.2.flatMap lineText ++
    sectionEnd

/-- The sections that are written, with their answers. -/
def savedSections (config : SetupConfig) :
    List (Bytes × List (Bytes × Answer)) :=
  (sections.map fun part => (part.1, groupAnswers config part.2)).filter
    fun part => part.2 ≠ []

/-- The text when the open section is closed. -/
def closed (state : Bytes × Bytes) : Bytes :=
  if state.2 = [] then state.1 else state.1 ++ sectionEnd

/-! ## The loop -/

section

variable {config : SetupConfig} {name : Bytes} {group : List Field}
  {state : Bytes × Bytes}

theorem writeField_none {field : Field}
    (isNone : field.member.answer config = none) :
    writeField config true state field = state := by
  have noText : field.member.shown config = none := by
    rw [Member.shown_eq, isNone]
    rfl
  unfold writeField
  rw [Bool.not_true, Bool.and_false, noText]
  rfl

theorem writeField_some {field : Field} {answer : Answer}
    (isSome : field.member.answer config = some answer) :
    writeField config true state field =
      ((if field.sectionName = state.2 then state.1
        else closed state ++ ascii "  " ++ field.sectionName ++
          ascii " = \x7b\n") ++ lineText (field.name, answer),
        field.sectionName) := by
  have isText : field.member.shown config = some answer.shown := by
    rw [Member.shown_eq, isSome]
    rfl
  unfold writeField
  rw [Bool.not_true, Bool.and_false, isText]
  simp only [lineText, closed, List.append_assoc]
  rfl

/-- Fields of the section that is open. -/
theorem writeGroup_open {out : Bytes}
    (named : ∀ field ∈ group, field.sectionName = name) :
    group.foldl (writeField config true) (out, name) =
      (out ++ (groupAnswers config group).flatMap lineText, name) := by
  induction group generalizing out with
  | nil => rw [List.foldl_nil, groupAnswers, List.filterMap_nil,
      List.flatMap_nil, List.append_nil]
  | cons field group induction =>
      have isName := named field List.mem_cons_self
      have others := fun other member =>
        named other (List.mem_cons_of_mem field member)
      rw [List.foldl_cons, groupAnswers, List.filterMap_cons]
      cases isAnswer : field.member.answer config with
      | none =>
          rw [writeField_none isAnswer]
          exact induction others
      | some answer =>
          rw [writeField_some isAnswer, isName, if_pos rfl, induction others,
            List.append_assoc]
          rfl

/-- Fields of another section. -/
theorem writeGroup (named : ∀ field ∈ group, field.sectionName = name)
    (differs : name ≠ state.2) :
    group.foldl (writeField config true) state =
      if groupAnswers config group = [] then state
      else (closed state ++ ascii "  " ++ name ++ ascii " = \x7b\n" ++
        (groupAnswers config group).flatMap lineText, name) := by
  induction group with
  | nil => exact (if_pos rfl).symm
  | cons field group induction =>
      have isName := named field List.mem_cons_self
      have others := fun other member =>
        named other (List.mem_cons_of_mem field member)
      rw [List.foldl_cons, groupAnswers, List.filterMap_cons]
      cases isAnswer : field.member.answer config with
      | none =>
          rw [writeField_none isAnswer]
          exact induction others
      | some answer =>
          rw [writeField_some isAnswer, isName, if_neg differs,
            writeGroup_open others]
          simp [groupAnswers]

end

theorem writeSections (config : SetupConfig)
    {parts : List (Bytes × List Field)} {state : Bytes × Bytes}
    (named : ∀ part ∈ parts, ∀ field ∈ part.2, field.sectionName = part.1)
    (distinct : (parts.map Prod.fst).Nodup)
    (nonempty : ∀ part ∈ parts, part.1 ≠ [])
    (fresh : state.2 ∉ parts.map Prod.fst) :
    closed ((parts.flatMap Prod.snd).foldl (writeField config true) state) =
      closed state ++ ((parts.map fun part =>
        (part.1, groupAnswers config part.2)).filter
          fun part => part.2 ≠ []).flatMap sectionText := by
  induction parts generalizing state with
  | nil => exact (List.append_nil _).symm
  | cons part parts induction =>
      rw [List.map_cons, List.nodup_cons] at distinct
      rw [List.map_cons, List.mem_cons, not_or] at fresh
      have isNamed := named part List.mem_cons_self
      have others := fun other member =>
        named other (List.mem_cons_of_mem part member)
      have othersNonempty := fun other member =>
        nonempty other (List.mem_cons_of_mem part member)
      rw [List.flatMap_cons, List.foldl_append,
        writeGroup isNamed (Ne.symm fresh.1), List.map_cons, List.filter_cons]
      by_cases none : groupAnswers config part.2 = []
      · rw [if_pos none, if_neg (by simp [none])]
        exact induction others distinct.2 othersNonempty fresh.2
      · rw [if_neg none, if_pos (by simp [none]),
          induction others distinct.2 othersNonempty distinct.1,
          List.flatMap_cons, ← List.append_assoc]
        congr 1
        rw [closed, if_neg (nonempty part List.mem_cons_self)]
        simp only [sectionText, List.append_assoc]

/-- `to_lua` writes the sections one behind the other. -/
theorem toLua_eq (config : SetupConfig) :
    toLua config true = luaHeader ++
      ((savedSections config).flatMap sectionText ++
        stratumText config.distro) := by
  have fresh : (luaHeader, ([] : Bytes)).2 ∉ sections.map Prod.fst := by
    intro member
    obtain ⟨part, isPart, isEmpty⟩ := List.mem_map.mp member
    exact sections_nonempty part isPart isEmpty
  have written := writeSections config sections_named sections_distinct
    sections_nonempty fresh
  rw [← fields_eq] at written
  rw [← List.append_assoc]
  exact congrArg (· ++ stratumText config.distro) written

end SaltOS.Setup
