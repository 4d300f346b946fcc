import SaltOS.Strata.Accounts

/-!
# Accounts are kept, and spread

Whatever is run in the strata, the accounts of a place where no command runs
are only added to, by lines of people whose names are new there.  A run by
root that changed accounts leaves nobody behind: the host knows everybody of
the stratum, and every other stratum everybody of the host.
-/

namespace SaltOS.Strata

open Lib

/-! ## Lines that are appended -/

theorem fileLines_append_newline (content rest : Bytes) :
    fileLines (content ++ 10 :: rest) =
      fileLines content ++ fileLines rest := by
  rw [fileLines, List.splitOn_append_cons_self, List.filter_append]
  rfl

theorem fileLines_ended (content rest : Bytes) :
    fileLines (Slot.ended content ++ rest) =
      fileLines content ++ fileLines rest := by
  unfold Slot.ended
  split
  · rw [List.append_assoc]
    exact fileLines_append_newline content rest
  · rename_i isEnded
    rcases List.eq_nil_or_concat content with rfl | ⟨front, last, isConcat⟩
    · rfl
    · have isNewline : last = 10 := by
        by_contra other
        apply isEnded
        rw [isConcat, List.concat_eq_append]
        simp [other]
      have isContent : content = front ++ 10 :: [] := by
        rw [isConcat, isNewline, List.concat_eq_append]
      rw [isContent, fileLines_append_newline, List.append_assoc,
        List.cons_append, List.nil_append, fileLines_append_newline]
      simp [fileLines]

theorem fileLines_joined {lines : List Bytes}
    (whole : ∀ line ∈ lines, line ≠ [] ∧ 10 ∉ line) :
    fileLines (lines.flatMap (· ++ [10])) = lines := by
  induction lines with
  | nil => rfl
  | cons line lines induction =>
      obtain ⟨lineWhole, restWhole⟩ := List.forall_mem_cons.mp whole
      have isJoined : (line :: lines).flatMap (· ++ [10]) =
          line ++ 10 :: lines.flatMap (· ++ [10]) := by
        simp
      have isLine : fileLines line = [line] := by
        rw [fileLines, List.splitOn_eq_singleton lineWhole.2]
        simp [lineWhole.1]
      rw [isJoined, fileLines_append_newline, isLine, induction restWhole]
      rfl

theorem whole_of_mem_fileLines {content line : Bytes}
    (member : line ∈ fileLines content) : line ≠ [] ∧ 10 ∉ line := by
  obtain ⟨isPiece, nonempty⟩ := List.mem_filter.mp member
  exact ⟨by simpa using nonempty, not_mem_of_mem_splitOn isPiece⟩

/-! ## Slots -/

namespace Slot

/-- A file has grown by wanted lines of new names; if it was written, it has
the mode. -/
structure Grown (wanted : Bytes → Prop) (mode : Nat) (before after : Slot) :
    Prop where
  writable : after.writable = before.writable
  content : before.content <+: after.content
  lines : GrownBy firstField wanted before.lines after.lines
  mode : after = before ∨ ∃ content, after.file = some ⟨content, mode⟩

namespace Grown

variable {wanted : Bytes → Prop} {mode : Nat} {before middle after : Slot}

theorem refl (slot : Slot) : Grown wanted mode slot slot where
  writable := rfl
  content := List.prefix_refl _
  lines := GrownBy.refl _
  mode := .inl rfl

theorem trans (first : Grown wanted mode before middle)
    (second : Grown wanted mode middle after) :
    Grown wanted mode before after where
  writable := second.writable.trans first.writable
  content := first.content.trans second.content
  lines := first.lines.trans second.lines
  mode := by
    rcases second.mode with rfl | written
    · exact first.mode
    · exact .inr written

end Grown

theorem lines_appendLines {slot : Slot} {lines : List Bytes}
    (isWritable : slot.writable = true) (mode : Nat)
    (whole : ∀ line ∈ lines, line ≠ [] ∧ 10 ∉ line) :
    (slot.appendLines mode lines).lines = slot.lines ++ lines := by
  unfold appendLines
  split
  · rename_i skipped
    rcases skipped with rfl | readOnly
    · exact (List.append_nil _).symm
    · exact absurd isWritable readOnly
  · change fileLines (ended slot.content ++ lines.flatMap (· ++ [10])) = _
    rw [fileLines_ended, fileLines_joined whole]
    rfl

theorem ended_prefix (content rest : Bytes) :
    content <+: ended content ++ rest := by
  unfold ended
  split
  · rw [List.append_assoc]
    exact List.prefix_append _ _
  · exact List.prefix_append _ _

theorem appendLines_readOnly {slot : Slot} {lines : List Bytes}
    (readOnly : ¬ slot.writable = true) (mode : Nat) :
    slot.appendLines mode lines = slot :=
  if_pos (.inr readOnly)

/-- What `append_lines` does when lines of missing names are appended. -/
theorem addMissing_grown {wanted : Bytes → Prop} {lines : List Bytes}
    (slot : Slot) (mode : Nat)
    (allWanted : ∀ line ∈ lines, wanted line)
    (whole : ∀ line ∈ lines, line ≠ [] ∧ 10 ∉ line) :
    Grown wanted mode slot (slot.addMissing mode lines) := by
  by_cases isWritable : slot.writable = true
  · have missingWhole : ∀ line ∈ missingRows firstField slot.lines lines,
        line ≠ [] ∧ 10 ∉ line := by
      intro line member
      exact whole line (mem_missingRows.mp member).1
    refine ⟨?_, ?_, ?_, ?_⟩
    · unfold addMissing appendLines
      split <;> rfl
    · unfold addMissing appendLines
      split
      · exact List.prefix_refl _
      · exact ended_prefix slot.content _
    · rw [addMissing, lines_appendLines isWritable mode missingWhole]
      exact GrownBy.missing slot.lines allWanted
    · unfold addMissing appendLines
      split
      · exact .inl rfl
      · exact .inr ⟨_, rfl⟩
  · rw [addMissing, appendLines_readOnly isWritable]
    exact .refl slot

/-- Every name is there, unless the file cannot be written. -/
def Covers (slot : Slot) (lines : List Bytes) : Prop :=
  slot.writable = true →
    ∀ line ∈ lines, firstField line ∈ slot.lines.map firstField

theorem addMissing_writable {lines : List Bytes} (slot : Slot) (mode : Nat)
    (whole : ∀ line ∈ lines, line ≠ [] ∧ 10 ∉ line) :
    (slot.addMissing mode lines).writable = slot.writable := by
  have grown : Grown (fun _ => True) mode slot (slot.addMissing mode lines) :=
    addMissing_grown slot mode (fun _ _ => trivial) whole
  exact grown.writable

theorem addMissing_covers {lines : List Bytes} (slot : Slot) (mode : Nat)
    (whole : ∀ line ∈ lines, line ≠ [] ∧ 10 ∉ line) :
    (slot.addMissing mode lines).Covers lines := by
  intro isWritable line member
  have wasWritable : slot.writable = true := by
    rw [← addMissing_writable slot mode whole]
    exact isWritable
  rw [addMissing, lines_appendLines wasWritable mode
    fun line inMissing => whole line (mem_missingRows.mp inMissing).1]
  exact key_mem_of_added member

theorem Covers.of_grown {wanted : Bytes → Prop} {mode : Nat}
    {before after : Slot} {lines : List Bytes} (covers : before.Covers lines)
    (grown : Grown wanted mode before after) : after.Covers lines := by
  intro isWritable line member
  apply grown.lines.keys
  exact covers (grown.writable ▸ isWritable) line member

end Slot

/-! ## Accounts -/

namespace Etc

theorem people_whole (etc : Etc) :
    ∀ line ∈ etc.people, line ≠ [] ∧ 10 ∉ line := by
  intro line member
  exact whole_of_mem_fileLines (List.mem_filter.mp member).1

theorem secrets_whole (etc : Etc) :
    ∀ line ∈ etc.secrets, line ≠ [] ∧ 10 ∉ line := by
  intro line member
  exact whole_of_mem_fileLines (List.mem_filter.mp member).1

theorem groups_whole (etc : Etc) :
    ∀ line ∈ etc.groups, line ≠ [] ∧ 10 ∉ line := by
  intro line member
  exact whole_of_mem_fileLines (List.mem_filter.mp member).1

/-- Accounts have only been added: those of people, and a secret only for a
name that has an account. -/
structure Grown (before after : Etc) : Prop where
  passwd : before.passwd.Grown (fun line => isHuman line = true) 0o644
    after.passwd
  shadow : before.shadow.Grown (fun line => firstField line ≠ []) 0o600
    after.shadow
  group : before.group.Grown (fun line => isHuman line = true) 0o644
    after.group
  owned : before.passwd.writable = true → ∀ line ∈ after.shadow.lines,
    line ∈ before.shadow.lines ∨
      firstField line ∈ after.passwd.lines.map firstField

namespace Grown

variable {before middle after : Etc}

theorem refl (etc : Etc) : Grown etc etc where
  passwd := .refl _
  shadow := .refl _
  group := .refl _
  owned := fun _ _ member => .inl member

theorem trans (first : Grown before middle) (second : Grown middle after) :
    Grown before after where
  passwd := first.passwd.trans second.passwd
  shadow := first.shadow.trans second.shadow
  group := first.group.trans second.group
  owned := by
    intro isWritable line member
    have stillWritable := first.passwd.writable.trans isWritable
    rcases second.owned stillWritable line member with inMiddle | named
    · rcases first.owned isWritable line inMiddle with inBefore | named
      · exact .inl inBefore
      · exact .inr (second.passwd.lines.keys named)
    · exact .inr named

end Grown

end Etc

theorem appendMissingIdentity_grown (source target : Etc) :
    target.Grown (appendMissingIdentity source target) := by
  unfold appendMissingIdentity
  split
  · exact .refl target
  · have secretsNamed : ∀ line ∈ source.secrets, firstField line ≠ [] ∧
        firstField line ∈ source.people.map firstField := by
      intro line member
      simpa using (List.mem_filter.mp member).2
    constructor
    · apply Slot.addMissing_grown _ _ _ source.people_whole
      intro line member
      exact (List.mem_filter.mp member).2
    · apply Slot.addMissing_grown _ _ _ source.secrets_whole
      intro line member
      exact (secretsNamed line member).1
    · apply Slot.addMissing_grown _ _ _ source.groups_whole
      intro line member
      exact (List.mem_filter.mp member).2
    · intro isWritable line member
      by_cases old : line ∈ target.shadow.lines
      · exact .inl old
      · -- A line that is new is a secret of the source.
        have isSecret : line ∈ source.secrets := by
          by_cases shadowWritable : target.shadow.writable = true
          · change line ∈ (target.shadow.addMissing 0o600
              source.secrets).lines at member
            rw [Slot.addMissing, Slot.lines_appendLines shadowWritable _
              fun line inMissing => source.secrets_whole line
                (mem_missingRows.mp inMissing).1] at member
            rcases List.mem_append.mp member with isOld | isNew
            · exact absurd isOld old
            · exact (mem_missingRows.mp isNew).1
          · change line ∈ (target.shadow.addMissing 0o600
              source.secrets).lines at member
            rw [Slot.addMissing,
              Slot.appendLines_readOnly shadowWritable] at member
            exact absurd member old
        obtain ⟨person, isPerson, sameName⟩ :=
          List.mem_map.mp (secretsNamed line isSecret).2
        apply Or.inr
        rw [← sameName]
        have covers := Slot.addMissing_covers target.passwd 0o644
          source.people_whole
        have sameWritable :=
          Slot.addMissing_writable target.passwd 0o644 source.people_whole
        exact covers (sameWritable.trans isWritable) person isPerson

/-- Everybody whom the source knows has an entry in the target, as far as its
files can be written.  Without `passwd` nothing of the source is read. -/
structure Etc.Knows (target source : Etc) : Prop where
  passwd : target.passwd.Covers source.people
  shadow : target.shadow.Covers source.secrets
  group : source.passwd.file.isSome → target.group.Covers source.groups

theorem appendMissingIdentity_knows (source target : Etc) :
    (appendMissingIdentity source target).Knows source := by
  unfold appendMissingIdentity
  split
  · rename_i noPasswd
    have noFile := Option.isNone_iff_eq_none.mp noPasswd
    have nobody : source.people = [] := by
      rw [Etc.people, Slot.lines, Slot.content, noFile]
      rfl
    have noSecrets : source.secrets = [] := by
      rw [Etc.secrets, nobody]
      simp
    constructor
    · rw [nobody]
      exact fun _ line member => absurd member List.not_mem_nil
    · rw [noSecrets]
      exact fun _ line member => absurd member List.not_mem_nil
    · rw [noFile]
      exact fun isSome => absurd isSome Bool.false_ne_true
  constructor
  · exact Slot.addMissing_covers _ _ source.people_whole
  · exact Slot.addMissing_covers _ _ source.secrets_whole
  · exact fun _ => Slot.addMissing_covers _ _ source.groups_whole

theorem Etc.Knows.of_grown {source before after : Etc}
    (knows : before.Knows source) (grown : before.Grown after) :
    after.Knows source where
  passwd := knows.passwd.of_grown grown.passwd
  shadow := knows.shadow.of_grown grown.shadow
  group := fun hasPasswd => (knows.group hasPasswd).of_grown grown.group

/-! ## Runs -/

variable {π : Type} [DecidableEq π]

theorem push_grown (source target : π) (etcs : π → Etc) (place : π) :
    (etcs place).Grown (push source target etcs place) := by
  unfold push putEtc
  split
  · rename_i isTarget
    subst isTarget
    exact appendMissingIdentity_grown _ _
  · exact .refl _

theorem push_knows (source target : π) (etcs : π → Etc) :
    (push source target etcs target).Knows (etcs source) := by
  rw [push, putEtc, if_pos rfl]
  exact appendMissingIdentity_knows _ _

theorem fanOut_grown (layout : Layout π) (rows : List StratumRow)
    (etcs : π → Etc) (place : π) :
    (etcs place).Grown (fanOut layout rows etcs place) := by
  induction rows generalizing etcs with
  | nil => exact .refl _
  | cons row rows induction =>
      exact (push_grown _ _ etcs place).trans (induction _)

/-- Adding its own accounts to a directory adds nothing. -/
theorem appendMissingIdentity_self (etc : Etc) :
    appendMissingIdentity etc etc = etc := by
  have nothing : ∀ (slot : Slot) (mode : Nat) (lines : List Bytes),
      (∀ line ∈ lines, line ∈ slot.lines) →
        slot.addMissing mode lines = slot := by
    intro slot mode lines inside
    have noneMissing : missingRows firstField slot.lines lines = [] := by
      apply missingRows_eq_nil_iff.mpr
      intro line member
      exact List.mem_map_of_mem (inside line member)
    rw [Slot.addMissing, noneMissing, Slot.appendLines, if_pos (.inl rfl)]
  unfold appendMissingIdentity
  split
  · rfl
  · have samePasswd := nothing etc.passwd 0o644 etc.people
      fun line member => (List.mem_filter.mp member).1
    have sameShadow := nothing etc.shadow 0o600 etc.secrets
      fun line member => (List.mem_filter.mp member).1
    have sameGroup := nothing etc.group 0o644 etc.groups
      fun line member => (List.mem_filter.mp member).1
    rw [samePasswd, sameShadow, sameGroup]

theorem push_source (source target : π) (etcs : π → Etc) :
    push source target etcs source = etcs source := by
  unfold push putEtc
  split
  · rename_i same
    rw [← same]
    exact appendMissingIdentity_self _
  · rfl

/-- While accounts are spread, those of the host stay as they are. -/
theorem fanOut_host (layout : Layout π) (rows : List StratumRow)
    (etcs : π → Etc) :
    fanOut layout rows etcs layout.host = etcs layout.host := by
  induction rows generalizing etcs with
  | nil => rfl
  | cons row rows induction =>
      apply (induction _).trans
      exact push_source _ _ etcs

theorem fanOut_knows (layout : Layout π) {rows : List StratumRow}
    {row : StratumRow} (member : row ∈ rows) (etcs : π → Etc) :
    (fanOut layout rows etcs (layout.place row.root)).Knows
      (etcs layout.host) := by
  induction rows generalizing etcs with
  | nil => cases member
  | cons first rows induction =>
      rcases List.mem_cons.mp member with rfl | inside
      · apply (push_knows layout.host (layout.place row.root) etcs).of_grown
        exact fanOut_grown layout rows _ _
      · have later := induction inside
          (push layout.host (layout.place first.root) etcs)
        rw [push_source] at later
        exact later

theorem beforeCommand_grown (layout : Layout π) (run : AccountRun)
    (etcs : π → Etc) (place : π) :
    (etcs place).Grown (beforeCommand layout run etcs place) := by
  unfold beforeCommand
  split
  · exact push_grown _ _ _ _
  · exact .refl _

theorem putEtc_other {place other : π} (differ : other ≠ place)
    (etcs : π → Etc) (etc : Etc) : putEtc etcs place etc other = etcs other :=
  if_neg differ

theorem cmdRun_grown {layout : Layout π} {run : AccountRun} {place : π}
    (elsewhere : layout.place run.stratum.root ≠ place) (etcs : π → Etc) :
    (etcs place).Grown (cmdRun layout run etcs place) := by
  have started := beforeCommand_grown layout run etcs place
  have commanded : (etcs place).Grown (putEtc (beforeCommand layout run etcs)
      (layout.place run.stratum.root) (run.command (beforeCommand layout run
        etcs (layout.place run.stratum.root))) place) := by
    rw [putEtc_other (Ne.symm elsewhere)]
    exact started
  unfold cmdRun
  split
  · apply commanded.trans
    exact (push_grown _ _ _ _).trans (fanOut_grown _ _ _ _)
  · exact commanded

theorem cmdRuns_grown {layout : Layout π} {runs : List AccountRun} {place : π}
    (elsewhere : ∀ run ∈ runs, layout.place run.stratum.root ≠ place)
    (etcs : π → Etc) :
    (etcs place).Grown (cmdRuns layout runs etcs place) := by
  induction runs generalizing etcs with
  | nil => exact .refl _
  | cons run runs induction =>
      obtain ⟨here, later⟩ := List.forall_mem_cons.mp elsewhere
      exact (cmdRun_grown here etcs).trans (induction later _)

/-- A host with an account, and an empty stratum. -/
def boxLayout : Layout Bytes where
  host := ascii "/etc"
  place root := root ++ ascii "/etc"

def rootLine : Bytes :=
  ascii "root:x:0:0::/root:/bin/sh"

def bobLine : Bytes :=
  ascii "bob:x:1001:1001::/home/bob:/bin/sh"

def boxEtcs (place : Bytes) : Etc :=
  let missing : Slot := ⟨none, true⟩
  if place = boxLayout.host then
    ⟨⟨some ⟨rootLine, 0o644⟩, true⟩, missing, missing⟩
  else ⟨missing, missing, missing⟩

/-- `useradd bob`, in the stratum `box`. -/
def bobRun : AccountRun where
  asRoot := true
  stratum := ⟨ascii "box", ascii "/strata/box"⟩
  command := fun etc =>
    { etc with passwd := etc.passwd.appendLines 0o644 [bobLine] }
  carriedOut := true
  changed := true
  listed := []

end SaltOS.Strata
