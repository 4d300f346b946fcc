import Mathlib.Data.Finset.Max
import SaltOS.Archive.TarRecords

/-!
# When the tar reader undoes the tar writer

The reader reports exactly the written entries when every entry fits, and for
any other list it reports something else.
-/

namespace SaltOS.Tar

/-! ## The round trip -/

/-- The path and the link name of an entry. -/
def entryTexts (entry : Entry) : List Bytes :=
  [entry.path, entry.linkname.getD []]

theorem exists_longest {entries : List Entry} {text : Bytes}
    (member : text ∈ entries.flatMap entryTexts) :
    ∃ longest ∈ entries.flatMap entryTexts, text.length ≤ longest.length ∧
      ∀ other ∈ entries.flatMap entryTexts,
        other.length ≤ longest.length := by
  obtain ⟨longest, isMember, isLongest⟩ := Finset.exists_max_image
    (entries.flatMap entryTexts).toFinset List.length
    ⟨text, List.mem_toFinset.mpr member⟩
  refine ⟨longest, List.mem_toFinset.mp isMember, ?_, ?_⟩
  · exact isLongest text (List.mem_toFinset.mpr member)
  · exact fun other isOther => isLongest other (List.mem_toFinset.mpr isOther)

theorem writeAll_eq (entries : List Entry) :
    writeAll entries =
      (entries.flatMap entryPieces).flatMap Piece.bytes ++ writerFinish := by
  rw [writeAll, List.flatMap_assoc]
  congr 2
  funext entry
  exact writerAdd_eq entry

/-- The longest text of the entries stands in some record, so every text fits
a size field. -/
theorem texts_short_of_read {entries : List Entry}
    (valid : ∀ entry ∈ entries, entry.Valid)
    (back : (read (writeAll entries)).entries =
      entries.map Entry.reported) :
    ∀ text ∈ entries.flatMap entryTexts, text.length + 1 < 8 ^ 11 := by
  intro text isText
  by_contra large
  obtain ⟨longest, isMember, atLeast, isLongest⟩ := exists_longest isText
  obtain ⟨entry, isEntry, isOwn⟩ := List.mem_flatMap.mp isMember
  have reported : entry.reported ∈ (read (writeAll entries)).entries := by
    rw [back]
    exact List.mem_map_of_mem isEntry
  have reports : entry.reported.path = longest ∨
      entry.reported.linkname = some longest := by
    simp only [entryTexts, List.mem_cons, List.not_mem_nil, or_false] at isOwn
    rcases isOwn with isPath | isLink
    · exact .inl isPath.symm
    · exact .inr (congrArg some isLink.symm)
  have long : 255 < longest.length := by omega
  rcases recorded_of_readLoop reported reports long with none | none |
    recorded
  · cases none
  · cases none
  · rw [writeAll_eq] at recorded
    have shorter : longest.length < longest.length := by
      apply recorded.length_lt
      intro piece isPiece
      obtain ⟨owner, isOwner, inOwner⟩ := List.mem_flatMap.mp isPiece
      have texts := fun other member => isLongest other
        (List.mem_flatMap.mpr ⟨owner, isOwner, member⟩)
      apply entryPieces_below (valid owner isOwner) _ _ (by omega) piece
        inOwner
      · exact texts _ (by simp [entryTexts])
      · exact texts _ (by simp [entryTexts])
    omega

/-- The entries before the first one without a property. -/
theorem exists_first {property : Entry → Prop} {entries : List Entry}
    (fails : ¬ ∀ entry ∈ entries, property entry) :
    ∃ before entry after, entries = before ++ entry :: after ∧
      (∀ other ∈ before, property other) ∧ ¬ property entry := by
  induction entries with
  | nil => exact absurd (fun _ member => by cases member) fails
  | cons entry entries induction =>
      by_cases holds : property entry
      · have later : ¬ ∀ other ∈ entries, property other := by
          intro all
          apply fails
          intro other member
          rcases List.mem_cons.mp member with rfl | inside
          · exact holds
          · exact all other inside
        obtain ⟨before, first, after, rfl, all, isFirst⟩ := induction later
        refine ⟨entry :: before, first, after, rfl, ?_, isFirst⟩
        intro other member
        rcases List.mem_cons.mp member with rfl | inside
        · exact holds
        · exact all other inside
      · exact ⟨[], entry, entries, rfl, by simp, holds⟩

theorem fits_of_read {entries : List Entry}
    (valid : ∀ entry ∈ entries, entry.Valid)
    (back : (read (writeAll entries)).entries =
      entries.map Entry.reported) :
    ∀ entry ∈ entries, entry.Fits := by
  have short := texts_short_of_read valid back
  by_contra fails
  obtain ⟨before, entry, after, rfl, fitting, bad⟩ := exists_first fails
  have isValid := valid entry (by simp)
  have pathFits := short entry.path (by simp [entryTexts])
  have linkFits := short (entry.linkname.getD []) (by simp [entryTexts])
  obtain ⟨link, isLink, long⟩ : ∃ link, entry.linkname = some link ∧
      100 < link.length := by
    by_contra none
    apply bad
    refine ⟨pathFits, fun link isLink => ?_⟩
    by_contra long
    exact none ⟨link, isLink, by omega⟩
  rw [isLink, Option.getD_some] at linkFits
  have stream : writeAll (before ++ entry :: after) =
      before.flatMap writerAdd ++ (writerAdd entry ++ writeAll after) := by
    simp [writeAll]
  obtain ⟨fuel, enough, isRead⟩ := read_fitting
    (fun other member => valid other (List.mem_append_left _ member))
    fitting (writerAdd entry ++ writeAll after)
  obtain ⟨rounds, rfl⟩ : ∃ rounds,
      fuel = rounds + 1 + 1 + pathRounds entry.path := by
    have wrote := entryRounds_le entry
    rw [List.length_append] at enough
    unfold entryRounds at wrote
    exact ⟨fuel - 2 - pathRounds entry.path, by omega⟩
  obtain ⟨others, ending, first⟩ := readLoop_long_link isValid isLink long
    pathFits linkFits rounds (writeAll after)
  rw [stream, isRead, first, List.map_append, List.map_cons] at back
  have heads := (List.cons.inj (List.append_cancel_left back)).1
  have links := congrArg Entry.linkname heads
  simp only [Entry.reported, isLink, Option.getD_some,
    Option.some.injEq] at links
  have lengths := congrArg List.length links
  rw [List.length_take] at lengths
  omega

/-- The reader reports the written entries exactly when every link name fits
its header field and every path fits a long name record. -/
theorem read_writeAll_iff_fits (entries : List Entry)
    (valid : ∀ entry ∈ entries, entry.Valid) :
    read (writeAll entries) = ⟨entries.map Entry.reported, .complete⟩ ↔
      ∀ entry ∈ entries, entry.Fits := by
  constructor
  · intro back
    apply fits_of_read valid
    rw [back]
  · exact read_writeAll_fitting valid

/-- A symbolic link `l` to a target of the given length. -/
def linkOfLength (length : Nat) : Entry where
  path := ascii "l"
  typeflag := typeSymlink
  mode := 511
  size := 0
  linkname := some (List.replicate length 97)
  data := none

theorem linkOfLength_valid (length : Nat) : (linkOfLength length).Valid where
  nonempty := List.cons_ne_nil _ _
  noNul := (by decide : 0 ∉ ascii "l")
  mode := (by decide : 511 ≤ 4095)
  kind := .symlink (List.replicate length 97) rfl rfl rfl rfl (by
    intro member
    exact absurd (List.eq_of_mem_replicate member) (by decide))

/-- A file under a long path. -/
def longPathFile : Entry where
  path := List.replicate 101 112
  typeflag := typeFile
  mode := 420
  size := 2
  linkname := none
  data := some (ascii "ab")

theorem longPathFile_valid : longPathFile.Valid where
  nonempty := List.cons_ne_nil _ _
  noNul := (by decide : 0 ∉ List.replicate 101 (112 : UInt8))
  mode := (by decide : 420 ≤ 4095)
  kind := .file (ascii "ab") rfl rfl rfl (by decide) rfl

theorem read_writeAll_iff_fits_long_path :
    (∀ entry ∈ [longPathFile, linkOfLength 100], entry.Valid) ∧
    (read (writeAll [longPathFile, linkOfLength 100]) =
        ⟨[longPathFile, linkOfLength 100].map Entry.reported, .complete⟩ ↔
      ∀ entry ∈ [longPathFile, linkOfLength 100], entry.Fits) := by
  have valid : ∀ entry ∈ [longPathFile, linkOfLength 100], entry.Valid := by
    intro entry member
    simp only [List.mem_cons, List.not_mem_nil, or_false] at member
    rcases member with rfl | rfl
    · exact longPathFile_valid
    · exact linkOfLength_valid 100
  exact ⟨valid, read_writeAll_iff_fits _ valid⟩

/-- A link name of 101 bytes is reported as the path. -/
theorem long_link_name_replaces_path :
    ¬ ∀ entries : List Entry, (∀ entry ∈ entries, entry.Valid) →
      read (writeAll entries) =
        ⟨entries.map Entry.reported, .complete⟩ := by
  intro back
  have valid : ∀ entry ∈ [linkOfLength 101], entry.Valid := by
    intro entry member
    rw [List.mem_singleton.mp member]
    exact linkOfLength_valid 101
  have isRead := congrArg Reading.entries (back [linkOfLength 101] valid)
  have reported : ((read (writeAll [linkOfLength 101])).entries.map
      Entry.path) = [List.replicate 101 97] := by
    decide +kernel
  rw [isRead] at reported
  exact absurd reported (by decide)

end SaltOS.Tar
