import SaltOS.Archive.TarRead

/-!
# Entries that fit their records

`write_longname` marks every long name with the type of a long path, also the
long name of a link, and the reader attaches the last such record to the path
of the next entry.  Entries whose link names fit the header and whose paths
fit a record are read back; a longer link name is reported as the path.
-/

namespace SaltOS.Tar

/-- An entry as a caller of `salt_tar_writer_add` may pass it.  Only files
have contents and only symbolic links have a link name. -/
inductive Entry.HasKind (entry : Entry) : Prop where
  | file (contents : Bytes) (isFile : entry.typeflag = typeFile)
      (data : entry.data = some contents)
      (size : entry.size = contents.length)
      (small : contents.length < 8 ^ 11) (noLink : entry.linkname = none)
  | dir (isDir : entry.typeflag = typeDir) (data : entry.data = none)
      (size : entry.size = 0) (noLink : entry.linkname = none)
  | symlink (link : Bytes) (isLink : entry.typeflag = typeSymlink)
      (data : entry.data = none) (size : entry.size = 0)
      (linkname : entry.linkname = some link) (noNul : 0 ∉ link)

structure Entry.Valid (entry : Entry) : Prop where
  nonempty : entry.path ≠ []
  noNul : 0 ∉ entry.path
  mode : entry.mode ≤ 4095
  kind : entry.HasKind

/-- The entry that the reader should report.  It always sets a link name,
which is empty when the header has none. -/
def Entry.reported (entry : Entry) : Entry :=
  { entry with linkname := some (entry.linkname.getD []) }

/-- The path fits the size field of a long name record, and the link name fits
the header. -/
def Entry.Fits (entry : Entry) : Prop :=
  entry.path.length + 1 < 8 ^ 11 ∧
    ∀ link, entry.linkname = some link → link.length ≤ 100

/-! ## Entries that fit -/

theorem cstr_field_long {width : Nat} {text : Bytes} (noNul : 0 ∉ text) :
    cstr (field width text) = text.take width := by
  by_cases short : text.length ≤ width
  · rw [cstr_field short noNul, List.take_of_length_le short]
  · have noGap : width - text.length = 0 := by omega
    rw [field, noGap, List.replicate_zero, List.append_nil]
    apply cstr_eq_self
    exact fun member => noNul (List.mem_of_mem_take member)

/-- A record of type `'L'` becomes the pending path. -/
theorem readLoop_longname {name : Bytes} (fuel : Nat)
    (longname longlink : Option Bytes) (rest : Bytes) (noNul : 0 ∉ name)
    (fits : name.length + 1 < 8 ^ 11) :
    readLoop (fuel + 1) longname longlink (writeLongname name ++ rest) =
      readLoop fuel (some name) longlink rest := by
  have size : parseOctal (octal 12 (name.length + 1)) = name.length + 1 :=
    parseOctal_octal fits (by decide)
  obtain ⟨inside, whole, skipped⟩ := padBlock_read (name ++ [0]) rest
  rw [List.length_append, List.length_singleton] at inside whole skipped
  have text : cstr (name ++ [0]) = name := cstr_append_zero noNul
  rw [writeLongname, List.append_assoc,
    readLoop_header fuel (by decide)]
  simp only [size, inside, whole, skipped, text, and_false, if_false,
    if_true]

/-- The pending path of an entry, and the rounds its record takes. -/
def pendingPath (path : Bytes) : Option Bytes :=
  if path.length > 100 then some path else none

def pathRounds (path : Bytes) : Nat :=
  if path.length > 100 then 1 else 0

theorem readLoop_path {path : Bytes} (fuel : Nat) (rest : Bytes)
    (noNul : 0 ∉ path) (fits : path.length + 1 < 8 ^ 11) :
    readLoop (fuel + pathRounds path) none none
        ((if path.length > 100 then writeLongname path else []) ++ rest) =
      readLoop fuel (pendingPath path) none rest := by
  unfold pathRounds pendingPath
  split
  · exact readLoop_longname fuel none none rest noNul fits
  · rfl

theorem getD_pendingPath {path : Bytes} (noNul : 0 ∉ path) :
    (pendingPath path).getD (cstr (field 100 path)) = path := by
  unfold pendingPath
  split
  · rfl
  · rename_i short
    exact cstr_field (Nat.le_of_not_lt short) noNul

/-- The header and the contents behind the pending path. -/
theorem readLoop_entry {entry : Entry} (fuel : Nat) (rest : Bytes)
    (valid : entry.Valid) (fits : entry.Fits) :
    readLoop (fuel + 1) (pendingPath entry.path) none
        (fillHeader entry.path entry.typeflag entry.mode
            (if entry.typeflag = typeFile then entry.size else 0)
            entry.linkname ++
          (if entry.typeflag = typeFile ∧ entry.size > 0 then
            padBlock ((entry.data.getD []).take entry.size)
          else []) ++ rest) =
      (readLoop fuel none none rest).cons entry.reported := by
  have path := getD_pendingPath valid.noNul
  have noSize : parseOctal (octal 12 0) = 0 :=
    parseOctal_octal (by decide) (by decide)
  have noLink : cstr (field 100 ([] : Bytes)) = [] :=
    cstr_field (by simp) (by simp)
  rw [List.append_assoc,
    readLoop_header fuel (Nat.lt_succ_of_le valid.mode)]
  cases valid.kind with
  | file contents isFile data size small linkname =>
      have types : ¬ typeFile = 76 ∧ ¬ typeFile = 75 := by decide
      have sizeBack : parseOctal (octal 12 contents.length) =
          contents.length := parseOctal_octal small (by decide)
      have padded : (if typeFile = typeFile ∧ contents.length > 0 then
          padBlock ((Option.getD (some contents) []).take contents.length)
          else []) = padBlock contents := by
        by_cases empty : contents = []
        · subst empty
          decide
        · have positive : contents.length > 0 := List.length_pos_iff.mpr empty
          simp [positive]
      obtain ⟨inside, whole, skipped⟩ := padBlock_read contents rest
      rw [isFile, size, data, linkname, padded]
      simp only [sizeBack, inside, whole, skipped, types, path, noLink,
        Option.getD_none, if_true, if_false, and_false, true_or,
        Entry.reported, data, isFile, size, linkname]
  | dir isDir data size linkname =>
      have types : ¬ typeDir = 76 ∧ ¬ typeDir = 75 ∧ ¬ typeDir = typeFile ∧
          ¬ typeDir = 0 := by decide
      simp only [isDir, size, data, types, path, linkname, noLink, noSize,
        Option.getD_none, if_false, false_and, or_self, List.nil_append,
        Entry.reported]
  | symlink link isLink data size linkname noNul =>
      have types : ¬ typeSymlink = 76 ∧ ¬ typeSymlink = 75 ∧
          ¬ typeSymlink = typeFile ∧ ¬ typeSymlink = 0 := by decide
      have back := cstr_field (fits.2 link linkname) noNul
      simp only [isLink, size, data, types, path, linkname, back, noSize,
        Option.getD_none, Option.getD_some, if_false, false_and, or_self,
        List.nil_append, Entry.reported]

theorem writerAdd_fits {entry : Entry} (fits : entry.Fits) :
    writerAdd entry =
      (if entry.path.length > 100 then writeLongname entry.path else []) ++
      fillHeader entry.path entry.typeflag entry.mode
        (if entry.typeflag = typeFile then entry.size else 0)
        entry.linkname ++
      (if entry.typeflag = typeFile ∧ entry.size > 0 then
        padBlock ((entry.data.getD []).take entry.size)
      else []) := by
  cases isLink : entry.linkname with
  | none => simp only [writerAdd, isLink, List.append_nil]
  | some link =>
      have short := Nat.not_lt.mpr (fits.2 link isLink)
      simp only [writerAdd, isLink, if_neg short, List.append_nil]

/-- The rounds that the records of an entry take. -/
def entryRounds (entry : Entry) : Nat :=
  pathRounds entry.path + 1

/-- An entry that fits is read back. -/
theorem readLoop_writerAdd {entry : Entry} (fuel : Nat) (rest : Bytes)
    (valid : entry.Valid) (fits : entry.Fits) :
    readLoop (fuel + entryRounds entry) none none (writerAdd entry ++ rest) =
      (readLoop fuel none none rest).cons entry.reported := by
  have rounds : fuel + entryRounds entry =
      (fuel + 1) + pathRounds entry.path := by
    unfold entryRounds
    omega
  rw [writerAdd_fits fits, rounds]
  simp only [List.append_assoc]
  rw [readLoop_path _ _ valid.noNul fits.1, ← List.append_assoc,
    readLoop_entry fuel rest valid fits]

/-- The entries before the first one that does not fit are read back. -/
theorem readLoop_fitting {entries : List Entry}
    (valid : ∀ entry ∈ entries, entry.Valid)
    (fits : ∀ entry ∈ entries, entry.Fits) (fuel : Nat) (rest : Bytes) :
    readLoop (fuel + (entries.map entryRounds).sum) none none
        (entries.flatMap writerAdd ++ rest) =
      ⟨entries.map Entry.reported ++ (readLoop fuel none none rest).entries,
        (readLoop fuel none none rest).ending⟩ := by
  induction entries with
  | nil => rfl
  | cons entry entries induction =>
      have others := induction
        (fun other member => valid other (List.mem_cons_of_mem _ member))
        (fun other member => fits other (List.mem_cons_of_mem _ member))
      have rounds : fuel + ((entry :: entries).map entryRounds).sum =
          (fuel + (entries.map entryRounds).sum) + entryRounds entry := by
        simp only [List.map_cons, List.sum_cons]
        omega
      rw [rounds, List.flatMap_cons, List.append_assoc,
        readLoop_writerAdd _ _ (valid entry List.mem_cons_self)
          (fits entry List.mem_cons_self), others]
      rfl

theorem length_header (name : Bytes) (typeflag : UInt8) (mode size : Nat)
    (linkname : Option Bytes) :
    (fillHeader name typeflag mode size linkname).length = blockSize := by
  obtain ⟨checksum, eight, isHeader⟩ :=
    fillHeader_eq name typeflag mode size linkname
  rw [isHeader, headerWith_length eight]

theorem entryRounds_le (entry : Entry) :
    entryRounds entry ≤ (writerAdd entry).length := by
  unfold entryRounds pathRounds writerAdd writeLongname
  simp only [List.length_append, length_header, blockSize]
  split
  · simp only [List.length_append, length_header, blockSize]
    omega
  · omega

theorem sum_entryRounds_le (entries : List Entry) :
    (entries.map entryRounds).sum ≤ (entries.flatMap writerAdd).length := by
  induction entries with
  | nil => simp
  | cons entry entries induction =>
      have first := entryRounds_le entry
      simp only [List.map_cons, List.sum_cons, List.flatMap_cons,
        List.length_append]
      omega

/-- Every archive is read with more rounds than its fitting entries take. -/
theorem read_fitting {entries : List Entry}
    (valid : ∀ entry ∈ entries, entry.Valid)
    (fits : ∀ entry ∈ entries, entry.Fits) (rest : Bytes) :
    ∃ fuel, rest.length < fuel ∧ read (entries.flatMap writerAdd ++ rest) =
      ⟨entries.map Entry.reported ++ (readLoop fuel none none rest).entries,
        (readLoop fuel none none rest).ending⟩ := by
  have rounds := sum_entryRounds_le entries
  refine ⟨(entries.flatMap writerAdd ++ rest).length + 1 -
    (entries.map entryRounds).sum, ?_, ?_⟩
  · rw [List.length_append]
    omega
  · rw [← readLoop_fitting valid fits, read]
    congr 1
    rw [List.length_append]
    omega

theorem read_writeAll_fitting {entries : List Entry}
    (valid : ∀ entry ∈ entries, entry.Valid)
    (fits : ∀ entry ∈ entries, entry.Fits) :
    read (writeAll entries) =
      ⟨entries.map Entry.reported, .complete⟩ := by
  obtain ⟨fuel, enough, isRead⟩ := read_fitting valid fits writerFinish
  obtain ⟨rounds, rfl⟩ : ∃ rounds, fuel = rounds + 1 :=
    ⟨fuel - 1, by omega⟩
  rw [writeAll, isRead, readLoop_finish, List.append_nil]

/-! ## A link name that does not fit -/

/-- The record of a long link name takes the place of the path. -/
theorem readLoop_long_link {entry : Entry} {link : Bytes}
    (valid : entry.Valid) (isLink : entry.linkname = some link)
    (long : 100 < link.length) (pathFits : entry.path.length + 1 < 8 ^ 11)
    (linkFits : link.length + 1 < 8 ^ 11) (fuel : Nat) (rest : Bytes) :
    ∃ others ending, readLoop (fuel + 1 + 1 + pathRounds entry.path) none
        none (writerAdd entry ++ rest) =
      ⟨⟨link, typeSymlink, entry.mode, 0, some (link.take 100), none⟩ ::
        others, ending⟩ := by
  cases valid.kind with
  | file _ _ _ _ _ noLink => simp [noLink] at isLink
  | dir _ _ _ noLink => simp [noLink] at isLink
  | symlink target isSymlink data size linkname noNul =>
      obtain rfl : target = link := by
        rw [linkname] at isLink
        exact Option.some.inj isLink
      have types : ¬ typeSymlink = 76 ∧ ¬ typeSymlink = 75 ∧
          ¬ typeSymlink = typeFile ∧ ¬ typeSymlink = 0 := by decide
      have noSize : parseOctal (octal 12 0) = 0 :=
        parseOctal_octal (by decide) (by decide)
      have bytes : writerAdd entry ++ rest =
          (if entry.path.length > 100 then writeLongname entry.path
            else []) ++ (writeLongname target ++
              (fillHeader entry.path typeSymlink entry.mode 0
                (some target) ++ rest)) := by
        simp only [writerAdd, linkname, isSymlink, types, long, if_true,
          if_false, false_and, List.append_nil, List.append_assoc]
      refine ⟨(readLoop fuel none none rest).entries,
        (readLoop fuel none none rest).ending, ?_⟩
      rw [bytes, readLoop_path _ _ valid.noNul pathFits,
        readLoop_longname _ _ _ _ noNul linkFits,
        readLoop_header fuel (Nat.lt_succ_of_le valid.mode)]
      simp only [types, noSize, Option.getD_some, Option.getD_none, if_false,
        false_and, or_self, cstr_field_long noNul]
      rfl

end SaltOS.Tar
