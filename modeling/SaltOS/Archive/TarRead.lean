import SaltOS.Archive.Tar

/-!
# Reading what the writer wrote

The fields of a written header are read back at their offsets, and a written
file entry is read back with its contents.
-/

namespace SaltOS.Tar

theorem slice_append (start length : Nat) (before middle after : Bytes)
    (startEq : before.length = start) (lengthEq : middle.length = length) :
    slice (before ++ middle ++ after) start length = middle := by
  subst startEq lengthEq
  simp [slice]

@[simp] theorem field_length (width : Nat) (text : Bytes) :
    (field width text).length = width := by
  simp [field]
  omega

theorem cstr_field {width : Nat} {text : Bytes} (short : text.length ≤ width)
    (noNul : 0 ∉ text) : cstr (field width text) = text := by
  rw [field, List.take_of_length_le short]
  cases gap : width - text.length with
  | zero => simpa using cstr_eq_self noNul
  | succ count => exact cstr_append_zero noNul

@[simp] theorem octal_length (width : Nat) (positive : 0 < width)
    (value : Nat) : (octal width value).length = width := by
  simp [octal, padZeros]
  omega

theorem isOctalDigit_zeros (count : Nat) :
    (List.replicate count (48 : UInt8)).filter isOctalDigit =
      List.replicate count 48 := by
  refine List.filter_eq_self.mpr (fun byte member => ?_)
  rw [List.eq_of_mem_replicate member]
  decide

theorem printBase_octal (value : Nat) :
    (printBase 8 value).filter isOctalDigit = printBase 8 value := by
  refine List.filter_eq_self.mpr (fun byte member => ?_)
  have bounds := printBase_bounds (by decide) (by decide) byte member
  have low : (48 : UInt8) ≤ byte := UInt8.le_iff_toNat_le.mpr bounds.1
  have high : byte ≤ (55 : UInt8) := UInt8.le_iff_toNat_le.mpr (by
    change byte.toNat ≤ 55
    omega)
  simp [isOctalDigit, low, high]

/-- A number that fits its field is read back. -/
theorem parseOctal_octal {width value : Nat} (fits : value < 8 ^ width)
    (positive : 0 < width) : parseOctal (octal (width + 1) value) = value := by
  have short := printBase_length 8 _ _ (by decide) positive fits
  have whole : (padZeros width (printBase 8 value)).take width =
      padZeros width (printBase 8 value) :=
    List.take_of_length_le (Nat.le_of_eq (padZeros_length short))
  have noZero : ([0] : Bytes).filter isOctalDigit = [] := by decide
  rw [octal, Nat.add_sub_cancel, whole, parseOctal, List.filter_append,
    noZero, List.append_nil, padZeros, List.filter_append,
    isOctalDigit_zeros, printBase_octal, readBase_zeros,
    readBase_printBase (by decide) (by decide)]

/-- The part of a header behind the link name. -/
def headerTail : Bytes :=
  ascii "ustar" ++ [0] ++ ascii "00" ++ List.replicate 247 0

theorem headerTail_length : headerTail.length = 255 := by
  simp only [headerTail, List.length_append, List.length_replicate]
  rfl

section Header

variable {checksum name : Bytes} {typeflag : UInt8} {mode size : Nat}
  {linkname : Option Bytes}

/-- The numeric fields before the checksum. -/
def headerNumbers (mode size : Nat) : Bytes :=
  octal 8 (mode % 4096) ++ octal 8 0 ++ octal 8 0 ++ octal 12 size ++
    octal 12 0

theorem headerNumbers_length : (headerNumbers mode size).length = 48 := by
  simp only [headerNumbers, List.length_append,
    octal_length 8 (by decide), octal_length 12
      (by decide)]

theorem headerWith_eq :
    headerWith checksum name typeflag mode size linkname =
      field 100 name ++ headerNumbers mode size ++ checksum ++ [typeflag] ++
        field 100 (linkname.getD []) ++ headerTail := by
  simp only [headerWith, headerNumbers, headerTail, List.append_assoc]

theorem headerWith_length (eight : checksum.length = 8) :
    (headerWith checksum name typeflag mode size linkname).length =
      blockSize := by
  simp only [headerWith_eq, List.length_append, field_length, eight,
    headerNumbers_length, headerTail_length, List.length_singleton]
  rfl

theorem headerWith_name :
    slice (headerWith checksum name typeflag mode size linkname) 0 100 =
      field 100 name := by
  have located := slice_append 0 _ [] (field 100 name)
    (headerNumbers mode size ++ checksum ++ [typeflag] ++
        field 100 (linkname.getD []) ++ headerTail) rfl (field_length 100 _)
  simpa only [headerWith_eq, List.append_assoc, List.nil_append] using located

theorem headerWith_mode :
    slice (headerWith checksum name typeflag mode size linkname) 100 8 =
      octal 8 (mode % 4096) := by
  have located := slice_append _ _ (field 100 name) (octal 8 (mode % 4096))
    (octal 8 0 ++ octal 8 0 ++ octal 12 size ++ octal 12 0 ++
      checksum ++ [typeflag] ++ field 100 (linkname.getD []) ++ headerTail)
    (field_length 100 _) (octal_length _ (by decide) _)
  simpa only [headerWith_eq, headerNumbers, List.append_assoc] using located

theorem headerWith_size :
    slice (headerWith checksum name typeflag mode size linkname) 124 12 =
      octal 12 size := by
  have located := slice_append 124 12
    (field 100 name ++ octal 8 (mode % 4096) ++ octal 8 0 ++
      octal 8 0) (octal 12 size) (octal 12 0 ++ checksum ++ [typeflag] ++
      field 100 (linkname.getD []) ++ headerTail)
    (by simp only [List.length_append, field_length,
      octal_length 8 (by decide)])
    (octal_length _ (by decide) _)
  simpa only [headerWith_eq, headerNumbers, List.append_assoc] using located

theorem headerWith_type (eight : checksum.length = 8) :
    (headerWith checksum name typeflag mode size linkname).getD 156 0 =
      typeflag := by
  have before : (field 100 name ++ headerNumbers mode size ++
      checksum).length = 156 := by
    simp only [List.length_append, field_length, headerNumbers_length, eight]
  rw [headerWith_eq, List.append_assoc _ [typeflag],
    List.append_assoc _ ([typeflag] ++ _), List.getD_eq_getElem?_getD,
    List.getElem?_append_right (Nat.le_of_eq before), before]
  rfl

theorem headerWith_link (eight : checksum.length = 8) :
    slice (headerWith checksum name typeflag mode size linkname) 157 100 =
      field 100 (linkname.getD []) := by
  have located := slice_append 157 100
    (field 100 name ++ headerNumbers mode size ++ checksum ++
      [typeflag]) (field 100 (linkname.getD [])) headerTail
    (by simp only [List.length_append, field_length, headerNumbers_length,
      eight, List.length_singleton]) (field_length 100 _)
  simpa only [headerWith_eq] using located

theorem headerWith_prefix (eight : checksum.length = 8) :
    slice (headerWith checksum name typeflag mode size linkname) 345 155 =
      List.replicate 155 0 := by
  have tailEq : headerTail = (ascii "ustar" ++ [0] ++ ascii "00" ++
      List.replicate 80 0) ++ List.replicate 155 0 ++
        List.replicate 12 0 := by
    decide +kernel
  have located := slice_append 345 155
    (field 100 name ++ headerNumbers mode size ++ checksum ++
      [typeflag] ++ field 100 (linkname.getD []) ++ (ascii "ustar" ++ [0] ++
        ascii "00" ++ List.replicate 80
          0)) (List.replicate 155 0) (List.replicate 12 0)
    (by
      simp only [List.length_append, field_length, headerNumbers_length,
        eight, List.length_singleton, List.length_replicate]
      rfl)
    List.length_replicate
  simpa only [headerWith_eq, tailEq, List.append_assoc] using located

theorem headerWith_not_zero :
    (headerWith checksum name typeflag mode size linkname).all (· == 0) =
      false := by
  have tail : headerTail.all (· == 0) = false := by decide +kernel
  rw [headerWith_eq, List.all_append, tail, Bool.and_false]

end Header

/-- The checksum field has eight bytes whatever the sum is. -/
theorem fillHeader_eq (name : Bytes) (typeflag : UInt8) (mode size : Nat)
    (linkname : Option Bytes) :
    ∃ checksum, checksum.length = 8 ∧
      fillHeader name typeflag mode size linkname =
        headerWith checksum name typeflag mode size linkname := by
  refine ⟨_, ?_, rfl⟩
  simp [padZeros]
  omega

/-- One round of the reader on a written header. -/
theorem readLoop_header {name rest : Bytes} {typeflag : UInt8}
    {mode size : Nat} {linkname longname longlink : Option Bytes}
    (fuel : Nat) (modeFits : mode < 4096) :
    readLoop (fuel + 1) longname longlink
        (fillHeader name typeflag mode size linkname ++ rest) =
      let size := parseOctal (octal 12 size)
      let isFile := typeflag = typeFile ∨ typeflag = 0
      let skipped :=
        rest.drop ((size + blockSize - 1) / blockSize * blockSize)
      if (typeflag = 76 ∨ typeflag = 75 ∨ isFile) ∧ size > rest.length then
        ⟨[], .sizeExceedsArchive⟩
      else if typeflag = 76 then
        readLoop fuel (some (cstr (rest.take size))) longlink skipped
      else if typeflag = 75 then
        readLoop fuel longname (some (cstr (rest.take size))) skipped
      else
        (readLoop fuel none none (if isFile then skipped else rest)).cons
          { path := longname.getD (cstr (field 100 name))
            typeflag := typeflag
            mode := mode
            size := size
            linkname := some (longlink.getD
              (cstr (field 100 (linkname.getD []))))
            data := if isFile then some (rest.take size) else none } := by
  obtain ⟨checksum, eight, isHeader⟩ :=
    fillHeader_eq name typeflag mode size linkname
  have headerLength : (fillHeader name typeflag mode size linkname).length =
      blockSize := by
    rw [isHeader, headerWith_length eight]
  have long : ¬ (fillHeader name typeflag mode size linkname ++
      rest).length < blockSize := by
    rw [List.length_append, headerLength]
    omega
  have modeBack : parseOctal (octal 8 (mode % 4096)) = mode := by
    rw [Nat.mod_eq_of_lt modeFits]
    exact parseOctal_octal (Nat.lt_of_lt_of_le modeFits (by decide))
      (by decide)
  have noPrefix : cstr (List.replicate 155 0) = [] := by decide
  have path : headerPath (headerWith checksum name typeflag mode size
      linkname) = cstr (field 100 name) := by
    rw [headerPath, headerWith_name, headerWith_prefix eight, noPrefix,
      if_pos rfl]
  rw [readLoop, if_neg long, List.take_left' headerLength,
    List.drop_left' headerLength, isHeader]
  simp only [headerWith_not_zero, headerWith_size, headerWith_type eight,
    headerWith_mode, headerWith_link eight, path, modeBack,
    Bool.false_eq_true, if_false]

theorem padBlock_eq (bytes : Bytes) :
    ∃ zeros, padBlock bytes = bytes ++ zeros ∧ (padBlock bytes).length =
      (bytes.length + blockSize - 1) / blockSize * blockSize := by
  refine ⟨_, rfl, ?_⟩
  have enough : bytes.length ≤
      (bytes.length + blockSize - 1) / blockSize * blockSize := by
    unfold blockSize
    omega
  simp only [padBlock, List.length_append, List.length_replicate]
  omega

/-- What the reader takes from a padded run of bytes, and where it goes on. -/
theorem padBlock_read (bytes rest : Bytes) :
    ¬ bytes.length > (padBlock bytes ++ rest).length ∧
      (padBlock bytes ++ rest).take bytes.length = bytes ∧
      (padBlock bytes ++ rest).drop
        ((bytes.length + blockSize - 1) / blockSize * blockSize) = rest := by
  obtain ⟨zeros, padded, paddedLength⟩ := padBlock_eq bytes
  refine ⟨?_, ?_, ?_⟩
  · simp only [padded, List.length_append]
    omega
  · rw [padded, List.append_assoc, List.take_left']
    rfl
  · rw [← paddedLength, List.drop_left']
    rfl

/-- A regular file entry with a short name and its whole contents. -/
structure PlainFile (entry : Entry) (contents : Bytes) : Prop where
  short : entry.path.length ≤ 100
  noNul : 0 ∉ entry.path
  isFile : entry.typeflag = typeFile
  size : entry.size = contents.length
  small : contents.length < 8 ^ 11
  data : entry.data = some contents
  linkname : entry.linkname = none
  mode : entry.mode < 4096

theorem writerAdd_plain {entry : Entry} {contents : Bytes}
    (plain : PlainFile entry contents) :
    writerAdd entry = fillHeader entry.path entry.typeflag entry.mode
      contents.length none ++ padBlock contents := by
  have noLong : ¬ entry.path.length > 100 := Nat.not_lt.mpr plain.short
  have emptyBlock : padBlock [] = [] := by decide
  rw [writerAdd, if_neg noLong, plain.linkname, if_pos plain.isFile,
    plain.size, plain.data]
  by_cases empty : contents = []
  · simp [empty, emptyBlock, plain.isFile]
  · have positive : contents.length > 0 := List.length_pos_iff.mpr empty
    simp [plain.isFile, positive]

/-- The reader undoes the writer on a plain file. -/
theorem readLoop_plain {entry : Entry} {contents rest : Bytes} {fuel : Nat}
    (plain : PlainFile entry contents) :
    readLoop (fuel + 1) none none (writerAdd entry ++ rest) =
      (readLoop fuel none none rest).cons
        { entry with linkname := some [] } := by
  have size : parseOctal (octal 12 contents.length) = contents.length :=
    parseOctal_octal plain.small (by decide)
  have noLink : cstr (field 100 ([] : Bytes)) = [] :=
    cstr_field (by simp) (by simp)
  have types : ¬ typeFile = 76 ∧ ¬ typeFile = 75 := by decide
  obtain ⟨fits, whole, skipped⟩ := padBlock_read contents rest
  rw [writerAdd_plain plain, List.append_assoc,
    readLoop_header fuel plain.mode]
  simp only [size, skipped, whole, fits, plain.isFile, noLink, types,
    cstr_field plain.short plain.noNul, Option.getD_none, and_false,
    if_false, true_or, if_true, plain.size, plain.data]

theorem readLoop_finish (fuel : Nat) :
    readLoop (fuel + 1) none none writerFinish = ⟨[], .complete⟩ := by
  have zeros : (writerFinish.take blockSize).all (· == 0) = true := by
    decide +kernel
  have long : ¬ writerFinish.length < blockSize := by decide +kernel
  rw [readLoop, if_neg long]
  simp only [zeros, if_true]

/-- An archive of plain files is read back entry by entry. -/
theorem readLoop_writeAll {entries : List Entry}
    (plain : ∀ entry ∈ entries, ∃ contents, PlainFile entry contents)
    {fuel : Nat} (enough : entries.length < fuel) :
    readLoop fuel none none (writeAll entries) =
      ⟨entries.map fun entry => { entry with linkname := some [] },
        .complete⟩ := by
  induction entries generalizing fuel with
  | nil =>
      obtain ⟨fuel, rfl⟩ := Nat.exists_eq_add_of_lt enough
      simpa [writeAll] using readLoop_finish _
  | cons entry rest induction =>
      obtain ⟨contents, isPlain⟩ := plain entry List.mem_cons_self
      cases fuel with
      | zero => cases enough
      | succ fuel =>
          have split : writeAll (entry :: rest) =
              writerAdd entry ++ writeAll rest := by
            simp [writeAll]
          rw [split, readLoop_plain isPlain, induction
            (fun other member => plain other (List.mem_cons_of_mem _ member))
            (Nat.lt_of_succ_lt_succ enough)]
          rfl

theorem length_writeAll (entries : List Entry) :
    entries.length ≤ (writeAll entries).length := by
  induction entries with
  | nil => simp
  | cons entry rest induction =>
      obtain ⟨checksum, eight, isHeader⟩ := fillHeader_eq entry.path
        entry.typeflag entry.mode
        (if entry.typeflag = typeFile then entry.size else 0) entry.linkname
      have block : 1 ≤ (writerAdd entry).length := by
        simp only [writerAdd, isHeader, List.length_append,
          headerWith_length eight, blockSize]
        omega
      have split : writeAll (entry :: rest) =
          writerAdd entry ++ writeAll rest := by
        simp [writeAll]
      rw [split, List.length_append, List.length_cons]
      omega

theorem read_writeAll {entries : List Entry}
    (plain : ∀ entry ∈ entries, ∃ contents, PlainFile entry contents) :
    read (writeAll entries) =
      ⟨entries.map fun entry => { entry with linkname := some [] },
        .complete⟩ :=
  readLoop_writeAll plain (Nat.lt_succ_of_le (length_writeAll entries))

end SaltOS.Tar
