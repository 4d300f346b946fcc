import SaltOS.Archive.TarFitting

/-!
# What the long name records of an archive can hold

A text longer than a header field reaches the reader's caller only from a
block that reads as a long name record.  The size field of a record has eleven
octal digits, so no block of a written archive, wherever the reader comes to
it, holds a text that is too long for them and the longest of its archive.
-/

namespace SaltOS.Tar

/-! ## Texts that no record can hold -/

def blockAt (input : Bytes) (index : Nat) : Bytes :=
  (input.drop (blockSize * index)).take blockSize

/-- Some block of the input reads as the header of a long name record with
this text. -/
def Recorded (input text : Bytes) : Prop :=
  ∃ index, ((blockAt input index).getD 156 0 = 76 ∨
      (blockAt input index).getD 156 0 = 75) ∧
    text = cstr ((input.drop (blockSize * (index + 1))).take
      (parseOctal (slice (blockAt input index) 124 12)))

theorem Recorded.of_drop {input text : Bytes} {skipped : Nat}
    (recorded : Recorded (input.drop (blockSize * skipped)) text) :
    Recorded input text := by
  obtain ⟨index, isRecord, isText⟩ := recorded
  have block : blockAt (input.drop (blockSize * skipped)) index =
      blockAt input (skipped + index) := by
    simp only [blockAt, List.drop_drop, Nat.mul_add]
  have behind : (input.drop (blockSize * skipped)).drop
      (blockSize * (index + 1)) =
        input.drop (blockSize * (skipped + index + 1)) := by
    rw [List.drop_drop, ← Nat.mul_add, Nat.add_assoc]
  rw [block] at isRecord isText
  rw [behind] at isText
  exact ⟨skipped + index, isRecord, isText⟩

theorem Recorded.of_skip {input text : Bytes} {size : Nat}
    (recorded : Recorded ((input.drop blockSize).drop
      ((size + blockSize - 1) / blockSize * blockSize)) text) :
    Recorded input text := by
  have skipped : (input.drop blockSize).drop
      ((size + blockSize - 1) / blockSize * blockSize) = input.drop
        (blockSize * (1 + (size + blockSize - 1) / blockSize)) := by
    rw [List.drop_drop, Nat.mul_add, Nat.mul_one, Nat.mul_comm blockSize]
  rw [skipped] at recorded
  exact recorded.of_drop

theorem length_headerPath (header : Bytes) :
    (headerPath header).length ≤ 255 := by
  have name : (cstr (slice header 0 100)).length ≤ 100 := by
    apply Nat.le_trans (List.takeWhile_prefix _).length_le
    simp [slice]
  unfold headerPath
  simp only
  split
  · omega
  · simp

/-- Every longer text that the reader reports was pending or stands in a
record. -/
theorem recorded_of_readLoop {fuel : Nat} {longname longlink : Option Bytes}
    {input text : Bytes} {entry : Entry}
    (member : entry ∈ (readLoop fuel longname longlink input).entries)
    (reports : entry.path = text ∨ entry.linkname = some text)
    (long : 255 < text.length) :
    longname = some text ∨ longlink = some text ∨ Recorded input text := by
  induction fuel generalizing longname longlink input with
  | zero => simp [readLoop] at member
  | succ fuel induction =>
      have here : blockAt input 0 = input.take blockSize := by
        simp [blockAt]
      have behind : input.drop (blockSize * (0 + 1)) =
          input.drop blockSize := by simp
      rw [readLoop] at member
      split at member
      · simp at member
      · simp only at member
        split at member
        · simp at member
        · split at member
          · simp at member
          · split at member
            · -- The record of a long path.
              rename_i isPath
              rcases induction member with pending | pending | later
              · refine .inr (.inr ⟨0, .inl (here ▸ isPath), ?_⟩)
                rw [here, behind]
                exact (Option.some.inj pending).symm
              · exact .inr (.inl pending)
              · exact .inr (.inr later.of_skip)
            · split at member
              · -- The record of a long link name.
                rename_i isLink
                rcases induction member with pending | pending | later
                · exact .inl pending
                · refine .inr (.inr ⟨0, .inr (here ▸ isLink), ?_⟩)
                  rw [here, behind]
                  exact (Option.some.inj pending).symm
                · exact .inr (.inr later.of_skip)
              · -- An entry.
                rw [Reading.cons, List.mem_cons] at member
                rcases member with rfl | later
                · rcases reports with isPath | isLink
                  · cases longname with
                    | some name => exact .inl (congrArg some isPath)
                    | none =>
                        have bound := length_headerPath
                          (input.take blockSize)
                        simp only [Option.getD_none] at isPath
                        rw [isPath] at bound
                        omega
                  · cases longlink with
                    | some link => exact .inr (.inl isLink)
                    | none =>
                        have isText := Option.some.inj isLink
                        have bound : (cstr (slice (input.take blockSize) 157
                            100)).length ≤ 100 := by
                          apply Nat.le_trans
                            (List.takeWhile_prefix _).length_le
                          simp [slice]
                        simp only [Option.getD_none] at isText
                        rw [isText] at bound
                        omega
                · refine .inr (.inr ?_)
                  rcases induction later with none | none | later
                  · cases none
                  · cases none
                  · split at later
                    · exact later.of_skip
                    · have dropped : Recorded (input.drop (blockSize * 1))
                          text := by
                        rwa [Nat.mul_one]
                      exact dropped.of_drop

/-- A header block and the contents that follow it in whole blocks. -/
structure Piece where
  header : Bytes
  contents : Bytes

def Piece.bytes (piece : Piece) : Bytes :=
  piece.header ++ padBlock piece.contents

/-- Neither the record that the piece starts nor anything that starts at a
later block of it holds a text of the given length. -/
structure Piece.Below (limit : Nat) (piece : Piece) : Prop where
  block : piece.header.length = blockSize
  nul : 0 ∈ piece.header.take 108
  record : piece.header.getD 156 0 = 76 ∨ piece.header.getD 156 0 = 75 →
    ∀ rest, (cstr ((padBlock piece.contents ++ rest).take
      (parseOctal (slice piece.header 124 12)))).length < limit
  later : ∀ index rest, 1 ≤ index →
    blockSize * index ≤ (padBlock piece.contents).length →
    (cstr rest).length < 108 →
    (cstr ((padBlock piece.contents).drop (blockSize * index) ++
      rest)).length < limit

theorem nul_writerFinish : 0 ∈ writerFinish.take 108 := by
  decide +kernel

/-- The text at the start of a sequence of pieces is short. -/
theorem length_cstr_pieces {pieces : List Piece} {limit : Nat}
    (below : ∀ piece ∈ pieces, piece.Below limit) :
    (cstr (pieces.flatMap Piece.bytes ++ writerFinish)).length < 108 := by
  cases pieces with
  | nil =>
      have short := length_cstr_lt nul_writerFinish []
      rwa [List.append_nil] at short
  | cons piece pieces =>
      rw [List.flatMap_cons, Piece.bytes, List.append_assoc,
        List.append_assoc]
      exact length_cstr_lt (below piece List.mem_cons_self).nul _

/-- Where a block of a piece and of what follows it lies. -/
theorem blockAt_piece {piece : Piece} {rest : Bytes} {limit index : Nat}
    (below : piece.Below limit) :
    (index = 0 ∧ blockAt (piece.bytes ++ rest) index = piece.header ∧
      (piece.bytes ++ rest).drop (blockSize * (index + 1)) =
        padBlock piece.contents ++ rest) ∨
    (1 ≤ index ∧
      blockSize * index ≤ (padBlock piece.contents).length ∧
      (piece.bytes ++ rest).drop (blockSize * (index + 1)) =
        (padBlock piece.contents).drop (blockSize * index) ++ rest) ∨
    ∃ later, blockAt (piece.bytes ++ rest) index = blockAt rest later ∧
      (piece.bytes ++ rest).drop (blockSize * (index + 1)) =
        rest.drop (blockSize * (later + 1)) := by
  obtain ⟨_, _, padded⟩ := padBlock_eq piece.contents
  have length : piece.bytes.length = blockSize *
      (1 + (piece.contents.length + blockSize - 1) / blockSize) := by
    rw [Piece.bytes, List.length_append, below.block, padded, Nat.mul_add,
      Nat.mul_one, Nat.mul_comm blockSize]
  have behind : ∀ count, (piece.bytes ++ rest).drop
      (blockSize * (count + 1)) =
        (padBlock piece.contents ++ rest).drop (blockSize * count) := by
    intro count
    rw [Piece.bytes, List.append_assoc, Nat.mul_add, Nat.mul_one,
      Nat.add_comm, ← List.drop_drop, List.drop_left' below.block]
  by_cases first : index = 0
  · refine .inl ⟨first, ?_, ?_⟩
    · rw [first, blockAt, Nat.mul_zero, List.drop_zero, Piece.bytes,
        List.append_assoc, List.take_left' below.block]
    · rw [behind, first, Nat.mul_zero, List.drop_zero]
  by_cases inside : blockSize * index ≤ (padBlock piece.contents).length
  · refine .inr (.inl ⟨Nat.one_le_iff_ne_zero.mpr first, inside, ?_⟩)
    rw [behind, List.drop_append_of_le_length inside]
  · obtain ⟨later, rfl⟩ : ∃ later, index =
        (1 + (piece.contents.length + blockSize - 1) / blockSize) +
          later := by
      apply Nat.exists_eq_add_of_le
      rw [padded, Nat.mul_comm, Nat.mul_le_mul_right_iff (by decide)]
        at inside
      omega
    have dropped : ∀ count, (piece.bytes ++ rest).drop (blockSize *
        ((1 + (piece.contents.length + blockSize - 1) / blockSize) +
          count)) = rest.drop (blockSize * count) := by
      intro count
      rw [Nat.mul_add, ← length, ← List.drop_drop, List.drop_left]
    refine .inr (.inr ⟨later, ?_, ?_⟩)
    · rw [blockAt, blockAt, dropped]
    · rw [Nat.add_assoc, dropped]

/-- No record of an archive holds a text that is too long for all its
pieces. -/
theorem Recorded.length_lt {pieces : List Piece} {limit : Nat} {text : Bytes}
    (below : ∀ piece ∈ pieces, piece.Below limit)
    (recorded : Recorded (pieces.flatMap Piece.bytes ++ writerFinish) text) :
    text.length < limit := by
  induction pieces with
  | nil =>
      obtain ⟨index, isRecord, _⟩ := recorded
      have zero : (blockAt writerFinish index).getD 156 0 = 0 := by
        rw [blockAt, writerFinish, List.drop_replicate, List.take_replicate,
          List.getD_eq_getElem?_getD, List.getElem?_replicate]
        split <;> rfl
      rw [List.flatMap_nil, List.nil_append, zero] at isRecord
      simp at isRecord
  | cons piece pieces induction =>
      have others := fun other member =>
        below other (List.mem_cons_of_mem piece member)
      have start := length_cstr_pieces others
      have isBelow := below piece List.mem_cons_self
      obtain ⟨index, isRecord, isText⟩ := recorded
      rw [List.flatMap_cons, List.append_assoc] at isRecord isText
      rcases blockAt_piece isBelow with ⟨-, block, behind⟩ |
        ⟨later, inside, behind⟩ | ⟨later, block, behind⟩
      · rw [block] at isRecord isText
        rw [isText, behind]
        exact isBelow.record isRecord _
      · rw [isText, behind]
        apply Nat.lt_of_le_of_lt (length_cstr_take_le _ _)
        exact isBelow.later index _ later inside start
      · rw [block] at isRecord isText
        rw [behind] at isText
        exact induction others ⟨later, isRecord, isText⟩

/-! ## The pieces that the writer writes -/

theorem nul_fillHeader (name : Bytes) (typeflag : UInt8) (mode size : Nat)
    (linkname : Option Bytes) :
    0 ∈ (fillHeader name typeflag mode size linkname).take 108 := by
  obtain ⟨checksum, eight, isHeader⟩ :=
    fillHeader_eq name typeflag mode size linkname
  have last : 0 ∈ slice (fillHeader name typeflag mode size linkname) 100
      8 := by
    rw [isHeader, headerWith_mode, octal]
    simp
  have inside : slice (fillHeader name typeflag mode size linkname) 100 8 =
      ((fillHeader name typeflag mode size linkname).take 108).drop 100 := by
    rw [slice, List.drop_take]
  rw [inside] at last
  exact List.mem_of_mem_drop last

theorem type_fillHeader (name : Bytes) (typeflag : UInt8) (mode size : Nat)
    (linkname : Option Bytes) :
    (fillHeader name typeflag mode size linkname).getD 156 0 = typeflag := by
  obtain ⟨checksum, eight, isHeader⟩ :=
    fillHeader_eq name typeflag mode size linkname
  rw [isHeader, headerWith_type eight]

theorem size_fillHeader (name : Bytes) (typeflag : UInt8) (mode size : Nat)
    (linkname : Option Bytes) :
    slice (fillHeader name typeflag mode size linkname) 124 12 =
      octal 12 size := by
  obtain ⟨checksum, eight, isHeader⟩ :=
    fillHeader_eq name typeflag mode size linkname
  rw [isHeader, headerWith_size]

def longnamePiece (name : Bytes) : Piece :=
  ⟨fillHeader (ascii "././@LongLink") 76 420 (name.length + 1) none,
    name ++ [0]⟩

def headerPiece (entry : Entry) : Piece :=
  ⟨fillHeader entry.path entry.typeflag entry.mode
      (if entry.typeflag = typeFile then entry.size else 0) entry.linkname,
    if entry.typeflag = typeFile then (entry.data.getD []).take entry.size
    else []⟩

def entryPieces (entry : Entry) : List Piece :=
  (if entry.path.length > 100 then [longnamePiece entry.path] else []) ++
  (if (entry.linkname.getD []).length > 100 then
    [longnamePiece (entry.linkname.getD [])] else []) ++
  [headerPiece entry]

theorem longLink_eq (linkname : Option Bytes) :
    (match linkname with
      | some link => if link.length > 100 then writeLongname link else []
      | none => []) =
      if (linkname.getD []).length > 100 then
        writeLongname (linkname.getD []) else [] := by
  cases linkname <;> rfl

theorem writerAdd_eq (entry : Entry) :
    writerAdd entry = (entryPieces entry).flatMap Piece.bytes := by
  have emptyBlock : padBlock [] = [] := by decide
  have contents : (if entry.typeflag = typeFile ∧ entry.size > 0 then
      padBlock ((entry.data.getD []).take entry.size) else []) =
        padBlock (headerPiece entry).contents := by
    rw [headerPiece]
    by_cases isFile : entry.typeflag = typeFile
    · by_cases empty : entry.size = 0
      · simp [isFile, empty, emptyBlock]
      · simp [isFile, Nat.pos_of_ne_zero empty]
    · simp [isFile, emptyBlock]
  have pieces : (entryPieces entry).flatMap Piece.bytes =
      (if entry.path.length > 100 then writeLongname entry.path else []) ++
      (if (entry.linkname.getD []).length > 100 then
        writeLongname (entry.linkname.getD []) else []) ++
      (headerPiece entry).bytes := by
    unfold entryPieces
    split <;> split <;>
      simp [writeLongname, longnamePiece, Piece.bytes]
  rw [pieces, Piece.bytes, ← contents, ← List.append_assoc]
  unfold writerAdd
  rw [← longLink_eq]
  rfl

/-- Octal digits stay below the next power of eight. -/
theorem readBase_octal_lt (digits : Bytes)
    (octal : ∀ byte ∈ digits, isOctalDigit byte = true) :
    readBase 8 digits < 8 ^ digits.length := by
  have small : ∀ byte, isOctalDigit byte = true → digitValue byte < 8 :=
    forall_byte _ (by decide +kernel)
  have bound : ∀ start, digits.foldl
      (fun value byte => value * 8 + digitValue byte) start <
        (start + 1) * 8 ^ digits.length := by
    induction digits with
    | nil => simp
    | cons byte digits induction =>
        intro start
        have digit := small byte (octal byte List.mem_cons_self)
        have others := induction
          (fun other member => octal other (List.mem_cons_of_mem _ member))
          (start * 8 + digitValue byte)
        rw [List.foldl_cons, List.length_cons, pow_succ']
        calc _ < (start * 8 + digitValue byte + 1) * 8 ^ digits.length :=
              others
          _ ≤ ((start + 1) * 8) * 8 ^ digits.length :=
              Nat.mul_le_mul_right _ (by omega)
          _ = (start + 1) * (8 * 8 ^ digits.length) := by ring
  simpa [readBase] using bound 0

/-- A size with more than eleven digits is cut. -/
theorem parseOctal_octal_lt (value : Nat) :
    parseOctal (octal 12 value) < 8 ^ 11 := by
  have bound := readBase_octal_lt ((octal 12 value).filter isOctalDigit)
    (fun byte member => (List.mem_filter.mp member).2)
  have length : ((octal 12 value).filter isOctalDigit).length ≤ 11 := by
    rw [octal, List.filter_append]
    have noZero : ([0] : Bytes).filter isOctalDigit = [] := by decide
    rw [noZero, List.append_nil]
    apply Nat.le_trans (List.length_filter_le _ _)
    simp
  exact Nat.lt_of_lt_of_le bound (Nat.pow_le_pow_right (by decide) length)

theorem parseOctal_octal_overflow {value : Nat} (large : 8 ^ 11 ≤ value) :
    parseOctal (octal 12 value) < value - 1 := by
  have bound := parseOctal_octal_lt value
  rcases Nat.eq_or_lt_of_le large with least | larger
  · subst least
    decide +kernel
  · omega

/-- A long name record holds no text of the limit's length: it is too short,
or its size field is cut. -/
theorem longnamePiece_below {name : Bytes} {limit : Nat} (noNul : 0 ∉ name)
    (short : name.length ≤ limit) (large : 8 ^ 11 ≤ limit + 1) :
    (longnamePiece name).Below limit := by
  obtain ⟨zeros, padded, isZeros⟩ : ∃ zeros,
      padBlock (name ++ [0]) = name ++ 0 :: zeros ∧
        ∀ byte ∈ zeros, byte = 0 :=
    ⟨_, by rw [padBlock, List.append_assoc]; rfl,
      fun _ member => List.eq_of_mem_replicate member⟩
  refine ⟨length_header _ _ _ _ _, nul_fillHeader _ _ _ _ _, ?_, ?_⟩
  · intro _ rest
    simp only [longnamePiece, size_fillHeader]
    rw [padded, List.append_assoc, List.cons_append]
    rcases Nat.eq_or_lt_of_le short with full | shorter
    · have cut := parseOctal_octal_overflow
        (show 8 ^ 11 ≤ name.length + 1 by omega)
      apply Nat.lt_of_le_of_lt (List.takeWhile_prefix _).length_le
      rw [List.length_take]
      omega
    · apply Nat.lt_of_le_of_lt (length_cstr_take_le _ _)
      rwa [cstr_append_zero noNul]
  · intro index rest positive inside start
    have step : blockSize ≤ blockSize * index := by
      rw [blockSize]
      omega
    simp only [longnamePiece, padded] at inside ⊢
    by_cases before : blockSize * index ≤ name.length
    · rw [List.drop_append_of_le_length before, List.append_assoc,
        List.cons_append, cstr_append_zero
          (fun member => noNul (List.mem_of_mem_drop member)),
        List.length_drop]
      rw [blockSize] at *
      omega
    · have dropped : (name ++ 0 :: zeros).drop (blockSize * index) =
          zeros.drop (blockSize * index - (name.length + 1)) := by
        rw [List.drop_append, List.drop_of_length_le (by omega),
          List.nil_append]
        obtain ⟨gap, isGap⟩ : ∃ gap, blockSize * index =
            name.length + 1 + gap := Nat.exists_eq_add_of_le (by omega)
        rw [isGap, Nat.add_sub_cancel_left, Nat.add_assoc,
          Nat.add_sub_cancel_left, Nat.add_comm, List.drop_succ_cons]
      rw [dropped]
      rcases left : zeros.drop (blockSize * index - (name.length + 1)) with
        _ | ⟨byte, more⟩
      · rw [List.nil_append]
        omega
      · have isZero : byte = 0 := by
          apply isZeros byte
          apply List.mem_of_mem_drop
          rw [left]
          exact List.mem_cons_self
        simp only [isZero, cstr, List.cons_append, List.takeWhile_cons]
        simp
        omega

theorem headerPiece_below {entry : Entry} {limit : Nat}
    (valid : entry.Valid) (large : 8 ^ 11 ≤ limit + 1) :
    (headerPiece entry).Below limit := by
  have noRecord : entry.typeflag ≠ 76 ∧ entry.typeflag ≠ 75 := by
    cases valid.kind with
    | file _ isFile => rw [isFile]; decide
    | dir isDir => rw [isDir]; decide
    | symlink _ isLink => rw [isLink]; decide
  have small : (headerPiece entry).contents.length < 8 ^ 11 := by
    unfold headerPiece
    cases valid.kind with
    | file contents isFile data size small =>
        simpa [isFile, data, size] using small
    | dir isDir => simp [isDir, typeDir, typeFile]
    | symlink _ isLink => simp [isLink, typeSymlink, typeFile]
  refine ⟨length_header _ _ _ _ _, nul_fillHeader _ _ _ _ _, ?_, ?_⟩
  · intro isRecord
    simp only [headerPiece, type_fillHeader] at isRecord
    exact absurd isRecord (not_or.mpr noRecord)
  · intro index rest positive inside start
    obtain ⟨_, _, padded⟩ := padBlock_eq (headerPiece entry).contents
    apply Nat.lt_of_le_of_lt (length_cstr_append_le _ _)
    rw [List.length_drop]
    rw [padded] at inside ⊢
    rw [blockSize] at *
    omega

theorem entryPieces_below {entry : Entry} {limit : Nat}
    (valid : entry.Valid) (path : entry.path.length ≤ limit)
    (link : (entry.linkname.getD []).length ≤ limit)
    (large : 8 ^ 11 ≤ limit + 1) :
    ∀ piece ∈ entryPieces entry, piece.Below limit := by
  have linkNoNul : 0 ∉ entry.linkname.getD [] := by
    cases valid.kind with
    | file _ _ _ _ _ noLink => simp [noLink]
    | dir _ _ _ noLink => simp [noLink]
    | symlink _ _ _ _ isLink noNul => simpa [isLink] using noNul
  intro piece member
  simp only [entryPieces, List.mem_append, List.mem_singleton] at member
  rcases member with (isPath | isLink) | rfl
  · split at isPath
    · rw [List.mem_singleton.mp isPath]
      exact longnamePiece_below valid.noNul path large
    · cases isPath
  · split at isLink
    · rw [List.mem_singleton.mp isLink]
      exact longnamePiece_below linkNoNul link large
    · cases isLink
  · exact headerPiece_below valid large

end SaltOS.Tar
