import SaltOS.Base.Numerals

/-!
# The tar writer and reader

`src/halite/src/tar.c` on byte strings.  The reader hands its entries to a
callback one by one; since the callback cannot influence what is read next,
a reading is the list of entries with the way it ended.
-/

namespace SaltOS

namespace Tar

def blockSize : Nat := 512

/-- `SALT_TAR_FILE`, `SALT_TAR_DIR` and `SALT_TAR_SYMLINK`. -/
def typeFile : UInt8 := 48
def typeDir : UInt8 := 53
def typeSymlink : UInt8 := 50

/-- A tar entry.  The reader points `data` into the archive for files only,
but always reports the size of the header. -/
structure Entry where
  path : Bytes
  typeflag : UInt8
  mode : Nat
  size : Nat
  linkname : Option Bytes
  data : Option Bytes
  deriving DecidableEq, Repr

/-! ## Writing -/

/-- `octal`: the first `width - 1` digits, then a zero byte. -/
def octal (width value : Nat) : Bytes :=
  (padZeros (width - 1) (printBase 8 value)).take (width - 1) ++ [0]

/-- `strncpy` into a zeroed field. -/
def field (width : Nat) (text : Bytes) : Bytes :=
  text.take width ++ List.replicate (width - text.length) 0

/-- A header with the given eight bytes in its checksum field. -/
def headerWith (checksum name : Bytes) (typeflag : UInt8) (mode size : Nat)
    (linkname : Option Bytes) : Bytes :=
  field 100 name ++ octal 8 (mode % 4096) ++ octal 8 0 ++ octal 8 0 ++
    octal 12 size ++ octal 12 0 ++ checksum ++ [typeflag] ++
    field 100 (linkname.getD []) ++ ascii "ustar" ++ [0] ++ ascii "00" ++
    List.replicate 247 0

def fillHeader (name : Bytes) (typeflag : UInt8) (mode size : Nat)
    (linkname : Option Bytes) : Bytes :=
  let blank := headerWith (List.replicate 8 32) name typeflag mode size
    linkname
  let sum := (blank.map UInt8.toNat).sum
  headerWith ((padZeros 6 (printBase 8 sum)).take 6 ++ [0, 32]) name typeflag
    mode size linkname

/-- Fill the last block with zeros. -/
def padBlock (bytes : Bytes) : Bytes :=
  bytes ++ List.replicate
    ((bytes.length + blockSize - 1) / blockSize * blockSize - bytes.length) 0

def writeLongname (name : Bytes) : Bytes :=
  fillHeader (ascii "././@LongLink") 76 420 (name.length + 1) none ++
    padBlock (name ++ [0])

/-- `salt_tar_writer_add`: the bytes it appends. -/
def writerAdd (entry : Entry) : Bytes :=
  (if entry.path.length > 100 then writeLongname entry.path else []) ++
  (match entry.linkname with
    | some link => if link.length > 100 then writeLongname link else []
    | none => []) ++
  fillHeader entry.path entry.typeflag entry.mode
    (if entry.typeflag = typeFile then entry.size else 0) entry.linkname ++
  (if entry.typeflag = typeFile ∧ entry.size > 0 then
    padBlock ((entry.data.getD []).take entry.size)
  else [])

def writerFinish : Bytes :=
  List.replicate (blockSize * 2) 0

def writeAll (entries : List Entry) : Bytes :=
  entries.flatMap writerAdd ++ writerFinish

/-! ## Reading -/

def isOctalDigit (byte : UInt8) : Bool :=
  48 ≤ byte && byte ≤ 55

/-- `parse_octal` skips every byte that is no octal digit. -/
def parseOctal (bytes : Bytes) : Nat :=
  readBase 8 (bytes.filter isOctalDigit)

def slice (bytes : Bytes) (start length : Nat) : Bytes :=
  (bytes.drop start).take length

/-- How a reading ended. -/
inductive ReadEnd where
  | complete
  | sizeExceedsArchive
  deriving DecidableEq, Repr

structure Reading where
  entries : List Entry
  ending : ReadEnd
  deriving DecidableEq, Repr

def Reading.cons (entry : Entry) (reading : Reading) : Reading :=
  { reading with entries := entry :: reading.entries }

/-- The name fields of a header: `prefix/name`, cut at 255 bytes. -/
def headerPath (header : Bytes) : Bytes :=
  let name := cstr (slice header 0 100)
  let start := cstr (slice header 345 155)
  if start = [] then name else (start ++ [47] ++ name).take 255

/-- The loop of `salt_tar_read`, with the pending long names.  Every round
takes a header block off the input, so the fuel never runs out. -/
def readLoop : Nat → Option Bytes → Option Bytes → Bytes → Reading
  | 0, _, _, _ => ⟨[], .complete⟩
  | fuel + 1, longname, longlink, input =>
      if input.length < blockSize then ⟨[], .complete⟩
      else
        let header := input.take blockSize
        let rest := input.drop blockSize
        if header.all (· == 0) then ⟨[], .complete⟩
        else
          let size := parseOctal (slice header 124 12)
          let typeflag := header.getD 156 0
          let isFile := typeflag = typeFile ∨ typeflag = 0
          let skipped :=
            rest.drop ((size + blockSize - 1) / blockSize * blockSize)
          if (typeflag = 76 ∨ typeflag = 75 ∨ isFile) ∧
              size > rest.length then
            ⟨[], .sizeExceedsArchive⟩
          else if typeflag = 76 then
            readLoop fuel (some (cstr (rest.take size))) longlink skipped
          else if typeflag = 75 then
            readLoop fuel longname (some (cstr (rest.take size))) skipped
          else
            let entry : Entry :=
              { path := longname.getD (headerPath header)
                typeflag := typeflag
                mode := parseOctal (slice header 100 8)
                size := size
                linkname := some
                  (longlink.getD (cstr (slice header 157 100)))
                data := if isFile then some (rest.take size) else none }
            (readLoop fuel none none (if isFile then skipped else rest)).cons
              entry

/-- `salt_tar_read`. -/
def read (input : Bytes) : Reading :=
  readLoop (input.length + 1) none none input

end Tar

end SaltOS
