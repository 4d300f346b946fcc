import SaltOS.Base.Written
import SaltOS.Lib.SetFirst

/-!
# Shell variables in configuration files

`set_kv` of `src/setup/main.cpp`, with `trim`, `split_lines`, `read_file` and
`write_file`: the installer sets a variable in a file of assignments, also
where it stands commented out.
-/

namespace SaltOS.Setup

open Lib Util

/-- `" \t\r\n"`. -/
def isBlank (byte : UInt8) : Bool :=
  byte == 32 || byte == 9 || byte == 13 || byte == 10

def trim (text : Bytes) : Bytes :=
  (text.dropWhile isBlank).rdropWhile isBlank

/-- What `getline` reads one after the other. -/
def splitLines (text : Bytes) : List Bytes :=
  let pieces := text.splitOn 10
  if pieces.getLast? = some [] then pieces.dropLast else pieces

/-- `key + "="`, as it is, behind `#` and behind `# `. -/
def plainForm (key : Bytes) : Bytes :=
  key ++ [61]

def hashForm (key : Bytes) : Bytes :=
  35 :: plainForm key

def spacedForm (key : Bytes) : Bytes :=
  35 :: 32 :: plainForm key

def startsWith (form line : Bytes) : Bool :=
  form.isPrefixOf (trim line)

def matchesKey (key line : Bytes) : Bool :=
  startsWith (plainForm key) line || startsWith (hashForm key) line ||
    startsWith (spacedForm key) line

def keyLine (key value : Bytes) : Bytes :=
  plainForm key ++ value

/-- The lines that `set_kv` writes. -/
def setLines (key value : Bytes) (lines : List Bytes) : List Bytes :=
  setFirst (matchesKey key) (keyLine key value) [] false lines

def joinLines (lines : List Bytes) : Bytes :=
  lines.flatMap fun line => line ++ [10]

def setText (key value text : Bytes) : Bytes :=
  joinLines (setLines key value (splitLines text))

/-- `read_file`: what cannot be read counts as empty. -/
def readFile (disk : Disk Bytes) (path : Bytes) : Bytes :=
  match disk.contents path with
  | .ok text => text
  | .error _ => []

/-- The message of `fail`, which ends the program. -/
def failText (message : Bytes) : Bytes :=
  ascii "salt-setup: " ++ message ++ [10]

def writeFile (path content : Bytes) (mode : Nat) :
    EStateM Bytes (Disk Bytes) Unit :=
  saveFile (fun _ => failText (ascii "cannot write " ++ path)) path content
    mode

def setKv (path key value : Bytes) : EStateM Bytes (Disk Bytes) Unit := do
  let disk ← get
  writeFile path (setText key value (readFile disk path)) 420

/-! ## Lines -/

theorem splitLines_joinLines {lines : List Bytes}
    (whole : ∀ line ∈ lines, 10 ∉ line) :
    splitLines (joinLines lines) = lines := by
  have pieces : (joinLines lines).splitOn 10 = lines ++ [[]] := by
    have split : (joinLines lines).splitOn 10 = lines.map id ++ [[]] :=
      splitOn_flatMap whole
    rwa [List.map_id] at split
  rw [splitLines, pieces, List.getLast?_concat, if_pos rfl,
    List.dropLast_concat]

theorem newline_not_mem_splitLines {text line : Bytes}
    (member : line ∈ splitLines text) : 10 ∉ line := by
  have isPiece : line ∈ text.splitOn 10 := by
    unfold splitLines at member
    dsimp only at member
    split at member
    · exact List.mem_of_mem_dropLast member
    · exact member
  exact not_mem_of_mem_splitOn isPiece

/-! ## The line that is set -/

/-- A key that `set_kv` is called with. -/
structure PlainKey (key : Bytes) : Prop where
  nonempty : key ≠ []
  noBlank : ∀ byte ∈ key, isBlank byte = false
  noHash : 35 ∉ key

section

variable {key value : Bytes}

theorem PlainKey.noNewline (plain : PlainKey key) : 10 ∉ key := by
  intro member
  cases plain.noBlank 10 member

/-- Trimming keeps the key and the equals sign. -/
theorem trim_keyLine (plain : PlainKey key) (value : Bytes) :
    ∃ kept, trim (keyLine key value) = plainForm key ++ kept := by
  obtain ⟨first, rest, rfl⟩ := List.exists_cons_of_ne_nil plain.nonempty
  have solid := plain.noBlank first List.mem_cons_self
  have front : (keyLine (first :: rest) value).dropWhile isBlank =
      keyLine (first :: rest) value :=
    List.dropWhile_cons_of_neg (by simp [solid])
  have isLast : (plainForm (first :: rest)).getLast? = some 61 :=
    List.getLast?_concat
  have equalsSolid : isBlank 61 = false := rfl
  obtain ⟨kept, _, isCut⟩ := rdropWhile_append isLast equalsSolid value
  refine ⟨kept, ?_⟩
  rw [trim, front]
  exact isCut

theorem startsWith_keyLine (plain : PlainKey key) (value : Bytes) :
    startsWith (plainForm key) (keyLine key value) = true := by
  obtain ⟨kept, isTrimmed⟩ := trim_keyLine plain value
  rw [startsWith, isTrimmed]
  exact List.isPrefixOf_iff_prefix.mpr (List.prefix_append _ _)

/-- The line that is set is no comment. -/
theorem not_startsWith_keyLine (plain : PlainKey key) (value rest : Bytes) :
    startsWith (35 :: rest) (keyLine key value) = false := by
  obtain ⟨kept, isTrimmed⟩ := trim_keyLine plain value
  obtain ⟨first, others, rfl⟩ := List.exists_cons_of_ne_nil plain.nonempty
  have noHash : (35 == first) = false := by
    rw [beq_eq_false_iff_ne]
    rintro rfl
    exact plain.noHash List.mem_cons_self
  rw [startsWith, isTrimmed]
  change ((35 == first) && _) = false
  rw [noHash, Bool.false_and]

theorem matchesKey_keyLine (plain : PlainKey key) (value : Bytes) :
    matchesKey key (keyLine key value) = true := by
  rw [matchesKey, startsWith_keyLine plain]
  rfl

theorem matchesKey_nil (key : Bytes) : matchesKey key [] = false := by
  have noForm (form : Bytes) (nonempty : form ≠ []) :
      startsWith form [] = false := by
    obtain ⟨first, rest, rfl⟩ := List.exists_cons_of_ne_nil nonempty
    rfl
  rw [matchesKey, noForm (plainForm key) (by simp [plainForm]),
    noForm (hashForm key) (List.cons_ne_nil _ _),
    noForm (spacedForm key) (List.cons_ne_nil _ _)]
  rfl

end

/-! ## One key and nothing else -/

/-- The lines behind `set_kv`, against those before it. -/
structure SetOnce (key value : Bytes) (before after : List Bytes) : Prop where
  once : after.filter (startsWith (plainForm key)) = [keyLine key value]
  uncommented : ∀ line ∈ after, startsWith (hashForm key) line = false ∧
    startsWith (spacedForm key) line = false
  kept : ∀ (index : Nat) (line : Bytes), before[index]? = some line →
    matchesKey key line = false → after[index]? = some line
  nothingNew : ∀ (index : Nat) (line : Bytes), after[index]? = some line →
    line = keyLine key value ∨ line = [] ∨ before[index]? = some line

theorem setLines_setOnce {key : Bytes} (plain : PlainKey key) (value : Bytes)
    (lines : List Bytes) :
    SetOnce key value lines (setLines key value lines) := by
  have single : (setLines key value lines).filter (matchesKey key) =
      [keyLine key value] :=
    filter_setFirst (matchesKey_keyLine plain value) (matchesKey_nil key) lines
  constructor
  · have narrower : (startsWith (plainForm key)) =
        fun line => startsWith (plainForm key) line && matchesKey key line := by
      funext line
      rw [matchesKey]
      cases startsWith (plainForm key) line <;> simp
    rw [narrower, ← List.filter_filter, single,
      List.filter_cons_of_pos (startsWith_keyLine plain value)]
    rfl
  · intro line member
    by_cases isMatch : matchesKey key line = true
    · have isLine : line = keyLine key value := by
        apply List.mem_singleton.mp
        rw [← single]
        exact List.mem_filter.mpr ⟨member, isMatch⟩
      rw [isLine]
      exact ⟨not_startsWith_keyLine plain value _,
        not_startsWith_keyLine plain value _⟩
    · simp only [matchesKey, Bool.not_eq_true, Bool.or_eq_false_iff] at isMatch
      exact ⟨isMatch.1.2, isMatch.2⟩
  · intro index line isLine other
    exact getElem?_setFirst isLine other
  · intro index line isLine
    exact of_getElem?_setFirst isLine

/-- The lines of the text are the lines that were set. -/
theorem splitLines_setText {key value : Bytes} (plain : PlainKey key)
    (oneLine : 10 ∉ value) (text : Bytes) :
    splitLines (setText key value text) =
      setLines key value (splitLines text) := by
  apply splitLines_joinLines
  intro line member
  rcases mem_setFirst member with rfl | rfl | inside
  · simp [keyLine, plainForm, plain.noNewline, oneLine]
  · exact List.not_mem_nil
  · exact newline_not_mem_splitLines inside

theorem setText_setText {key value : Bytes} (plain : PlainKey key)
    (oneLine : 10 ∉ value) (text : Bytes) :
    setText key value (setText key value text) = setText key value text := by
  have again : setLines key value (setLines key value (splitLines text)) =
      setLines key value (splitLines text) :=
    setFirst_of_single (filter_setFirst (matchesKey_keyLine plain value)
      (matchesKey_nil key) (splitLines text))
  rw [setText, splitLines_setText plain oneLine, again]
  rfl

/-! ## The file -/

theorem readFile_eq {disk : Disk Bytes} {path text : Bytes}
    (readable : disk.contents path = .ok text) :
    readFile disk path = text := by
  rw [readFile, readable]

theorem setKv_lands (path key value : Bytes) (disk : Disk Bytes) :
    Ends (setKv path key value disk)
      (fun _ final => ∃ loc, Lands path
        (setText key value (readFile disk path)) 420 disk final loc)
      (fun _ _ => True) := by
  apply Ends.bindOk (get_run disk)
  apply saveFile_lands

/-- What `set_kv` leaves in the file, whatever was in it; a second call leaves
the same. -/
theorem setKv_once (path : Bytes) {key value : Bytes} (plain : PlainKey key)
    (oneLine : 10 ∉ value) (disk : Disk Bytes) :
    Ends (setKv path key value disk)
      (fun _ final => ∃ loc text,
        final.fs.node? loc = some (.file text 420) ∧
        SetOnce key value (splitLines (readFile disk path))
          (splitLines text) ∧
        ((∀ target, disk.fs.node? loc ≠ some (.symlink target)) →
          final.contents path = .ok text) ∧
        ∀ other, final.contents path = .ok other → other = text ∧
          Ends (setKv path key value final)
            (fun _ again => ∃ loc', Lands path text 420 final again loc')
            (fun _ _ => True))
      (fun _ _ => True) := by
  apply (setKv_lands path key value disk).mono
  · rintro _ final ⟨loc, lands⟩
    refine ⟨loc, setText key value (readFile disk path), lands.written, ?_,
      lands.readable, ?_⟩
    · rw [splitLines_setText plain oneLine]
      exact setLines_setOnce plain value _
    · intro other readable
      have isText := lands.only other readable
      have second := setKv_lands path key value final
      rw [readFile_eq readable, isText, setText_setText plain oneLine]
        at second
      exact ⟨isText, second⟩
  · rintro _ _ _
    trivial

/-- A commented default with a second assignment behind it. -/
def grubDefaults : Bytes :=
  ascii "# boot\n# GRUB_TIMEOUT=5\n\n GRUB_TIMEOUT=1"

theorem grubDefaults_set :
    Ends (setKv (ascii "/grub") (ascii "GRUB_TIMEOUT") (ascii "3")
        ⟨(FileSystem.bare Bytes).replace (ascii "grub") []
          (some (.file grubDefaults 420)), [], []⟩)
      (fun _ final => ∃ loc text,
        final.fs.node? loc = some (.file text 420) ∧
        SetOnce (ascii "GRUB_TIMEOUT") (ascii "3") (splitLines grubDefaults)
          (splitLines text))
      (fun _ _ => False) := by
  have plain : PlainKey (ascii "GRUB_TIMEOUT") := by
    constructor <;> decide +kernel
  have oneLine : 10 ∉ ascii "3" := by
    decide
  have ends := setKv_once (ascii "/grub") plain oneLine
    ⟨(FileSystem.bare Bytes).replace (ascii "grub") []
      (some (.file grubDefaults 420)), [], []⟩
  have returns : succeeded (setKv (ascii "/grub") (ascii "GRUB_TIMEOUT")
      (ascii "3") ⟨(FileSystem.bare Bytes).replace (ascii "grub") []
        (some (.file grubDefaults 420)), [], []⟩) = true := by
    decide +kernel
  rw [eq_ok_of_succeeded returns] at ends ⊢
  obtain ⟨loc, text, written, set, _⟩ := ends
  have before : readFile ⟨(FileSystem.bare Bytes).replace (ascii "grub") []
      (some (.file grubDefaults 420)), [], []⟩ (ascii "/grub") =
      grubDefaults := by
    decide +kernel
  rw [before] at set
  exact ⟨loc, text, written, set⟩

end SaltOS.Setup
