import SaltOS.Boot.Grub
import SaltOS.Base.Written
import SaltOS.Lib.SortedMap

/-!
# The GRUB environment block

`grubenv_read` and `grubenv_write` of `src/salt/cmd_deploy.cpp`, with the file
they share.  The block is a comment line, one line for each entry of a
`std::map` in the order of its keys, and a padding of `#` up to 1024 bytes.
-/

namespace SaltOS.Grubenv

open Lib Util

/-- Bytes compare as numbers, and `std::string`s byte by byte. -/
scoped instance byteOrder : LinearOrder UInt8 where
  le_refl := UInt8.le_refl
  le_trans _ _ _ := UInt8.le_trans
  le_antisymm _ _ := UInt8.le_antisymm
  le_total := UInt8.le_total
  lt_iff_le_not_ge left right := by
    rw [UInt8.not_le]
    exact ⟨fun less => ⟨UInt8.le_of_lt less, less⟩, And.right⟩
  toDecidableLE := inferInstance

/-- `std::map<std::string, std::string>`. -/
abbrev EnvMap := SortedMap Bytes Bytes

def headerLine : Bytes :=
  ascii "# GRUB Environment Block"

def entryLine (entry : Bytes × Bytes) : Bytes :=
  entry.1 ++ 61 :: entry.2

/-- The block before its padding. -/
def blockText (kv : EnvMap) : Bytes :=
  headerLine ++ [10] ++
    kv.entries.flatMap fun entry => entryLine entry ++ [10]

/-- `s.resize(1024, '#')` of a text that is not longer. -/
def padded (text : Bytes) : Bytes :=
  text ++ List.replicate (1024 - text.length) 35

def blockFull : Bytes :=
  ascii "salt: grubenv block is full\n"

def grubenvWrite (path : Bytes) (kv : EnvMap) :
    EStateM Bytes (Disk Bytes) Unit :=
  let block := blockText kv
  if 1024 < block.length then throw blockFull
  else
    saveFile (fun failure => ascii "salt: cannot write " ++ path ++
      ascii ": " ++ failure.message.getD [] ++ [10]) path (padded block) 420

def readLine (kv : EnvMap) (line : Bytes) : EnvMap :=
  if line = [] ∨ line.head? = some 35 then kv
  else if 61 ∈ line then
    kv.assign (line.takeWhile (· ≠ 61)) ((line.dropWhile (· ≠ 61)).drop 1)
  else kv

def parseBlock (text : Bytes) : EnvMap :=
  (text.splitOn 10).foldl readLine SortedMap.empty

def grubenvRead (disk : Disk Bytes) (path : Bytes) : EnvMap :=
  match disk.contents path with
  | .ok text => parseBlock text
  | .error _ => SortedMap.empty

/-! ## Maps that a block can hold -/

/-- An entry whose line is read as the entry. -/
structure PlainEntry (entry : Bytes × Bytes) : Prop where
  nonempty : entry.1 ≠ []
  noEquals : 61 ∉ entry.1
  keyLine : 10 ∉ entry.1
  noComment : entry.1.head? ≠ some 35
  valueLine : 10 ∉ entry.2

def Fits (kv : EnvMap) : Prop :=
  (blockText kv).length ≤ 1024

instance (kv : EnvMap) : Decidable (Fits kv) :=
  inferInstanceAs (Decidable (_ ≤ _))

theorem length_padded {kv : EnvMap} (fits : Fits kv) :
    (padded (blockText kv)).length = 1024 := by
  unfold Fits at fits
  rw [padded, List.length_append, List.length_replicate]
  omega

/-! ## Reading what was written -/

theorem readLine_entryLine {entry : Bytes × Bytes} (plain : PlainEntry entry)
    (kv : EnvMap) :
    readLine kv (entryLine entry) = kv.assign entry.1 entry.2 := by
  have keyBytes : ∀ byte ∈ entry.1, decide (byte ≠ 61) = true := by
    intro byte member
    rw [decide_eq_true_eq]
    rintro rfl
    exact plain.noEquals member
  have notSkipped :
      ¬ (entryLine entry = [] ∨ (entryLine entry).head? = some 35) := by
    rintro (empty | comment)
    · exact plain.nonempty (List.append_eq_nil_iff.mp empty).1
    · apply plain.noComment
      rwa [entryLine, List.head?_append_of_ne_nil _ plain.nonempty] at comment
  have hasEquals : 61 ∈ entryLine entry :=
    List.mem_append_right _ List.mem_cons_self
  rw [readLine, if_neg notSkipped, if_pos hasEquals, entryLine,
    List.takeWhile_append_of_pos keyBytes,
    List.dropWhile_append_of_pos keyBytes]
  simp

theorem foldl_readLine {entries : List (Bytes × Bytes)}
    (plain : ∀ entry ∈ entries, PlainEntry entry) (kv : EnvMap) :
    (entries.map entryLine).foldl readLine kv = kv.assignAll entries := by
  induction entries generalizing kv with
  | nil => rfl
  | cons entry entries induction =>
      rw [List.map_cons, List.foldl_cons,
        readLine_entryLine (plain entry List.mem_cons_self)]
      apply induction
      intro other member
      exact plain other (List.mem_cons_of_mem entry member)

theorem readLine_padding (kv : EnvMap) (count : Nat) :
    readLine kv (List.replicate count 35) = kv := by
  rw [readLine, if_pos]
  cases count with
  | zero => exact .inl rfl
  | succ count => exact .inr rfl

/-- The lines of a block. -/
theorem splitOn_padded {kv : EnvMap}
    (plain : ∀ entry ∈ kv.entries, PlainEntry entry) :
    (padded (blockText kv)).splitOn 10 =
      headerLine :: kv.entries.map entryLine ++
        [List.replicate (1024 - (blockText kv).length) 35] := by
  have entryWhole : ∀ entry ∈ kv.entries, 10 ∉ entryLine entry := by
    intro entry member
    have isPlain := plain entry member
    simp [entryLine, isPlain.keyLine, isPlain.valueLine]
  have paddingWhole :
      10 ∉ List.replicate (1024 - (blockText kv).length) (35 : UInt8) := by
    simp
  rw [padded]
  generalize List.replicate (1024 - (blockText kv).length) (35 : UInt8) =
    padding at paddingWhole ⊢
  rw [blockText, List.append_assoc, List.append_assoc, List.singleton_append,
    List.splitOn_append_cons_self, splitOn_flatMap_append entryWhole
      paddingWhole, List.splitOn_eq_singleton (by decide)]
  rfl

theorem parseBlock_padded {kv : EnvMap}
    (plain : ∀ entry ∈ kv.entries, PlainEntry entry) :
    parseBlock (padded (blockText kv)) = kv := by
  have comment : readLine SortedMap.empty headerLine = SortedMap.empty :=
    if_pos (.inr rfl)
  rw [parseBlock, splitOn_padded plain, List.cons_append, List.foldl_cons,
    comment, List.foldl_append, foldl_readLine plain, List.foldl_cons,
    List.foldl_nil, readLine_padding]
  exact kv.assignAll_entries

/-! ## The file -/

theorem grubenvRead_eq {disk : Disk Bytes} {path text : Bytes}
    (readable : disk.contents path = .ok text) :
    grubenvRead disk path = parseBlock text := by
  rw [grubenvRead, readable]

theorem grubenvWrite_full {kv : EnvMap} (full : ¬ Fits kv) (path : Bytes)
    (disk : Disk Bytes) :
    grubenvWrite path kv disk = .error blockFull disk := by
  unfold grubenvWrite
  rw [if_pos (not_le.mp full)]
  rfl

theorem grubenvWrite_ends {kv : EnvMap} (fits : Fits kv) (path : Bytes)
    (disk : Disk Bytes) :
    Ends (grubenvWrite path kv disk)
      (fun _ final => ∃ loc,
        Lands path (padded (blockText kv)) 420 disk final loc)
      (fun _ _ => True) := by
  unfold grubenvWrite
  rw [if_neg (not_lt.mpr fits)]
  apply saveFile_lands

/-- A map that a block can hold is read back from the file; unless the file
took the place of a symbolic link, the path surely leads to it.  A map that
does not fit changes nothing. -/
theorem grubenv_roundTrip (path : Bytes) (kv : EnvMap)
    (plain : ∀ entry ∈ kv.entries, PlainEntry entry) (disk : Disk Bytes) :
    (Fits kv → Ends (grubenvWrite path kv disk)
      (fun _ final => ∃ loc block, block.length = 1024 ∧
        final.fs.node? loc = some (.file block 420) ∧
        (∀ other, final.contents path = .ok other →
          other = block ∧ grubenvRead final path = kv) ∧
        ((∀ target, disk.fs.node? loc ≠ some (.symlink target)) →
          final.contents path = .ok block ∧ grubenvRead final path = kv))
      (fun _ _ => True)) ∧
    (¬ Fits kv → grubenvWrite path kv disk = .error blockFull disk) := by
  constructor
  · intro fits
    apply (grubenvWrite_ends fits path disk).mono
    · rintro _ final ⟨loc, lands⟩
      have reads (isBlock :
          final.contents path = .ok (padded (blockText kv))) :
          grubenvRead final path = kv := by
        rw [grubenvRead_eq isBlock, parseBlock_padded plain]
      refine ⟨loc, padded (blockText kv), length_padded fits, lands.written,
        ?_, ?_⟩
      · intro other readable
        have isBlock := lands.only other readable
        exact ⟨isBlock, reads (isBlock ▸ readable)⟩
      · intro notLink
        have isBlock := lands.readable notLink
        exact ⟨isBlock, reads isBlock⟩
    · rintro _ _ _
      trivial
  · intro full
    exact grubenvWrite_full full path disk

/-- Two entries: a value with both special bytes, and an empty one. -/
def sampleEnv : EnvMap :=
  (SortedMap.empty.assign (ascii "saltos_try") []).assign
    (ascii "saltos_default") (ascii "k-#6=1")

theorem sampleEnv_read :
    grubenvRead (finalState (grubenvWrite (ascii "/boot/grubenv") sampleEnv
      ⟨FileSystem.bare Bytes, [], []⟩)) (ascii "/boot/grubenv") =
      sampleEnv := by
  have plain : ∀ entry ∈ sampleEnv.entries, PlainEntry entry := by
    intro entry member
    rcases List.mem_cons.mp member with rfl | later
    · constructor <;> decide
    · cases List.mem_singleton.mp later
      constructor <;> decide
  have ends := (grubenv_roundTrip (ascii "/boot/grubenv") sampleEnv plain
    ⟨FileSystem.bare Bytes, [], []⟩).1 (by decide)
  have returns : succeeded (grubenvWrite (ascii "/boot/grubenv") sampleEnv
      ⟨FileSystem.bare Bytes, [], []⟩) = true := by
    decide +kernel
  rw [eq_ok_of_succeeded returns] at ends
  obtain ⟨loc, block, _, _, _, unlinked⟩ := ends
  apply (unlinked ?_).2
  intro target isLink
  have member : loc ∈ (FileSystem.bare Bytes).nodes.keys :=
    AList.mem_keys.mp (FileSystem.mem_nodes_iff.mpr (by rw [isLink]; simp))
  have isRoot : loc = [] := List.mem_singleton.mp member
  subst isRoot
  cases isLink

/-! ## The keys of the boot commands -/

/-- The map that the boot commands write. -/
def envMap (values : Grub.EnvKey → Bytes) : EnvMap :=
  SortedMap.empty.assignAll
    (Grub.envKeys.map fun key => (key.text, values key))

theorem entries_envMap (values : Grub.EnvKey → Bytes) :
    (envMap values).entries =
      Grub.envKeys.map fun key => (key.text, values key) := by
  apply SortedMap.entries_assignAll
  apply List.pairwise_map.mpr
  change Grub.envKeys.Pairwise fun left right => left.text < right.text
  decide

/-- The boot commands refuse exactly the maps that do not fit. -/
theorem fits_envMap (values : Grub.EnvKey → Bytes) :
    Fits (envMap values) ↔ Grub.blockSize values ≤ 1024 := by
  have sizes : (blockText (envMap values)).length =
      Grub.blockSize values := by
    rw [blockText, entries_envMap]
    simp only [Grub.envKeys, List.map_cons, List.map_nil, List.flatMap_cons,
      List.flatMap_nil, entryLine, List.length_append, List.length_cons,
      List.length_nil, Grub.blockSize, List.sum_cons, List.sum_nil]
    have header : headerLine.length + 1 =
        (ascii "# GRUB Environment Block\n").length := by
      decide
    omega
  rw [Fits, sizes]

end SaltOS.Grubenv
