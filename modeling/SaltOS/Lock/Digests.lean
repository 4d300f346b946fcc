import SaltOS.Lib.Pieces
import SaltOS.Lock.ForeignTexts

/-!
# Whose digests are taken

What `salt_foreign_pkg_parse_digests` goes through once, line by line, is a
list of reports: a line of rpm or of xbps is one, and so is what apk's database
has between two empty lines.  A package only ever gets a digest that is
reported for its name and its version.
-/

namespace SaltOS.Lock

open Repo

/-! ## What a text says -/

/-- What lies between the empty lines of apk's database. -/
def stanzas (text : Bytes) : List (List Bytes) :=
  (toolLines text).splitOn []

/-- The parts of a text that stand for a package each. -/
def pieces (kind : PkgKind) (text : Bytes) : List (List Bytes) :=
  if kind = .apk then (stanzas text).filter (· ≠ [])
  else ((toolLines text).filter (· ≠ [])).map fun line => [line]

/-- The value of a line of such a letter. -/
def lineField (letter : UInt8) (line : Bytes) : Option Bytes :=
  match cstr line with
  | first :: 58 :: value => if first = letter then some value else none
  | _ => none

/-- The last value of a letter in a stanza. -/
def stanzaField (letter : UInt8) (stanza : List Bytes) : Option Bytes :=
  (stanza.filterMap (lineField letter)).getLast?

/-- A line, or a stanza, is about this name and version and has this value. -/
def Names (kind : PkgKind) (piece : List Bytes)
    (name version value : Bytes) : Prop :=
  match kind with
  | .dnf | .zypper => ∃ line, piece = [line] ∧
      cstr line = name ++ 9 :: (version ++ 9 :: value) ∧
      9 ∉ name ∧ 9 ∉ version
  | .xbps => ∃ line, piece = [line] ∧
      cstr line = name ++ 45 :: (version ++ 9 :: value) ∧
      name ≠ [] ∧ 9 ∉ name ∧ 45 ∉ version ∧ 9 ∉ version
  | .apk => stanzaField 80 piece = some name ∧
      stanzaField 86 piece = some version ∧
      stanzaField 67 piece = some value
  | .pacman | .apt => False

/-- What stands in front of a digest. -/
def digestLabel : PkgKind → Bytes
  | .dnf | .zypper => ascii "rpm-sha256header:"
  | .xbps => ascii "sha256:"
  | .apk => ascii "apk-checksum:"
  | .pacman | .apt => []

/-! ## Reports -/

/-- A name and a version, and the digest of what has them, if it is one. -/
structure Report where
  name : Bytes
  version : Bytes
  digest : Except Bytes Bytes

def rpmReport (line : Bytes) : Except Bytes (Option Report) :=
  match (strchr 9 line).bind fun first =>
      (strchr 9 first.2).map fun second => (first.1, second) with
  | none => .error (ascii "rpm -qa: malformed digest line '" ++ line ++
      ascii "'")
  | some (name, version, digest) =>
      .ok (some ⟨name, version, reported (ascii "rpm-sha256header:") digest
        (ascii "rpm reports no SHA256HEADER for " ++ name ++ [32] ++
          version)⟩)

def xbpsReport (line : Bytes) : Except Bytes (Option Report) :=
  match strchr 9 line with
  | none => .error (ascii "xbps-query: malformed digest line '" ++ line ++
      ascii "'")
  | some (pkgver, digest) =>
      match splitTrailing pkgver 1 with
      | none => .error (ascii "xbps-query: malformed pkgver '" ++ pkgver ++
          ascii "'")
      | some (name, version) =>
          .ok (some ⟨name, version, reported (ascii "sha256:") digest
            (ascii "xbps reports no filename-sha256 for " ++ name ++ [45] ++
              version)⟩)

/-- A line that is not empty goes into the record. -/
def ApkRecord.read (record : ApkRecord) (line : Bytes) : ApkRecord :=
  match cstr line with
  | 80 :: 58 :: value => { record with name := some value }
  | 86 :: 58 :: value => { record with version := some value }
  | 67 :: 58 :: value => { record with checksum := some value }
  | _ => record

/-- What the empty line behind a stanza makes of it. -/
def stanzaReport (stanza : List Bytes) : Except Bytes (Option Report) :=
  match stanza.foldl ApkRecord.read ⟨none, none, none⟩ with
  | ⟨some name, some version, some checksum⟩ =>
      .ok (some ⟨name, version,
        prefixed (ascii "apk-checksum:") checksum⟩)
  | ⟨some name, _, _⟩ => .error (ascii "apk installed db: " ++ name ++
      ascii " lacks a version or checksum")
  | _ => .ok none

/-- The pieces that are reported: of apk's, those that an empty line ends. -/
def reportedPieces (kind : PkgKind) (text : Bytes) : List (List Bytes) :=
  if kind = .apk then (stanzas text).dropLast
  else ((toolLines text).filter (· ≠ [])).map fun line => [line]

def pieceReport (kind : PkgKind) (piece : List Bytes) :
    Except Bytes (Option Report) :=
  match kind, piece with
  | .dnf, [line] | .zypper, [line] => rpmReport (cstr line)
  | .xbps, [line] => xbpsReport (cstr line)
  | .apk, stanza => stanzaReport stanza
  | _, _ => .ok none

def reports (kind : PkgKind) (text : Bytes) :
    List (Except Bytes (Option Report)) :=
  match kind with
  | .pacman => [.error (ascii "pacman digests are not parsed from text")]
  | .apt => [.error (ascii "apt digests are not parsed from text")]
  | kind => (reportedPieces kind text).map (pieceReport kind)

/-- A report is taken. -/
def attach (pkgs : List ForeignPkg) :
    Except Bytes (Option Report) → Except Bytes (List ForeignPkg)
  | .error message => .error message
  | .ok none => .ok pkgs
  | .ok (some report) =>
      setDigest report.name report.version report.digest pkgs

theorem parseRpmDigest_eq (pkgs : List ForeignPkg) (line : Bytes) :
    parseRpmDigest pkgs line = attach pkgs (rpmReport line) := by
  rw [parseRpmDigest, rpmReport]
  cases (strchr 9 line).bind fun first =>
      (strchr 9 first.2).map fun second => (first.1, second) with
  | none => rfl
  | some fields => rfl

theorem parseXbpsDigest_eq (pkgs : List ForeignPkg) (line : Bytes) :
    parseXbpsDigest pkgs line = attach pkgs (xbpsReport line) := by
  rw [parseXbpsDigest, xbpsReport]
  cases strchr 9 line with
  | none => rfl
  | some fields =>
      obtain ⟨pkgver, digest⟩ := fields
      dsimp only
      cases splitTrailing pkgver 1 with
      | none => rfl
      | some parts => rfl

/-! ## Stanzas -/

theorem ApkRecord.read_other {record : ApkRecord} {line : Bytes}
    (noName : ∀ value, cstr line ≠ 80 :: 58 :: value)
    (noVersion : ∀ value, cstr line ≠ 86 :: 58 :: value)
    (noChecksum : ∀ value, cstr line ≠ 67 :: 58 :: value) :
    record.read line = record := by
  unfold ApkRecord.read
  split
  · exact absurd ‹_› (noName _)
  · exact absurd ‹_› (noVersion _)
  · exact absurd ‹_› (noChecksum _)
  · rfl

theorem parseApkLine_read (pkgs : List ForeignPkg) (record : ApkRecord)
    {line : Bytes} (nonempty : line ≠ []) :
    parseApkLine (pkgs, record) line = .ok (pkgs, record.read line) := by
  rw [parseApkLine, if_neg nonempty]
  split
  · rename_i isName
    simp only [ApkRecord.read, isName]
  · rename_i isVersion
    simp only [ApkRecord.read, isVersion]
  · rename_i isChecksum
    simp only [ApkRecord.read, isChecksum]
  · rename_i noName noVersion noChecksum
    rw [ApkRecord.read_other noName noVersion noChecksum]

/-- The lines of a stanza only go into the record. -/
theorem foldlM_stanza {stanza : List Bytes} (noBlank : [] ∉ stanza)
    (rest : List Bytes) (pkgs : List ForeignPkg) (record : ApkRecord) :
    (stanza ++ rest).foldlM parseApkLine (pkgs, record) =
      rest.foldlM parseApkLine
        (pkgs, stanza.foldl ApkRecord.read record) := by
  induction stanza generalizing record with
  | nil => rfl
  | cons line stanza induction =>
      rw [List.mem_cons, not_or] at noBlank
      rw [List.cons_append, List.foldlM_cons,
        parseApkLine_read pkgs record (Ne.symm noBlank.1), List.foldl_cons]
      exact induction noBlank.2 (record.read line)

/-- An empty line reports the stanza in front of it. -/
theorem parseApkLine_blank (pkgs : List ForeignPkg) (stanza : List Bytes) :
    parseApkLine (pkgs, stanza.foldl ApkRecord.read ⟨none, none, none⟩) [] =
      (attach pkgs (stanzaReport stanza)).map fun pkgs =>
        (pkgs, ⟨none, none, none⟩) := by
  rw [parseApkLine, stanzaReport, if_pos rfl]
  generalize stanza.foldl ApkRecord.read ⟨none, none, none⟩ = record
  obtain ⟨name, version, checksum⟩ := record
  cases name with
  | none => rfl
  | some name =>
      cases version with
      | none => rfl
      | some version =>
          cases checksum with
          | none => rfl
          | some checksum =>
              simp only [attach]
              cases setDigest name version
                (prefixed (ascii "apk-checksum:") checksum) pkgs <;> rfl

theorem foldlM_stanzas (groups : List (List Bytes))
    (nonempty : groups ≠ []) (noBlank : ∀ stanza ∈ groups, [] ∉ stanza)
    (pkgs : List ForeignPkg) :
    (([[]].intercalate groups).foldlM parseApkLine
        (pkgs, ⟨none, none, none⟩)).map Prod.fst =
      (groups.dropLast.map stanzaReport).foldlM attach pkgs := by
  induction groups generalizing pkgs with
  | nil => exact absurd rfl nonempty
  | cons stanza groups induction =>
      have inStanza := noBlank stanza List.mem_cons_self
      cases groups with
      | nil =>
          have lines : [[]].intercalate [stanza] = stanza ++ [] := by
            simp [List.intercalate]
          rw [lines, foldlM_stanza inStanza]
          rfl
      | cons next groups =>
          have lines : [[]].intercalate (stanza :: next :: groups) =
              stanza ++ [] :: [[]].intercalate (next :: groups) := by
            simp [List.intercalate]
          have later := induction (by simp)
            fun other member => noBlank other
              (List.mem_cons_of_mem stanza member)
          rw [lines, foldlM_stanza inStanza, List.foldlM_cons,
            parseApkLine_blank, List.dropLast_cons_cons, List.map_cons,
            List.foldlM_cons]
          cases attach pkgs (stanzaReport stanza) with
          | error message => rfl
          | ok pkgs => exact later pkgs

/-- The lines of a text are taken one report after the other. -/
theorem parseDigests_eq (kind : PkgKind) : ∃ manager : String,
    ∀ (text : Bytes) (pkgs : List ForeignPkg),
      parseDigests kind text pkgs =
        (reports kind text).foldlM attach pkgs >>=
          digestsComplete manager := by
  have fromLines : ∀ (manager : String) (lines : List Bytes)
      (round : List ForeignPkg → Bytes → Except Bytes (List ForeignPkg))
      (report : List Bytes → Except Bytes (Option Report)) (pkgs),
      (∀ pkgs line, round pkgs (cstr line) = attach pkgs (report [line])) →
        (lines.map cstr).foldlM round pkgs >>= digestsComplete manager =
        ((lines.map fun line => [line]).map report).foldlM attach pkgs >>=
            digestsComplete manager := by
    intro manager lines round report pkgs same
    rw [List.foldlM_map, List.foldlM_map, List.foldlM_map]
    simp only [same]
  cases kind with
  | dnf =>
      exact ⟨"dnf", fun text pkgs => fromLines "dnf" _ parseRpmDigest
        (pieceReport .dnf) pkgs fun pkgs line => parseRpmDigest_eq pkgs _⟩
  | zypper =>
      exact ⟨"zypper", fun text pkgs => fromLines "zypper" _ parseRpmDigest
        (pieceReport .zypper) pkgs fun pkgs line => parseRpmDigest_eq pkgs _⟩
  | xbps =>
      exact ⟨"xbps", fun text pkgs => fromLines "xbps" _ parseXbpsDigest
        (pieceReport .xbps) pkgs fun pkgs line => parseXbpsDigest_eq pkgs _⟩
  | apk =>
      refine ⟨"apk", fun text pkgs => ?_⟩
      have whole := foldlM_stanzas (stanzas text)
        (List.splitOn_ne_nil [] (toolLines text))
        (fun stanza member => Lib.not_mem_of_mem_splitOn member) pkgs
      rw [stanzas, List.intercalate_splitOn] at whole
      have isReports : reports .apk text =
          (stanzas text).dropLast.map stanzaReport := rfl
      rw [isReports, stanzas, ← whole, parseDigests]
      cases (toolLines text).foldlM parseApkLine
        (pkgs, ⟨none, none, none⟩) <;> rfl
  | pacman => exact ⟨"pacman", fun text pkgs => rfl⟩
  | apt => exact ⟨"apt", fun text pkgs => rfl⟩

/-! ## What a report says -/

theorem strchr_eq_some {byte : UInt8} {text front rest : Bytes}
    (found : strchr byte text = some (front, rest)) :
    text = front ++ byte :: rest ∧ byte ∉ front := by
  unfold strchr at found
  split at found
  · rename_i inText
    cases found
    have differ : byte ∉ text.takeWhile (· != byte) := by
      intro member
      simpa using List.mem_takeWhile_imp member
    refine ⟨?_, differ⟩
    have parts : text.takeWhile (· != byte) ++ text.dropWhile (· != byte) =
        text := List.takeWhile_append_dropWhile
    cases left : text.dropWhile (· != byte) with
    | nil =>
        rw [left, List.append_nil] at parts
        rw [parts] at differ
        exact absurd inText differ
    | cons first others =>
        have isByte : first = byte := by
          have head := List.head?_dropWhile_not (· != byte) text
          rw [left] at head
          simpa using head
        rw [left, isByte] at parts
        exact parts.symm
  · cases found

theorem lastDash_eq_some {token : Bytes} {start dash : Nat}
    (found : lastDash token start = some dash) :
    0 < dash ∧ token[dash]? = some 45 ∧
      ∀ index, dash < index → index ≤ start → token[index]? ≠ some 45 := by
  induction start with
  | zero => cases found
  | succ start induction =>
      unfold lastDash at found
      split at found
      · rename_i isDash
        cases found
        exact ⟨by omega, isDash, fun index _ _ => by omega⟩
      · rename_i noDash
        obtain ⟨positive, isDash, absent⟩ := induction found
        refine ⟨positive, isDash, fun index after upTo => ?_⟩
        by_cases isLast : index = start + 1
        · exact isLast ▸ noDash
        · exact absent index after (by omega)

/-- The version is what follows the last dash. -/
theorem splitTrailing_one {token name version : Bytes}
    (found : splitTrailing token 1 = some (name, version)) :
    token = name ++ 45 :: version ∧ name ≠ [] ∧ 45 ∉ version := by
  obtain ⟨dash, isCut, parts⟩ := Option.map_eq_some_iff.mp found
  have isLast : lastDash token token.length = some dash := by
    unfold trailingCut at isCut
    simpa using isCut
  cases parts
  obtain ⟨positive, isDash, absent⟩ := lastDash_eq_some isLast
  obtain ⟨short, value⟩ := List.getElem?_eq_some_iff.mp isDash
  refine ⟨?_, ?_, ?_⟩
  · have rest := List.drop_eq_getElem_cons short
    rw [value] at rest
    rw [← rest, List.take_append_drop]
  · intro empty
    have length := congrArg List.length empty
    simp only [List.length_take, List.length_nil] at length
    omega
  · intro member
    obtain ⟨index, inside, isByte⟩ := List.getElem_of_mem member
    rw [List.length_drop] at inside
    apply absent (dash + 1 + index) (by omega) (by omega)
    rw [List.getElem_drop] at isByte
    rw [List.getElem?_eq_getElem (by omega), isByte]

theorem stanzaField_cons (letter : UInt8) (line : Bytes)
    (stanza : List Bytes) :
    stanzaField letter (line :: stanza) =
      (stanzaField letter stanza).or (lineField letter line) := by
  unfold stanzaField
  rw [List.filterMap_cons]
  cases lineField letter line with
  | none => simp
  | some value =>
      rw [List.getLast?_cons]
      cases (stanza.filterMap (lineField letter)).getLast? <;> rfl

theorem ApkRecord.read_eq (record : ApkRecord) (line : Bytes) :
    record.read line = ⟨(lineField 80 line).or record.name,
      (lineField 86 line).or record.version,
      (lineField 67 line).or record.checksum⟩ := by
  unfold ApkRecord.read lineField
  generalize cstr line = shown
  split
  · simp
  · simp
  · simp
  · rename_i noName noVersion noChecksum
    split
    · rename_i first value
      have isName : first ≠ 80 := fun same => noName value (same ▸ rfl)
      have isVersion : first ≠ 86 := fun same => noVersion value (same ▸ rfl)
      have isChecksum : first ≠ 67 :=
        fun same => noChecksum value (same ▸ rfl)
      simp [isName, isVersion, isChecksum]
    · rfl

/-- The last field of a letter is what the record has. -/
theorem foldl_read (stanza : List Bytes) (record : ApkRecord) :
    stanza.foldl ApkRecord.read record =
      ⟨(stanzaField 80 stanza).or record.name,
        (stanzaField 86 stanza).or record.version,
        (stanzaField 67 stanza).or record.checksum⟩ := by
  induction stanza generalizing record with
  | nil => rfl
  | cons line stanza induction =>
      rw [List.foldl_cons, induction, ApkRecord.read_eq]
      simp only [stanzaField_cons, Option.or_assoc]

/-- A report is about what its piece names. -/
structure Report.Tells (kind : PkgKind) (piece : List Bytes)
    (report : Report) : Prop where
  names : ∃ value, Names kind piece report.name report.version value ∧
    ∀ digest, report.digest = .ok digest →
      digest = digestLabel kind ++ value ∧ (kind ≠ .apk → IsHex value)

theorem reported_eq_ok {label value error digest : Bytes}
    (isReported : reported label value error = .ok digest) :
    digest = label ++ value ∧ IsHex value := by
  unfold reported at isReported
  split at isReported
  · rename_i valid
    cases isReported
    exact ⟨rfl, sha256HexValid_iff.mp valid⟩
  · cases isReported

theorem rpmReport_tells {kind : PkgKind} (isRpm : kind = .dnf ∨ kind = .zypper)
    {line : Bytes} {report : Report}
    (isReport : rpmReport (cstr line) = .ok (some report)) :
    report.Tells kind [line] := by
  unfold rpmReport at isReport
  split at isReport
  · cases isReport
  · rename_i name version value found
    cases isReport
    obtain ⟨⟨first, rest⟩, isFirst, isRest⟩ := Option.bind_eq_some_iff.mp found
    obtain ⟨⟨second, last⟩, isSecond, same⟩ := Option.map_eq_some_iff.mp isRest
    cases same
    obtain ⟨whole, noTab⟩ := strchr_eq_some isFirst
    obtain ⟨others, noOtherTab⟩ := strchr_eq_some isSecond
    rcases isRpm with rfl | rfl
    · exact ⟨value, ⟨line, rfl, others ▸ whole, noTab, noOtherTab⟩,
        fun digest isDigest =>
          ⟨(reported_eq_ok isDigest).1, fun _ => (reported_eq_ok isDigest).2⟩⟩
    · exact ⟨value, ⟨line, rfl, others ▸ whole, noTab, noOtherTab⟩,
        fun digest isDigest =>
          ⟨(reported_eq_ok isDigest).1, fun _ => (reported_eq_ok isDigest).2⟩⟩

theorem xbpsReport_tells {line : Bytes} {report : Report}
    (isReport : xbpsReport (cstr line) = .ok (some report)) :
    report.Tells .xbps [line] := by
  unfold xbpsReport at isReport
  split at isReport
  · cases isReport
  · rename_i pkgver value found
    split at isReport
    · cases isReport
    · rename_i name version parts
      cases isReport
      obtain ⟨whole, noTab⟩ := strchr_eq_some found
      obtain ⟨rfl, nonempty, noDash⟩ := splitTrailing_one parts
      rw [List.append_assoc, List.cons_append] at whole
      simp only [List.mem_append, List.mem_cons, not_or] at noTab
      exact ⟨value, ⟨line, rfl, whole, nonempty, noTab.1, noDash, noTab.2.2⟩,
        fun digest isDigest =>
          ⟨(reported_eq_ok isDigest).1, fun _ => (reported_eq_ok isDigest).2⟩⟩

theorem stanzaReport_tells {stanza : List Bytes} {report : Report}
    (isReport : stanzaReport stanza = .ok (some report)) :
    report.Tells .apk stanza := by
  unfold stanzaReport at isReport
  rw [foldl_read] at isReport
  simp only [Option.or_none] at isReport
  split at isReport
  · rename_i name version checksum fields
    cases isReport
    injection fields with isName isVersion isChecksum
    exact ⟨checksum, ⟨isName, isVersion, isChecksum⟩, fun digest isDigest =>
      ⟨prefixed_eq isDigest, fun other => absurd rfl other⟩⟩
  · cases isReport
  · cases isReport

theorem pieceReport_tells {kind : PkgKind} {piece : List Bytes}
    {report : Report} (isReport : pieceReport kind piece = .ok (some report)) :
    report.Tells kind piece := by
  unfold pieceReport at isReport
  split at isReport
  · exact rpmReport_tells (.inl rfl) isReport
  · exact rpmReport_tells (.inr rfl) isReport
  · exact xbpsReport_tells isReport
  · exact stanzaReport_tells isReport
  · cases isReport

theorem reports_tell {kind : PkgKind} {text : Bytes} {report : Report}
    (member : .ok (some report) ∈ reports kind text) :
    ∃ piece ∈ reportedPieces kind text, report.Tells kind piece := by
  unfold reports at member
  split at member
  · simp at member
  · simp at member
  · obtain ⟨piece, isPiece, isReport⟩ := List.mem_map.mp member
    exact ⟨piece, isPiece, pieceReport_tells isReport⟩

/-- A piece that names something is not empty. -/
theorem mem_pieces {kind : PkgKind} {text : Bytes} {piece : List Bytes}
    (member : piece ∈ reportedPieces kind text) {name version value : Bytes}
    (names : Names kind piece name version value) :
    piece ∈ pieces kind text := by
  unfold reportedPieces at member
  unfold pieces
  split at member
  · rename_i isApk
    subst kind
    rw [if_pos rfl]
    have nonempty : piece ≠ [] := by
      rintro rfl
      cases names.1
    simp [List.mem_of_mem_dropLast member, nonempty]
  · rename_i notApk
    rwa [if_neg notApk]

/-! ## What is attached -/

theorem setDigest_ok {name version : Bytes} {digest : Except Bytes Bytes}
    {pkgs after : List ForeignPkg}
    (set : setDigest name version digest pkgs = .ok after) :
    after.map (fun pkg => (pkg.name, pkg.version)) =
        pkgs.map (fun pkg => (pkg.name, pkg.version)) ∧
      ∀ pkg ∈ after, pkg ∈ pkgs ∨ pkg.name = name ∧ pkg.version = version ∧
        ∃ text, digest = .ok text ∧ pkg.digest = some text := by
  induction pkgs generalizing after with
  | nil =>
      cases set
      simp
  | cons first pkgs induction =>
      unfold setDigest at set
      split at set
      · rename_i sameName
        split at set
        · rename_i sameVersion
          cases digest with
          | error message => cases set
          | ok text =>
              cases set
              refine ⟨rfl, fun pkg member => ?_⟩
              rcases List.mem_cons.mp member with rfl | later
              · exact .inr ⟨sameName, sameVersion, text, rfl, rfl⟩
              · exact .inl (List.mem_cons_of_mem first later)
        · cases set
          exact ⟨rfl, fun pkg member => .inl member⟩
      · cases rest : setDigest name version digest pkgs with
        | error message =>
            rw [rest] at set
            cases set
        | ok changed =>
            rw [rest] at set
            cases set
            obtain ⟨same, found⟩ := induction rest
            refine ⟨by simp [same], fun pkg member => ?_⟩
            rcases List.mem_cons.mp member with rfl | later
            · exact .inl List.mem_cons_self
            · exact (found pkg later).imp_left (List.mem_cons_of_mem first)

/-- A package has a digest that is reported for it. -/
def Attached (items : List (Except Bytes (Option Report)))
    (pkg : ForeignPkg) : Prop :=
  ∃ report, .ok (some report) ∈ items ∧ report.name = pkg.name ∧
    report.version = pkg.version ∧
    ∃ text, report.digest = .ok text ∧ pkg.digest = some text

/-- Of a list of packages without digests, what went through some reports. -/
structure Attaching (items : List (Except Bytes (Option Report)))
    (pkgs state : List ForeignPkg) : Prop where
  same : state.map (fun pkg => (pkg.name, pkg.version)) =
    pkgs.map (fun pkg => (pkg.name, pkg.version))
  attached : ∀ pkg ∈ state, pkg.digest = none ∨ Attached items pkg

theorem attach_ok {items : List (Except Bytes (Option Report))}
    {item : Except Bytes (Option Report)} (isItem : item ∈ items)
    {pkgs before after : List ForeignPkg}
    (attaching : Attaching items pkgs before)
    (ran : attach before item = .ok after) : Attaching items pkgs after := by
  cases item with
  | error message => cases ran
  | ok found =>
      cases found with
      | none =>
          cases ran
          exact attaching
      | some report =>
          obtain ⟨same, found⟩ := setDigest_ok ran
          refine ⟨same.trans attaching.same, fun pkg member => ?_⟩
          rcases found pkg member with old | ⟨isName, isVersion, isDigest⟩
          · exact attaching.attached pkg old
          · exact .inr ⟨report, isItem, isName.symm, isVersion.symm, isDigest⟩

theorem digestsComplete_ok {manager : String} {pkgs after : List ForeignPkg}
    (complete : digestsComplete manager pkgs = .ok after) :
    after = pkgs ∧ ∀ pkg ∈ pkgs, pkg.digest ≠ none := by
  refine ⟨digestsComplete_eq complete, fun pkg member isNone => ?_⟩
  unfold digestsComplete at complete
  split at complete
  · cases complete
  · rename_i noneLeft
    have isSome := List.find?_eq_none.mp noneLeft pkg member
    simp [isNone] at isSome

theorem parseDigests_ok {kind : PkgKind} {text : Bytes}
    {pkgs after : List ForeignPkg}
    (parsed : parseDigests kind text pkgs = .ok after) :
    (reports kind text).foldlM attach pkgs = .ok after ∧
      ∀ pkg ∈ after, pkg.digest ≠ none := by
  obtain ⟨manager, isParse⟩ := parseDigests_eq kind
  rw [isParse] at parsed
  cases loop : (reports kind text).foldlM attach pkgs with
  | error message =>
      rw [loop] at parsed
      cases parsed
  | ok state =>
      rw [loop] at parsed
      obtain ⟨rfl, complete⟩ := digestsComplete_ok parsed
      exact ⟨rfl, complete⟩

theorem parseDigests_attached {kind : PkgKind} {text : Bytes}
    {pkgs after : List ForeignPkg}
    (undigested : ∀ pkg ∈ pkgs, pkg.digest = none)
    (parsed : parseDigests kind text pkgs = .ok after) :
    after.map (fun pkg => (pkg.name, pkg.version)) =
        pkgs.map (fun pkg => (pkg.name, pkg.version)) ∧
      ∀ pkg ∈ after, Attached (reports kind text) pkg := by
  obtain ⟨loop, complete⟩ := parseDigests_ok parsed
  have initial : Attaching (reports kind text) pkgs pkgs :=
    ⟨rfl, fun pkg member => .inl (undigested pkg member)⟩
  have final := foldlM_invariant
    (fun item isItem before after => attach_ok isItem) initial loop
  exact ⟨final.same, fun pkg member =>
    (final.attached pkg member).resolve_left (complete pkg member)⟩

/-- A digest that is attached stands in a piece that an empty line ends, if
the manager is apk. -/
theorem Attached.names {kind : PkgKind} {text : Bytes} {pkg : ForeignPkg}
    (attached : Attached (reports kind text) pkg) :
    ∃ piece ∈ reportedPieces kind text, ∃ value,
      Names kind piece pkg.name pkg.version value ∧
      pkg.digest = some (digestLabel kind ++ value) ∧
      (kind ≠ .apk → IsHex value) := by
  obtain ⟨report, isReport, isName, isVersion, digest, isOk, isDigest⟩ :=
    attached
  obtain ⟨piece, isPiece, value, names, tells⟩ := reports_tell isReport
  obtain ⟨rfl, hex⟩ := tells digest isOk
  exact ⟨piece, isPiece, value, isName ▸ isVersion ▸ names, isDigest, hex⟩

/-- Every package has the digest of a line or stanza of its name and version,
and the list is otherwise as it was. -/
structure Digested (kind : PkgKind) (text : Bytes)
    (pkgs after : List ForeignPkg) : Prop where
  same : after.map (fun pkg => (pkg.name, pkg.version)) =
    pkgs.map (fun pkg => (pkg.name, pkg.version))
  digests : ∀ pkg ∈ after, ∃ value, ∃ piece ∈ pieces kind text,
    Names kind piece pkg.name pkg.version value ∧
    pkg.digest = some (digestLabel kind ++ value) ∧
    (kind ≠ .apk → IsHex value)

theorem digested_of_parse {kind : PkgKind} {text : Bytes}
    {pkgs after : List ForeignPkg}
    (undigested : ∀ pkg ∈ pkgs, pkg.digest = none)
    (parsed : parseDigests kind text pkgs = .ok after) :
    Digested kind text pkgs after := by
  obtain ⟨same, attached⟩ := parseDigests_attached undigested parsed
  refine ⟨same, fun pkg member => ?_⟩
  obtain ⟨piece, isPiece, value, names, rest⟩ := (attached pkg member).names
  exact ⟨value, piece, mem_pieces isPiece names, names, rest⟩

theorem parseDigests_sound {kind : PkgKind} {text : Bytes}
    {pkgs after : List ForeignPkg}
    (undigested : ∀ pkg ∈ pkgs, pkg.digest = none)
    (parsed : parseDigests kind text pkgs = .ok after) :
    Digested kind text pkgs after :=
  digested_of_parse undigested parsed

theorem parseDigests_sound_musl :
    Digested .apk (ascii "C:Q1abc=\nP:musl\nV:1.2.5-r0\nA:x86_64\n\n")
      [⟨ascii "musl", ascii "1.2.5-r0", none⟩]
      [⟨ascii "musl", ascii "1.2.5-r0",
        some (ascii "apk-checksum:Q1abc=")⟩] :=
  parseDigests_sound (by simp) rfl

end SaltOS.Lock
