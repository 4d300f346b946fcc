import SaltOS.Lock.Digests
import SaltOS.Lock.ForeignLists

/-!
# When every package gets its digest

A package is looked up by its name alone, and the last stanza of apk's
database is only taken when an empty line is behind it.  So a text that
describes the packages of a list is parsed exactly when no two of them have
one name and, for apk, their stanzas are all ended.
-/

namespace SaltOS.Lock

open Repo

/-- What a manager prints as a digest. -/
def ValidValue (kind : PkgKind) (value : Bytes) : Prop :=
  if kind = .apk then (digestLabel kind ++ value).length < 2 ^ 31
  else IsHex value

/-- A text of well-formed lines or stanzas, one at least for every package of
a list. -/
structure Describes (kind : PkgKind) (text : Bytes)
    (pkgs : List ForeignPkg) : Prop where
  textual : kind ∈ [PkgKind.apk, .dnf, .zypper, .xbps]
  wellFormed : ∀ piece ∈ pieces kind text,
    ∃ name version value, Names kind piece name version value
  listed : ∀ pkg ∈ pkgs, ∃ value, ∃ piece ∈ pieces kind text,
    Names kind piece pkg.name pkg.version value
  valid : ∀ pkg ∈ pkgs, ∀ piece ∈ pieces kind text, ∀ value,
    Names kind piece pkg.name pkg.version value → ValidValue kind value

/-- Every stanza of a package is followed by an empty line. -/
def Ended (text : Bytes) (pkgs : List ForeignPkg) : Prop :=
  ∀ pkg ∈ pkgs, ∃ value, ∃ stanza ∈ (stanzas text).dropLast,
    Names .apk stanza pkg.name pkg.version value

/-! ## Well-formed pieces -/

theorem reported_valid {label value error : Bytes} (hex : IsHex value) :
    reported label value error = .ok (label ++ value) :=
  if_pos (sha256HexValid_iff.mpr hex)

theorem rpmReport_of_names {line name version value : Bytes}
    (isLine : cstr line = name ++ 9 :: (version ++ 9 :: value))
    (noTab : 9 ∉ name) (noOtherTab : 9 ∉ version) :
    ∃ digest, rpmReport (cstr line) = .ok (some ⟨name, version, digest⟩) ∧
      (IsHex value →
        digest = .ok (ascii "rpm-sha256header:" ++ value)) := by
  rw [rpmReport, isLine, strchr_append noTab]
  simp only [Option.bind_some, strchr_append noOtherTab, Option.map_some]
  exact ⟨_, rfl, reported_valid⟩

theorem xbpsReport_of_names {line name version value : Bytes}
    (isLine : cstr line = name ++ 45 :: (version ++ 9 :: value))
    (nonempty : name ≠ []) (noTab : 9 ∉ name) (noDash : 45 ∉ version)
    (noOtherTab : 9 ∉ version) :
    ∃ digest, xbpsReport (cstr line) = .ok (some ⟨name, version, digest⟩) ∧
      (IsHex value → digest = .ok (ascii "sha256:" ++ value)) := by
  have whole : cstr line = (name ++ 45 :: version) ++ 9 :: value := by
    rw [isLine, List.append_assoc, List.cons_append]
  have tokenTab : 9 ∉ name ++ 45 :: version := by
    simp [noTab, noOtherTab]
  have parts := splitTrailing_joined nonempty version
  rw [List.count_eq_zero.mpr noDash] at parts
  rw [xbpsReport, whole, strchr_append tokenTab]
  simp only [parts]
  exact ⟨_, rfl, reported_valid⟩

theorem stanzaReport_of_names {stanza : List Bytes}
    {name version value : Bytes} (names : Names .apk stanza name version value) :
    stanzaReport stanza = .ok (some ⟨name, version,
      prefixed (ascii "apk-checksum:") value⟩) := by
  obtain ⟨isName, isVersion, isValue⟩ := names
  rw [stanzaReport, foldl_read, isName, isVersion, isValue]
  rfl

theorem pieceReport_of_names {kind : PkgKind} {piece : List Bytes}
    {name version value : Bytes} (names : Names kind piece name version value) :
    ∃ digest, pieceReport kind piece = .ok (some ⟨name, version, digest⟩) ∧
      (ValidValue kind value → digest = .ok (digestLabel kind ++ value)) := by
  cases kind with
  | dnf =>
      obtain ⟨line, rfl, isLine, noTab, noOtherTab⟩ := names
      exact rpmReport_of_names isLine noTab noOtherTab
  | zypper =>
      obtain ⟨line, rfl, isLine, noTab, noOtherTab⟩ := names
      exact rpmReport_of_names isLine noTab noOtherTab
  | xbps =>
      obtain ⟨line, rfl, isLine, nonempty, noTab, noDash, noOtherTab⟩ := names
      exact xbpsReport_of_names isLine nonempty noTab noDash noOtherTab
  | apk =>
      exact ⟨_, stanzaReport_of_names names, fun short => if_pos short⟩
  | pacman => cases names
  | apt => cases names

/-- A piece names one package, and one value of it. -/
theorem Names.unique {kind : PkgKind} {piece : List Bytes}
    {name version value otherName otherVersion otherValue : Bytes}
    (names : Names kind piece name version value)
    (others : Names kind piece otherName otherVersion otherValue) :
    name = otherName ∧ version = otherVersion ∧ value = otherValue := by
  obtain ⟨digest, isReport, -⟩ := pieceReport_of_names names
  obtain ⟨other, isOther, -⟩ := pieceReport_of_names others
  rw [isReport] at isOther
  simp only [Except.ok.injEq, Option.some.injEq, Report.mk.injEq] at isOther
  obtain ⟨rfl, rfl, -⟩ := isOther
  refine ⟨rfl, rfl, ?_⟩
  have lines : ∀ {separator : UInt8} {line other : Bytes},
      [line] = [other] →
      cstr line = name ++ separator :: (version ++ 9 :: value) →
      cstr other = name ++ separator :: (version ++ 9 :: otherValue) →
        value = otherValue := by
    intro separator line other same isLine isOther
    cases same
    rw [isLine] at isOther
    simpa using isOther
  cases kind with
  | dnf =>
      obtain ⟨line, isPiece, isLine, -⟩ := names
      obtain ⟨other, isOther, otherLine, -⟩ := others
      exact lines (isPiece.symm.trans isOther) isLine otherLine
  | zypper =>
      obtain ⟨line, isPiece, isLine, -⟩ := names
      obtain ⟨other, isOther, otherLine, -⟩ := others
      exact lines (isPiece.symm.trans isOther) isLine otherLine
  | xbps =>
      obtain ⟨line, isPiece, isLine, -⟩ := names
      obtain ⟨other, isOther, otherLine, -⟩ := others
      exact lines (isPiece.symm.trans isOther) isLine otherLine
  | apk => exact Option.some.inj (names.2.2.symm.trans others.2.2)
  | pacman => cases names
  | apt => cases names

/-- A digest in a text, and where it stands. -/
structure Printed where
  piece : List Bytes
  name : Bytes
  version : Bytes
  value : Bytes

theorem describes_of_printed {kind : PkgKind} {text : Bytes}
    {pkgs : List ForeignPkg} (printed : List Printed)
    (textual : kind ∈ [PkgKind.apk, .dnf, .zypper, .xbps])
    (arePieces : pieces kind text = printed.map (·.piece))
    (names : ∀ entry ∈ printed,
      Names kind entry.piece entry.name entry.version entry.value ∧
        ValidValue kind entry.value)
    (listed : ∀ pkg ∈ pkgs, ∃ entry ∈ printed,
      entry.name = pkg.name ∧ entry.version = pkg.version) :
    Describes kind text pkgs where
  textual := textual
  wellFormed := by
    rw [arePieces]
    intro piece member
    obtain ⟨entry, isEntry, rfl⟩ := List.mem_map.mp member
    exact ⟨_, _, _, (names entry isEntry).1⟩
  listed := by
    intro pkg member
    obtain ⟨entry, isEntry, isName, isVersion⟩ := listed pkg member
    refine ⟨entry.value, entry.piece, ?_, ?_⟩
    · rw [arePieces]
      exact List.mem_map_of_mem isEntry
    · exact isName ▸ isVersion ▸ (names entry isEntry).1
  valid := by
    rw [arePieces]
    intro pkg _ piece member value isNamed
    obtain ⟨entry, isEntry, rfl⟩ := List.mem_map.mp member
    obtain ⟨-, -, rfl⟩ := isNamed.unique (names entry isEntry).1
    exact (names entry isEntry).2

/-! ## Packages of different names -/

/-- What a report does to a package of a list without a name twice. -/
def Report.mark (report : Report) (pkg : ForeignPkg) : ForeignPkg :=
  match report.digest with
  | .ok digest =>
      if report.name = pkg.name ∧ report.version = pkg.version then
        { pkg with digest := some digest }
      else pkg
  | .error _ => pkg

def markItem (pkg : ForeignPkg) :
    Except Bytes (Option Report) → ForeignPkg
  | .ok (some report) => report.mark pkg
  | _ => pkg

theorem Report.mark_name (report : Report) (pkg : ForeignPkg) :
    (report.mark pkg).name = pkg.name := by
  unfold Report.mark
  split
  · split <;> rfl
  · rfl

theorem Report.mark_version (report : Report) (pkg : ForeignPkg) :
    (report.mark pkg).version = pkg.version := by
  unfold Report.mark
  split
  · split <;> rfl
  · rfl

@[simp] theorem markItem_name (pkg : ForeignPkg)
    (item : Except Bytes (Option Report)) :
    (markItem pkg item).name = pkg.name := by
  unfold markItem
  split
  · exact Report.mark_name _ pkg
  · rfl

@[simp] theorem markItem_version (pkg : ForeignPkg)
    (item : Except Bytes (Option Report)) :
    (markItem pkg item).version = pkg.version := by
  unfold markItem
  split
  · exact Report.mark_version _ pkg
  · rfl

theorem Report.mark_other {report : Report} {pkg : ForeignPkg}
    (other : report.name = pkg.name → report.version ≠ pkg.version) :
    report.mark pkg = pkg := by
  unfold Report.mark
  split
  · exact if_neg fun both => other both.1 both.2
  · rfl

/-- A report that is about a package of the list has a digest. -/
def Taken (pkgs : List ForeignPkg) (report : Report) : Prop :=
  ∀ pkg ∈ pkgs, report.name = pkg.name → report.version = pkg.version →
    ∃ text, report.digest = .ok text

/-- Only the package of the name is touched, and there is one at most. -/
theorem setDigest_distinct {report : Report} {pkgs : List ForeignPkg}
    (distinct : (pkgs.map (·.name)).Nodup) (taken : Taken pkgs report) :
    setDigest report.name report.version report.digest pkgs =
      .ok (pkgs.map report.mark) := by
  induction pkgs with
  | nil => rfl
  | cons pkg pkgs induction =>
      rw [List.map_cons, List.nodup_cons] at distinct
      obtain ⟨notLater, distinct⟩ := distinct
      rw [setDigest, List.map_cons]
      by_cases isName : pkg.name = report.name
      · have others : pkgs.map report.mark = pkgs := by
          rw [List.map_congr_left fun other member =>
            Report.mark_other fun same => absurd
              (List.mem_map_of_mem (f := (·.name)) member)
              (same ▸ isName ▸ notLater)]
          exact List.map_id' pkgs
        rw [if_pos isName, others]
        by_cases isVersion : pkg.version = report.version
        · obtain ⟨text, isText⟩ := taken pkg List.mem_cons_self
            isName.symm isVersion.symm
          have marked : report.mark pkg = { pkg with digest := some text } := by
            rw [Report.mark, isText]
            exact if_pos ⟨isName.symm, isVersion.symm⟩
          rw [if_pos isVersion, isText, marked]
          rfl
        · rw [if_neg isVersion,
            Report.mark_other fun _ same => isVersion same.symm]
      · rw [if_neg isName, induction distinct fun other member =>
            taken other (List.mem_cons_of_mem pkg member),
          Report.mark_other fun same => absurd same.symm isName]
        rfl

/-- An item that can be taken: nothing, or a report. -/
def Fits (pkgs : List ForeignPkg)
    (item : Except Bytes (Option Report)) : Prop :=
  item = .ok none ∨ ∃ report, item = .ok (some report) ∧ Taken pkgs report

theorem Fits.marked {pkgs : List ForeignPkg}
    {item : Except Bytes (Option Report)} (fits : Fits pkgs item)
    (other : Except Bytes (Option Report)) :
    Fits (pkgs.map fun pkg => markItem pkg other) item := by
  rcases fits with isNone | ⟨report, isReport, taken⟩
  · exact .inl isNone
  · refine .inr ⟨report, isReport, fun pkg inMarked => ?_⟩
    obtain ⟨origin, isOrigin, rfl⟩ := List.mem_map.mp inMarked
    rw [markItem_name, markItem_version]
    exact taken origin isOrigin

theorem attach_distinct {pkgs : List ForeignPkg}
    (distinct : (pkgs.map (·.name)).Nodup)
    {item : Except Bytes (Option Report)} (fits : Fits pkgs item) :
    attach pkgs item = .ok (pkgs.map fun pkg => markItem pkg item) := by
  rcases fits with rfl | ⟨report, rfl, taken⟩
  · change Except.ok pkgs = .ok (pkgs.map fun pkg => pkg)
    rw [List.map_id']
  · exact setDigest_distinct distinct taken

theorem foldlM_attach {items : List (Except Bytes (Option Report))}
    {pkgs : List ForeignPkg} (distinct : (pkgs.map (·.name)).Nodup)
    (fits : ∀ item ∈ items, Fits pkgs item) :
    items.foldlM attach pkgs =
      .ok (pkgs.map fun pkg => items.foldl markItem pkg) := by
  induction items generalizing pkgs with
  | nil =>
      change Except.ok pkgs = .ok (pkgs.map fun pkg => pkg)
      rw [List.map_id']
  | cons item items induction =>
      obtain ⟨first, others⟩ := List.forall_mem_cons.mp fits
      rw [List.foldlM_cons, attach_distinct distinct first]
      have stillDistinct : ((pkgs.map fun pkg =>
          markItem pkg item).map (·.name)).Nodup := by
        simpa [Function.comp_def] using distinct
      have later := induction stillDistinct fun other member =>
        (others other member).marked item
      exact later.trans (by simp [Function.comp_def])

/-- A package keeps that it has a digest. -/
theorem markItem_digest {pkg : ForeignPkg} (digested : pkg.digest ≠ none)
    (item : Except Bytes (Option Report)) :
    (markItem pkg item).digest ≠ none := by
  unfold markItem Report.mark
  split
  · split
    · split
      · simp
      · exact digested
    · exact digested
  · exact digested

theorem foldl_markItem_digest {items : List (Except Bytes (Option Report))}
    {pkg : ForeignPkg} (report : Report) {text : Bytes}
    (isDigest : report.digest = .ok text) (isName : report.name = pkg.name)
    (isVersion : report.version = pkg.version)
    (found : pkg.digest ≠ none ∨ .ok (some report) ∈ items) :
    (items.foldl markItem pkg).digest ≠ none := by
  induction items generalizing pkg with
  | nil => exact found.resolve_right (by simp)
  | cons item items induction =>
      apply induction
      · rw [isName, markItem_name]
      · rw [isVersion, markItem_version]
      · rcases found with digested | member
        · exact .inl (markItem_digest digested item)
        · rcases List.mem_cons.mp member with rfl | later
          · apply Or.inl
            change (report.mark pkg).digest ≠ none
            rw [Report.mark, isDigest]
            simp [isName, isVersion]
          · exact .inr later

/-! ## Parsing -/

theorem fits_of_describes {kind : PkgKind} {text : Bytes}
    {pkgs : List ForeignPkg} (describes : Describes kind text pkgs) :
    ∀ item ∈ (reportedPieces kind text).map (pieceReport kind),
      Fits pkgs item := by
  intro item member
  obtain ⟨piece, isReported, rfl⟩ := List.mem_map.mp member
  by_cases isPiece : piece ∈ pieces kind text
  · obtain ⟨name, version, value, names⟩ := describes.wellFormed piece isPiece
    obtain ⟨digest, isReport, isDigest⟩ := pieceReport_of_names names
    refine .inr ⟨_, isReport, fun pkg inList isName isVersion => ?_⟩
    cases isName
    cases isVersion
    exact ⟨_, isDigest (describes.valid pkg inList piece isPiece value names)⟩
  · -- Two empty lines of apk's database have no stanza between them.
    unfold reportedPieces at isReported
    unfold pieces at isPiece
    split at isReported
    · rename_i isApk
      subst kind
      have empty : piece = [] := by
        by_contra nonempty
        rw [if_pos rfl] at isPiece
        exact isPiece (by simp [List.mem_of_mem_dropLast isReported, nonempty])
      rw [empty]
      exact .inl rfl
    · rename_i notApk
      rw [if_neg notApk] at isPiece
      exact absurd isReported isPiece

theorem digestsComplete_of_ne {manager : String} {pkgs : List ForeignPkg}
    (complete : ∀ pkg ∈ pkgs, pkg.digest ≠ none) :
    digestsComplete manager pkgs = .ok pkgs := by
  have noneLeft : pkgs.find? (·.digest.isNone) = none := by
    rw [List.find?_eq_none]
    intro pkg member
    simpa using complete pkg member
  rw [digestsComplete, noneLeft]

theorem parseDigests_of_distinct {kind : PkgKind} {text : Bytes}
    {pkgs : List ForeignPkg} (describes : Describes kind text pkgs)
    (distinct : (pkgs.map (·.name)).Nodup)
    (ended : ∀ pkg ∈ pkgs, ∃ value, ∃ piece ∈ reportedPieces kind text,
      Names kind piece pkg.name pkg.version value) :
    ∃ after, parseDigests kind text pkgs = .ok after := by
  have isReports : reports kind text =
      (reportedPieces kind text).map (pieceReport kind) := by
    have textual := describes.textual
    cases kind with
    | pacman => simp at textual
    | apt => simp at textual
    | _ => rfl
  have loop := foldlM_attach distinct (fits_of_describes describes)
  obtain ⟨manager, isParse⟩ := parseDigests_eq kind
  rw [isParse, isReports, loop]
  refine ⟨_, digestsComplete_of_ne fun digested member => ?_⟩
  obtain ⟨pkg, inList, rfl⟩ := List.mem_map.mp member
  obtain ⟨value, piece, isReported, names⟩ := ended pkg inList
  obtain ⟨digest, isReport, isDigest⟩ := pieceReport_of_names names
  have valid := describes.valid pkg inList piece
    (mem_pieces isReported names) value names
  have isItem : .ok (some ⟨pkg.name, pkg.version, digest⟩) ∈
      (reportedPieces kind text).map (pieceReport kind) :=
    List.mem_map.mpr ⟨piece, isReported, isReport⟩
  exact foldl_markItem_digest ⟨pkg.name, pkg.version, digest⟩
    (isDigest valid) rfl rfl (.inr isItem)

/-! ## Packages of one name -/

/-- A package behind one of its name has no digest. -/
def LaterBare (pkgs : List ForeignPkg) : Prop :=
  pkgs.Pairwise fun first second =>
    first.name = second.name → second.digest = none

theorem setDigest_laterBare {name version : Bytes}
    {digest : Except Bytes Bytes} {pkgs after : List ForeignPkg}
    (laterBare : LaterBare pkgs)
    (set : setDigest name version digest pkgs = .ok after) :
    LaterBare after := by
  induction pkgs generalizing after with
  | nil =>
      cases set
      exact laterBare
  | cons first pkgs induction =>
      obtain ⟨bare, others⟩ := List.pairwise_cons.mp laterBare
      unfold setDigest at set
      split at set
      · split at set
        · cases digest with
          | error message => cases set
          | ok text =>
              cases set
              exact List.pairwise_cons.mpr ⟨bare, others⟩
        · cases set
          exact laterBare
      · rename_i notName
        cases rest : setDigest name version digest pkgs with
        | error message =>
            rw [rest] at set
            cases set
        | ok changed =>
            rw [rest] at set
            cases set
            refine List.pairwise_cons.mpr ⟨fun pkg member same => ?_,
              induction others rest⟩
            rcases (setDigest_ok rest).2 pkg member with old | ⟨isName, -⟩
            · exact bare pkg old same
            · exact absurd (same.trans isName) notName

theorem attach_laterBare {item : Except Bytes (Option Report)}
    {before after : List ForeignPkg} (laterBare : LaterBare before)
    (ran : attach before item = .ok after) : LaterBare after := by
  cases item with
  | error message => cases ran
  | ok found =>
      cases found with
      | none =>
          cases ran
          exact laterBare
      | some report => exact setDigest_laterBare laterBare ran

theorem distinct_of_parse {kind : PkgKind} {text : Bytes}
    {pkgs after : List ForeignPkg}
    (undigested : ∀ pkg ∈ pkgs, pkg.digest = none)
    (parsed : parseDigests kind text pkgs = .ok after) :
    (pkgs.map (·.name)).Nodup := by
  obtain ⟨loop, complete⟩ := parseDigests_ok parsed
  have initial : LaterBare pkgs :=
    List.pairwise_of_forall_mem_list fun first _ second member _ =>
      undigested second member
  have laterBare := foldlM_invariant
    (fun item _ before after => attach_laterBare) initial loop
  have names : pkgs.map (·.name) = after.map (·.name) := by
    have same := congrArg (List.map Prod.fst)
      (parseDigests_attached undigested parsed).1
    simpa [Function.comp_def] using same.symm
  rw [names, List.Nodup, List.pairwise_map]
  exact laterBare.imp_of_mem fun _ member bare same =>
    complete _ member (bare same)

/-! ## Exactly then -/

theorem foreignPkgParse_undigested {kind : PkgKind} {text : Bytes}
    {pkgs : List ForeignPkg} (parsed : foreignPkgParse kind text = .ok pkgs) :
    ∀ pkg ∈ pkgs, pkg.digest = none := by
  unfold foreignPkgParse at parsed
  cases read : ((toolLines text).filter (· ≠ [])).mapM fun line =>
      parsePkgLine kind (cstr line) with
  | error message =>
      rw [read] at parsed
      cases parsed
  | ok found =>
      rw [read] at parsed
      cases parsed
      intro pkg member
      rw [List.mem_insertionSort] at member
      obtain ⟨parts, -, rfl⟩ := List.mem_map.mp member
      rfl

theorem parseDigests_complete_iff {kind : PkgKind} {listing text : Bytes}
    {pkgs : List ForeignPkg}
    (listed : foreignPkgParse kind listing = .ok pkgs)
    (describes : Describes kind text pkgs) :
    (∃ after, parseDigests kind text pkgs = .ok after ∧
        Digested kind text pkgs after) ↔
      (pkgs.map (·.name)).Nodup ∧ (kind = .apk → Ended text pkgs) := by
  have undigested := foreignPkgParse_undigested listed
  constructor
  · rintro ⟨after, parsed, -⟩
    refine ⟨distinct_of_parse undigested parsed, ?_⟩
    rintro rfl pkg member
    obtain ⟨same, attached⟩ := parseDigests_attached undigested parsed
    have inAfter : (pkg.name, pkg.version) ∈
        after.map fun pkg => (pkg.name, pkg.version) :=
      same ▸ List.mem_map_of_mem member
    obtain ⟨digested, isDigested, isPkg⟩ := List.mem_map.mp inAfter
    obtain ⟨piece, isPiece, value, names, -⟩ :=
      (attached digested isDigested).names
    injection isPkg with isName isVersion
    exact ⟨value, piece, isPiece, isName ▸ isVersion ▸ names⟩
  · rintro ⟨distinct, ended⟩
    have reported : ∀ pkg ∈ pkgs, ∃ value,
        ∃ piece ∈ reportedPieces kind text,
          Names kind piece pkg.name pkg.version value := by
      intro pkg member
      by_cases isApk : kind = .apk
      · subst kind
        exact ended rfl pkg member
      · obtain ⟨value, piece, isPiece, names⟩ := describes.listed pkg member
        unfold pieces at isPiece
        rw [if_neg isApk] at isPiece
        refine ⟨value, piece, ?_, names⟩
        rwa [reportedPieces, if_neg isApk]
    obtain ⟨after, parsed⟩ :=
      parseDigests_of_distinct describes distinct reported
    exact ⟨after, parsed, digested_of_parse undigested parsed⟩

/-- A line of rpm for a version of a package. -/
def rpmPrinted (name version : String) : Printed where
  piece := [ascii name ++ 9 :: (ascii version ++ 9 :: List.replicate 64 97)]
  name := ascii name
  version := ascii version
  value := List.replicate 64 97

def rpmText (printed : List Printed) : Bytes :=
  printed.flatMap fun entry => entry.piece.flatten ++ [10]

theorem isHex_replicate : IsHex (List.replicate 64 97) where
  length := List.length_replicate
  digits := fun byte member => .inr (by
    rw [List.eq_of_mem_replicate member]
    decide)

theorem describes_kernels (pkgs : List ForeignPkg)
    (listed : ∀ pkg ∈ pkgs, pkg.name = ascii "kernel" ∧
      (pkg.version = ascii "6.8" ∨ pkg.version = ascii "6.9")) :
    Describes .dnf
      (rpmText [rpmPrinted "kernel" "6.8", rpmPrinted "kernel" "6.9"])
      pkgs := by
  apply describes_of_printed
    [rpmPrinted "kernel" "6.8", rpmPrinted "kernel" "6.9"] (by decide)
    (by decide +kernel)
  · intro entry member
    simp only [List.mem_cons, List.not_mem_nil, or_false] at member
    rcases member with rfl | rfl
    · exact ⟨⟨_, rfl, by decide +kernel, by decide, by decide⟩,
        isHex_replicate⟩
    · exact ⟨⟨_, rfl, by decide +kernel, by decide, by decide⟩,
        isHex_replicate⟩
  · intro pkg member
    obtain ⟨isName, old | new⟩ := listed pkg member
    · exact ⟨_, List.mem_cons_self, isName.symm, old.symm⟩
    · exact ⟨_, List.mem_cons_of_mem _ List.mem_cons_self, isName.symm,
        new.symm⟩

theorem parseDigests_complete_kernel :
    ∃ after, parseDigests .dnf
        (rpmText [rpmPrinted "kernel" "6.8", rpmPrinted "kernel" "6.9"])
        [⟨ascii "kernel", ascii "6.9", none⟩] = .ok after ∧
      Digested .dnf
        (rpmText [rpmPrinted "kernel" "6.8", rpmPrinted "kernel" "6.9"])
        [⟨ascii "kernel", ascii "6.9", none⟩] after := by
  have listed : foreignPkgParse .dnf (ascii "kernel\t6.9\n") =
      .ok [⟨ascii "kernel", ascii "6.9", none⟩] := rfl
  exact (parseDigests_complete_iff listed
    (describes_kernels _ (by simp))).mpr ⟨by simp, by simp⟩

/-- The digest of a second kernel is lost, and so is that of a last stanza. -/
theorem parseDigests_misses :
    (∃ pkgs, foreignPkgParse .dnf (ascii "kernel\t6.8\nkernel\t6.9\n") =
        .ok pkgs ∧
      Describes .dnf
        (rpmText [rpmPrinted "kernel" "6.8", rpmPrinted "kernel" "6.9"])
        pkgs ∧
      ∀ after, parseDigests .dnf
        (rpmText [rpmPrinted "kernel" "6.8", rpmPrinted "kernel" "6.9"])
        pkgs ≠ .ok after) ∧
    (∃ pkgs, foreignPkgParse .apk (ascii "musl-1.2.5-r0\n") = .ok pkgs ∧
      Describes .apk (ascii "C:Q1abc=\nP:musl\nV:1.2.5-r0") pkgs ∧
      ∀ after, parseDigests .apk (ascii "C:Q1abc=\nP:musl\nV:1.2.5-r0")
        pkgs ≠ .ok after) := by
  constructor
  · refine ⟨[⟨ascii "kernel", ascii "6.8", none⟩,
      ⟨ascii "kernel", ascii "6.9", none⟩], rfl,
      describes_kernels _ (by simp), ?_⟩
    intro after parsed
    have distinct := distinct_of_parse (by simp) parsed
    simp at distinct
  · refine ⟨[⟨ascii "musl", ascii "1.2.5-r0", none⟩], rfl, ?_, ?_⟩
    · apply describes_of_printed [⟨[ascii "C:Q1abc=", ascii "P:musl",
        ascii "V:1.2.5-r0"], ascii "musl", ascii "1.2.5-r0",
        ascii "Q1abc="⟩] (by decide) (by decide)
      · intro entry member
        rw [List.mem_singleton] at member
        subst entry
        refine ⟨⟨by decide, by decide, by decide⟩, ?_⟩
        rw [ValidValue, if_pos rfl]
        decide
      · simp
    · intro after parsed
      have missing : parseDigests .apk
          (ascii "C:Q1abc=\nP:musl\nV:1.2.5-r0")
          [⟨ascii "musl", ascii "1.2.5-r0", none⟩] =
          .error (ascii
            "apk reports no content digest for musl 1.2.5-r0") := rfl
      rw [missing] at parsed
      cases parsed

end SaltOS.Lock
