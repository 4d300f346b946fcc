import Mathlib.Data.List.DropRight
import SaltOS.Lib.Pieces
import SaltOS.Lock.ForeignTexts

/-!
# Lists of packages are read back

What a package manager lists, `salt_foreign_pkg_parse` reads again: one line a
package, the name and the version in the way of the manager.  Versions and
names are told apart by counting dashes from the end.
-/

namespace SaltOS.Lock

/-! ## What the managers print -/

/-- A package in a listing; xbps pads its column and adds a summary. -/
structure Listed where
  name : Bytes
  version : Bytes
  padding : Nat
  summary : Bytes
  deriving DecidableEq, Repr

/-- The line that the query of a manager prints for a package. -/
def listLine (kind : PkgKind) (pkg : Listed) : Bytes :=
  match kind with
  | .pacman => pkg.name ++ 32 :: pkg.version
  | .apt => ascii "installed" ++ 9 :: (pkg.name ++ 9 :: pkg.version)
  | .apk => pkg.name ++ 45 :: pkg.version
  | .dnf | .zypper => pkg.name ++ 9 :: pkg.version
  | .xbps => ascii "ii " ++ (pkg.name ++ 45 :: pkg.version) ++
      32 :: (List.replicate pkg.padding 32 ++ pkg.summary)

def listText (kind : PkgKind) (pkgs : List Listed) : Bytes :=
  pkgs.flatMap fun pkg => listLine kind pkg ++ [10]

/-- Names and versions as the manager has them. -/
structure Listed.InSyntax (kind : PkgKind) (pkg : Listed) : Prop where
  nameNonempty : pkg.name ≠ []
  versionNonempty : pkg.version ≠ []
  nameSolid : ∀ byte ∈ pkg.name, 32 < byte
  versionSolid : ∀ byte ∈ pkg.version, 32 < byte
  apkVersion : kind = .apk → pkg.version.count 45 = 1
  xbpsVersion : kind = .xbps → 45 ∉ pkg.version
  notWarning : kind = .apk → ¬ascii "WARNING" <+: pkg.name
  notPubkey : kind = .dnf ∨ kind = .zypper → pkg.name ≠ ascii "gpg-pubkey"
  summaryLine : 10 ∉ pkg.summary

/-- `salt_foreign_pkg_spec`, of an empty buffer. -/
def foreignPkgSpec (kind : PkgKind) (name version : Bytes) :
    Except Bytes Bytes :=
  if name = [] ∨ version = [] then
    .error (ascii "package spec needs a manager, name and version")
  else
    let joined := fun separator : UInt8 =>
      if (name ++ separator :: version).length < 2 ^ 31 then
        .ok (name ++ separator :: version)
      else .error []
    match kind with
    | .apt | .apk | .zypper => joined 61
    | .dnf | .xbps => joined 45
    | .pacman => .error (ascii
        "pacman repositories serve only the current version of " ++ name)

/-! ## Dashes from the end -/

theorem trailingCut_succ (token : Bytes) (dashes cut : Nat) :
    trailingCut token (dashes + 1) (cut + 1) =
      if token[cut + 1]? = some 45 then
        if dashes = 0 then some (cut + 1) else trailingCut token dashes cut
      else trailingCut token (dashes + 1) cut := by
  rw [trailingCut, lastDash]
  split
  · simp
  · rw [trailingCut]

/-- From the end of a version, the dash in front of it is found. -/
theorem trailingCut_version {name : Bytes} (nonempty : name ≠ [])
    (version rest : Bytes) :
    trailingCut (name ++ 45 :: (version ++ rest)) (version.count 45 + 1)
      (name.length + version.length) = some name.length := by
  induction version using List.reverseRecOn generalizing rest with
  | nil =>
      obtain ⟨cut, isCut⟩ := Nat.exists_eq_succ_of_ne_zero
        (mt List.length_eq_zero_iff.mp nonempty)
      have isDash : (name ++ 45 :: ([] ++ rest))[cut + 1]? = some 45 := by
        rw [← Nat.succ_eq_add_one, ← isCut]
        simp
      rw [List.length_nil, Nat.add_zero, isCut, List.count_nil,
        Nat.succ_eq_add_one, trailingCut_succ, if_pos isDash, if_pos rfl]
  | append_singleton version byte induction =>
      rw [List.append_assoc, List.singleton_append]
      have isByte : (name ++ 45 :: (version ++ byte :: rest))[name.length +
          version.length + 1]? = some byte := by
        rw [List.getElem?_append_right (by omega)]
        have index : name.length + version.length + 1 - name.length =
            version.length + 1 := by omega
        rw [index]
        simp
      have later := induction (byte :: rest)
      rw [List.length_append, List.length_singleton, ← Nat.add_assoc,
        trailingCut_succ, isByte, List.count_append]
      by_cases isDash : byte = 45
      · subst byte
        rw [if_pos rfl, if_neg (by simp)]
        exact later
      · have single : [byte].count 45 = 0 :=
          List.count_eq_zero.mpr (by simpa using Ne.symm isDash)
        rw [if_neg (by simpa using isDash), single, Nat.add_zero]
        exact later

/-- A name and a version with so many dashes come apart. -/
theorem splitTrailing_joined {name : Bytes} (nonempty : name ≠ [])
    (version : Bytes) :
    splitTrailing (name ++ 45 :: version) (version.count 45 + 1) =
      some (name, version) := by
  have cut := trailingCut_version nonempty version []
  rw [List.append_nil] at cut
  have noByte : (name ++ 45 :: version)[name.length + version.length + 1]? =
      none := by
    rw [List.getElem?_eq_none_iff, List.length_append, List.length_cons]
    omega
  have start : trailingCut (name ++ 45 :: version) (version.count 45 + 1)
      (name ++ 45 :: version).length = some name.length := by
    rw [List.length_append, List.length_cons, ← Nat.add_assoc,
      trailingCut_succ, noByte, if_neg (by simp), cut]
  rw [splitTrailing, start]
  simp

/-! ## Lines -/

/-- What is cut off a line at its end. -/
def blankEnd (byte : UInt8) : Bool :=
  byte == 13 || byte == 32

/-- A line as it is looked at. -/
def trimLine (line : Bytes) : Bytes :=
  line.rdropWhile blankEnd

theorem toolLines_eq (text : Bytes) :
    toolLines text = (text.splitOn 10).map trimLine := rfl

/-- Trimming a line whose beginning ends in no blank shortens the rest. -/
theorem trimLine_append {front : Bytes} {last : UInt8}
    (isLast : front.getLast? = some last) (solid : blankEnd last = false)
    (rest : Bytes) : ∃ kept, kept <+: rest ∧
      trimLine (front ++ rest) = front ++ kept :=
  Lib.rdropWhile_append isLast solid rest

/-- A line of a tool as it is looked at, when its beginning has neither blanks
nor zeros at the end. -/
theorem cstr_trimLine {front : Bytes} {last : UInt8}
    (isLast : front.getLast? = some last) (solid : blankEnd last = false)
    (noNul : 0 ∉ front) (rest : Bytes) :
    ∃ kept, kept <+: rest ∧ cstr (trimLine (front ++ rest)) = front ++ kept ∧
      trimLine (front ++ rest) ≠ [] := by
  obtain ⟨kept, isPrefix, isTrimmed⟩ := trimLine_append isLast solid rest
  refine ⟨cstr kept, (List.takeWhile_prefix _).trans isPrefix, ?_, ?_⟩
  · have nonzero : ∀ byte ∈ front, (byte != 0) = true := by
      intro byte member
      simpa using fun isZero : byte = 0 => noNul (isZero ▸ member)
    rw [isTrimmed, cstr, List.takeWhile_append_of_pos nonzero]
    rfl
  · rw [isTrimmed]
    intro empty
    rw [(List.append_eq_nil_iff.mp empty).1] at isLast
    cases isLast

theorem strchr_append {byte : UInt8} {front : Bytes} (absent : byte ∉ front)
    (rest : Bytes) :
    strchr byte (front ++ byte :: rest) = some (front, rest) := by
  have differ : ∀ other ∈ front, (other != byte) = true := by
    intro other member
    simpa using fun same : other = byte => absent (same ▸ member)
  rw [strchr, if_pos (by simp), List.takeWhile_append_of_pos differ,
    List.dropWhile_append_of_pos differ]
  simp

/-! ## Lines of a listing -/

theorem solid_not_mem {text : Bytes} (solid : ∀ byte ∈ text, 32 < byte)
    {byte : UInt8} (low : byte ≤ 32) : byte ∉ text :=
  fun member => absurd (solid byte member) (UInt8.not_lt.mpr low)

theorem solid_last {text : Bytes} (solid : ∀ byte ∈ text, 32 < byte)
    (nonempty : text ≠ []) :
    ∃ last, text.getLast? = some last ∧ blankEnd last = false := by
  refine ⟨_, List.getLast?_eq_some_getLast nonempty, ?_⟩
  have high := solid _ (List.getLast_mem nonempty)
  exact forall_byte (fun last => 32 < last → blankEnd last = false)
    (by decide +kernel) _ high

/-- A line as the parser looks at it. -/
def Reads (kind : PkgKind) (line : Bytes) (found : Bytes × Bytes) : Prop :=
  10 ∉ line ∧ trimLine line ≠ [] ∧
    parsePkgLine kind (cstr (trimLine line)) = .ok (some found)

section

variable {kind : PkgKind} {pkg : Listed}

/-- A line that ends in the version is looked at as it is. -/
theorem reads_of_parse (inSyntax : pkg.InSyntax kind) {front : Bytes}
    (noNul : 0 ∉ front) (noNewline : 10 ∉ front)
    (parsed : parsePkgLine kind (front ++ pkg.version) =
      .ok (some (pkg.name, pkg.version))) :
    Reads kind (front ++ pkg.version) (pkg.name, pkg.version) := by
  obtain ⟨last, isLast, solid⟩ :=
    solid_last inSyntax.versionSolid inSyntax.versionNonempty
  have isLineLast : (front ++ pkg.version).getLast? = some last := by
    rw [List.getLast?_append, isLast]
    rfl
  have versionNul := solid_not_mem inSyntax.versionSolid
    (by decide : (0 : UInt8) ≤ 32)
  have versionNewline := solid_not_mem inSyntax.versionSolid
    (by decide : (10 : UInt8) ≤ 32)
  obtain ⟨kept, isPrefix, isLine, nonempty⟩ := cstr_trimLine isLineLast solid
    (by simp [noNul, versionNul]) []
  rw [List.prefix_nil.mp isPrefix] at isLine
  simp only [List.append_nil] at isLine nonempty
  refine ⟨by simp [noNewline, versionNewline], nonempty, ?_⟩
  rw [isLine]
  exact parsed

/-- A line of apk is a warning only if the name begins like one. -/
theorem no_warning {name version : Bytes}
    (noWarning : ¬ascii "WARNING" <+: name) :
    ¬ascii "WARNING" <+: name ++ 45 :: version := by
  intro warning
  have noDash : 45 ∉ ascii "WARNING" := by decide
  have front : name ++ [45] <+: name ++ 45 :: version :=
    ⟨version, by simp⟩
  rcases List.prefix_or_prefix_of_prefix warning front with inside | longer
  · rcases List.prefix_concat_iff.mp inside with whole | inName
    · exact noDash (whole ▸ by simp)
    · exact noWarning inName
  · exact noDash (longer.subset (by simp))

/-- The first word behind the state of a line of xbps is taken apart. -/
theorem parse_xbps {name version kept rest : Bytes} (nonempty : name ≠ [])
    (noDash : 45 ∉ version) (solid : ∀ byte ∈ name ++ 45 :: version, 32 < byte)
    (isPrefix : kept <+: 32 :: rest) :
    parsePkgLine .xbps (ascii "ii " ++ (name ++ 45 :: version) ++ kept) =
      .ok (some (name, version)) := by
  have notBlank : ∀ byte ∈ name ++ 45 :: version, (byte != 32) = true := by
    intro byte member
    have high := solid byte member
    simpa using fun isBlank : byte = 32 => absurd (isBlank ▸ high) (by decide)
  have noBlanks : (name ++ 45 :: version ++ kept).dropWhile (· == 32) =
      name ++ 45 :: version ++ kept := by
    obtain ⟨first, others, rfl⟩ := List.exists_cons_of_ne_nil nonempty
    have notFirst := notBlank first (by simp)
    simp only [List.cons_append]
    rw [List.dropWhile_cons_of_neg (by simpa using notFirst)]
  have word : (name ++ 45 :: version ++ kept).takeWhile (· != 32) =
      name ++ 45 :: version := by
    rw [List.takeWhile_append_of_pos notBlank]
    cases kept with
    | nil => simp
    | cons byte kept =>
        obtain ⟨rfl, -⟩ := List.cons_prefix_cons.mp isPrefix
        simp
  have parts := splitTrailing_joined nonempty version
  rw [List.count_eq_zero.mpr noDash] at parts
  have state : ascii "ii " ++ (name ++ 45 :: version) ++ kept =
      105 :: 105 :: 32 :: (name ++ 45 :: version ++ kept) := by
    simp [ascii]
  rw [state, parsePkgLine]
  simp only [noBlanks, word, parts]

theorem reads_listLine (inSyntax : pkg.InSyntax kind) :
    Reads kind (listLine kind pkg) (pkg.name, pkg.version) := by
  have absent : ∀ byte : UInt8, byte ≤ 32 → byte ∉ pkg.name :=
    fun byte low => solid_not_mem inSyntax.nameSolid low
  have noNul := absent 0 (by decide)
  have noTab := absent 9 (by decide)
  have noNewline := absent 10 (by decide)
  have noBlank := absent 32 (by decide)
  cases kind with
  | pacman =>
      have line : listLine .pacman pkg =
          (pkg.name ++ [32]) ++ pkg.version := by simp [listLine]
      rw [line]
      apply reads_of_parse inSyntax (by simp [noNul]) (by simp [noNewline])
      rw [List.append_assoc, List.singleton_append, parsePkgLine,
        strchr_append noBlank]
  | apt =>
      have line : listLine .apt pkg =
          (ascii "installed" ++ 9 :: (pkg.name ++ [9])) ++ pkg.version := by
        simp [listLine]
      have word : ∀ byte ∈ ascii "installed", 32 < byte := by
        decide +kernel
      have wordNul := solid_not_mem word (by decide : (0 : UInt8) ≤ 32)
      have wordTab := solid_not_mem word (by decide : (9 : UInt8) ≤ 32)
      have wordNewline := solid_not_mem word (by decide : (10 : UInt8) ≤ 32)
      rw [line]
      apply reads_of_parse inSyntax (by simp [noNul, wordNul])
        (by simp [noNewline, wordNewline])
      rw [List.append_assoc, List.cons_append, List.append_assoc,
        List.singleton_append, parsePkgLine, strchr_append wordTab]
      simp only [Option.bind_some, strchr_append noTab, Option.map_some,
        if_true]
  | apk =>
      have line : listLine .apk pkg =
          (pkg.name ++ [45]) ++ pkg.version := by simp [listLine]
      rw [line]
      apply reads_of_parse inSyntax (by simp [noNul]) (by simp [noNewline])
      rw [List.append_assoc, List.singleton_append]
      have parts := splitTrailing_joined inSyntax.nameNonempty pkg.version
      rw [inSyntax.apkVersion rfl] at parts
      rw [parsePkgLine, if_neg (by
        rw [List.isPrefixOf_iff_prefix]
        exact no_warning (inSyntax.notWarning rfl)), parts]
  | dnf =>
      have line : listLine .dnf pkg =
          (pkg.name ++ [9]) ++ pkg.version := by simp [listLine]
      rw [line]
      apply reads_of_parse inSyntax (by simp [noNul]) (by simp [noNewline])
      rw [List.append_assoc, List.singleton_append, parsePkgLine,
        strchr_append noTab]
      simp only [if_neg (inSyntax.notPubkey (.inl rfl))]
  | zypper =>
      have line : listLine .zypper pkg =
          (pkg.name ++ [9]) ++ pkg.version := by simp [listLine]
      rw [line]
      apply reads_of_parse inSyntax (by simp [noNul]) (by simp [noNewline])
      rw [List.append_assoc, List.singleton_append, parsePkgLine,
        strchr_append noTab]
      simp only [if_neg (inSyntax.notPubkey (.inr rfl))]
  | xbps =>
      have tokenSolid : ∀ byte ∈ pkg.name ++ 45 :: pkg.version,
          32 < byte := by
        intro byte member
        rcases List.mem_append.mp member with inName | inVersion
        · exact inSyntax.nameSolid byte inName
        · rcases List.mem_cons.mp inVersion with rfl | inVersion
          · decide
          · exact inSyntax.versionSolid byte inVersion
      obtain ⟨last, isLast, solid⟩ := solid_last tokenSolid (by simp)
      have frontLast : (ascii "ii " ++ (pkg.name ++ 45 ::
          pkg.version)).getLast? = some last := by
        rw [List.getLast?_append, isLast]
        rfl
      have tokenNul := solid_not_mem tokenSolid (by decide : (0 : UInt8) ≤ 32)
      have stateNul : 0 ∉ ascii "ii " := by decide
      obtain ⟨kept, isPrefix, isLine, nonempty⟩ := cstr_trimLine frontLast
        solid (fun isNul => (List.mem_append.mp isNul).elim stateNul tokenNul)
        (32 :: (List.replicate pkg.padding 32 ++ pkg.summary))
      have tokenNewline :=
        solid_not_mem tokenSolid (by decide : (10 : UInt8) ≤ 32)
      refine ⟨?_, nonempty, ?_⟩
      · have stateNewline : 10 ∉ ascii "ii " := by decide
        intro newline
        rcases List.mem_append.mp newline with inFront | inRest
        · exact (List.mem_append.mp inFront).elim stateNewline tokenNewline
        · simp [inSyntax.summaryLine] at inRest
      · rw [listLine, isLine]
        exact parse_xbps inSyntax.nameNonempty (inSyntax.xbpsVersion rfl)
          tokenSolid isPrefix

end

/-! ## Listings -/

/-- Lines that are read are found one after the other. -/
theorem mapM_reads {kind : PkgKind} {pkgs : List Listed}
    {print : Listed → Bytes}
    (reads : ∀ pkg ∈ pkgs, Reads kind (print pkg) (pkg.name, pkg.version)) :
    ((pkgs.map print ++ [[]]).map trimLine |>.filter (· ≠ [])).mapM
        (fun line => parsePkgLine kind (cstr line)) =
      .ok (pkgs.map fun pkg => some (pkg.name, pkg.version)) := by
  induction pkgs with
  | nil => rfl
  | cons pkg pkgs induction =>
      obtain ⟨-, nonempty, parsed⟩ := reads pkg List.mem_cons_self
      have others := induction fun other member => reads other
        (List.mem_cons_of_mem pkg member)
      rw [List.map_cons, List.cons_append, List.map_cons,
        List.filter_cons_of_pos (by simpa using nonempty), List.mapM_cons,
        parsed, others]
      rfl

/-- What a manager lists is read back: the same packages, sorted by name; and
the specification of a package for xbps comes apart into its name and
version. -/
structure ReadsBack (kind : PkgKind) (pkgs : List Listed) : Prop where
  parsed : ∃ found, foreignPkgParse kind (listText kind pkgs) = .ok found ∧
    (found.map fun pkg => (pkg.name, pkg.version)).Perm
      (pkgs.map fun pkg => (pkg.name, pkg.version)) ∧
    found.Pairwise (fun first second => first.name ≤ second.name) ∧
    ∀ pkg ∈ found, pkg.digest = none
  spec : kind = .xbps → ∀ pkg ∈ pkgs,
    (∀ text, foreignPkgSpec kind pkg.name pkg.version = .ok text →
      splitTrailing text 1 = some (pkg.name, pkg.version)) ∧
    ((pkg.name ++ 45 :: pkg.version).length < 2 ^ 31 →
      ∃ text, foreignPkgSpec kind pkg.name pkg.version = .ok text)

theorem foreignPkgSpec_xbps {name version : Bytes} (nameNonempty : name ≠ [])
    (versionNonempty : version ≠ []) :
    foreignPkgSpec .xbps name version =
      if (name ++ 45 :: version).length < 2 ^ 31 then
        .ok (name ++ 45 :: version)
      else .error [] := by
  rw [foreignPkgSpec, if_neg (by simp [nameNonempty, versionNonempty])]

theorem foreignPkgParse_readsBack {kind : PkgKind} {pkgs : List Listed}
    (inSyntax : ∀ pkg ∈ pkgs, pkg.InSyntax kind) : ReadsBack kind pkgs := by
  have reads := fun pkg member => reads_listLine (inSyntax pkg member)
  constructor
  · have lines : (listText kind pkgs).splitOn 10 =
        pkgs.map (listLine kind) ++ [[]] :=
      Lib.splitOn_flatMap fun pkg member => (reads pkg member).1
    have found : foreignPkgParse kind (listText kind pkgs) =
        .ok ((pkgs.map fun pkg => (⟨pkg.name, pkg.version, none⟩ :
          ForeignPkg)).insertionSort fun first second =>
            first.name ≤ second.name) := by
      rw [foreignPkgParse, toolLines_eq, lines, mapM_reads reads]
      simp [bind, Except.bind, pure, Except.pure, List.filterMap_map,
        Function.comp_def]
    refine ⟨_, found, ?_, List.pairwise_insertionSort _ _, ?_⟩
    · have perm := (List.perm_insertionSort (fun first second : ForeignPkg =>
        first.name ≤ second.name) (pkgs.map fun pkg =>
          (⟨pkg.name, pkg.version, none⟩ : ForeignPkg))).map
            fun pkg => (pkg.name, pkg.version)
      simpa [Function.comp_def] using perm
    · intro pkg member
      rw [List.mem_insertionSort] at member
      obtain ⟨listed, -, rfl⟩ := List.mem_map.mp member
      rfl
  · rintro rfl pkg member
    have pkgSyntax := inSyntax pkg member
    have parts := splitTrailing_joined pkgSyntax.nameNonempty pkg.version
    rw [List.count_eq_zero.mpr (pkgSyntax.xbpsVersion rfl)] at parts
    rw [foreignPkgSpec_xbps pkgSyntax.nameNonempty pkgSyntax.versionNonempty]
    constructor
    · intro text isText
      split at isText
      · cases isText
        exact parts
      · cases isText
    · intro short
      exact ⟨_, if_pos short⟩

/-- Two packages of xbps whose names have dashes. -/
def xbpsPkgs : List Listed :=
  [⟨ascii "void-repo-nonfree", ascii "9_6", 3, ascii "Void repository"⟩,
    ⟨ascii "base-files", ascii "0.144_1", 0, []⟩]

theorem xbpsPkgs_readsBack : ReadsBack .xbps xbpsPkgs := by
  apply foreignPkgParse_readsBack
  intro pkg member
  simp only [xbpsPkgs, List.mem_cons, List.not_mem_nil, or_false] at member
  rcases member with rfl | rfl <;>
    exact ⟨by decide, by decide, by decide +kernel, by decide +kernel, nofun,
      fun _ => by decide, nofun, by decide, by decide⟩

end SaltOS.Lock
