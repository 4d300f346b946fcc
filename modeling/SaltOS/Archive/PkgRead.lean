import SaltOS.Archive.PkgValues

/-!
# Metadata and manifests are read back

Both documents are groups of lines; parsing them gives the tree of those
lines, and reading the tree gives the record that was written.
-/

namespace SaltOS.Pkg

open Toml

/-! ## Metadata -/

/-- Metadata as `salt_archive_write` may be given: C strings and an `int`. -/
structure PkgMeta.WellFormed (pkg : PkgMeta) : Prop where
  name : 0 ∉ pkg.name
  version : 0 ∉ pkg.version
  releaseLow : -2 ^ 31 ≤ pkg.release
  releaseHigh : pkg.release < 2 ^ 31
  arch : 0 ∉ pkg.arch
  summary : 0 ∉ pkg.summary.getD []
  license : 0 ∉ pkg.license.getD []
  reproStatus : 0 ∉ pkg.reproStatus.getD []
  reproReason : 0 ∉ pkg.reproReason.getD []
  deps : ∀ dep ∈ pkg.deps, 0 ∉ dep
  conflicts : ∀ conflict ∈ pkg.conflicts, 0 ∉ conflict
  hooks : ∀ hook body, pkg.hooks hook = some body → 0 ∉ body

def stringLine (key : String) (text : Bytes) : Line :=
  ⟨ascii key, tomlEscape text, .str text⟩

def arrayLine (key : String) (items : List Bytes) : Line :=
  ⟨ascii key, [91] ++ emitItems items ++ [93], .arr (items.map Node.str)⟩

def baseLines (pkg : PkgMeta) : List Line :=
  [stringLine "name" pkg.name, stringLine "version" pkg.version,
    ⟨ascii "release", printInt pkg.release, .int pkg.release⟩,
    stringLine "arch" pkg.arch, stringLine "summary" (pkg.summary.getD []),
    stringLine "license" (pkg.license.getD []), arrayLine "deps" pkg.deps] ++
  if pkg.conflicts = [] then [] else [arrayLine "conflicts" pkg.conflicts]

def reproLines (pkg : PkgMeta) : List Line :=
  [stringLine "status" (pkg.reproStatus.getD (ascii "unverified"))] ++
  if pkg.reproReason.getD [] = [] then []
  else [stringLine "reason" (pkg.reproReason.getD [])]

def hookLine (pkg : PkgMeta) (hook : Hook) : List Line :=
  match pkg.hooks hook with
  | none => []
  | some body => [⟨hook.name, tomlEscape body, .str body⟩]

def hookLines (pkg : PkgMeta) : List Line :=
  Hook.all.flatMap (hookLine pkg)

def reproKey : Bytes := ascii "reproducibility"
def hooksKey : Bytes := ascii "hooks"

theorem hookLines_eq_nil {pkg : PkgMeta} :
    hookLines pkg = [] ↔
      Hook.all.all (fun hook => (pkg.hooks hook).isNone) = true := by
  have each : ∀ hook, hookLine pkg hook = [] ↔
      (pkg.hooks hook).isNone = true := by
    intro hook
    cases isHook : pkg.hooks hook <;> simp [hookLine, isHook]
  simp [hookLines, List.flatMap_eq_nil_iff, each]

theorem pkgMetaToToml_eq (pkg : PkgMeta) :
    pkgMetaToToml pkg = (baseLines pkg).flatMap Line.emit ++
      (emitSection reproKey (reproLines pkg) ++
        if hookLines pkg = [] then []
        else emitSection hooksKey (hookLines pkg)) := by
  have hookText : ∀ hooks : List Hook, (hooks.flatMap (hookLine pkg)).flatMap
      Line.emit = hooks.flatMap (emitHook pkg) := by
    intro hooks
    rw [List.flatMap_assoc]
    refine List.flatMap_congr (fun hook _ => ?_)
    cases isHook : pkg.hooks hook <;>
      simp [hookLine, emitHook, isHook, Line.emit, emitLine]
  have hooksEmit : Hook.all.flatMap (emitHook pkg) =
      (hookLines pkg).flatMap Line.emit := (hookText Hook.all).symm
  have reproText : ascii "\n[reproducibility]\n" =
      10 :: (91 :: reproKey ++ [93]) ++ [10] := by decide
  have hooksText : ascii "\n[hooks]\n" =
      10 :: (91 :: hooksKey ++ [93]) ++ [10] := by decide
  have emitEq : ∀ key text, emitLine (ascii key) (tomlEscape text) =
      (stringLine key text).emit := fun _ _ => rfl
  have arrayEq : ∀ key items, emitStrArray (ascii key) items =
      (arrayLine key items).emit := fun _ _ => rfl
  have releaseEq : emitLine (ascii "release") (printInt pkg.release) =
      Line.emit ⟨ascii "release", printInt pkg.release, .int pkg.release⟩ :=
    rfl
  have optional : ∀ (absent : Prop) [Decidable absent] (line : Line),
      (if absent then [] else [line]).flatMap Line.emit =
        if absent then [] else line.emit := by
    intro absent _ line
    split_ifs <;> simp
  simp only [pkgMetaToToml, reproText, hooksText, emitEq, arrayEq, releaseEq,
    hooksEmit, baseLines, reproLines, emitSection, List.flatMap_cons,
    optional,
    List.append_assoc, List.cons_append, List.nil_append]
  by_cases none : hookLines pkg = []
  · simp only [none, hookLines_eq_nil.mp none, if_true, List.flatMap_nil,
      List.append_nil]
  · have some := mt hookLines_eq_nil.mpr none
    simp only [none, some, if_false]
    rfl

theorem stringLine_ok {next : UInt8} {fuel : Nat} {key : String}
    {text : Bytes} (bare : BareKey (ascii key)) (noNul : 0 ∉ text) :
    (stringLine key text).Ok next (fuel + 1) :=
  ⟨bare, readsValue_string noNul⟩

theorem arrayLine_ok {next : UInt8} {fuel : Nat} {key : String}
    {items : List Bytes} (bare : BareKey (ascii key))
    (noNul : ∀ item ∈ items, 0 ∉ item) (enough : items.length < fuel) :
    (arrayLine key items).Ok next (fuel + 1) :=
  ⟨bare, readsValue_array noNul (Nat.succ_lt_succ enough)⟩

theorem baseLines_ok {next : UInt8} {fuel : Nat} {pkg : PkgMeta}
    (wellFormed : pkg.WellFormed)
    (enough : pkg.deps.length + pkg.conflicts.length < fuel) :
    ∀ line ∈ baseLines pkg, line.Ok next (fuel + 1) := by
  have release : Line.Ok next (fuel + 1) ⟨ascii "release",
      printInt pkg.release, .int pkg.release⟩ :=
    ⟨(by decide : BareKey (ascii "release")), readsValue_int
      (intText_int wellFormed.releaseLow wellFormed.releaseHigh)⟩
  intro line member
  simp only [baseLines, List.mem_append, List.mem_cons, List.not_mem_nil,
    or_false] at member
  rcases member with (rfl | rfl | rfl | rfl | rfl | rfl | rfl) | optional
  · exact stringLine_ok (by decide) wellFormed.name
  · exact stringLine_ok (by decide) wellFormed.version
  · exact release
  · exact stringLine_ok (by decide) wellFormed.arch
  · exact stringLine_ok (by decide) wellFormed.summary
  · exact stringLine_ok (by decide) wellFormed.license
  · exact arrayLine_ok (by decide) wellFormed.deps (by omega)
  · split at optional
    · cases optional
    · rw [List.mem_singleton.mp optional]
      exact arrayLine_ok (by decide) wellFormed.conflicts (by omega)

theorem reproLines_ok {next : UInt8} {fuel : Nat} {pkg : PkgMeta}
    (wellFormed : pkg.WellFormed) :
    ∀ line ∈ reproLines pkg, line.Ok next (fuel + 1) := by
  have status : 0 ∉ pkg.reproStatus.getD (ascii "unverified") := by
    have given := wellFormed.reproStatus
    cases isStatus : pkg.reproStatus with
    | none => decide
    | some text => simpa [isStatus] using given
  intro line member
  simp only [reproLines, List.mem_append, List.mem_singleton] at member
  rcases member with rfl | optional
  · exact stringLine_ok (by decide) status
  · split at optional
    · cases optional
    · rw [List.mem_singleton.mp optional]
      exact stringLine_ok (by decide) wellFormed.reproReason

theorem hookName_bare (hook : Hook) : BareKey hook.name := by
  cases hook <;> decide

theorem hookLines_ok {next : UInt8} {fuel : Nat} {pkg : PkgMeta}
    (wellFormed : pkg.WellFormed) :
    ∀ line ∈ hookLines pkg, line.Ok next (fuel + 1) := by
  intro line member
  obtain ⟨hook, -, isLine⟩ := List.mem_flatMap.mp member
  cases isHook : pkg.hooks hook with
  | none => simp [hookLine, isHook] at isLine
  | some body =>
      simp only [hookLine, isHook, List.mem_singleton] at isLine
      subst isLine
      exact ⟨hookName_bare hook,
        readsValue_string (wellFormed.hooks hook body isHook)⟩

/-- The tree of the metadata. -/
def metaRoot (pkg : PkgMeta) : Table :=
  if hookLines pkg = [] then
    sectionTable (baseLines pkg) reproKey (reproLines pkg)
  else tableSet (sectionTable (baseLines pkg) reproKey (reproLines pkg))
    hooksKey (.tab (setLines [] (hookLines pkg)))

def baseKeys (pkg : PkgMeta) : List Bytes :=
  [ascii "name", ascii "version", ascii "release", ascii "arch",
    ascii "summary", ascii "license", ascii "deps"] ++
  if pkg.conflicts = [] then [] else [ascii "conflicts"]

theorem baseLines_keys (pkg : PkgMeta) :
    (baseLines pkg).map Line.key = baseKeys pkg := by
  unfold baseLines baseKeys
  split_ifs <;> rfl

theorem baseKeys_nodup (pkg : PkgMeta) : (baseKeys pkg).Nodup := by
  unfold baseKeys
  split_ifs <;> decide

theorem baseKeys_sections (pkg : PkgMeta) :
    reproKey ∉ baseKeys pkg ∧ hooksKey ∉ baseKeys pkg := by
  unfold baseKeys
  split_ifs <;> decide

/-- The metadata document is parsed into its tree. -/
theorem parse_meta {next : UInt8} {fuel : Nat} {pkg : PkgMeta}
    (wellFormed : pkg.WellFormed)
    (enough : pkg.deps.length + pkg.conflicts.length < fuel) :
    parse next (fuel + 1) (pkgMetaToToml pkg) = .ok (metaRoot pkg) := by
  have sections := baseKeys_sections pkg
  rw [← baseLines_keys] at sections
  rw [pkgMetaToToml_eq, metaRoot]
  exact parse_sections (baseLines_ok wellFormed enough)
    (reproLines_ok wellFormed) (hookLines_ok wellFormed) (by decide)
    (by decide) sections.1 sections.2 (by decide)

/-! ## Reading the metadata -/

/-- A base entry of the metadata tree. -/
theorem getPath_metaRoot (pkg : PkgMeta) (line : Line)
    (member : line ∈ baseLines pkg) (segment : Segment line.key) :
    getPath (.tab (metaRoot pkg)) line.key = some line.node := by
  have inKeys : line.key ∈ baseKeys pkg := by
    rw [← baseLines_keys]
    exact List.mem_map_of_mem member
  have sections := baseKeys_sections pkg
  have notRepro : reproKey ≠ line.key := fun same => sections.1 (same ▸ inKeys)
  have notHooks : hooksKey ≠ line.key := fun same => sections.2 (same ▸ inKeys)
  have distinct : ((baseLines pkg).map Line.key).Nodup := by
    rw [baseLines_keys]
    exact baseKeys_nodup pkg
  have inBase : tableGet (sectionTable (baseLines pkg) reproKey
      (reproLines pkg)) line.key = some line.node := by
    rw [sectionTable, tableGet_tableSet, if_neg notRepro,
      tableGet_setLines distinct member]
  rw [getPath_bare segment, metaRoot]
  split_ifs
  · exact inBase
  · rw [tableGet_tableSet, if_neg notHooks, inBase]

theorem tableGet_metaRoot_repro (pkg : PkgMeta) :
    tableGet (metaRoot pkg) reproKey =
      some (.tab (setLines [] (reproLines pkg))) := by
  have differ : hooksKey ≠ reproKey := by decide
  rw [metaRoot]
  split_ifs
  · rw [sectionTable, tableGet_tableSet, if_pos rfl]
  · rw [tableGet_tableSet, if_neg differ, sectionTable, tableGet_tableSet,
      if_pos rfl]

theorem tableGet_metaRoot_hooks (pkg : PkgMeta) :
    tableGet (metaRoot pkg) hooksKey =
      if hookLines pkg = [] then none
      else some (.tab (setLines [] (hookLines pkg))) := by
  have differ : reproKey ≠ hooksKey := by decide
  have sections := baseKeys_sections pkg
  rw [← baseLines_keys] at sections
  rw [metaRoot]
  split_ifs
  · rw [sectionTable, tableGet_tableSet, if_neg differ,
      tableGet_base sections.2]
  · rw [tableGet_tableSet, if_pos rfl]

theorem getPath_metaRoot_repro {pkg : PkgMeta} {inner : Bytes}
    (segment : Segment inner) :
    getPath (.tab (metaRoot pkg)) (reproKey ++ 46 :: inner) =
      tableGet (setLines [] (reproLines pkg)) inner := by
  rw [getPath_dotted (by decide) segment, tableGet_metaRoot_repro]
  rfl

theorem fromName_name (hook : Hook) : Hook.fromName hook.name = some hook := by
  cases hook <;> decide

/-- The hooks table is read back one entry at a time. -/
theorem readHooks_lines (pkg : PkgMeta) (hooks : List Hook)
    (known : Hook → Option Bytes) :
    readHooks ((hooks.flatMap (hookLine pkg)).map
        (fun line => (line.key, line.node))) known =
      .ok (fun hook => if hook ∈ hooks ∧ pkg.hooks hook ≠ none
        then pkg.hooks hook else known hook) := by
  induction hooks generalizing known with
  | nil => simp [readHooks]
  | cons first hooks induction =>
      cases isHook : pkg.hooks first with
      | none =>
          rw [List.flatMap_cons, hookLine, isHook, List.nil_append, induction]
          congr 1
          funext hook
          by_cases same : hook = first <;> simp [same, isHook]
      | some body =>
          rw [List.flatMap_cons, hookLine, isHook, List.map_append,
            List.map_singleton, List.singleton_append, readHooks]
          simp only [fromName_name, asString, induction]
          congr 1
          funext hook
          by_cases same : hook = first
          · simp [same, isHook]
          · simp [same]

theorem hookLines_keys_nodup (pkg : PkgMeta) :
    ((hookLines pkg).map Line.key).Nodup := by
  have sublist : ∀ hooks : List Hook,
      ((hooks.flatMap (hookLine pkg)).map Line.key).Sublist
        (hooks.map Hook.name) := by
    intro hooks
    induction hooks with
    | nil => simp
    | cons hook hooks induction =>
        cases isHook : pkg.hooks hook with
        | none => simpa [hookLine, isHook] using induction.cons hook.name
        | some body => simpa [hookLine, isHook] using induction
  exact List.Nodup.sublist (sublist Hook.all) (by decide)

theorem readHooks_metaRoot (pkg : PkgMeta) :
    readHooks (hooksTable (metaRoot pkg)) (fun _ => none) =
      .ok pkg.hooks := by
  have all : ∀ hook, hook ∈ Hook.all := by
    intro hook
    cases hook <;> decide
  have entries : hooksTable (metaRoot pkg) =
      (hookLines pkg).map (fun line => (line.key, line.node)) := by
    have found := tableGet_metaRoot_hooks pkg
    rw [hooksKey] at found
    rw [hooksTable, found]
    by_cases none : hookLines pkg = []
    · simp [none]
    · rw [if_neg none]
      exact setLines_distinct [] (hookLines_keys_nodup pkg)
  rw [entries, hookLines, readHooks_lines]
  congr 1
  funext hook
  by_cases absent : pkg.hooks hook = none <;> simp [all, absent]

/-- What reading makes of absent and empty fields. -/
def PkgMeta.readBack (pkg : PkgMeta) : PkgMeta :=
  { pkg with
    summary := some (pkg.summary.getD [])
    license := some (pkg.license.getD [])
    reproStatus := some (pkg.reproStatus.getD (ascii "unverified"))
    reproReason := pkg.reproReason.filter (· ≠ []) }

theorem stringAt_metaRoot (pkg : PkgMeta) (key : String) (text : Bytes)
    (member : stringLine key text ∈ baseLines pkg)
    (segment : Segment (ascii key)) :
    stringAt (.tab (metaRoot pkg)) key = some text := by
  have found := getPath_metaRoot _ _ member segment
  rw [stringAt]
  change (getPath _ (stringLine key text).key).bind asString = _
  rw [found]
  rfl

theorem stringArrayAt_metaRoot (pkg : PkgMeta) (key : String)
    (items : List Bytes) (member : arrayLine key items ∈ baseLines pkg)
    (segment : Segment (ascii key)) :
    stringArrayAt (.tab (metaRoot pkg)) key = items := by
  have found : getPath (.tab (metaRoot pkg)) (ascii key) =
      some (arrayLine key items).node :=
    getPath_metaRoot _ _ member segment
  have strings : (items.map Node.str).filterMap asString = items := by
    simp [List.filterMap_map, Function.comp_def, asString]
  rw [stringArrayAt, found]
  exact strings

theorem stringArrayAt_conflicts (pkg : PkgMeta) :
    stringArrayAt (.tab (metaRoot pkg)) "conflicts" = pkg.conflicts := by
  by_cases none : pkg.conflicts = []
  · have other : ascii "conflicts" ∉ baseKeys pkg := by
      rw [baseKeys, if_pos none]
      decide
    have notRepro : reproKey ≠ ascii "conflicts" := by decide
    have notHooks : hooksKey ≠ ascii "conflicts" := by decide
    rw [← baseLines_keys] at other
    have absent : getPath (.tab (metaRoot pkg)) (ascii "conflicts") =
        Option.none := by
      rw [getPath_bare (by decide), metaRoot]
      split_ifs
      · rw [sectionTable, tableGet_tableSet, if_neg notRepro,
          tableGet_base other]
      · rw [tableGet_tableSet, if_neg notHooks, sectionTable,
          tableGet_tableSet, if_neg notRepro, tableGet_base other]
    simp [stringArrayAt, absent, none]
  · exact stringArrayAt_metaRoot _ _ _ (by simp [baseLines, none]) (by decide)

theorem stringAt_status (pkg : PkgMeta) :
    stringAt (.tab (metaRoot pkg)) "reproducibility.status" =
      some (pkg.reproStatus.getD (ascii "unverified")) := by
  have key : ascii "reproducibility.status" =
      reproKey ++ 46 :: ascii "status" := by decide
  have notReason : ascii "reason" ≠ ascii "status" := by decide
  rw [stringAt, key, getPath_metaRoot_repro (by decide), reproLines]
  split_ifs
  · simp [setLines, stringLine, tableGet_tableSet, asString]
  · simp [setLines, stringLine, tableGet_tableSet, asString, notReason]

theorem stringAt_reason (pkg : PkgMeta) :
    stringAt (.tab (metaRoot pkg)) "reproducibility.reason" =
      pkg.reproReason.filter (· ≠ []) := by
  have key : ascii "reproducibility.reason" =
      reproKey ++ 46 :: ascii "reason" := by decide
  have notStatus : ascii "status" ≠ ascii "reason" := by decide
  rw [stringAt, key, getPath_metaRoot_repro (by decide), reproLines]
  cases isReason : pkg.reproReason with
  | none => simp [setLines, stringLine, tableGet, tableSet, notStatus]
  | some text =>
      by_cases empty : text = []
      · simp [setLines, stringLine, tableGet, tableSet, notStatus, empty,
          Option.filter]
      · simp [setLines, stringLine, tableGet_tableSet, asString, empty,
          Option.filter]

/-- Metadata survives writing and reading. -/
theorem pkgMetaFromToml_toToml (next : UInt8) {fuel : Nat} {pkg : PkgMeta}
    (wellFormed : pkg.WellFormed)
    (enough : pkg.deps.length + pkg.conflicts.length < fuel) :
    pkgMetaFromToml next (fuel + 1) (pkgMetaToToml pkg) =
      .ok pkg.readBack := by
  have release : intAt (.tab (metaRoot pkg)) "release" 1 = pkg.release := by
    have found := getPath_metaRoot pkg
      ⟨ascii "release", printInt pkg.release, .int pkg.release⟩
      (by simp [baseLines]) (by decide : Segment (ascii "release"))
    simp only [intAt, found]
  have name := stringAt_metaRoot pkg "name" pkg.name (by simp [baseLines])
    (by decide)
  have version := stringAt_metaRoot pkg "version" pkg.version
    (by simp [baseLines]) (by decide)
  have arch := stringAt_metaRoot pkg "arch" pkg.arch (by simp [baseLines])
    (by decide)
  have summary := stringAt_metaRoot pkg "summary" (pkg.summary.getD [])
    (by simp [baseLines]) (by decide)
  have license := stringAt_metaRoot pkg "license" (pkg.license.getD [])
    (by simp [baseLines]) (by decide)
  have deps := stringArrayAt_metaRoot pkg "deps" pkg.deps
    (by simp [baseLines]) (by decide)
  simp only [pkgMetaFromToml, parse_meta wellFormed enough, bind,
    Except.bind, readHooks_metaRoot, pure, Except.pure, PkgMeta.readBack,
    release, stringArrayAt_conflicts, stringAt_status, stringAt_reason, name,
    version, arch, summary, license, deps, Option.getD_some,
    toInt32_eq wellFormed.releaseLow wellFormed.releaseHigh]

/-! ## Manifests -/

def isLowerHex (byte : UInt8) : Bool :=
  (48 ≤ byte && byte ≤ 57) || (97 ≤ byte && byte ≤ 102)

/-- A manifest entry as `salt_archive_write` may be given. -/
structure ManifestEntry.WellFormed (entry : ManifestEntry) : Prop where
  path : 0 ∉ entry.path
  typeflag : entry.typeflag ∈ ([0, 48, 53, 50] : List UInt8)
  mode : entry.mode < 4096
  size : entry.size < 2 ^ 63
  sha256 : ∀ byte ∈ entry.sha256.getD [], isLowerHex byte = true
  linkname : 0 ∉ entry.linkname.getD []

/-- What reading makes of a zero type and of empty fields. -/
def ManifestEntry.readBack (entry : ManifestEntry) : ManifestEntry :=
  { entry with
    typeflag := if entry.typeflag = 0 then 48 else entry.typeflag
    sha256 := entry.sha256.filter (· ≠ [])
    linkname := entry.linkname.filter (· ≠ []) }

def optionalLine (key : String) (text : Option Bytes) : List Line :=
  if text.getD [] = [] then [] else [stringLine key (text.getD [])]

def modeText (entry : ManifestEntry) : Bytes :=
  padZeros 4 (printBase 8 (entry.mode % 4096))

def entryLines (entry : ManifestEntry) : List Line :=
  [stringLine "path" entry.path,
    stringLine "type" [if entry.typeflag = 0 then 48 else entry.typeflag],
    stringLine "mode" (modeText entry),
    ⟨ascii "size", printBase 10 entry.size, .int entry.size⟩] ++
  optionalLine "sha256" entry.sha256 ++ optionalLine "linkname" entry.linkname

def fileKey : Bytes := ascii "file"

theorem tomlEscape_plain (text : Bytes)
    (plain : ∀ byte ∈ text, escapeByte byte = [byte]) :
    tomlEscape text = [34] ++ text ++ [34] := by
  have same : text.flatMap escapeByte = text := by
    induction text with
    | nil => rfl
    | cons byte text induction =>
        rw [List.flatMap_cons, plain byte List.mem_cons_self, induction
          (fun other member => plain other (List.mem_cons_of_mem _ member))]
        rfl
  rw [tomlEscape, same]

theorem escapeByte_hex {byte : UInt8} (hex : isLowerHex byte = true) :
    escapeByte byte = [byte] ∧ byte ≠ 0 := by
  refine forall_byte (fun byte => isLowerHex byte = true →
    escapeByte byte = [byte] ∧ byte ≠ 0) ?_ byte hex
  decide +kernel

theorem modeText_hex (entry : ManifestEntry) :
    ∀ byte ∈ modeText entry, isLowerHex byte = true := by
  intro byte member
  rcases List.mem_append.mp member with zero | digit
  · rw [List.eq_of_mem_replicate zero]
    decide
  · have bounds := printBase_bounds (by decide) (by decide) byte digit
    have low : (48 : UInt8) ≤ byte := UInt8.le_iff_toNat_le.mpr bounds.1
    have high : byte ≤ (57 : UInt8) := UInt8.le_iff_toNat_le.mpr (by
      change byte.toNat ≤ 57
      omega)
    simp [isLowerHex, low, high]

theorem ManifestEntry.WellFormed.writtenType {entry : ManifestEntry}
    (wellFormed : entry.WellFormed) :
    isLowerHex (if entry.typeflag = 0 then 48 else entry.typeflag) =
      true := by
  have cases := wellFormed.typeflag
  simp only [List.mem_cons, List.not_mem_nil, or_false] at cases
  rcases cases with isType | isType | isType | isType <;>
    rw [isType] <;> decide

theorem emitEntry_eq {entry : ManifestEntry}
    (wellFormed : entry.WellFormed) :
    emitEntry entry = (91 :: 91 :: fileKey ++ [93, 93]) ++
      10 :: ((entryLines entry).flatMap Line.emit ++ [10]) := by
  have header : ascii "[[file]]\n" = (91 :: 91 :: fileKey ++ [93, 93]) ++
      [10] := by decide
  have typeText := tomlEscape_plain
    [if entry.typeflag = 0 then 48 else entry.typeflag] (by
      intro byte member
      rw [List.mem_singleton.mp member]
      exact (escapeByte_hex wellFormed.writtenType).1)
  have mode := tomlEscape_plain (modeText entry)
    (fun byte member => (escapeByte_hex (modeText_hex entry byte member)).1)
  have digest := tomlEscape_plain (entry.sha256.getD [])
    (fun byte member => (escapeByte_hex (wellFormed.sha256 byte member)).1)
  have optional : ∀ key text, (optionalLine key text).flatMap Line.emit =
      if text.getD [] = [] then []
      else emitLine (ascii key) (tomlEscape (text.getD [])) := by
    intro key text
    unfold optionalLine
    split_ifs
    · rfl
    · simp [stringLine, Line.emit, emitLine]
  rw [modeText] at mode
  simp only [emitEntry, header, entryLines, List.flatMap_append, optional,
    ← mode, ← typeText, ← digest]
  simp [Line.emit, emitLine, stringLine, modeText]

theorem entryLines_ok (next : UInt8) (fuel : Nat) {entry : ManifestEntry}
    (wellFormed : entry.WellFormed) :
    ∀ line ∈ entryLines entry, line.Ok next (fuel + 1) := by
  have noNulHex : ∀ {text : Bytes}, (∀ byte ∈ text, isLowerHex byte = true) →
      0 ∉ text := fun hex member => (escapeByte_hex (hex 0 member)).2 rfl
  have size : Line.Ok next (fuel + 1) ⟨ascii "size",
      printBase 10 entry.size, .int entry.size⟩ :=
    ⟨(by decide : BareKey (ascii "size")),
      readsValue_int (intText_nat wellFormed.size)⟩
  intro line member
  simp only [entryLines, optionalLine, List.mem_append, List.mem_cons,
    List.not_mem_nil, or_false] at member
  rcases member with ((rfl | rfl | rfl | rfl) | digest) | link
  · exact stringLine_ok (by decide) wellFormed.path
  · refine stringLine_ok (by decide) (noNulHex ?_)
    intro byte inType
    rw [List.mem_singleton.mp inType]
    exact wellFormed.writtenType
  · exact stringLine_ok (by decide) (noNulHex (modeText_hex entry))
  · exact size
  · split at digest
    · cases digest
    · rw [List.mem_singleton.mp digest]
      exact stringLine_ok (by decide) (noNulHex wellFormed.sha256)
  · split at link
    · cases link
    · rw [List.mem_singleton.mp link]
      exact stringLine_ok (by decide) wellFormed.linkname

def entryNode (entry : ManifestEntry) : Node :=
  .tab (setLines [] (entryLines entry))

/-- The tree after some entries; without any there is no `file` key. -/
def fileRoot (items : List Node) : Table :=
  if items = [] then [] else tableSet [] fileKey (.arr items)

theorem pushTable_fileRoot (items : List Node) :
    pushTable fileKey (fileRoot items) =
      some (tableSet [] fileKey (.arr (items ++ [.tab []]))) := by
  unfold fileRoot
  split_ifs with empty
  · simp [pushTable, tableGet, empty]
  · simp [pushTable, tableGet_tableSet]

/-- One entry of the manifest document. -/
theorem reads_entry (next : UInt8) (fuel blanks : Nat)
    {entry : ManifestEntry} (wellFormed : entry.WellFormed)
    (items : List Node) (current : List Bytes) (rest : Bytes) :
    Reads next (fuel + 1) (1 + (entryLines entry).length)
      ⟨fileRoot items, current,
        List.replicate blanks 10 ++ (emitEntry entry ++ rest)⟩
      ⟨fileRoot (items ++ [entryNode entry]), [fileKey],
        List.replicate 2 10 ++ rest⟩ := by
  have opened : Reads next (fuel + 1) 1 _ _ := Reads.arrayHeader current
    ((entryLines entry).flatMap Line.emit ++ 10 :: rest) blanks
    (by decide) (pushTable_fileRoot items)
  have filled := Reads.lines (isPlace_arr [] fileKey items)
    (entryLines_ok next fuel wellFormed) [] (10 :: rest)
  have final : tableSet [] fileKey (.arr (items ++ [entryNode entry])) =
      fileRoot (items ++ [entryNode entry]) := by
    simp [fileRoot]
  rw [← final]
  refine Reads.trans ?_ filled
  simpa [emitEntry_eq wellFormed] using opened

theorem reads_manifest (next : UInt8) (fuel : Nat) {manifest : Manifest}
    (wellFormed : ∀ entry ∈ manifest, entry.WellFormed)
    (items : List Node) (current : List Bytes) (blanks : Nat) :
    ∃ count blanks' current', count ≤ (manifestToToml manifest).length ∧
      Reads next (fuel + 1) count
        ⟨fileRoot items, current,
          List.replicate blanks 10 ++ manifestToToml manifest⟩
        ⟨fileRoot (items ++ manifest.map entryNode), current',
          List.replicate blanks' 10⟩ := by
  induction manifest generalizing items current blanks with
  | nil =>
      refine ⟨0, blanks, current, Nat.zero_le _, ?_⟩
      simpa [manifestToToml] using Reads.refl _
  | cons entry manifest induction =>
      obtain ⟨count, blanks', current', enough, others⟩ := induction
        (fun other member => wellFormed other
          (List.mem_cons_of_mem entry member))
        (items ++ [entryNode entry]) [fileKey] 2
      have first := reads_entry next fuel blanks
        (wellFormed entry List.mem_cons_self) items current
        (manifestToToml manifest)
      refine ⟨1 + (entryLines entry).length + count, blanks', current', ?_,
        ?_⟩
      rotate_left
      · have joined := first.trans others
        simpa [manifestToToml] using joined
      · have lines := length_emit (entryLines entry)
        have text := emitEntry_eq (wellFormed entry List.mem_cons_self)
        have length : 1 + (entryLines entry).length ≤
            (emitEntry entry).length := by
          rw [text]
          simp only [List.length_append, List.length_cons]
          omega
        simp only [manifestToToml, List.flatMap_cons, List.length_append]
          at enough ⊢
        omega

theorem parse_manifest {next : UInt8} {fuel : Nat} {manifest : Manifest}
    (wellFormed : ∀ entry ∈ manifest, entry.WellFormed) :
    parse next (fuel + 1) (manifestToToml manifest) =
      .ok (fileRoot (manifest.map entryNode)) := by
  obtain ⟨count, blanks, current, enough, reads⟩ := reads_manifest next fuel
    wellFormed [] [] 1
  exact Reads.parse _ reads enough

theorem strtoul8_modeText {entry : ManifestEntry} (small : entry.mode < 4096) :
    strtoul8 (modeText entry) = entry.mode := by
  have octal : ∀ byte ∈ modeText entry, (48 ≤ byte && byte ≤ 55) = true := by
    intro byte member
    rcases List.mem_append.mp member with zero | digit
    · rw [List.eq_of_mem_replicate zero]
      decide
    · have bounds := printBase_bounds (by decide) (by decide) byte digit
      have low : (48 : UInt8) ≤ byte := UInt8.le_iff_toNat_le.mpr bounds.1
      have high : byte ≤ (55 : UInt8) := UInt8.le_iff_toNat_le.mpr (by
        change byte.toNat ≤ 55
        omega)
      simp [low, high]
  have plain : ∀ byte : UInt8, (48 ≤ byte && byte ≤ 55) = true →
      (byte == 32 || (9 ≤ byte && byte ≤ 13)) = false ∧ byte ≠ 45 ∧
        byte ≠ 43 := by
    refine forall_byte _ ?_
    decide +kernel
  have value : readBase 8 (modeText entry) = entry.mode := by
    rw [modeText, padZeros, readBase_zeros,
      readBase_printBase (by decide) (by decide), Nat.mod_eq_of_lt small]
  have noBlank : (modeText entry).dropWhile (fun byte => byte == 32 ||
      (9 ≤ byte && byte ≤ 13)) = modeText entry := by
    rw [List.dropWhile_eq_self_iff]
    intro positive
    simpa using (plain _ (octal _ (List.getElem_mem positive))).1
  have noSign : ∀ sign : UInt8, sign = 45 ∨ sign = 43 →
      (modeText entry).head? ≠ some sign := by
    intro sign isSign atHead
    have differ := plain sign (octal sign (List.mem_of_mem_head? atHead))
    rcases isSign with rfl | rfl
    · exact differ.2.1 rfl
    · exact differ.2.2 rfl
  have digits : (modeText entry).takeWhile
      (fun byte => 48 ≤ byte && byte ≤ 55) = modeText entry :=
    List.takeWhile_eq_self_iff.mpr octal
  simp only [strtoul8, noBlank, noSign 45 (.inl rfl), noSign 43 (.inr rfl),
    or_self, if_false, digits, value, false_and]
  rw [if_pos (Nat.lt_of_lt_of_le small (by decide)),
    Nat.mod_eq_of_lt (Nat.lt_of_lt_of_le small (by decide))]

def entryKeys (entry : ManifestEntry) : List Bytes :=
  [ascii "path", ascii "type", ascii "mode", ascii "size"] ++
  (if entry.sha256.getD [] = [] then [] else [ascii "sha256"]) ++
  if entry.linkname.getD [] = [] then [] else [ascii "linkname"]

theorem entryLines_keys (entry : ManifestEntry) :
    (entryLines entry).map Line.key = entryKeys entry := by
  unfold entryLines entryKeys optionalLine
  split_ifs <;> rfl

theorem entryKeys_nodup (entry : ManifestEntry) : (entryKeys entry).Nodup := by
  unfold entryKeys
  split_ifs <;> decide

theorem getPath_entryNode (entry : ManifestEntry) (line : Line)
    (member : line ∈ entryLines entry) (segment : Segment line.key) :
    getPath (entryNode entry) line.key = some line.node := by
  have distinct : ((entryLines entry).map Line.key).Nodup := by
    rw [entryLines_keys]
    exact entryKeys_nodup entry
  rw [entryNode, getPath_bare segment, tableGet_setLines distinct member]

theorem stringAt_entryNode (entry : ManifestEntry) (key : String)
    (text : Bytes) (member : stringLine key text ∈ entryLines entry)
    (segment : Segment (ascii key)) :
    stringAt (entryNode entry) key = some text := by
  have found := getPath_entryNode _ _ member segment
  rw [stringAt]
  change (getPath _ (stringLine key text).key).bind asString = _
  rw [found]
  rfl

theorem stringAt_optional (entry : ManifestEntry) (key : String)
    (text : Option Bytes)
    (present : text.getD [] ≠ [] →
      stringLine key (text.getD []) ∈ entryLines entry)
    (absent : text.getD [] = [] → ascii key ∉ entryKeys entry)
    (segment : Segment (ascii key)) :
    stringAt (entryNode entry) key = text.filter (· ≠ []) := by
  by_cases empty : text.getD [] = []
  · have other := absent empty
    rw [← entryLines_keys] at other
    have none : text.filter (· ≠ []) = none := by
      cases text with
      | none => rfl
      | some bytes => simp_all [Option.filter]
    rw [stringAt, entryNode, getPath_bare segment, tableGet_base other, none]
    rfl
  · rw [stringAt_entryNode _ _ _ (present empty) segment]
    cases text with
    | none => exact absurd rfl empty
    | some bytes => simp_all [Option.filter]

theorem entryFromNode_entryNode {entry : ManifestEntry}
    (wellFormed : entry.WellFormed) :
    entryFromNode (entryNode entry) = entry.readBack := by
  have path := stringAt_entryNode entry "path" entry.path
    (by simp [entryLines]) (by decide)
  have type := stringAt_entryNode entry "type"
    [if entry.typeflag = 0 then 48 else entry.typeflag]
    (by simp [entryLines]) (by decide)
  have mode := stringAt_entryNode entry "mode" (modeText entry)
    (by simp [entryLines]) (by decide)
  have size : intAt (entryNode entry) "size" 0 = entry.size := by
    have found := getPath_entryNode entry
      ⟨ascii "size", printBase 10 entry.size, .int entry.size⟩
      (by simp [entryLines]) (by decide : Segment (ascii "size"))
    simp only [intAt, found]
  have digest := stringAt_optional entry "sha256" entry.sha256
    (fun present => by simp [entryLines, optionalLine, present])
    (fun empty => by unfold entryKeys; split_ifs <;> decide) (by decide)
  have link := stringAt_optional entry "linkname" entry.linkname
    (fun present => by simp [entryLines, optionalLine, present])
    (fun empty => by unfold entryKeys; split_ifs <;> decide) (by decide)
  have sizeValue : ((entry.size : Int) % 2 ^ 64).toNat = entry.size := by
    have small := wellFormed.size
    omega
  simp only [entryFromNode, path, type, mode, size, digest, link,
    Option.getD_some, List.headD_cons, strtoul8_modeText wellFormed.mode,
    sizeValue, ManifestEntry.readBack]

/-- A manifest survives writing and reading, entry by entry. -/
theorem manifestFromToml_toToml (next : UInt8) (fuel : Nat)
    {manifest : Manifest}
    (wellFormed : ∀ entry ∈ manifest, entry.WellFormed) :
    manifestFromToml next (fuel + 1) (manifestToToml manifest) =
      .ok (manifest.map ManifestEntry.readBack) := by
  have entries : (manifest.map entryNode).map entryFromNode =
      manifest.map ManifestEntry.readBack := by
    rw [List.map_map]
    exact List.map_congr_left (fun entry member =>
      entryFromNode_entryNode (wellFormed entry member))
  simp only [manifestFromToml, parse_manifest wellFormed, bind, Except.bind,
    pure, Except.pure]
  by_cases empty : manifest = []
  · subst empty
    rfl
  · have found : tableGet (fileRoot (manifest.map entryNode)) (ascii "file") =
        some (.arr (manifest.map entryNode)) := by
      rw [fileRoot, if_neg (by simpa using empty)]
      exact (tableGet_tableSet _ _ _ _).trans (if_pos rfl)
    rw [found]
    simp only [entries]

end SaltOS.Pkg
