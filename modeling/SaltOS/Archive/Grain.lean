import SaltOS.Archive.TarRead
import SaltOS.Archive.PkgRead

/-!
# The `.grain` archive

`salt_archive_write` and `salt_archive_open` of `src/halite/src/archive.c` on
the bytes of the file, and that opening undoes writing.

A callback may parse a member whose data pointer is null; with a size other
than zero this is a crash.  The byte the TOML parser may look at behind a
member is a parameter.
-/

namespace SaltOS

open Pkg

structure Archive where
  pkg : PkgMeta
  manifest : Manifest
  payload : Bytes
  scripts : List Bytes

namespace Archive

/-- How an opening fails. -/
inductive OpenError where
  | format (message : Bytes)
  | hang
  | crash
  deriving DecidableEq, Repr

/-- The regular file entry of a member. -/
def member (path : String) (contents : Bytes) : Tar.Entry where
  path := ascii path
  typeflag := Tar.typeFile
  mode := 420
  size := contents.length
  linkname := none
  data := some contents

/-- `salt_archive_write`: the bytes of the file. -/
def write (archive : Archive) : Bytes :=
  Tar.writeAll
    [member "metadata.toml" (pkgMetaToToml archive.pkg),
      member "manifest.toml" (manifestToToml archive.manifest),
      member "files.tar.zst" archive.payload]

/-- What `open_cb` has collected so far. -/
structure Opening where
  pkg : Option PkgMeta
  manifest : Option Manifest
  payload : Bytes
  scripts : List Bytes

/-- The bytes a callback reads at `e->data`. -/
def entryBytes (entry : Tar.Entry) : Except OpenError Bytes :=
  match entry.data with
  | some data => .ok data
  | none => if entry.size = 0 then .ok [] else .error .crash

/-- The error of a callback whose parse failed. -/
def ofStop : Toml.Stop → OpenError
  | .error message => .format (message.getD [])
  | .outOfFuel => .hang

/-- `open_cb`; a manifest that does not parse counts as an empty one. -/
def openCb (behind : Tar.Entry → UInt8) (fuel : Nat) (opening : Opening)
    (entry : Tar.Entry) : Except OpenError Opening := do
  if entry.path = ascii "metadata.toml" then
    let text ← entryBytes entry
    match pkgMetaFromToml (behind entry) fuel text with
    | .ok pkg => return { opening with pkg := some pkg }
    | .error stop => throw (ofStop stop)
  else if entry.path = ascii "manifest.toml" then
    let text ← entryBytes entry
    match manifestFromToml (behind entry) fuel text with
    | .ok manifest => return { opening with manifest := some manifest }
    | .error (.error _) => return { opening with manifest := some [] }
    | .error .outOfFuel => throw .hang
  else if entry.path = ascii "files.tar.zst" then
    let data ← entryBytes entry
    return { opening with payload := opening.payload ++ data }
  else if (ascii "scripts/").isPrefixOf entry.path &&
      entry.typeflag != Tar.typeDir then
    return { opening with scripts := opening.scripts ++ [entry.path.drop 8] }
  else return opening

/-- `salt_archive_open`; a format error is reported for the file as a whole. -/
def «open» (behind : Tar.Entry → UInt8) (fuel : Nat) (path input : Bytes) :
    Except OpenError Archive :=
  let invalid := OpenError.format (ascii "invalid .grain: " ++ path)
  let reading := Tar.read input
  match reading.entries.foldlM (openCb behind fuel) ⟨none, none, [], []⟩ with
  | .error (.format _) => .error invalid
  | .error stop => .error stop
  | .ok opening =>
      match reading.ending, opening.pkg, opening.manifest with
      | .complete, some pkg, some manifest =>
          .ok ⟨pkg, manifest, opening.payload, opening.scripts⟩
      | _, _, _ => .error invalid

/-! ## Round trip -/

/-- An archive value as the format can hold it: C strings, an `int` release,
manifest entries of the three types, members that fit a tar header. -/
structure WellFormed (archive : Archive) : Prop where
  pkg : archive.pkg.WellFormed
  manifest : ∀ entry ∈ archive.manifest, entry.WellFormed
  pkgSize : (pkgMetaToToml archive.pkg).length < 8 ^ 11
  manifestSize : (manifestToToml archive.manifest).length < 8 ^ 11
  payloadSize : archive.payload.length < 8 ^ 11

/-- What opening makes of a written archive: absent texts become their
defaults, empty optional texts become absent, a zero type becomes `'0'`. -/
def readBack (archive : Archive) : Archive where
  pkg := archive.pkg.readBack
  manifest := archive.manifest.map ManifestEntry.readBack
  payload := archive.payload
  scripts := []

theorem member_plain {path : String} {contents : Bytes}
    (short : (ascii path).length ≤ 100) (noNul : 0 ∉ ascii path)
    (small : contents.length < 8 ^ 11) :
    Tar.PlainFile (member path contents) contents where
  short := short
  noNul := noNul
  isFile := rfl
  size := rfl
  small := small
  data := rfl
  linkname := rfl
  mode := (by decide : 420 < 4096)

theorem read_write {archive : Archive} (wellFormed : archive.WellFormed) :
    Tar.read archive.write =
      ⟨[{ member "metadata.toml" (pkgMetaToToml archive.pkg) with
            linkname := some [] },
          { member "manifest.toml" (manifestToToml archive.manifest) with
            linkname := some [] },
          { member "files.tar.zst" archive.payload with
            linkname := some [] }], .complete⟩ := by
  refine Tar.read_writeAll ?_
  intro entry isMember
  simp only [List.mem_cons, List.not_mem_nil, or_false] at isMember
  rcases isMember with rfl | rfl | rfl
  · exact ⟨_, member_plain (by decide) (by decide) wellFormed.pkgSize⟩
  · exact ⟨_, member_plain (by decide) (by decide) wellFormed.manifestSize⟩
  · exact ⟨_, member_plain (by decide) (by decide) wellFormed.payloadSize⟩

theorem open_write {archive : Archive} (wellFormed : archive.WellFormed)
    (behind : Tar.Entry → UInt8) (path : Bytes) {fuel : Nat}
    (enough : archive.pkg.deps.length + archive.pkg.conflicts.length < fuel) :
    «open» behind (fuel + 1) path archive.write = .ok archive.readBack := by
  have differ : ascii "manifest.toml" ≠ ascii "metadata.toml" ∧
      ascii "files.tar.zst" ≠ ascii "metadata.toml" ∧
      ascii "files.tar.zst" ≠ ascii "manifest.toml" := by decide
  have pkg := fun next => pkgMetaFromToml_toToml next
    wellFormed.pkg enough
  have manifest := fun next => manifestFromToml_toToml next fuel
    wellFormed.manifest
  simp only [«open», read_write wellFormed, List.foldlM_cons,
    List.foldlM_nil, openCb, member, entryBytes, differ, pkg, manifest, bind,
    Except.bind, pure, Except.pure, if_true, if_false, List.nil_append,
    readBack]

def smallPkg : PkgMeta where
  name := ascii "a"
  version := ascii "1"
  release := 1
  arch := ascii "noarch"
  summary := none
  license := none
  reproStatus := none
  reproReason := none
  deps := [ascii "b"]
  conflicts := []
  hooks := fun _ => none

/-- An archive with one symbolic link to the given target. -/
def oneLink (target : Bytes) : Archive where
  pkg := smallPkg
  manifest := [⟨ascii "l", Tar.typeSymlink, 511, 0, none, some target⟩]
  payload := []
  scripts := []

theorem smallPkg_wellFormed : smallPkg.WellFormed :=
  ⟨by decide, by decide, by decide, by decide, by decide, by decide,
    by decide, by decide, by decide, by decide, by decide,
    fun _ _ none => by cases none⟩

theorem oneLink_wellFormed (target : Bytes) (noNul : 0 ∉ target)
    (small : (manifestToToml (oneLink target).manifest).length < 8 ^ 11) :
    (oneLink target).WellFormed where
  pkg := smallPkg_wellFormed
  manifest := by
    intro entry member
    rw [List.mem_singleton.mp member]
    exact ⟨(by decide : 0 ∉ ascii "l"),
      (by decide : Tar.typeSymlink ∈ ([0, 48, 53, 50] : List UInt8)),
      (by decide : 511 < 4096), (by decide : 0 < 2 ^ 63), by simp, noNul⟩
  pkgSize := (by decide +kernel :
    (pkgMetaToToml smallPkg).length < 8 ^ 11)
  manifestSize := small
  payloadSize := (by decide : 0 < 8 ^ 11)

/-- The same values, with the defaults for absent texts and a zero type. -/
structure SameUpToDefaults (written opened : Archive) : Prop where
  name : opened.pkg.name = written.pkg.name
  version : opened.pkg.version = written.pkg.version
  release : opened.pkg.release = written.pkg.release
  arch : opened.pkg.arch = written.pkg.arch
  summary : opened.pkg.summary.getD [] = written.pkg.summary.getD []
  license : opened.pkg.license.getD [] = written.pkg.license.getD []
  reproStatus : opened.pkg.reproStatus.getD (ascii "unverified") =
    written.pkg.reproStatus.getD (ascii "unverified")
  reproReason : opened.pkg.reproReason.getD [] =
    written.pkg.reproReason.getD []
  deps : opened.pkg.deps = written.pkg.deps
  conflicts : opened.pkg.conflicts = written.pkg.conflicts
  hooks : opened.pkg.hooks = written.pkg.hooks
  manifest : opened.manifest = written.manifest.map fun entry =>
    { entry with
      typeflag := if entry.typeflag = 0 then 48 else entry.typeflag }
  payload : opened.payload = written.payload

end Archive

end SaltOS
