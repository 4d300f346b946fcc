import Mathlib.Data.List.Sort
import SaltOS.Archive.Grain
import SaltOS.Base.Util

/-!
# Packing a directory

`collect_paths` and `salt_archive_build_from_dir` of
`src/halite/src/archive.c`.

Nothing changes the staging directory while it is packed.  What zstd and
SHA-256 make of a text is a parameter.  A regular file can be read, and
`lstat` gives a symbolic link the mode 0777.
-/

namespace SaltOS.Archive

open Lib Util Pkg Bytes

/-- The sorting loops of `collect_paths`. -/
def sortNames (names : List Bytes) : List Bytes :=
  names.insertionSort fun left right => strcmp left right ≤ 0

/-- `collect_paths`; the fuel bounds the depth of the tree. -/
def collectPaths (disk : Disk Bytes) (root : Bytes) :
    Nat → Bytes → Option (List Bytes)
  | 0, _ => none
  | fuel + 1, rel =>
      let dirPath := if rel ≠ [] then joinPath root rel else root
      match disk.readdir dirPath with
      | .error _ => none
      | .ok names =>
          some ((sortNames names).flatMap fun name =>
            let childRel := if rel ≠ [] then joinPath rel name else name
            match disk.lstat (joinPath dirPath name) with
            | .error _ => []
            | .ok node =>
                childRel ::
                  -- Whether this succeeds is not looked at.
                  (if node.isDir then
                    (collectPaths disk root fuel childRel).getD []
                  else []))

/-- What is packed, and the line of the manifest about it. -/
structure Packed where
  entry : Tar.Entry
  line : ManifestEntry

structure Tools where
  compress : Bytes → Option Bytes
  sha256 : Bytes → Bytes

/-- The loop body of `salt_archive_build_from_dir`. -/
def packPath (sha256 : Bytes → Bytes) (disk : Disk Bytes)
    (staging path : Bytes) : Option Packed :=
  let full := joinPath staging path
  match disk.lstat full with
  | .error _ => none
  | .ok (.dir mode) =>
      some ⟨⟨path, Tar.typeDir, mode % 4096, 0, none, none⟩,
        ⟨path, Tar.typeDir, mode % 4096, 0, none, none⟩⟩
  | .ok (.symlink _) =>
      match disk.readlink full with
      | .error _ => none
      | .ok whole =>
          let target := whole.take 1023
          some ⟨⟨path, Tar.typeSymlink, 511, 0, some target, none⟩,
            ⟨path, Tar.typeSymlink, 511, 0, none, some target⟩⟩
  | .ok (.file _ mode) =>
      match disk.contents full with
      | .error _ => none
      | .ok data =>
          some ⟨⟨path, Tar.typeFile, mode % 4096, data.length, none,
              some data⟩,
            ⟨path, Tar.typeFile, mode % 4096, data.length,
              some (sha256 data), none⟩⟩

/-- The metadata of the archive, with the defaults of absent texts. -/
def copyPkg (pkg : PkgMeta) : PkgMeta :=
  { pkg with
    summary := some (pkg.summary.getD [])
    license := some (pkg.license.getD [])
    reproStatus := some (pkg.reproStatus.getD (ascii "unverified")) }

/-- The names of the scripts that are not hidden. -/
def scriptNames (disk : Disk Bytes) (scriptsDir : Option Bytes) :
    List Bytes :=
  match scriptsDir with
  | none => []
  | some dir =>
      if isDir disk dir then
        match disk.readdir dir with
        | .error _ => []
        | .ok names => names.filter fun name => name.head? ≠ some 46
      else []

/-- `salt_archive_build_from_dir`. -/
def buildFromDir (tools : Tools) (disk : Disk Bytes) (staging : Bytes)
    (pkg : PkgMeta) (scriptsDir : Option Bytes) : Option Archive :=
  match collectPaths disk staging (disk.fs.depth + 1) [] with
  | none => none
  | some paths =>
      let packed := paths.filterMap (packPath tools.sha256 disk staging)
      match tools.compress (Tar.writeAll (packed.map Packed.entry)) with
      | none => none
      | some payload =>
          some ⟨copyPkg pkg, packed.map Packed.line, payload,
            scriptNames disk scriptsDir⟩

end SaltOS.Archive
