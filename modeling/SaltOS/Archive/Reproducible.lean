import SaltOS.Archive.BuildRoundTrip

/-!
# Archives are reproducible

What `salt_archive_write` makes of a staging directory depends on the tree
below it only: neither where it stands, nor the order in which `readdir`
returns its names, nor what else is on the disk is seen in the bytes.
-/

namespace SaltOS.Archive

open Lib Util Pkg

variable {source other : Disk Bytes} {top base : Loc} {comps : List Name}

/-- The same things lie below two directories. -/
def Alike (tree other : List Name → Option (Node Bytes)) : Prop :=
  ∀ comps, comps ≠ [] → tree comps = other comps

/-- The two directories have the same names, in some order. -/
theorem children_perm
    (alike : Alike (treeOf source top) (treeOf other base)) :
    (source.fs.children (descend top comps)).Perm
      (other.fs.children (descend base comps)) := by
  apply (List.perm_ext_iff_of_nodup
    (FileSystem.nodup_children source.fs _)
    (FileSystem.nodup_children other.fs _)).mpr
  intro name
  have same : source.fs.node? (descend top (comps ++ [name])) =
      other.fs.node? (descend base (comps ++ [name])) :=
    alike (comps ++ [name]) (by simp)
  rw [FileSystem.mem_children, FileSystem.mem_children, ← descend_concat,
    ← descend_concat, same]

/-- The depth of the whole disk is fuel enough. -/
theorem stagedNames_add (more : Nat) :
    stagedNames source top (source.fs.depth + 1 + more) =
      stagedNames source top (source.fs.depth + 1) := by
  apply FileSystem.listing_add arranges_sortNames
  intro rest longer
  by_contra exists_
  have deep := FileSystem.length_le_depth exists_
  simp only [descend, List.nil_append, List.length_append,
    List.length_reverse] at deep
  omega

theorem stagedNames_alike
    (alike : Alike (treeOf source top) (treeOf other base)) :
    stagedNames source top (source.fs.depth + 1) =
      stagedNames other base (other.fs.depth + 1) := by
  calc stagedNames source top (source.fs.depth + 1)
      = stagedNames source top
          (source.fs.depth + 1 + (other.fs.depth + 1)) :=
        (stagedNames_add (other.fs.depth + 1)).symm
    _ = stagedNames other base
          (source.fs.depth + 1 + (other.fs.depth + 1)) :=
        FileSystem.listing_congr
          (fun _ => sortNames_perm (children_perm alike)) _ []
    _ = stagedNames other base
          (other.fs.depth + 1 + (source.fs.depth + 1)) := by
        rw [Nat.add_comm]
    _ = stagedNames other base (other.fs.depth + 1) :=
        stagedNames_add (source.fs.depth + 1)

theorem packTree_alike (sha256 : Bytes → Bytes)
    (alike : Alike (treeOf source top) (treeOf other base)) :
    packTree sha256 source top = packTree sha256 other base := by
  unfold packTree
  rw [← stagedNames_alike alike]
  apply List.filterMap_congr
  intro comps member
  have same : source.fs.node? (descend top comps) =
      other.fs.node? (descend base comps) :=
    alike comps (mem_stagedNames.mp member).1
  rw [same]

/-- Two staging directories with the same tree give the same archive, byte
for byte, wherever they stand. -/
theorem packed_alike {staging elsewhere : Bytes}
    (resolved : source.resolve staging = .ok top)
    (isDir : source.fs.IsDir top)
    (otherResolved : other.resolve elsewhere = .ok base)
    (otherIsDir : other.fs.IsDir base)
    (alike : Alike (treeOf source top) (treeOf other base))
    (tools : Tools) (pkg : PkgMeta) (scriptsDir otherScripts : Option Bytes) :
    (buildFromDir tools source staging pkg scriptsDir).map Archive.write =
      (buildFromDir tools other elsewhere pkg otherScripts).map
        Archive.write := by
  have stands := Stands.of_resolve resolved isDir
  have otherStands := Stands.of_resolve otherResolved otherIsDir
  rw [buildFromDir_eq stands, buildFromDir_eq otherStands,
    packTree_alike tools.sha256 alike, Option.map_map, Option.map_map]
  rfl

/-- The same tree elsewhere, put together in another order. -/
def movedDisk : Disk Bytes :=
  finalState ((do
    mkdirs (ascii "/build/out") 493
    checked "symlink" (ascii "/build/out/hello")
      (Disk.symlink (ascii "bin/hi") (ascii "/build/out/hello"))
    mkdirs (ascii "/build/out/bin") 493
    writeFile (ascii "/build/out/bin/hi") (ascii "hi") 493 :
      EStateM Failure (Disk Bytes) Unit) ⟨.bare Bytes, [], []⟩)

def movedTop : Loc := [ascii "out", ascii "build"]

/-- Trees are compared where something is. -/
theorem alike_of_staged
    (names : stagedNames source top (source.fs.depth + 1) =
      stagedNames other base (other.fs.depth + 1))
    (nodes : ∀ comps ∈ stagedNames source top (source.fs.depth + 1),
      treeOf source top comps = treeOf other base comps) :
    Alike (treeOf source top) (treeOf other base) := by
  intro comps nonempty
  by_cases exists_ : treeOf source top comps = none
  · rw [exists_]
    by_contra otherExists
    have member : comps ∈ stagedNames other base (other.fs.depth + 1) :=
      mem_stagedNames.mpr ⟨nonempty, Ne.symm otherExists⟩
    rw [← names] at member
    exact (mem_stagedNames.mp member).2 exists_
  · exact nodes comps (mem_stagedNames.mpr ⟨nonempty, exists_⟩)

theorem moved_alike :
    (buildFromDir plainTools helloDisk (ascii "/stage") smallPkg none).map
      Archive.write =
    (buildFromDir plainTools movedDisk (ascii "/build/out") smallPkg
      (some (ascii "/build"))).map Archive.write := by
  have resolved : helloDisk.resolve (ascii "/stage") = .ok helloTop ∧
      helloDisk.fs.IsDir helloTop := by
    decide +kernel
  have otherResolved : movedDisk.resolve (ascii "/build/out") =
      .ok movedTop ∧ movedDisk.fs.IsDir movedTop := by
    decide +kernel
  have alike : Alike (treeOf helloDisk helloTop)
      (treeOf movedDisk movedTop) :=
    alike_of_staged (by decide +kernel) (by decide +kernel)
  generalize helloDisk = source at *
  generalize movedDisk = other at *
  exact packed_alike resolved.1 resolved.2 otherResolved.1 otherResolved.2
    alike plainTools smallPkg none (some (ascii "/build"))

end SaltOS.Archive
