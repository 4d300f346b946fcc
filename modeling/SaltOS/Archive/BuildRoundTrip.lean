import SaltOS.Archive.Unpacked
import SaltOS.Txn.Txn

/-!
# A packed directory is unpacked again

What `salt_archive_build_from_dir` packs and `salt_archive_write` writes is,
once it is opened and extracted into an empty directory, the staging
directory again, and the manifest lists exactly what is in it.
-/

namespace SaltOS.Archive

open Lib Util Pkg

variable {source : Disk Bytes} {staging : Bytes} {top : Loc}
  {sha256 : Bytes → Bytes} {comps : List Name}

/-- What is at the names below a directory. -/
def treeOf (disk : Disk Bytes) (top : Loc) (comps : List Name) :
    Option (Node Bytes) :=
  disk.fs.node? (descend top comps)

/-- A file or link that fits its record in the archive. -/
def NodeFits : Node Bytes → Prop
  | .dir _ => True
  | .file data _ => data.length < 8 ^ 11
  | .symlink target => target ≠ [] ∧ 0 ∉ target ∧ target.length ≤ 100

instance : DecidablePred NodeFits
  | .dir _ => inferInstanceAs (Decidable True)
  | .file _ _ => inferInstanceAs (Decidable (_ < _))
  | .symlink _ => inferInstanceAs (Decidable (_ ∧ _ ∧ _))

/-- A path that fits its record. -/
def PathFits (path : Bytes) : Prop :=
  0 ∉ path ∧ path.length + 1 < 8 ^ 11

instance (path : Bytes) : Decidable (PathFits path) :=
  inferInstanceAs (Decidable (_ ∧ _))

/-- All that is below a directory can be packed. -/
structure Stageable (tree : List Name → Option (Node Bytes)) : Prop where
  paths : ∀ comps, comps ≠ [] → tree comps ≠ none →
    PathFits (joinSlash comps)
  nodes : ∀ comps node, tree comps = some node → NodeFits node

/-! ## The listing of a tree -/

theorem mem_stagedNames :
    comps ∈ stagedNames source top (source.fs.depth + 1) ↔
      comps ≠ [] ∧ treeOf source top comps ≠ none := by
  constructor
  · intro member
    obtain ⟨name, rest, isListed, exists_⟩ :=
      FileSystem.below_of_mem_listing arranges_sortNames member
    exact ⟨by simp [isListed], exists_⟩
  · intro given
    obtain ⟨nonempty, exists_⟩ := given
    obtain ⟨name, rest, rfl⟩ := List.exists_cons_of_ne_nil nonempty
    have deep := FileSystem.length_le_depth exists_
    have short : rest.length < source.fs.depth + 1 := by
      simp only [descend, List.length_append, List.length_reverse,
        List.length_cons] at deep
      omega
    have member : [] ++ name :: rest ∈
        source.fs.listing sortNames top (source.fs.depth + 1) [] :=
      FileSystem.mem_listing arranges_sortNames short exists_
    exact member

theorem names_of_tree (nonempty : comps ≠ [])
    (exists_ : treeOf source top comps ≠ none) : Names comps :=
  names_of_node exists_ nonempty

/-- The entries of the listing can be packed as a whole. -/
theorem packable_of_stageable (stageable : Stageable (treeOf source top)) :
    ∀ comps ∈ stagedNames source top (source.fs.depth + 1),
      Tar.Packable (treeOf source top) comps := by
  intro comps member
  obtain ⟨nonempty, exists_⟩ := mem_stagedNames.mp member
  obtain ⟨node, isNode⟩ := Option.ne_none_iff_exists'.mp exists_
  constructor
  · exact names_of_tree nonempty exists_
  · refine ⟨node, isNode, ?_⟩
    cases node with
    | dir mode => trivial
    | file data mode => trivial
    | symlink target =>
        obtain ⟨hasTarget, -, short⟩ := stageable.nodes comps _ isNode
        exact ⟨hasTarget, by omega⟩
  · intro _
    apply FileSystem.isDir_iff.mp
    apply FileSystem.isDir_of_cut exists_ (List.dropLast_prefix _)
    intro same
    have lengths := congrArg List.length same
    have positive := List.length_pos_of_ne_nil nonempty
    rw [List.length_dropLast] at lengths
    omega

theorem mem_packTree {packed : Packed} :
    packed ∈ packTree sha256 source top ↔
      ∃ comps node, comps ≠ [] ∧ treeOf source top comps = some node ∧
        packed = packNode sha256 (joinSlash comps) node := by
  rw [packTree, List.mem_filterMap]
  constructor
  · intro given
    obtain ⟨comps, member, isPacked⟩ := given
    obtain ⟨node, isNode, rfl⟩ := Option.map_eq_some_iff.mp isPacked
    exact ⟨comps, node, (mem_stagedNames.mp member).1, isNode, rfl⟩
  · intro given
    obtain ⟨comps, node, nonempty, isNode, isPacked⟩ := given
    have exists_ : treeOf source top comps ≠ none := by simp [isNode]
    refine ⟨comps, mem_stagedNames.mpr ⟨nonempty, exists_⟩, ?_⟩
    rw [isPacked]
    exact Option.map_eq_some_iff.mpr ⟨node, isNode, rfl⟩

/-- What is packed of a tree that fits can be written and read. -/
theorem packTree_fits (stageable : Stageable (treeOf source top)) :
    ∀ entry ∈ (packTree sha256 source top).map Packed.entry,
      entry.Valid ∧ entry.Fits := by
  intro entry member
  obtain ⟨packed, isPacked, rfl⟩ := List.mem_map.mp member
  obtain ⟨comps, node, nonempty, isNode, rfl⟩ := mem_packTree.mp isPacked
  have exists_ : treeOf source top comps ≠ none := by simp [isNode]
  obtain ⟨noNul, fits⟩ := stageable.paths comps nonempty exists_
  have named := joinSlash_names_ne_nil (names_of_tree nonempty exists_)
  cases node with
  | dir mode =>
      have low : mode % 4096 ≤ 4095 := by omega
      refine ⟨⟨named, noNul, low, .dir rfl rfl rfl rfl⟩, fits, ?_⟩
      intro link isLink
      cases isLink
  | symlink target =>
      obtain ⟨-, noNulLink, short⟩ := stageable.nodes comps _ isNode
      have whole : target.take 1023 = target :=
        List.take_of_length_le (by omega)
      have kind : (packNode sha256 (joinSlash comps)
          (.symlink target)).entry.HasKind :=
        .symlink target rfl rfl rfl (congrArg some whole) noNulLink
      refine ⟨⟨named, noNul, (by decide : 511 ≤ 4095), kind⟩, fits, ?_⟩
      intro link isLink
      obtain rfl : target.take 1023 = link := Option.some.inj isLink
      rw [whole]
      exact short
  | file data mode =>
      have small : data.length < 8 ^ 11 := stageable.nodes comps _ isNode
      have low : mode % 4096 ≤ 4095 := by omega
      refine ⟨⟨named, noNul, low, .file data rfl rfl rfl small rfl⟩, fits,
        ?_⟩
      intro link isLink
      cases isLink

theorem read_packTree (stageable : Stageable (treeOf source top)) :
    Tar.read (Tar.writeAll ((packTree sha256 source top).map
      Packed.entry)) =
      ⟨Tar.readEntries sha256 (treeOf source top)
        (stagedNames source top (source.fs.depth + 1)), .complete⟩ :=
  Tar.read_writeAll_fitting
    (fun entry member => (packTree_fits stageable entry member).1)
    (fun entry member => (packTree_fits stageable entry member).2)

/-! ## Extraction -/

section

variable {γ : Type} {disk before after : Disk γ} {dest : Bytes}
  {bottom : Loc} {stored : Bytes → γ}

/-- Below the directory is the tree, and elsewhere everything is as it
was. -/
structure Unpacked (stored : Bytes → γ)
    (tree : List Name → Option (Node Bytes)) (bottom : Loc)
    (before after : Disk γ) : Prop where
  put : ∀ comps, comps ≠ [] → after.fs.node? (descend bottom comps) =
    (tree comps).map (Tar.restored stored)
  outside : ∀ loc, ¬ StrictlyBelow bottom loc →
    after.fs.node? loc = before.fs.node? loc

/-- The tree is extracted into an empty directory. -/
theorem extract_packTree (stageable : Stageable (treeOf source top))
    (rooted : Rooted disk dest bottom) (quiet : disk.faults = [])
    (isEmpty : disk.fs.children bottom = []) (sha256 : Bytes → Bytes) :
    ∃ after, Tar.extract stored (Tar.writeAll
        ((packTree sha256 source top).map Packed.entry)) dest disk =
        .ok () after ∧
      Unpacked stored (treeOf source top) bottom disk after := by
  have ordered : ParentsFirst {[]}
      (stagedNames source top (source.fs.depth + 1)) :=
    FileSystem.parentsFirst_listing _ (Set.mem_singleton [])
  have distinct : (stagedNames source top (source.fs.depth + 1)).Nodup :=
    FileSystem.nodup_listing arranges_sortNames _ []
  have new : ∀ comps ∈ stagedNames source top (source.fs.depth + 1),
      comps ∉ ({[]} : Set (List Name)) :=
    fun comps member => (mem_stagedNames.mp member).1
  have nothing : Tar.Restored stored (treeOf source top) bottom {[]} disk
      disk :=
    .refl quiet isEmpty
  obtain ⟨after, runs, restored⟩ := Tar.extractEntries_run rooted sha256
    nothing ordered distinct new (packable_of_stageable stageable)
  refine ⟨after, ?_, ?_⟩
  · have made := mkdirs_exists quiet rooted.stands.resolve 493
    unfold Tar.extract
    refine (bind_run made).trans ?_
    rw [read_packTree stageable]
    exact (bind_run runs).trans rfl
  · constructor
    · intro comps nonempty
      by_cases exists_ : treeOf source top comps = none
      · rw [exists_, Option.map_none]
        apply restored.empty comps nonempty
        rintro (isNil | member)
        · exact nonempty isNil
        · exact (mem_stagedNames.mp member).2 exists_
      · exact restored.put comps nonempty
          (Or.inr (mem_stagedNames.mpr ⟨nonempty, exists_⟩))
    · exact restored.outside

end

/-! ## The manifest -/

/-- The manifest has one line for each node below the directory. -/
structure Describes (sha256 : Bytes → Bytes)
    (tree : List Name → Option (Node Bytes)) (manifest : Manifest) :
    Prop where
  distinct : (manifest.map ManifestEntry.path).Nodup
  lines : ∀ line, line ∈ manifest ↔ ∃ comps node, comps ≠ [] ∧
    tree comps = some node ∧
    line = (packNode sha256 (joinSlash comps) node).line

theorem packNode_path (sha256 : Bytes → Bytes) (path : Bytes)
    (node : Node Bytes) : (packNode sha256 path node).line.path = path := by
  cases node with
  | dir mode => rfl
  | symlink target => rfl
  | file data mode => rfl

theorem packTree_paths (sha256 : Bytes → Bytes) (source : Disk Bytes)
    (top : Loc) :
    ((packTree sha256 source top).map Packed.line).map ManifestEntry.path =
      (stagedNames source top (source.fs.depth + 1)).map joinSlash := by
  have exists_ : ∀ comps ∈ stagedNames source top (source.fs.depth + 1),
      treeOf source top comps ≠ none :=
    fun comps member => (mem_stagedNames.mp member).2
  unfold packTree
  generalize stagedNames source top (source.fs.depth + 1) = listed at *
  induction listed with
  | nil => rfl
  | cons comps listed induction =>
      obtain ⟨here, later⟩ := List.forall_mem_cons.mp exists_
      obtain ⟨node, isNode⟩ := Option.ne_none_iff_exists'.mp here
      unfold treeOf at isNode
      rw [List.filterMap_cons_some (by rw [isNode]; rfl), List.map_cons,
        List.map_cons, List.map_cons, induction later, packNode_path]

theorem packTree_describes (sha256 : Bytes → Bytes) :
    Describes sha256 (treeOf source top)
      ((packTree sha256 source top).map Packed.line) where
  distinct := by
    rw [packTree_paths]
    apply List.Nodup.map_on _
      (FileSystem.nodup_listing arranges_sortNames _ _)
    intro first isFirst second isSecond same
    obtain ⟨firstNonempty, firstExists⟩ := mem_stagedNames.mp isFirst
    obtain ⟨secondNonempty, secondExists⟩ := mem_stagedNames.mp isSecond
    rw [← components_names (names_of_tree firstNonempty firstExists), same,
      components_names (names_of_tree secondNonempty secondExists)]
  lines line := by
    rw [List.mem_map]
    constructor
    · intro given
      obtain ⟨packed, member, isLine⟩ := given
      obtain ⟨comps, node, nonempty, isNode, rfl⟩ := mem_packTree.mp member
      exact ⟨comps, node, nonempty, isNode, isLine.symm⟩
    · intro given
      obtain ⟨comps, node, nonempty, isNode, isLine⟩ := given
      exact ⟨_, mem_packTree.mpr ⟨comps, node, nonempty, isNode, rfl⟩,
        isLine.symm⟩

/-- The digits of a hash. -/
def IsHex (digest : Bytes) : Prop :=
  digest ≠ [] ∧ ∀ byte ∈ digest, isLowerHex byte = true

/-- The lines are well formed, and reading them changes nothing. -/
theorem packTree_lines (stageable : Stageable (treeOf source top))
    (hex : ∀ data, IsHex (sha256 data)) :
    ∀ line ∈ (packTree sha256 source top).map Packed.line,
      line.WellFormed ∧ line.readBack = line := by
  intro line member
  obtain ⟨comps, node, nonempty, isNode, rfl⟩ :=
    ((packTree_describes sha256).lines line).mp member
  have exists_ : treeOf source top comps ≠ none := by simp [isNode]
  obtain ⟨noNul, -⟩ := stageable.paths comps nonempty exists_
  have types : Tar.typeDir ∈ ([0, 48, 53, 50] : List UInt8) ∧
      Tar.typeSymlink ∈ ([0, 48, 53, 50] : List UInt8) ∧
      Tar.typeFile ∈ ([0, 48, 53, 50] : List UInt8) := by decide
  have noSize : 0 < 2 ^ 63 := by decide
  cases node with
  | dir mode =>
      refine ⟨⟨noNul, types.1, Nat.mod_lt _ (by decide), noSize, ?_, ?_⟩, rfl⟩
      · intro byte inNone
        cases inNone
      · exact List.not_mem_nil
  | symlink target =>
      obtain ⟨hasTarget, noNulLink, short⟩ :=
        stageable.nodes comps _ isNode
      have whole : target.take 1023 = target :=
        List.take_of_length_le (by omega)
      simp only [packNode, whole]
      refine ⟨⟨noNul, types.2.1, (by decide : 511 < 4096), noSize, ?_,
        noNulLink⟩, ?_⟩
      · intro byte inNone
        cases inNone
      · simp [ManifestEntry.readBack, hasTarget, Tar.typeSymlink]
  | file data mode =>
      have small : data.length < 8 ^ 11 := stageable.nodes comps _ isNode
      refine ⟨⟨noNul, types.2.2, Nat.mod_lt _ (by decide), ?_, (hex data).2,
        List.not_mem_nil⟩, ?_⟩
      · exact Nat.lt_trans small (by decide)
      · simp [packNode, ManifestEntry.readBack, (hex data).1, Tar.typeFile]

/-! ## Round trip -/

/-- The members fit their tar headers. -/
structure MembersFit (archive : Archive) : Prop where
  pkg : (pkgMetaToToml archive.pkg).length < 8 ^ 11
  manifest : (manifestToToml archive.manifest).length < 8 ^ 11
  payload : archive.payload.length < 8 ^ 11

theorem copyPkg_wellFormed {pkg : PkgMeta} (wellFormed : pkg.WellFormed) :
    (copyPkg pkg).WellFormed where
  name := wellFormed.name
  version := wellFormed.version
  releaseLow := wellFormed.releaseLow
  releaseHigh := wellFormed.releaseHigh
  arch := wellFormed.arch
  summary := wellFormed.summary
  license := wellFormed.license
  reproStatus := by
    have given := wellFormed.reproStatus
    cases isStatus : pkg.reproStatus with
    | none =>
        rw [copyPkg, isStatus]
        exact (by decide : 0 ∉ ascii "unverified")
    | some text =>
        rw [isStatus] at given
        rw [copyPkg, isStatus]
        exact given
  reproReason := wellFormed.reproReason
  deps := wellFormed.deps
  conflicts := wellFormed.conflicts
  hooks := wellFormed.hooks

/-- In an empty directory nothing is passed through on the way to it. -/
theorem rooted_of_empty {γ : Type} {disk : Disk γ} {dest : Bytes}
    {bottom : Loc} (resolved : disk.resolve dest = .ok bottom)
    (isDir : disk.fs.IsDir bottom)
    (isEmpty : disk.fs.children bottom = []) : Rooted disk dest bottom := by
  have stands := Stands.of_resolve resolved isDir
  have same : lookAround disk.fs bottom = disk.fs.node? := by
    funext loc
    by_cases below : StrictlyBelow bottom loc
    · obtain ⟨⟨front, rfl⟩, differs⟩ := below
      have nonempty : front.reverse ≠ [] := by
        intro isEmpty
        rw [List.reverse_eq_nil_iff.mp isEmpty] at differs
        exact differs rfl
      have absent := FileSystem.absent_below_empty isEmpty nonempty
      rw [descend, List.reverse_reverse] at absent
      rw [lookAround_eq.1 ⟨List.suffix_append _ _, differs⟩, absent]
    · exact lookAround_eq.2 below
  refine ⟨stands.nonempty, ?_, isDir⟩
  rw [same]
  exact stands.leads

/-- A staging directory with a program and a link to it. -/
def helloDisk : Disk Bytes :=
  finalState ((do
    mkdirs (ascii "/stage/bin") 493
    writeFile (ascii "/stage/bin/hi") (ascii "hi") 493
    checked "symlink" (ascii "/stage/hello")
      (Disk.symlink (ascii "bin/hi") (ascii "/stage/hello")) :
      EStateM Failure (Disk Bytes) Unit) ⟨.bare Bytes, [], []⟩)

def helloTop : Loc := [ascii "stage"]

/-- Tools that do not compress at all. -/
def plainTools : Tools where
  compress := some
  sha256 _ := List.replicate 64 48

def plainUnpacker : Host where
  decompress := .ok
  image _ := []
  btrfs := none

theorem helloDisk_stageable : Stageable (treeOf helloDisk helloTop) := by
  have checked : ∀ entry ∈ helloDisk.fs.nodes.entries,
      PathFits (joinSlash entry.1.dropLast.reverse) ∧ NodeFits entry.2 := by
    decide +kernel
  generalize helloDisk = source at *
  have entryOf : ∀ comps node, treeOf source helloTop comps = some node →
      PathFits (joinSlash comps) ∧ NodeFits node := by
    intro comps node isNode
    have both := checked _ (AList.mem_lookup_iff.mp isNode)
    have names : (descend helloTop comps).dropLast.reverse = comps := by
      simp [descend, helloTop]
    dsimp only at both
    rw [names] at both
    exact both
  constructor
  · intro comps _ exists_
    obtain ⟨node, isNode⟩ := Option.ne_none_iff_exists'.mp exists_
    exact (entryOf comps node isNode).1
  · exact fun comps node isNode => (entryOf comps node isNode).2

/-- Without compression, packing always succeeds. -/
theorem plainTools_builds (stands : Stands source staging top) (pkg : PkgMeta)
    (fits : MembersFit ⟨copyPkg pkg,
      (packTree plainTools.sha256 source top).map Packed.line,
      Tar.writeAll ((packTree plainTools.sha256 source top).map
        Packed.entry), []⟩) :
    ∃ archive, buildFromDir plainTools source staging pkg none =
      some archive ∧ MembersFit archive := by
  rw [buildFromDir_eq stands]
  exact ⟨_, rfl, fits⟩

end SaltOS.Archive
