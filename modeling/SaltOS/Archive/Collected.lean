import SaltOS.Archive.Build
import SaltOS.Base.BelowCalls
import SaltOS.Base.Standing
import SaltOS.Lib.Listing
import SaltOS.Repo.VercmpOrder

/-!
# What is packed

`collect_paths` lists the tree below the staging directory depth first, and
each node of it is packed once.  The order of `readdir` does not show.
-/

namespace SaltOS.Archive

open Lib Util Pkg Bytes Repo

variable {disk : Disk Bytes} {staging : Bytes} {top : Loc}
  {comps : List Name}

/-! ## The paths -/

theorem arranges_sortNames : FileSystem.Arranges sortNames :=
  fun names => List.perm_insertionSort _ names

/-- The order in which names are found does not matter. -/
theorem sortNames_perm {first second : List Bytes}
    (perm : first.Perm second) : sortNames first = sortNames second := by
  have preorder := strcmp_comparesBy.totalPreorder
  have total : Std.Total fun left right => strcmp left right ≤ 0 :=
    ⟨preorder.total⟩
  have trans : IsTrans Bytes fun left right => strcmp left right ≤ 0 :=
    ⟨preorder.trans⟩
  have same : (sortNames first).Perm (sortNames second) :=
    (arranges_sortNames first).trans
      (perm.trans (arranges_sortNames second).symm)
  apply same.eq_of_pairwise _ (List.pairwise_insertionSort _ first)
    (List.pairwise_insertionSort _ second)
  intro left right _ _ ahead behind
  have keys := le_antisymm
    ((strcmp_comparesBy.le_zero_iff left right).mp ahead)
    ((strcmp_comparesBy.le_zero_iff right left).mp behind)
  exact List.map_injective_iff.mpr (fun _ _ => UInt8.toNat_inj.mp) keys

/-- The names that lead to what is below the staging directory. -/
def stagedNames (disk : Disk Bytes) (top : Loc) (fuel : Nat) :
    List (List Name) :=
  disk.fs.listing sortNames top fuel []

theorem names_of_node (exists_ : disk.fs.node? (descend top comps) ≠ none)
    (nonempty : comps ≠ []) : Names comps where
  nonempty := nonempty
  valid comp member := by
    apply FileSystem.validName_of_mem exists_
    rw [descend]
    exact List.mem_append_left _ (List.mem_reverse.mpr member)

/-- The directory that a call of `collect_paths` reads. -/
def dirPath (staging rel : Bytes) : Bytes :=
  if rel ≠ [] then joinPath staging rel else staging

theorem readdir_dirPath (stands : Stands disk staging top)
    (isDir : disk.fs.IsDir (descend top comps)) :
    disk.readdir (dirPath staging (joinSlash comps)) =
      .ok (disk.fs.children (descend top comps)) := by
  by_cases nonempty : comps = []
  · subst nonempty
    have isStaging : dirPath staging (joinSlash []) = staging := rfl
    rw [isStaging, Disk.readdir, stands.resolve, descend_nil]
    dsimp only
    rw [if_pos stands.isDir]
  · obtain ⟨mode, found⟩ := FileSystem.isDir_iff.mp isDir
    have exists_ : disk.fs.node? (descend top comps) ≠ none := by
      simp [found]
    have names := names_of_node exists_ nonempty
    rw [dirPath, if_pos (joinSlash_names_ne_nil names)]
    exact stands.readdir (Under.names stands.nonempty names) names isDir

theorem under_dirPath (nonempty : staging ≠ []) {name : Name}
    (valid : ∀ comp ∈ comps, ValidName comp) (isValid : ValidName name) :
    Under staging (joinPath (dirPath staging (joinSlash comps)) name)
      (comps ++ [name]) := by
  have relative : name.head? ≠ some 47 :=
    fun slash => isValid.2.2.2 (List.mem_of_mem_head? slash)
  have single := components_of_valid isValid
  by_cases atTop : comps = []
  · subst atTop
    have under := Under.joinPath nonempty isValid.1 relative
    rw [single] at under
    exact under
  · have names : Names comps := ⟨atTop, valid⟩
    have under := (Under.names nonempty names).join names isValid.1 relative
    rw [single] at under
    rw [dirPath, if_pos (joinSlash_names_ne_nil names)]
    exact under

/-- The path of an entry, as `collect_paths` puts it together. -/
theorem childRel_eq (valid : ∀ comp ∈ comps, ValidName comp) {name : Name}
    (isValid : ValidName name) :
    (if joinSlash comps ≠ [] then joinPath (joinSlash comps) name
      else name) = joinSlash (comps ++ [name]) := by
  by_cases atTop : comps = []
  · subst atTop
    simp [joinSlash]
  · have names : Names comps := ⟨atTop, valid⟩
    rw [if_pos (joinSlash_names_ne_nil names), joinPath_concat names isValid]

theorem valid_of_isDir (isDir : disk.fs.IsDir (descend top comps)) :
    ∀ comp ∈ comps, ValidName comp := by
  intro comp member
  obtain ⟨mode, found⟩ := FileSystem.isDir_iff.mp isDir
  have exists_ : disk.fs.node? (descend top comps) ≠ none := by
    simp [found]
  exact (names_of_node exists_ (List.ne_nil_of_mem member)).valid comp member

/-- One directory is read, and what is in its directories listed. -/
theorem collectPaths_succ (stands : Stands disk staging top) {fuel : Nat}
    (isDir : disk.fs.IsDir (descend top comps))
    (further : ∀ name, disk.fs.IsDir (descend top (comps ++ [name])) →
      (collectPaths disk staging fuel (joinSlash (comps ++ [name]))).getD [] =
        (disk.fs.listing sortNames top fuel (comps ++ [name])).map
          joinSlash) :
    collectPaths disk staging (fuel + 1) (joinSlash comps) =
      some ((disk.fs.listing sortNames top (fuel + 1) comps).map
        joinSlash) := by
  have valid := valid_of_isDir isDir
  have isRead := readdir_dirPath stands isDir
  unfold dirPath at isRead
  unfold collectPaths
  dsimp only
  rw [isRead]
  dsimp only
  rw [FileSystem.listing, List.map_flatMap]
  congr 1
  apply List.flatMap_congr
  intro name member
  have exists_ := (FileSystem.mem_arranged arranges_sortNames).mp member
  obtain ⟨node, found⟩ := Option.ne_none_iff_exists'.mp exists_
  have names := names_of_node exists_ (by simp)
  have isValid := names.valid name (by simp)
  have looked := stands.lstat_some
    (under_dirPath stands.nonempty valid isValid) names found
  unfold dirPath at looked
  rw [childRel_eq valid isValid, looked, List.map_cons]
  dsimp only
  congr 1
  by_cases nodeIsDir : disk.fs.IsDir (descend top (comps ++ [name]))
  · obtain ⟨mode, isNode⟩ := FileSystem.isDir_iff.mp nodeIsDir
    rw [found] at isNode
    rw [Option.some.inj isNode, Node.isDir, if_pos rfl]
    exact further name nodeIsDir
  · have isLeaf : node.isDir = false := by
      apply Bool.eq_false_of_not_eq_true
      intro isDir
      rw [FileSystem.IsDir, found] at nodeIsDir
      exact nodeIsDir isDir
    rw [isLeaf, if_neg Bool.false_ne_true,
      FileSystem.listing_of_not_dir arranges_sortNames fuel nodeIsDir,
      List.map_nil]

theorem collectPaths_eq (stands : Stands disk staging top) (fuel : Nat)
    (isDir : disk.fs.IsDir (descend top comps)) :
    collectPaths disk staging (fuel + 1) (joinSlash comps) =
      some ((disk.fs.listing sortNames top (fuel + 1) comps).map
        joinSlash) := by
  induction fuel generalizing comps with
  | zero => exact collectPaths_succ stands isDir fun _ _ => rfl
  | succ fuel induction =>
      apply collectPaths_succ stands isDir
      intro name isDir
      rw [induction isDir, Option.getD_some]

/-! ## What is packed for a path -/

/-- What is packed of a node. -/
def packNode (sha256 : Bytes → Bytes) (path : Bytes) : Node Bytes → Packed
  | .dir mode =>
      ⟨⟨path, Tar.typeDir, mode % 4096, 0, none, none⟩,
        ⟨path, Tar.typeDir, mode % 4096, 0, none, none⟩⟩
  | .symlink target =>
      ⟨⟨path, Tar.typeSymlink, 511, 0, some (target.take 1023), none⟩,
        ⟨path, Tar.typeSymlink, 511, 0, none, some (target.take 1023)⟩⟩
  | .file data mode =>
      ⟨⟨path, Tar.typeFile, mode % 4096, data.length, none, some data⟩,
        ⟨path, Tar.typeFile, mode % 4096, data.length, some (sha256 data),
          none⟩⟩

theorem packPath_eq (stands : Stands disk staging top)
    (sha256 : Bytes → Bytes) (names : Names comps) {node : Node Bytes}
    (found : disk.fs.node? (descend top comps) = some node) :
    packPath sha256 disk staging (joinSlash comps) =
      some (packNode sha256 (joinSlash comps) node) := by
  have under := Under.names stands.nonempty names
  unfold packPath
  dsimp only
  rw [stands.lstat_some under names found]
  cases node with
  | dir mode => rfl
  | symlink target =>
      dsimp only
      rw [stands.readlink under names found]
      rfl
  | file data mode =>
      dsimp only
      rw [stands.contents under names found]
      rfl

/-- What is packed of a tree. -/
def packTree (sha256 : Bytes → Bytes) (disk : Disk Bytes) (top : Loc) :
    List Packed :=
  (stagedNames disk top (disk.fs.depth + 1)).filterMap fun comps =>
    (disk.fs.node? (descend top comps)).map
      (packNode sha256 (joinSlash comps))

/-- What `salt_archive_build_from_dir` makes of a staging directory. -/
theorem buildFromDir_eq (stands : Stands disk staging top) (tools : Tools)
    (pkg : PkgMeta) (scriptsDir : Option Bytes) :
    buildFromDir tools disk staging pkg scriptsDir =
      (tools.compress (Tar.writeAll ((packTree tools.sha256 disk top).map
        Packed.entry))).map fun payload =>
          ⟨copyPkg pkg, (packTree tools.sha256 disk top).map Packed.line,
            payload, scriptNames disk scriptsDir⟩ := by
  have isDir : disk.fs.IsDir (descend top []) := stands.isDir
  have collected : collectPaths disk staging (disk.fs.depth + 1) [] =
      some ((stagedNames disk top (disk.fs.depth + 1)).map joinSlash) :=
    collectPaths_eq stands disk.fs.depth isDir
  have packed : ((stagedNames disk top (disk.fs.depth + 1)).map
      joinSlash).filterMap (packPath tools.sha256 disk staging) =
        packTree tools.sha256 disk top := by
    rw [List.filterMap_map, packTree]
    apply List.filterMap_congr
    intro comps member
    obtain ⟨name, rest, isListed, exists_⟩ :=
      FileSystem.below_of_mem_listing arranges_sortNames member
    obtain ⟨node, found⟩ := Option.ne_none_iff_exists'.mp exists_
    have names := names_of_node exists_ (by simp [isListed])
    rw [Function.comp_apply, packPath_eq stands tools.sha256 names found,
      found, Option.map_some]
  unfold buildFromDir
  rw [collected]
  dsimp only
  rw [packed]
  cases tools.compress (Tar.writeAll ((packTree tools.sha256 disk top).map
    Packed.entry)) with
  | none => rfl
  | some payload => rfl

end SaltOS.Archive
