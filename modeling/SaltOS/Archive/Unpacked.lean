import SaltOS.Archive.Collected
import SaltOS.Archive.TarConfined
import SaltOS.Archive.TarFitting
import SaltOS.Base.Confinement
import SaltOS.Base.Planting

/-!
# Extraction into a directory

Entries whose directories come first are put where their names lead, when
nothing is in the way and the environment causes no faults.
-/

namespace SaltOS.Tar

open Lib Util Archive

variable {γ : Type} {disk : Disk γ} {dest full : Bytes} {bottom : Loc}
  {comps : List Name}

/-! ## Paths of names -/

theorem stripDotSlash_names (names : Names comps) :
    stripDotSlash (joinSlash comps) = joinSlash comps := by
  have noDot : (joinSlash comps).take 2 ≠ [46, 47] := by
    intro dotSlash
    have whole := List.take_append_drop 2 (joinSlash comps)
    have same := components_names names
    rw [dotSlash] at whole
    rw [← whole, List.cons_append, List.cons_append, List.nil_append,
      ← List.singleton_append, components_append_slash] at same
    have member : [46] ∈ comps := by
      rw [← same]
      exact List.mem_append_left _ (by decide)
    exact (names.valid _ member).2.1 rfl
  unfold stripDotSlash
  cases (joinSlash comps).length with
  | zero => rfl
  | succ fuel => rw [stripLoop, if_neg noDot]

theorem pathIsConfined_names (names : Names comps) :
    pathIsConfined (joinSlash comps) = true := by
  rw [pathIsConfined_iff, components_names names]
  refine ⟨joinSlash_names_ne_nil names, head?_names names, ?_, ?_⟩
  · intro isUp
    exact (names.valid _ isUp).2.2.1 rfl
  · obtain ⟨first, rest, isComps⟩ :=
      List.exists_cons_of_ne_nil names.nonempty
    have member : first ∈ comps := by
      rw [isComps]
      exact List.mem_cons_self
    have valid := names.valid first member
    exact ⟨first, member, valid.1, valid.2.1⟩

/-! ## The checks of the parent -/

theorem confineParent_run (stands : Stands disk dest bottom)
    (under : Under dest full comps) (names : Names comps)
    (isDir : disk.fs.IsDir (descend bottom comps.dropLast))
    (quiet : disk.faults = []) :
    confineParent dest full disk = .ok () disk := by
  have isRoot := stands.resolve
  unfold confineParent
  by_cases noParent : joinSlash (components full).dropLast = []
  · have isCut : cutLast full = none := by
      rw [cutLast, if_pos noParent]
    have within := pathWithinRoot_of_suffix isRoot isRoot
      (List.suffix_refl bottom)
    rw [isCut]
    refine (bind_run (get_run disk)).trans ?_
    rw [if_pos within]
    rfl
  · have isCut : cutLast full =
        some (joinSlash (components full).dropLast) := by
      rw [cutLast, if_neg noParent]
    have resolved := resolve_of_leads_cut
      (stands.leads_front under names isDir) (List.dropLast_prefix _) noParent
    have within := pathWithinRoot_of_suffix isRoot resolved
      (suffix_descend bottom comps.dropLast)
    have ancestor : existingAncestorWithin disk dest
        (joinSlash (components full).dropLast) = true := by
      obtain ⟨nonempty, leads⟩ := Disk.resolve_eq_ok_iff.mp resolved
      obtain ⟨node, looked⟩ := lstat_of_leads nonempty leads
      have positive := List.length_pos_of_ne_nil
        (components_ne_nil (joinSlash (components full).dropLast))
      obtain ⟨fuel, isLength⟩ := Nat.exists_eq_succ_of_ne_zero
        (Nat.ne_of_gt positive)
      rw [existingAncestorWithin, isLength, ancestorLoop, looked]
      exact within
    rw [isCut]
    refine (bind_run (get_run disk)).trans ?_
    rw [if_pos ancestor]
    refine (bind_run (mkdirs_exists quiet resolved 493)).trans ?_
    refine (bind_run (get_run disk)).trans ?_
    rw [if_pos within]
    rfl

/-! ## One entry -/

/-- What extraction makes of a packed node: without any permission it gets
the usual ones. -/
def restored (stored : Bytes → γ) : Node Bytes → Node γ
  | .dir mode => .dir (if mode % 4096 = 0 then 493 else mode % 4096)
  | .file data mode =>
      .file (stored data) (if mode % 4096 = 0 then 420 else mode % 4096)
  | .symlink target => .symlink target

/-- A link name that is packed as a whole. -/
def WholeLink : Node Bytes → Prop
  | .symlink target => target ≠ [] ∧ target.length ≤ 1023
  | _ => True

theorem extractDir_run (vacant : Util.Vacant disk bottom comps)
    (stands : Stands disk dest bottom) (under : Under dest full comps)
    (quiet : disk.faults = []) (mode : Nat) :
    extractDir dest full mode disk =
      .ok () (plant disk bottom comps (.dir mode)) := by
  have stays : leavesRoot disk dest full = false := by
    rw [leavesRoot, vacant.lstat stands under]
  unfold extractDir
  refine (bind_run (get_run disk)).trans ?_
  rw [if_neg (by rw [stays]; exact Bool.false_ne_true)]
  exact vacant.mkdirs stands under quiet mode

theorem extractSymlink_run (vacant : Util.Vacant disk bottom comps)
    (stands : Stands disk dest bottom) (under : Under dest full comps)
    (quiet : disk.faults = []) {target : Bytes} (hasTarget : target ≠ []) :
    extractSymlink full target disk =
      .ok () (plant disk bottom comps (.symlink target)) := by
  have unlinked : unlinkLeaf full disk = .ok () disk := by
    have noLeaf : isLeaf disk full = false := by
      rw [isLeaf, vacant.lstat stands under]
    unfold unlinkLeaf
    refine (bind_run (get_run disk)).trans ?_
    rw [if_neg (by rw [noLeaf]; exact Bool.false_ne_true)]
    rfl
  have linked : Disk.symlink target full disk =
      .ok () (plant disk bottom comps (.symlink target)) := by
    rw [Disk.symlink,
      call_of_ok quiet (vacant.symlinkPlan_ok stands under hasTarget),
      tick_plant quiet]
  unfold extractSymlink
  exact (bind_run unlinked).trans (checked_run linked)

/-- A packed entry is put where its names lead. -/
theorem extractCb_run (vacant : Util.Vacant disk bottom comps)
    (stands : Stands disk dest bottom) (quiet : disk.faults = [])
    (stored : Bytes → γ) (sha256 : Bytes → Bytes) {node : Node Bytes}
    (whole : WholeLink node) :
    extractCb stored dest
        (packNode sha256 (joinSlash comps) node).entry.reported disk =
      .ok () (plant disk bottom comps (restored stored node)) := by
  have names := vacant.names
  have under := Under.names stands.nonempty names
  have confined := confineParent_run stands under names vacant.isDir quiet
  unfold extractCb
  cases node with
  | dir mode =>
      simp only [packNode, Entry.reported, stripDotSlash_names names,
        pathIsConfined_names names, if_true]
      refine (bind_run confined).trans ?_
      exact extractDir_run vacant stands under quiet _
  | symlink target =>
      simp only [packNode, Entry.reported, stripDotSlash_names names,
        pathIsConfined_names names, if_true]
      refine (bind_run confined).trans ?_
      rw [Option.getD_some, Option.getD_some, List.take_of_length_le whole.2]
      exact extractSymlink_run vacant stands under quiet whole.1
  | file data mode =>
      simp only [packNode, Entry.reported, stripDotSlash_names names,
        pathIsConfined_names names, if_true]
      refine (bind_run confined).trans ?_
      rw [if_neg (by decide), if_neg (by decide), if_pos (Or.inl trivial),
        Option.getD_some]
      exact vacant.writeFile stands under quiet _ _

/-! ## The whole tree -/

/-- The part of a tree that has been put below a directory; elsewhere
everything is as it was. -/
structure Restored (stored : Bytes → γ) (tree : List Name → Option (Node Bytes))
    (bottom : Loc) (done : Set (List Name)) (before after : Disk γ) :
    Prop where
  cwd : after.cwd = before.cwd
  quiet : after.faults = []
  outside : ∀ loc, ¬ StrictlyBelow bottom loc →
    after.fs.node? loc = before.fs.node? loc
  put : ∀ comps, comps ≠ [] → comps ∈ done →
    after.fs.node? (descend bottom comps) =
      (tree comps).map (restored stored)
  empty : ∀ comps, comps ≠ [] → comps ∉ done →
    after.fs.node? (descend bottom comps) = none

variable {stored : Bytes → γ} {tree : List Name → Option (Node Bytes)}
  {done : Set (List Name)} {before after : Disk γ}

namespace Restored

/-- Nothing is put below an empty directory. -/
theorem refl (quiet : disk.faults = [])
    (isEmpty : disk.fs.children bottom = []) :
    Restored stored tree bottom {[]} disk disk where
  cwd := rfl
  quiet := quiet
  outside _ _ := rfl
  put _ nonempty isNil := absurd isNil nonempty
  empty _ nonempty _ := FileSystem.absent_below_empty isEmpty nonempty

theorem rooted (restored : Restored stored tree bottom done before after)
    (rooted : Rooted before dest bottom) : Rooted after dest bottom :=
  rooted.of_outside restored.cwd restored.outside

/-- The directory of the next entry is there, and the entry is not. -/
theorem vacant (restored : Restored stored tree bottom done before after)
    (names : Names comps) (new : comps ∉ done)
    (parentDone : comps.dropLast ∈ done)
    (topIsDir : before.fs.IsDir bottom)
    (parentIsDir : comps.dropLast ≠ [] →
      ∃ mode, tree comps.dropLast = some (.dir mode)) :
    Vacant after bottom comps where
  names := names
  isDir := by
    by_cases atTop : comps.dropLast = []
    · rw [atTop, descend_nil, FileSystem.IsDir,
        restored.outside bottom fun below => below.2 rfl]
      exact topIsDir
    · obtain ⟨mode, isNode⟩ := parentIsDir atTop
      rw [FileSystem.IsDir, restored.put _ atTop parentDone, isNode]
      rfl
  absent := restored.empty comps names.nonempty new

theorem plant (restored : Restored stored tree bottom done before after)
    (vacant : Vacant after bottom comps) {node : Node Bytes}
    (isNode : tree comps = some node) :
    Restored stored tree bottom (insert comps done) before
      (Util.plant after bottom comps (Tar.restored stored node)) where
  cwd := restored.cwd
  quiet := restored.quiet
  outside loc away := by
    rw [vacant.node?_plant, if_neg]
    · exact restored.outside loc away
    · rintro rfl
      exact away (strictlyBelow_descend vacant.names.nonempty)
  put other nonempty isDone := by
    rw [vacant.node?_plant]
    by_cases same : other = comps
    · rw [same, if_pos rfl, isNode, Option.map_some]
    · rw [if_neg (fun isSame => same (descend_inj.mp isSame))]
      exact restored.put other nonempty (isDone.resolve_left same)
  empty other nonempty notDone := by
    obtain ⟨differs, notBefore⟩ := not_or.mp notDone
    rw [vacant.node?_plant,
      if_neg (fun isSame => differs (descend_inj.mp isSame))]
    exact restored.empty other nonempty notBefore

end Restored

/-- The entries of a part of a tree, as they are read. -/
def readEntries (sha256 : Bytes → Bytes)
    (tree : List Name → Option (Node Bytes)) (listed : List (List Name)) :
    List Entry :=
  ((listed.filterMap fun comps =>
    (tree comps).map (packNode sha256 (joinSlash comps))).map
      Packed.entry).map Entry.reported

/-- A list of names for which something is packed. -/
structure Packable (tree : List Name → Option (Node Bytes))
    (comps : List Name) : Prop where
  names : Names comps
  node : ∃ node, tree comps = some node ∧ WholeLink node
  parent : comps.dropLast ≠ [] →
    ∃ mode, tree comps.dropLast = some (.dir mode)

/-- Each entry is put where its names lead, one after the other. -/
theorem extractEntries_run (rooted : Rooted disk dest bottom)
    (sha256 : Bytes → Bytes) {listed : List (List Name)} {now : Disk γ}
    (soFar : Restored stored tree bottom done disk now)
    (ordered : ParentsFirst done listed) (distinct : listed.Nodup)
    (new : ∀ comps ∈ listed, comps ∉ done)
    (packable : ∀ comps ∈ listed, Packable tree comps) :
    ∃ after, (readEntries sha256 tree listed).forM (extractCb stored dest)
        now = .ok () after ∧
      Restored stored tree bottom (done ∪ { comps | comps ∈ listed }) disk
        after := by
  induction listed generalizing done now with
  | nil =>
      refine ⟨now, rfl, ?_⟩
      simpa using soFar
  | cons comps listed induction =>
      obtain ⟨parentDone, ordered⟩ := ordered
      obtain ⟨notLater, distinct⟩ := List.nodup_cons.mp distinct
      obtain ⟨isNew, newLater⟩ := List.forall_mem_cons.mp new
      obtain ⟨isPackable, packableLater⟩ := List.forall_mem_cons.mp packable
      obtain ⟨node, isNode, whole⟩ := isPackable.node
      have vacant := soFar.vacant isPackable.names isNew parentDone
        rooted.isDir isPackable.parent
      have put := extractCb_run vacant (soFar.rooted rooted).stands
        soFar.quiet stored sha256 whole
      have newThen : ∀ other ∈ listed, other ∉ insert comps done := by
        intro other member isDone
        obtain rfl | before := isDone
        · exact notLater member
        · exact newLater other member before
      obtain ⟨after, runs, restored⟩ := induction (soFar.plant vacant isNode)
        ordered distinct newThen packableLater
      refine ⟨after, ?_, ?_⟩
      · have split : readEntries sha256 tree (comps :: listed) =
            (packNode sha256 (joinSlash comps) node).entry.reported ::
              readEntries sha256 tree listed := by
          unfold readEntries
          rw [List.filterMap_cons_some (by rw [isNode]; rfl)]
          rfl
        rw [split]
        exact (bind_run put).trans runs
      · have same : insert comps done ∪ { other | other ∈ listed } =
            done ∪ { other | other ∈ comps :: listed } := by
          ext other
          simp only [Set.mem_union, Set.mem_insert_iff, Set.mem_ofPred_eq,
            List.mem_cons]
          rw [or_assoc, or_left_comm]
        rw [← same]
        exact restored

end SaltOS.Tar
