import SaltOS.Deploy.Gc
import SaltOS.Deploy.Prune
import SaltOS.Lock.Lock

/-!
# What garbage collection keeps

The sweep of the cache removes plain files only, and none under a name that it
has collected.  These names come from the installed packages and the databases
of the generations that stay, but not from the lockfile.
-/

namespace SaltOS.Deploy

open Lib Disk Txn Util

/-! ## The sweep -/

/-- Plain files under other names may have gone. -/
structure Swept (keep : List Bytes) (before after : Disk Content) : Prop where
  cwd : after.cwd = before.cwd
  nodes : ∀ loc, after.fs.node? loc = before.fs.node? loc ∨
    (∃ content mode, before.fs.node? loc = some (.file content mode)) ∧
      after.fs.node? loc = none ∧ ∀ name ∈ keep, loc.head? ≠ some name

namespace Swept

variable {keep : List Bytes} {before middle after : Disk Content}

theorem refl (disk : Disk Content) : Swept keep disk disk :=
  ⟨rfl, fun _ => .inl rfl⟩

theorem trans (first : Swept keep before middle)
    (second : Swept keep middle after) : Swept keep before after := by
  refine ⟨second.cwd.trans first.cwd, ?_⟩
  intro loc
  rcases first.nodes loc with same | ⟨isFile, gone, other⟩
  · rw [← same]
    exact second.nodes loc
  · refine .inr ⟨isFile, ?_, other⟩
    rcases second.nodes loc with same | ⟨-, alsoGone, -⟩
    · rw [same, gone]
    · exact alsoGone

/-- What is gone does not come back. -/
theorem gone (swept : Swept keep before after) {loc : Loc}
    (absent : before.fs.node? loc = none) : after.fs.node? loc = none := by
  rcases swept.nodes loc with same | ⟨-, isGone, -⟩
  · rw [same, absent]
  · exact isGone

theorem kept (swept : Swept keep before after) {name : Lib.Name}
    {parent : Loc} (member : name ∈ keep) :
    after.fs.node? (name :: parent) = before.fs.node? (name :: parent) := by
  rcases swept.nodes (name :: parent) with same | ⟨-, -, other⟩
  · exact same
  · exact absurd rfl (other name member)

theorem isDir (swept : Swept keep before after) {loc : Loc}
    (isDir : before.fs.IsDir loc) : after.fs.IsDir loc := by
  rcases swept.nodes loc with same | ⟨⟨content, mode, isFile⟩, -, -⟩
  · rwa [FileSystem.IsDir, same]
  · rw [FileSystem.IsDir, isFile] at isDir
    cases isDir

/-- Directories are found where they were. -/
theorem resolve (swept : Swept keep before after) {path : Bytes} {loc : Loc}
    (isDir : before.fs.IsDir loc)
    (resolved : before.resolve path = .ok loc) :
    after.resolve path = .ok loc := by
  obtain ⟨nonempty, links, within, walked⟩ := resolve_eq_ok_iff.mp resolved
  refine resolve_eq_ok_iff.mpr ⟨nonempty, links, within, ?_⟩
  rw [swept.cwd]
  apply walked.mono isDir
  · intro other
    exact swept.isDir
  · intro other target found
    rcases swept.nodes other with same | ⟨⟨content, mode, isFile⟩, -, -⟩
    · rw [same, found]
    · rw [isFile] at found
      cases found

end Swept

/-! ## Entries of a directory -/

section

variable {disk : Disk Content} {dir : Bytes} {name : Lib.Name} {parent : Loc}

theorem components_entry (isPath : DirPath dir) (valid : ValidName name) :
    components (joinPath dir name) = components dir ++ [name] := by
  have relative : name.head? ≠ some 47 := fun slash =>
    valid.2.2.2 (List.mem_of_mem_head? slash)
  rw [components_joinPath isPath.nonempty valid.1 relative,
    components_of_valid valid, dirFront, if_neg isPath.noTrailing]

theorem slot_entry (isPath : DirPath dir) (valid : ValidName name)
    {found : Loc} {last : Lib.Name}
    (isSlot : disk.slot (joinPath dir name)
      (components (joinPath dir name)) = .ok (found, last)) :
    disk.resolve dir = .ok found ∧ last = name := by
  obtain ⟨⟨links, within, walked⟩, -, isLast⟩ := slot_eq_ok isSlot
  rw [components_entry isPath valid] at walked isLast
  rw [List.dropLast_concat, baseOf_joinPath isPath.nonempty] at walked
  rw [List.getLastD_concat] at isLast
  exact ⟨resolve_eq_ok_iff.mpr ⟨isPath.nonempty, links, within, walked⟩,
    isLast.symm⟩

theorem lstat_entry (isPath : DirPath dir) (valid : ValidName name)
    {node : Lib.Node Content}
    (looked : disk.lstat (joinPath dir name) = .ok node) :
    ∃ parent, disk.resolve dir = .ok parent ∧
      disk.fs.node? (name :: parent) = some node := by
  unfold lstat at looked
  split at looked
  · cases looked
  · split at looked
    · cases looked
    next found last isSlot =>
      obtain ⟨resolved, rfl⟩ := slot_entry isPath valid isSlot
      have notUp : last ≠ dotDot := valid.2.2.1
      rw [entryLoc, if_neg valid.notDot, if_neg notUp] at looked
      split at looked
      · cases looked
      next other isNode =>
        cases looked
        exact ⟨found, resolved, isNode⟩

theorem lstat_of_entry (isPath : DirPath dir) (valid : ValidName name)
    {node : Lib.Node Content} (resolved : disk.resolve dir = .ok parent)
    (found : disk.fs.node? (name :: parent) = some node) :
    disk.lstat (joinPath dir name) = .ok node := by
  obtain ⟨nonempty, links, within, walked⟩ := resolve_eq_ok_iff.mp resolved
  have isSlot : disk.slot (joinPath dir name)
      (components (joinPath dir name)) = .ok (parent, name) := by
    have isDirectory : disk.fs.IsDir parent :=
      FileSystem.isDir_parent (found ▸ Option.some_ne_none node)
    rw [components_entry isPath valid]
    have slot := @slot_of_walk _ disk (joinPath dir name)
      (components dir ++ [name]) parent links within
    rw [List.dropLast_concat, baseOf_joinPath isPath.nonempty,
      List.getLastD_concat] at slot
    exact slot walked isDirectory
  have notUp : name ≠ dotDot := valid.2.2.1
  have notEmpty : joinPath dir name ≠ [] := by
    intro empty
    have parts := components_entry isPath valid
    rw [empty] at parts
    have lengths := congrArg List.length parts
    have positive := List.length_pos_of_ne_nil (components_ne_nil dir)
    simp [components] at lengths
  unfold lstat
  rw [if_neg notEmpty, isSlot]
  simp only [entryLoc, if_neg valid.notDot, if_neg notUp, found]

theorem stat_dir (resolved : disk.resolve dir = .ok parent)
    (isDirectory : disk.fs.IsDir parent) : Util.isDir disk dir = true := by
  obtain ⟨mode, found⟩ := FileSystem.isDir_iff.mp isDirectory
  simp [Util.isDir, stat, resolved, found, Node.isDir]

variable {keep : List Bytes} {dryRun : Bool}

theorem unlink_swept (isPath : DirPath dir) (valid : ValidName name)
    (notKept : name ∉ keep) {content : Content} {mode : Nat}
    (looked : disk.lstat (joinPath dir name) = .ok (.file content mode)) :
    Ends (Disk.unlink (joinPath dir name) disk)
      (fun _ after => Swept keep disk after ∧
        ∀ parent, disk.resolve dir = .ok parent →
          after.fs.node? (name :: parent) = none)
      (fun _ after => Swept keep disk after) := by
  obtain ⟨parent, resolved, isFile⟩ := lstat_entry isPath valid looked
  refine call_ends.mono ?_ ?_
  · rintro _ _ ⟨fs, planned, rfl⟩
    obtain ⟨slotParent, last, replaced, -⟩ := unlinkPlan_ok planned
    obtain ⟨alsoResolved, rfl⟩ := slot_entry isPath valid replaced.isSlot
    rw [resolved] at alsoResolved
    cases alsoResolved
    have looks : ∀ loc, fs.node? loc =
        if loc = last :: parent then none else disk.fs.node? loc := by
      intro loc
      rw [replaced.result, FileSystem.node?_replace replaced.replaceable]
    refine ⟨⟨rfl, ?_⟩, ?_⟩
    · intro loc
      by_cases isEntry : loc = last :: parent
      · refine .inr ⟨⟨content, mode, isEntry ▸ isFile⟩, ?_, ?_⟩
        · rw [Disk.tick, looks, if_pos isEntry]
        · intro other member sameHead
          rw [isEntry] at sameHead
          exact notKept (Option.some.inj sameHead ▸ member)
      · exact .inl (by rw [Disk.tick, looks, if_neg isEntry])
    · intro other otherResolved
      rw [resolved] at otherResolved
      cases otherResolved
      rw [Disk.tick, looks, if_pos rfl]
  · rintro errno _ ⟨rfl, -⟩
    exact ⟨rfl, fun _ => .inl rfl⟩

/-- Where an entry has been swept in earnest, no plain file is left. -/
theorem sweepEntry_ends (isPath : DirPath dir) (valid : ValidName name)
    (notKept : name ∉ keep) :
    Ends (sweepEntry dryRun dir name disk)
      (fun _ after => Swept keep disk after ∧
        ∀ parent content mode, dryRun = false →
          disk.resolve dir = .ok parent →
          disk.fs.node? (name :: parent) = some (.file content mode) →
          after.fs.node? (name :: parent) = none)
      (fun _ after => Swept keep disk after) := by
  unfold sweepEntry
  refine Ends.bindOk rfl ?_
  have noFile : (∀ content mode,
      disk.lstat (joinPath dir name) ≠ .ok (.file content mode)) →
      Swept keep disk disk ∧ ∀ parent content mode, dryRun = false →
        disk.resolve dir = .ok parent →
        disk.fs.node? (name :: parent) = some (.file content mode) →
        disk.fs.node? (name :: parent) = none := by
    intro otherwise
    refine ⟨Swept.refl disk, fun parent content mode _ resolved found => ?_⟩
    exact absurd (lstat_of_entry isPath valid resolved found)
      (otherwise content mode)
  rcases looked : disk.lstat (joinPath dir name) with
    errno | (mode | ⟨content, mode⟩ | target)
  · exact noFile fun _ _ same => by simp [looked] at same
  · exact noFile fun _ _ same => by simp [looked] at same
  · have unlinked := @unlink_swept disk dir name keep isPath valid notKept
      content mode looked
    cases dryRun with
    | true =>
        exact ⟨Swept.refl disk, fun _ _ _ notDry => by cases notDry⟩
    | false =>
        apply Ends.attempted unlinked
        · intro _ after done
          exact ⟨done.1, fun parent _ _ _ resolved _ =>
            done.2 parent resolved⟩
        · intro _ after swept
          exact swept
  · exact noFile fun _ _ same => by simp [looked] at same

/-! ## The cache -/

theorem sweepCacheDir_ends (isPath : DirPath dir) (keep : List Bytes)
    (dryRun : Bool) :
    Ends (sweepCacheDir (some keep) dryRun dir disk)
      (fun _ after => Swept keep disk after ∧
        ∀ name parent content mode, name ∉ keep → dryRun = false →
          disk.resolve dir = .ok parent →
          disk.fs.node? (name :: parent) = some (.file content mode) →
          after.fs.node? (name :: parent) = none)
      (fun _ after => Swept keep disk after) := by
  unfold sweepCacheDir
  refine Ends.bindOk rfl ?_
  cases listed : disk.readdir dir with
  | error errno =>
      refine ⟨Swept.refl disk, ?_⟩
      intro name parent content mode _ _ resolved found
      have isDirectory : disk.fs.IsDir parent :=
        FileSystem.isDir_parent (found ▸ Option.some_ne_none _)
      simp [readdir, resolved, isDirectory] at listed
  | ok names =>
      have valid := validName_of_readdir listed
      -- A plain file is still ahead, or it is gone.
      let pending (rest : List Lib.Name) (now : Disk Content) : Prop :=
        Swept keep disk now ∧ (∀ name ∈ rest, ValidName name) ∧
          ∀ name parent content mode, name ∉ keep → dryRun = false →
            disk.resolve dir = .ok parent →
            disk.fs.node? (name :: parent) = some (.file content mode) →
            name ∈ rest ∨ now.fs.node? (name :: parent) = none
      have initial : pending names disk := by
        refine ⟨Swept.refl disk, valid, ?_⟩
        intro name parent content mode _ _ resolved found
        have isDirectory : disk.fs.IsDir parent :=
          FileSystem.isDir_parent (found ▸ Option.some_ne_none _)
        simp only [readdir, resolved, isDirectory, if_true,
          Except.ok.injEq] at listed
        rw [← listed, FileSystem.mem_children]
        exact .inl (found ▸ Option.some_ne_none _)
      have looped : Ends (names.forM (fun name =>
          if (some keep).any (·.contains name) then pure ()
          else sweepEntry dryRun dir name) disk)
          (fun _ now => pending [] now) (fun _ now => Swept keep disk now) := by
        apply Ends.forM initial
        rintro entry rest now ⟨swept, restValid, ahead⟩
        have laterValid : ∀ name ∈ rest, ValidName name :=
          fun name member => restValid name (List.mem_cons_of_mem _ member)
        apply Ends.ite
        · intro isKept
          refine ⟨swept, laterValid, ?_⟩
          intro name parent content mode notKept notDry resolved found
          rcases ahead name parent content mode notKept notDry resolved
            found with inList | gone
          · rcases List.mem_cons.mp inList with rfl | later
            · simp [notKept] at isKept
            · exact .inl later
          · exact .inr gone
        · intro notContained
          have notKept : entry ∉ keep := by simpa using notContained
          have isValid := restValid entry List.mem_cons_self
          refine (sweepEntry_ends isPath isValid notKept).mono ?_
            fun _ _ more => swept.trans more
          rintro _ after ⟨more, drops⟩
          refine ⟨swept.trans more, laterValid, ?_⟩
          intro name parent content mode notKept notDry resolved found
          rcases ahead name parent content mode notKept notDry resolved
            found with inList | gone
          · rcases List.mem_cons.mp inList with rfl | later
            · have isDirectory : disk.fs.IsDir parent :=
                FileSystem.isDir_parent (found ▸ Option.some_ne_none _)
              rcases swept.nodes (name :: parent) with same | ⟨-, gone, -⟩
              · exact .inr (drops parent content mode notDry
                  (swept.resolve isDirectory resolved) (same.trans found))
              · exact .inr (more.gone gone)
            · exact .inl later
          · exact .inr (more.gone gone)
      refine looped.mono ?_ fun _ _ swept => swept
      rintro _ after ⟨swept, -, ahead⟩
      refine ⟨swept, ?_⟩
      intro name parent content mode notKept notDry resolved found
      rcases ahead name parent content mode notKept notDry resolved found with
        inNone | gone
      · cases inNone
      · exact gone

/-- A plain file in a directory of the cache, other than that of the
strata. -/
structure InArch (disk : Disk Content) (root : Bytes) (sub name : Lib.Name)
    (parent : Loc) : Prop where
  swept : sub ≠ ascii "strata"
  dir : disk.resolve (joinPath (cacheDir root) sub) = .ok parent
  file : ∃ content mode,
    disk.fs.node? (name :: parent) = some (.file content mode)

theorem InArch.isDir {root : Bytes} {sub : Lib.Name}
    (inArch : InArch disk root sub name parent) : disk.fs.IsDir parent := by
  obtain ⟨content, mode, found⟩ := inArch.file
  exact FileSystem.isDir_parent (found ▸ Option.some_ne_none _)

/-- While the file is there it is found as before. -/
theorem InArch.same {root : Bytes} {sub : Lib.Name} {now : Disk Content}
    (inArch : InArch disk root sub name parent) (swept : Swept keep disk now)
    (same : now.fs.node? (name :: parent) = disk.fs.node? (name :: parent)) :
    InArch now root sub name parent := by
  obtain ⟨content, mode, found⟩ := inArch.file
  exact ⟨inArch.swept, swept.resolve inArch.isDir inArch.dir, content, mode,
    same.trans found⟩

theorem sweepArch_ends (keep : List Bytes) (dryRun : Bool) (root : Bytes)
    {sub : Lib.Name} (valid : ValidName sub) :
    Ends (sweepArch (some keep) dryRun root sub disk)
      (fun _ after => Swept keep disk after ∧
        ∀ name parent, name ∉ keep → dryRun = false →
          InArch disk root sub name parent →
          after.fs.node? (name :: parent) = none)
      (fun _ after => Swept keep disk after) := by
  unfold sweepArch
  apply Ends.ite
  · intro isStrata
    exact ⟨Swept.refl disk, fun _ _ _ _ inArch =>
      absurd isStrata inArch.swept⟩
  · intro _
    refine Ends.bindOk rfl ?_
    apply Ends.ite
    · intro _
      refine (sweepCacheDir_ends (DirPath.entry _ valid) keep dryRun).mono ?_
        fun _ _ swept => swept
      rintro _ after ⟨swept, drops⟩
      refine ⟨swept, ?_⟩
      intro name parent notKept notDry inArch
      obtain ⟨content, mode, found⟩ := inArch.file
      exact drops name parent content mode notKept notDry inArch.dir found
    · intro noDirectory
      refine ⟨Swept.refl disk, ?_⟩
      intro name parent _ _ inArch
      exact absurd (stat_dir inArch.dir inArch.isDir) noDirectory

theorem sweepCache_ends (keep : List Bytes) (dryRun : Bool) (root : Bytes) :
    Ends (sweepCache (some keep) dryRun root disk)
      (fun _ after => Swept keep disk after ∧
        ∀ sub name cacheLoc parent, name ∉ keep → dryRun = false →
          disk.resolve (cacheDir root) = .ok cacheLoc →
          disk.fs.node? (sub :: cacheLoc) ≠ none →
          InArch disk root sub name parent →
          after.fs.node? (name :: parent) = none)
      (fun _ after => Swept keep disk after) := by
  unfold sweepCache
  refine Ends.bindOk rfl ?_
  cases listed : disk.readdir (cacheDir root) with
  | error errno =>
      refine ⟨Swept.refl disk, ?_⟩
      intro sub name cacheLoc parent _ _ cache exists_ _
      simp [readdir, cache, FileSystem.isDir_parent exists_] at listed
  | ok names =>
      have valid := validName_of_readdir listed
      let pending (rest : List Lib.Name) (now : Disk Content) : Prop :=
        Swept keep disk now ∧ (∀ name ∈ rest, ValidName name) ∧
          ∀ sub name cacheLoc parent, name ∉ keep → dryRun = false →
            disk.resolve (cacheDir root) = .ok cacheLoc →
            disk.fs.node? (sub :: cacheLoc) ≠ none →
            InArch disk root sub name parent →
            sub ∈ rest ∨ now.fs.node? (name :: parent) = none
      have initial : pending names disk := by
        refine ⟨Swept.refl disk, valid, ?_⟩
        intro sub name cacheLoc parent _ _ cache exists_ _
        simp only [readdir, cache, FileSystem.isDir_parent exists_, if_true,
          Except.ok.injEq] at listed
        rw [← listed, FileSystem.mem_children]
        exact .inl exists_
      have looped : Ends (names.forM (sweepArch (some keep) dryRun root) disk)
          (fun _ now => pending [] now) (fun _ now => Swept keep disk now) := by
        apply Ends.forM initial
        rintro entry rest now ⟨swept, restValid, ahead⟩
        have laterValid : ∀ name ∈ rest, ValidName name :=
          fun name member => restValid name (List.mem_cons_of_mem _ member)
        refine (sweepArch_ends keep dryRun root
          (restValid entry List.mem_cons_self)).mono ?_
          fun _ _ more => swept.trans more
        rintro _ after ⟨more, drops⟩
        refine ⟨swept.trans more, laterValid, ?_⟩
        intro sub name cacheLoc parent notKept notDry cache exists_ inArch
        rcases ahead sub name cacheLoc parent notKept notDry cache exists_
          inArch with inList | gone
        · rcases List.mem_cons.mp inList with rfl | later
          · rcases swept.nodes (name :: parent) with same | ⟨-, gone, -⟩
            · exact .inr (drops name parent notKept notDry
                (inArch.same swept same))
            · exact .inr (more.gone gone)
          · exact .inl later
        · exact .inr (more.gone gone)
      refine looped.mono ?_ fun _ _ swept => swept
      rintro _ after ⟨swept, -, ahead⟩
      refine ⟨swept, ?_⟩
      intro sub name cacheLoc parent notKept notDry cache exists_ inArch
      rcases ahead sub name cacheLoc parent notKept notDry cache exists_
        inArch with inNone | gone
      · cases inNone
      · exact gone

end

/-! ## What is referred to -/

theorem mem_foldl_pushNew {names seen : List Bytes} {name : Bytes} :
    name ∈ names.foldl pushNew seen ↔ name ∈ seen ∨ name ∈ names := by
  induction names generalizing seen with
  | nil => simp
  | cons first rest induction =>
      have pushed : name ∈ pushNew seen first ↔ name ∈ seen ∨ name = first := by
        unfold pushNew
        split
        next known =>
          constructor
          · exact .inl
          · rintro (inSeen | rfl)
            · exact inSeen
            · exact known
        · simp
      rw [List.foldl_cons, induction, pushed, List.mem_cons, or_assoc]

/-- The artifact of a package of the database. -/
def ArtifactOf (db : Db) (name : Bytes) : Prop :=
  ∃ row ∈ db.tables.packages, row.filename = some name

theorem mem_filenames_iff {db : Db} {name : Bytes} :
    name ∈ filenames db ↔ ArtifactOf db name ∧ name ≠ [] := by
  unfold filenames ArtifactOf
  simp only [List.mem_filterMap, Db.listInstalled, List.mem_insertionSort,
    Option.filter_eq_some_iff, decide_eq_true_eq]
  constructor
  · rintro ⟨row, member, isName, nonempty⟩
    exact ⟨⟨row, member, isName⟩, nonempty⟩
  · rintro ⟨⟨row, member, isName⟩, nonempty⟩
    exact ⟨row, member, isName, nonempty⟩

/-- The name is recorded for an installed package or for one in the saved
database of a generation that stays. -/
def Recorded (root : Bytes) (world : World) (kept : List Nat)
    (name : Bytes) : Prop :=
  ArtifactOf world.db name ∨
    ∃ id ∈ kept, ∃ bytes db,
      world.disk.contents (beforePath root id) = .ok ⟨bytes, some db⟩ ∧
        ArtifactOf db name

theorem mem_snapshotFilenames_iff {disk : Disk Content} {path name : Bytes}
    (nonempty : name ≠ []) :
    name ∈ (if pathExists disk path then snapshotFilenames disk path
      else []) ↔
      ∃ bytes db, disk.contents path = .ok ⟨bytes, some db⟩ ∧
        ArtifactOf db name := by
  have exists_ : ∀ content, disk.contents path = .ok content →
      pathExists disk path = true := by
    intro content found
    unfold contents at found
    unfold pathExists
    split at found
    · cases found
    next looked => rw [looked]
    · cases found
  constructor
  · intro member
    split at member
    · unfold snapshotFilenames at member
      split at member
      next bytes db found =>
        exact ⟨bytes, db, found, (mem_filenames_iff.mp member).1⟩
      · cases member
    · cases member
  · rintro ⟨bytes, db, found, artifact⟩
    rw [if_pos (exists_ _ found), snapshotFilenames, found]
    exact mem_filenames_iff.mpr ⟨artifact, nonempty⟩

theorem mem_referenced_iff {root : Bytes} {world : World} {kept : List Nat}
    {name : Bytes} (nonempty : name ≠ []) :
    name ∈ referenced root world kept ↔ Recorded root world kept name := by
  unfold referenced Recorded
  simp only [mem_foldl_pushNew, List.not_mem_nil, false_or, List.mem_append,
    List.mem_flatMap, mem_snapshotFilenames_iff nonempty, mem_filenames_iff,
    nonempty, ne_eq, not_false_eq_true, and_true]

/-! ## Pruning generations -/

section

variable {world : World} {root : Bytes} {stateTop snapTop : Loc}
  {host : GcHost} {opts : GcOpts}

theorem metaPinned_ends (id : Nat) {bad : Failure → World → Prop} :
    Ends (metaPinned id world)
      (fun _ after => after.db = world.db ∧ after.disk = world.disk) bad := by
  have begun : Ends ((attempt ensureSchema : Io (Except Failure Unit)) world)
      (fun _ after => after.db = world.db ∧ after.disk = world.disk) bad := by
    apply Ends.attempt
    unfold ensureSchema Sql.update Sql.statement
    split <;> exact ⟨rfl, rfl⟩
  apply Ends.bind begun
  intro schema between same
  cases schema with
  | error failure => exact same
  | ok => exact same

theorem keptGenerations_ends (host : GcHost) (opts : GcOpts) (newest : Nat)
    (okSeen : Nat) (rows : List TxnRow) {bad : Failure → World → Prop} :
    Ends (keptGenerations host opts newest okSeen rows world)
      (fun _ after => after.db = world.db ∧ after.disk = world.disk) bad := by
  induction rows generalizing okSeen world with
  | nil => exact ⟨rfl, rfl⟩
  | cons row rows induction =>
      unfold keptGenerations
      apply Ends.bind (metaPinned_ends row.id)
      rintro pinned between ⟨db, disk⟩
      apply Ends.bind (induction _)
      rintro others after ⟨laterDb, laterDisk⟩
      exact ⟨laterDb.trans db, laterDisk.trans disk⟩

/-- Deleting a snapshot changes only what is below the snapshot directory. -/
def DeletesBelow (delete : DeleteSubvolume) (root : Bytes) (snapTop : Loc) :
    Prop :=
  ∀ name before after,
    delete (snapshotDir root ++ [47] ++ name) before = some after →
      SameOutside [snapTop] before after

theorem removeTree_sameOutside {tops : List Loc} {disk : Disk Content}
    (state : Aside tops disk (stateDir root) stateTop)
    (member : stateTop ∈ tops) (id : Nat) :
    EndsIn (removeTree (txnStateDir root id) disk)
      (SameOutside tops disk) := by
  have rooted := state.rooted member (dirPath_stateDir root).noTrailing
  have plain : Plain disk.fs stateTop [txnName id] := by
    have here : Plain disk.fs stateTop [] := by
      intro cut target isCut proper
      exact absurd (List.prefix_nil.mp isCut) proper
    exact plain_child here rooted.isDir
  apply Ends.bindOk rfl
  refine (rooted.removeRecursive_ends _ (under_txn root id) (names_txn id)
    plain).endsIn ?_ ?_ <;>
  · intro _ after changes
    exact SameOutside.of_changes member changes

theorem pruneGeneration_sameOutside
    (deletes : DeletesBelow host.delete root snapTop)
    (state : Aside [stateTop, snapTop] world.disk (stateDir root) stateTop)
    (row : TxnRow) :
    EndsIn (pruneGeneration host opts root row world) fun after =>
      SameOutside [stateTop, snapTop] world.disk after.disk := by
  apply Ends.ite
  · intro _
    exact SameOutside.refl world.disk
  · intro _
    have deleted : EndsIn (deleteSnapshot host root row world)
        fun after => SameOutside [stateTop, snapTop] world.disk after.disk := by
      unfold deleteSnapshot
      extract_lets name path
      split
      · split
        next disk isGone =>
          exact (deletes _ _ _ isGone).mono (List.subset_cons_self _ _)
        · exact SameOutside.refl world.disk
      · exact SameOutside.refl world.disk
    apply Ends.bind deleted
    intro _ between same
    have removed := removeTree_sameOutside (state.same same)
      List.mem_cons_self row.id
    apply Ends.bind ((onDisk_endsIn removed).mono
      (fun _ after both => same.trans both.1)
      (fun _ after both => same.trans both.1))
    intro _ later sameLater
    apply Ends.through (fun _ after => after.disk = later.disk)
      (Ends.ignore (Sql.update_disk _ _ _))
    intro _ finished sameDisk
    refine Ends.ignore ((Sql.update_disk _ _ _).endsIn ?_ ?_) <;>
    · intro _ after alsoSame
      rwa [alsoSame, sameDisk]

theorem pruneOthers_sameOutside
    (deletes : DeletesBelow host.delete root snapTop)
    (state : Aside [stateTop, snapTop] world.disk (stateDir root) stateTop)
    (kept : List Nat) (rows : List TxnRow) :
    EndsIn (pruneOthers host opts root kept rows world) fun after =>
      SameOutside [stateTop, snapTop] world.disk after.disk := by
  let unchanged (after : World) : Prop :=
    SameOutside [stateTop, snapTop] world.disk after.disk
  have begun : unchanged world := SameOutside.refl world.disk
  apply Ends.forM_mem begun
  intro row _ before same
  apply Ends.ite
  · intro _
    exact same
  · intro _
    refine (pruneGeneration_sameOutside deletes (state.same same)
      row).mono ?_ ?_ <;>
    · intro _ after more
      exact same.trans more

end

/-! ## The collector -/

/-- A plain file of the cache, which is reached aside from the state
directories and the snapshots. -/
structure Cached (tops : List Loc) (disk : Disk Content) (root : Bytes)
    (sub name : Lib.Name) (parent : Loc) : Prop where
  listed : ∃ cacheLoc, Aside tops disk (cacheDir root) cacheLoc ∧
    Outside tops (sub :: cacheLoc) ∧ disk.fs.node? (sub :: cacheLoc) ≠ none
  swept : sub ≠ ascii "strata"
  dir : Aside tops disk (joinPath (cacheDir root) sub) parent
  outside : Outside tops (name :: parent)
  file : ∃ content mode,
    disk.fs.node? (name :: parent) = some (.file content mode)

theorem Cached.same {tops : List Loc} {before after : Disk Content}
    {root : Bytes} {sub name : Lib.Name} {parent : Loc}
    (cached : Cached tops before root sub name parent)
    (same : SameOutside tops before after) :
    Cached tops after root sub name parent := by
  obtain ⟨cacheLoc, aside, outside, exists_⟩ := cached.listed
  obtain ⟨content, mode, found⟩ := cached.file
  refine ⟨⟨cacheLoc, aside.same same, outside, ?_⟩, cached.swept,
    cached.dir.same same, cached.outside, content, mode, ?_⟩
  · rwa [same.nodes _ outside]
  · rwa [same.nodes _ cached.outside]

/-- The generations that a run of the collector keeps. -/
def keptOf (host : GcHost) (opts : GcOpts) (world : World) : List Nat :=
  match chooseKept host opts (deployments world.db) world with
  | .ok kept _ => kept
  | .error _ _ => []

/-- The name is in the lockfile. -/
def Locked (lock : Lock.LockFile) (name : Bytes) : Prop :=
  ∃ entry ∈ lock.native, entry.filename = name

section

variable (host : GcHost) (opts : GcOpts) (root : Bytes) (tops : List Loc)
  (lock : Lock.LockFile) (world : World)

/-- Nothing that is referred to has gone from the cache. -/
def KeepsReferenced (after : World) : Prop :=
  ∀ sub name parent, Cached tops world.disk root sub name parent →
    Recorded root world (keptOf host opts world) name ∨ Locked lock name →
    after.disk.fs.node? (name :: parent) =
      world.disk.fs.node? (name :: parent)

/-- What the lockfile refers to is also recorded, if it is in the cache. -/
def LockRecorded : Prop :=
  ∀ sub name parent, Cached tops world.disk root sub name parent →
    Locked lock name → Recorded root world (keptOf host opts world) name

end

section

variable {host : GcHost} {opts : GcOpts} {root : Bytes}
  {stateTop snapTop : Loc} {world : World}

theorem referenced_congr {after : World} (db : after.db = world.db)
    (disk : after.disk = world.disk) (kept : List Nat) :
    referenced root after kept = referenced root world kept := by
  unfold referenced
  rw [db, disk]

/-- What the two halves of a run do to the cache. -/
theorem gcRun_ends (deletes : DeletesBelow host.delete root snapTop)
    (state : Aside [stateTop, snapTop] world.disk (stateDir root) stateTop) :
    Ends (gcRun host opts root world)
      (fun _ after => ∃ middle,
        SameOutside [stateTop, snapTop] world.disk middle ∧
        Swept (referenced root world (keptOf host opts world)) middle
          after.disk ∧
        ∀ sub name parent, opts.dryRun = false →
          name ∉ referenced root world (keptOf host opts world) →
          Cached [stateTop, snapTop] middle root sub name parent →
          after.disk.fs.node? (name :: parent) = none)
      (fun _ after => ∃ middle,
        SameOutside [stateTop, snapTop] world.disk middle ∧
        Swept (referenced root world (keptOf host opts world)) middle
          after.disk) := by
  have chosen : Ends (chooseKept host opts (deployments world.db) world)
      (fun _ after => after.db = world.db ∧ after.disk = world.disk)
      (fun _ _ => False) := keptGenerations_ends host opts _ 0 _
  apply Ends.bindOk rfl
  cases outcome : chooseKept host opts (deployments world.db) world with
  | error failure after =>
      rw [outcome] at chosen
      exact chosen.elim
  | ok kept between =>
      rw [outcome] at chosen
      obtain ⟨sameDb, sameDisk⟩ := chosen
      have isKept : keptOf host opts world = kept := by
        unfold keptOf
        rw [outcome]
      rw [isKept]
      apply Ends.bindOk outcome
      apply Ends.bindOk rfl
      rw [referenced_congr sameDb sameDisk]
      have pruned : EndsIn (pruneOthers host opts root kept
          (deployments world.db) between) fun after =>
            SameOutside [stateTop, snapTop] between.disk after.disk :=
        pruneOthers_sameOutside deletes (sameDisk ▸ state) kept _
      rw [sameDisk] at pruned
      refine Ends.bind (pruned.mono (fun _ _ same => same) ?_) ?_
      · intro _ after same
        exact ⟨after.disk, same, Swept.refl after.disk⟩
      · intro _ middle same
        have swept := onDisk_ends (@sweepCache_ends middle.disk
          (referenced root world kept) opts.dryRun root)
        refine swept.mono ?_ ?_
        · rintro _ after ⟨⟨swept, drops⟩, -⟩
          refine ⟨middle.disk, same, swept, ?_⟩
          intro sub name parent notDry notKept cached
          obtain ⟨cacheLoc, aside, -, exists_⟩ := cached.listed
          exact drops sub name cacheLoc parent notKept notDry aside.resolve
            exists_ ⟨cached.swept, cached.dir.resolve, cached.file⟩
        · rintro _ after ⟨swept, -⟩
          exact ⟨middle.disk, same, swept⟩

theorem Cached.name_ne_nil {tops : List Loc} {disk : Disk Content}
    {sub name : Lib.Name} {parent : Loc}
    (cached : Cached tops disk root sub name parent) : name ≠ [] := by
  obtain ⟨content, mode, found⟩ := cached.file
  exact (FileSystem.validName (found ▸ Option.some_ne_none _)).1

/-- What neither half removes is as before. -/
theorem keepsReferenced_of_swept {tops : List Loc} {lock : Lock.LockFile}
    {middle : Disk Content} {after : World}
    (same : SameOutside tops world.disk middle)
    (swept : Swept (referenced root world (keptOf host opts world)) middle
      after.disk)
    (recorded : LockRecorded host opts root tops lock world) :
    KeepsReferenced host opts root tops lock world after := by
  intro sub name parent cached isReferenced
  have isRecorded : Recorded root world (keptOf host opts world) name :=
    isReferenced.elim id (recorded sub name parent cached)
  rw [swept.kept ((mem_referenced_iff cached.name_ne_nil).mpr isRecorded),
    same.nodes _ cached.outside]

/-- The collector keeps all that it should exactly when it finds out about it
without the lockfile. -/
theorem gcRun_keeps_iff (deletes : DeletesBelow host.delete root snapTop)
    (state : Aside [stateTop, snapTop] world.disk (stateDir root) stateTop)
    (lock : Lock.LockFile) :
    Ends (gcRun host opts root world)
      (fun _ after =>
        (LockRecorded host opts root [stateTop, snapTop] lock world →
          KeepsReferenced host opts root [stateTop, snapTop] lock world
            after) ∧
        (opts.dryRun = false →
          KeepsReferenced host opts root [stateTop, snapTop] lock world
            after →
          LockRecorded host opts root [stateTop, snapTop] lock world))
      (fun _ after =>
        LockRecorded host opts root [stateTop, snapTop] lock world →
          KeepsReferenced host opts root [stateTop, snapTop] lock world
            after) := by
  refine (gcRun_ends deletes state).mono ?_ ?_
  · rintro _ after ⟨middle, same, swept, drops⟩
    refine ⟨keepsReferenced_of_swept same swept, ?_⟩
    intro notDry keeps sub name parent cached isLocked
    by_contra unrecorded
    have gone := drops sub name parent notDry
      (mt (mem_referenced_iff cached.name_ne_nil).mp unrecorded)
      (cached.same same)
    have still := keeps sub name parent cached (.inr isLocked)
    obtain ⟨content, mode, found⟩ := cached.file
    rw [gone, found] at still
    cases still
  · rintro _ after ⟨middle, same, swept⟩
    exact keepsReferenced_of_swept same swept

end

/-! ## An artifact that only the lockfile names -/

def cacheNames : List Lib.Name :=
  [ascii "var", ascii "lib", ascii "salt", ascii "cache"]

/-- A root with one artifact in its cache. -/
def cacheDisk : Disk Content :=
  finalState ((do
    Util.mkdirs (stateDir (ascii "/")) 493
    Util.mkdirs (ascii "/var/lib/salt/cache/any") 493
    Util.writeFile (ascii "/var/lib/salt/cache/any/app.grain") (.raw []) 420 :
      DiskIo Unit) ⟨.bare Content, [], []⟩)

def plainTops : List Loc :=
  [descend [] stateNames, descend [] [ascii ".snapshots"]]

theorem cacheDisk_state :
    Aside plainTops cacheDisk (stateDir (ascii "/"))
      (descend [] stateNames) :=
  Aside.of_isDir (by decide) (by decide) (by decide) (by decide)
    (by decide +kernel) (by decide)

theorem cacheDisk_cached :
    Cached plainTops cacheDisk (ascii "/") (ascii "any") (ascii "app.grain")
      (descend [] (cacheNames ++ [ascii "any"])) where
  listed := ⟨descend [] cacheNames, Aside.of_isDir (by decide) (by decide)
    (by decide) (by decide) (by decide +kernel) (by decide), by decide,
    by decide +kernel⟩
  swept := by decide
  dir := Aside.of_isDir (by decide) (by decide) (by decide) (by decide)
    (by decide +kernel) (by decide)
  outside := by decide
  file := ⟨.raw [], 420, by decide +kernel⟩

def plainHost : GcHost :=
  ⟨false, noSnapshots, none⟩

def plainOpts : GcOpts :=
  ⟨3, [], false⟩

theorem noSnapshots_deletesBelow (root : Bytes) (snapTop : Loc) :
    DeletesBelow noSnapshots root snapTop := by
  intro name before after deleted
  cases deleted
  exact SameOutside.refl before

/-- The application as it is installed, with its artifact. -/
def appRow : PackageRow where
  name := ascii "app"
  version := ascii "1"
  release := 1
  arch := ascii "any"
  summary := []
  license := []
  repo := []
  sigStatus := []
  txnId := 1
  filename := some (ascii "app.grain")
  sha256 := none

def appLock : Lock.LockFile where
  native := [⟨ascii "app", ascii "1", 1, ascii "any", [], [],
    ascii "app.grain"⟩]
  strata := []

def cacheWorld (rows : List PackageRow) : World :=
  { emptyWorld with
    disk := cacheDisk
    db := { Db.empty with tables := { Tables.empty with packages := rows } } }

theorem cacheWorld_disk (rows : List PackageRow) :
    (cacheWorld rows).disk = cacheDisk := by
  unfold cacheWorld
  dsimp only

theorem installed_kept :
    Ends (gcRun plainHost plainOpts (ascii "/") (cacheWorld [appRow]))
      (fun _ after => KeepsReferenced plainHost plainOpts (ascii "/")
        plainTops appLock (cacheWorld [appRow]) after)
      (fun _ _ => True) := by
  have state : Aside plainTops (cacheWorld [appRow]).disk
      (stateDir (ascii "/")) (descend [] stateNames) := by
    rw [cacheWorld_disk]
    exact cacheDisk_state
  have recorded : LockRecorded plainHost plainOpts (ascii "/") plainTops
      appLock (cacheWorld [appRow]) := by
    rintro sub name parent - ⟨entry, member, rfl⟩
    rw [List.mem_singleton.mp member]
    exact .inl ⟨appRow, List.mem_cons_self, rfl⟩
  generalize cacheWorld [appRow] = world at *
  exact (gcRun_keeps_iff (noSnapshots_deletesBelow _ _) state appLock).mono
    (fun _ _ both => both.1 recorded) fun _ _ _ => trivial

/-- The artifact has been downloaded for the lockfile, but the package is not
installed yet. -/
theorem locked_not_kept :
    succeeded (gcRun plainHost plainOpts (ascii "/") (cacheWorld [])) = true ∧
      ¬ KeepsReferenced plainHost plainOpts (ascii "/") plainTops appLock
        (cacheWorld [])
        (finalState (gcRun plainHost plainOpts (ascii "/")
          (cacheWorld []))) := by
  refine ⟨by decide +kernel, ?_⟩
  intro keeps
  have still := keeps (ascii "any") (ascii "app.grain")
    (descend [] (cacheNames ++ [ascii "any"]))
    (by rw [cacheWorld_disk]; exact cacheDisk_cached)
    (.inr ⟨_, List.mem_cons_self, rfl⟩)
  revert still
  decide +kernel

end SaltOS.Deploy
