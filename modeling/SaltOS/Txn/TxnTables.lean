import SaltOS.Lib.Keyed
import SaltOS.Txn.Txn

/-!
# What a transaction does to the package tables

`Changes program change`: when the program succeeds, the package tables are
changed by `change`, and in any case the copy that the SQL transaction goes
back to stays.  From the changes of the single calls follows that a
transaction either replaces the rows of the packages of its plan, or leaves
the tables that it found.
-/

namespace SaltOS

open Lib Pkg

/-- SQLite carries out the deletions whose outcome nobody looks at. -/
def World.DeletesRun (world : World) : Prop :=
  ∀ fault ∈ world.deleteFaults, fault = false

/-- Everything but the tables that matters for going back. -/
structure World.SameSaved (before after : World) : Prop where
  saved : after.saved = before.saved
  deletesRun : before.DeletesRun → after.DeletesRun

namespace World.SameSaved

theorem refl (world : World) : world.SameSaved world :=
  ⟨rfl, id⟩

theorem trans {before middle after : World} (first : before.SameSaved middle)
    (second : middle.SameSaved after) : before.SameSaved after :=
  ⟨second.saved.trans first.saved, second.deletesRun ∘ first.deletesRun⟩

end World.SameSaved

variable {α β : Type}

/-- The effect of a program on the package tables. -/
def Changes (program : Io α) (change : Tables → Tables) : Prop :=
  ∀ world : World, world.DeletesRun → Ends (program world)
    (fun _ after => world.SameSaved after ∧
      after.db.tables = change world.db.tables)
    (fun _ after => world.SameSaved after)

/-- A program that leaves the package tables alone, even when it fails. -/
def Keeps (program : Io α) : Prop :=
  ∀ world : World, EndsIn (program world) fun after =>
    world.SameSaved after ∧ after.db.tables = world.db.tables

theorem Keeps.changes {program : Io α} (keeps : Keeps program) :
    Changes program id := by
  intro world _
  exact (keeps world).mono (fun _ _ both => both) (fun _ _ both => both.1)

namespace Keeps

theorem pure (value : α) : Keeps (pure value : Io α) := by
  intro world
  exact ⟨.refl world, rfl⟩

theorem throw (failure : Failure) : Keeps (throw failure : Io α) := by
  intro world
  exact ⟨.refl world, rfl⟩

theorem get : Keeps (get : Io World) := by
  intro world
  exact ⟨.refl world, rfl⟩

theorem bind {first : Io β} {next : β → Io α} (firstKeeps : Keeps first)
    (nextKeeps : ∀ value, Keeps (next value)) : Keeps (first >>= next) := by
  intro world
  refine Ends.bind (firstKeeps world) ?_
  intro value between both
  apply (nextKeeps value between).mono
  · intro _ after kept
    exact ⟨both.1.trans kept.1, kept.2.trans both.2⟩
  · intro _ after kept
    exact ⟨both.1.trans kept.1, kept.2.trans both.2⟩

theorem ignore {program : Io α} (keeps : Keeps program) :
    Keeps (ignore program : Io Unit) := by
  intro world
  exact Ends.ignore (keeps world)

theorem attempt {program : Io α} (keeps : Keeps program) :
    Keeps (attempt program : Io (Except Failure α)) := by
  intro world
  exact Ends.attempt (keeps world)

theorem forM {items : List β} {body : β → Io Unit}
    (each : ∀ item, Keeps (body item)) : Keeps (items.forM body) := by
  induction items with
  | nil => exact pure ()
  | cons item items induction => exact bind (each item) fun _ => induction

theorem onDisk (program : EStateM Failure (Disk Content) α) :
    Keeps (onDisk program) := by
  intro world
  unfold SaltOS.onDisk
  cases program world.disk <;> exact ⟨⟨rfl, id⟩, rfl⟩

/-- A statement about other tables. -/
theorem update (what : Option Bytes) {change : Db → Db}
    (same : ∀ db, (change db).tables = db.tables) :
    Keeps (Sql.update what change) := by
  intro world
  unfold Sql.update Sql.statement
  split
  · exact ⟨⟨rfl, id⟩, rfl⟩
  · exact ⟨⟨rfl, id⟩, same world.db⟩

theorem txnFinish (id : Nat) (status : Status) :
    Keeps (Db.txnFinish id status) :=
  update _ fun _ => rfl

theorem runHook (hook : Hook) (pkg : Bytes) :
    Keeps (Txn.runHook hook pkg) := by
  intro world
  apply Ends.bindOk rfl
  apply Ends.bindOk rfl
  cases Txn.hookResult hook pkg (world.hookEnds.head?.getD (.exited 0)) <;>
    exact ⟨⟨rfl, id⟩, rfl⟩

theorem runHookIf (body : Option Bytes) (hook : Hook) (pkg : Bytes) :
    Keeps (Txn.runHookIf body hook pkg) := by
  unfold Txn.runHookIf
  split
  · exact runHook hook pkg
  · exact pure ()

theorem lookUpOwner (path : Bytes) : Keeps (Txn.lookUpOwner path) := by
  intro world
  exact ⟨⟨rfl, id⟩, rfl⟩

theorem checkOwner (name path : Bytes) : Keeps (Txn.checkOwner name path) := by
  refine bind (lookUpOwner path) ?_
  intro owner
  cases owner with
  | none => exact pure ()
  | some owner =>
      dsimp only
      split
      · exact pure ()
      · exact throw _

theorem saveEntry (root backup path added : Bytes) :
    Keeps (Txn.saveEntry root backup path added) := by
  refine bind get ?_
  intro world
  split
  · exact bind (onDisk _) fun _ => pure _
  · exact pure _

theorem checkEntries (root backup name : Bytes) (manifest : Manifest)
    (added : Bytes) :
    Keeps (Txn.checkEntries root backup name manifest added) := by
  induction manifest generalizing added with
  | nil => exact pure added
  | cons entry manifest induction =>
      unfold Txn.checkEntries
      split
      · exact induction added
      · exact bind (checkOwner _ _) fun _ =>
          bind (saveEntry _ _ _ _) fun added => induction added

theorem manifestCheckConfined (manifest : Manifest) :
    Keeps (Txn.manifestCheckConfined manifest) := by
  apply forM
  intro entry
  split
  · exact pure ()
  · exact throw _

theorem vacuumInto (image : Db → Bytes) (path : Bytes) :
    Keeps (Db.vacuumInto image path) := by
  refine bind (onDisk _) fun _ => bind get fun world => ?_
  split
  · exact throw _
  · exact bind (update _ fun _ => rfl) fun _ => onDisk _

theorem snapshotCreate (host : Host) (root : Bytes) (id : Nat) :
    Keeps (Txn.snapshotCreate host root id) := by
  refine bind (ignore (onDisk _)) fun _ =>
    bind (ignore (vacuumInto _ _)) fun _ => ?_
  split
  · exact pure _
  · refine bind (ignore (onDisk _)) fun _ => ?_
    split
    · exact pure _
    · exact throw _

theorem openTransaction (host : Host) (root op : Bytes) :
    Keeps (Txn.openTransaction host root op) := by
  refine bind (bind (update _ fun _ => rfl) fun _ =>
    bind get fun _ => pure _) fun id =>
      bind (attempt (snapshotCreate _ _ _)) fun outcome => ?_
  cases outcome with
  | ok snapshot => exact bind (ignore (update _ fun _ => rfl)) fun _ => pure _
  | error failure =>
      exact bind (ignore (txnFinish _ _)) fun _ => throw _

end Keeps

namespace Changes

theorem of_eq {program : Io α} {change other : Tables → Tables}
    (changes : Changes program change)
    (same : ∀ tables, change tables = other tables) :
    Changes program other := by
  rwa [← funext same]

theorem throw (failure : Failure) (change : Tables → Tables) :
    Changes (throw failure : Io α) change := by
  intro world _
  exact .refl world

theorem bind {first : Io β} {next : β → Io α}
    {firstChange nextChange : Tables → Tables}
    (firstChanges : Changes first firstChange)
    (nextChanges : ∀ value, Changes (next value) nextChange) :
    Changes (first >>= next) (nextChange ∘ firstChange) := by
  intro world deletesRun
  refine Ends.bind (firstChanges world deletesRun) ?_
  intro value between both
  apply (nextChanges value between (both.1.deletesRun deletesRun)).mono
  · intro _ after changed
    exact ⟨both.1.trans changed.1, by rw [changed.2, both.2]; rfl⟩
  · intro _ after same
    exact both.1.trans same

/-- A first step that leaves the tables alone. -/
theorem after {first : Io β} {next : β → Io α} {change : Tables → Tables}
    (keeps : Keeps first) (changes : ∀ value, Changes (next value) change) :
    Changes (first >>= next) change :=
  bind keeps.changes changes

/-- A last step that leaves the tables alone. -/
theorem before {first : Io β} {next : β → Io α} {change : Tables → Tables}
    (changes : Changes first change) (keeps : ∀ value, Keeps (next value)) :
    Changes (first >>= next) change := by
  have both := bind changes fun value => (keeps value).changes
  exact both

theorem forM {items : List β} {body : β → Io Unit}
    {change : β → Tables → Tables}
    (each : ∀ item, Changes (body item) (change item)) :
    Changes (items.forM body)
      (fun tables => items.foldl (fun tables item => change item tables)
        tables) := by
  induction items with
  | nil => exact (Keeps.pure ()).changes
  | cons item items induction => exact bind (each item) fun _ => induction

theorem deleteFrom (change : Tables → Tables) :
    Changes (Db.deleteFrom change) change := by
  intro world deletesRun
  have kept : ∀ fault ∈ world.deleteFaults.tail, fault = false :=
    fun fault member => deletesRun fault (List.mem_of_mem_tail member)
  unfold Db.deleteFrom
  split
  · rename_i lost
    have none := deletesRun true (List.mem_of_mem_head? lost)
    cases none
  · exact ⟨⟨rfl, fun _ => kept⟩, rfl⟩

theorem updateTables (what : Option Bytes) (change : Tables → Tables) :
    Changes (Sql.updateTables what change) change := by
  intro world _
  unfold Sql.updateTables Sql.update Sql.statement
  split
  · exact ⟨rfl, id⟩
  · exact ⟨⟨rfl, id⟩, rfl⟩

theorem insertPackage (row : PackageRow) :
    Changes (Db.insertPackage row) (fun tables =>
      { tables with packages := tables.packages ++ [row] }) := by
  intro world _
  unfold Db.insertPackage Sql.statement
  split
  · exact ⟨rfl, id⟩
  · dsimp only
    split
    · exact ⟨rfl, id⟩
    · rename_i db inserted
      split at inserted
      · cases inserted
      · cases inserted
        exact ⟨⟨rfl, id⟩, rfl⟩

end Changes

/-! ## Packages -/

/-- The tables without a package. -/
def Tables.remove (name : Bytes) (tables : Tables) : Tables where
  packages := replaceRows PackageRow.name name [] tables.packages
  files := replaceRows FileRow.name name [] tables.files
  deps := replaceRows Prod.fst name [] tables.deps
  conflicts := replaceRows Prod.fst name [] tables.conflicts
  hooks := replaceRows Prod.fst name [] tables.hooks

/-- The rows of the hooks that a package declares. -/
def hookRows (pkg : PkgMeta) : List (Bytes × Bytes × Bytes) :=
  Hook.all.flatMap fun hook =>
    ((pkg.hooks hook).map fun body => (pkg.name, hook.name, body)).toList

/-- The tables with a package in place of the one of the same name. -/
def Tables.install (pkg : PkgMeta) (manifest : Manifest) (row : PackageRow)
    (tables : Tables) : Tables where
  packages := replaceRows PackageRow.name pkg.name [row] tables.packages
  files := replaceRows FileRow.name pkg.name
    (manifest.map (Db.fileRow pkg.name)) tables.files
  deps := replaceRows Prod.fst pkg.name (pkg.deps.map (pkg.name, ·))
    tables.deps
  conflicts := replaceRows Prod.fst pkg.name
    (pkg.conflicts.map (pkg.name, ·)) tables.conflicts
  hooks := replaceRows Prod.fst pkg.name (hookRows pkg) tables.hooks

theorem recordRemove_changes (name : Bytes) :
    Changes (Db.recordRemove name) (Tables.remove name) := by
  have changes := Changes.bind (Changes.deleteFrom (Db.withoutFiles name))
    fun _ => Changes.bind (Changes.deleteFrom (Db.withoutDeps name))
    fun _ => Changes.bind (Changes.deleteFrom (Db.withoutConflicts name))
    fun _ => Changes.bind (Changes.deleteFrom (Db.withoutHooks name))
    fun _ => Changes.updateTables none (Db.withoutPackages name)
  apply changes.of_eq
  intro tables
  simp [Tables.remove, replaceRows, Db.withoutFiles, Db.withoutDeps,
    Db.withoutConflicts, Db.withoutHooks, Db.withoutPackages]

section Loops

variable (pkg : PkgMeta)

theorem insertHooks_changes (hooks : List Hook) :
    Changes (hooks.forM (Db.insertHook pkg)) (fun tables =>
      { tables with hooks := tables.hooks ++ hooks.flatMap fun hook =>
        ((pkg.hooks hook).map fun body =>
          (pkg.name, hook.name, body)).toList }) := by
  induction hooks with
  | nil =>
      apply (Keeps.pure ()).changes.of_eq
      simp
  | cons hook hooks induction =>
      have first : Changes (Db.insertHook pkg hook) (fun tables =>
          { tables with hooks := tables.hooks ++ ((pkg.hooks hook).map
            fun body => (pkg.name, hook.name, body)).toList }) := by
        unfold Db.insertHook
        cases pkg.hooks hook with
        | none => exact (Keeps.pure ()).changes.of_eq (by simp)
        | some body => exact Changes.updateTables _ _
      apply (Changes.bind first fun _ => induction).of_eq
      simp

theorem insertFiles_changes (name : Bytes) (manifest : Manifest) :
    Changes (manifest.forM (Db.insertFile name)) (fun tables =>
      { tables with
        files := tables.files ++ manifest.map (Db.fileRow name) }) := by
  induction manifest with
  | nil => exact (Keeps.pure ()).changes.of_eq (by simp)
  | cons entry manifest induction =>
      have first : Changes (Db.insertFile name entry) _ :=
        Changes.updateTables _ _
      apply (Changes.bind first fun _ => induction).of_eq
      simp

theorem insertDeps_changes (name : Bytes) (deps : List Bytes) :
    Changes (deps.forM (Db.insertDep name)) (fun tables =>
      { tables with deps := tables.deps ++ deps.map (name, ·) }) := by
  induction deps with
  | nil => exact (Keeps.pure ()).changes.of_eq (by simp)
  | cons dep deps induction =>
      have first : Changes (Db.insertDep name dep) _ :=
        Changes.updateTables _ _
      apply (Changes.bind first fun _ => induction).of_eq
      simp

theorem insertConflicts_changes (name : Bytes) (conflicts : List Bytes) :
    Changes (conflicts.forM (Db.insertConflict name)) (fun tables =>
      { tables with
        conflicts := tables.conflicts ++ conflicts.map (name, ·) }) := by
  induction conflicts with
  | nil => exact (Keeps.pure ()).changes.of_eq (by simp)
  | cons conflict conflicts induction =>
      have first : Changes (Db.insertConflict name conflict) _ :=
        Changes.updateTables _ _
      apply (Changes.bind first fun _ => induction).of_eq
      simp

end Loops

theorem recordInstall_changes (pkg : PkgMeta) (manifest : Manifest)
    (repo sigStatus : Option Bytes) (id : Nat) :
    Changes (Db.recordInstall pkg manifest repo sigStatus id)
      (Tables.install pkg manifest
        (Db.packageRow pkg repo sigStatus id)) := by
  have changes :=
    Changes.bind (Changes.deleteFrom (Db.withoutPackages pkg.name)) fun _ =>
    Changes.bind (Changes.deleteFrom (Db.withoutFiles pkg.name)) fun _ =>
    Changes.bind (Changes.deleteFrom (Db.withoutDeps pkg.name)) fun _ =>
    Changes.bind (Changes.deleteFrom (Db.withoutConflicts pkg.name)) fun _ =>
    Changes.bind (Changes.deleteFrom (Db.withoutHooks pkg.name)) fun _ =>
    Changes.bind (insertHooks_changes pkg Hook.all) fun _ =>
    Changes.bind (Changes.insertPackage
      (Db.packageRow pkg repo sigStatus id)) fun _ =>
    Changes.bind (insertFiles_changes pkg.name manifest) fun _ =>
    Changes.bind (insertDeps_changes pkg.name pkg.deps) fun _ =>
      insertConflicts_changes pkg.name pkg.conflicts
  apply changes.of_eq
  intro tables
  simp [Tables.install, replaceRows, hookRows, Db.withoutFiles,
    Db.withoutDeps, Db.withoutConflicts, Db.withoutHooks, Db.withoutPackages]

theorem setPkgArtifact_changes (name filename sha256 : Bytes) :
    Changes (Db.setPkgArtifact name filename sha256) (fun tables =>
      { tables with packages := tables.packages.map fun row =>
        if row.name = name then
          { row with filename := some filename, sha256 := some sha256 }
        else row }) :=
  Changes.updateTables _ _

namespace Txn

theorem removePkg_changes (root name : Bytes) (id : Nat) :
    Changes (removePkg root name id) (Tables.remove name) := by
  refine Changes.after .get fun world => ?_
  split
  · exact .after (.ignore (.onDisk _)) fun _ =>
      .after (.runHookIf _ _ _) fun _ =>
      .after (.forM fun _ => .onDisk _) fun _ =>
      .before (recordRemove_changes name) fun _ =>
        .ignore (.runHookIf _ _ _)
  · exact .throw _ _

theorem installArchive_changes (host : Host) (root : Bytes)
    (archive : Archive) (repo sigStatus : Option Bytes) (id : Nat) :
    Changes (installArchive host root archive repo sigStatus id)
      (Tables.install archive.pkg archive.manifest
        (Db.packageRow archive.pkg repo sigStatus id)) :=
  .after (.manifestCheckConfined _) fun _ =>
    .after (.ignore (.onDisk _)) fun _ =>
    .after .get fun _ =>
    .after (.checkEntries _ _ _ _ _) fun _ =>
    .after (.onDisk _) fun _ =>
    .after (.onDisk _) fun _ =>
    .after (.forM fun _ => .onDisk _) fun _ =>
    .after (.runHookIf _ _ _) fun _ =>
      recordInstall_changes _ _ _ _ _

/-- The row of a package that is installed, with its artifact. -/
def Planned.row (planned : Planned) (archive : Archive) (id : Nat) :
    PackageRow :=
  { Db.packageRow archive.pkg (some planned.repo) (some planned.sigStatus)
      id with
    filename := some planned.filename
    sha256 := some planned.sha256 }

/-- What installing a package does to the tables. -/
def Planned.change (id : Nat) (tables : Tables) (planned : Planned) :
    Tables :=
  match planned.opened with
  | none => tables
  | some archive =>
      tables.install archive.pkg archive.manifest (planned.row archive id)

/-- The checks that `install_one` makes on an archive. -/
def Planned.Valid (arch : Bytes) (planned : Planned) : Prop :=
  ∃ archive, planned.opened = some archive ∧
    (archive.pkg.arch = arch ∨ archive.pkg.arch = ascii "any") ∧
      archive.pkg.name = planned.entryName

theorem installOne_changes (host : Host) (arch root : Bytes)
    (planned : Planned) (id : Nat) :
    Changes (installOne host arch root planned id)
      (fun tables => planned.change id tables) := by
  unfold installOne
  cases isOpened : planned.opened with
  | none => exact .throw _ _
  | some archive =>
      dsimp only
      split
      · exact .throw _ _
      split
      · exact .throw _ _
      apply (Changes.bind (installArchive_changes _ _ _ _ _ _) fun _ =>
        setPkgArtifact_changes _ _ _).of_eq
      intro tables
      have others : ∀ row ∈ tables.packages.filter
          (fun row => row.name ≠ archive.pkg.name),
          (if row.name = archive.pkg.name then
            { row with filename := some planned.filename,
                       sha256 := some planned.sha256 } else row) = row := by
        intro row member
        exact if_neg (by simpa using (List.mem_filter.mp member).2)
      simp only [Function.comp_apply, Planned.change, isOpened,
        Tables.install, replaceRows, List.map_append,
        List.map_congr_left others, List.map_id']
      simp [Planned.row, Db.packageRow]

theorem installOne_valid (host : Host) (arch root : Bytes)
    (planned : Planned) (id : Nat) (world : World) :
    Ends (installOne host arch root planned id world)
      (fun _ _ => planned.Valid arch) (fun _ _ => True) := by
  unfold installOne
  cases isOpened : planned.opened with
  | none => trivial
  | some archive =>
      refine Ends.ite (fun _ => trivial) fun isArch => ?_
      refine Ends.ite (fun _ => trivial) fun isName => ?_
      have valid : planned.Valid arch := by
        refine ⟨archive, isOpened, ?_, by simpa using isName⟩
        by_contra other
        simp only [not_or] at other
        exact isArch other
      cases (installArchive host root archive (some planned.repo)
        (some planned.sigStatus) id >>= fun _ => Db.setPkgArtifact
          archive.pkg.name planned.filename planned.sha256) world with
      | ok => exact valid
      | error => trivial

/-! ## Whole transactions -/

/-- What a plan does to the tables. -/
def Plan.change (plan : Plan) (id : Nat) (tables : Tables) : Tables :=
  plan.install.foldl (Planned.change id)
    (plan.remove.foldl (fun tables name => tables.remove name) tables)

section

variable (host : Host) (arch root : Bytes) (plan : Plan) (id : Nat)
  {world : World}

/-- Every archive that was installed passed the checks. -/
theorem installs_valid (installs : List Planned) (world : World) :
    Ends (installs.forM (fun planned => installOne host arch root planned
        id) world)
      (fun _ _ => ∀ planned ∈ installs, planned.Valid arch)
      (fun _ _ => True) := by
  induction installs generalizing world with
  | nil => exact fun _ member => by cases member
  | cons planned installs induction =>
      refine Ends.bind (installOne_valid host arch root planned id world) ?_
      intro _ between valid
      apply (induction between).mono
      · intro _ _ others other member
        rcases List.mem_cons.mp member with rfl | inside
        · exact valid
        · exact others other inside
      · exact fun _ _ _ => trivial

/-- Inside an SQL transaction that started from `start`. -/
structure Inside (start : Db) (tables : Tables) (world : World) : Prop where
  saved : world.saved = some start
  deletesRun : world.DeletesRun
  tables : world.db.tables = tables

/-- A failure inside an SQL transaction can be gone back from. -/
def GoesBack (start : Db) (world : World) : Prop :=
  world.closed.tables = start.tables

theorem Inside.goesBack {start : Db} {tables : Tables}
    (inside : Inside start tables world) : GoesBack start world := by
  simp [GoesBack, World.closed, inside.saved]

theorem begin_ends (idle : world.saved = none)
    (deletesRun : world.DeletesRun) :
    Ends (Sql.begin world)
      (fun _ after => Inside world.db world.db.tables after)
      (fun _ after => GoesBack world.db after) := by
  unfold Sql.begin Sql.control
  split
  · simp [Ends, GoesBack, World.closed, idle]
  · dsimp only
    rw [idle]
    exact ⟨rfl, deletesRun, rfl⟩

theorem Inside.run {start : Db} {tables : Tables}
    (inside : Inside start tables world) {α : Type} {program : Io α}
    {change : Tables → Tables} (changes : Changes program change) :
    Ends (program world)
      (fun _ after => Inside start (change tables) after)
      (fun _ after => GoesBack start after) := by
  apply (changes world inside.deletesRun).mono
  · intro _ after both
    refine ⟨both.1.saved.trans inside.saved,
      both.1.deletesRun inside.deletesRun, ?_⟩
    rw [both.2, inside.tables]
  · intro _ after same
    simp [GoesBack, World.closed, same.saved, inside.saved]

theorem commit_ends {start : Db} {tables : Tables}
    (inside : Inside start tables world) :
    Ends (Sql.commit world)
      (fun _ after => after.saved = none ∧ after.db.tables = tables)
      (fun _ after => GoesBack start after) := by
  unfold Sql.commit Sql.control
  split
  · simp [Ends, GoesBack, World.closed, inside.saved]
  · dsimp only
    rw [inside.saved]
    exact ⟨rfl, inside.tables⟩

/-- `applyPlan` commits the changes of the plan, or leaves the tables that it
found to be gone back to. -/
theorem applyPlan_ends (idle : world.saved = none)
    (deletesRun : world.DeletesRun) :
    Ends (applyPlan host arch root plan id world)
      (fun _ after => after.saved = none ∧
        after.db.tables = plan.change id world.db.tables ∧
        ∀ planned ∈ plan.install, planned.Valid arch)
      (fun _ after => GoesBack world.db after) := by
  refine Ends.bind (begin_ends idle deletesRun) ?_
  intro _ begun insideBegun
  refine Ends.bind (insideBegun.run (.forM fun name =>
    removePkg_changes root name id)) ?_
  intro _ removed insideRemoved
  have installs := (insideRemoved.run (.forM fun planned =>
    installOne_changes host arch root planned id)).and
      (installs_valid host arch root id plan.install removed)
  refine Ends.bind (installs.mono (fun _ _ both => both)
    fun _ _ both => both.1) ?_
  rintro _ installed ⟨insideInstalled, valid⟩
  refine Ends.bind (insideInstalled.run (Keeps.txnFinish id .ok).changes) ?_
  intro _ finished insideFinished
  apply (commit_ends insideFinished).mono
  · rintro _ after ⟨closed, changed⟩
    exact ⟨closed, changed, valid⟩
  · exact fun _ _ back => back

/-- A program that keeps the tables keeps what is gone back to. -/
theorem Keeps.goesBack {α : Type} {program : Io α} (keeps : Keeps program)
    {start : Db} (back : GoesBack start world) :
    EndsIn (program world) (GoesBack start) := by
  have kept : ∀ after : World, world.SameSaved after ∧
      after.db.tables = world.db.tables → GoesBack start after := by
    rintro after ⟨same, tables⟩
    unfold GoesBack World.closed at *
    rw [same.saved]
    cases saved : world.saved with
    | some db =>
        rw [saved] at back
        exact back
    | none =>
        rw [saved] at back
        exact tables.trans back
  exact (keeps world).mono (fun _ => kept) (fun _ => kept)

theorem rollback_goesBack {start : Db} (back : GoesBack start world) :
    EndsIn (Sql.rollback world) (GoesBack start) := by
  unfold Sql.rollback Sql.control
  split
  · exact back
  · unfold GoesBack World.closed at back
    cases saved : world.saved with
    | none =>
        rw [saved] at back
        exact back
    | some db =>
        rw [saved] at back
        exact back

theorem failTransaction_goesBack {start : Db}
    (back : GoesBack start world) :
    EndsIn (failTransaction root id world) (GoesBack start) := by
  refine Ends.through (fun _ => GoesBack start)
    (Ends.ignore (rollback_goesBack back)) ?_
  intro _ rolledBack back
  refine Ends.bind (Keeps.goesBack (.ignore (.onDisk _)) back) ?_
  intro _ reverted back
  exact Keeps.goesBack (.ignore (.txnFinish _ _)) back

/-- A transaction that succeeds has made the changes of its plan; one that
fails has changed no package table once the database is closed. -/
theorem nativeTransaction_ends (op : Bytes) (idle : world.saved = none)
    (deletesRun : world.DeletesRun) :
    Ends (nativeTransaction host arch root op plan world)
      (fun _ after => after.saved = none ∧
        (∃ id, after.db.tables = plan.change id world.db.tables) ∧
        ∀ planned ∈ plan.install, planned.Valid arch)
      (fun _ after => GoesBack world.db after) := by
  have opened : Ends (openTransaction host root op world)
      (fun _ after => after.saved = none ∧ after.DeletesRun ∧
        after.db.tables = world.db.tables)
      (fun _ after => GoesBack world.db after) := by
    apply (Keeps.openTransaction host root op world).mono
    · rintro _ after ⟨same, tables⟩
      exact ⟨same.saved.trans idle, same.deletesRun deletesRun, tables⟩
    · rintro _ after ⟨same, tables⟩
      simp [GoesBack, World.closed, same.saved, idle, tables]
  refine Ends.bind opened ?_
  rintro id begun ⟨idle, deletesRun, sameTables⟩
  have applied := applyPlan_ends host arch root plan id idle deletesRun
  rw [sameTables] at applied
  apply Ends.attempted applied
  · intro _ after done
    exact ⟨done.1, ⟨id, done.2.1⟩, done.2.2⟩
  · intro failure after done
    have back : GoesBack world.db after := done.trans sameTables
    refine Ends.through (fun _ => GoesBack world.db)
      ((failTransaction_goesBack root id back).mono (fun _ _ kept => kept)
        fun _ _ kept => kept) ?_
    intro _ failed kept
    exact kept

end

/-! ## The rows after a plan -/

/-- The rows that a package brings into one of the tables. -/
def Planned.rows {ρ : Type} (new : Planned → Archive → List ρ)
    (planned : Planned) : List ρ :=
  match planned.opened with
  | none => []
  | some archive => new planned archive

/-- One of the tables, by the rows that removing and installing a package
leave in it. -/
structure Column {ρ : Type} (table : Tables → List ρ) (key : ρ → Bytes)
    (new : Nat → Planned → Archive → List ρ) : Prop where
  remove : ∀ name tables,
    table (Tables.remove name tables) = replaceRows key name [] (table tables)
  change : ∀ id planned archive tables, planned.opened = some archive →
    table (Planned.change id tables planned) =
      replaceRows key archive.pkg.name (new id planned archive)
        (table tables)
  own : ∀ id planned archive row, row ∈ new id planned archive →
    key row = archive.pkg.name

theorem packages_column : Column Tables.packages PackageRow.name
    (fun id planned archive => [planned.row archive id]) where
  remove := fun _ _ => rfl
  change := by
    intro id planned archive tables isOpened
    simp [Planned.change, isOpened, Tables.install]
  own := by
    intro id planned archive row member
    rw [List.mem_singleton.mp member]
    rfl

theorem deps_column : Column Tables.deps Prod.fst
    (fun _ _ archive => archive.pkg.deps.map (archive.pkg.name, ·)) where
  remove := fun _ _ => rfl
  change := by
    intro id planned archive tables isOpened
    simp [Planned.change, isOpened, Tables.install]
  own := by
    intro id planned archive row member
    obtain ⟨dep, -, rfl⟩ := List.mem_map.mp member
    rfl

theorem conflicts_column : Column Tables.conflicts Prod.fst
    (fun _ _ archive => archive.pkg.conflicts.map (archive.pkg.name, ·)) where
  remove := fun _ _ => rfl
  change := by
    intro id planned archive tables isOpened
    simp [Planned.change, isOpened, Tables.install]
  own := by
    intro id planned archive row member
    obtain ⟨conflict, -, rfl⟩ := List.mem_map.mp member
    rfl

section

variable {ρ : Type} {table : Tables → List ρ} {key : ρ → Bytes}
  {new : Nat → Planned → Archive → List ρ} {arch : Bytes}

/-- The rows of a table after a plan, by replacing those of one package after
the other. -/
theorem Column.table_change (column : Column table key new) {plan : Plan}
    {id : Nat} {tables : Tables}
    (valid : ∀ planned ∈ plan.install, planned.Valid arch) :
    table (plan.change id tables) =
      plan.install.foldl (fun rows planned => replaceRows key
        planned.entryName (planned.rows (new id)) rows)
        (plan.remove.foldl (fun rows name => replaceRows key name [] rows)
          (table tables)) := by
  have removed : ∀ (names : List Bytes) (tables : Tables), table
      (names.foldl (fun tables name => tables.remove name) tables) =
      names.foldl (fun rows name => replaceRows key name [] rows)
        (table tables) := by
    intro names
    induction names with
    | nil => exact fun _ => rfl
    | cons name names induction =>
        intro tables
        rw [List.foldl_cons, induction, column.remove, List.foldl_cons]
  have installed : ∀ installs : List Planned,
      (∀ planned ∈ installs, planned.Valid arch) → ∀ tables,
        table (installs.foldl (Planned.change id) tables) =
          installs.foldl (fun rows planned => replaceRows key
            planned.entryName (planned.rows (new id)) rows)
            (table tables) := by
    intro installs
    induction installs with
    | nil => exact fun _ _ => rfl
    | cons planned installs induction =>
        intro valid tables
        obtain ⟨archive, isOpened, -, isName⟩ :=
          valid planned List.mem_cons_self
        rw [List.foldl_cons, induction (fun other member =>
          valid other (List.mem_cons_of_mem _ member)),
          column.change id planned archive tables isOpened,
          List.foldl_cons, isName, Planned.rows, isOpened]
  rw [Plan.change, installed plan.install valid, removed]

theorem Column.own_rows (column : Column table key new) {planned : Planned}
    {id : Nat} (valid : planned.Valid arch) :
    ∀ row ∈ planned.rows (new id), key row = planned.entryName := by
  intro row isRow
  obtain ⟨archive, isOpened, -, isName⟩ := valid
  rw [Planned.rows, isOpened] at isRow
  rw [column.own id planned archive row isRow, isName]

/-- A row is there after a plan when an archive brought it, or when it was
there and its package was not touched. -/
theorem Column.mem_change (column : Column table key new) {plan : Plan}
    {id : Nat} {tables : Tables} {row : ρ}
    (valid : ∀ planned ∈ plan.install, planned.Valid arch)
    (distinct : (plan.install.map Planned.entryName).Nodup) :
    row ∈ table (plan.change id tables) ↔
      (∃ planned ∈ plan.install, ∃ archive,
        planned.opened = some archive ∧ row ∈ new id planned archive) ∨
      row ∈ table tables ∧ key row ∉ plan.remove ∧
        key row ∉ plan.install.map Planned.entryName := by
  have own : ∀ planned ∈ plan.install, ∀ other ∈ planned.rows (new id),
      key other = planned.entryName :=
    fun planned member => column.own_rows (valid planned member)
  rw [column.table_change valid, mem_foldl_replaceRows own distinct,
    mem_foldl_dropped, and_assoc]
  apply or_congr_left
  constructor
  · rintro ⟨planned, member, isRow⟩
    obtain ⟨archive, isOpened, -⟩ := valid planned member
    rw [Planned.rows, isOpened] at isRow
    exact ⟨planned, member, archive, isOpened, isRow⟩
  · rintro ⟨planned, member, archive, isOpened, isRow⟩
    refine ⟨planned, member, ?_⟩
    rw [Planned.rows, isOpened]
    exact isRow

/-- The rows of a package that a plan does not touch stay, in their order. -/
theorem Column.untouched (column : Column table key new) {plan : Plan}
    {id : Nat} {tables : Tables} {name : Bytes}
    (valid : ∀ planned ∈ plan.install, planned.Valid arch)
    (notRemoved : name ∉ plan.remove)
    (notPlanned : name ∉ plan.install.map Planned.entryName) :
    (table (plan.change id tables)).filter (fun row => key row = name) =
      (table tables).filter fun row => key row = name := by
  have dropped : ∀ (names : List Bytes) (rows : List ρ), name ∉ names →
      (names.foldl (fun rows other => replaceRows key other [] rows)
        rows).filter (fun row => key row = name) =
        rows.filter fun row => key row = name := by
    intro names
    induction names with
    | nil => exact fun _ _ => rfl
    | cons other names induction =>
        intro rows notIn
        rw [List.mem_cons, not_or] at notIn
        rw [List.foldl_cons, induction _ notIn.2,
          filter_replaceRows (by simp) notIn.1]
  rw [column.table_change valid, filter_foldl_replaceRows
    (fun planned member => column.own_rows (valid planned member))
    notPlanned, dropped plan.remove _ notRemoved]

end

end Txn

end SaltOS
