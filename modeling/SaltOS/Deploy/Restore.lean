import SaltOS.Txn.Txn

/-!
# Restoring a saved database

`salt_db_restore_state_from` brings the packages back with their files,
dependencies and conflicts.  Their hooks are not in its script: what is left in
the table belongs to the versions from before the restore.
-/

namespace SaltOS.Deploy

open Lib Pkg

/-- The package tables hold the rows of a saved database, and the history is
that of the database before the restore; so the hook that a package runs later
is one that the saved database has for it. -/
structure Restored (before start after : Db) : Prop where
  packages : after.tables.packages.Perm before.tables.packages
  files : after.tables.files.Perm before.tables.files
  deps : after.tables.deps.Perm before.tables.deps
  conflicts : after.tables.conflicts.Perm before.tables.conflicts
  hooks : after.tables.hooks.Perm before.tables.hooks
  transactions : after.transactions = start.transactions
  runs : ∀ name hook body, after.pkgHook name hook = some body →
    (name, hook.name, body) ∈ before.tables.hooks
  silent : ∀ name hook, after.pkgHook name hook = none →
    before.pkgHook name hook = none

section

variable {db other : Db} {name : Bytes} {hook : Hook}

theorem mem_of_pkgHook {body : Bytes}
    (found : db.pkgHook name hook = some body) :
    (name, hook.name, body) ∈ db.tables.hooks := by
  obtain ⟨⟨owner, kind, text⟩, isRow, rfl⟩ := Option.map_eq_some_iff.mp found
  obtain ⟨rfl, rfl⟩ : owner = name ∧ kind = hook.name := by
    simpa using List.find?_some isRow
  exact List.mem_of_find?_eq_some isRow

theorem pkgHook_eq_none_iff :
    db.pkgHook name hook = none ↔
      ∀ body, (name, hook.name, body) ∉ db.tables.hooks := by
  rw [Db.pkgHook, Option.map_eq_none_iff, List.find?_eq_none]
  constructor
  · intro absent body member
    exact absent _ member (by simp)
  · rintro absent ⟨owner, kind, body⟩ member
    simp only [decide_eq_true_eq]
    rintro ⟨rfl, rfl⟩
    exact absent body member

end

/-- A restore that succeeds changes the package tables, and one that fails
nothing. -/
theorem restoreStateFrom_ends {path : Bytes} {content : Content}
    {world : World} (saved : world.disk.contents path = .ok content) :
    Ends (Db.restoreStateFrom path world)
      (fun _ after => ∃ before, content.database = some before ∧
        after = { world with
          sqlFaults := world.sqlFaults.tail
          db := world.db.withTablesOf before })
      (fun _ after => ∃ sqlFaults, after = { world with
        sqlFaults := sqlFaults }) := by
  unfold Db.restoreStateFrom
  refine Ends.bindOk rfl ?_
  rw [saved]
  dsimp only
  cases content.database with
  | none => exact Ends.throw ⟨world.sqlFaults, rfl⟩
  | some before =>
      unfold Sql.update Sql.statement
      dsimp only
      split
      · exact ⟨world.sqlFaults.tail, rfl⟩
      · exact ⟨before, rfl, rfl⟩

theorem restoreStateFrom_ok {path : Bytes} {bytes : Bytes} {before : Db}
    {world after : World}
    (saved : world.disk.contents path = .ok ⟨bytes, some before⟩)
    (restored : Db.restoreStateFrom path world = .ok () after) :
    after.db = world.db.withTablesOf before := by
  have ends := restoreStateFrom_ends saved
  rw [restored] at ends
  obtain ⟨_, isBefore, rfl⟩ := ends
  cases isBefore
  rfl

/-- A restore brings everything back that a package owns exactly when the
hooks of the two databases are the same. -/
theorem restoreStateFrom_restored_iff {path : Bytes} {bytes : Bytes}
    {before : Db} {world after : World}
    (saved : world.disk.contents path = .ok ⟨bytes, some before⟩)
    (restored : Db.restoreStateFrom path world = .ok () after) :
    Restored before world.db after.db ↔
      world.db.tables.hooks.Perm before.tables.hooks := by
  rw [restoreStateFrom_ok saved restored]
  constructor
  · exact fun isRestored => isRestored.hooks
  · intro sameHooks
    exact {
      packages := .rfl
      files := .rfl
      deps := .rfl
      conflicts := .rfl
      hooks := sameHooks
      transactions := rfl
      runs := fun name hook body found =>
        sameHooks.mem_iff.mp (mem_of_pkgHook found)
      silent := fun name hook absent =>
        pkgHook_eq_none_iff.mpr fun body member =>
          pkgHook_eq_none_iff.mp absent body (sameHooks.mem_iff.mpr member) }

/-! ## A package whose hooks changed -/

def emptyWorld : World where
  disk := ⟨.bare Content, [], []⟩
  db := .empty
  saved := none
  sqlFaults := []
  deleteFaults := []
  picks := []
  hookEnds := []

/-- A version of a package that says goodbye in its own words. -/
def hookedPkg (version body : Bytes) : PkgMeta where
  name := ascii "app"
  version := version
  release := 1
  arch := ascii "any"
  summary := none
  license := none
  reproStatus := none
  reproReason := none
  deps := []
  conflicts := []
  hooks := fun hook => if hook = .preRemove then some body else none

/-- Version 1 is installed and saved, and version 2 takes its place. -/
def upgradeHooked (first second : Bytes) : Io Unit := do
  Db.recordInstall (hookedPkg (ascii "1") first) [] none none 1
  Db.vacuumInto (fun _ => []) (ascii "/db.before")
  Db.recordInstall (hookedPkg (ascii "2") second) [] none none 2

/-- The world behind the upgrade. -/
def hookedWorld (first second : Bytes) : World :=
  finalState (upgradeHooked first second emptyWorld)

def hookedBefore (first second : Bytes) : Db :=
  (((hookedWorld first second).disk.contents
    (ascii "/db.before")).toOption.bind Content.database).getD .empty

/-- What a restore of the saved database leaves of it. -/
def hookedAfter (first second : Bytes) : World :=
  finalState (Db.restoreStateFrom (ascii "/db.before")
    (hookedWorld first second))

theorem sameHooks_restored :
    Restored (hookedBefore (ascii "echo") (ascii "echo"))
      (hookedWorld (ascii "echo") (ascii "echo")).db
      (hookedAfter (ascii "echo") (ascii "echo")).db := by
  have saved : (hookedWorld (ascii "echo") (ascii "echo")).disk.contents
      (ascii "/db.before") =
        .ok ⟨[], some (hookedBefore (ascii "echo") (ascii "echo"))⟩ := by
    decide +kernel
  have isOk : succeeded (Db.restoreStateFrom (ascii "/db.before")
      (hookedWorld (ascii "echo") (ascii "echo"))) = true := by
    decide +kernel
  exact (restoreStateFrom_restored_iff saved (eq_ok_of_succeeded isOk)).mpr
    (by decide +kernel)

/-- After the restore version 1 is installed, but on its removal the hook of
version 2 runs. -/
theorem hooks_not_restored :
    (hookedWorld (ascii "echo 1") (ascii "echo 2")).disk.contents
        (ascii "/db.before") =
          .ok ⟨[], some (hookedBefore (ascii "echo 1") (ascii "echo 2"))⟩ ∧
      succeeded (Db.restoreStateFrom (ascii "/db.before")
        (hookedWorld (ascii "echo 1") (ascii "echo 2"))) = true ∧
      ¬ Restored (hookedBefore (ascii "echo 1") (ascii "echo 2"))
        (hookedWorld (ascii "echo 1") (ascii "echo 2")).db
        (hookedAfter (ascii "echo 1") (ascii "echo 2")).db := by
  refine ⟨by decide +kernel, by decide +kernel, ?_⟩
  intro restored
  have runs := restored.runs (ascii "app") .preRemove (ascii "echo 2")
    (by decide +kernel)
  revert runs
  decide +kernel

end SaltOS.Deploy
