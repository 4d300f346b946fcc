import SaltOS.Lib.Patch
import SaltOS.Deploy.Deploy

/-!
# What a deployment changed

The table `txn_changes`: `record_with_before` fills it with the difference
between the packages of a saved database and those of the present one, and
`salt_deploy_changes` reads it.  The rest of a deployment's record is
`recordMeta`.
-/

namespace SaltOS.Deploy

open Lib Txn

/-! ## The table -/

/-- A row of `txn_changes`. -/
structure ChangeRow where
  txnId : Nat
  name : Bytes
  oldVersion : Option Bytes
  newVersion : Option Bytes
  deriving DecidableEq, Repr

/-- The world, with the table. -/
structure ChangesWorld where
  world : World
  changes : List ChangeRow

abbrev ChangesIo := EStateM Failure ChangesWorld

def onWorld {α : Type} (program : Io α) : ChangesIo α := fun state =>
  match program state.world with
  | .ok value world => .ok value { state with world := world }
  | .error failure world => .error failure { state with world := world }

/-- `exec_sql` of a statement on the table. -/
def execChanges (change : ChangesWorld → List ChangeRow) : ChangesIo Unit := do
  onWorld (Sql.update (some (ascii "db: ")) fun db => db)
  modify fun state => { state with changes := change state }

/-! ## The difference -/

/-- `version||'-'||release`. -/
def versionRelease (row : PackageRow) : Bytes :=
  row.version ++ 45 :: printInt row.release

section

variable (id : Nat) (before packages : List PackageRow)

/-- The packages that are no longer there. -/
def removedRows : List ChangeRow :=
  (before.filter fun b => ¬ packages.any fun p => p.name = b.name).map fun b =>
    ⟨id, b.name, some (versionRelease b), none⟩

/-- The packages that were not there. -/
def addedRows : List ChangeRow :=
  (packages.filter fun p => ¬ before.any fun b => b.name = p.name).map fun p =>
    ⟨id, p.name, none, some (versionRelease p)⟩

/-- The packages that are there in another version or release. -/
def changedRows : List ChangeRow :=
  packages.flatMap fun p =>
    (before.filter fun b => b.name = p.name ∧
      (p.version ≠ b.version ∨ p.release ≠ b.release)).map fun b =>
        ⟨id, p.name, some (versionRelease b), some (versionRelease p)⟩

/-- The three `SELECT`s, ordered by name. -/
def differenceRows : List ChangeRow :=
  (removedRows id before packages ++ addedRows id before packages ++
    changedRows id before packages).insertionSort fun first second =>
      first.name ≤ second.name

end

/-! ## Recording -/

/-- The database that `ATTACH` finds in a file. -/
def databaseAt (disk : Disk Content) (path : Bytes) : Option Db :=
  match disk.contents path with
  | .ok content => content.database
  | .error _ => none

/-- `ATTACH ? AS before`, if it succeeds. -/
def attachBefore (path : Bytes) : ChangesIo (Option Db) := do
  let state ← get
  match databaseAt state.world.disk path with
  | none => return none
  | some before =>
      match ← attempt (onWorld (Sql.update none fun db => db)) with
      | .ok () => return some before
      | .error (_ : Failure) => return none

/-- The part of `record_with_before` that `recordMeta` has, too. -/
def recordKernel (root : Bytes) (id : Nat) : Io Unit := do
  let world ← get
  let kernel := newestKernel world.disk root
  ignore (Sql.update none (withKernel id kernel))

theorem recordMeta_eq (root : Bytes) (id : Nat) :
    recordMeta root id = (do ensureSchema; recordKernel root id) := rfl

/-- `DELETE FROM txn_changes ..; INSERT INTO txn_changes ..`. -/
def replaceChanges (id : Nat) (before : Db) : ChangesIo Unit := do
  execChanges fun state => state.changes.filter (·.txnId ≠ id)
  execChanges fun state => state.changes ++
    differenceRows id before.tables.packages state.world.db.tables.packages

/-- `record_with_before`, of a root whose kernels are looked at. -/
def recordWithBefore (root : Bytes) (id : Nat) (path : Bytes) :
    ChangesIo Unit := do
  onWorld ensureSchema
  let state ← get
  if Util.pathExists state.world.disk path then
    match ← attachBefore path with
    | some before =>
        ignore (replaceChanges id before)
        ignore (onWorld (Sql.update (some (ascii "db: ")) (fun db => db)))
    | none => pure ()
  onWorld (recordKernel root id)

/-- `salt_deploy_record`. -/
def deployRecord (root : Bytes) (id : Nat) : ChangesIo Unit :=
  recordWithBefore root id (beforePath root id)

/-- `salt_deploy_changes`. -/
def deployChanges (id : Nat) : ChangesIo (List ChangeRow) := do
  onWorld ensureSchema
  let state ← get
  return (state.changes.filter (·.txnId = id)).insertionSort
    fun first second => first.name ≤ second.name

end SaltOS.Deploy
