import Mathlib.Data.List.Sort
import SaltOS.Archive.Grain
import SaltOS.Base.Util

/-!
# The package database

`src/halite/src/db.c` over tables that are lists of rows, together with the
world the transactions run in: the disk, the database, the copy that an SQL
transaction goes back to, and what the environment decides (which statements
fail, which row a `LIMIT 1` picks, how hooks end).  A statement that fails
changes nothing.  The failures of statements whose outcome the code does not
look at are listed apart, in `deleteFaults`.

Time columns are left out, and so is the table `txn_changes`: nothing here
reads them.
-/

namespace SaltOS

open Lib Pkg

/-! ## Rows -/

structure PackageRow where
  name : Bytes
  version : Bytes
  release : Int
  arch : Bytes
  summary : Bytes
  license : Bytes
  repo : Bytes
  sigStatus : Bytes
  txnId : Nat
  filename : Option Bytes
  sha256 : Option Bytes
  deriving DecidableEq, Repr

structure FileRow where
  name : Bytes
  path : Bytes
  mode : Nat
  size : Nat
  sha256 : Bytes
  type : UInt8
  linkname : Bytes
  deriving DecidableEq, Repr

/-- The row records something other than a directory. -/
def FileRow.IsLeaf (row : FileRow) : Prop :=
  row.type ≠ Tar.typeDir

instance (row : FileRow) : Decidable row.IsLeaf :=
  inferInstanceAs (Decidable (_ ≠ _))

inductive Status where
  | started
  | ok
  | failed
  | undone
  | rolledBack
  | pruned
  deriving DecidableEq, Repr

structure TxnRow where
  id : Nat
  op : Bytes
  status : Status
  snapshot : Option Bytes
  deriving DecidableEq, Repr

/-- The tables that describe the installed packages. -/
structure Tables where
  packages : List PackageRow
  files : List FileRow
  deps : List (Bytes × Bytes)
  conflicts : List (Bytes × Bytes)
  hooks : List (Bytes × Bytes × Bytes)
  deriving DecidableEq, Repr

/-- A row of `txn_meta`. -/
structure MetaRow where
  txnId : Nat
  kernel : Option Bytes
  pinned : Bool
  deriving DecidableEq, Repr

/-- The database: `lastId` is the `AUTOINCREMENT` counter of `transactions`,
`metas` is the table `txn_meta`. -/
structure Db where
  tables : Tables
  transactions : List TxnRow
  lastId : Nat
  metas : List MetaRow
  deriving DecidableEq, Repr

def Tables.empty : Tables := ⟨[], [], [], [], []⟩

def Db.empty : Db := ⟨.empty, [], 0, []⟩

/-- What a file holds: its bytes and, when SQLite wrote it, the database that
attaching it gives. -/
structure Content where
  bytes : Bytes
  database : Option Db
  deriving DecidableEq, Repr

def Content.raw (bytes : Bytes) : Content := ⟨bytes, none⟩

/-- How the process of a hook ends. -/
inductive HookEnd where
  | exited (code : Nat)
  | killed (signal : Nat)
  | timedOut (seconds : Nat)
  | lost (call : Bytes) (errno : Errno)
  deriving DecidableEq, Repr

structure World where
  disk : Disk Content
  db : Db
  saved : Option Db
  sqlFaults : List Bool
  deleteFaults : List Bool
  picks : List Nat
  hookEnds : List HookEnd

/-- `salt_db_close`: SQLite rolls an open transaction back. -/
def World.closed (world : World) : Db :=
  world.saved.getD world.db

abbrev Io := EStateM Failure World

/-- A program on the disk, in the world. -/
def onDisk {α : Type} (program : EStateM Failure (Disk Content) α) : Io α :=
  fun world =>
    match program world.disk with
    | .ok value disk => .ok value { world with disk := disk }
    | .error failure disk => .error failure { world with disk := disk }

theorem onDisk_ends {α : Type} {program : EStateM Failure (Disk Content) α}
    {world : World} {good : α → Disk Content → Prop}
    {bad : Failure → Disk Content → Prop}
    (ends : Ends (program world.disk) good bad) :
    Ends (onDisk program world)
      (fun value after => good value after.disk ∧
        after = { world with disk := after.disk })
      (fun failure after => bad failure after.disk ∧
        after = { world with disk := after.disk }) := by
  unfold onDisk
  cases outcome : program world.disk <;> rw [outcome] at ends <;>
    exact ⟨ends, rfl⟩

/-- Such a program leaves the rest of the world alone. -/
theorem onDisk_endsIn {α : Type} {program : EStateM Failure (Disk Content) α}
    {world : World} {property : Disk Content → Prop}
    (ends : EndsIn (program world.disk) property) :
    EndsIn (onDisk program world) fun after =>
      property after.disk ∧ after = { world with disk := after.disk } :=
  onDisk_ends ends

namespace Sql

/-- What `sqlite3_errmsg` says about a statement that the environment made
fail. -/
def errmsg : Bytes := ascii "disk I/O error"

/-- A statement that changes the database; a caller that sets an error
message puts `what` before the text of SQLite. -/
def statement (what : Option Bytes) (change : Db → Except Bytes Db) :
    Io Unit := fun world =>
  let next := { world with sqlFaults := world.sqlFaults.tail }
  if world.sqlFaults.head? = some true then
    .error ⟨.err, what.map (· ++ errmsg)⟩ next
  else
    match change world.db with
    | .error message => .error ⟨.err, what.map (· ++ message)⟩ next
    | .ok db => .ok () { next with db := db }

def update (what : Option Bytes) (change : Db → Db) : Io Unit :=
  statement what (fun db => .ok (change db))

theorem update_disk (what : Option Bytes) (change : Db → Db)
    (world : World) :
    EndsIn (update what change world) fun after =>
      after.disk = world.disk := by
  unfold update statement
  split <;> exact rfl

/-- No statement fails any more. -/
theorem update_quiet {world : World} (quiet : world.sqlFaults = [])
    (what : Option Bytes) (change : Db → Db) :
    update what change world =
      .ok () { world with db := change world.db } := by
  unfold update statement
  rw [quiet]
  rfl

/-- Rows are added and removed table by table. -/
def updateTables (what : Option Bytes) (change : Tables → Tables) :
    Io Unit :=
  update what (fun db => { db with tables := change db.tables })

/-- `exec` of a statement that begins or ends an SQL transaction. -/
def control (change : World → Except Bytes World) : Io Unit := fun world =>
  let next := { world with sqlFaults := world.sqlFaults.tail }
  if world.sqlFaults.head? = some true then
    .error ⟨.err, some (ascii "db: " ++ errmsg)⟩ next
  else
    match change next with
    | .error message => .error ⟨.err, some (ascii "db: " ++ message)⟩ next
    | .ok after => .ok () after

/-- `salt_db_sql_begin`. -/
def begin : Io Unit :=
  control fun world =>
    match world.saved with
    | some _ =>
        .error (ascii "cannot start a transaction within a transaction")
    | none => .ok { world with saved := some world.db }

/-- `salt_db_sql_commit`. -/
def commit : Io Unit :=
  control fun world =>
    match world.saved with
    | some _ => .ok { world with saved := none }
    | none => .error (ascii "cannot commit - no transaction is active")

/-- `salt_db_sql_rollback`. -/
def rollback : Io Unit :=
  control fun world =>
    match world.saved with
    | some db => .ok { world with db := db, saved := none }
    | none => .error (ascii "cannot rollback - no transaction is active")

end Sql

namespace Db

open Sql

/-! ## Transactions -/

/-- `salt_db_txn_new`. -/
def txnNew (op : Bytes) : Io Nat := do
  update (some (ascii "db txn_new: ")) fun db =>
    { db with
      transactions := db.transactions ++ [⟨db.lastId + 1, op, .started, none⟩]
      lastId := db.lastId + 1 }
  let world ← get
  return world.db.lastId

def updateTxn (db : Db) (id : Nat) (change : TxnRow → TxnRow) : Db :=
  { db with
    transactions := db.transactions.map fun row =>
      if row.id = id then change row else row }

/-- `salt_db_txn_finish`. -/
def txnFinish (id : Nat) (status : Status) : Io Unit :=
  update none fun db => db.updateTxn id ({ · with status := status })

/-- `salt_db_txn_set_snapshot`. -/
def txnSetSnapshot (id : Nat) (snapshot : Bytes) : Io Unit :=
  update none fun db => db.updateTxn id ({ · with snapshot := some snapshot })

/-! ## Packages -/

/-- A `DELETE .. WHERE name=?` whose result nobody looks at. -/
def deleteFrom (change : Tables → Tables) : Io Unit := fun world =>
  let next := { world with deleteFaults := world.deleteFaults.tail }
  if world.deleteFaults.head? = some true then .ok () next
  else .ok () { next with
    db := { world.db with tables := change world.db.tables } }

def withoutPackages (name : Bytes) (tables : Tables) : Tables :=
  { tables with packages := tables.packages.filter (·.name ≠ name) }

def withoutFiles (name : Bytes) (tables : Tables) : Tables :=
  { tables with files := tables.files.filter (·.name ≠ name) }

def withoutDeps (name : Bytes) (tables : Tables) : Tables :=
  { tables with deps := tables.deps.filter (·.1 ≠ name) }

def withoutConflicts (name : Bytes) (tables : Tables) : Tables :=
  { tables with conflicts := tables.conflicts.filter (·.1 ≠ name) }

def withoutHooks (name : Bytes) (tables : Tables) : Tables :=
  { tables with hooks := tables.hooks.filter (·.1 ≠ name) }

/-- The row of a manifest entry. -/
def fileRow (name : Bytes) (entry : ManifestEntry) : FileRow where
  name := name
  path := entry.path
  mode := entry.mode
  size := entry.size
  sha256 := entry.sha256.getD []
  type := if entry.typeflag = 0 then 48 else entry.typeflag
  linkname := entry.linkname.getD []

def packageRow (pkg : PkgMeta) (repo sigStatus : Option Bytes) (txnId : Nat) :
    PackageRow where
  name := pkg.name
  version := pkg.version
  release := pkg.release
  arch := pkg.arch
  summary := pkg.summary.getD []
  license := pkg.license.getD []
  repo := repo.getD []
  sigStatus := sigStatus.getD (ascii "unknown")
  txnId := txnId
  filename := none
  sha256 := none

/-- The insertion fails when the name, the primary key, is taken. -/
def insertPackage (row : PackageRow) : Io Unit :=
  statement (some (ascii "db install pkg: ")) fun db =>
    if db.tables.packages.any (fun other => other.name = row.name) then
      .error (ascii "UNIQUE constraint failed: packages.name")
    else
      .ok { db with
        tables := { db.tables with
          packages := db.tables.packages ++ [row] } }

def insertHook (pkg : PkgMeta) (hook : Hook) : Io Unit :=
  match pkg.hooks hook with
  | none => pure ()
  | some body =>
      updateTables (some (ascii "db: recording hook " ++ hook.name ++
          ascii " for " ++ pkg.name ++ ascii ": ")) fun tables =>
        { tables with hooks := tables.hooks ++ [(pkg.name, hook.name, body)] }

def insertFile (name : Bytes) (entry : ManifestEntry) : Io Unit :=
  updateTables (some (ascii "db install file " ++ entry.path ++ ascii ": "))
    fun tables =>
      { tables with files := tables.files ++ [fileRow name entry] }

def insertDep (name dep : Bytes) : Io Unit :=
  updateTables (some (ascii "db install dep " ++ dep ++ ascii ": "))
    fun tables => { tables with deps := tables.deps ++ [(name, dep)] }

def insertConflict (name conflict : Bytes) : Io Unit :=
  updateTables
    (some (ascii "db install conflict " ++ conflict ++ ascii ": ")) fun tables =>
      { tables with conflicts := tables.conflicts ++ [(name, conflict)] }

/-- `salt_db_record_install`. -/
def recordInstall (pkg : PkgMeta) (manifest : Manifest)
    (repo sigStatus : Option Bytes) (txnId : Nat) : Io Unit := do
  deleteFrom (withoutPackages pkg.name)
  deleteFrom (withoutFiles pkg.name)
  deleteFrom (withoutDeps pkg.name)
  deleteFrom (withoutConflicts pkg.name)
  deleteFrom (withoutHooks pkg.name)
  Hook.all.forM (insertHook pkg)
  insertPackage (packageRow pkg repo sigStatus txnId)
  manifest.forM (insertFile pkg.name)
  pkg.deps.forM (insertDep pkg.name)
  pkg.conflicts.forM (insertConflict pkg.name)

/-- `salt_db_set_pkg_artifact`. -/
def setPkgArtifact (name filename sha256 : Bytes) : Io Unit :=
  updateTables (some (ascii "db set artifact " ++ name ++ ascii ": "))
    fun tables =>
    { tables with
      packages := tables.packages.map fun row =>
        if row.name = name then
          { row with filename := some filename, sha256 := some sha256 }
        else row }

/-- `salt_db_record_remove`. -/
def recordRemove (name : Bytes) : Io Unit := do
  deleteFrom (withoutFiles name)
  deleteFrom (withoutDeps name)
  deleteFrom (withoutConflicts name)
  deleteFrom (withoutHooks name)
  updateTables none (withoutPackages name)

/-- `salt_db_is_installed`. -/
def isInstalled (db : Db) (name : Bytes) : Bool :=
  db.tables.packages.any (fun row => row.name = name)

/-- `salt_db_get_pkg`. -/
def getPkg (db : Db) (name : Bytes) : Option PackageRow :=
  db.tables.packages.find? fun row => row.name = name

/-- `salt_db_list_installed`, ordered by name. -/
def listInstalled (db : Db) : List PackageRow :=
  db.tables.packages.insertionSort fun first second =>
    first.name ≤ second.name

/-- `SELECT DISTINCT name .. WHERE ..=? ORDER BY name` of a table of pairs. -/
def namesWith (rows : List (Bytes × Bytes)) (value : Bytes) : List Bytes :=
  (((rows.filter (·.2 = value)).map Prod.fst).dedup).insertionSort (· ≤ ·)

/-- `salt_db_revdeps`. -/
def revdeps (db : Db) (name : Bytes) : List Bytes :=
  namesWith db.tables.deps name

/-- `salt_db_conflicts_with`. -/
def conflictsWith (db : Db) (name : Bytes) : List Bytes :=
  namesWith db.tables.conflicts name

/-- `salt_db_pkg_deps`. -/
def pkgDeps (db : Db) (name : Bytes) : List Bytes :=
  ((db.tables.deps.filter (·.1 = name)).map Prod.snd).insertionSort (· ≤ ·)

/-- The rows that `salt_db_owner` selects from. -/
def ownerRows (db : Db) (path : Bytes) : List FileRow :=
  db.tables.files.filter fun row =>
    row.path = path ∨ row.path = path.dropWhile (· == 47)

/-- `salt_db_owner`: which of the rows comes first is up to SQLite. -/
def owner (db : Db) (pick : Nat) (path : Bytes) : Option Bytes :=
  let rows := db.ownerRows path
  (rows[pick % rows.length]?).map FileRow.name

/-- `length` of SQLite counts characters, not bytes. -/
def charLength (text : Bytes) : Nat :=
  text.countP (fun byte => byte < 128 || 192 ≤ byte)

def rowEntry (row : FileRow) : ManifestEntry where
  path := row.path
  typeflag := row.type
  mode := row.mode
  size := row.size
  sha256 := some row.sha256
  linkname := some row.linkname

/-- `salt_db_pkg_manifest`, longest paths first. -/
def pkgManifest (db : Db) (name : Bytes) : Manifest :=
  ((db.tables.files.filter (·.name = name)).insertionSort
    (fun first second =>
      charLength second.path ≤ charLength first.path)).map rowEntry

/-- `salt_db_pkg_hook`. -/
def pkgHook (db : Db) (name : Bytes) (hook : Hook) : Option Bytes :=
  (db.tables.hooks.find? fun row => row.1 = name ∧ row.2.1 = hook.name).map
    (·.2.2)

/-! ## Saved databases -/

/-- `salt_db_vacuum_into`; `image` gives the bytes that SQLite writes. -/
def vacuumInto (image : Db → Bytes) (path : Bytes) : Io Unit := do
  onDisk (ignore (Disk.unlink path : EStateM Errno (Disk Content) Unit))
  let world ← get
  match world.disk.lstat path with
  | .ok _ =>
      throw ⟨.err, some (ascii "db vacuum: output file already exists")⟩
  | .error _ =>
      update (some (ascii "db vacuum: ")) id
      onDisk (Util.checked "db vacuum" path
        (Disk.rename ⟨image world.db, some world.db⟩ 420 path))

/-- The package tables of a saved database; hooks are not among what is
restored. -/
def withTablesOf (db before : Db) : Db :=
  { db with tables := { before.tables with hooks := db.tables.hooks } }

/-- `salt_db_restore_state_from`. -/
def restoreStateFrom (path : Bytes) : Io Unit := do
  let world ← get
  match world.disk.contents path with
  | .error errno => throw (callFailed "db attach" path errno)
  | .ok content =>
      match content.database with
      | none => throw ⟨.err, some (ascii "db attach " ++ path ++
          ascii ": file is not a database")⟩
      | some before => update (some (ascii "db: ")) (·.withTablesOf before)

end Db

end SaltOS
