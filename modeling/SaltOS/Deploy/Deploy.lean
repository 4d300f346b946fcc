import SaltOS.Boot.Kernels
import SaltOS.Lib.Keyed
import SaltOS.Txn.Txn

/-!
# Deployments

`src/halite/src/deploy.c`: the history of transactions with their pins, pruning
it, and rolling back on a root that is not Btrfs.  What a deployment changed,
table `txn_changes`, has a module of its own.

Deleting a Btrfs snapshot is a command of its own: what the disk is afterwards,
if it succeeds, comes from outside.
-/

namespace SaltOS.Deploy

open Lib Txn

/-! ## The history -/

/-- `salt_db_deployments`, newest first. -/
def deployments (db : Db) : List TxnRow :=
  db.transactions.insertionSort fun first second => second.id ≤ first.id

/-- `snapshot IS NOT NULL AND snapshot!=''`. -/
def carries (row : TxnRow) : Bool :=
  row.snapshot.any (· ≠ [])

/-- `SELECT .. FROM transactions WHERE id=?`. -/
def txnRow (db : Db) (id : Nat) : Option TxnRow :=
  db.transactions.find? (·.id = id)

/-- `max_txn_id`. -/
def maxTxnId (db : Db) : Nat :=
  (db.transactions.map TxnRow.id).foldr max 0

/-- `SELECT .. FROM txn_meta WHERE txn_id=?`. -/
def metaRow (db : Db) (id : Nat) : Option MetaRow :=
  db.metas.find? (·.txnId = id)

/-- `salt_deploy_meta`. -/
def deployMeta (db : Db) (id : Nat) : MetaRow :=
  (metaRow db id).getD ⟨id, none, false⟩

def isPinned (db : Db) (id : Nat) : Bool :=
  (deployMeta db id).pinned

/-- `INSERT OR REPLACE INTO txn_meta`. -/
def replaceMeta (row : MetaRow) (db : Db) : Db :=
  { db with metas := replaceRows MetaRow.txnId row.txnId [row] db.metas }

/-- `salt_deploy_ensure_schema`. -/
def ensureSchema : Io Unit :=
  Sql.update (some (ascii "db: ")) id

/-- The upsert of `salt_deploy_pin`. -/
def withPin (id : Nat) (pinned : Bool) (db : Db) : Db :=
  replaceMeta { deployMeta db id with pinned := pinned } db

/-- `salt_deploy_pin`. -/
def pin (id : Nat) (pinned : Bool) : Io Unit := do
  ensureSchema
  let world ← get
  if (txnRow world.db id).isNone then
    throw ⟨.notFound, some (ascii "no deployment #" ++ printBase 10 id)⟩
  else Sql.update none (withPin id pinned)

/-- The newest kernel in the `boot` directory of a root. -/
def newestKernel (disk : Disk Content) (root : Bytes) : Option Bytes :=
  let boot := Util.joinPath root (ascii "boot")
  let isRegular (name : Bytes) : Bool :=
    match disk.stat (Util.joinPath boot name) with
    | .ok (.file _ _) => true
    | _ => false
  (((disk.readdir boot).toOption.getD []).filter fun name =>
    Boot.kernelNameOk name && isRegular name).insertionSort
      (fun left right => Boot.kernelCmp left right ≤ 0) |>.head?

/-- The statement of `record_with_before` on `txn_meta`: a pin stays. -/
def withKernel (id : Nat) (kernel : Option Bytes) (db : Db) : Db :=
  replaceMeta ⟨id, kernel, isPinned db id⟩ db

/-- `record_with_before`, of which only `txn_meta` is kept. -/
def recordMeta (root : Bytes) (id : Nat) : Io Unit := do
  ensureSchema
  let world ← get
  let kernel := newestKernel world.disk root
  ignore (Sql.update none (withKernel id kernel))

/-! ## Rolling back -/

/-- `salt_deploy_pick_rollback`. -/
def pickRollback (db : Db) : Except Failure Nat :=
  match (deployments db).find? fun row => row.status = .ok ∧ carries row with
  | some row => .ok row.id
  | none => .error ⟨.notFound, some (ascii "no deployment to roll back to")⟩

/-- What `mark_undone` makes of a row. -/
def undoneRow (first last : Nat) (row : TxnRow) : TxnRow :=
  if first ≤ row.id ∧ row.id < last ∧ row.status = .ok then
    { row with status := .undone }
  else row

def undone (first last : Nat) (db : Db) : Db :=
  { db with transactions := db.transactions.map (undoneRow first last) }

/-- `mark_undone`. -/
def markUndone (first last : Nat) : Io Unit :=
  Sql.update (some (ascii "db: ")) (undone first last)

/-- The loop of `rollback_files`, from the newest deployment to the target. -/
def revertDeployments (root : Bytes) (target : Nat) : Io Unit := do
  let world ← get
  let latest := maxTxnId world.db
  (List.range' target (latest + 1 - target)).reverse.forM fun id =>
    match txnRow world.db id with
    | some row =>
        if row.status = .ok then ignore (onDisk (revertFiles root id))
        else pure ()
    | none => pure ()

/-- The first half of `rollback_files`: the files of the target, and the
rollback with a copy of the database. -/
def prepareRollback (host : Host) (root : Bytes) (target : Nat) :
    Io Nat := do
  revertDeployments root target
  let id ← Db.txnNew (ascii "rollback")
  ignore (onDisk (Util.mkdirs (txnStateDir root id) 493))
  ignore (Db.vacuumInto host.image (beforePath root id))
  return id

/-- The tables of the target, if they are still there. -/
def restoreTarget (root : Bytes) (target : Nat) : Io Unit := do
  let world ← get
  if Util.pathExists world.disk (beforePath root target) then
    Db.restoreStateFrom (beforePath root target)
  else pure ()

/-- `rollback_files`, with the id of the rollback. -/
def rollbackFiles (host : Host) (root : Bytes) (target : Nat) : Io Nat := do
  let id ← prepareRollback host root target
  let restored ← attempt (restoreTarget root target)
  ignore (markUndone target id)
  ignore (Db.txnFinish id .ok)
  ignore (recordMeta root id)
  match restored with
  | .ok () => return id
  | .error failure => throw failure

/-- A deployment that `rollback_files` starts from. -/
def hasState (disk : Disk Content) (root : Bytes) (row : TxnRow) : Bool :=
  carries row && Util.pathExists disk (beforePath root row.id)

/-- The deployment to go back to; the id 0 stands for any that is not
positive. -/
def chooseTarget (disk : Disk Content) (root : Bytes) (db : Db) (id : Nat) :
    Except Failure Nat := do
  let target ← if id = 0 then pickRollback db else pure id
  match txnRow db target with
  | none => throw ⟨.notFound, some (ascii "no deployment #" ++
      printBase 10 target)⟩
  | some row =>
      if hasState disk root row then return target
      else throw ⟨.notFound, some (ascii "deployment #" ++
        printBase 10 target ++ ascii " has no snapshot left to restore")⟩

/-- `salt_rollback_to` on a root that is not Btrfs. -/
def rollbackTo (host : Host) (root : Bytes) (id : Nat) : Io Nat := do
  let world ← get
  match chooseTarget world.disk root world.db id with
  | .error failure => throw failure
  | .ok target => rollbackFiles host root target

/-! ## Pruning -/

/-- `ctx->snapshot_dir`. -/
def snapshotDir (root : Bytes) : Bytes :=
  Util.joinPath root (ascii ".snapshots")

/-- What `btrfs subvolume delete` makes of the disk, unless it fails. -/
abbrev DeleteSubvolume := Bytes → Disk Content → Option (Disk Content)

/-- Whether the snapshot is gone, and so its deployment can be pruned. -/
def dropSnapshot (delete : DeleteSubvolume) (root snapshot : Bytes) :
    Io Bool := fun world =>
  let full := Util.joinPath (snapshotDir root) snapshot
  if (ascii "root-").isPrefixOf snapshot ∧ Util.isDir world.disk full = true
  then
    match delete full world.disk with
    | some disk => .ok true { world with disk := disk }
    | none => .ok false world
  else .ok true world

/-- `salt_remove_recursive` of a tree that is there. -/
def removeTree (path : Bytes) : DiskIo Unit := do
  let disk ← get
  Util.removeRecursive (disk.fs.depth + 1) path

/-- `UPDATE transactions SET snapshot=NULL WHERE id=?`. -/
def withoutSnapshot (id : Nat) (db : Db) : Db :=
  db.updateTxn id ({ · with snapshot := none })

/-- One round of the second loop of `salt_deploy_prune`. -/
def pruneDeployment (delete : DeleteSubvolume) (root : Bytes)
    (row : TxnRow) : Io Unit := do
  let gone ← dropSnapshot delete root (row.snapshot.getD [])
  if gone then
    ignore (onDisk (removeTree (backupDir root row.id)))
    ignore (onDisk (ignore (Disk.unlink (addedPath root row.id) :
      EStateM Errno (Disk Content) Unit) : DiskIo Unit))
    ignore (Sql.update (some (ascii "db: ")) (withoutSnapshot row.id))
  else pure ()

/-- The deployments without a pin that carry a snapshot, but for the newest
ones. -/
def victims (db : Db) (keep : Nat) : List TxnRow :=
  ((deployments db).filter fun row =>
    carries row && !isPinned db row.id).drop keep

/-- `salt_deploy_prune`. -/
def prune (delete : DeleteSubvolume) (root : Bytes) (keep : Nat) :
    Io Unit := do
  ensureSchema
  let world ← get
  (victims world.db (max keep 1)).forM (pruneDeployment delete root)

end SaltOS.Deploy
