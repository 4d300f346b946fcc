import SaltOS.Deploy.Deploy

/-!
# Garbage collection

`src/halite/src/gc.c`: old generations and the cached artifacts that nothing
refers to.  The report of what was done is left out, since nothing depends on
it.
-/

namespace SaltOS.Deploy

open Lib Txn Util

/-- `salt_gc_opts`; a `keep` of 0 stands for all that are below 1. -/
structure GcOpts where
  keep : Nat
  pinned : List Nat
  dryRun : Bool
  deriving DecidableEq, Repr

/-- What comes from outside: whether the root is on Btrfs, the command that
deletes a snapshot, and `salt_gc_booted_generation`. -/
structure GcHost where
  useBtrfs : Bool
  delete : DeleteSubvolume
  booted : Option Nat

/-! ## What stays -/

/-- `salt_deploy_meta`, for its pin; without the schema there is none. -/
def metaPinned (id : Nat) : Io Bool := do
  match ← attempt ensureSchema with
  | .error _ => return false
  | .ok () =>
      let world ← get
      return isPinned world.db id

/-- The first loop of `salt_gc_run`; `okSeen` counts the generations that went
through. -/
def keptGenerations (host : GcHost) (opts : GcOpts) (newest : Nat) :
    Nat → List TxnRow → Io (List Nat)
  | _, [] => pure []
  | okSeen, row :: rows => do
      let recent := row.status = .ok && okSeen < max opts.keep 1
      let pinned ← metaPinned row.id
      let keepIt := recent || host.booted = some row.id ||
        opts.pinned.contains row.id || pinned ||
        (row.status = .started && row.id = newest)
      let others ← keptGenerations host opts newest
        (if recent then okSeen + 1 else okSeen) rows
      return if keepIt then row.id :: others else others

/-- The whole loop, over the generations from the newest one on. -/
def chooseKept (host : GcHost) (opts : GcOpts) (rows : List TxnRow) :
    Io (List Nat) :=
  keptGenerations host opts ((rows.head?.map TxnRow.id).getD 0) 0 rows

/-- The names of the artifacts of the installed packages. -/
def filenames (db : Db) : List Bytes :=
  (Db.listInstalled db).filterMap fun row => row.filename.filter (· ≠ [])

/-- `salt_db_snapshot_filenames`; what is not a database has none. -/
def snapshotFilenames (disk : Disk Content) (path : Bytes) : List Bytes :=
  match disk.contents path with
  | .ok ⟨_, some db⟩ => filenames db
  | _ => []

def pushNew (names : List Bytes) (name : Bytes) : List Bytes :=
  if name ∈ names then names else names ++ [name]

/-- The artifacts that are referred to, as `salt_gc_run` collects them. -/
def referenced (root : Bytes) (world : World) (kept : List Nat) :
    List Bytes :=
  let live := filenames world.db
  let saved := kept.flatMap fun id =>
    if pathExists world.disk (beforePath root id) then
      snapshotFilenames world.disk (beforePath root id)
    else []
  (live ++ saved).foldl pushNew []

/-! ## What goes -/

/-- The snapshot goes first, where there is one. -/
def deleteSnapshot (host : GcHost) (root : Bytes) (row : TxnRow) :
    Io Unit := fun world =>
  let name := row.snapshot.getD []
  let path := snapshotDir root ++ [47] ++ name
  if host.useBtrfs ∧ name ≠ [] ∧ 47 ∉ name ∧
      Util.isDir world.disk path = true then
    match host.delete path world.disk with
    | some disk => .ok () { world with disk := disk }
    | none => .error ⟨.io, some (ascii "btrfs subvolume delete failed for " ++
        path)⟩ world
  else .ok () world

/-- `prune_generation`. -/
def pruneGeneration (host : GcHost) (opts : GcOpts) (root : Bytes)
    (row : TxnRow) : Io Unit := do
  if opts.dryRun then pure ()
  else do
    deleteSnapshot host root row
    onDisk (removeTree (txnStateDir root row.id))
    ignore (Db.txnFinish row.id .pruned)
    ignore (Db.txnSetSnapshot row.id [])

/-- One entry in `sweep_cache_dir`: only plain files go. -/
def sweepEntry (dryRun : Bool) (dir : Bytes) (name : Lib.Name) :
    DiskIo Unit := do
  let full := joinPath dir name
  let disk ← get
  match disk.lstat full with
  | .ok (.file _ _) =>
      if dryRun then pure ()
      else
        match ← attempt (Disk.unlink full) with
        | .ok () => pure ()
        | .error _ =>
            throw ⟨.io, some (ascii "unlink " ++ full ++ ascii " failed")⟩
  | _ => pure ()

/-- `sweep_cache_dir`; without a list nothing is kept. -/
def sweepCacheDir (keep : Option (List Bytes)) (dryRun : Bool)
    (dir : Bytes) : DiskIo Unit := do
  let disk ← get
  match disk.readdir dir with
  | .error _ => pure ()
  | .ok names => names.forM fun name =>
      if keep.any (·.contains name) then pure ()
      else sweepEntry dryRun dir name

def cacheDir (root : Bytes) : Bytes :=
  joinPath root (ascii "var/lib/salt/cache")

/-- One entry in `sweep_cache`. -/
def sweepArch (keep : Option (List Bytes)) (dryRun : Bool) (root : Bytes)
    (name : Lib.Name) : DiskIo Unit := do
  if name = ascii "strata" then pure ()
  else do
    let disk ← get
    let sub := joinPath (cacheDir root) name
    if Util.isDir disk sub then sweepCacheDir keep dryRun sub else pure ()

/-- `sweep_cache`. -/
def sweepCache (keep : Option (List Bytes)) (dryRun : Bool)
    (root : Bytes) : DiskIo Unit := do
  let disk ← get
  match disk.readdir (cacheDir root) with
  | .error _ => pure ()
  | .ok names => names.forM (sweepArch keep dryRun root)

/-- The second loop of `salt_gc_run`. -/
def pruneOthers (host : GcHost) (opts : GcOpts) (root : Bytes)
    (kept : List Nat) (rows : List TxnRow) : Io Unit :=
  rows.forM fun row =>
    if row.status = .pruned ∨ row.id ∈ kept then pure ()
    else pruneGeneration host opts root row

/-- `salt_gc_run`. -/
def gcRun (host : GcHost) (opts : GcOpts) (root : Bytes) : Io Unit := do
  let start ← get
  let rows := deployments start.db
  let kept ← chooseKept host opts rows
  let world ← get
  let names := referenced root world kept
  pruneOthers host opts root kept rows
  onDisk (sweepCache (some names) opts.dryRun root)

/-- `salt_cache_clean`. -/
def cacheClean (root dir : Bytes) (dryRun : Bool) : DiskIo Unit :=
  if dir ≠ [] then sweepCacheDir none dryRun dir
  else sweepCache none dryRun root

end SaltOS.Deploy
