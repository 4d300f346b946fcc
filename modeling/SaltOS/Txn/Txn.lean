import SaltOS.Archive.TarExtract
import SaltOS.Txn.Db

/-!
# Installing, removing and reverting

`src/halite/src/txn.c`, and the part of `native_transaction` in
`src/salt/cmd_install.cpp` that changes something.  Reverting is that of a
root that is not Btrfs.

Hooks are processes of their own; a hook ends as the environment decides and
touches no file.  So does the command that makes a Btrfs snapshot.
-/

namespace SaltOS

open Lib Pkg

/-- What the library takes from others: zstd, the file format of SQLite and,
on a Btrfs root, whether its snapshot command succeeds. -/
structure Host where
  decompress : Bytes → Except Failure Bytes
  image : Db → Bytes
  btrfs : Option Bool

namespace Txn

/-- `ctx->state_dir`. -/
def stateDir (root : Bytes) : Bytes :=
  Util.joinPath root (ascii "var/lib/salt/state")

def txnName (id : Nat) : Bytes :=
  ascii "txn-" ++ printBase 10 id

/-- `txn_state_dir`. -/
def txnStateDir (root : Bytes) (id : Nat) : Bytes :=
  stateDir root ++ [47] ++ txnName id

def backupDir (root : Bytes) (id : Nat) : Bytes :=
  Util.joinPath (txnStateDir root id) (ascii "backup")

def addedPath (root : Bytes) (id : Nat) : Bytes :=
  Util.joinPath (txnStateDir root id) (ascii "added.list")

def beforePath (root : Bytes) (id : Nat) : Bytes :=
  Util.joinPath (txnStateDir root id) (ascii "db.before")

/-- `salt_snapshot_create`; the snapshot of a plain root is a name only. -/
def snapshotCreate (host : Host) (root : Bytes) (id : Nat) : Io Bytes := do
  ignore (onDisk (Util.mkdirs (txnStateDir root id) 493))
  ignore (Db.vacuumInto host.image (beforePath root id))
  match host.btrfs with
  | none => return txnName id
  | some made =>
      ignore (onDisk (Util.mkdirs
        (Util.joinPath root (ascii ".snapshots")) 493))
      if made then return ascii "root-" ++ printBase 10 id
      else throw ⟨.io, some (ascii "btrfs snapshot failed")⟩

section Backup

abbrev DiskIo := EStateM Failure (Disk Content)

/-- The directories above a path, as far as they can be made. -/
def makeParent (path : Bytes) : DiskIo Unit :=
  ignore (Util.mkdirs (joinSlash (components path).dropLast) 493 :
    DiskIo Unit)

/-- `readlink` into a buffer of 1024 bytes. -/
def linkTarget (target : Bytes) : Bytes := target.take 1023

/-- A link made anew at `dst`, with the target of the one at `src`. -/
def copyLink (src dst : Bytes) : DiskIo Unit := do
  let disk ← get
  match disk.readlink src with
  | .error _ => throw ⟨.io, none⟩
  | .ok target =>
      ignore (Disk.unlink dst : EStateM Errno (Disk Content) Unit)
      match ← attempt (Disk.symlink (linkTarget target) dst) with
      | .ok () => pure ()
      | .error _ => throw ⟨.io, none⟩

def backupNode (src dst : Bytes) (node : Node Content) : DiskIo Unit :=
  match node with
  | .symlink _ => copyLink src dst
  | .file _ _ => Util.copyFile src dst
  | .dir _ => pure ()

/-- `backup_file`. -/
def backupFile (root backup rel : Bytes) : DiskIo Unit := do
  let src := Util.joinPath root rel
  let disk ← get
  match disk.lstat src with
  | .error _ => pure ()
  | .ok node =>
      let dst := Util.joinPath backup rel
      makeParent dst
      match ← attempt (backupNode src dst node) with
      | .ok () => pure ()
      | .error failure =>
          throw { failure with
            message := some (ascii "backup of " ++ rel ++ ascii " failed") }

/-- `append_added`. -/
def appendAdded (path added : Bytes) : DiskIo Unit := do
  if added = [] then pure ()
  else
    let old ← match ← attempt (Util.readFile path) with
      | .ok content => pure (Content.bytes content)
      | .error (_ : Failure) => pure []
    Util.writeFile path (Content.raw (old ++ added)) 420

end Backup

/-- `manifest_has`. -/
def manifestHas (manifest : Manifest) (path : Bytes) : Bool :=
  manifest.any (fun entry => entry.path = path)

/-- `manifest_check_confined`. -/
def manifestCheckConfined (manifest : Manifest) : Io Unit :=
  manifest.forM fun entry =>
    if Util.pathIsConfined entry.path then pure ()
    else throw ⟨.format, some (ascii "manifest: refusing unsafe path '" ++
      entry.path ++ ascii "'")⟩

def hookFailed (hook : Hook) (pkg rest : Bytes) : Failure :=
  ⟨.err, some (hook.name ++ ascii " hook of " ++ pkg ++ rest)⟩

def hookResult (hook : Hook) (pkg : Bytes) : HookEnd → Except Failure Unit
  | .exited 0 => .ok ()
  | .exited code => .error (hookFailed hook pkg
      (ascii " failed (exit " ++ printBase 10 code ++ ascii ")"))
  | .killed signal => .error (hookFailed hook pkg
      (ascii " killed by signal " ++ printBase 10 signal))
  | .timedOut seconds => .error (hookFailed hook pkg
      (ascii " timed out after " ++ printBase 10 seconds ++ ascii "s"))
  | .lost call errno => .error (hookFailed hook pkg
      (ascii ": " ++ call ++ ascii ": " ++ strerror errno))

/-- `run_hook`. -/
def runHook (hook : Hook) (pkg : Bytes) : Io Unit := do
  let world ← get
  set { world with hookEnds := world.hookEnds.tail }
  match hookResult hook pkg (world.hookEnds.head?.getD (.exited 0)) with
  | .ok () => pure ()
  | .error failure => throw failure

def runHookIf (body : Option Bytes) (hook : Hook) (pkg : Bytes) : Io Unit :=
  if body.isSome then runHook hook pkg else pure ()

/-- The owner of a path, by whatever row SQLite comes to first. -/
def lookUpOwner (path : Bytes) : Io (Option Bytes) := do
  let world ← get
  set { world with picks := world.picks.tail }
  return world.db.owner (world.picks.head?.getD 0) path

def conflict (path owner : Bytes) : Failure :=
  ⟨.exists, some (ascii "file conflict: " ++ path ++ ascii " is owned by " ++
    owner)⟩

def checkOwner (name path : Bytes) : Io Unit := do
  match ← lookUpOwner path with
  | none => pure ()
  | some owner =>
      if owner = name then pure () else throw (conflict path owner)

/-- A path that exists is backed up, another one goes on the list of added
paths. -/
def saveEntry (root backup path added : Bytes) : Io Bytes := do
  let world ← get
  match world.disk.lstat (Util.joinPath root path) with
  | .ok _ =>
      onDisk (backupFile root backup path)
      return added
  | .error _ => return added ++ path ++ [10]

/-- The first loop of `salt_install_archive`, with the list of added paths
so far. -/
def checkEntries (root backup name : Bytes) : Manifest → Bytes → Io Bytes
  | [], added => pure added
  | entry :: rest, added =>
      if entry.typeflag = Tar.typeDir then
        checkEntries root backup name rest added
      else do
        checkOwner name entry.path
        let added ← saveEntry root backup entry.path added
        checkEntries root backup name rest added

/-- `salt_archive_extract_payload`. -/
def extractPayload (host : Host) (archive : Archive) (dest : Bytes) :
    DiskIo Unit :=
  match host.decompress archive.payload with
  | .error failure => throw failure
  | .ok input => Tar.extract Content.raw input dest

/-- A path is backed up and removed. -/
def takeAway (root backup path : Bytes) : DiskIo Unit := do
  backupFile root backup path
  ignore (Disk.unlink (Util.joinPath root path) :
    EStateM Errno (Disk Content) Unit)

/-- The entries of the old manifest that an upgrade drops. -/
def dropped (old new : Manifest) : Manifest :=
  old.filter fun entry =>
    entry.typeflag ≠ Tar.typeDir ∧ manifestHas new entry.path = false ∧
      Util.pathIsConfined entry.path = true

/-- The old manifest, which only an upgrade looks at. -/
def oldManifest (db : Db) (name : Bytes) : Manifest :=
  if db.isInstalled name then db.pkgManifest name else []

/-- `salt_install_archive`. -/
def installArchive (host : Host) (root : Bytes) (archive : Archive)
    (repo sigStatus : Option Bytes) (id : Nat) : Io Unit := do
  manifestCheckConfined archive.manifest
  let backup := backupDir root id
  ignore (onDisk (Util.mkdirs backup 493))
  let world ← get
  let name := archive.pkg.name
  let upgrade := world.db.isInstalled name
  let old := oldManifest world.db name
  let added ← checkEntries root backup name archive.manifest []
  onDisk (appendAdded (addedPath root id) added)
  onDisk (extractPayload host archive root)
  (dropped old archive.manifest).forM fun entry =>
    onDisk (takeAway root backup entry.path)
  let hook := if upgrade then Hook.postUpgrade else Hook.postInstall
  runHookIf (archive.pkg.hooks hook) hook name
  Db.recordInstall archive.pkg archive.manifest repo sigStatus id

/-- One entry of the manifest of a package that is removed. -/
def removeEntry (root backup : Bytes) (entry : ManifestEntry) :
    DiskIo Unit :=
  if Util.pathIsConfined entry.path then
    if entry.typeflag = Tar.typeDir then
      ignore (Disk.rmdir (Util.joinPath root entry.path) :
        EStateM Errno (Disk Content) Unit)
    else takeAway root backup entry.path
  else pure ()

/-- `salt_remove_pkg`. -/
def removePkg (root name : Bytes) (id : Nat) : Io Unit := do
  let world ← get
  if world.db.isInstalled name then
    let backup := backupDir root id
    ignore (onDisk (Util.mkdirs backup 493))
    runHookIf (world.db.pkgHook name .preRemove) .preRemove name
    (world.db.pkgManifest name).forM fun entry =>
      onDisk (removeEntry root backup entry)
    Db.recordRemove name
    ignore (runHookIf (world.db.pkgHook name .postRemove) .postRemove name)
  else throw ⟨.notFound, some (ascii "package not installed: " ++ name)⟩

/-! ## Reverting -/

/-- What `restore_tree` does with an entry that is no directory. -/
def restoreEntry (root rel full : Bytes) (node : Node Content) :
    DiskIo Unit := do
  let dest := Util.joinPath root rel
  makeParent dest
  match node with
  | .symlink _ => ignore (copyLink full dest)
  | _ => ignore (Util.copyFile full dest : DiskIo Unit)

/-- A path relative to the backup directory, which itself is the empty
one. -/
def childPath (rel name : Bytes) : Bytes :=
  if rel = [] then name else Util.joinPath rel name

/-- `restore_tree`; the fuel bounds the depth of the tree. -/
def restoreTree : Nat → Bytes → Bytes → Bytes → DiskIo Unit
  | 0, _, _, _ => pure ()
  | fuel + 1, backup, rel, root => do
      let dir := if rel = [] then backup else Util.joinPath backup rel
      let disk ← get
      match disk.readdir dir with
      | .error _ => pure ()
      | .ok names =>
          names.forM fun name => do
            let disk ← get
            match disk.lstat (Util.joinPath dir name) with
            | .error _ => pure ()
            | .ok (.dir _) =>
                restoreTree fuel backup (childPath rel name) root
            | .ok node =>
                restoreEntry root (childPath rel name)
                  (Util.joinPath dir name) node

/-- The lines of `added.list`. -/
def addedLines (bytes : Bytes) : List Bytes :=
  (cstr bytes).splitOn 10

def unlinkAdded (root line : Bytes) : DiskIo Unit :=
  if line ≠ [] ∧ Util.pathIsConfined line = true then
    ignore (Disk.unlink (Util.joinPath root line) :
      EStateM Errno (Disk Content) Unit)
  else pure ()

/-- `salt_txn_revert_files`. -/
def revertFiles (root : Bytes) (id : Nat) : DiskIo Unit := do
  match ← attempt (Util.readFile (addedPath root id)) with
  | .error (_ : Failure) => pure ()
  | .ok content =>
      (addedLines (Content.bytes content)).forM (unlinkAdded root)
  let disk ← get
  restoreTree (disk.fs.depth + 1) (backupDir root id) [] root

/-! ## Native transactions -/

/-- A package to install: the entry of the repository index, the archive that
its file opens as, and what is recorded about it. -/
structure Planned where
  entryName : Bytes
  opened : Option Archive
  filename : Bytes
  sha256 : Bytes
  repo : Bytes
  sigStatus : Bytes

structure Plan where
  remove : List Bytes
  install : List Planned

/-- `install_one`; `arch` is the architecture of the machine. -/
def installOne (host : Host) (arch root : Bytes) (planned : Planned)
    (id : Nat) : Io Unit := do
  match planned.opened with
  | none => throw ⟨.format, none⟩
  | some archive =>
      if archive.pkg.arch ≠ arch ∧ archive.pkg.arch ≠ ascii "any" then
        throw ⟨.err, none⟩
      else if archive.pkg.name ≠ planned.entryName then
        throw ⟨.verify, none⟩
      else
        installArchive host root archive (some planned.repo)
          (some planned.sigStatus) id
        Db.setPkgArtifact archive.pkg.name planned.filename planned.sha256

/-- What `native_transaction` does between the snapshot and its end. -/
def applyPlan (host : Host) (arch root : Bytes) (plan : Plan) (id : Nat) :
    Io Unit := do
  Sql.begin
  plan.remove.forM fun name => removePkg root name id
  plan.install.forM fun planned => installOne host arch root planned id
  Db.txnFinish id .ok
  Sql.commit

/-- What it does when that failed. -/
def failTransaction (root : Bytes) (id : Nat) : Io Unit := do
  ignore Sql.rollback
  ignore (onDisk (revertFiles root id))
  ignore (Db.txnFinish id .failed)

/-- The id and the snapshot of a new transaction. -/
def openTransaction (host : Host) (root op : Bytes) : Io Nat := do
  let id ← Db.txnNew op
  match ← attempt (snapshotCreate host root id) with
  | .ok snapshot =>
      ignore (Db.txnSetSnapshot id snapshot)
      return id
  | .error failure =>
      ignore (Db.txnFinish id .failed)
      throw failure

/-- `native_transaction`, from `salt_db_txn_new` to the end of the
transaction. -/
def nativeTransaction (host : Host) (arch root op : Bytes) (plan : Plan) :
    Io Unit := do
  let id ← openTransaction host root op
  match ← attempt (applyPlan host arch root plan id) with
  | .ok () => pure ()
  | .error failure =>
      failTransaction root id
      throw failure

end Txn

end SaltOS
