import SaltOS.Repo.Index
import SaltOS.Txn.TxnTables

/-!
# Native plans

`check_conflicts`, `check_dangling`, `fetch_and_verify` and
`native_transaction` of `src/salt/cmd_install.cpp`.  What is printed is left
out, and so is what follows a commit (boot entries, pruning of snapshots),
which changes no package table.
-/

namespace SaltOS.Install

open Lib Repo

/-- `NativePlan`. -/
structure NativePlan where
  remove : List Bytes
  install : List Entry

/-- `TxnFlags`, as far as transactions look at them. -/
structure TxnFlags where
  allowUnverified : Bool
  downloadOnly : Bool
  cascade : Bool
  nodeps : Bool
  dryRun : Bool
  deriving DecidableEq, Repr

def NativePlan.names (plan : NativePlan) : List Bytes :=
  plan.install.map Entry.name

/-! ## Checks -/

/-- The set `leaving` of `check_conflicts`. -/
def NativePlan.leaving (plan : NativePlan) (name : Bytes) : Bool :=
  name ∈ plan.remove ∨ name ∈ plan.names

/-- The conflicts that an arriving package declares. -/
def declaresFree (db : Db) (plan : NativePlan) (entry : Entry) : Bool :=
  entry.conflicts.all fun conflict =>
    conflict = entry.name ∨
      conflict ∉ plan.names ∧
        ¬ (db.isInstalled conflict ∧ ¬ plan.leaving conflict)

/-- The conflicts that installed packages declare with an arriving one. -/
def declaredFree (db : Db) (plan : NativePlan) (entry : Entry) : Bool :=
  (db.conflictsWith entry.name).all fun who =>
    who = entry.name ∨ plan.leaving who

/-- `check_conflicts`. -/
def checkConflicts (db : Db) (plan : NativePlan) : Bool :=
  plan.install.all fun entry =>
    declaresFree db plan entry && declaredFree db plan entry

/-- The set `gone` of `check_dangling`. -/
def NativePlan.gone (plan : NativePlan) : List Bytes :=
  plan.remove.filter (· ∉ plan.names)

/-- `check_dangling`. -/
def checkDangling (db : Db) (plan : NativePlan) : Bool :=
  plan.gone.all fun name =>
    (db.revdeps name).all fun who =>
      who ∈ plan.gone ∨ who ∈ plan.names ∨ ¬ db.isInstalled who

/-! ## Artifacts -/

/-- What the disk and the network give for an artifact: the hash of the file
in the cache, whether a download succeeds, the hash of the file afterwards and
the archive that it opens as. -/
structure Artifact where
  cached : Option Bytes
  fetched : Bool
  hash : Option Bytes
  opened : Option Archive

/-- What a command finds outside the database. -/
structure Session where
  host : Host
  arch : Bytes
  root : Bytes
  repo : Bytes
  confirmed : Bool
  signedOk : Bool
  artifact : Entry → Artifact

/-- `fetch_and_verify`: the hash of the artifact. -/
def fetchAndVerify (session : Session) (flags : TxnFlags) (entry : Entry) :
    Except Code Bytes :=
  let artifact := session.artifact entry
  if ¬ entry.hashOk ∧ ¬ flags.allowUnverified then .error .verify
  else if ¬ (entry.hashOk ∧ artifact.cached = some entry.sha256) ∧
      ¬ artifact.fetched then .error .io
  else
    match artifact.hash with
    | none => .error .io
    | some hex =>
        if entry.hashOk ∧ hex ≠ entry.sha256 then .error .verify
        else .ok hex

/-- The status that `install_one` records. -/
def sigStatus (session : Session) (entry : Entry) : Bytes :=
  if ¬ entry.hashOk then ascii "unverified"
  else if session.signedOk then ascii "signed"
  else ascii "unsigned"

/-- An entry together with its artifact. -/
def plannedOf (session : Session) (entry : Entry) (sha256 : Bytes) :
    Txn.Planned where
  entryName := entry.name
  opened := (session.artifact entry).opened
  filename := entry.filename
  sha256 := sha256
  repo := session.repo
  sigStatus := sigStatus session entry

/-- The artifacts of a plan, in its order. -/
def fetchAll (session : Session) (flags : TxnFlags) :
    List Entry → Except Code (List Txn.Planned)
  | [] => .ok []
  | entry :: rest => do
      let sha256 ← fetchAndVerify session flags entry
      let others ← fetchAll session flags rest
      return plannedOf session entry sha256 :: others

/-- `native_transaction`, with its exit code. -/
def nativeTransaction (session : Session) (flags : TxnFlags) (op : Bytes)
    (plan : NativePlan) : Io Nat := do
  if plan.remove = [] ∧ plan.install = [] then return 0
  let world ← get
  if ¬ checkConflicts world.db plan then return 1
  if ¬ checkDangling world.db plan then return 1
  if flags.dryRun then return 0
  if ¬ flags.downloadOnly ∧ ¬ session.confirmed then return 1
  match fetchAll session flags plan.install with
  | .error _ => return 1
  | .ok planned =>
      if flags.downloadOnly then return 0
      match ← attempt (Txn.nativeTransaction session.host session.arch
          session.root op ⟨plan.remove, planned⟩) with
      | .ok () => return 0
      | .error _ => return 1

end SaltOS.Install
