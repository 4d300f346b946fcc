import SaltOS.Lock.Lock

/-!
# Commands on native packages

`parse_txn_flags`, `do_install`, `native_remove` and the native parts of
`cmd_install`, `cmd_update` and `cmd_remove` of `src/salt/cmd_install.cpp`.
Packages of strata are left to other package managers and do not show in the
package database; what they contribute to the exit code is left out.
-/

namespace SaltOS.Install

open Lib Repo Lock

/-! ## Command lines -/

/-- The outcome of `parse_txn_flags`. -/
structure CommandLine where
  flags : TxnFlags
  locked : Bool
  lockfile : Bytes
  args : List Bytes
  deriving DecidableEq, Repr

def CommandLine.empty : CommandLine :=
  ⟨⟨false, false, false, false, false⟩, false, [], []⟩

/-- The loop of `parse_txn_flags`; `none` is an unknown option. -/
def parseArgs (line : CommandLine) : List Bytes → Option CommandLine
  | [] => some line
  | arg :: rest =>
      let flags := line.flags
      if arg = ascii "--allow-unverified" then
        parseArgs { line with
          flags := { flags with allowUnverified := true } } rest
      else if arg = ascii "--download-only" then
        parseArgs { line with
          flags := { flags with downloadOnly := true } } rest
      else if arg = ascii "--locked" then
        parseArgs { line with locked := true } rest
      else if arg = ascii "--lockfile" then
        match rest with
        | [] => none
        | file :: rest =>
            parseArgs { line with locked := true, lockfile := file } rest
      else if arg = ascii "--cascade" then
        parseArgs { line with flags := { flags with cascade := true } } rest
      else if arg = ascii "--nodeps" then
        parseArgs { line with flags := { flags with nodeps := true } } rest
      else if arg = ascii "--dry-run" ∨ arg = ascii "-n" then
        parseArgs { line with flags := { flags with dryRun := true } } rest
      else if arg.head? = some 45 then none
      else parseArgs { line with args := line.args ++ [arg] } rest

/-- `parse_txn_flags`. -/
def parseTxnFlags (args : List Bytes) : Option CommandLine :=
  parseArgs .empty args

/-- Whether `parse_pkgref` takes an argument for a package of a stratum. -/
def isForeign (arg : Bytes) : Bool :=
  arg.takeWhile (· != 47) ≠ [] ∧ 1 < (arg.dropWhile (· != 47)).length

/-! ## Installing and updating -/

/-- What a command finds outside the database: the index, if it can be loaded,
whether the database can be opened, and the lockfiles by their paths. -/
structure Machine where
  session : Session
  index : Option Index
  opens : Bool
  lock : Bytes → Except Bytes LockFile

/-- The targets of an update: what the index has in a newer version. -/
def updateTargets (index : Index) (db : Db) : List Bytes :=
  toSet ((db.listInstalled.filter fun row =>
    match index.find row.name with
    | none => false
    | some entry =>
        let order := vercmp entry.version row.version
        order > 0 || (order == 0 && entry.release > row.release)).map
      PackageRow.name)

/-- `do_install`, with its exit code. -/
def doInstall (machine : Machine) (names : List Bytes) (isUpdate : Bool)
    (flags : TxnFlags) (checkOnly : Bool) : Io Nat := do
  match machine.index with
  | none => return 1
  | some index =>
      if ¬ machine.opens then return 1
      let world ← get
      let targets :=
        if isUpdate then updateTargets index world.db else toSet names
      if isUpdate ∧ (targets = [] ∨ checkOnly) then
        return if targets = [] then 0 else 100
      let resolution := resolveAll index world.db targets flags.nodeps
      if resolution.problems ≠ [] then return 1
      nativeTransaction machine.session flags
        (if isUpdate then ascii "update" else ascii "install")
        ⟨[], resolution.order⟩

/-! ## Removing -/

/-- The set and the stack of the loop for `--cascade`. -/
structure Cascade where
  set : List Bytes
  work : List Bytes

def cascadeAdd (db : Db) (state : Cascade) (who : Bytes) : Cascade :=
  if who ∉ state.set ∧ db.isInstalled who then
    ⟨who :: state.set, who :: state.work⟩
  else state

/-- The loop for `--cascade`; a name gets onto the stack once. -/
def cascade (db : Db) : Nat → Cascade → List Bytes
  | 0, state => state.set
  | fuel + 1, state =>
      match state.work with
      | [] => state.set
      | name :: work => cascade db fuel
          ((db.revdeps name).foldl (cascadeAdd db) ⟨state.set, work⟩)

/-- The packages that `native_remove` removes. -/
def removeSet (db : Db) (args : List Bytes) (cascades : Bool) :
    List Bytes :=
  toSet (if cascades then
      cascade db (args.length + db.tables.packages.length)
        ⟨args, args.reverse⟩
    else args)

/-- Dependents come before what they depend on. -/
def removeOrder (db : Db) (names : List Bytes) : List Bytes :=
  (visitAll (fun name => (db.revdeps name).filter (· ∈ names))
    (names.length + 1) names ⟨[], []⟩).left

/-- `native_remove`, with its exit code. -/
def nativeRemove (machine : Machine) (args : List Bytes)
    (flags : TxnFlags) : Io Nat := do
  if ¬ machine.opens then return 1
  let world ← get
  if ¬ args.all world.db.isInstalled then return 1
  nativeTransaction machine.session flags (ascii "remove")
    ⟨removeOrder world.db (removeSet world.db args flags.cascade), []⟩

/-! ## Commands -/

inductive Command where
  | install (args : List Bytes)
  | update (args : List Bytes)
  | remove (args : List Bytes)
  deriving DecidableEq, Repr

/-- `lock_apply`, as far as native packages go. -/
def lockApply (machine : Machine) (path : Bytes) (flags : TxnFlags) :
    Io Nat :=
  match machine.lock path with
  | .error _ => return 1
  | .ok file =>
      if ¬ machine.opens then return 1
      else lockApplyNative machine.session flags machine.index file.native

/-- `cmd_install`. -/
def cmdInstall (machine : Machine) (args : List Bytes) : Io Nat :=
  match parseTxnFlags args with
  | none => return 2
  | some line =>
      if line.locked then
        if line.args ≠ [] then return 2
        else lockApply machine line.lockfile line.flags
      else if line.args = [] then return 2
      else
        let native := line.args.filter fun arg => ¬ isForeign arg ∧
          (machine.index.bind (·.find arg)).isSome
        if native = [] then return 0
        else doInstall machine native false line.flags false

/-- `cmd_update`. -/
def cmdUpdate (machine : Machine) (args : List Bytes) : Io Nat :=
  if args = [ascii "--check"] then
    doInstall machine [] true CommandLine.empty.flags true
  else
    match parseTxnFlags args with
    | none => return 2
    | some line =>
        if line.args ≠ [] then return 0
        else doInstall machine [] true line.flags false

/-- `cmd_remove`. -/
def cmdRemove (machine : Machine) (args : List Bytes) : Io Nat :=
  match parseTxnFlags args with
  | none => return 2
  | some line =>
      if line.args = [] then return 2
      else
        let native := line.args.filter (¬ isForeign ·)
        if native = [] then return 0
        else nativeRemove machine native line.flags

def Command.run (machine : Machine) : Command → Io Nat
  | .install args => cmdInstall machine args
  | .update args => cmdUpdate machine args
  | .remove args => cmdRemove machine args

end SaltOS.Install
