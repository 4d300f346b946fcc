import SaltOS.Lock.Lock
import SaltOS.Lock.Foreign

/-!
# Writing and comparing whole lockfiles

`lock_write`, with `emit_native` and `emit_strata`, and `lock_diff`, with
`compare_stratum`, of `src/salt/cmd_lock.cpp`.  A lockfile is printed piece by
piece, and no text is escaped.
-/

namespace SaltOS.Lock

open Repo Toml

/-- What a recipe adds to the entry of a stratum. -/
structure Recipe where
  rootfsUrl : Bytes
  rootfsSha256 : Bytes
  repoUrls : List Bytes
  deriving DecidableEq, Repr

/-- What the commands of the lockfile read: the clock and the architecture, the
digests of the configuration and of the index, the index, the databases, and
for a stratum its recipe and its tools. -/
structure System where
  generated : Bytes
  arch : Bytes
  configSha256 : Option Sha256
  indexSha256 : Option Sha256
  index : Option Index
  db : Db
  strata : Option (List Stratum)
  recipe : Bytes → Option Recipe
  tools : Stratum → Tools

/-! ## Printing -/

def printed (key : String) (text : Bytes) : Bytes :=
  ascii key ++ ascii " = \"" ++ text ++ ascii "\"\n"

/-- The digest and the file name that an installed package is pinned with. -/
structure NativePin where
  sha256 : Bytes
  filename : Bytes
  deriving DecidableEq, Repr

/-- The digest in the database, or the one of that exact version in the
index. -/
def nativePin (index : Option Index) (row : PackageRow) : Option NativePin :=
  match row.sha256.filter sha256HexValid with
  | some sha256 => some ⟨sha256, row.filename.getD []⟩
  | none =>
      ((index.bind fun index =>
          index.findExact row.name row.version row.release).filter
        (·.hashOk)).map fun found => ⟨found.sha256, found.filename⟩

def depsPrints : List Bytes → List Bytes
  | [] => []
  | first :: rest =>
      [ascii "deps = [", quoted first] ++
        rest.map (fun dep => ascii ", " ++ quoted dep) ++ [ascii "]\n"]

/-- The texts that are printed for a package. -/
def nativePrints (row : PackageRow) (pin : NativePin) (deps : List Bytes) :
    List Bytes :=
  [ascii "[[native]]\n" ++ printed "name" row.name,
    printed "version" row.version ++ ascii "release = " ++
      printInt row.release ++ [10],
    printed "arch" row.arch,
    printed "grain_sha256" (ascii "sha256:" ++ pin.sha256)] ++
  (if pin.filename = [] then [] else [printed "filename" pin.filename]) ++
  [printed "repo" row.repo] ++ depsPrints deps ++ [[10]]

/-- `emit_native`, unless a package cannot be pinned. -/
def emitNative (system : System) : Option (List Bytes) :=
  (system.db.listInstalled.mapM fun row =>
      (nativePin system.index row).map fun pin =>
        nativePrints row pin (system.db.pkgDeps row.name)).map
    fun natives =>
      (system.indexSha256.map fun sha256 =>
        printed "repo_index_sha256" (ascii "sha256:" ++ sha256.val) ++
          [10]).toList ++ List.flatten natives

def recipePrints (recipe : Recipe) : List Bytes :=
  (if recipe.rootfsUrl = [] then []
    else [printed "bootstrap_url" recipe.rootfsUrl]) ++
  (if recipe.rootfsSha256 = [] then []
    else [printed "bootstrap_sha256" recipe.rootfsSha256]) ++
  recipe.repoUrls.map (printed "repo_snapshot")

def pkgPrint (pkg : ForeignPkg) : Bytes :=
  ascii "[[stratum.package]]\n" ++ printed "name" pkg.name ++
    printed "version" pkg.version ++
    printed "digest" (pkg.digest.getD []) ++ [10]

/-- The texts that are printed for a stratum. -/
def stratumPrints (stratum : Stratum) (recipe : Option Recipe)
    (pkgs : List ForeignPkg) : List Bytes :=
  [ascii "[[stratum]]\n" ++ printed "name" stratum.name] ++
  (stratum.family.map (printed "family")).toList ++
  (stratum.packageManager.map (printed "package_manager")).toList ++
  recipe.elim [] recipePrints ++ [[10]] ++ pkgs.map pkgPrint

/-- `salt_stratum_list_all`, ordered by name. -/
def System.listStrata (system : System) : List Stratum :=
  (system.strata.getD []).insertionSort fun first second =>
    first.name ≤ second.name

def System.livePkgs (system : System) (stratum : Stratum) :
    Except Bytes (List ForeignPkg) :=
  Lock.livePkgs stratum (system.tools stratum)

/-- `emit_strata`, unless the packages of a stratum cannot be listed. -/
def emitStrata (system : System) : Option (List Bytes) :=
  (system.listStrata.mapM fun stratum =>
      (system.livePkgs stratum).toOption.map
        (stratumPrints stratum (system.recipe stratum.name))).map
    List.flatten

/-- The texts that `lock_write` prints, unless it refuses. -/
def lockPrints (system : System) : Option (List Bytes) := do
  let natives ← emitNative system
  let strata ← emitStrata system
  return [ascii "schema = 2\n" ++ printed "generated" system.generated ++
      printed "arch" system.arch] ++
    (system.configSha256.map fun sha256 =>
      printed "config_hash" (ascii "sha256:" ++ sha256.val)).toList ++
    natives ++ strata

/-- `lock_write`, as the content of the file it writes. -/
def lockWrite (system : System) : Option Bytes :=
  (lockPrints system).map fun prints => prints.flatMap bufPrintf

/-! ## Comparing -/

structure StratumCompare where
  missing : List ForeignPin
  changed : List ForeignPin
  changedFrom : List Bytes
  extra : List Bytes
  matched : Nat
  deriving DecidableEq, Repr

def StratumCompare.diffs (compare : StratumCompare) : Nat :=
  compare.missing.length + compare.changed.length + compare.extra.length

def stratumRound (live : List ForeignPkg) (compare : StratumCompare)
    (pin : ForeignPin) : StratumCompare :=
  match live.find? (·.name = pin.name) with
  | none => { compare with missing := compare.missing ++ [pin] }
  | some current =>
      if pin.version ≠ current.version then
        { compare with
          changed := compare.changed ++ [pin]
          changedFrom := compare.changedFrom ++ [current.version] }
      else
        match current.digest.filter (pin.digest ≠ ·) with
        | some digest =>
            { compare with
              changed := compare.changed ++ [pin]
              changedFrom := compare.changedFrom ++
                [current.version ++ ascii " (" ++ digest ++ ascii ")"] }
        | none => { compare with matched := compare.matched + 1 }

/-- `compare_stratum`. -/
def compareStratum (lock : StratumLock) (live : List ForeignPkg) :
    StratumCompare :=
  { lock.packages.foldl (stratumRound live) ⟨[], [], [], [], 0⟩ with
    extra := (live.map ForeignPkg.name).filter
      (· ∉ lock.packages.map ForeignPin.name) }

/-- `query_stratum`: the packages of a stratum, `none` when there is no such
stratum. -/
def queryStratum (system : System) (name : Bytes) :
    Except Bytes (Option (List ForeignPkg)) :=
  match system.strata with
  | none => .error (ascii "cannot open the strata database")
  | some strata =>
      match strata.find? (·.name = name) with
      | none => .ok none
      | some stratum => (system.livePkgs stratum).map some

def LockCompare.diffs (compare : LockCompare) : Nat :=
  compare.extra.length + compare.missing.length + compare.changed.length

/-- The differences that `lock_diff` counts for a stratum. -/
def stratumDiffs (system : System) (lock : StratumLock) :
    Except Bytes Nat :=
  (queryStratum system lock.name).map fun live =>
    match live with
    | none => 1
    | some live => (compareStratum lock live).diffs

def fileDiffs (system : System) (file : LockFile) : Except Bytes Nat := do
  let strata ← file.strata.mapM (stratumDiffs system)
  return (compareLock system.db file.native).diffs + strata.sum

/-- `lock_diff`, as the number of differences, unless it exits with 2. -/
def lockDiff (fuel : Nat) (path : Bytes) (system : System)
    (content : Option Bytes) : Except Stop (Except Bytes Nat) :=
  (lockLoad fuel path content).map fun loaded =>
    loaded.bind (fileDiffs system)

end SaltOS.Lock
