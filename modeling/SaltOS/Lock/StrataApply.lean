import SaltOS.Lock.ForeignLists
import SaltOS.Lock.LockWrite
import SaltOS.Strata.Snapshot

/-!
# Applying a lockfile to the strata

`salt_stratum_pkg`, `pacman_cached_artifact` and
`salt_stratum_pkg_install_exact` of `src/halite/src/run.c`, and
`apply_stratum`, `apply_strata` and `lock_apply` of `src/salt/cmd_lock.cpp`.

What a package manager does to the disk and what its tools print then, the
bootstrap of a stratum, and what becomes of the openings of the database are
up to the environment.  What is printed is left out.
-/

namespace SaltOS.Lock

open Lib Repo Install Txn
open Strata (StratumRow State Machine snapshotCreate rollback)

/-! ## Commands of package managers -/

/-- The operations that a package manager is known for: the words of the
command, and whether the packages follow them. -/
def operations : PkgKind → List (String × List String × Bool)
  | .pacman => [
      ("install", ["pacman", "-S", "--needed", "--noconfirm"], true),
      ("remove", ["pacman", "-Rns", "--noconfirm"], true),
      ("update", ["pacman", "-Syu", "--noconfirm"], true),
      ("search", ["pacman", "-Ss"], true)]
  | .dnf => [
      ("install", ["dnf", "install", "-y"], true),
      ("remove", ["dnf", "remove", "-y"], true),
      ("update", ["dnf", "upgrade", "-y"], false),
      ("search", ["dnf", "search"], true)]
  | .zypper => [
      ("install", ["zypper", "-n", "install"], true),
      ("remove", ["zypper", "-n", "remove"], true),
      ("update", ["zypper", "-n", "update"], false),
      ("search", ["zypper", "-n", "search"], true)]
  | .apt => [
      ("install", ["apt-get", "install", "-y"], true),
      ("remove", ["apt-get", "remove", "-y"], true),
      ("update", ["sh", "-c", "apt-get update && apt-get dist-upgrade -y"],
        false),
      ("search", ["apt-cache", "search"], true)]
  | .apk => [
      ("install", ["apk", "add"], true),
      ("remove", ["apk", "del"], true),
      ("update", ["apk", "upgrade", "-U"], false),
      ("search", ["apk", "search", "-v"], true)]
  | .xbps => [
      ("install", ["xbps-install", "-Sy"], true),
      ("remove", ["xbps-remove", "-Ry"], true),
      ("update", ["xbps-install", "-Suy"], true),
      ("search", ["xbps-query", "-Rs"], true)]

/-- What an operation that is not known is handed to. -/
def pmBinary : PkgKind → String
  | .pacman => "pacman"
  | .dnf => "dnf"
  | .zypper => "zypper"
  | .apt => "apt-get"
  | .apk => "apk"
  | .xbps => "xbps-install"

def pkgArgv (kind : PkgKind) (op : Bytes) (pkgs : List Bytes) : List Bytes :=
  match (operations kind).find? (ascii ·.1 = op) with
  | some (_, base, appends) =>
      base.map ascii ++ if appends then pkgs else []
  | none => [ascii (pmBinary kind), op] ++ pkgs

/-- What the words of an exact installation start with. -/
def exactBase : PkgKind → List String
  | .pacman => ["pacman", "-U", "--noconfirm"]
  | .apt => ["apt-get", "install", "-y", "--allow-downgrades"]
  | .apk => ["apk", "add"]
  | .dnf => ["dnf", "install", "-y"]
  | .zypper => ["zypper", "-n", "install", "--oldpackage"]
  | .xbps => ["xbps-install", "-Sy"]

/-- `pacman_cached_artifact`, among the entries of the cache in the order in
which they are read. -/
def pacmanCachedArtifact (entries : List Bytes) (pin : ForeignPin) :
    Option Bytes :=
  let start := pin.name ++ [45] ++ pin.version ++ [45]
  (entries.find? fun entry =>
    start.isPrefixOf entry &&
      entry.tails.any (ascii ".pkg.tar").isPrefixOf &&
      !(ascii ".sig").isSuffixOf entry &&
      !(entry.drop start.length).contains 45).map
    (ascii "/var/cache/pacman/pkg/" ++ ·)

/-! ## Package managers -/

/-- What the strata and their package managers come down to: the columns of
the rows, what the tools print, the entries of pacman's cache, and the exit
status and the disk that a command leaves. -/
structure Managers (γ : Type) where
  family : StratumRow → Option Bytes
  packageManager : StratumRow → Option Bytes
  tools : Stratum → Disk γ → Tools
  cached : Stratum → Disk γ → Option (List Bytes)
  exec : Stratum → List Bytes → Disk γ → Except Bytes Int × Disk γ

variable {γ : Type}

namespace Managers

def stratum (managers : Managers γ) (row : StratumRow) : Stratum :=
  ⟨row.name, managers.family row, managers.packageManager row⟩

def live (managers : Managers γ) (row : StratumRow) (disk : Disk γ) :
    Except Bytes (List ForeignPkg) :=
  Lock.livePkgs (managers.stratum row)
    (managers.tools (managers.stratum row) disk)

def unknownManager (stratum : Stratum) : Bytes :=
  ascii "unknown package manager for stratum '" ++ stratum.name ++ ascii "'"

/-- `salt_stratum_pkg`. -/
def stratumPkg (managers : Managers γ) (stratum : Stratum) (op : Bytes)
    (pkgs : List Bytes) (disk : Disk γ) : Except Bytes Int × Disk γ :=
  if op = [] then (.error (ascii "no package operation given"), disk)
  else
    match pkgKind stratum with
    | none => (.error (unknownManager stratum), disk)
    | some kind => managers.exec stratum (pkgArgv kind op pkgs) disk

/-- The package that an exact installation names. -/
def exactSpec (managers : Managers γ) (stratum : Stratum) (kind : PkgKind)
    (disk : Disk γ) (pin : ForeignPin) : Except Bytes Bytes :=
  match kind with
  | .pacman =>
      match (managers.cached stratum disk).bind fun entries =>
          pacmanCachedArtifact entries pin with
      | some file => .ok file
      | none => .error (ascii "pacman cannot provide " ++ pin.name ++ [32] ++
          pin.version ++ ascii ": not in " ++
          (managers.tools stratum disk).root ++
          ascii "/var/cache/pacman/pkg")
  | kind => foreignPkgSpec kind pin.name pin.version

/-- `salt_stratum_pkg_install_exact`. -/
def installExact (managers : Managers γ) (stratum : Stratum)
    (pins : List ForeignPin) (disk : Disk γ) : Except Bytes Int × Disk γ :=
  match pkgKind stratum with
  | none => (.error (unknownManager stratum), disk)
  | some kind =>
      if pins = [] then (.ok 0, disk)
      else
        match pins.mapM (managers.exactSpec stratum kind disk) with
        | .error message => (.error message, disk)
        | .ok specs =>
            managers.exec stratum ((exactBase kind).map ascii ++ specs) disk

/-- A command was run, and exited with zero. -/
def succeeded (result : Except Bytes Int × Disk γ) : Bool × Disk γ :=
  (match result.1 with
    | .ok status => status = 0
    | .error _ => false, result.2)

/-- What `apply_stratum` has removed and installed. -/
def change (managers : Managers γ) (stratum : Stratum)
    (compare : StratumCompare) (disk : Disk γ) : Bool × Disk γ :=
  let removed :=
    if compare.extra = [] then (true, disk)
    else succeeded (managers.stratumPkg stratum (ascii "remove")
      compare.extra disk)
  if removed.1 ∧ (compare.missing ≠ [] ∨ compare.changed ≠ []) then
    succeeded (managers.installExact stratum
      (compare.missing ++ compare.changed) removed.2)
  else removed

/-- The packages are listed again, and are the ones of the lock. -/
def verified (managers : Managers γ) (row : StratumRow) (lock : StratumLock)
    (disk : Disk γ) : Bool :=
  match managers.live row disk with
  | .error _ => false
  | .ok live => (compareStratum lock live).diffs = 0

end Managers

/-! ## Applying -/

/-- What `apply_stratum` meets with: whether the database is opened each time,
the clock when a snapshot is taken and when it is gone back to, and what the
database says when it refuses the row of the snapshot. -/
structure Circumstances where
  opensFirst : Bool
  opensQuery : Bool
  opensApply : Bool
  clock : Int
  rollbackClock : Int
  refusal : Option Bytes

/-- The part of `apply_stratum` that changes a stratum, with its exit code. -/
def convergeStratum (machine : Machine γ) (managers : Managers γ)
    (circumstances : Circumstances) (lock : StratumLock) (row : StratumRow)
    (compare : StratumCompare) (state : State γ) : Nat × State γ :=
  let (snap, state) := snapshotCreate machine lock.name
    (ascii "pre-lock-apply") circumstances.clock circumstances.refusal state
  let (changed, disk) := managers.change (managers.stratum row) compare
    state.disk
  let state := { state with disk := disk }
  if changed ∧ managers.verified row lock disk then (0, state)
  else
    match snap with
    | .error _ => (1, state)
    | .ok id => (1, (rollback machine lock.name id
        circumstances.rollbackClock state).2)

/-- `apply_stratum`, once the stratum is there. -/
def applyPresent (machine : Machine γ) (managers : Managers γ)
    (circumstances : Circumstances) (dryRun : Bool) (lock : StratumLock)
    (state : State γ) : Nat × State γ :=
  match state.stratum lock.name with
  | none => (1, state)
  | some row =>
      if ¬ circumstances.opensQuery then (1, state)
      else
      match managers.live row state.disk with
      | .error _ => (1, state)
      | .ok live =>
          let compare := compareStratum lock live
          if compare.diffs = 0 ∨ dryRun then (0, state)
          else if ¬ circumstances.opensApply then (1, state)
          else convergeStratum machine managers circumstances lock row compare
            state

/-- `apply_stratum`, with what becomes of a bootstrap. -/
def applyStratum (machine : Machine γ) (managers : Managers γ)
    (ensure : Bytes → State γ → Bool × State γ)
    (circumstances : Circumstances) (dryRun : Bool) (lock : StratumLock)
    (state : State γ) : Nat × State γ :=
  if ¬ circumstances.opensFirst then (1, state)
  else if (state.stratum lock.name).isSome then
    applyPresent machine managers circumstances dryRun lock state
  else if dryRun then (0, state)
  else
    let (ensured, state) := ensure lock.name state
    if ensured then
      applyPresent machine managers circumstances dryRun lock state
    else (1, state)

/-- `apply_strata`: one stratum after the other, whatever becomes of them. -/
def applyStrata (machine : Machine γ) (managers : Managers γ)
    (ensure : Bytes → State γ → Bool × State γ)
    (circumstances : StratumLock → Circumstances) (dryRun : Bool) :
    List StratumLock → State γ → Nat × State γ
  | [], state => (0, state)
  | lock :: rest, state =>
      let (code, state) := applyStratum machine managers ensure
        (circumstances lock) dryRun lock state
      let (later, state) := applyStrata machine managers ensure circumstances
        dryRun rest state
      (if code ≠ 0 then 1 else later, state)

/-- `lock_apply` of a lockfile that is loaded, with its exit code. -/
def lockApply (machine : Machine γ) (managers : Managers γ)
    (ensure : Bytes → State γ → Bool × State γ)
    (circumstances : StratumLock → Circumstances) (session : Session)
    (flags : TxnFlags) (index : Option Index) (file : LockFile)
    (state : State γ) : Io (Nat × State γ) := do
  let code ← lockApplyNative session flags index file.native
  if code ≠ 0 ∨ flags.downloadOnly then return (code, state)
  return applyStrata machine managers ensure circumstances flags.dryRun
    file.strata state

/-- What the commands of the lockfile read afterwards. -/
def Managers.systemAfter (managers : Managers γ) (system : System) (db : Db)
    (state : State γ) : System :=
  { system with
    db := db
    strata := some (state.strata.map managers.stratum)
    tools := fun stratum => managers.tools stratum state.disk }

end SaltOS.Lock
