import SaltOS.Base.Landing
import SaltOS.Lib.Run
import SaltOS.Strata.Expose

/-!
# Snapshots of a stratum

`salt_stratum_snapshot_create` and `salt_stratum_rollback` of
`src/halite/src/stratum.c`, which name and make directories themselves and
leave the copying to programs that a shell runs.  What the shell does with a
command is a parameter.  The holder process that a rollback stops, and the
time column, which nothing reads, are left out.
-/

namespace SaltOS.Strata

open Lib Util Disk

/-! ## Names -/

/-- `gmtime_r` and `strftime` with the format `%Y%m%dT%H%M%SZ`, for seconds
since 1970. -/
def snapshotTimestamp (clock : Int) : Bytes :=
  let days := clock / 86400 + 719468
  let seconds := (clock % 86400).toNat
  -- Years are counted from March here, in eras of 400.
  let ofEra := (days % 146097).toNat
  let yearOfEra :=
    (ofEra - ofEra / 1460 + ofEra / 36524 - ofEra / 146096) / 365
  let ofYear := ofEra - (365 * yearOfEra + yearOfEra / 4 - yearOfEra / 100)
  let fromMarch := (5 * ofYear + 2) / 153
  let month := if fromMarch < 10 then fromMarch + 3 else fromMarch - 9
  let year := days / 146097 * 400 + yearOfEra + (if month ≤ 2 then 1 else 0)
  let two := fun value => padZeros 2 (printBase 10 value)
  printInt year ++ two month ++
    two (ofYear - (153 * fromMarch + 2) / 5 + 1) ++ ascii "T" ++
    two (seconds / 3600) ++ two (seconds / 60 % 60) ++ two (seconds % 60) ++
    ascii "Z"

example : snapshotTimestamp 1709210096 = ascii "20240229T123456Z" := by
  decide +kernel

/-- `salt_strata_ctx`, with what the shell makes of a command: whether the
command exits with zero, and the disk that it leaves. -/
structure Machine (γ : Type) where
  root : Bytes
  useBtrfs : Bool
  system : Bytes → Disk γ → Bool × Disk γ

variable {γ : Type}

namespace Machine

def strataRoot (machine : Machine γ) : Bytes :=
  if machine.root = ascii "/" then ascii "/strata"
  else joinPath machine.root (ascii "strata")

/-- `stratum_target`. -/
def stratumTarget (machine : Machine γ) (recipeRoot : Bytes) : Bytes :=
  if machine.root = ascii "/" then recipeRoot
  else joinPath machine.root recipeRoot

def snapshotDir (machine : Machine γ) (name : Bytes) : Bytes :=
  joinPath machine.strataRoot (ascii ".snapshots/" ++ name)

def snapshotPath (machine : Machine γ) (name label : Bytes) (clock : Int) :
    Bytes :=
  joinPath (machine.snapshotDir name) (label ++ [45] ++
    snapshotTimestamp clock)

end Machine

/-! ## Commands -/

/-- A text between single quotes. -/
def quoted (text : Bytes) : Bytes :=
  [39] ++ text ++ [39]

def copyCommand (options source target : Bytes) : Bytes :=
  ascii "cp " ++ options ++ ascii " --reflink=auto " ++
    quoted (source ++ ascii "/.") ++ [32] ++ quoted (target ++ ascii "/")

def clearCommand (target : Bytes) : Bytes :=
  ascii "find " ++ quoted target ++ ascii " -mindepth 1 -delete"

def extractCommand (archive target : Bytes) : Bytes :=
  ascii "tar -xpf " ++ quoted archive ++ ascii " -C " ++ quoted target

def subvolumeSnapshot (options source target : Bytes) : Bytes :=
  ascii "btrfs subvolume snapshot " ++ options ++ quoted source ++ [32] ++
    quoted target

def subvolumeDelete (target : Bytes) : Bytes :=
  ascii "btrfs subvolume delete " ++ quoted target

/-! ## Tables -/

inductive SnapshotKind where
  | btrfs
  | copy
  | tar
  deriving DecidableEq, Repr

/-- A row of `stratum_snapshots`. -/
structure SnapshotRow where
  id : Nat
  stratum : Bytes
  label : Bytes
  path : Bytes
  kind : SnapshotKind
  deriving DecidableEq, Repr

/-- The disk and the strata database; the snapshots are in the order of their
ids, and `lastId` is the last id that was given out. -/
structure State (γ : Type) where
  disk : Disk γ
  strata : List StratumRow
  snapshots : List SnapshotRow
  lastId : Nat

namespace State

/-- `salt_stratum_get`. -/
def stratum (state : State γ) (name : Bytes) : Option StratumRow :=
  state.strata.find? fun row => row.name = name

/-- The row that `salt_stratum_rollback` selects: the one of the id, or the
latest one. -/
def snapshot (state : State γ) (name : Bytes) (id : Int) :
    Option SnapshotRow :=
  if 0 < id then
    state.snapshots.find? fun row => row.stratum = name ∧ (row.id : Int) = id
  else state.snapshots.reverse.find? fun row => row.stratum = name

end State

/-! ## Taking a snapshot -/

/-- `salt_mkdirs` whose result nobody looks at. -/
def made (path : Bytes) (disk : Disk γ) : Disk γ :=
  finalState (mkdirs path 493 disk)

/-- The copy of the stratum: whether it was made, and of which kind. -/
def takeCopy (machine : Machine γ) (target path : Bytes) (disk : Disk γ) :
    (Bool × Disk γ) × SnapshotKind :=
  if machine.useBtrfs then
    (machine.system (subvolumeSnapshot (ascii "-r ") target path) disk, .btrfs)
  else
    (machine.system (copyCommand (ascii "-ax") target path)
      (made path disk), .copy)

/-- `salt_stratum_snapshot_create`, with the clock that it reads and what the
database says when it refuses the new row. -/
def snapshotCreate (machine : Machine γ) (name label : Bytes) (clock : Int)
    (refusal : Option Bytes) (state : State γ) :
    Except Failure Nat × State γ :=
  match state.stratum name with
  | none =>
      (.error ⟨.notFound, some (ascii "snapshot: unknown stratum " ++ name)⟩,
        state)
  | some row =>
      let path := machine.snapshotPath name label clock
      let ((copied, disk), kind) := takeCopy machine
        (machine.stratumTarget row.root) path
        (made (machine.snapshotDir name) state.disk)
      let state := { state with disk := disk }
      if ¬ copied then
        (.error ⟨.err, some (ascii "snapshot create failed for " ++ name)⟩,
          state)
      else
        match refusal with
        | some message =>
            (.error ⟨.err, some (ascii "snapshot record failed: " ++
              message)⟩, state)
        | none =>
            let id := state.lastId + 1
            (.ok id, { state with
              snapshots := state.snapshots ++ [⟨id, name, label, path, kind⟩]
              lastId := id })

/-! ## Going back to a snapshot -/

/-- The commands by which the tree of a snapshot takes the place of the
stratum's. -/
def restoreTree (machine : Machine γ) (name : Bytes) (snap : SnapshotRow)
    (target : Bytes) (clock : Int) (disk : Disk γ) : Bool × Disk γ :=
  match snap.kind with
  | .btrfs =>
      let dir := machine.snapshotDir name
      let safe := dir ++ ascii "/prerollback-" ++ snapshotTimestamp clock
      let disk := (machine.system (subvolumeSnapshot (ascii "-r ") target safe)
        (made dir disk)).2
      let disk := (machine.system (subvolumeDelete target) disk).2
      machine.system (subvolumeSnapshot [] snap.path target) disk
  | .tar =>
      machine.system (extractCommand snap.path target)
        (made target (machine.system (clearCommand target) disk).2)
  | .copy =>
      machine.system (copyCommand (ascii "-a") snap.path target)
        (made target (machine.system (clearCommand target) disk).2)

/-- `salt_stratum_rollback`, with the clock that it may read. -/
def rollback (machine : Machine γ) (name : Bytes) (id : Int) (clock : Int)
    (state : State γ) : Except Failure Unit × State γ :=
  match state.stratum name with
  | none =>
      (.error ⟨.notFound, some (ascii "rollback: unknown stratum " ++ name)⟩,
        state)
  | some row =>
      match state.snapshot name id with
      | none =>
          (.error ⟨.notFound,
            some (ascii "rollback: no snapshot found for " ++ name)⟩, state)
      | some snap =>
          let (restored, disk) := restoreTree machine name snap
            (machine.stratumTarget row.root) clock state.disk
          let state := { state with disk := disk }
          if restored then (.ok (), state)
          else
            (.error ⟨.err, some (ascii "rollback failed for " ++ name)⟩, state)

/-! ## Runs -/

inductive Event where
  | create (name label : Bytes) (clock : Int) (refusal : Option Bytes)
  | change (name : Bytes)
  | rollback (name : Bytes) (id clock : Int)
  deriving DecidableEq, Repr

/-- Something else changed the tree of a stratum: anything may be different
below its directory, and the mode of the directory. -/
structure Changed (machine : Machine γ) (name : Bytes)
    (before after : State γ) : Prop where
  rows : after.strata = before.strata ∧ after.snapshots = before.snapshots ∧
    after.lastId = before.lastId
  cwd : after.disk.cwd = before.disk.cwd
  below : ∃ row top, before.stratum name = some row ∧
    before.disk.resolve (machine.stratumTarget row.root) = .ok top ∧
    after.disk.fs.IsDir top ∧ ∀ loc, ¬ top <:+ loc →
      after.disk.fs.node? loc = before.disk.fs.node? loc

/-- What may happen to the strata and their snapshots. -/
def Step (machine : Machine γ) (before : State γ) (event : Event)
    (after : State γ) : Prop :=
  match event with
  | .create name label clock refusal =>
      after = (snapshotCreate machine name label clock refusal before).2
  | .change name => Changed machine name before after
  | .rollback name id clock =>
      after = (rollback machine name id clock before).2

end SaltOS.Strata
