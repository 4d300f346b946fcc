import SaltOS.Base.Util
import SaltOS.Config.SystemConfig
import SaltOS.Lib.Keyed

/-!
# Exposed commands

`salt_expose_add`, `salt_expose_remove` and `salt_expose_desktop` of
`src/halite/src/stratum.c` and `apply_expose` of `src/salt/cmd_config.cpp`.

The files are what these functions see of a disk: what can be found at a path
and what reading it gives.  Two paths name the same file only when they are
the same text.  Whether a file can be written or removed at a path and whether
a statement about an alias is carried out are up to the environment.  What is
printed, and the time column, which nothing reads, are left out.
-/

namespace SaltOS.Strata

open Lib Util Config

/-! ## Tables and files -/

/-- How an alias came about. -/
inductive Kind where
  | cli
  | pm
  | config
  deriving DecidableEq, Repr

/-- A row of `exposed`. -/
structure ExposedRow where
  aliasName : Bytes
  stratum : Bytes
  command : Bytes
  kind : Kind
  shimPath : Bytes
  deriving DecidableEq, Repr

/-- A row of `strata`, as far as it is read here. -/
structure StratumRow where
  name : Bytes
  root : Bytes
  deriving DecidableEq, Repr

/-- What is at a path; a directory has no text. -/
structure Stored where
  text : Option Bytes
  mode : Nat
  deriving DecidableEq, Repr

structure World where
  strata : List StratumRow
  exposed : KeyedTable ExposedRow.aliasName
  files : Bytes → Option Stored

/-- What the environment lets happen. -/
structure Environment where
  opens : Bool
  writes : Bytes → Bool
  removes : Bytes → Bool
  records : Bytes → Bool
  deletes : Bytes → Bool

namespace World

/-- `salt_path_exists`. -/
def pathExists (world : World) (path : Bytes) : Bool :=
  (world.files path).isSome

/-- `salt_write_file` when it succeeds. -/
def write (world : World) (path : Bytes) (text : Bytes) (mode : Nat) :
    World :=
  { world with
    files := Function.update world.files path (some ⟨some text, mode⟩) }

/-- `remove`, whose result nobody looks at. -/
def remove (env : Environment) (path : Bytes) (world : World) : World :=
  if env.removes path then
    { world with files := Function.update world.files path none }
  else world

/-- `salt_stratum_get`. -/
def stratum (world : World) (name : Bytes) : Option StratumRow :=
  world.strata.find? fun row => row.name = name

end World

/-! ## Shims -/

def shimPath (root aliasName : Bytes) : Bytes :=
  joinPath (joinPath root (ascii "usr/local/salt/shims")) aliasName

def shimText (stratum command : Bytes) : Bytes :=
  ascii "#!/bin/sh\nexec salt run " ++ stratum ++ [32] ++ command ++
    ascii " \"$@\"\n"

/-- `salt_expose_add`; the result says whether it returns `SALT_OK`. -/
def exposeAdd (env : Environment) (root stratum command aliasName : Bytes)
    (kind : Kind) (world : World) : Bool × World :=
  let path := shimPath root aliasName
  if (world.stratum stratum).isNone then (false, world)
  else if ¬ env.writes path then (false, world)
  else
    let world := world.write path (shimText stratum command) 493
    if ¬ env.records aliasName then (false, world)
    else (true, { world with
      exposed := world.exposed.put ⟨aliasName, stratum, command, kind, path⟩ })

/-- `salt_expose_remove`. -/
def exposeRemove (env : Environment) (aliasName : Bytes) (world : World) :
    Bool × World :=
  match world.exposed.get aliasName with
  | none => (false, world)
  | some row =>
      let world :=
        if row.shimPath ≠ [] then world.remove env row.shimPath else world
      (true, if env.deletes aliasName then
        { world with exposed := world.exposed.drop aliasName } else world)

/-! ## Desktop entries -/

def desktopPath (root stratum command : Bytes) : Bytes :=
  joinPath root (ascii "usr/local/share/applications/" ++ stratum ++ [45] ++
    command ++ ascii ".desktop")

/-- Where a stratum has its own entry for an application. -/
def desktopSource (root : Bytes) (row : StratumRow) (app : Bytes) : Bytes :=
  joinPath (if root ≠ ascii "/" then joinPath root row.root else row.root)
    (ascii "usr/share/applications/" ++ app ++ ascii ".desktop")

/-- A line of an entry, as it is written for the host. -/
def desktopLine (stratum line : Bytes) : Bytes :=
  if (ascii "Exec=").isPrefixOf line then
    ascii "Exec=salt run " ++ stratum ++ [32] ++ line.drop 5
  else line

/-- The lines of a text, each with its line end. -/
def textLines (text : Bytes) : List Bytes :=
  match text.splitOn 10 with
  | [] => []
  | lines => lines.dropLast.map (· ++ [10]) ++
      (lines.getLast?.filter (· ≠ [])).toList

/-- `salt_expose_desktop`; the result of its `salt_expose_add` is ignored. -/
def exposeDesktop (env : Environment) (root : Bytes) (row : StratumRow)
    (app : Bytes) (world : World) : Bool × World :=
  match (world.files (desktopSource root row app)).bind Stored.text with
  | none => (false, world)
  | some text =>
      let path := desktopPath root row.name app
      if ¬ env.writes path then (false, world)
      else
        let world := world.write path
          ((textLines text).flatMap (desktopLine row.name)) 420
        (true, (exposeAdd env root row.name app app .cli world).2)

/-! ## Applying a configuration -/

/-- The test `same` of `apply_expose`; `have` is looked up in the list that
was read at the start. -/
def inPlace (root : Bytes) (known : KeyedTable ExposedRow.aliasName)
    (world : World) (entry : ExposeConfig) : Bool :=
  match known.get entry.aliasName with
  | none => false
  | some row =>
      entry.stratum = row.stratum ∧ entry.command = row.command ∧
        row.kind = .config ∧ world.pathExists row.shimPath ∧
        (entry.desktop → world.pathExists
          (desktopPath root entry.stratum entry.command))

/-- The state of the loops of `apply_expose`: whether `rc` is still zero, and
how many entries matched. -/
structure Progress where
  ok : Bool
  matched : Nat
  world : World

/-- Exposing an entry that is not in place. -/
def exposeEntry (env : Environment) (root : Bytes) (entry : ExposeConfig)
    (world : World) : Bool × World :=
  match world.stratum entry.stratum with
  | none => (false, world)
  | some row =>
      let (ready, world) :=
        if entry.desktop then
          exposeDesktop env root row entry.command world
        else (true, world)
      if ¬ ready then (false, world)
      else exposeAdd env root entry.stratum entry.command entry.aliasName
        .config world

def exposeRound (env : Environment) (root : Bytes) (dryRun : Bool)
    (known : KeyedTable ExposedRow.aliasName) (progress : Progress)
    (entry : ExposeConfig) : Progress :=
  if inPlace root known progress.world entry then
    { progress with matched := progress.matched + 1 }
  else if dryRun then progress
  else
    let (exposed, world) := exposeEntry env root entry progress.world
    { progress with ok := progress.ok && exposed, world := world }

/-- Removing a row that is no longer declared. -/
def unexposeRound (env : Environment) (root : Bytes) (dryRun : Bool)
    (progress : Progress) (row : ExposedRow) : Progress :=
  if dryRun then progress
  else
    let (removed, world) := exposeRemove env row.aliasName progress.world
    if ¬ removed then { progress with ok := false, world := world }
    else
      let desktop := desktopPath root row.stratum row.command
      { progress with
        world := if world.pathExists desktop then world.remove env desktop
          else world }

/-- The rows of kind `config` that are not declared, in the order of the
list. -/
def staleRows (entries : List ExposeConfig)
    (known : KeyedTable ExposedRow.aliasName) : List ExposedRow :=
  (known.rows.insertionSort fun first second =>
    first.aliasName ≤ second.aliasName).filter fun row =>
      row.kind = .config ∧ row.aliasName ∉ entries.map ExposeConfig.aliasName

/-- `apply_expose`: whether it returns zero, and what it leaves. -/
def applyExpose (env : Environment) (root : Bytes) (dryRun : Bool)
    (entries : List ExposeConfig) (world : World) : Bool × World :=
  if ¬ env.opens then (false, world)
  else
    let exposed := entries.foldl (exposeRound env root dryRun world.exposed)
      ⟨true, 0, world⟩
    let progress := (staleRows entries world.exposed).foldl
      (unexposeRound env root dryRun) exposed
    (progress.ok, progress.world)

end SaltOS.Strata
